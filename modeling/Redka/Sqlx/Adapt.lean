import Mathlib.Data.List.Basic

/-! # The PostgreSQL adapter (`AdaptPostgresQuery`, `ConvertPlaceholders`)

The repositories write their queries in SQLite's dialect with `?` placeholders.  On
PostgreSQL, `PostgresTx` passes every query through `AdaptPostgresQuery` before it runs:
a fixed sequence of textual rewrites (`rowid`, `glob`, `ON CONFLICT` qualification,
keyword case, `LIMIT x, y`, `JOIN` qualification) followed by `ConvertPlaceholders`,
which numbers the `?` as `$1`, `$2`, ... in textual order.  Some repositories number
or adapt a query themselves before `PostgresTx` adapts it again.

The model follows the Go text step by step, over the functions of package `strings` it
calls.  Text is a list of characters where Go slices bytes; the two agree on every query
here, whose characters are ASCII, and on all text except a non-ASCII character right
after a `limit` whose clause holds a comma (`limitClause[6:]` cuts bytes).
-/

namespace Redka
namespace Strings

/-- `strings.Index`: the first position at which `sub` starts, if any. -/
def indexList (sub : List Char) : List Char → Option Nat
  | [] => if sub.isPrefixOf [] then some 0 else none
  | c :: t => if sub.isPrefixOf (c :: t) then some 0 else (indexList sub t).map (· + 1)

/-- `strings.Index`. -/
def index (s sub : String) : Option Nat := indexList sub.data s.data

/-- `strings.Contains`. -/
def contains (s sub : String) : Bool := (index s sub).isSome

/-- The loop of `strings.Replace` for a nonempty `old`: the leftmost matches, taken
without overlap, at most `n` of them when `n ≥ 0`; `k` characters of the last match
are still to be skipped. -/
def replaceGo (old new : List Char) : Int → Nat → List Char → List Char
  | _, _, [] => []
  | n, k + 1, _ :: t => replaceGo old new n k t
  | n, 0, c :: t =>
    if n ≠ 0 ∧ old.isPrefixOf (c :: t) then new ++ replaceGo old new (n - 1) (old.length - 1) t
    else c :: replaceGo old new n 0 t

/-- The loop of `strings.Replace` for an empty `old`, which matches before every character
and at the end: at most `n` insertions of `new` when `n ≥ 0`. -/
def insertGo (new : List Char) : Int → List Char → List Char
  | n, [] => if n = 0 then [] else new
  | n, c :: t => if n = 0 then c :: t else new ++ c :: insertGo new (n - 1) t

/-- `strings.Replace(s, old, new, n)`. -/
def replace (s old new : String) (n : Int) : String :=
  match old.data with
  | [] => ⟨insertGo new.data n s.data⟩
  | _ :: _ => ⟨replaceGo old.data new.data n 0 s.data⟩

/-- `strings.ReplaceAll`. -/
def replaceAll (s old new : String) : String := replace s old new (-1)

/-- The loop of `strings.Split` for a nonempty separator: `acc` is the piece being
read, reversed. -/
def splitGo (sep : List Char) : Nat → List Char → List Char → List (List Char)
  | _, acc, [] => [acc.reverse]
  | k + 1, acc, _ :: t => splitGo sep k acc t
  | 0, acc, c :: t =>
    if sep.isPrefixOf (c :: t) then acc.reverse :: splitGo sep (sep.length - 1) [] t
    else splitGo sep 0 (c :: acc) t

/-- `strings.Split`; every call here passes a nonempty separator. -/
def split (s sep : String) : List String := (splitGo sep.data 0 [] s.data).map String.mk

/-- `unicode.IsSpace`. -/
def isSpace (c : Char) : Bool :=
  c = '\t' || c = '\n' || c = '\x0b' || c = '\x0c' || c = '\r' || c = ' ' || c = '\x85' ||
    c = '\xa0' || c = '\u1680' || ('\u2000' ≤ c && c ≤ '\u200a') || c = '\u2028' ||
    c = '\u2029' || c = '\u202f' || c = '\u205f' || c = '\u3000'

/-- `strings.TrimSpace`. -/
def trimSpace (s : String) : String :=
  ⟨((s.data.dropWhile isSpace).reverse.dropWhile isSpace).reverse⟩

/-- `s[i:]`. -/
def sliceFrom (s : String) (i : Nat) : String := ⟨s.data.drop i⟩

/-- `s[i:j]`. -/
def slice (s : String) (i j : Nat) : String := ⟨(s.data.take j).drop i⟩

end Strings

namespace Sqlx
open Strings

/-- The loop of `ConvertPlaceholders`: the `?` from here on become `$n`, `$(n+1)`, ... -/
def convertFrom : Nat → List Char → List Char
  | _, [] => []
  | n, c :: t => if c = '?' then '$' :: (Nat.repr n).data ++ convertFrom (n + 1) t
    else c :: convertFrom n t

/-- `ConvertPlaceholders`. -/
def convertPlaceholders (query : String) : String :=
  if contains query "?" then ⟨convertFrom 1 query.data⟩ else query

/-- The keywords `AdaptPostgresQuery` writes in upper case, in its order. -/
def upperKeywords : List (String × String) :=
  [("and field in (:fields)", "AND field IN (:fields)"), ("and field = ?", "AND field = ?"),
    ("and (", "AND ("), ("and elem in", "AND elem IN"), ("and elem = ?", "AND elem = ?"),
    ("and score between", "AND score BETWEEN"), ("and ", "AND "), (" and ", " AND "),
    ("\nand ", "\nAND "), ("and\n", "AND\n"), ("or ", "OR "), (" or ", " OR "),
    ("\nor ", "\nOR "), ("or\n", "OR\n"), ("where ", "WHERE "), (" where ", " WHERE "),
    ("\nwhere ", "\nWHERE "), ("join ", "JOIN "), (" join ", " JOIN "),
    ("\njoin ", "\nJOIN "), ("order by ", "ORDER BY "), (" order by ", " ORDER BY "),
    ("\norder by ", "\nORDER BY "), ("group by ", "GROUP BY "), (" group by ", " GROUP BY "),
    ("\ngroup by ", "\nGROUP BY ")]

/-- `AdaptPostgresQuery`.  The `mtime` and `etime` fixes of the `ON CONFLICT` block
replace a text by itself and are left out. -/
def adaptPostgresQuery (query : String) : String := Id.run do
  let mut query := query
  if contains query "update or replace" then
    query := replaceAll query "update or replace" "update"
  query := replaceAll query "rowid" "ctid::text"
  query := replaceAll query " glob " " ILIKE "
  query := replaceAll query "field glob" "field ILIKE"
  query := replaceAll query "elem glob" "elem ILIKE"
  if contains query "in ()" then
    query := replaceAll query "in ()" "= ANY(\x27\x7b\x7d\x27::text[])"
  if contains query "ON CONFLICT" || contains query "on conflict" then
    if contains query "type = CASE WHEN type = excluded.type" then
      query := replace query "type = CASE WHEN type = excluded.type THEN type ELSE null END"
        "type = CASE WHEN rkey.type = excluded.type THEN rkey.type ELSE null END" (-1)
    if contains query "type = case when type = excluded.type" then
      query := replace query "type = case when type = excluded.type then type else null end"
        "type = CASE WHEN rkey.type = excluded.type THEN rkey.type ELSE null END" (-1)
    if contains query "version = version+1" then
      query := replace query "version = version+1" "version = rkey.version+1" (-1)
    if contains query "version = version + 1" then
      query := replace query "version = version + 1" "version = rkey.version + 1" (-1)
    if contains query "len = len + 1" then
      query := replace query "len = len + 1" "len = rkey.len + 1" (-1)
  if contains query "on conflict" then
    if contains query "returning" then
      let parts := split query "returning"
      if parts.length > 1 then
        query := parts.getD 0 ""
        let returningClause := "RETURNING" ++ parts.getD 1 ""
        if contains query "on conflict" then
          query := replace query "on conflict" "ON CONFLICT" (-1)
          query := replace query "do update set" "DO UPDATE SET" (-1)
          query := query ++ " " ++ returningClause
    else
      query := replace query "on conflict" "ON CONFLICT" (-1)
      query := replace query "do update set" "DO UPDATE SET" (-1)
      query := replace query "do nothing" "DO NOTHING" (-1)
  if contains query "case when" then
    query := replace query "case when" "CASE WHEN" (-1)
    query := replace query "then" "THEN" (-1)
    query := replace query "else" "ELSE" (-1)
    query := replace query "end" "END" (-1)
  if contains query "limit\n" then
    query := replaceAll query "limit\n" "LIMIT "
  if contains query "limit" then
    if let some limStartIdx := index query "limit" then
      let restOfQuery := sliceFrom query limStartIdx
      let limEndIdx := match index restOfQuery ";" with
        | some semicolonPos => limStartIdx + semicolonPos
        | none => query.length
      let limitClause := slice query limStartIdx limEndIdx
      if contains limitClause "," then
        let parts := split (sliceFrom limitClause 6) ","
        if parts.length = 2 then
          let x := trimSpace (parts.getD 0 "")
          let y := trimSpace (parts.getD 1 "")
          query := slice query 0 limStartIdx ++ "LIMIT " ++ y ++ " OFFSET " ++ x ++
            sliceFrom query limEndIdx
  query := upperKeywords.foldl (fun q kw => replaceAll q kw.1 kw.2) query
  if contains query "JOIN" then
    for t in ["1", "2", "3", "4", "5"] do
      if contains query ("type = " ++ t) then
        query := replace query ("type = " ++ t) ("rkey.type = " ++ t) 1
    query := replace query "on kid = rkey.id and" "on kid = rkey.id AND" (-1)
    if contains query "WHERE key =" && contains query "etime is null" then
      query := replace query "etime is null" "rkey.etime is null" (-1)
    if contains query "WHERE key =" && contains query "etime >" then
      query := replace query "etime >" "rkey.etime >" (-1)
  return convertPlaceholders query

end Sqlx
end Redka
