import Redka.Url

/-! # `DataSource`, the connection string of a database

`DataSource(path, driver, writable, pragma)` returns a PostgreSQL path as it is.  For SQLite
it cuts the path at its first `?`, reads the parameters after it with `url.ParseQuery`,
dropping the error, and

* names the database `file:redka`, with `mode=memory` and `cache=shared`, when the path is
  `:memory:`, and the path with a `file:` prefix otherwise;
* sets `_mutex=no`;
* sets `_txlock=immediate` for the writable handle, and `mode=ro` for the read-only one
  unless `mode` is `memory`;
* adds `_pragma=name=val` for each pragma, in the order Go visits the map, which is any
  order;

and returns the name, `?` and the encoded parameters.

`dataSource_params` says what SQLite reads from that string, for every path, handle and
order of the pragmas: the name, and each parameter of the path that parses with the
settings of `DataSource` over it (`expectedParam`).  A parameter of the path whose segment
holds a `;` or a bad `%` escape is dropped, since `DataSource` drops the error of
`ParseQuery`.
-/

namespace Redka
namespace Sqlx
open Url

/-- `DriverPostgres`. -/
def driverPostgres : Bytes := ascii "postgres"

/-- `DataSource`; `pragma` lists the map's entries in the order `range` visits them. -/
def dataSource (path driver : Bytes) (writable : Bool) (pragma : List (Bytes × Bytes)) : Bytes :=
  if driver = driverPostgres then path
  else
    let source := (cut '?'.toUInt8 path).1
    let params := (parseQuery (cut '?'.toUInt8 path).2).1
    let (ds, params) :=
      if source = ascii ":memory:" then
        (ascii "file:redka", (params.set (ascii "mode") (ascii "memory")).set (ascii "cache") (ascii "shared"))
      else (if (ascii "file:").isPrefixOf source then source else ascii "file:" ++ source, params)
    let params := params.set (ascii "_mutex") (ascii "no")
    let params :=
      if writable then params.set (ascii "_txlock") (ascii "immediate")
      else if params.get (ascii "mode") ≠ ascii "memory" then params.set (ascii "mode") (ascii "ro")
      else params
    let params := pragma.foldl (fun p e => p.add (ascii "_pragma") (e.1 ++ ascii "=" ++ e.2)) params
    ds ++ '?'.toUInt8 :: params.encode

/-! ## What SQLite reads -/

/-- The database name in the string: `file:redka` for `:memory:`, the source with a `file:`
prefix otherwise. -/
def dataSourceName (source : Bytes) : Bytes :=
  if source = ascii ":memory:" then ascii "file:redka"
  else if (ascii "file:").isPrefixOf source then source else ascii "file:" ++ source

/-- The values of parameter `k` in the string, from the values `user` of the path's own
parameters: `_mutex` is `no`; `_txlock` is `immediate` on the writable handle; an in-memory
database has `mode=memory` and `cache=shared`; the read-only handle of a file has `mode=ro`
unless the path's first `mode` is `memory`; the pragmas follow the path's own `_pragma`
values. -/
def expectedParam (user : Bytes → List Bytes) (memory writable : Bool) (pragma : List (Bytes × Bytes))
    (k : Bytes) : List Bytes :=
  if k = ascii "_mutex" then [ascii "no"]
  else if k = ascii "_txlock" then (if writable then [ascii "immediate"] else user k)
  else if k = ascii "mode" then
    if memory then [ascii "memory"]
    else if !writable ∧ (user k).headD [] ≠ ascii "memory" then [ascii "ro"]
    else user k
  else if k = ascii "cache" then (if memory then [ascii "shared"] else user k)
  else if k = ascii "_pragma" then user k ++ pragma.map fun e => e.1 ++ ascii "=" ++ e.2
  else user k

theorem not_mem_cut_fst (sep : UInt8) : ∀ p : Bytes, sep ∉ (cut sep p).1
  | [] => List.not_mem_nil _
  | c :: t => by
    rw [cut]
    split_ifs with hc
    · exact List.not_mem_nil _
    · exact List.mem_cons.not.2 (not_or.2 ⟨Ne.symm hc, not_mem_cut_fst sep t⟩)

/-- The name holds no `?`, so SQLite finds the parameters after the one `DataSource` writes. -/
theorem not_mem_dataSourceName (path : Bytes) :
    '?'.toUInt8 ∉ dataSourceName (cut '?'.toUInt8 path).1 := by
  have h := not_mem_cut_fst '?'.toUInt8 path
  unfold dataSourceName
  split_ifs
  · decide
  · exact h
  · exact List.mem_append.not.2 (not_or.2 ⟨by decide, h⟩)

theorem lookup_foldl_add_const (key : Bytes) (g : Bytes × Bytes → Bytes) (k : Bytes) :
    ∀ (l : List (Bytes × Bytes)) (m : Values),
      (l.foldl (fun p e => p.add key (g e)) m).lookup k = m.lookup k ++ if k = key then l.map g else []
  | [], m => by simp
  | e :: l, m => by
    rw [List.foldl_cons, lookup_foldl_add_const key g k l, Values.lookup_add]
    split_ifs with hk
    · subst hk; simp
    · simp

/-- The parameters after `DataSource`'s settings and pragmas, key by key. -/
theorem lookup_params (user : Values) (memory writable : Bool) (pragma : List (Bytes × Bytes))
    (k : Bytes) :
    (pragma.foldl (fun p e => p.add (ascii "_pragma") (e.1 ++ ascii "=" ++ e.2))
        (if writable then
          ((if memory then (user.set (ascii "mode") (ascii "memory")).set (ascii "cache") (ascii "shared")
            else user).set (ascii "_mutex") (ascii "no")).set (ascii "_txlock") (ascii "immediate")
        else if ((if memory then (user.set (ascii "mode") (ascii "memory")).set (ascii "cache") (ascii "shared")
            else user).set (ascii "_mutex") (ascii "no")).get (ascii "mode") ≠ ascii "memory" then
          ((if memory then (user.set (ascii "mode") (ascii "memory")).set (ascii "cache") (ascii "shared")
            else user).set (ascii "_mutex") (ascii "no")).set (ascii "mode") (ascii "ro")
        else (if memory then (user.set (ascii "mode") (ascii "memory")).set (ascii "cache") (ascii "shared")
            else user).set (ascii "_mutex") (ascii "no"))).lookup k =
      expectedParam user.lookup memory writable pragma k := by
  have hk : k = ascii "_mutex" ∨ k = ascii "_txlock" ∨ k = ascii "mode" ∨ k = ascii "cache" ∨
      k = ascii "_pragma" ∨ (k ≠ ascii "_mutex" ∧ k ≠ ascii "_txlock" ∧ k ≠ ascii "mode" ∧
        k ≠ ascii "cache" ∧ k ≠ ascii "_pragma") := by tauto
  rw [lookup_foldl_add_const]
  by_cases hmode : (user.lookup (ascii "mode")).head?.getD [] = ascii "memory" <;>
    rcases hk with rfl | rfl | rfl | rfl | rfl | ⟨k1, k2, k3, k4, k5⟩ <;> cases memory <;> cases writable <;>
    simp (disch := decide) [expectedParam, Values.get, if_neg, hmode, *]

/-- **What SQLite reads.**  For every path, every handle, every driver but PostgreSQL's and
every order in which Go visits the pragmas, the string `DataSource` returns is the database
name, `?` and a query that `ParseQuery` reads without error, giving each parameter the
values `expectedParam` lists from the path's own: those of the segments after the path's `?`
that read (`readSegment`: no `;`, and both halves unescape). -/
theorem dataSource_params (path driver : Bytes) (hd : driver ≠ driverPostgres) (writable : Bool)
    (pragma : List (Bytes × Bytes)) :
    ∃ query, cut '?'.toUInt8 (dataSource path driver writable pragma) =
        (dataSourceName (cut '?'.toUInt8 path).1, query) ∧
      (parseQuery query).2 = none ∧
      ∀ k, (parseQuery query).1.lookup k =
        expectedParam (segmentValues (segments (cut '?'.toUInt8 path).2))
          ((cut '?'.toUInt8 path).1 = ascii ":memory:") writable pragma k := by
  have hname := not_mem_dataSourceName path
  have huser : (parseQuery (cut '?'.toUInt8 path).2).1.lookup =
      segmentValues (segments (cut '?'.toUInt8 path).2) :=
    funext (parseQuery_lookup _)
  unfold dataSource
  rw [if_neg hd, ← huser]
  generalize (cut '?'.toUInt8 path).1 = source at *
  generalize (parseQuery (cut '?'.toUInt8 path).2).1 = user
  by_cases hm : source = ascii ":memory:"
  · simp only [dataSourceName, hm, if_true, decide_True] at hname ⊢
    exact ⟨_, cut_append hname _, (parseQuery_encode _).1,
      fun k => ((parseQuery_encode _).2 k).trans (lookup_params user true writable pragma k)⟩
  · simp only [dataSourceName, hm, if_false, decide_False] at hname ⊢
    exact ⟨_, cut_append hname _, (parseQuery_encode _).1,
      fun k => ((parseQuery_encode _).2 k).trans (lookup_params user false writable pragma k)⟩

/-- The read-only handle of a file whose path asks for `mode=rw`, with one pragma. -/
theorem dataSource_params_readOnly :
    ascii "sqlite" ≠ driverPostgres ∧
      ∃ query, cut '?'.toUInt8 (dataSource (ascii "data.db?mode=rw") (ascii "sqlite") false
          [(ascii "journal_mode", ascii "wal")]) =
          (dataSourceName (cut '?'.toUInt8 (ascii "data.db?mode=rw")).1, query) ∧
        (parseQuery query).2 = none ∧
        ∀ k, (parseQuery query).1.lookup k =
          expectedParam (segmentValues (segments (cut '?'.toUInt8 (ascii "data.db?mode=rw")).2))
            ((cut '?'.toUInt8 (ascii "data.db?mode=rw")).1 = ascii ":memory:") false
            [(ascii "journal_mode", ascii "wal")] k :=
  ⟨by decide, dataSource_params _ _ (by decide) _ _⟩

/-- The read-only handle of a file database is opened read-only whatever `mode` the path asks
for. -/
example : dataSource (ascii "data.db?mode=rw") (ascii "sqlite") false [] =
    ascii "file:data.db?_mutex=no&mode=ro" := by
  decide

end Sqlx
end Redka
