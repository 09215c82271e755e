import Redka.Sqlx.Expand

/-! # The two pattern languages of `Scan`

The hash and set scans filter on `field glob ?` (and `elem glob ?`).  SQLite runs `GLOB`:
`*` matches any text, `?` one character, `[...]` one character of a class, and every
other character itself, with letter case kept.  On PostgreSQL `AdaptPostgresQuery`
rewrites ` glob ` to ` ILIKE `, and the pattern is passed as it is: in `LIKE`, `%` matches
any text, `_` one character, a backslash makes the next character literal (and may not end
the pattern), and every other character, `*` and `?` included, matches itself; `ILIKE`
compares the lower-case forms.

Both are matchers over one token list (`Tok`), read from the pattern text by each
engine's own rules.  The letter case of `ILIKE` is `Char.toLower`, which folds ASCII
letters only.  So a pattern with `*` or `?` means one thing to SQLite and another to
PostgreSQL (`glob_ilike_differ`), and the translation `*` → `%`, `?` → `_`, with `%`, `_`
and the backslash escaped, makes the two agree up to case (`ilike_translate`).
-/

namespace Redka
namespace Sqlx

/-- A pattern token: any text, one character, a class of characters (ranges, possibly
inverted), a literal character, or an unterminated class, which matches nothing. -/
inductive Tok where
  | star
  | one
  | set (invert : Bool) (ranges : List (Char × Char))
  | lit (c : Char)
  | bad
  deriving DecidableEq, Repr

/-- Whether the tokens match the whole text. -/
def matchToks : List Tok → List Char → Bool
  | [], s => s.isEmpty
  | .star :: p, s => s.tails.any (matchToks p)
  | .one :: _, [] => false
  | .one :: p, _ :: s => matchToks p s
  | .set _ _ :: _, [] => false
  | .set inv rs :: p, c :: s => (rs.any (fun r => r.1 ≤ c && c ≤ r.2) != inv) && matchToks p s
  | .lit _ :: _, [] => false
  | .lit a :: p, c :: s => a == c && matchToks p s
  | .bad :: _, _ => false

/-- Where SQLite's reader is inside a `[...]` class: right after `[`, right after `[^`, or
among the members, with the last member that can start a range. -/
inductive ClassPos where
  | opened
  | inverted
  | members (invert : Bool) (prior : Option Char) (ranges : List (Char × Char))

/-- SQLite's reading of a `GLOB` pattern (`patternCompare`): `*`, `?`, and a class `[...]`
whose first member may be `]`, with `^` first for an inverted class and `a-z` for a range
when `-` follows a member and comes before another. -/
def globToks : Option ClassPos → List Char → List Tok
  | none, [] => []
  | none, '*' :: p => .star :: globToks none p
  | none, '?' :: p => .one :: globToks none p
  | none, '[' :: p => globToks (some .opened) p
  | none, c :: p => .lit c :: globToks none p
  | some _, [] => [.bad]
  | some .opened, '^' :: p => globToks (some .inverted) p
  | some .opened, ']' :: p => globToks (some (.members false none [(']', ']')])) p
  | some .opened, c :: p => globToks (some (.members false (some c) [(c, c)])) p
  | some .inverted, ']' :: p => globToks (some (.members true none [(']', ']')])) p
  | some .inverted, c :: p => globToks (some (.members true (some c) [(c, c)])) p
  | some (.members inv _ rs), ']' :: p => .set inv rs :: globToks none p
  | some (.members inv (some lo) rs), '-' :: hi :: p =>
    if hi = ']' then globToks (some (.members inv (some '-') (('-', '-') :: rs))) (hi :: p)
    else globToks (some (.members inv none ((lo, hi) :: rs))) p
  | some (.members inv _ rs), c :: p => globToks (some (.members inv (some c) ((c, c) :: rs))) p

/-- A character that `GLOB` reads specially nowhere matches itself. -/
theorem globToks_other {c : Char} (p : List Char) (h1 : c ≠ '*') (h2 : c ≠ '?') (h3 : c ≠ '[') :
    globToks none (c :: p) = .lit c :: globToks none p :=
  globToks.eq_5 c p h1 h2 h3

/-- SQLite's `text GLOB pattern`. -/
def glob (text pattern : String) : Bool := matchToks (globToks none pattern.data) text.data

/-- PostgreSQL's reading of a `LIKE` pattern: `none` when a backslash ends it. -/
def likeToks : List Char → Option (List Tok)
  | [] => some []
  | '%' :: p => (likeToks p).map (.star :: ·)
  | '_' :: p => (likeToks p).map (.one :: ·)
  | ['\\'] => none
  | '\\' :: c :: p => (likeToks p).map (.lit c :: ·)
  | c :: p => (likeToks p).map (.lit c :: ·)

theorem likeToks_other {c : Char} (p : List Char) (h1 : c ≠ '%') (h2 : c ≠ '_') (h3 : c ≠ '\\') :
    likeToks (c :: p) = (likeToks p).map (.lit c :: ·) :=
  likeToks.eq_6 c p h1 h2 (fun h => absurd h h3) (fun _ _ h => absurd h h3)

/-- The lower-case form of a text. -/
def lower (s : String) : String := ⟨s.data.map Char.toLower⟩

/-- PostgreSQL's `text ILIKE pattern`, or the error of a pattern that ends with the escape
character. -/
def ilike (text pattern : String) : Option Bool :=
  (likeToks (lower pattern).data).map fun t => matchToks t (lower text).data

/-- On PostgreSQL the pattern `a*` keeps its star as a character: it matches `ab` under
SQLite's `GLOB`, lower-cased or not, and not under `ILIKE`. -/
theorem glob_ilike_differ :
    glob (lower "ab") (lower "a*") = true ∧ ilike "ab" "a*" = some false := by
  decide

/-! ## The translation that makes the two agree -/

/-- A pattern of literal characters, `*` and `?`, the patterns SQLite and PostgreSQL could
share. -/
def Simple (p : List Char) : Prop := '[' ∉ p

/-- The token of a character of a simple pattern. -/
def tokOf (c : Char) : Tok := if c = '*' then .star else if c = '?' then .one else .lit c

/-- One character of the translation: `*` → `%`, `?` → `_`, and the characters `LIKE`
reads specially escaped. -/
def escape (c : Char) : List Char :=
  if c = '*' then ['%'] else if c = '?' then ['_']
  else if c = '%' ∨ c = '_' ∨ c = '\\' then ['\\', c] else [c]

/-- The translation of a `GLOB` pattern to a `LIKE` pattern. -/
def translate (p : List Char) : List Char := p.flatMap escape

theorem globToks_simple : ∀ p : List Char, Simple p → globToks none p = p.map tokOf
  | [], _ => rfl
  | c :: p, h => by
    have hc : c ≠ '[' := fun hc => h (hc ▸ List.mem_cons_self _ _)
    rw [List.map_cons, ← globToks_simple p fun hm => h (List.mem_cons_of_mem _ hm), tokOf]
    by_cases h1 : c = '*'
    · subst h1; rfl
    by_cases h2 : c = '?'
    · subst h2; rfl
    rw [if_neg h1, if_neg h2, globToks_other p h1 h2 hc]

theorem likeToks_escape_append (c : Char) (rest : List Char) :
    likeToks (escape c ++ rest) = (likeToks rest).map (tokOf c :: ·) := by
  unfold escape tokOf
  by_cases h1 : c = '*'
  · subst h1; rfl
  by_cases h2 : c = '?'
  · subst h2; rfl
  simp only [if_neg h1, if_neg h2]
  by_cases h3 : c = '%' ∨ c = '_' ∨ c = '\\'
  · rw [if_pos h3]; rfl
  · rw [if_neg h3]
    simp only [not_or] at h3
    rw [List.singleton_append, likeToks_other _ h3.1 h3.2.1 h3.2.2]

theorem likeToks_translate : ∀ p : List Char, likeToks (translate p) = some (p.map tokOf)
  | [] => rfl
  | c :: p => by
    rw [translate, List.flatMap_cons, likeToks_escape_append, ← translate, likeToks_translate p]
    rfl

/-- Lower case moves no character onto the ones `translate` reads, or onto the class bracket:
only `A` to `Z` change, and they become `a` to `z`. -/
theorem toLower_fixes {c : Char} (h : c.toLower ∈ ['*', '?', '%', '_', '\\', '[']) :
    c.toLower = c := by
  simp only [Char.toLower] at *
  split_ifs at * with hu
  · have key : ∀ n < 26, Char.ofNat (n + 97) ∉ ['*', '?', '%', '_', '\\', '['] := by decide
    have := key (c.toNat - 65) (by omega)
    rw [show c.toNat - 65 + 97 = c.toNat + 32 by omega] at this
    exact absurd h this
  · rfl

theorem escape_of_not_mem {c : Char} (h : c ∉ ['*', '?', '%', '_', '\\']) : escape c = [c] := by
  simp only [List.mem_cons, List.mem_singleton, List.not_mem_nil, or_false, not_or] at h
  simp [escape, h]

theorem escape_toLower (c : Char) : (escape c).map Char.toLower = escape c.toLower := by
  by_cases hs : c ∈ ['*', '?', '%', '_', '\\']
  · simp only [List.mem_cons, List.mem_singleton, List.not_mem_nil, or_false] at hs
    rcases hs with rfl | rfl | rfl | rfl | rfl <;> rfl
  · have hl : c.toLower ∉ ['*', '?', '%', '_', '\\'] := fun hm => hs <| by
      have hc := toLower_fixes (c := c) ((List.sublist_append_left _ ['[']).subset hm)
      rwa [hc] at hm
    rw [escape_of_not_mem hs, escape_of_not_mem hl]
    rfl

/-- With `*` and `?` translated and the special characters of `LIKE` escaped, `ILIKE` accepts
exactly what `GLOB` accepts on the lower-case forms. -/
theorem ilike_translate (f p : String) (hp : Simple p.data) :
    ilike f ⟨translate p.data⟩ = some (glob (lower f) (lower p)) := by
  have hsimple : Simple (p.data.map Char.toLower) := fun hm => by
    obtain ⟨c, hc, hcl⟩ := List.mem_map.1 hm
    have hfix := toLower_fixes (c := c) (by simp [hcl])
    rw [hcl] at hfix
    exact hp (hfix ▸ hc)
  have hmap : (translate p.data).map Char.toLower = translate (p.data.map Char.toLower) := by
    simp only [translate, List.map_flatMap, List.flatMap_map, escape_toLower]
  simp only [ilike, glob, lower, hmap, likeToks_translate, globToks_simple _ hsimple,
    Option.map_some']

end Sqlx
end Redka
