import Redka.Sqlx.Adapt

/-! # `ExpandIn` and the numbering of placeholders

`ExpandIn(query, param, args)` writes one `?` per argument, joined by commas, in place of
the first `param` of the query, and returns the arguments as they are; `ConvertPlaceholders`
then numbers every `?` of the text in order.  The hash repository binds `[key, now] ++ fields`
to a query whose two `?` come before `:fields`.

When `param` occurs once in the query and every `?` of the query comes before it, the
placeholders before it become `$1` ... `$m`, the arguments' list becomes
`$(m+1),...,$(m+n)`, and the text after it is kept (`expandIn_placeholders`).
-/

namespace Redka
namespace Strings

/-- `strings.Join`. -/
def join : List String → String → String
  | [], _ => ""
  | [e], _ => e
  | e :: e' :: es, sep => e ++ sep ++ join (e' :: es) sep

theorem replaceGo_zero (old new : List Char) :
    ∀ (k : Nat) (t : List Char), replaceGo old new 0 k t = t.drop k
  | _, [] => by rw [replaceGo, List.drop_nil]
  | k + 1, _ :: t => by rw [replaceGo, replaceGo_zero]; rfl
  | 0, c :: t => by rw [replaceGo, if_neg (fun h => h.1 rfl), replaceGo_zero]; rfl

/-- With `n = 1`, the loop replaces the first match and copies the rest. -/
theorem replaceGo_once (old new post : List Char) (hold : old ≠ []) :
    ∀ pre : List Char, (∀ a b, pre ++ old ++ post = a ++ old ++ b → pre.length ≤ a.length) →
      replaceGo old new 1 0 (pre ++ old ++ post) = pre ++ new ++ post
  | [], _ => by
    obtain ⟨o, os, rfl⟩ := List.exists_cons_of_ne_nil hold
    have hp : (o :: os).isPrefixOf (o :: (os ++ post)) = true := by
      simp [List.isPrefixOf_iff_prefix]
    rw [List.nil_append, List.cons_append, replaceGo, if_pos ⟨by decide, hp⟩, Int.sub_self,
      replaceGo_zero, List.length_cons, Nat.add_sub_cancel, List.drop_left, List.nil_append]
  | c :: pre, h => by
    have hn : ¬old.isPrefixOf (c :: pre ++ old ++ post) = true := by
      intro hp
      obtain ⟨b, hb⟩ := List.isPrefixOf_iff_prefix.1 hp
      have := h [] b (by rw [← hb, List.nil_append])
      simp at this
    have ih := replaceGo_once old new post hold pre fun a b hab => by
      have := h (c :: a) b (by rw [List.cons_append, List.cons_append, hab]; rfl)
      simp only [List.length_cons] at this; omega
    rw [List.cons_append, List.cons_append, replaceGo, if_neg (fun h' => hn h'.2), ih]
    rfl

theorem insertGo_one (new : List Char) : ∀ s : List Char, insertGo new 1 s = new ++ s
  | [] => by simp [insertGo]
  | c :: t => by
    rw [insertGo, if_neg (by decide), Int.sub_self]
    cases t <;> simp [insertGo]

/-- `strings.Replace(q, param, new, 1)` at the only occurrence of `param`. -/
theorem replace_once {q param pre post : String} (new : String) (hq : q = pre ++ param ++ post)
    (honce : ∀ a b, q = a ++ param ++ b → a = pre) : replace q param new 1 = pre ++ new ++ post := by
  unfold replace
  split
  · next hp =>
    have hparam : param = "" := String.ext hp
    have hpre : pre = "" := (honce "" q (by rw [hparam]; rfl)).symm
    subst hq
    simp [String.ext_iff, insertGo_one, hp, hpre]
  · next o os hp =>
    subst hq
    have h := replaceGo_once param.data new.data post.data (by simp [hp]) pre.data
      fun a b hab => by
        have := honce ⟨a⟩ ⟨b⟩ (String.ext (by simpa using hab))
        rw [← this]
    simpa [String.ext_iff] using h

theorem indexList_single_eq_none {c : Char} : ∀ l : List Char, indexList [c] l = none → c ∉ l
  | [], _ => List.not_mem_nil c
  | x :: t, h => by
    rw [indexList] at h
    split_ifs at h with hp
    have hx : c ≠ x := fun hcx => hp (by simp [hcx, List.isPrefixOf])
    simpa [hx] using indexList_single_eq_none t (Option.map_eq_none'.1 h)

/-- `param` occurs once when it starts nowhere but after `pre`: a check that can be run. -/
theorem once_of_isPrefixOf {q param pre post : String} (hq : q = pre ++ param ++ post)
    (h : ∀ i < q.data.length + 1, param.data.isPrefixOf (q.data.drop i) = true → i = pre.data.length) :
    ∀ a b, q = a ++ param ++ b → a = pre := by
  intro a b hab
  have hd : q.data = a.data ++ (param.data ++ b.data) := by rw [hab]; simp
  have hi := h a.data.length (by rw [hd]; simp; omega)
    (by rw [hd, List.drop_left]; simp [List.isPrefixOf_iff_prefix])
  have hq' : q.data = pre.data ++ (param.data ++ post.data) := by rw [hq]; simp
  apply String.ext
  calc a.data = q.data.take a.data.length := by rw [hd, List.take_left]
    _ = pre.data := by rw [hi, hq', List.take_left]

end Strings

namespace Sqlx
open Strings

/-- `ExpandIn`: the first `param` becomes as many `?` as there are arguments, joined by
commas; the arguments are returned as they are. -/
def expandIn {α : Type} (query param : String) (args : List α) : String × List α :=
  (replace query param (join (args.map fun _ => "?") ",") 1, args)

theorem convertFrom_append (k : Nat) : ∀ a b : List Char,
    convertFrom k (a ++ b) = convertFrom k a ++ convertFrom (k + a.count '?') b
  | [], b => by simp [convertFrom]
  | c :: a, b => by
    by_cases hc : c = '?'
    · simp [convertFrom, hc, convertFrom_append (k + 1) a b, Nat.add_assoc, Nat.add_comm 1]
    · simp [convertFrom, hc, convertFrom_append k a b, List.count_cons]

theorem convertFrom_of_not_mem (k : Nat) : ∀ t : List Char, '?' ∉ t → convertFrom k t = t
  | [], _ => rfl
  | c :: t, h => by
    have hc : c ≠ '?' := fun hc => h (hc ▸ List.mem_cons_self _ _)
    rw [convertFrom, if_neg hc, convertFrom_of_not_mem k t (fun ht => h (List.mem_cons_of_mem _ ht))]

/-- `ConvertPlaceholders` numbers every `?`; when there is none, it has nothing to do. -/
theorem convertPlaceholders_eq (q : String) : convertPlaceholders q = ⟨convertFrom 1 q.data⟩ := by
  unfold convertPlaceholders
  split_ifs with h
  · rfl
  · have hq : '?' ∉ q.data :=
      indexList_single_eq_none q.data (Option.not_isSome_iff_eq_none.1 (by simpa [contains] using h))
    rw [convertFrom_of_not_mem 1 q.data hq]

/-- The `?` list that `ExpandIn` writes, numbered from `k`. -/
theorem convertFrom_questionMarks : ∀ (n k : Nat),
    convertFrom k (join (List.replicate n "?") ",").data =
      (join ((List.range' k n).map fun i => "$" ++ Nat.repr i) ",").data
  | 0, _ => rfl
  | 1, k => by simp [join, convertFrom, List.range']
  | n + 2, k => by
    have ih := convertFrom_questionMarks (n + 1) (k + 1)
    simp only [List.replicate_succ, join, List.range'_succ, List.map_cons] at ih ⊢
    simp [convertFrom, ih]

theorem count_questionMarks : ∀ n : Nat, (join (List.replicate n "?") ",").data.count '?' = n
  | 0 => rfl
  | 1 => rfl
  | n + 2 => by
    have ih := count_questionMarks (n + 1)
    simp only [List.replicate_succ, join] at ih ⊢
    simp [ih, List.count_cons]

/-- `ExpandIn` followed by `ConvertPlaceholders`, on a query where `param` occurs once and
all `m` of its `?` come before it: the arguments are returned unchanged, the text has
`m + n` placeholders, numbered `$1` ... `$m` before the list and `$(m+1)` ... `$(m+n)` in
the list that replaced `param`, and the text after `param` is kept. -/
theorem expandIn_placeholders {α : Type} (q param pre post : String) (xs : List α)
    (hq : q = pre ++ param ++ post) (honce : ∀ a b, q = a ++ param ++ b → a = pre)
    (hm : '?' ∉ param.data ++ post.data) :
    (expandIn q param xs).2 = xs ∧
      (expandIn q param xs).1.data.count '?' = q.data.count '?' + xs.length ∧
      convertPlaceholders (expandIn q param xs).1 =
        ⟨convertFrom 1 pre.data⟩ ++
          join ((List.range' (q.data.count '?' + 1) xs.length).map fun i => "$" ++ Nat.repr i) "," ++
            post := by
  have hpost : '?' ∉ post.data := fun h => hm (List.mem_append_right _ h)
  have hm' : q.data.count '?' = pre.data.count '?' := by
    rw [hq, String.data_append, String.data_append, List.count_append, List.count_append,
      List.count_eq_zero.2 hpost, List.count_eq_zero.2 (fun h => hm (List.mem_append_left _ h)),
      Nat.add_zero]
  have hx : xs.map (fun _ => "?") = List.replicate xs.length "?" := List.map_const' _ _
  have hr := replace_once (join (xs.map fun _ => "?") ",") hq honce
  refine ⟨rfl, ?_, ?_⟩
  · rw [expandIn, hr, hx, hm']
    simp [List.count_append, count_questionMarks, List.count_eq_zero.2 hpost]
  · rw [convertPlaceholders_eq, expandIn, hr, hx, hm', String.ext_iff]
    simp only [String.data_append, convertFrom_append, convertFrom_questionMarks,
      count_questionMarks, Nat.add_comm 1, convertFrom_of_not_mem _ _ hpost]

end Sqlx

namespace RHash.Query
open Sqlx Strings

/-- The hash repository's `sqlCount`, up to its `:fields`. -/
def countHead : String :=
  "\n\tselect count(field)\n\tfrom rhash join rkey on kid = rkey.id and type = 4\n" ++
    "\twhere key = ? and (etime is null or etime > ?) and field in ("

/-- `sqlCount` of the hash repository. -/
def sqlCount : String := countHead ++ ":fields" ++ ")"

set_option maxRecDepth 10000 in
/-- `Tx.count` on two fields: `key` and `now` take `$1` and `$2`, the fields `$3` and `$4`. -/
theorem expandIn_placeholders_count :
    (expandIn sqlCount ":fields" ["a", "b"]).2 = ["a", "b"] ∧
      (expandIn sqlCount ":fields" ["a", "b"]).1.data.count '?' = sqlCount.data.count '?' + 2 ∧
      convertPlaceholders (expandIn sqlCount ":fields" ["a", "b"]).1 =
        ⟨convertFrom 1 countHead.data⟩ ++
          join ((List.range' (sqlCount.data.count '?' + 1) 2).map fun i => "$" ++ Nat.repr i) "," ++
            ")" :=
  expandIn_placeholders sqlCount ":fields" countHead ")" ["a", "b"] rfl
    (once_of_isPrefixOf rfl (by decide)) (by decide)

end RHash.Query
end Redka
