import Redka.RList.Refine

/-! # What the list methods return

`RList.Refine` reads a store as a map of sequences and says how every list call changes
that map.  This module says what the reads and the removals return, in the same terms:

* `Get` returns what `LINDEX` returns on the key's sequence: the element at the index,
  counted from the end when the index is negative, or `ErrNotFound` past either end
  (`get_result`), at every index that fits the engine's integers; PostgreSQL types the
  index as `int4` and refuses the others.  This holds on every store whose keys have not
  expired, so on every store list and hash calls reach together;
* `Set` fails with `ErrNotFound` exactly when `LINDEX` finds nothing at the index;
* `PopBack`, `PopFront` and `PopBackPushFront` return the element they remove, or
  `ErrNotFound` when the list is empty;
* `Delete` returns the number of occurrences of the element, and `DeleteFront` and
  `DeleteBack`, with a positive count, the number of occurrences they remove: the count or
  all of them, whichever is fewer.

The counts come from one fact about the `delete` statements: they return as many rows as
the list loses (`length_filter_of_deleteList`).  `Len`, the pushes and the inserts are not
here: they return the key's `len` column, which the inserts can leave out of step with the
rows.
-/

namespace Redka
namespace RList
open Store

/-- `LINDEX` on a sequence: the element at `idx`, `-1` being the last; nothing past either
end. -/
def lindex (l : List Value) (idx : Int) : Option Value :=
  if idx < 0 then (if l.length + idx < 0 then none else l[(l.length + idx).toNat]?)
  else l[idx.toNat]?

/-- A negative index reads the reversed sequence, as `Tx.Get` does once it has swapped
`asc` for `desc`. -/
theorem lindex_neg (l : List Value) {idx : Int} (h : idx < 0) :
    lindex l idx = l.reverse[(-idx - 1).toNat]? := by
  rw [lindex, if_pos h]
  split_ifs with hl
  · exact (List.getElem?_eq_none (by simp only [List.length_reverse]; omega)).symm
  · rw [List.getElem?_reverse (by omega)]
    congr 1
    omega

/-- The number of occurrences a delete by element removes. -/
theorem count_add_length_filter (e : Value) (l : List Value) :
    l.count e + (l.filter (· ≠ e)).length = l.length := by
  rw [List.count_eq_countP, List.countP_eq_length_filter,
    List.length_eq_length_filter_add (l := l) (· == e)]
  congr 2
  exact List.filter_congr fun x _ => by by_cases h : x = e <;> simp [h]

/-- `LREM` with a positive count removes that many occurrences, or all there are. -/
theorem length_eraseFirst (e : Value) :
    ∀ (n : Nat) (l : List Value), (eraseFirst e n l).length + min n (l.count e) = l.length
  | 0, l => by simp [eraseFirst]
  | _ + 1, [] => rfl
  | n + 1, x :: xs => by
    by_cases hx : x = e
    · have ih := length_eraseFirst e n xs
      have hc : (x :: xs).count e = xs.count e + 1 := by rw [hx]; exact List.count_cons_self e xs
      simp only [eraseFirst, if_pos hx, List.length_cons, hc]
      omega
    · have ih := length_eraseFirst e (n + 1) xs
      simp only [eraseFirst, if_neg hx, List.length_cons, List.count_cons_of_ne (Ne.symm hx)]
      omega

theorem length_eraseLast (e : Value) (n : Nat) (l : List Value) :
    (eraseLast e n l).length + min n (l.count e) = l.length := by
  simpa [eraseLast] using length_eraseFirst e n l.reverse

section Stores
variable {s : Store}

/-! ## Reads on live keys -/

/-- When no key has expired, a typed query selects the key's row exactly when it has the
type. -/
theorem curRow_of_live (hlive : ∀ r ∈ s.rkey, r.etime = none) (key : String) (t : TypeID)
    (now : Int) : s.curRow key t now = (s.findKey key).filter (·.type = t) := by
  cases hf : s.findKey key with
  | none =>
    cases h : s.curRow key t now with
    | none => rfl
    | some r => simp [(curRow_eq_some.1 h).1] at hf
  | some r =>
    by_cases ht : r.type = t
    · rw [Option.filter_some, decide_eq_true ht, if_pos rfl]
      exact curRow_eq_some.2 ⟨hf, ht, by simp [KeyRow.live, hlive r (findKey_eq_some.1 hf).1]⟩
    · rw [Option.filter_some, decide_eq_false ht]
      cases h : s.curRow key t now with
      | none => rfl
      | some r' =>
        obtain ⟨hf', ht', -⟩ := curRow_eq_some.1 h
        exact absurd (Option.some.inj (hf.symm.trans hf') ▸ ht') ht

/-- SQLite's `sqlGet` at a non-negative index reads the key's sequence, reversed for
`desc`. -/
theorem sqlGet_seqOf (hlive : ∀ r ∈ s.rkey, r.etime = none) (key : String) (now : Int)
    (desc : Bool) {i : Int} (hi : 0 ≤ i) :
    sqlGet .sqlite key now desc i s =
      .ok ((if desc then (seqOf s key).reverse else seqOf s key)[i.toNat]?, s) := by
  unfold sqlGet curkey
  simp only [if_neg (not_lt.2 hi), curRow_of_live hlive]
  cases hf : s.findKey key with
  | none => cases desc <;> simp [seqOf_eq_nil hf]
  | some r =>
    by_cases ht : r.type = .list
    · have hk : s.kindOf key = some (r.id, .list) := by simp [Store.kindOf, hf, ht]
      cases desc <;> simp [Option.filter_some, ht, seqOf_of_kindOf hk, ordered, ← List.map_reverse]
    · have hq : seqOf s key = [] := by
        simp only [seqOf, rowsOf, Store.kindOf, hf, Option.map_some']
        cases h : r.type <;> simp_all
      cases desc <;> simp [ht, hq]

/-- Past `int4`, PostgreSQL's `Get` fails on its parameter. -/
theorem get_postgres_range (key : String) {idx : Int} (h : ¬IndexFits .postgres idx) (now : Int) :
    get .postgres key idx now s = .error (.db .range) s := by
  have hi : ¬(-2 ^ 31 < idx ∧ idx < 2 ^ 31 - 1) := fun hi => h fun _ => hi
  by_cases hn : idx < 0
  · simp only [get, if_pos hn, bind, EStateM.bind, exec,
      sqlGet_postgres_range (show ¬(-2 ^ 31 ≤ -idx - 1 ∧ -idx - 1 < 2 ^ 31 - 1) by omega)]
    rfl
  · simp only [get, if_neg hn, bind, EStateM.bind, exec,
      sqlGet_postgres_range (show ¬(-2 ^ 31 ≤ idx ∧ idx < 2 ^ 31 - 1) by omega)]
    rfl

/-- **`Tx.Get` is `LINDEX`.**  On a store whose keys have not expired, `Get` returns the
element `LINDEX` finds in the key's sequence, and `ErrNotFound` when it finds none, for every
index that fits the engine's integers; PostgreSQL refuses the others. -/
theorem get_result (hlive : ∀ r ∈ s.rkey, r.etime = none) (key : String) (idx now : Int) :
    get d key idx now s = if IndexFits d idx then
      (lindex (seqOf s key) idx).elim (.error .notFound s) (.ok · s) else .error (.db .range) s := by
  split_ifs with hf
  · by_cases h : idx < 0
    · have hq := sqlGet_seqOf hlive key now true (show 0 ≤ -idx - 1 by omega)
      rw [← sqlGet_of_fits (fun hd => by have := hf hd; omega)] at hq
      simp only [if_true] at hq
      simp only [get, if_pos h, bind, EStateM.bind, exec, hq, lindex_neg _ h]
      cases (seqOf s key).reverse[(-idx - 1).toNat]? <;> rfl
    · have hq := sqlGet_seqOf hlive key now false (not_lt.1 h)
      rw [← sqlGet_of_fits (fun hd => by have := hf hd; omega)] at hq
      simp only [Bool.false_eq_true, if_false] at hq
      simp only [get, if_neg h, bind, EStateM.bind, exec, hq, lindex]
      cases (seqOf s key)[idx.toNat]? <;> rfl
  · obtain rfl : d = .postgres := by cases d; exact absurd (fun h => nomatch h) hf; rfl
    exact get_postgres_range key hf now

/-! ## Counts -/

theorem length_seqOf {key : String} {id : Nat} (hk : s.kindOf key = some (id, .list)) :
    (seqOf s key).length = (s.listRows id).length := by
  rw [seqOf_of_kindOf hk, List.length_map, (sortByPos_perm _).length_eq]

/-- A `delete` of rows of list `key` returns as many rows as the key's sequence loses. -/
theorem length_filter_of_deleteList {key : String} {id : Nat} (hk : s.kindOf key = some (id, .list))
    {p : ListRow → Bool} (hp : ∀ x ∈ s.rlist, p x → x.kid = id) (now : Int) :
    (s.rlist.filter p).length + (seqOf (s.deleteList p now) key).length = (seqOf s key).length := by
  have h1 : s.rlist.filter p = (s.listRows id).filter p := by
    rw [listRows, List.filter_filter]
    exact List.filter_congr fun x hx => by
      by_cases h : p x
      · simp [h, hp x hx h]
      · simp [h]
  rw [length_seqOf hk, length_seqOf (by rw [deleteList_kindOf]; exact hk), listRows_deleteList, h1]
  exact (List.length_eq_length_filter_add p).symm

/-- The statement of `Tx.Set` changes one row when the index is in range, none otherwise. -/
theorem sqlSet_count (hs : ListInv s) (key : String) (now : Int) (desc : Bool) {i : Int}
    (hi : 0 ≤ i) (elem : Value) :
    ∃ s', sqlSet key now desc i elem s =
      .ok (if i.toNat < (seqOf s key).length then 1 else 0, s') := by
  unfold sqlSet
  simp only [curkey, hs.curRow, if_neg (not_lt.2 hi)]
  cases hf : s.findKey key with
  | none => exact ⟨s, by simp [seqOf_eq_nil hf]⟩
  | some r =>
    have hk := hs.kindOf hf
    have hlen : (ordered (s.listRows r.id) desc).length = (seqOf s key).length := by
      rw [length_seqOf hk]; cases desc <;> simp [ordered, (sortByPos_perm _).length_eq]
    simp only [Option.map_some']
    cases hget : (ordered (s.listRows r.id) desc)[i.toNat]? with
    | none =>
      have := List.getElem?_eq_none_iff.1 hget
      exact ⟨s, by rw [if_neg (by omega)]⟩
    | some x =>
      obtain ⟨hlt, hxi⟩ := List.getElem?_eq_some_iff.1 hget
      have hx : x ∈ sortByPos (s.listRows r.id) := by
        have := hxi ▸ List.getElem_mem hlt
        cases desc <;> simpa [ordered] using this
      obtain ⟨A, B, hL⟩ := List.append_of_mem hx
      have hin : i.toNat < (seqOf s key).length := hlen ▸ hlt
      exact ⟨_, by dsimp only; rw [rlist_filter_at hL, if_pos hin]; rfl⟩

/-! ## Results on the stores of the list repository -/

variable (d : Dialect)

/-- `Tx.Set` fails with `ErrNotFound` exactly where `LINDEX` finds nothing. -/
theorem set_result (hs : ListInv s) (key : String) (idx : Int) (elem : Value) (now : Int) :
    (set d key idx elem now).result s =
      if (lindex (seqOf s key) idx).isSome then .ok () else .error .notFound := by
  by_cases h : idx < 0
  · obtain ⟨s', h1⟩ := sqlSet_count hs key now true (show 0 ≤ -idx - 1 by omega) elem
    simp only [set, if_pos h, bind, EStateM.bind, orThrow, h1, Tx.result, lindex_neg _ h]
    generalize (-idx - 1).toNat = m
    by_cases hin : m < (seqOf s key).length
    · simp [hin]; rfl
    · rw [List.getElem?_eq_none (by simpa using not_lt.1 hin)]; simp [hin]; rfl
  · obtain ⟨s', h1⟩ := sqlSet_count hs key now false (not_lt.1 h) elem
    simp only [set, if_neg h, bind, EStateM.bind, orThrow, h1, Tx.result, lindex]
    by_cases hin : idx.toNat < (seqOf s key).length
    · simp [hin]; rfl
    · rw [List.getElem?_eq_none (not_lt.1 hin)]; simp [hin]; rfl

/-- `Tx.Delete` returns the number of occurrences of the element. -/
theorem delete_result (hs : ListInv s) (key : String) (elem : Value) (now : Int) :
    (delete key elem now).result s = .ok ((seqOf s key).count elem) := by
  simp only [delete, sqlDelete, Tx.result, orThrow, curkey, hs.curRow]
  cases hf : s.findKey key with
  | none => simp [seqOf_eq_nil hf]
  | some r =>
    have hk := hs.kindOf hf
    have hd := length_filter_of_deleteList hk
      (fun x _ (hx : (x.kid = r.id && x.elem = elem) = true) => by simp at hx; exact hx.1) now
    rw [congrFun (deleteElem hs hk elem now).2 key, Function.update_same] at hd
    have hc := count_add_length_filter elem (seqOf s key)
    simp only [Option.map_some', Except.ok.injEq]
    omega

/-- `Tx.DeleteFront` and `Tx.DeleteBack`, with a positive count, return the number of
occurrences they remove: the count, or all there are. -/
theorem deleteWith_result (hs : ListInv s) (desc : Bool) (key : String) (elem : Value) {n : Int}
    (hn : 0 < n) (now : Int) :
    (deleteWith d (deleteSome desc) key elem n now).result s =
      .ok (min n.toNat ((seqOf s key).count elem)) := by
  simp only [deleteWith, if_pos hn, deleteSome, Tx.result, orThrow, curkey, hs.curRow]
  cases hf : s.findKey key with
  | none => simp [seqOf_eq_nil hf]
  | some r =>
    have hk := hs.kindOf hf
    have hd := length_filter_of_deleteList hk (fun x _ (hx : decide (x.slot ∈
        ((ordered ((s.listRows r.id).filter (·.elem = elem)) desc).take n.toNat).map ListRow.slot) =
          true) => by
      obtain ⟨y, hy, hxy⟩ := List.mem_map.1 (of_decide_eq_true hx)
      have hy := (List.take_sublist _ _).subset hy
      have hky : y.kid = r.id := by
        simp only [ordered] at hy
        split at hy <;>
          simp only [List.mem_reverse, mem_sortByPos, List.mem_filter] at hy <;>
          exact kid_of_mem_listRows hy.1
      exact (congrArg Prod.fst hxy).symm.trans hky) now
    rw [congrFun (deleteSome_rows hs hk desc elem n.toNat now).2 key, Function.update_same] at hd
    have hc : (if desc then eraseLast elem n.toNat (seqOf s key) else
        eraseFirst elem n.toNat (seqOf s key)).length + min n.toNat ((seqOf s key).count elem) =
        (seqOf s key).length := by
      cases desc
      · exact length_eraseFirst elem n.toNat _
      · exact length_eraseLast elem n.toNat _
    simp only [Option.map_some', Except.ok.injEq]
    omega

end Stores

/-! ## Every store of the list repository -/

/-- What the list methods return from `s` for `key`, read off the key's sequence: `LINDEX`
for `Get`, the error of `LSET` past either end, the removed element for the pops and
`RPOPLPUSH`, the number of removed occurrences for `LREM`.  `Get` and `Set` are read at the
indices that fit the engine's integers; past `int4`, PostgreSQL refuses `Get`'s (the model
leaves out the same failure of `Set`). -/
structure AnswersFromSeq (d : Dialect) (s : Store) (key : String) (now : Int) : Prop where
  get_eq : ∀ idx, (get d key idx now).result s = if IndexFits d idx then
    (lindex (seqOf s key) idx).elim (.error .notFound) .ok else .error (.db .range)
  set_eq : ∀ idx elem, IndexFits d idx → (set d key idx elem now).result s =
    if (lindex (seqOf s key) idx).isSome then .ok () else .error .notFound
  popBack_eq : (popBack d key now).result s = (seqOf s key).getLast?.elim (.error .notFound) .ok
  popFront_eq : (popFront d key now).result s = (seqOf s key).head?.elim (.error .notFound) .ok
  popBackPushFront_eq : ∀ dest, (popBackPushFront d key dest now).result s =
    (seqOf s key).getLast?.elim (.error .notFound) .ok
  delete_eq : ∀ elem, (delete key elem now).result s = .ok ((seqOf s key).count elem)
  deleteFront_eq : ∀ elem n, 0 < n →
    (deleteFront d key elem n now).result s = .ok (min n.toNat ((seqOf s key).count elem))
  deleteBack_eq : ∀ elem n, 0 < n →
    (deleteBack d key elem n now).result s = .ok (min n.toNat ((seqOf s key).count elem))

/-- **What the list methods return.**  On every store the list repository reaches, for
every key and instant, the reads and the removals return what their Redis commands return
on the key's sequence. -/
theorem list_answers_from_seq {d : Dialect} {core : Core} {s : Store}
    (hr : Reachable d core Call.IsList s) (key : String) (now : Int) : AnswersFromSeq d s key now := by
  have hs := ListInv.of_reachable hr
  refine ⟨fun idx => ?_, fun idx elem _ => set_result d hs key idx elem now, ?_, ?_, fun dest => ?_,
    fun elem => delete_result hs key elem now, fun elem n hn => deleteWith_result d hs false key elem hn now,
    fun elem n hn => deleteWith_result d hs true key elem hn now⟩
  · rw [Tx.result, get_result (fun r hr => (hs.keys r hr).2.1)]
    split_ifs
    · cases lindex (seqOf s key) idx <;> rfl
    · rfl
  · obtain ⟨_, -, -, h⟩ := popBack_spec d hs key now
    rw [Tx.result, h]
    cases (seqOf s key).getLast? <;> rfl
  · obtain ⟨_, -, -, h⟩ := popFront_spec d hs key now
    rw [Tx.result, h]
    cases (seqOf s key).head? <;> rfl
  · obtain ⟨s1, hi1, -, h1⟩ := popBack_spec d hs key now
    cases hl : (seqOf s key).getLast? with
    | none =>
      rw [hl] at h1
      simp only [Tx.result, popBackPushFront, bind, EStateM.bind, h1]
      rfl
    | some e =>
      rw [hl] at h1
      obtain ⟨n, s2, h2, -⟩ : ∃ n s2, push d sqlPushFront dest e now s1 = .ok n s2 ∧ ListInv s2 ∧
          seqOf s2 = Function.update (seqOf s1) dest (e :: seqOf s1 dest) :=
        push_spec d hi1 (fun ht hk => sqlPushFront_spec ht hk e) now
      simp only [Tx.result, popBackPushFront, bind, EStateM.bind, h1, Option.elim, pushFront, h2,
        pure, EStateM.pure]

/-- Three pushes onto `k`: `[1] [2] [1]`. -/
def threePushes : Store :=
  runList .sqlite Store.empty [(.pushBack "k" [1], 0), (.pushBack "k" [2], 0), (.pushBack "k" [1], 0)]

theorem list_answers_from_seq_threePushes :
    Reachable .sqlite ⟨fun _ => none, fun _ => none, fun _ => [], fun _ => []⟩ Call.IsList threePushes ∧
      AnswersFromSeq .sqlite threePushes "k" 0 :=
  have hr : Reachable .sqlite ⟨fun _ => none, fun _ => none, fun _ => [], fun _ => []⟩ Call.IsList
      threePushes := runList_reachable _ _ .empty
  ⟨hr, list_answers_from_seq hr "k" 0⟩

/-- `LINDEX k -1` after the three pushes. -/
example : (get .sqlite "k" (-1) 0).result threePushes = .ok [1] := by with_unfolding_all decide

end RList
end Redka
