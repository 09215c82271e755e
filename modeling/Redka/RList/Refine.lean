import Redka.Calls
import Redka.RList.Spec

/-! # The list repository refines a map of sequences

Read a store as the map `seqOf` from each key to the sequence its list holds (the
elements in `order by pos`, positions exact rationals; a key that is no list, or has
no rows, holds the empty sequence).  Every list call but `Trim` changes that map as
the Redis command it implements changes a map of plain sequences (`ListCall.absStep`),
on every store the list repository alone reaches from the empty database, failed
calls included.  No call fails on `rlist_pk_idx`: the positions a call chooses are
always free.

The proof is one induction over runs: `ListInv` holds of the empty store and every
list call keeps it (`listCall_inv`), and from a store with `ListInv` each call meets
its operation (`meets_absStep`, a case per method from `RList.Spec`).
-/

namespace Redka
open RList

/-- What a list call is meant to do to the sequences: its Redis command on a map of
plain sequences.  A count of `DeleteFront` or `DeleteBack` that is not positive
removes nothing. -/
def ListCall.absStep : ListCall → (String → List Value) → String → List Value
  | .pushBack k e, σ => Function.update σ k (σ k ++ [e])
  | .pushFront k e, σ => Function.update σ k (e :: σ k)
  | .popBack k, σ => Function.update σ k (σ k).dropLast
  | .popFront k, σ => Function.update σ k (σ k).tail
  | .insertBefore k p e, σ => Function.update σ k (insertBeforeFirst p e (σ k))
  | .insertAfter k p e, σ => Function.update σ k (insertAfterFirst p e (σ k))
  | .set k i e, σ => Function.update σ k (setAt (σ k) i e)
  | .delete k e, σ => Function.update σ k ((σ k).filter (· ≠ e))
  | .deleteFront k e n, σ => Function.update σ k (eraseFirst e n.toNat (σ k))
  | .deleteBack k e n, σ => Function.update σ k (eraseLast e n.toNat (σ k))
  | .popBackPushFront src dest, σ =>
    match (σ src).getLast? with
    | none => σ
    | some e =>
      Function.update (Function.update σ src (σ src).dropLast) dest
        (e :: Function.update σ src (σ src).dropLast dest)
  | .trim k a b, σ => Function.update σ k (lrange (σ k) a b)
  | .get .., σ => σ
  | .len _, σ => σ
  | .range .., σ => σ

namespace RList
variable {d : Dialect} {s : Store}

/-- **Step.** From a store with `ListInv`, every list call but `Trim` leaves the
sequences its operation gives, keeps `ListInv`, and does not fail on `rlist_pk_idx`. -/
theorem meets_absStep (d : Dialect) (now : Int) (hs : ListInv s) :
    ∀ c : ListCall, (∀ k a b, c ≠ .trim k a b) → Meets (c.tx d now) s (c.absStep (seqOf s))
  | .pushBack _ e, _ =>
    have ⟨_, _, h, hi, hq⟩ :=
      push_spec d hs (f := (· ++ [e])) (fun ht hk => sqlPushBack_spec ht hk e) now
    (Meets.of_ok h hi hq).forget
  | .pushFront _ e, _ =>
    have ⟨_, _, h, hi, hq⟩ :=
      push_spec d hs (f := (e :: ·)) (fun ht hk => sqlPushFront_spec ht hk e) now
    (Meets.of_ok h hi hq).forget
  | .popBack k, _ =>
    have ⟨_, hi, hq, h⟩ := popBack_spec d hs k now
    (Meets.of_elim h hi hq).forget
  | .popFront k, _ =>
    have ⟨_, hi, hq, h⟩ := popFront_spec d hs k now
    (Meets.of_elim h hi hq).forget
  | .insertBefore _ p e, _ =>
    (insert_spec d hs (f := insertBeforeFirst p e) rfl
      (fun ht hk => sqlInsertBefore_spec ht hk p e) now).forget
  | .insertAfter _ p e, _ =>
    (insert_spec d hs (f := insertAfterFirst p e) rfl
      (fun ht hk => sqlInsertAfter_spec ht hk p e) now).forget
  | .set k i e, _ => set_spec d hs k i e now
  | .delete k e, _ => (delete_spec hs k e now).forget
  | .deleteFront k e n, _ => (deleteWith_spec d hs false k e n now).forget
  | .deleteBack k e n, _ => (deleteWith_spec d hs true k e n now).forget
  | .popBackPushFront src dest, _ => (popBackPushFront_spec d hs src dest now).forget
  | .trim k a b, hc => absurd rfl (hc k a b)
  | .get k i, _ => (get_spec d hs k i now).forget
  | .len k, _ => (len_spec d hs k now).forget
  | .range k a b, _ => (range_spec d hs k a b now).forget

/-- Every list call keeps `ListInv`, `Trim` included. -/
theorem listCall_inv (d : Dialect) (now : Int) (hs : ListInv s) (c : ListCall) :
    ListInv ((c.tx d now).final s) := by
  cases c with
  | trim k a b => simpa [ListCall.tx] using trim_inv d hs k a b now
  | _ => exact (meets_absStep d now hs _ (by simp)).inv

/-- **Run.** Every store the list repository alone reaches has `ListInv`. -/
theorem ListInv.of_reachable {core : Core} (h : Reachable d core Call.IsList s) : ListInv s := by
  induction h with
  | empty => exact ListInv.empty
  | step c now hc _ ih =>
    cases c with
    | list c => exact listCall_inv d now ih c
    | hash c => exact absurd hc id

/-- **The list repository refines a map of sequences.**  On every store reachable by
list calls, every list call but `Trim` changes the sequences as its Redis command does,
and never fails on the `(kid, pos)` index. -/
theorem listCall_refines_seq {core : Core} (hs : Reachable d core Call.IsList s)
    (c : ListCall) (hc : ∀ k a b, c ≠ .trim k a b) (now : Int) :
    ((Call.list c).tx d core now).result s ≠ .error (.db (.unique "rlist_pk_idx")) ∧
      seqOf (((Call.list c).tx d core now).final s) = c.absStep (seqOf s) :=
  have h := meets_absStep d now (ListInv.of_reachable hs) c hc
  ⟨h.no_pk, h.seq⟩

/-- The refinement at a first push onto the empty database. -/
theorem listCall_refines_seq_pushBack :
    Reachable .sqlite ⟨fun _ => none, fun _ => none, fun _ => [], fun _ => []⟩ Call.IsList
        Store.empty ∧
      (∀ k a b, ListCall.pushBack "k" [1] ≠ .trim k a b) ∧
      ((Call.list (.pushBack "k" [1])).tx .sqlite
          ⟨fun _ => none, fun _ => none, fun _ => [], fun _ => []⟩ 0).result Store.empty ≠
        .error (.db (.unique "rlist_pk_idx")) ∧
      seqOf (((Call.list (.pushBack "k" [1])).tx .sqlite
          ⟨fun _ => none, fun _ => none, fun _ => [], fun _ => []⟩ 0).final Store.empty) =
        (ListCall.pushBack "k" [1]).absStep (seqOf Store.empty) :=
  have hc : ∀ k a b, ListCall.pushBack "k" [1] ≠ .trim k a b := by intro _ _ _ h; cases h
  ⟨.empty, hc, listCall_refines_seq .empty _ hc 0⟩

/-- The sequence refines; the `len` column does not.  `PushBack`, `PopBack`, then
`InsertBefore` into the emptied list: `sqlInsert` counts the element in before the insert
runs, and the insert, a `select ... from rlist where kid = ?`, finds no row and inserts
nothing.  The call succeeds and returns 1, and the list key keeps `len = 1` over no rows. -/
theorem insert_empty_len :
    (insertBefore .postgres "k" [1] [2] 0).result
        (runList .postgres Store.empty [(.pushBack "k" [1], 0), (.popBack "k", 0)]) = .ok 1 ∧
      ((insertBefore .postgres "k" [1] [2] 0).final
        (runList .postgres Store.empty [(.pushBack "k" [1], 0), (.popBack "k", 0)])).rkey.map
          (fun r => (r.type, r.len)) = [(.list, some 1)] ∧
      ((insertBefore .postgres "k" [1] [2] 0).final
        (runList .postgres Store.empty [(.pushBack "k" [1], 0), (.popBack "k", 0)])).rlist = [] := by
  with_unfolding_all decide

end RList
end Redka
