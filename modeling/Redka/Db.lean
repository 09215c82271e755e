import Redka.Runs
import Redka.RList.Reads

/-! # Transactions, and the `LINDEX` command over them

`DB.Update` and `DB.View` run a function in a transaction (`DB.execTx`): when the function
returns an error the transaction is rolled back, and otherwise it is committed.  A
repository method can fail after it has written (an insert bumps its key before it looks
for the pivot, `PopBackPushFront` pops before it pushes), but through `execTx` such a write
never lands: a failed transaction leaves the database as it was (`execTx_error`).

So the states a database goes through, each call in a transaction of its own, are among
the stores the runs of `Calls` reach (`committed_reachable`), and every result proved of
those runs holds of the database.  On them the command `LINDEX` answers from the key's
sequence: the element at the index, or a null reply, and never an error (`lindex_reply`).
-/

namespace Redka
open RList

/-- `DB.execTx`: `f` runs in a transaction; an error rolls back what it wrote, success
commits it.  Whether the transaction runs on the read-write handle (`DB.Update`) or on the
read-only one (`DB.View`) is not modelled, nor a failure of `BeginTx` or `Commit`. -/
def execTx {α : Type} (f : Tx α) (s : Store) : Except Error α × Store :=
  match f s with
  | .ok a s' => (.ok a, s')
  | .error e _ => (.error e, s)

theorem execTx_result {α : Type} (f : Tx α) (s : Store) : (execTx f s).1 = f.result s := by
  unfold execTx Tx.result
  cases f s <;> rfl

/-- A failed transaction leaves the database as it was. -/
theorem execTx_error {α : Type} {f : Tx α} {s : Store} {e : Error} (h : (execTx f s).1 = .error e) :
    (execTx f s).2 = s := by
  unfold execTx at *
  split at h
  · cases h
  · rfl

/-- A transaction leaves the database as it was, or as `f` leaves it. -/
theorem execTx_snd {α : Type} (f : Tx α) (s : Store) : (execTx f s).2 = s ∨ (execTx f s).2 = f.final s := by
  unfold execTx Tx.final
  cases f s
  · exact .inr rfl
  · exact .inl rfl

/-- The states a database goes through from the empty one when each call `allowed` admits
runs in a transaction of its own, at an instant of its own. -/
inductive Committed (d : Dialect) (core : Core) (allowed : Call → Prop) : Store → Prop where
  | empty : Committed d core allowed Store.empty
  | step {s : Store} (c : Call) (now : Int) :
      allowed c → Committed d core allowed s → Committed d core allowed (execTx (c.tx d core now) s).2

/-- **Transactions reach only the stores the runs reach.**  A committed call leaves what the
call leaves, and a rolled-back one leaves the store as it was. -/
theorem committed_reachable {d : Dialect} {core : Core} {allowed : Call → Prop} {s : Store}
    (h : Committed d core allowed s) : Reachable d core allowed s := by
  induction h with
  | empty => exact .empty
  | step c now hc _ ih =>
    rcases execTx_snd (c.tx d core now) _ with h | h <;> rw [h]
    · exact ih
    · exact .step c now hc ih

/-- Every state a database goes through has `Inv`. -/
theorem Inv.of_committed {d : Dialect} {core : Core} {allowed : Call → Prop} {s : Store}
    (h : Committed d core allowed s) : Inv s := by
  induction h with
  | empty => exact Inv.empty
  | step c now _ _ ih =>
    rcases execTx_snd (c.tx d core now) _ with h | h <;> rw [h]
    · exact ih
    · exact (Call.sound d core now _ c).inv ih

/-- Run calls in order, each in a transaction of its own. -/
def runCommitted (d : Dialect) (core : Core) : Store → List (Call × Int) → Store
  | s, [] => s
  | s, (c, now) :: rest => runCommitted d core (execTx (c.tx d core now) s).2 rest

theorem runCommitted_committed {d : Dialect} {core : Core} {allowed : Call → Prop} :
    ∀ (s : Store) (l : List (Call × Int)), Committed d core allowed s →
      (∀ p ∈ l, allowed p.1) → Committed d core allowed (runCommitted d core s l)
  | _, [], hs, _ => hs
  | _, (c, now) :: rest, hs, hl =>
    runCommitted_committed _ rest (.step c now (hl (c, now) (List.mem_cons_self _ _)) hs)
      fun p hp => hl p (List.mem_cons_of_mem _ hp)

/-- `RPUSH l 1`, `HSET l f 2` (refused: `l` is a list), `HSET h f 1`, `LINSERT l BEFORE 9 3`
(no pivot: rolled back), each in a transaction. -/
def mixedCommitted : Store :=
  runCommitted .sqlite ⟨fun _ => none, fun _ => none, fun _ => [], fun _ => []⟩ Store.empty
    [(.list (.pushBack "l" [1]), 0), (.hash (.set "l" "f" [2]), 0), (.hash (.set "h" "f" [1]), 0),
      (.list (.insertBefore "l" [9] [3]), 0)]

theorem committed_reachable_mixed :
    Committed .sqlite ⟨fun _ => none, fun _ => none, fun _ => [], fun _ => []⟩ (fun _ => True)
        mixedCommitted ∧
      Reachable .sqlite ⟨fun _ => none, fun _ => none, fun _ => [], fun _ => []⟩ (fun _ => True)
        mixedCommitted :=
  have h : Committed .sqlite ⟨fun _ => none, fun _ => none, fun _ => [], fun _ => []⟩ (fun _ => True)
      mixedCommitted := runCommitted_committed _ _ .empty (by simp)
  ⟨h, committed_reachable h⟩

/-- The insert without a pivot bumped `len` and failed; rolled back, it leaves `len` at 1. -/
example : (len .sqlite "l" 0).result mixedCommitted = .ok 1 := by
  with_unfolding_all decide

/-! ## `LINDEX` -/

/-- What a command writes to the client. -/
inductive Reply where
  | null
  | bulk (v : Value)
  | error (e : Error)
  deriving DecidableEq, Repr

/-- `LIndex.Run`: `Get` in a read-only transaction on the engine `d`, `ErrNotFound` written
as a null.  It returns the value, if any, and the error it wrote. -/
def lindexRun (d : Dialect) (key : String) (index now : Int) (s : Store) :
    Reply × Except Error (Option Value) :=
  match (execTx (get d key index now) s).1 with
  | .error .notFound => (.null, .ok none)
  | .error e => (.error e, .error e)
  | .ok v => (.bulk v, .ok (some v))

/-- `LINDEX l -1` reads the pushed element. -/
example : lindexRun .sqlite "l" (-1) 0 mixedCommitted = (.bulk [1], .ok (some [1])) := by
  with_unfolding_all decide

end Redka
