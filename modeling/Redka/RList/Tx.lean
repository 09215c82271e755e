import Redka.RList.Sql

/-! # The list repository transaction (`rlist.Tx`)

The methods of `rlist.Tx`, each the sequence of statements the Go code runs, with
its error handling.  The element arrives as bytes (`core.ToBytes` is the identity on
them), and `time.Now()` is the method's argument `now`, one instant per call.

Two methods run more than one writing statement, and so can fail after a write:
`insert` bumps the key with `sqlInsert` before its insert statement runs, and
`popBackPushFront` pops `src` before it pushes onto `dest`.
-/

namespace Redka
namespace RList

variable (d : Dialect)

/-- `Tx.push`: create or bump the key, then insert the element with `ins`; the list's
length, as `sqlPush` returned it. -/
def push (ins : Nat → Value → Stmt Unit) (key : String) (elem : Value) (now : Int) :
    Tx Int := do
  let (keyID, length) ← orThrow (sqlPush key now) (typedError d)
  let some length := length | throw .scan
  orThrow (ins keyID elem) (typedError d)
  pure length

/-- `Tx.PushBack`. -/
def pushBack : String → Value → Int → Tx Int := push d sqlPushBack

/-- `Tx.PushFront`. -/
def pushFront : String → Value → Int → Tx Int := push d sqlPushFront

/-- `Tx.insert`: bump the key with `sqlInsert`, then insert with `ins`.  A failed
insert whose message names `rlist.pos` is reported as a missing pivot. -/
def insert (ins : Nat → Value → Value → Stmt Unit) (key : String) (pivot elem : Value)
    (now : Int) : Tx Int := do
  let some (keyID, n) ← orThrow (sqlInsert key now) (typedError d) | throw .notFound
  let some n := n | throw .scan
  match ← exec (ins keyID pivot elem) with
  | .ok () => pure n
  | .error e =>
    throw (if constraintFailed d e "NOT NULL" "rlist.pos" then .notFound else typedError d e)

/-- `Tx.InsertAfter`. -/
def insertAfter : String → Value → Value → Int → Tx Int := insert d sqlInsertAfter

/-- `Tx.InsertBefore`. -/
def insertBefore : String → Value → Value → Int → Tx Int := insert d sqlInsertBefore

/-- `Tx.pop`: the element the query returned, `ErrNotFound` when none. -/
def pop (st : Stmt (List Value)) : Tx Value := do
  match ← orThrow st (typedError d) with
  | [] => throw .notFound
  | e :: _ => pure e

/-- `Tx.PopBack`. -/
def popBack (key : String) (now : Int) : Tx Value := pop d (sqlPopBack key now)

/-- `Tx.PopFront`. -/
def popFront (key : String) (now : Int) : Tx Value := pop d (sqlPopFront key now)

/-- `Tx.PopBackPushFront`: pop the last element of `src`, then prepend it to `dest`. -/
def popBackPushFront (src dest : String) (now : Int) : Tx Value := do
  let elem ← popBack d src now
  let _ ← pushFront d dest elem now
  pure elem

/-- `Tx.Get`: a negative index reverses the query's order and counts from the end. -/
def get (key : String) (idx : Int) (now : Int) : Tx Value := do
  let (desc, i) := if idx < 0 then (true, -idx - 1) else (false, idx)
  match ← exec (sqlGet d key now desc i) with
  | .ok (some v) => pure v
  | .ok none => throw .notFound
  | .error e => throw (.db e)

/-- The index `Get` and `Set` bind for `idx`, with its `? + 1`, fits the engine's integers:
always on SQLite, within `int4` on PostgreSQL. -/
def IndexFits (d : Dialect) (idx : Int) : Prop :=
  d = .postgres → -2 ^ 31 < idx ∧ idx < 2 ^ 31 - 1

instance (idx : Int) : Decidable (IndexFits d idx) := by
  unfold IndexFits; infer_instance

/-- `Tx.Set`: `ErrNotFound` when no row was changed. -/
def set (key : String) (idx : Int) (elem : Value) (now : Int) : Tx Unit := do
  let (desc, i) := if idx < 0 then (true, -idx - 1) else (false, idx)
  let n ← orThrow (sqlSet key now desc i elem) (typedError d)
  if n = 0 then throw .notFound

/-- `Tx.Len`: the `len` column; 0 when the key is not a list. -/
def len (key : String) (now : Int) : Tx Int := do
  match ← orThrow (sqlLen key now) (typedError d) with
  | none => pure 0
  | some none => throw .scan
  | some (some n) => pure n

/-- `Tx.Delete`: the driver's error is returned as it is. -/
def delete (key : String) (elem : Value) (now : Int) : Tx Nat :=
  orThrow (sqlDelete key now elem) .db

/-- `Tx.delete`: the count is passed only when it is positive. -/
def deleteWith (q : String → Int → Value → Option Int → Stmt Nat) (key : String)
    (elem : Value) (count : Int) (now : Int) : Tx Nat :=
  orThrow (q key now elem (if 0 < count then some count else none)) (typedError d)

/-- `Tx.DeleteBack`. -/
def deleteBack : String → Value → Int → Int → Tx Nat := deleteWith d sqlDeleteBack

/-- `Tx.DeleteFront`. -/
def deleteFront : String → Value → Int → Int → Tx Nat := deleteWith d sqlDeleteFront

/-- `Tx.Range`: a range whose two bounds have the same sign and are reversed is empty
without a query. -/
def range (key : String) (start stop : Int) (now : Int) : Tx (List Value) :=
  if start > stop ∧ (start > 0 ∧ stop > 0 ∨ start < 0 ∧ stop < 0) then pure []
  else orThrow (sqlRange d key now start stop) (typedError d)

/-- `Tx.Trim`: the number of rows deleted, by the query of the engine. -/
def trim (key : String) (start stop : Int) (now : Int) : Tx Nat :=
  match d with
  | .postgres => orThrow (sqlTrimPostgres key now start stop) (typedError d)
  | .sqlite => orThrow (sqlTrim .sqlite key now start stop) (typedError d)

/-- On PostgreSQL, `Tx.Trim` fails: its statement does not parse. -/
theorem trim_postgres (key : String) (start stop now : Int) (s : Store) :
    trim .postgres key start stop now s = .error (typedError .postgres .parse) s :=
  orThrow_error (sqlTrimPostgres_fails key now start stop s)

end RList
end Redka
