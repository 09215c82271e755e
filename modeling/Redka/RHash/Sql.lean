import Redka.Sqlx

/-! # The hash queries (package `rhash`)

Each `sql*` constant of the hash repository, as a statement over the store.  The
reads join `rhash` with the hash's live `rkey` row of type 4; since keys and ids are
unique, that join is the hash's own rows.  `field in (:fields)` stands for the list
`ExpandIn` writes in its place.

The writes: `sqlSet1` is the typed upsert on `rkey` (with `len = 0` for a new key
and no change of `len` otherwise), `sqlSet2` the upsert of one field, whose trigger
counts a new field into `len`, and `sqlDelete1`/`sqlDelete2` delete fields and then
take their number off `len`.
-/

namespace Redka
namespace RHash
open Store

/-- `sqlSet1`: create the hash's key with `len = 0`, or bump it; `returning id`.  The
upsert always returns its row. -/
def sqlSet1 (key : String) (now : Int) : Stmt (Option Nat) := fun s =>
  match upsertKey key .hash now 0 0 s with
  | .ok ((id, _), s') => .ok (some id, s')
  | .error e => .error e

/-- The fallback of `Tx.set`: `SELECT id FROM rkey WHERE key = $1 AND type = 4`, which
ignores `etime`. -/
def sqlKeyID (key : String) : Stmt (Option Nat) := fun s =>
  .ok ((s.rkey.find? fun r => r.key = key && r.type = .hash).map (·.id), s)

/-- `sqlSet2`: insert the field, or overwrite its value. -/
def sqlSet2 (kid : Nat) (field : String) (value : Value) : Stmt Unit := fun s =>
  .ok ((), s.upsertHash kid field value)

/-- The rows of the hash `key` selects at `now`. -/
def rowsOf (s : Store) (key : String) (now : Int) : List HashRow :=
  (s.curkey key .hash now).elim [] s.hashRows

/-- `sqlCount`: how many of the hash's fields are listed. -/
def sqlCount (key : String) (now : Int) (fields : List String) : Stmt Nat := fun s =>
  .ok (((rowsOf s key now).filter (·.field ∈ fields)).length, s)

/-- `sqlDelete1`: delete the listed fields; the number of rows deleted. -/
def sqlDelete1 (key : String) (now : Int) (fields : List String) : Stmt Nat := fun s =>
  match s.curkey key .hash now with
  | none => .ok (0, s)
  | some id =>
    let hit := fun r : HashRow => r.kid = id && r.field ∈ fields
    .ok ((s.rhash.filter hit).length, s.deleteHash hit)

/-- `sqlDelete2`: `update rkey set version = version + 1, mtime = ?, len = len - ? where
key = ? and type = 4 and (etime is null or etime > ?)`. -/
def sqlDelete2 (now : Int) (n : Int) (key : String) : Stmt Unit := fun s =>
  .ok ((), s.touch (·.selects key .hash now) 1 (some now) (-n))

/-- `sqlGet`: the value of one field. -/
def sqlGet (key : String) (now : Int) (field : String) : Stmt (List Value) := fun s =>
  .ok (((rowsOf s key now).filter (·.field = field)).map (·.value), s)

/-- `sqlGetMany`: the listed fields with their values. -/
def sqlGetMany (key : String) (now : Int) (fields : List String) :
    Stmt (List (String × Value)) := fun s =>
  .ok (((rowsOf s key now).filter (·.field ∈ fields)).map fun r => (r.field, r.value), s)

/-- `sqlFields`. -/
def sqlFields (key : String) (now : Int) : Stmt (List String) := fun s =>
  .ok ((rowsOf s key now).map (·.field), s)

/-- `sqlValues`. -/
def sqlValues (key : String) (now : Int) : Stmt (List Value) := fun s =>
  .ok ((rowsOf s key now).map (·.value), s)

/-- `sqlItems`. -/
def sqlItems (key : String) (now : Int) : Stmt (List (String × Value)) := fun s =>
  .ok ((rowsOf s key now).map fun r => (r.field, r.value), s)

/-- `sqlLen`: the hash's `len` column; no row when there is no hash. -/
def sqlLen (key : String) (now : Int) : Stmt (Option (Option Int)) := fun s =>
  .ok ((s.curRow key .hash now).map (·.len), s)

end RHash
end Redka
