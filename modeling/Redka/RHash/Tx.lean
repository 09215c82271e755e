import Redka.RHash.Sql

/-! # The hash repository transaction (`rhash.Tx`)

The methods of `rhash.Tx`, each the sequence of statements the Go code runs.  Values
arrive as bytes, and the conversions of `core` that `Incr` and `IncrFloat` call are a
parameter (`Core`).  A Go map of items is a list of entries with distinct fields
(`Items`); its iteration order is the list's.

Every writer goes through `setField` (the unexported `Tx.set`): the typed upsert on
`rkey`, then the upsert of the field.  The first statement is the only one that can
fail, on a key of another type.
-/

namespace Redka
namespace RHash

/-- A Go `map[string]any` of values to set: its fields are distinct. -/
structure Items where
  entries : List (String × Value)
  nodup : (entries.map Prod.fst).Nodup

/-- The fields of a map, in iteration order. -/
def Items.fields (m : Items) : List String := m.entries.map Prod.fst

/-- A Go `int`: two's complement on 64 bits, so `+` wraps. -/
def goInt (x : Int) : Int := Int.bmod x (2 ^ 64)

variable (d : Dialect)

/-- `Tx.count`: how many of the fields the hash has. -/
def count (key : String) (fields : List String) (now : Int) : Tx Nat :=
  orThrow (sqlCount key now fields) (typedError d)

/-- `Tx.set`, unexported: upsert the key, falling back to a lookup of its id, then
upsert the field. -/
def setField (key field : String) (value : Value) (now : Int) : Tx Unit := do
  let keyId ← match ← exec (sqlSet1 key now) with
    | .ok (some id) => pure id
    | .ok none =>
      match ← orThrow (sqlKeyID key) (typedError d) with
      | some id => pure id
      | none => throw .noRows
    | .error e => throw (typedError d e)
  orThrow (sqlSet2 keyId field value) (typedError d)

/-- `Tx.Set`: whether the field is new. -/
def set (key field : String) (value : Value) (now : Int) : Tx Bool := do
  let existCount ← count d key [field] now
  setField d key field value now
  pure (existCount = 0)

/-- `Tx.SetMany`: the number of fields that are new. -/
def setMany (key : String) (items : Items) (now : Int) : Tx Int := do
  let existCount ← count d key items.fields now
  items.entries.forM fun (field, val) => setField d key field val now
  pure (items.entries.length - existCount)

/-- `Tx.Exists`: whether the query for the field has a row. -/
def «exists» (key field : String) (now : Int) : Tx Bool := do
  let rows ← orThrow (sqlGet key now field) (typedError d)
  pure !rows.isEmpty

/-- `Tx.SetNotExists`: set the field only when the hash does not have it. -/
def setNotExists (key field : String) (value : Value) (now : Int) : Tx Bool := do
  if ← «exists» d key field now then pure false
  else
    setField d key field value now
    pure true

/-- `Tx.Delete`: delete the fields, then take their number off the key's `len`. -/
def delete (key : String) (fields : List String) (now : Int) : Tx Int := do
  if fields = [] then return 0
  let n ← orThrow (sqlDelete1 key now fields) (typedError d)
  if n = 0 then return 0
  orThrow (sqlDelete2 now n key) (typedError d)
  pure n

/-- `Tx.Get`: `ErrNotFound` when the hash has no such field. -/
def get (key field : String) (now : Int) : Tx Value := do
  match ← orThrow (sqlGet key now field) (typedError d) with
  | [] => throw .notFound
  | v :: _ => pure v

/-- `Tx.GetMany`.  One field runs `sqlGet`, whose rows have one column and are scanned
into two destinations; more run `sqlGetMany`. -/
def getMany (key : String) (fields : List String) (now : Int) :
    Tx (List (String × Value)) := do
  match fields with
  | [] => pure []
  | [field] =>
    match ← orThrow (sqlGet key now field) (typedError d) with
    | [] => pure []
    | _ :: _ => throw .scan
  | _ => orThrow (sqlGetMany key now fields) (typedError d)

/-- `Tx.Incr` and `Tx.IncrFloat`: read the field (missing is `nil`), parse it, add,
and write the result back. -/
def incrWith {N : Type} (parse : Value → Option N) (add : N → N) (render : N → Value)
    (key field : String) (now : Int) : Tx N := do
  let val ← tryCatch (get d key field now) fun e =>
    if e = .notFound then pure [] else throw e
  match parse val with
  | none => throw .valueType
  | some v =>
    setField d key field (render (add v)) now
    pure (add v)

/-- `Tx.Incr`: Go's `valInt + delta` wraps on 64 bits. -/
def incr (c : Core) (key field : String) (delta : Int) (now : Int) : Tx Int :=
  incrWith d c.valueInt (fun v => goInt (v + delta)) c.intBytes key field now

/-- `Tx.IncrFloat`. -/
def incrFloat (c : Core) (key field : String) (delta : Float) (now : Int) : Tx Float :=
  incrWith d c.valueFloat (· + delta) c.floatBytes key field now

/-- `Tx.Fields`. -/
def fields (key : String) (now : Int) : Tx (List String) :=
  orThrow (sqlFields key now) (typedError d)

/-- `Tx.Values`: the driver's error is returned as it is. -/
def values (key : String) (now : Int) : Tx (List Value) :=
  orThrow (sqlValues key now) .db

/-- `Tx.Items`: the driver's error is returned as it is. -/
def items (key : String) (now : Int) : Tx (List (String × Value)) :=
  orThrow (sqlItems key now) .db

/-- `Tx.Len`: the `len` column, 0 when the key is not a hash. -/
def len (key : String) (now : Int) : Tx Int := do
  match ← orThrow (sqlLen key now) .db with
  | none => pure 0
  | some none => throw .scan
  | some (some n) => pure n

end RHash
end Redka
