import Mathlib.Algebra.Order.Field.Rat
import Mathlib.Data.List.Sort

/-! # The relational store

Redka keeps every key in one table, `rkey`, and the payload of each data type in a
table of its own; this development models the two typed tables the list and hash
repositories use, `rlist` and `rhash` (`schema_postgres.sql`).  A `Store` is one
state of those three tables.  It carries the constraints the schema declares, so
that a state the database would refuse cannot be built:

* `rkey.id` is a `SERIAL` primary key, and every id is below the sequence's next
  value (`rkey_serial`), which is what makes the next id fresh;
* `rkey_key_idx` makes `key` unique;
* `rlist_pk_idx` makes `(kid, pos)` unique, and `rhash_pk_idx` makes `(kid, field)`
  unique;
* `rhash.rowid`, SQLite's row identifier, is unique.

A list row is identified by its `(kid, pos)` slot: the unique index makes it as good
an identifier as `rowid`, which the list queries use only to delete the rows they
selected.  `pos` is an exact rational, not the `REAL` of the schema.

The table operations below are the building blocks of every statement: inserting a
key, touching a key row, inserting, updating and deleting typed rows.  Each keeps the
constraints, and each comes with the small lemmas later proofs rewrite with.
-/

namespace Redka

/-- `core.Value`: the bytes of a list element or of a hash value. -/
abbrev Value := List UInt8

/-- The conversions of package `core` the hash repository calls, which the sources
do not include; every result is proved for all of them. -/
structure Core where
  /-- `core.Value.Int`. -/
  valueInt : Value → Option Int
  /-- `core.Value.Float`. -/
  valueFloat : Value → Option Float
  /-- `core.ToBytes` on a Go `int`. -/
  intBytes : Int → Value
  /-- `core.ToBytes` on a Go `float64`. -/
  floatBytes : Float → Value

/-- The type registry of `rkey.type`: string = 1, list = 2, set = 3, hash = 4,
zset = 5.  The column is `NOT NULL`, so a row always has one. -/
inductive TypeID where
  | string | list | set | hash | zset
  deriving DecidableEq, Repr

/-- A row of `rkey`. -/
structure KeyRow where
  id : Nat
  key : String
  type : TypeID
  version : Int
  etime : Option Int
  mtime : Int
  len : Option Int
  deriving DecidableEq, Repr

/-- A row of `rlist`. -/
structure ListRow where
  kid : Nat
  pos : ℚ
  elem : Value
  deriving DecidableEq, Repr

/-- A row of `rhash`, with SQLite's `rowid`. -/
structure HashRow where
  rowid : Nat
  kid : Nat
  field : String
  value : Value
  deriving DecidableEq, Repr

/-- The columns of `rlist_pk_idx`. -/
def ListRow.slot (r : ListRow) : Nat × ℚ := (r.kid, r.pos)

/-- The columns of `rhash_pk_idx`. -/
def HashRow.slot (r : HashRow) : Nat × String := (r.kid, r.field)

/-- `(etime is null or etime > now)`: the row is not logically expired at `now`. -/
def KeyRow.live (r : KeyRow) (now : Int) : Bool :=
  match r.etime with
  | none => true
  | some t => decide (now < t)

/-- A key row the typed queries select: `key = ? and type = t and (etime is null or
etime > now)`. -/
def KeyRow.selects (r : KeyRow) (key : String) (t : TypeID) (now : Int) : Bool :=
  r.key = key && r.type = t && r.live now

/-- `set version = version + dv, mtime = m, len = len + dl` on one row; `len` is
nullable and `NULL + dl` is `NULL`. -/
def KeyRow.touch (r : KeyRow) (dv : Int) (mtime : Option Int) (dl : Int) : KeyRow :=
  { r with version := r.version + dv, mtime := mtime.getD r.mtime, len := r.len.map (· + dl) }

/-- One state of the tables `rkey`, `rlist` and `rhash`, with the constraints of the
schema. -/
@[ext] structure Store where
  rkey : List KeyRow
  rlist : List ListRow
  rhash : List HashRow
  /-- The next value of the `SERIAL` sequence behind `rkey.id`. -/
  serial : Nat
  rkey_id : (rkey.map KeyRow.id).Nodup
  rkey_key : (rkey.map KeyRow.key).Nodup
  rkey_serial : ∀ r ∈ rkey, r.id < serial
  rlist_pk : (rlist.map ListRow.slot).Nodup
  rhash_pk : (rhash.map HashRow.slot).Nodup
  rhash_rowid : (rhash.map HashRow.rowid).Nodup

namespace Store

/-- The empty database: no rows, and a fresh sequence. -/
def empty : Store where
  rkey := []
  rlist := []
  rhash := []
  serial := 1
  rkey_id := List.nodup_nil
  rkey_key := List.nodup_nil
  rkey_serial := fun _ h => absurd h (List.not_mem_nil _)
  rlist_pk := List.nodup_nil
  rhash_pk := List.nodup_nil
  rhash_rowid := List.nodup_nil

/-- The row of `key`, live or not: `key` is unique, so there is at most one. -/
def findKey (s : Store) (key : String) : Option KeyRow :=
  s.rkey.find? (·.key = key)

/-- The row the typed queries select: `key = ? and type = t and (etime is null or
etime > now)`. -/
def curRow (s : Store) (key : String) (t : TypeID) (now : Int) : Option KeyRow :=
  s.rkey.find? (·.selects key t now)

/-- The `curkey` subquery: the id of the row `curRow` selects. -/
def curkey (s : Store) (key : String) (t : TypeID) (now : Int) : Option Nat :=
  (s.curRow key t now).map (·.id)

/-- The rows of list `kid`, in table order. -/
def listRows (s : Store) (kid : Nat) : List ListRow :=
  s.rlist.filter (·.kid = kid)

/-- The rows of hash `kid`, in table order. -/
def hashRows (s : Store) (kid : Nat) : List HashRow :=
  s.rhash.filter (·.kid = kid)

/-! ## Keys -/

theorem key_not_mem_of_findKey {s : Store} {key : String} (h : s.findKey key = none) :
    key ∉ s.rkey.map KeyRow.key := by
  simpa [findKey, List.find?_eq_none] using h

/-- Append a fresh row for `key`, which has none, with the sequence's next id and
version 1, and advance the sequence. -/
def insertKey (s : Store) (key : String) (type : TypeID) (mtime : Int) (len : Option Int)
    (h : key ∉ s.rkey.map KeyRow.key) : Store where
  rkey := s.rkey ++ [⟨s.serial, key, type, 1, none, mtime, len⟩]
  rlist := s.rlist
  rhash := s.rhash
  serial := s.serial + 1
  rkey_id := by
    rw [List.map_append, List.map_singleton, ← List.concat_eq_append]
    exact List.Nodup.concat (fun hm => by
      obtain ⟨r, hr, he⟩ := List.mem_map.1 hm
      exact absurd (he ▸ s.rkey_serial r hr) (Nat.lt_irrefl _)) s.rkey_id
  rkey_key := by
    rw [List.map_append, List.map_singleton, ← List.concat_eq_append]
    exact List.Nodup.concat h s.rkey_key
  rkey_serial := by
    intro r hr
    rcases List.mem_append.1 hr with hr | hr
    · exact Nat.lt_succ_of_lt (s.rkey_serial r hr)
    · rw [List.mem_singleton.1 hr]; exact Nat.lt_succ_self _
  rlist_pk := s.rlist_pk
  rhash_pk := s.rhash_pk
  rhash_rowid := s.rhash_rowid

/-- `update rkey set version = version + dv, mtime = m, len = len + dl where p`. -/
def touch (s : Store) (p : KeyRow → Bool) (dv : Int) (mtime : Option Int) (dl : Int) : Store where
  rkey := s.rkey.map fun r => if p r then r.touch dv mtime dl else r
  rlist := s.rlist
  rhash := s.rhash
  serial := s.serial
  rkey_id := by
    rw [List.map_map]
    convert s.rkey_id using 2
    funext r; simp only [Function.comp]; split <;> rfl
  rkey_key := by
    rw [List.map_map]
    convert s.rkey_key using 2
    funext r; simp only [Function.comp]; split <;> rfl
  rkey_serial := by
    simp only [List.mem_map]
    rintro _ ⟨r, hr, rfl⟩
    have := s.rkey_serial r hr
    split <;> exact this
  rlist_pk := s.rlist_pk
  rhash_pk := s.rhash_pk
  rhash_rowid := s.rhash_rowid

/-! ## List rows and their triggers -/

/-- Insert `row` into `rlist`; `none` when `rlist_pk_idx` refuses its slot. -/
def insertList (s : Store) (row : ListRow) : Option Store :=
  if h : row.slot ∈ s.rlist.map ListRow.slot then none
  else some
    { s with
      rlist := s.rlist ++ [row]
      rlist_pk := by
        rw [List.map_append, List.map_singleton, ← List.concat_eq_append]
        exact s.rlist_pk.concat h }

/-- `update_rkey_on_rlist_delete`, fired before each deleted row of `rlist`: its key
gets a new version and mtime, and one element less. -/
def rlistOnDelete (now : Int) (s : Store) (r : ListRow) : Store :=
  s.touch (·.id = r.kid) 1 (some now) (-1)

/-- `update_rkey_on_rlist_update`, fired before each updated row of `rlist`. -/
def rlistOnUpdate (now : Int) (s : Store) (r : ListRow) : Store :=
  s.touch (·.id = r.kid) 1 (some now) 0

/-- `delete from rlist where p`, firing `rlist_on_delete` for each deleted row.  The
trigger's clock is taken to be the caller's `now`. -/
def deleteList (s : Store) (p : ListRow → Bool) (now : Int) : Store :=
  (s.rlist.filter p).foldl (rlistOnDelete now)
    { s with
      rlist := s.rlist.filter (fun r => !p r)
      rlist_pk := s.rlist_pk.sublist ((List.filter_sublist _).map _) }

/-- `update rlist set elem = e where p`, firing `rlist_on_update` for each row. -/
def updateList (s : Store) (p : ListRow → Bool) (e : Value) (now : Int) : Store :=
  (s.rlist.filter p).foldl (rlistOnUpdate now)
    { s with
      rlist := s.rlist.map fun r => if p r then { r with elem := e } else r
      rlist_pk := by
        rw [List.map_map]
        convert s.rlist_pk using 2
        funext r; simp only [Function.comp]; split <;> rfl }

/-! ## Hash rows and their trigger -/

/-- SQLite's next `rowid`: one more than the largest in the table. -/
def nextRowid (s : Store) : Nat :=
  (s.rhash.map HashRow.rowid).foldr max 0 + 1

theorem rowid_lt_nextRowid (s : Store) : ∀ r ∈ s.rhash, r.rowid < s.nextRowid := by
  have : ∀ l : List Nat, ∀ x ∈ l, x ≤ l.foldr max 0 := by
    intro l; induction l with
    | nil => simp
    | cons a l ih => intro x hx; rcases List.mem_cons.1 hx with rfl | hx
                     · exact le_max_left _ _
                     · exact le_trans (ih x hx) (le_max_right _ _)
  intro r hr
  exact Nat.lt_succ_of_le (this _ _ (List.mem_map_of_mem _ hr))

/-- `insert into rhash (kid, field, value) values (...) on conflict (kid, field) do
update set value = excluded.value`, with `update_rkey_on_rhash_insert` fired before
it: a field the hash did not have adds one to its key's `len`. -/
def upsertHash (s : Store) (kid : Nat) (field : String) (value : Value) : Store :=
  if h : (kid, field) ∈ s.rhash.map HashRow.slot then
    { s with
      rhash := s.rhash.map fun r => if r.slot = (kid, field) then { r with value := value } else r
      rhash_pk := by
        rw [List.map_map]
        convert s.rhash_pk using 2
        funext r; simp only [Function.comp]; split <;> rfl
      rhash_rowid := by
        rw [List.map_map]
        convert s.rhash_rowid using 2
        funext r; simp only [Function.comp]; split <;> rfl }
  else
    ({ s with
      rhash := s.rhash ++ [⟨s.nextRowid, kid, field, value⟩]
      rhash_pk := by
        rw [List.map_append, List.map_singleton, ← List.concat_eq_append]
        exact s.rhash_pk.concat h
      rhash_rowid := by
        rw [List.map_append, List.map_singleton, ← List.concat_eq_append]
        refine s.rhash_rowid.concat fun hm => ?_
        obtain ⟨r, hr, he⟩ := List.mem_map.1 hm
        exact absurd (he ▸ s.rowid_lt_nextRowid r hr) (Nat.lt_irrefl _) } : Store).touch
      (·.id = kid) 0 none 1

/-- `delete from rhash where p`; `rhash` has no delete trigger. -/
def deleteHash (s : Store) (p : HashRow → Bool) : Store :=
  { s with
    rhash := s.rhash.filter (fun r => !p r)
    rhash_pk := s.rhash_pk.sublist ((List.filter_sublist _).map _)
    rhash_rowid := s.rhash_rowid.sublist ((List.filter_sublist _).map _) }

/-! ## Lemmas: reading keys -/

/-- Keys are unique, so two rows with the same key are the same row. -/
theorem eq_of_key_eq {s : Store} {r r' : KeyRow} (hr : r ∈ s.rkey) (hr' : r' ∈ s.rkey)
    (h : r.key = r'.key) : r = r' :=
  List.inj_on_of_nodup_map s.rkey_key hr hr' h

/-- Ids are unique, so two rows with the same id are the same row. -/
theorem eq_of_id_eq {s : Store} {r r' : KeyRow} (hr : r ∈ s.rkey) (hr' : r' ∈ s.rkey)
    (h : r.id = r'.id) : r = r' :=
  List.inj_on_of_nodup_map s.rkey_id hr hr' h

theorem findKey_eq_some {s : Store} {key : String} {r : KeyRow} :
    s.findKey key = some r ↔ r ∈ s.rkey ∧ r.key = key := by
  constructor
  · intro h
    exact ⟨List.mem_of_find?_eq_some h, by simpa using List.find?_some h⟩
  · rintro ⟨hr, rfl⟩
    cases h : s.findKey r.key with
    | none => exact absurd (List.mem_map_of_mem KeyRow.key hr) (key_not_mem_of_findKey h)
    | some r' =>
      have hr' := List.mem_of_find?_eq_some h
      have hk : r'.key = r.key := by simpa using List.find?_some h
      rw [eq_of_key_eq hr' hr hk]

theorem findKey_eq_none {s : Store} {key : String} :
    s.findKey key = none ↔ ∀ r ∈ s.rkey, r.key ≠ key := by
  simp [findKey]

theorem curRow_eq_some {s : Store} {key : String} {t : TypeID} {now : Int} {r : KeyRow} :
    s.curRow key t now = some r ↔ s.findKey key = some r ∧ r.type = t ∧ r.live now := by
  constructor
  · intro h
    have hr := List.mem_of_find?_eq_some h
    have hp := List.find?_some h
    simp only [KeyRow.selects, Bool.and_eq_true, decide_eq_true_eq] at hp
    exact ⟨findKey_eq_some.2 ⟨hr, hp.1.1⟩, hp.1.2, hp.2⟩
  · rintro ⟨hf, ht, hl⟩
    obtain ⟨hr, hk⟩ := findKey_eq_some.1 hf
    cases h : s.curRow key t now with
    | none =>
      have := List.find?_eq_none.1 h r hr
      simp [KeyRow.selects, hk, ht, hl] at this
    | some r' =>
      have hr' := List.mem_of_find?_eq_some h
      have hp := List.find?_some h
      simp only [KeyRow.selects, Bool.and_eq_true, decide_eq_true_eq] at hp
      rw [eq_of_key_eq hr' hr (hp.1.1.trans hk.symm)]

/-- What the typed queries read of a key: its id and type. -/
def kindOf (s : Store) (key : String) : Option (Nat × TypeID) :=
  (s.findKey key).map fun r => (r.id, r.type)

theorem kindOf_congr {s s' : Store} (h : s'.rkey = s.rkey) : s'.kindOf = s.kindOf := by
  funext k; simp only [kindOf, findKey, h]

/-! ## Lemmas: the table operations -/

@[simp] theorem insertKey_rkey (s : Store) (key type mtime len h) :
    (s.insertKey key type mtime len h).rkey =
      s.rkey ++ [⟨s.serial, key, type, 1, none, mtime, len⟩] := rfl
@[simp] theorem insertKey_rlist (s : Store) (key type mtime len h) :
    (s.insertKey key type mtime len h).rlist = s.rlist := rfl
@[simp] theorem insertKey_rhash (s : Store) (key type mtime len h) :
    (s.insertKey key type mtime len h).rhash = s.rhash := rfl
@[simp] theorem insertKey_serial (s : Store) (key type mtime len h) :
    (s.insertKey key type mtime len h).serial = s.serial + 1 := rfl

theorem findKey_insertKey (s : Store) (key type mtime len h) (k : String) :
    (s.insertKey key type mtime len h).findKey k =
      if k = key then some ⟨s.serial, key, type, 1, none, mtime, len⟩ else s.findKey k := by
  have hn : s.rkey.find? (·.key = key) = none := by
    simpa [List.find?_eq_none] using h
  split
  · subst k; simp [findKey, List.find?_append, hn]
  · rename_i hk
    cases hf : s.findKey k with
    | none => simp_all [findKey, List.find?_append, Ne.symm hk]
    | some r => simp_all [findKey, List.find?_append]

theorem kindOf_insertKey (s : Store) (key type mtime len h) (k : String) :
    (s.insertKey key type mtime len h).kindOf k =
      if k = key then some (s.serial, type) else s.kindOf k := by
  rw [kindOf, findKey_insertKey]; split <;> rfl

@[simp] theorem touch_rkey (s : Store) (p dv mtime dl) :
    (s.touch p dv mtime dl).rkey = s.rkey.map fun r => if p r then r.touch dv mtime dl else r :=
  rfl
@[simp] theorem touch_rlist (s : Store) (p dv mtime dl) : (s.touch p dv mtime dl).rlist = s.rlist :=
  rfl
@[simp] theorem touch_rhash (s : Store) (p dv mtime dl) : (s.touch p dv mtime dl).rhash = s.rhash :=
  rfl
@[simp] theorem touch_serial (s : Store) (p dv mtime dl) :
    (s.touch p dv mtime dl).serial = s.serial := rfl

@[simp] theorem KeyRow.touch_id (r : KeyRow) (dv mtime dl) : (r.touch dv mtime dl).id = r.id := rfl
@[simp] theorem KeyRow.touch_key (r : KeyRow) (dv mtime dl) : (r.touch dv mtime dl).key = r.key :=
  rfl
@[simp] theorem KeyRow.touch_type (r : KeyRow) (dv mtime dl) :
    (r.touch dv mtime dl).type = r.type := rfl
@[simp] theorem KeyRow.touch_etime (r : KeyRow) (dv mtime dl) :
    (r.touch dv mtime dl).etime = r.etime := rfl
@[simp] theorem KeyRow.touch_version (r : KeyRow) (dv mtime dl) :
    (r.touch dv mtime dl).version = r.version + dv := rfl
@[simp] theorem KeyRow.touch_len (r : KeyRow) (dv mtime dl) :
    (r.touch dv mtime dl).len = r.len.map (· + dl) := rfl
@[simp] theorem KeyRow.touch_live (r : KeyRow) (dv mtime dl now) :
    (r.touch dv mtime dl).live now = r.live now := rfl

/-- The row a touch makes of a row of the table. -/
theorem mem_touch {s : Store} {r : KeyRow} (hr : r ∈ s.rkey) (p dv mtime dl) :
    (if p r then r.touch dv mtime dl else r) ∈ (s.touch p dv mtime dl).rkey :=
  List.mem_map_of_mem _ hr

theorem kindOf_touch (s : Store) (p dv mtime dl) : (s.touch p dv mtime dl).kindOf = s.kindOf := by
  funext key
  simp only [kindOf, findKey, touch_rkey, List.find?_map]
  have : ((fun r : KeyRow => decide (r.key = key)) ∘ fun r =>
      if p r then r.touch dv mtime dl else r) = fun r => decide (r.key = key) := by
    funext r; simp only [Function.comp]; split <;> rfl
  rw [this, Option.map_map]
  congr 1; funext r; simp only [Function.comp]; split <;> rfl

theorem findKey_touch (s : Store) (p dv mtime dl) (key : String) :
    (s.touch p dv mtime dl).findKey key =
      (s.findKey key).map fun r => if p r then r.touch dv mtime dl else r := by
  simp only [findKey, touch_rkey, List.find?_map]
  have : ((fun r : KeyRow => decide (r.key = key)) ∘ fun r =>
      if p r then r.touch dv mtime dl else r) = fun r => decide (r.key = key) := by
    funext r; simp only [Function.comp]; split <;> rfl
  rw [this]

theorem kindOf_upsertHash (s : Store) (kid field value) :
    (s.upsertHash kid field value).kindOf = s.kindOf := by
  unfold upsertHash
  split
  · exact kindOf_congr rfl
  · exact (kindOf_touch _ _ _ _ _).trans (kindOf_congr rfl)

@[simp] theorem rlistOnDelete_rlist (now) (s : Store) (r) : (rlistOnDelete now s r).rlist = s.rlist :=
  rfl
@[simp] theorem rlistOnUpdate_rlist (now) (s : Store) (r) : (rlistOnUpdate now s r).rlist = s.rlist :=
  rfl

theorem foldl_touch_rlist {f : Store → ListRow → Store} (hf : ∀ t r, (f t r).rlist = t.rlist) :
    ∀ (l : List ListRow) (t : Store), (l.foldl f t).rlist = t.rlist
  | [], _ => rfl
  | r :: l, t => (foldl_touch_rlist hf l (f t r)).trans (hf t r)

theorem foldl_touch_rhash {f : Store → ListRow → Store} (hf : ∀ t r, (f t r).rhash = t.rhash) :
    ∀ (l : List ListRow) (t : Store), (l.foldl f t).rhash = t.rhash
  | [], _ => rfl
  | r :: l, t => (foldl_touch_rhash hf l (f t r)).trans (hf t r)

theorem foldl_touch_kindOf {f : Store → ListRow → Store} (hf : ∀ t r, (f t r).kindOf = t.kindOf) :
    ∀ (l : List ListRow) (t : Store), (l.foldl f t).kindOf = t.kindOf
  | [], _ => rfl
  | r :: l, t => (foldl_touch_kindOf hf l (f t r)).trans (hf t r)

@[simp] theorem deleteList_rlist (s : Store) (p now) :
    (s.deleteList p now).rlist = s.rlist.filter (fun r => !p r) :=
  foldl_touch_rlist (f := rlistOnDelete now) (fun _ _ => rfl) _ _
@[simp] theorem deleteList_rhash (s : Store) (p now) : (s.deleteList p now).rhash = s.rhash :=
  foldl_touch_rhash (f := rlistOnDelete now) (fun _ _ => rfl) _ _
@[simp] theorem deleteList_kindOf (s : Store) (p now) : (s.deleteList p now).kindOf = s.kindOf :=
  foldl_touch_kindOf (f := rlistOnDelete now) (fun t _ => kindOf_touch t _ _ _ _) _ _

@[simp] theorem updateList_rlist (s : Store) (p e now) :
    (s.updateList p e now).rlist = s.rlist.map fun r => if p r then { r with elem := e } else r :=
  foldl_touch_rlist (f := rlistOnUpdate now) (fun _ _ => rfl) _ _
@[simp] theorem updateList_rhash (s : Store) (p e now) : (s.updateList p e now).rhash = s.rhash :=
  foldl_touch_rhash (f := rlistOnUpdate now) (fun _ _ => rfl) _ _
@[simp] theorem updateList_kindOf (s : Store) (p e now) :
    (s.updateList p e now).kindOf = s.kindOf :=
  foldl_touch_kindOf (f := rlistOnUpdate now) (fun t _ => kindOf_touch t _ _ _ _) _ _

/-- A delete that matches no row changes nothing. -/
theorem deleteList_of_nil {s : Store} {p : ListRow → Bool} (h : s.rlist.filter p = []) (now) :
    s.deleteList p now = s := by
  have hp := List.filter_eq_nil_iff.1 h
  unfold deleteList
  rw [h, List.foldl_nil]
  ext1
  · rfl
  · exact List.filter_eq_self.2 fun x hx => by simpa using hp x hx
  · rfl
  · rfl

/-- An update that matches no row changes nothing. -/
theorem updateList_of_nil {s : Store} {p : ListRow → Bool} (h : s.rlist.filter p = []) (e now) :
    s.updateList p e now = s := by
  have hp := List.filter_eq_nil_iff.1 h
  unfold updateList
  rw [h, List.foldl_nil]
  ext1
  · rfl
  · show s.rlist.map _ = s.rlist
    conv_rhs => rw [← List.map_id s.rlist]
    exact List.map_congr_left fun x hx => by simp [hp x hx]
  · rfl
  · rfl

theorem insertList_eq_some {s s' : Store} {row : ListRow} (h : s.insertList row = some s') :
    s'.rlist = s.rlist ++ [row] ∧ s'.rkey = s.rkey ∧ s'.rhash = s.rhash ∧ s'.serial = s.serial := by
  unfold insertList at h
  split at h
  · cases h
  · cases h; exact ⟨rfl, rfl, rfl, rfl⟩

theorem insertList_isSome {s : Store} {row : ListRow}
    (h : row.slot ∉ s.rlist.map ListRow.slot) : ∃ s', s.insertList row = some s' := by
  unfold insertList; rw [dif_neg h]; exact ⟨_, rfl⟩

/-! ## Lemmas: what touching does to key rows

Every write the repositories make to `rkey`, apart from inserting a key, is a touch:
it keeps a row's id, key, type and expiry, keeps `len` present, and never lowers the
version.  `IsTouch` names such a change of rows, and the table operations that fire
triggers are shown to change `rkey` by one. -/

/-- A change of key rows made of touches. -/
structure IsTouch (g : KeyRow → KeyRow) : Prop where
  id : ∀ r, (g r).id = r.id
  key : ∀ r, (g r).key = r.key
  type : ∀ r, (g r).type = r.type
  etime : ∀ r, (g r).etime = r.etime
  len : ∀ r, (g r).len.isSome = r.len.isSome
  version : ∀ r, r.version ≤ (g r).version

theorem IsTouch.refl : IsTouch fun r => r :=
  ⟨fun _ => rfl, fun _ => rfl, fun _ => rfl, fun _ => rfl, fun _ => rfl, fun _ => le_rfl⟩

theorem IsTouch.comp {g h : KeyRow → KeyRow} (hh : IsTouch h) (hg : IsTouch g) :
    IsTouch (h ∘ g) :=
  ⟨fun r => (hh.id _).trans (hg.id r), fun r => (hh.key _).trans (hg.key r),
    fun r => (hh.type _).trans (hg.type r), fun r => (hh.etime _).trans (hg.etime r),
    fun r => (hh.len _).trans (hg.len r), fun r => (hg.version r).trans (hh.version _)⟩

theorem isTouch_touch (p : KeyRow → Bool) {dv : Int} (hdv : 0 ≤ dv) (mtime dl) :
    IsTouch fun r => if p r then r.touch dv mtime dl else r := by
  constructor <;> intro r <;> split <;> simp [KeyRow.touch, hdv]

theorem foldl_touch_rkey {f : Store → ListRow → Store}
    (hf : ∀ t r, ∃ g, IsTouch g ∧ (f t r).rkey = t.rkey.map g) :
    ∀ (l : List ListRow) (t : Store), ∃ g, IsTouch g ∧ (l.foldl f t).rkey = t.rkey.map g
  | [], _ => ⟨_, IsTouch.refl, (List.map_id' _).symm⟩
  | r :: l, t =>
    have ⟨g, hg, h⟩ := hf t r
    have ⟨g', hg', h'⟩ := foldl_touch_rkey hf l (f t r)
    ⟨g' ∘ g, hg'.comp hg, by rw [List.foldl_cons, h', h, List.map_map]⟩

theorem deleteList_rkey (s : Store) (p now) :
    ∃ g, IsTouch g ∧ (s.deleteList p now).rkey = s.rkey.map g :=
  foldl_touch_rkey (fun _ _ => ⟨_, isTouch_touch _ Int.one_nonneg _ _, rfl⟩) _ _

theorem updateList_rkey (s : Store) (p e now) :
    ∃ g, IsTouch g ∧ (s.updateList p e now).rkey = s.rkey.map g :=
  foldl_touch_rkey (fun _ _ => ⟨_, isTouch_touch _ Int.one_nonneg _ _, rfl⟩) _ _

@[simp] theorem deleteHash_rhash (s : Store) (p) :
    (s.deleteHash p).rhash = s.rhash.filter (fun r => !p r) := rfl
@[simp] theorem deleteHash_rkey (s : Store) (p) : (s.deleteHash p).rkey = s.rkey := rfl
@[simp] theorem deleteHash_rlist (s : Store) (p) : (s.deleteHash p).rlist = s.rlist := rfl

end Store
end Redka
