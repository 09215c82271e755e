import Redka.Store

/-! # Statements, transactions and errors (package `sqlx`)

A repository method is Go code that runs SQL statements through a `sqlx.Tx` one after
the other and turns their failures into its own errors.  The model keeps that shape.

* A statement (`Stmt`) either fails, leaving the tables as they were, or returns its
  rows and the tables after it: statement-level atomicity, as SQLite gives it.
* A method runs in `Tx`, an `EStateM` over the store: when it returns an error, the
  store is the one after the last statement that succeeded.  A failed method
  therefore keeps what its earlier statements did, until the envelope `DB.execTx`
  rolls the whole transaction back.

Errors follow the driver: `TypedError` turns a `NOT NULL` failure on `rkey.type` into
`ErrKeyType` when the message is SQLite's, and passes everything else through.  The
dialect is the process-wide flag `IsPostgres`, a parameter here.

The typed upsert on `rkey`, which every list and hash writer runs first, is shared
by the two repositories (`upsertKey`), and so are the rules by which the two engines
read a `LIMIT` and an `OFFSET` (`applyLimit`).
-/

namespace Redka

/-- The engine behind the repositories: the flag set by `SetPostgres`. -/
inductive Dialect where
  | sqlite | postgres
  deriving DecidableEq, Repr

/-- The ways a modelled SQL statement can fail. -/
inductive SqlError where
  /-- A `NOT NULL` column received `NULL`, as `"rkey.type"` or `"rlist.pos"`. -/
  | notNull (column : String)
  /-- A unique index refused a row. -/
  | unique (index : String)
  /-- A `LIMIT` or `OFFSET` the engine does not accept. -/
  | limit
  /-- Fewer arguments than placeholders. -/
  | bind
  /-- A statement the engine cannot parse. -/
  | parse
  /-- PostgreSQL's "out of range": a parameter outside `int4`, or `int4` arithmetic that
  overflows. -/
  | range
  deriving DecidableEq, Repr

/-- The errors a repository method returns. -/
inductive Error where
  /-- `core.ErrNotFound`. -/
  | notFound
  /-- `core.ErrKeyType`. -/
  | keyType
  /-- `core.ErrValueType`. -/
  | valueType
  /-- A driver error passed through unchanged. -/
  | db (e : SqlError)
  /-- `database/sql` refusing to scan a row: `NULL` into a Go `int`, or a row with
  fewer columns than destinations. -/
  | scan
  /-- `sql.ErrNoRows` returned as it is. -/
  | noRows
  deriving DecidableEq, Repr

/-- `sqlx.ConstraintFailed`: the driver's message contains
`constraint + " constraint failed: " + column`.  SQLite words a `NOT NULL` failure
exactly so; PostgreSQL's "null value in column ... violates not-null constraint"
never contains the text. -/
def constraintFailed : Dialect → SqlError → String → String → Bool
  | .sqlite, .notNull col, constraint, column => constraint == "NOT NULL" && column == col
  | _, _, _, _ => false

/-- `sqlx.TypedError`. -/
def typedError (d : Dialect) (e : SqlError) : Error :=
  if constraintFailed d e "NOT NULL" "rkey.type" then .keyType else .db e

/-- One SQL statement: it fails and leaves the tables alone, or returns its rows and
the tables after it. -/
abbrev Stmt (α : Type) := Store → Except SqlError (α × Store)

/-- A repository method inside a transaction. -/
abbrev Tx := EStateM Error Store

/-- Run a statement; its failure is returned, not raised. -/
def exec (st : Stmt α) : Tx (Except SqlError α) := fun s =>
  match st s with
  | .ok (a, s') => .ok (.ok a) s'
  | .error e => .ok (.error e) s

/-- Run a statement and raise its failure as `f` maps it. -/
def orThrow (st : Stmt α) (f : SqlError → Error) : Tx α := fun s =>
  match st s with
  | .ok (a, s') => .ok a s'
  | .error e => .error (f e) s

/-- Run a method for its effect. -/
def Tx.forget (x : Tx α) : Tx Unit := do
  let _ ← x

/-- The store a method leaves, whether it returned or failed. -/
def Tx.final (x : Tx α) (s : Store) : Store :=
  match x s with
  | .ok _ s' => s'
  | .error _ s' => s'

/-- What a method returned, or its error. -/
def Tx.result (x : Tx α) (s : Store) : Except Error α :=
  match x s with
  | .ok a _ => .ok a
  | .error e _ => .error e

/-- Results are compared by their payloads, so that a run's result can be decided. -/
instance exceptDecidableEq {ε α : Type} [DecidableEq ε] [DecidableEq α] : DecidableEq (Except ε α)
  | .error a, .error b => if h : a = b then isTrue (h ▸ rfl) else isFalse fun e => h (by injection e)
  | .ok a, .ok b => if h : a = b then isTrue (h ▸ rfl) else isFalse fun e => h (by injection e)
  | .error _, .ok _ => isFalse nofun
  | .ok _, .error _ => isFalse nofun

theorem Tx.final_of_ok {x : Tx α} {s s' : Store} {a : α} (h : x s = .ok a s') : x.final s = s' := by
  simp [Tx.final, h]

theorem Tx.final_of_error {x : Tx α} {s s' : Store} {e : Error} (h : x s = .error e s') :
    x.final s = s' := by
  simp [Tx.final, h]

@[simp] theorem Tx.final_forget (x : Tx α) (s : Store) : x.forget.final s = x.final s := by
  simp only [Tx.final, Tx.forget, bind, EStateM.bind]
  cases x s <;> rfl

theorem Tx.result_forget (x : Tx α) (s : Store) :
    x.forget.result s = (x.result s).map fun _ => () := by
  simp only [Tx.result, Tx.forget, bind, EStateM.bind]
  cases x s <;> rfl

theorem orThrow_ok {q : Stmt α} {f : SqlError → Error} {s s' : Store} {a : α}
    (h : q s = .ok (a, s')) : orThrow q f s = .ok a s' := by
  simp [orThrow, h]

theorem orThrow_error {q : Stmt α} {f : SqlError → Error} {s : Store} {e : SqlError}
    (h : q s = .error e) : orThrow q f s = .error (f e) s := by
  simp [orThrow, h]

theorem ok_of_orThrow {q : Stmt α} {f : SqlError → Error} {s s' : Store} {a : α}
    (h : orThrow q f s = .ok a s') : q s = .ok (a, s') := by
  simp only [orThrow] at h
  split at h <;> cases h
  assumption

/-- `TypedError` never turns a driver error into another driver error. -/
theorem typedError_ne_db {d : Dialect} {e e' : SqlError} (h : e ≠ e') :
    typedError d e ≠ .db e' := by
  unfold typedError; split <;> simp [h]

/-! ## The typed upsert on `rkey` -/

/-- The typed upsert that `sqlPush` and rhash's `sqlSet1` share:

    insert into rkey (key, type, version, mtime, len) values (?, t, 1, ?, len0)
    on conflict (key) do update set
      type = case when type = excluded.type then type else null end,
      version = version + 1, mtime = excluded.mtime, len = len + dl
    returning id, len

A row of another type gets `type = NULL`, which `NOT NULL` refuses.  The conflict
ignores `etime`: an expired row is updated like a live one. -/
def upsertKey (key : String) (t : TypeID) (now len0 dl : Int) : Stmt (Nat × Option Int) :=
  fun s =>
    match h : s.findKey key with
    | none => .ok ((s.serial, some len0), s.insertKey key t now (some len0)
        (Store.key_not_mem_of_findKey h))
    | some r =>
      if r.type = t then .ok ((r.id, r.len.map (· + dl)), s.touch (·.key = key) 1 (some now) dl)
      else .error (.notNull "rkey.type")

/-- What the typed upsert does: a new key, a touch of a row of type `t`, or the type
error. -/
theorem upsertKey_cases (key : String) (t : TypeID) (now len0 dl : Int) (s : Store) :
    (∃ h : s.findKey key = none, upsertKey key t now len0 dl s =
      .ok ((s.serial, some len0), s.insertKey key t now (some len0) (Store.key_not_mem_of_findKey h))) ∨
    (∃ r, s.findKey key = some r ∧ r.type = t ∧ upsertKey key t now len0 dl s =
      .ok ((r.id, r.len.map (· + dl)), s.touch (·.key = key) 1 (some now) dl)) ∨
    (∃ r, s.findKey key = some r ∧ r.type ≠ t ∧
      upsertKey key t now len0 dl s = .error (.notNull "rkey.type")) := by
  unfold upsertKey
  split
  · rename_i h; exact .inl ⟨h, rfl⟩
  · rename_i r h
    by_cases ht : r.type = t
    · exact .inr (.inl ⟨r, h, ht, by rw [if_pos ht]⟩)
    · exact .inr (.inr ⟨r, h, ht, by rw [if_neg ht]⟩)

/-! ## The engines' integers

The list queries compute their bounds in the engine: SQLite in its 64-bit integers,
PostgreSQL in `int4`, the type of `rkey.len` and the type it infers for a parameter compared
with `0` or added to `len` or to `1`. -/

/-- The largest of the engine's integers: `2^63 - 1` on SQLite, `2^31 - 1` on PostgreSQL. -/
def Dialect.maxInt : Dialect → Int
  | .sqlite => 9223372036854775807
  | .postgres => 2147483647

/-- A value of PostgreSQL's `int4`, or its "out of range". -/
def int4 (x : Int) : Except SqlError Int :=
  if -2147483648 ≤ x ∧ x ≤ 2147483647 then .ok x else .error .range

/-- A parameter the engine binds: PostgreSQL refuses a value outside `int4`; SQLite binds
Go's `int` as it is. -/
def Dialect.param : Dialect → Int → Except SqlError Int
  | .sqlite, i => .ok i
  | .postgres, i => int4 i

/-- A sum `a + b` as the engine computes it.  SQLite's `sqlite3AddInt64` reports an
overflow when both terms have one sign and the sum passes `2^63 - 1` or `-2^63`; the sum is
then a `REAL`, and a `LIMIT` or `OFFSET` that is no 64-bit integer is a datatype mismatch.
PostgreSQL's `int4pl` raises "integer out of range". -/
def Dialect.add : Dialect → Int → Int → Except SqlError Int
  | .sqlite, a, b =>
    if 0 ≤ b ∧ 0 < a ∧ 9223372036854775807 - a < b ∨
        b < 0 ∧ a < 0 ∧ b + 1 < -(a + 9223372036854775807) then .error .limit
    else .ok (a + b)
  | .postgres, a, b => int4 (a + b)

/-- A difference `a - b` as the engine computes it.  SQLite's `sqlite3SubInt64` adds `-b`,
save for `b = -2^63`, whose negation is no 64-bit integer; PostgreSQL's `int4mi` raises
"integer out of range". -/
def Dialect.sub : Dialect → Int → Int → Except SqlError Int
  | .sqlite, a, b =>
    if b = -9223372036854775808 then (if 0 ≤ a then .error .limit else .ok (a - b))
    else Dialect.sqlite.add a (-b)
  | .postgres, a, b => int4 (a - b)

section Integers
variable {d : Dialect} {a b : Int}

theorem Dialect.one_le_maxInt (d : Dialect) : 1 ≤ d.maxInt := by
  cases d <;> decide

theorem int4_of_le (h0 : -2 ^ 31 ≤ a) (h1 : a < 2 ^ 31) : int4 a = .ok a :=
  if_pos ⟨by omega, by omega⟩

theorem Dialect.add_sqlite_of_le (h0 : -2 ^ 63 ≤ a + b) (h1 : a + b < 2 ^ 63) :
    Dialect.sqlite.add a b = .ok (a + b) :=
  if_neg (by omega)

/-- Where the exact result is one of the engine's integers, the engine computes it. -/
theorem Dialect.param_of_le (h0 : -d.maxInt - 1 ≤ a) (h1 : a ≤ d.maxInt) : d.param a = .ok a := by
  cases d
  · rfl
  · exact int4_of_le (by simp only [Dialect.maxInt] at h0; omega)
      (by simp only [Dialect.maxInt] at h1; omega)

theorem Dialect.add_of_le (h0 : -d.maxInt - 1 ≤ a + b) (h1 : a + b ≤ d.maxInt) :
    d.add a b = .ok (a + b) := by
  cases d <;> simp only [Dialect.maxInt] at h0 h1
  · exact Dialect.add_sqlite_of_le (by omega) (by omega)
  · exact int4_of_le (by omega) (by omega)

theorem Dialect.sub_of_le (h0 : -d.maxInt - 1 ≤ a - b) (h1 : a - b ≤ d.maxInt) :
    d.sub a b = .ok (a - b) := by
  cases d <;> simp only [Dialect.maxInt] at h0 h1
  · simp only [Dialect.sub]
    split_ifs with hb ha
    · omega
    · rfl
    · rw [Dialect.add_sqlite_of_le (by omega) (by omega), Int.sub_eq_add_neg]
  · exact int4_of_le (by omega) (by omega)

/-- `sqlite3AddInt64` never reports an overflow for terms of opposite signs. -/
theorem Dialect.add_sqlite_of_signs (h : a ≤ 0 ∧ 0 ≤ b ∨ 0 ≤ a ∧ b < 0) :
    Dialect.sqlite.add a b = .ok (a + b) :=
  if_neg (by omega)

end Integers

/-- A computation that can fail only as `LIMIT` and the engine's integers do. -/
def LimitOnly (x : Except SqlError α) : Prop := ∀ e, x = .error e → e = .limit ∨ e = .range

section LimitOnly
variable {x : Except SqlError α}

theorem LimitOnly.pure (a : α) : LimitOnly (pure a : Except SqlError α) := fun _ h => by cases h

theorem LimitOnly.bind {f : α → Except SqlError β} (hx : LimitOnly x)
    (hf : ∀ a, LimitOnly (f a)) : LimitOnly (x >>= f) := fun e h => by
  cases x with
  | error e' => exact hx e (by cases h; rfl)
  | ok a => exact hf a e h

theorem LimitOnly.map (hx : LimitOnly x) (f : α → β) : LimitOnly (f <$> x) :=
  hx.bind fun a => LimitOnly.pure (f a)

theorem int4_limitOnly (x : Int) : LimitOnly (int4 x) := fun _ h => by
  rw [int4] at h
  split_ifs at h
  exact .inr (Except.error.inj h).symm

theorem Dialect.param_limitOnly (d : Dialect) (i : Int) : LimitOnly (d.param i) := by
  cases d
  · exact LimitOnly.pure i
  · exact int4_limitOnly i

theorem Dialect.add_limitOnly (d : Dialect) (a b : Int) : LimitOnly (d.add a b) := by
  cases d
  · intro e h
    rw [Dialect.add] at h
    split_ifs at h
    exact .inl (Except.error.inj h).symm
  · exact int4_limitOnly _

theorem Dialect.sub_limitOnly (d : Dialect) (a b : Int) : LimitOnly (d.sub a b) := by
  cases d
  · rw [Dialect.sub]
    split_ifs
    · intro e h; exact .inl (Except.error.inj h).symm
    · intro e h; cases h
    · exact Dialect.add_limitOnly _ _ _
  · exact int4_limitOnly _

end LimitOnly

/-! ## `LIMIT` and `OFFSET` -/

/-- How an engine applies `limit l offset o` to the rows of a query; `none` is
`NULL`.  SQLite refuses a `NULL` (datatype mismatch), reads a negative `LIMIT` as no
limit and a negative `OFFSET` as zero.  PostgreSQL reads a `NULL` `LIMIT` as no
limit and a `NULL` `OFFSET` as zero, and refuses negative values.  The bounds are the
engine's integers: a bound whose computation overflowed has failed the statement before
(`RList.window`). -/
def applyLimit (d : Dialect) (l o : Option Int) (rows : List α) : Except SqlError (List α) :=
  match d, l, o with
  | .sqlite, some l, some o =>
    let rest := rows.drop o.toNat
    .ok (if l < 0 then rest else rest.take l.toNat)
  | .sqlite, _, _ => .error .limit
  | .postgres, l, o =>
    if l.any (· < 0) || o.any (· < 0) then .error .limit
    else
      let rest := rows.drop (o.getD 0).toNat
      .ok (match l with | none => rest | some l => rest.take l.toNat)

/-- Non-negative bounds mean the same to both engines. -/
theorem applyLimit_nonneg (d : Dialect) {l o : Int} (hl : 0 ≤ l) (ho : 0 ≤ o) (rows : List α) :
    applyLimit d (some l) (some o) rows = .ok ((rows.drop o.toNat).take l.toNat) := by
  cases d <;> simp [applyLimit, not_lt.2 hl, not_lt.2 ho]

theorem applyLimit_limitOnly (d : Dialect) (l o : Option Int) (rows : List α) :
    LimitOnly (applyLimit d l o rows) := fun e h => by
  unfold applyLimit at h
  split at h
  · cases h
  · cases h; exact .inl rfl
  · split at h <;> cases h; exact .inl rfl

end Redka
