import Redka.Sqlx
import Redka.RList.Query

/-! # The list queries (package `rlist`)

Each `sql*` constant of the list repository, as a statement over the store.  The
queries address a list through `curkey`, the id of its live `rkey` row of type 2, and
order its rows with `order by pos`.  Near-identical queries share one definition:

* `sqlPushBack` and `sqlPushFront` insert at `coalesce(max(pos)+1, 0)` and
  `coalesce(min(pos)-1, 0)` (`pushAt`);
* `sqlInsertAfter` and `sqlInsertBefore` insert next to the first occurrence of the
  pivot, half-way to its neighbour or one past it (`insertNear`); the insert is an
  `insert ... select ... from rlist where kid = ? limit 1`, so it inserts nothing into
  a list without rows, and a missing pivot makes `pos` `NULL`;
* `sqlPopBack` and `sqlPopFront` delete the row at `max(pos)` or `min(pos)` (`popAt`);
* `sqlDeleteBack` and `sqlDeleteFront` delete the last or first `count` rows holding
  an element (`deleteSome`).

`Tx.Range` and `Tx.Trim` carry their queries inline; `sqlRange` and `sqlTrim` here
are those inline queries, with the engine's own integers for the bounds and its own
reading of `LIMIT` and `OFFSET`.
-/

namespace Redka
namespace RList
open Store

/-- `order by pos`, as a relation on rows. -/
def PosLE (a b : ListRow) : Prop := a.pos ≤ b.pos

instance : DecidableRel PosLE := fun a b => inferInstanceAs (Decidable (a.pos ≤ b.pos))

/-- The rows in `order by pos`. -/
def sortByPos (rows : List ListRow) : List ListRow := rows.insertionSort PosLE

/-- `order by pos asc`, or `desc` once a query's first `asc` was replaced; positions are
unique within a list, so descending order is the ascending one reversed. -/
def ordered (rows : List ListRow) (desc : Bool) : List ListRow :=
  if desc then (sortByPos rows).reverse else sortByPos rows

/-- The positions of some rows. -/
def positions (rows : List ListRow) : List ℚ := rows.map (·.pos)

/-! ## Writes -/

/-- `sqlPush`: create the list's key with `len = 1`, or bump it. -/
def sqlPush (key : String) (now : Int) : Stmt (Nat × Option Int) :=
  upsertKey key .list now 1 1

/-- `insert into rlist (kid, pos, elem) select ?, <choose positions>, ? from rlist where
kid = ?`: an aggregate over the list's rows, so exactly one row is inserted. -/
def pushAt (choose : List ℚ → ℚ) (kid : Nat) (elem : Value) : Stmt Unit := fun s =>
  match s.insertList ⟨kid, choose (positions (s.listRows kid)), elem⟩ with
  | some s' => .ok ((), s')
  | none => .error (.unique "rlist_pk_idx")

/-- `sqlPushBack`: `coalesce(max(pos)+1, 0)`. -/
def sqlPushBack : Nat → Value → Stmt Unit :=
  pushAt fun ps => ps.max?.elim 0 (· + 1)

/-- `sqlPushFront`: `coalesce(min(pos)-1, 0)`. -/
def sqlPushFront : Nat → Value → Stmt Unit :=
  pushAt fun ps => ps.min?.elim 0 (· - 1)

/-- `sqlInsert`: `update rkey set version = version + 1, mtime = ?, len = len + 1 where
key = ? and type = 2 and (etime is null or etime > ?) returning id, len`. -/
def sqlInsert (key : String) (now : Int) : Stmt (Option (Nat × Option Int)) := fun s =>
  .ok ((s.curRow key .list now).map fun r => (r.id, r.len.map (· + 1)),
    s.touch (·.selects key .list now) 1 (some now) 1)

/-- The query both inserts share.  `anchor` is `min(pos) where elem = pivot`; `adj`
finds the neighbouring position on the insertion side, and the new position is the
midpoint `(anchor + adj) / 2`, or `beyond anchor` when there is no neighbour.  The
row is inserted by `select ... from rlist where kid = ? limit 1`. -/
def insertNear (adj : ℚ → List ℚ → Option ℚ) (beyond : ℚ → ℚ) (kid : Nat)
    (pivot elem : Value) : Stmt Unit := fun s =>
  let rows := s.listRows kid
  let anchor := (positions (rows.filter (·.elem = pivot))).min?
  let newpos := anchor.map fun a => (adj a (positions rows)).elim (beyond a) fun b => (a + b) / 2
  match rows, newpos with
  | [], _ => .ok ((), s)
  | _ :: _, none => .error (.notNull "rlist.pos")
  | _ :: _, some p =>
    match s.insertList ⟨kid, p, elem⟩ with
    | some s' => .ok ((), s')
    | none => .error (.unique "rlist_pk_idx")

/-- `sqlInsertAfter`: the neighbour is `min(pos) where pos > elprev`. -/
def sqlInsertAfter : Nat → Value → Value → Stmt Unit :=
  insertNear (fun a ps => (ps.filter (a < ·)).min?) (· + 1)

/-- `sqlInsertBefore`: the neighbour is `max(pos) where pos < elnext`. -/
def sqlInsertBefore : Nat → Value → Value → Stmt Unit :=
  insertNear (fun a ps => (ps.filter (· < a)).max?) (· - 1)

/-- `delete from rlist where kid = curkey and pos = (select <pick>(pos) ...) returning
elem`. -/
def popAt (pick : List ℚ → Option ℚ) (key : String) (now : Int) : Stmt (List Value) :=
  fun s =>
    match s.curkey key .list now with
    | none => .ok ([], s)
    | some id =>
      match pick (positions (s.listRows id)) with
      | none => .ok ([], s)
      | some p =>
        let hit := fun r : ListRow => r.kid = id && r.pos = p
        .ok ((s.rlist.filter hit).map (·.elem), s.deleteList hit now)

/-- `sqlPopBack`. -/
def sqlPopBack : String → Int → Stmt (List Value) := popAt List.max?

/-- `sqlPopFront`. -/
def sqlPopFront : String → Int → Stmt (List Value) := popAt List.min?

/-- `sqlSet`: `update rlist set elem = ? where kid = curkey and pos = (select pos from
elems where rownum = ? + 1)`, `elems` numbering the rows in `order by pos asc`
(`desc`); the number of rows changed.  PostgreSQL types this `? + 1` as `int4`, as in
`sqlGet`; the model leaves out its failure past `int4`, as it leaves out the `int4` of `len`
and the `REAL` of `pos` that bound a PostgreSQL list. -/
def sqlSet (key : String) (now : Int) (desc : Bool) (idx : Int) (elem : Value) : Stmt Nat :=
  fun s =>
    match s.curkey key .list now with
    | none => .ok (0, s)
    | some id =>
      match (if idx < 0 then none else (ordered (s.listRows id) desc)[idx.toNat]?) with
      | none => .ok (0, s)
      | some r =>
        let hit := fun x : ListRow => x.kid = id && x.pos = r.pos
        .ok ((s.rlist.filter hit).length, s.updateList hit elem now)

/-- `sqlDelete`: `delete from rlist where kid = curkey and elem = ?`. -/
def sqlDelete (key : String) (now : Int) (elem : Value) : Stmt Nat := fun s =>
  match s.curkey key .list now with
  | none => .ok (0, s)
  | some id =>
    let hit := fun r : ListRow => r.kid = id && r.elem = elem
    .ok ((s.rlist.filter hit).length, s.deleteList hit now)

/-- The query `sqlDeleteBack` and `sqlDeleteFront` share: delete the rows among the
first `limit` holding `elem`, in `order by pos` (`desc`).  Without the `count`
argument the statement has too few arguments. -/
def deleteSome (desc : Bool) (key : String) (now : Int) (elem : Value) (count : Option Int) :
    Stmt Nat := fun s =>
  match count with
  | none => .error .bind
  | some n =>
    match s.curkey key .list now with
    | none => .ok (0, s)
    | some id =>
      let ids := ((ordered ((s.listRows id).filter (·.elem = elem)) desc).take n.toNat).map
        ListRow.slot
      let hit := fun r : ListRow => r.slot ∈ ids
      .ok ((s.rlist.filter hit).length, s.deleteList hit now)

/-- `sqlDeleteBack`. -/
def sqlDeleteBack : String → Int → Value → Option Int → Stmt Nat := deleteSome true

/-- `sqlDeleteFront`. -/
def sqlDeleteFront : String → Int → Value → Option Int → Stmt Nat := deleteSome false

/-! ## Reads -/

/-- `sqlGet`: the element numbered `idx + 1` in `order by pos asc` (`desc`).  PostgreSQL
binds the parameter of `rownum = ? + 1` as an `int4` and adds in `int4`: where either
overflows the statement fails, list or no list.  SQLite's sum may overflow to a `REAL`,
which numbers no row. -/
def sqlGet (d : Dialect) (key : String) (now : Int) (desc : Bool) (idx : Int) :
    Stmt (Option Value) := fun s =>
  let elem := (s.curkey key .list now).bind fun id =>
    if idx < 0 then none else ((ordered (s.listRows id) desc)[idx.toNat]?).map (·.elem)
  match d with
  | .sqlite => .ok (elem, s)
  | .postgres =>
    match Dialect.postgres.param idx >>= (Dialect.postgres.add · 1) with
    | .ok _ => .ok (elem, s)
    | .error e => .error e

/-- `sqlGet` reads the store, or fails as the engine's integers do. -/
theorem sqlGet_cases (d : Dialect) (key : String) (now : Int) (desc : Bool) (idx : Int)
    (s : Store) : (∃ v, sqlGet d key now desc idx s = .ok (v, s)) ∨
      ∃ e, sqlGet d key now desc idx s = .error e ∧ (e = .limit ∨ e = .range) := by
  cases d
  · exact .inl ⟨_, rfl⟩
  · simp only [sqlGet]
    split
    · exact .inl ⟨_, rfl⟩
    · rename_i h
      exact .inr ⟨_, rfl, ((Dialect.param_limitOnly _ idx).bind fun i =>
        Dialect.add_limitOnly _ i 1) _ h⟩

/-- Where the index and its `? + 1` fit the engine's integers, `sqlGet` reads as SQLite's
does. -/
theorem sqlGet_of_fits {d : Dialect} {idx : Int}
    (h : d = .postgres → -2 ^ 31 ≤ idx ∧ idx < 2 ^ 31 - 1) (key : String) (now : Int) (desc : Bool) :
    sqlGet d key now desc idx = sqlGet .sqlite key now desc idx := by
  cases d
  · rfl
  · obtain ⟨h0, h1⟩ := h rfl
    have hp : Dialect.postgres.param idx = .ok idx := int4_of_le h0 (by omega)
    have ha : Dialect.postgres.add idx 1 = .ok (idx + 1) := int4_of_le (by omega) (by omega)
    funext s
    simp only [sqlGet, hp, ha, bind, Except.bind]

/-- Past `int4`, PostgreSQL refuses `sqlGet`'s parameter or its `? + 1`. -/
theorem sqlGet_postgres_range {idx : Int} (h : ¬(-2 ^ 31 ≤ idx ∧ idx < 2 ^ 31 - 1))
    (key : String) (now : Int) (desc : Bool) (s : Store) :
    sqlGet .postgres key now desc idx s = .error .range := by
  by_cases hp : -2147483648 ≤ idx ∧ idx ≤ 2147483647
  · have ha : ¬(-2147483648 ≤ idx + 1 ∧ idx + 1 ≤ 2147483647) := by omega
    simp only [sqlGet, Dialect.param, Dialect.add, int4, bind, Except.bind, if_pos hp, if_neg ha]
  · simp only [sqlGet, Dialect.param, int4, bind, Except.bind, if_neg hp]

/-- `sqlLen`: the list's `len` column, `NULL` or not; no row when there is no list. -/
def sqlLen (key : String) (now : Int) : Stmt (Option (Option Int)) := fun s =>
  .ok ((s.curRow key .list now).map (·.len), s)

/-! ## Ranges

`Tx.Range` and `Tx.Trim` select `limit (stop - start + 1) offset start`, a negative bound
counted from the list's `len`, the engine computing the bounds in its own integers. -/

/-- A bound of `Tx.Range` and `Tx.Trim`: `case when ? < 0 then (select len from counts) + ?
else ? end`, with `len` `NULL` when the key has no row. -/
def bound (d : Dialect) (len : Option Int) (i : Int) : Except SqlError (Option Int) := do
  let i ← d.param i
  if i < 0 then
    match len with
    | none => pure none
    | some n => some <$> d.add n i
  else pure (some i)

/-- `stop - start + 1`, for the bounds as the engine resolved them. -/
def rangeLength (d : Dialect) (b e : Int) : Except SqlError Int :=
  d.sub e b >>= (d.add · 1)

/-- `limit (stop - start + 1)`, `NULL` when a bound is. -/
def span (d : Dialect) (len : Option Int) (start stop : Int) : Except SqlError (Option Int) := do
  match ← bound d len start, ← bound d len stop with
  | some b, some e => some <$> rangeLength d b e
  | _, _ => pure none

/-- `limit (stop - start + 1) offset start` over some rows, as the engine `d` computes and
applies it. -/
def window (d : Dialect) (len : Option Int) (start stop : Int) (rows : List α) :
    Except SqlError (List α) := do
  applyLimit d (← span d len start stop) (← bound d len start) rows

section Window
variable {d : Dialect} {len : Option Int} {start stop : Int}

theorem bound_of_nonneg {i : Int} (hp : d.param i = .ok i) (h : 0 ≤ i) :
    bound d len i = .ok (some i) := by
  simp only [bound, hp, bind, Except.bind, if_neg (not_lt.2 h)]
  rfl

/-- Where `stop - start + 1` is one of the engine's integers, the engine computes it. -/
theorem rangeLength_of_le (h0 : -d.maxInt - 1 ≤ stop - start)
    (h1 : stop - start + 1 ≤ d.maxInt) : rangeLength d start stop = .ok (stop - start + 1) := by
  rw [rangeLength, Dialect.sub_of_le h0 (by omega)]
  exact Dialect.add_of_le (by omega) h1

/-- With reversed bounds counted from the front, SQLite's sums have terms of opposite signs
and never overflow. -/
theorem rangeLength_sqlite_of_lt (h1 : 0 ≤ stop) (h2 : stop < start) :
    rangeLength .sqlite start stop = .ok (stop - start + 1) := by
  have hs : Dialect.sqlite.sub stop start = .ok (stop - start) := by
    rw [Dialect.sub, if_neg (by omega), Dialect.add_sqlite_of_signs (.inr ⟨h1, by omega⟩),
      Int.sub_eq_add_neg]
  rw [rangeLength, hs]
  exact Dialect.add_sqlite_of_signs (.inl ⟨by omega, by omega⟩)

/-- With both bounds counted from the front, the engine's window is its `limit` of the
bounds' `stop - start + 1` and `offset start`; `len` plays no part. -/
theorem window_of_nonneg (hb : d.param start = .ok start) (he : d.param stop = .ok stop)
    (h0 : 0 ≤ start) (h1 : 0 ≤ stop) {l : Int} (hl : rangeLength d start stop = .ok l)
    (rows : List α) : window d len start stop rows = applyLimit d (some l) (some start) rows := by
  simp only [window, span, bound_of_nonneg hb h0, bound_of_nonneg he h1, hl, bind, Except.bind]
  rfl

end Window

/-- The rows of the list `key` selects at `now`, in `order by pos`; none when no list
is selected. -/
def curRows (s : Store) (key : String) (now : Int) : List ListRow :=
  (s.curRow key .list now).elim [] fun r => sortByPos (s.listRows r.id)

/-- The query of `Tx.Range`, run by the engine `d`: the list's rows in `order by pos`,
through the window.  The engine computes the window before it reads a row. -/
def sqlRange (d : Dialect) (key : String) (now : Int) (start stop : Int) :
    Stmt (List Value) := fun s =>
  match window d ((s.curRow key .list now).bind (·.len)) start stop (curRows s key now) with
  | .ok rs => .ok (rs.map (·.elem), s)
  | .error e => .error e

/-- The window fails only as `LIMIT` and the engine's integers do. -/
theorem window_limitOnly (d : Dialect) (len : Option Int) (start stop : Int) (rows : List α) :
    LimitOnly (window d len start stop rows) := by
  have hb : ∀ i, LimitOnly (bound d len i) := fun i => by
    unfold bound
    refine (d.param_limitOnly i).bind fun i => ?_
    split
    · split
      · exact LimitOnly.pure _
      · exact (d.add_limitOnly _ _).map _
    · exact LimitOnly.pure _
  refine ((hb start).bind fun b => (hb stop).bind fun e => ?_).bind fun l =>
    (hb start).bind fun o => applyLimit_limitOnly d l o rows
  split
  · exact ((d.sub_limitOnly _ _).bind fun x => d.add_limitOnly x 1).map _
  · exact LimitOnly.pure _

theorem sqlRange_cases (d : Dialect) (key : String) (now start stop : Int) (s : Store) :
    (∃ v, sqlRange d key now start stop s = .ok (v, s)) ∨
      ∃ e, sqlRange d key now start stop s = .error e ∧ (e = .limit ∨ e = .range) := by
  unfold sqlRange
  split
  · exact .inl ⟨_, rfl⟩
  · rename_i h; exact .inr ⟨_, rfl, window_limitOnly _ _ _ _ _ _ h⟩

/-- The query of `Tx.Trim`, run by the engine `d`: delete the list's rows outside `remain`,
the rows of the window.  `remain` is only evaluated when the list has rows. -/
def sqlTrim (d : Dialect) (key : String) (now : Int) (start stop : Int) : Stmt Nat := fun s =>
  match s.curRow key .list now with
  | none => .ok (0, s)
  | some r =>
    match s.listRows r.id with
    | [] => .ok (0, s)
    | rows =>
      match window d r.len start stop (sortByPos rows) with
      | .error e => .error e
      | .ok remain =>
        let hit := fun x : ListRow => x.kid = r.id && x.slot ∉ remain.map ListRow.slot
        .ok ((s.rlist.filter hit).length, s.deleteList hit now)

/-- `sqlTrim` keeps the store, deletes rows, or fails. -/
theorem sqlTrim_cases (d : Dialect) (key : String) (now start stop : Int) (s : Store) :
    (∃ n, sqlTrim d key now start stop s = .ok (n, s)) ∨
      (∃ n p, sqlTrim d key now start stop s = .ok (n, s.deleteList p now)) ∨
      ∃ e, sqlTrim d key now start stop s = .error e := by
  unfold sqlTrim
  split
  · exact .inl ⟨_, rfl⟩
  · split
    · exact .inl ⟨_, rfl⟩
    · split
      · exact .inr (.inr ⟨_, rfl⟩)
      · exact .inr (.inl ⟨_, _, rfl⟩)

/-- Whether PostgreSQL parses `Query.trimPostgres` as `PostgresTx` sends it, adapted. -/
@[irreducible] def trimParses : Bool :=
  !Query.castAlias (Sqlx.adaptPostgresQuery Query.trimPostgres).data

/-- The adapter turns `remain`'s alias `rowid` into a cast. -/
theorem trimParses_eq_false : trimParses = false := by
  rw [trimParses, Query.trimPostgres_castAlias]
  rfl

/-- The PostgreSQL query of `Tx.Trim`, `Query.trimPostgres`: where PostgreSQL parses it as
`PostgresTx` sends it, it runs as `sqlTrim` with PostgreSQL's integers and `LIMIT`. -/
def sqlTrimPostgres (key : String) (now : Int) (start stop : Int) : Stmt Nat :=
  if trimParses then sqlTrim .postgres key now start stop else fun _ => .error .parse

/-- The statement never parses. -/
theorem sqlTrimPostgres_fails (key : String) (now start stop : Int) (s : Store) :
    sqlTrimPostgres key now start stop s = .error .parse := by
  rw [sqlTrimPostgres, trimParses_eq_false]
  rfl

end RList
end Redka
