import Mathlib.Data.List.Sort
import Redka.RHash.Refine
import Redka.Sqlx.Glob

/-! # `Tx.Scan` of the hash repository, and the loop over its cursor

`Tx.Scan` selects the hash's rows whose `rowid` is above the cursor and whose field matches
the pattern, `limit` a page size, and returns them with the largest `rowid` among them as
the next cursor.  The query has no `ORDER BY`, so which rows fill the page is the engine's
choice (`Order`).  A client calls `Scan` from cursor 0, then from each returned cursor,
until a page is empty (`scanPages`).

Whatever the order, every page moves the cursor past a row of the page, so the loop ends
within one call more than the hash has rows, and no row comes back twice
(`scanPages_spec`).  But a page need not hold the rows just above the cursor: a row below
the page's largest `rowid` that the limit left out is never returned, as when the engine
reads the rows by field through the primary key's index (`scan_skips_field`).  With
`order by rowid` the loop returns every field that matches (`scanPages_rowidOrder_complete`).
The model is SQLite's; on PostgreSQL the adapter turns `rowid` into `ctid::text`, which `Scan`
cannot read as an `int`.
-/

namespace Redka
namespace RHash
open Sqlx

/-- `scanPageSize`. -/
def scanPageSize : Int := 10

/-- `HashItem`: a field and its value, with its row's id. -/
structure HashItem where
  id : Nat
  field : String
  value : Value
  deriving DecidableEq, Repr

/-- `ScanResult`. -/
structure ScanResult where
  cursor : Int
  items : List HashItem
  deriving DecidableEq, Repr

/-- The order in which the engine returns the rows a query without `ORDER BY` selects: any
order, possibly another at every cursor. -/
structure Order where
  arrange : Int → List HashRow → List HashRow
  perm : ∀ c rows, (arrange c rows).Perm rows

/-- The hash's rows above the cursor whose field matches the pattern. -/
def qualifying (s : Store) (key : String) (now cursor : Int) (pattern : String) : List HashRow :=
  (rowsOf s key now).filter fun r => cursor < r.rowid && glob r.field pattern

/-- A row as `Scan` reads it. -/
def HashRow.item (r : HashRow) : HashItem := ⟨r.rowid, r.field, r.value⟩

/-- `sqlScan`: the qualifying rows in the engine's order, at most `count` of them (`limit ?`,
with no offset). -/
def sqlScan (ord : Order) (key : String) (now cursor : Int) (pattern : String) (count : Int) :
    Stmt (List HashItem) := fun s =>
  match applyLimit .sqlite (some count) (some 0) (ord.arrange cursor (qualifying s key now cursor pattern)) with
  | .ok rows => .ok (rows.map HashRow.item, s)
  | .error e => .error e

/-- `Tx.Scan`: a page after the cursor, and the largest id in it as the next cursor (0 for an
empty page).  Count 0 means `scanPageSize`; the driver's error is returned as it is. -/
def scan (ord : Order) (key : String) (cursor : Int) (pattern : String) (count : Int) (now : Int) :
    Tx ScanResult := do
  let count := if count = 0 then scanPageSize else count
  let items ← orThrow (sqlScan ord key now cursor pattern count) .db
  let maxID := items.foldl (fun m it => max m it.id) 0
  pure ⟨maxID, items⟩

/-- The client's loop: `Scan` from the cursor, then from each returned cursor, until a page
is empty; the pages, or `none` when a call fails or the fuel runs out first. -/
def scanPages (ord : Order) (key pattern : String) (count now : Int) :
    Nat → Int → Store → Option (List (List HashItem))
  | 0, _, _ => none
  | fuel + 1, cursor, s =>
    match scan ord key cursor pattern count now s with
    | .ok r s' => if r.items = [] then some [] else (scanPages ord key pattern count now fuel r.cursor s').map (r.items :: ·)
    | .error _ _ => none

/-! ## One call -/

theorem foldl_max_spec {α β : Type} [LinearOrder β] (f : α → β) : ∀ (l : List α) (a : β),
    a ≤ l.foldl (fun m x => max m (f x)) a ∧ (∀ x ∈ l, f x ≤ l.foldl (fun m x => max m (f x)) a) ∧
      (l.foldl (fun m x => max m (f x)) a = a ∨ ∃ x ∈ l, f x = l.foldl (fun m x => max m (f x)) a)
  | [], a => ⟨le_refl a, nofun, .inl rfl⟩
  | x :: l, a => by
    obtain ⟨h1, h2, h3⟩ := foldl_max_spec f l (max a (f x))
    simp only [List.foldl_cons, List.mem_cons, forall_eq_or_imp, exists_eq_or_imp]
    refine ⟨le_trans (le_max_left _ _) h1, ⟨le_trans (le_max_right _ _) h1, h2⟩, ?_⟩
    rcases h3 with h | h
    · rw [h]; rcases max_choice a (f x) with h' | h' <;> rw [h'] <;> simp
    · exact .inr (.inr h)

variable {ord : Order} {key pattern : String} {count now : Int} {s : Store}

/-- The page `Scan` returns at a cursor: the first `count` qualifying rows in the engine's
order. -/
def page (ord : Order) (s : Store) (key : String) (now cursor : Int) (pattern : String)
    (count : Int) : List HashRow :=
  (ord.arrange cursor (qualifying s key now cursor pattern)).take count.toNat

theorem scan_eq (hc : 1 ≤ count) (cursor : Int) :
    scan ord key cursor pattern count now s =
      .ok ⟨(page ord s key now cursor pattern count).foldl (fun m r => max m (r.rowid : Int)) 0,
        (page ord s key now cursor pattern count).map HashRow.item⟩ s := by
  simp only [scan, if_neg (show count ≠ 0 by omega), bind, EStateM.bind, orThrow, sqlScan,
    applyLimit_nonneg .sqlite (by omega : 0 ≤ count) (le_refl 0), List.drop_zero, Int.toNat_zero, pure, EStateM.pure,
    List.foldl_map, page]
  rfl

theorem mem_qualifying {c : Int} {r : HashRow} :
    r ∈ qualifying s key now c pattern ↔ r ∈ rowsOf s key now ∧ c < r.rowid ∧ glob r.field pattern := by
  simp [qualifying]

theorem qualifying_filter {c c' : Int} (h : c ≤ c') :
    qualifying s key now c' pattern = (qualifying s key now c pattern).filter (c' < ·.rowid) := by
  simp only [qualifying, List.filter_filter]
  exact List.filter_congr fun r _ => by
    by_cases h' : c' < (r.rowid : Int) <;> simp [h']; omega

theorem rowsOf_sublist : (rowsOf s key now).Sublist s.rhash := by
  unfold rowsOf
  cases s.curkey key .hash now with
  | none => exact List.nil_sublist _
  | some id => exact List.filter_sublist _

theorem rowid_nodup_qualifying (c : Int) : ((qualifying s key now c pattern).map (·.rowid)).Nodup :=
  s.rhash_rowid.sublist (((List.filter_sublist _).trans rowsOf_sublist).map _)

theorem scanPages_empty (hc : 1 ≤ count) (fuel : Nat) {c : Int}
    (he : page ord s key now c pattern count = []) :
    scanPages ord key pattern count now (fuel + 1) c s = some [] := by
  simp [scanPages, scan_eq hc, he]

theorem scanPages_page (hc : 1 ≤ count) (fuel : Nat) {c : Int}
    (he : page ord s key now c pattern count ≠ []) :
    scanPages ord key pattern count now (fuel + 1) c s =
      (scanPages ord key pattern count now fuel
          ((page ord s key now c pattern count).foldl (fun m r => max m (r.rowid : Int)) 0) s).map
        ((page ord s key now c pattern count).map HashRow.item :: ·) := by
  simp [scanPages, scan_eq hc, he]

/-- The cursor a nonempty page returns is the id of one of its rows, and no row of it has a
larger id. -/
theorem cursor_of_page {P : List HashRow} (he : P ≠ []) :
    (∃ r ∈ P, (r.rowid : Int) = P.foldl (fun m r => max m (r.rowid : Int)) 0) ∧
      ∀ r ∈ P, (r.rowid : Int) ≤ P.foldl (fun m r => max m (r.rowid : Int)) 0 := by
  obtain ⟨-, hle, hmax⟩ := foldl_max_spec (fun r : HashRow => (r.rowid : Int)) P 0
  refine ⟨?_, hle⟩
  rcases hmax with h0 | h
  · obtain ⟨r, hr⟩ := List.exists_mem_of_ne_nil P he
    exact ⟨r, hr, by have := hle r hr; omega⟩
  · exact h

/-! ## The loop -/

/-- From a cursor, fuel beyond the number of qualifying rows ends the loop, and its pages are
qualifying rows at that cursor, none twice. -/
theorem scanPages_run (hc : 1 ≤ count) :
    ∀ (fuel : Nat) (c : Int), (qualifying s key now c pattern).length < fuel →
      ∃ (pages : List (List HashItem)) (rows : List HashRow),
        scanPages ord key pattern count now fuel c s = some pages ∧ pages.flatten = rows.map HashRow.item ∧
        (∀ r ∈ rows, r ∈ qualifying s key now c pattern) ∧ (rows.map (·.rowid)).Nodup
  | 0, _, h => absurd h (Nat.not_lt_zero _)
  | fuel + 1, c, hfuel => by
    set P := page ord s key now c pattern count with hP
    have hPq : ∀ r ∈ P, r ∈ qualifying s key now c pattern := fun r hr =>
      (ord.perm c _).subset (List.mem_of_mem_take hr)
    by_cases he : P = []
    · exact ⟨[], [], scanPages_empty hc fuel he, rfl, fun _ h => absurd h (List.not_mem_nil _), List.nodup_nil⟩
    obtain ⟨⟨top, htop, htopeq⟩, hle⟩ := cursor_of_page he
    set c' := P.foldl (fun m r => max m (r.rowid : Int)) 0 with hc'
    have hcc : c < c' := htopeq ▸ (mem_qualifying.1 (hPq top htop)).2.1
    have hsub : qualifying s key now c' pattern =
        (qualifying s key now c pattern).filter (c' < ·.rowid) := qualifying_filter hcc.le
    have hlt : (qualifying s key now c' pattern).length < (qualifying s key now c pattern).length := by
      rw [hsub]
      exact List.length_filter_lt_length_iff_exists.2 ⟨top, hPq top htop, by simp [htopeq]⟩
    obtain ⟨pages, rows, hrun, hjoin, hq, hn⟩ := scanPages_run hc fuel c' (by omega)
    refine ⟨P.map HashRow.item :: pages, P ++ rows, by rw [scanPages_page hc fuel he, hrun]; rfl,
      by rw [List.flatten_cons, hjoin, List.map_append], fun r hr => ?_, ?_⟩
    · rcases List.mem_append.1 hr with hr | hr
      · exact hPq r hr
      · exact (List.mem_filter.1 (hsub ▸ hq r hr)).1
    · have hPn : (P.map (·.rowid)).Nodup :=
        (((ord.perm c _).map _).nodup_iff.2 (rowid_nodup_qualifying c)).sublist
          ((List.take_sublist _ _).map _)
      rw [List.map_append, List.nodup_append]
      refine ⟨hPn, hn, fun x hx hy => ?_⟩
      obtain ⟨r, hr, rfl⟩ := List.mem_map.1 hx
      obtain ⟨r', hr', hrr⟩ := List.mem_map.1 hy
      have h1 := hle r hr
      have h2 := (mem_qualifying.1 (hq r' hr')).2.1
      simp only at hrr h1
      omega

/-- On a store whose keys and hash rows agree, qualifying rows of distinct ids are items of
distinct fields that match the pattern, each with its field's value. -/
theorem items_of_qualifying (hs : HashInv s) {c : Int} {rows : List HashRow}
    (hq : ∀ r ∈ rows, r ∈ qualifying s key now c pattern) (hn : (rows.map (·.rowid)).Nodup) :
    ((rows.map HashRow.item).map (·.field)).Nodup ∧
      ∀ it ∈ rows.map HashRow.item, glob it.field pattern ∧ hashView s key it.field = some it.value := by
  have hrows : ∀ r ∈ rows, ∃ k, s.findKey key = some k ∧ r ∈ s.hashRows k.id ∧
      glob r.field pattern := fun r hr => by
    obtain ⟨hr, -, hg⟩ := mem_qualifying.1 (hq r hr)
    rw [hs.rowsOf_eq] at hr
    cases hk : s.findKey key with
    | none => simp [hk] at hr
    | some k => exact ⟨k, rfl, by simpa [hk] using hr, hg⟩
  refine ⟨?_, fun it hit => ?_⟩
  · rw [List.map_map]
    refine (List.Nodup.of_map _ hn).map_on fun x hx y hy hxy => ?_
    obtain ⟨k, hk, hx', -⟩ := hrows x hx
    obtain ⟨k', hk', hy', -⟩ := hrows y hy
    cases hk.symm.trans hk'
    exact List.inj_on_of_nodup_map (fields_nodup s k.id) hx' hy' hxy
  · obtain ⟨r, hr, rfl⟩ := List.mem_map.1 hit
    obtain ⟨k, hk, hr', hg⟩ := hrows r hr
    exact ⟨hg, by rw [hs.view_eq hk, hashPayload_eq_some]; exact ⟨r, hr', rfl, rfl⟩⟩

/-- On SQLite, on a store the hash calls reach, whatever the order and for every page size,
the loop from cursor 0 ends within one call more than the hash has rows, and returns fields
of the hash that match the pattern, with their values, none twice. -/
theorem scanPages_spec (hs : HashInv s) (ord : Order) (key pattern : String) {count : Int}
    (hc : 1 ≤ count) (now : Int) :
    ∃ pages, scanPages ord key pattern count now ((rowsOf s key now).length + 1) 0 s = some pages ∧
      (pages.flatten.map (·.field)).Nodup ∧
      ∀ it ∈ pages.flatten, glob it.field pattern ∧ hashView s key it.field = some it.value := by
  obtain ⟨pages, rows, hrun, hflat, hq, hn⟩ := @scanPages_run ord key pattern count now s hc
    ((rowsOf s key now).length + 1) 0 (Nat.lt_succ_of_le (List.length_filter_le _ _))
  exact ⟨pages, hrun, hflat ▸ items_of_qualifying hs hq hn⟩

/-- `HSET h f 1`, `HSET h g 2`, read last row first, one row a page. -/
theorem scanPages_spec_reversed :
    HashInv twoFieldHash ∧ (1 : Int) ≤ 1 ∧
      ∃ pages, scanPages ⟨fun _ => List.reverse, fun _ => List.reverse_perm⟩ "h" "*" 1 0
          ((rowsOf twoFieldHash "h" 0).length + 1) 0 twoFieldHash = some pages ∧
        (pages.flatten.map (·.field)).Nodup ∧
        ∀ it ∈ pages.flatten, glob it.field "*" ∧ hashView twoFieldHash "h" it.field = some it.value :=
  have hr : Reachable .sqlite ⟨fun _ => none, fun _ => none, fun _ => [], fun _ => []⟩ Call.IsHash
      twoFieldHash := runCalls_reachable _ _ .empty (by simp [Call.IsHash])
  have hs := HashInv.of_reachable hr
  ⟨hs, le_rfl, scanPages_spec hs _ "h" "*" le_rfl 0⟩

/-- Whether row `a`'s field comes no later than row `b`'s in the order of text. -/
def fieldFirst (a b : HashRow) : Bool :=
  match String.decLt b.field a.field with
  | isTrue _ => false
  | isFalse _ => true

/-- An order the engine may choose: that of `rhash_pk_idx` on `(kid, field)`, by which SQLite
can read the hash's rows for the join. -/
def fieldOrder : Order :=
  ⟨fun _ rows => rows.insertionSort fun a b => fieldFirst a b = true,
    fun _ rows => List.perm_insertionSort _ rows⟩

/-- `HSET h g 1`, then `HSET h f 2`. -/
def gThenF : Store :=
  runCalls .sqlite ⟨fun _ => none, fun _ => none, fun _ => [], fun _ => []⟩ Store.empty
    [(.hash (.set "h" "g" [1]), 0), (.hash (.set "h" "f" [2]), 0)]

/-- The loop with page size 1 and pattern `*`, rows read by field: the first page holds `f`,
whose row id 2 becomes the cursor, and the second page is empty, so `g`, which matches, is
never returned. -/
theorem scan_skips_field :
    Reachable .sqlite ⟨fun _ => none, fun _ => none, fun _ => [], fun _ => []⟩ Call.IsHash gThenF ∧
      scanPages fieldOrder "h" "*" 1 0 3 0 gThenF = some [[⟨2, "f", [2]⟩]] ∧
      glob "g" "*" = true ∧ hashView gThenF "h" "g" = some [1] :=
  ⟨runCalls_reachable _ _ .empty (by simp [Call.IsHash]), by with_unfolding_all decide⟩

/-! ## With `order by rowid`

The cursor is the largest id of the page, so the loop counts on each page holding the
qualifying rows of lowest id.  With `order by rowid` in `sqlScan` it does, and the loop
returns every qualifying row (`scanPages_byRowid`).  SQLite gives every row a positive id,
so from cursor 0 that is every field of the hash that matches the pattern
(`scanPages_rowidOrder_complete`).
-/

/-- Rows by ascending id. -/
def byRowid (rows : List HashRow) : List HashRow := rows.mergeSort fun a b => a.rowid ≤ b.rowid

/-- The engine's order under `order by rowid`. -/
def rowidOrder : Order := ⟨fun _ => byRowid, fun _ rows => List.mergeSort_perm rows _⟩

theorem byRowid_perm (rows : List HashRow) : (byRowid rows).Perm rows := List.mergeSort_perm rows _

/-- Rows with distinct ids come out by strictly ascending id. -/
theorem byRowid_sorted {rows : List HashRow} (h : (rows.map (·.rowid)).Nodup) :
    (byRowid rows).Pairwise (·.rowid < ·.rowid) := by
  have hs : (byRowid rows).Pairwise fun a b => decide (a.rowid ≤ b.rowid) := List.sorted_mergeSort
    (fun _ _ _ h1 h2 => by simp only [decide_eq_true_eq] at *; omega)
    (fun a b => by simp only [Bool.or_eq_true, decide_eq_true_eq]; omega) rows
  have hn : (byRowid rows).Pairwise (·.rowid ≠ ·.rowid) :=
    List.pairwise_map.1 (((byRowid_perm rows).map _).nodup_iff.2 h)
  exact (hs.and hn).imp fun ⟨h1, h2⟩ => Nat.lt_of_le_of_ne (of_decide_eq_true h1) h2

/-- Two lists of rows by strictly ascending id that hold the same rows are the same list. -/
theorem eq_of_perm_of_rowid_lt {l l' : List HashRow} (hp : l.Perm l')
    (h : l.Pairwise (·.rowid < ·.rowid)) (h' : l'.Pairwise (·.rowid < ·.rowid)) : l = l' :=
  haveI : IsAntisymm HashRow (·.rowid < ·.rowid) := ⟨fun _ _ h1 h2 => absurd (h1.trans h2) (Nat.lt_irrefl _)⟩
  List.eq_of_perm_of_sorted hp h h'

/-- Under `order by rowid`, the cursor of a nonempty page leaves the rows after the page. -/
theorem byRowid_after_page {c : Int} (he : page rowidOrder s key now c pattern count ≠ []) :
    byRowid (qualifying s key now
        ((page rowidOrder s key now c pattern count).foldl (fun m r => max m (r.rowid : Int)) 0) pattern) =
      (byRowid (qualifying s key now c pattern)).drop count.toNat := by
  set L := byRowid (qualifying s key now c pattern)
  have hsorted : L.Pairwise (·.rowid < ·.rowid) := byRowid_sorted (rowid_nodup_qualifying c)
  obtain ⟨⟨top, htop, htopeq⟩, hle⟩ := cursor_of_page he
  set c' := (page rowidOrder s key now c pattern count).foldl (fun m r => max m (r.rowid : Int)) 0
  have hlt : ∀ r ∈ L.drop count.toNat, top.rowid < r.rowid :=
    (List.pairwise_append.1 ((L.take_append_drop count.toNat).symm ▸ hsorted)).2.2 top htop
  have hafter : L.filter (c' < ·.rowid) = L.drop count.toNat := by
    nth_rewrite 1 [← L.take_append_drop count.toNat]
    rw [List.filter_append,
      List.filter_eq_nil_iff.2 fun r hr => by simpa using hle r hr,
      List.filter_eq_self.2 fun r hr => by simpa [← htopeq] using hlt r hr, List.nil_append]
  have hcc : c ≤ c' := htopeq ▸ (mem_qualifying.1 ((rowidOrder.perm c _).subset
    (List.mem_of_mem_take htop))).2.1.le
  rw [qualifying_filter hcc, ← hafter]
  refine eq_of_perm_of_rowid_lt (((byRowid_perm _).trans ((byRowid_perm _).filter _).symm))
    (byRowid_sorted ?_) (hsorted.filter _)
  exact (rowid_nodup_qualifying c).sublist ((List.filter_sublist _).map _)

/-- Under `order by rowid`, from a cursor, fuel beyond the number of qualifying rows ends the
loop, and its pages are all the qualifying rows, by ascending id. -/
theorem scanPages_byRowid (hc : 1 ≤ count) : ∀ (fuel : Nat) (c : Int),
    (qualifying s key now c pattern).length < fuel →
      ∃ pages, scanPages rowidOrder key pattern count now fuel c s = some pages ∧
        pages.flatten = (byRowid (qualifying s key now c pattern)).map HashRow.item
  | 0, _, h => absurd h (Nat.not_lt_zero _)
  | fuel + 1, c, hfuel => by
    have hlen := (byRowid_perm (qualifying s key now c pattern)).length_eq
    by_cases he : page rowidOrder s key now c pattern count = []
    · refine ⟨[], scanPages_empty hc fuel he, ?_⟩
      rcases List.take_eq_nil_iff.1 he with h | h
      · omega
      · rw [show byRowid _ = [] from h]; rfl
    have hafter := byRowid_after_page he
    have hpos : 0 < (byRowid (qualifying s key now c pattern)).length :=
      List.length_pos.2 fun h => he (by
        rw [page]; show List.take _ (byRowid _) = []; rw [h, List.take_nil])
    obtain ⟨pages, hrun, hflat⟩ := scanPages_byRowid hc fuel _ (by
      rw [← (byRowid_perm _).length_eq, hafter, List.length_drop]; omega)
    refine ⟨_ :: pages, by rw [scanPages_page hc fuel he, hrun]; rfl, ?_⟩
    rw [List.flatten_cons, hflat, hafter, ← List.map_append]
    exact congrArg _ (List.take_append_drop _ _)

/-- Every hash row has a positive id, as SQLite's `rowid`s are. -/
def RowidsPos (s : Store) : Prop := ∀ r ∈ s.rhash, 0 < r.rowid

theorem rowid_of_mem_upsertHash {kid : Nat} {field : String} {value : Value} {x : HashRow}
    (hx : x ∈ (s.upsertHash kid field value).rhash) :
    x.rowid = s.nextRowid ∨ ∃ y ∈ s.rhash, y.rowid = x.rowid := by
  unfold Store.upsertHash at hx
  split at hx
  · obtain ⟨y, hy, rfl⟩ := List.mem_map.1 hx
    exact .inr ⟨y, hy, by split <;> rfl⟩
  · rcases List.mem_append.1 hx with hx | hx
    · exact .inr ⟨x, hx, rfl⟩
    · exact .inl (by rw [List.mem_singleton.1 hx])

theorem rowidsPos_writes : HashWrites RowidsPos where
  insertKey _ _ _ _ _ h := h
  touch _ _ _ _ h := h
  upsertHash _ _ _ _ h x hx := by
    rcases rowid_of_mem_upsertHash hx with hx | ⟨y, hy, hyx⟩
    · exact hx ▸ Nat.succ_pos _
    · exact hyx ▸ h y hy
  deleteHash _ _ h x hx := h x (List.mem_filter.1 hx).1

/-- On SQLite, with `order by rowid` in `sqlScan`, on a store the hash calls reach, the loop
from cursor 0 ends within one call more than the hash has rows, and returns every field of
the hash that matches the pattern, with its value, once, by ascending row id. -/
theorem scanPages_rowidOrder_complete {d : Dialect} {core : Core} (hr : Reachable d core Call.IsHash s)
    (key pattern : String) {count : Int} (hc : 1 ≤ count) (now : Int) :
    ∃ pages, scanPages rowidOrder key pattern count now ((rowsOf s key now).length + 1) 0 s = some pages ∧
      (pages.flatten.map (·.id)).Pairwise (· < ·) ∧ (pages.flatten.map (·.field)).Nodup ∧
      ∀ f v, (∃ it ∈ pages.flatten, it.field = f ∧ it.value = v) ↔
        glob f pattern ∧ hashView s key f = some v := by
  have hs := HashInv.of_reachable hr
  have hpos := rowidsPos_writes.of_reachable (fun _ h => absurd h (List.not_mem_nil _)) hr
  obtain ⟨pages, hrun, hflat⟩ := @scanPages_byRowid key pattern count now s hc
    ((rowsOf s key now).length + 1) 0 (Nat.lt_succ_of_le (List.length_filter_le _ _))
  obtain ⟨hnodup, hsound⟩ := hflat ▸ items_of_qualifying hs (fun r hr => (byRowid_perm _).subset hr)
    (((byRowid_perm _).map _).nodup_iff.2 (rowid_nodup_qualifying 0))
  refine ⟨pages, hrun, ?_, hnodup, fun f v =>
    ⟨fun ⟨it, hit, hf, hv⟩ => hf ▸ hv ▸ hsound it hit, fun ⟨hg, hv⟩ => ?_⟩⟩
  · rw [hflat, List.map_map]
    exact List.pairwise_map.2 (byRowid_sorted (rowid_nodup_qualifying 0))
  · cases hk : s.findKey key with
    | none => simp [hashView_of_none hk] at hv
    | some k =>
      obtain ⟨r, hr, rfl, rfl⟩ := hashPayload_eq_some.1 (hs.view_eq hk ▸ hv)
      have hq : r ∈ qualifying s key now 0 pattern := mem_qualifying.2
        ⟨by rw [hs.rowsOf_eq, hk]; exact hr, by exact_mod_cast hpos r (List.mem_filter.1 hr).1, hg⟩
      exact ⟨HashRow.item r, hflat ▸ List.mem_map_of_mem _ ((byRowid_perm _).mem_iff.2 hq), rfl, rfl⟩

/-- The store whose field `g` the loop by field skips, read by row id: both fields come back. -/
theorem scanPages_rowidOrder_complete_gThenF :
    Reachable .sqlite ⟨fun _ => none, fun _ => none, fun _ => [], fun _ => []⟩ Call.IsHash gThenF ∧
      (1 : Int) ≤ 1 ∧
      ∃ pages, scanPages rowidOrder "h" "*" 1 0 ((rowsOf gThenF "h" 0).length + 1) 0 gThenF = some pages ∧
        (pages.flatten.map (·.id)).Pairwise (· < ·) ∧ (pages.flatten.map (·.field)).Nodup ∧
        ∀ f v, (∃ it ∈ pages.flatten, it.field = f ∧ it.value = v) ↔
          glob f "*" ∧ hashView gThenF "h" f = some v :=
  have hr : Reachable .sqlite ⟨fun _ => none, fun _ => none, fun _ => [], fun _ => []⟩ Call.IsHash gThenF :=
    runCalls_reachable _ _ .empty (by simp [Call.IsHash])
  ⟨hr, le_rfl, scanPages_rowidOrder_complete hr "h" "*" le_rfl 0⟩

end RHash
end Redka
