import Mathlib.Tactic.Linarith
import Redka.RList.Tx
import Redka.RList.Seq

/-! # What each list query and method does to the sequences

On a store the list repository alone has reached (`ListInv`: every key is a list
that never expires and has a length, and every row belongs to a key), each query of
`rlist` changes the sequence of one key by one of the operations of `RList.Seq`, and
keeps `ListInv`.  The proofs go through the reading order once per kind of change:

* a new row at a position strictly between two parts of the order (`insert_between`):
  the pushes and the two midpoint inserts;
* the deletion of the row at one position (`delete_at`): the two pops;
* the update of the row at one position (`update_at`): `LSET`;
* deletions by element (`sqlDelete_spec`, `deleteSome_spec`).

The methods of `Tx` are then lemmas about these statements, each saying what the
method returns, what it leaves, and that its error, if any, is not a refusal by
`rlist_pk_idx`.
-/

namespace Redka
namespace RList
open Store

/-- What holds of every store the list repository alone reaches. -/
structure ListInv (s : Store) : Prop where
  keys : ∀ r ∈ s.rkey, r.type = .list ∧ r.etime = none ∧ r.len.isSome
  kid : ∀ x ∈ s.rlist, ∃ r ∈ s.rkey, r.id = x.kid

theorem ListInv.empty : ListInv Store.empty :=
  ⟨fun _ h => absurd h (List.not_mem_nil _), fun _ h => absurd h (List.not_mem_nil _)⟩

section Tables
variable {s s' : Store}

/-- Touching keys and replacing rows by rows of known keys keeps `ListInv`. -/
theorem ListInv.of_touch (hs : ListInv s) {g : KeyRow → KeyRow} (hg : IsTouch g)
    (hk : s'.rkey = s.rkey.map g)
    (hl : ∀ x ∈ s'.rlist, ∃ r ∈ s.rkey, r.id = x.kid) : ListInv s' where
  keys r' hr' := by
    rw [hk] at hr'
    obtain ⟨r, hr, rfl⟩ := List.mem_map.1 hr'
    obtain ⟨h1, h2, h3⟩ := hs.keys r hr
    exact ⟨(hg.type r).trans h1, (hg.etime r).trans h2, (hg.len r).trans h3⟩
  kid x hx := by
    obtain ⟨r, hr, he⟩ := hl x hx
    exact ⟨g r, hk ▸ List.mem_map_of_mem g hr, (hg.id r).trans he⟩

theorem ListInv.touch (hs : ListInv s) (p mtime dl) : ListInv (s.touch p 1 mtime dl) :=
  hs.of_touch (isTouch_touch p Int.one_nonneg mtime dl) rfl hs.kid

theorem ListInv.deleteList (hs : ListInv s) (p now) : ListInv (s.deleteList p now) :=
  have ⟨_, hg, hk⟩ := s.deleteList_rkey p now
  hs.of_touch hg hk fun x hx => hs.kid x (by simp_all)

theorem ListInv.updateList (hs : ListInv s) (p e now) : ListInv (s.updateList p e now) :=
  have ⟨_, hg, hk⟩ := s.updateList_rkey p e now
  hs.of_touch hg hk fun x hx => by
    obtain ⟨y, hy, rfl⟩ := List.mem_map.1 (by simpa using hx)
    obtain ⟨r, hr, he⟩ := hs.kid y hy
    exact ⟨r, hr, by rw [he]; split <;> rfl⟩

theorem ListInv.insertList (hs : ListInv s) {row : ListRow} (h : s.insertList row = some s')
    (hk : ∃ r ∈ s.rkey, r.id = row.kid) : ListInv s' := by
  obtain ⟨hl, hr, -, -⟩ := insertList_eq_some h
  refine hs.of_touch IsTouch.refl (by rw [hr, List.map_id']) fun x hx => ?_
  rcases List.mem_append.1 (hl ▸ hx) with hx | hx
  · exact hs.kid x hx
  · exact (List.mem_singleton.1 hx) ▸ hk

theorem ListInv.insertKey (hs : ListInv s) (key mtime n h) :
    ListInv (s.insertKey key .list mtime (some n) h) where
  keys r hr := by
    rcases List.mem_append.1 hr with hr | hr
    · exact hs.keys r hr
    · rw [List.mem_singleton.1 hr]; exact ⟨rfl, rfl, rfl⟩
  kid x hx :=
    have ⟨r, hr, he⟩ := hs.kid x hx
    ⟨r, List.mem_append_left _ hr, he⟩

/-- On such a store, the typed queries select a list key whenever it exists. -/
theorem ListInv.curRow (hs : ListInv s) (key : String) (now : Int) :
    s.curRow key .list now = s.findKey key := by
  cases h : s.findKey key with
  | none =>
    cases h' : s.curRow key .list now with
    | none => rfl
    | some r => simp [(curRow_eq_some.1 h').1] at h
  | some r =>
    obtain ⟨hr, -⟩ := findKey_eq_some.1 h
    obtain ⟨ht, he, -⟩ := hs.keys r hr
    exact curRow_eq_some.2 ⟨h, ht, by simp [KeyRow.live, he]⟩

theorem ListInv.kindOf (hs : ListInv s) {key : String} {r : KeyRow} (h : s.findKey key = some r) :
    s.kindOf key = some (r.id, .list) := by
  simp [Store.kindOf, h, (hs.keys r (findKey_eq_some.1 h).1).1]

theorem ListInv.listRows_serial (hs : ListInv s) : s.listRows s.serial = [] :=
  List.filter_eq_nil_iff.2 fun x hx => by
    obtain ⟨r, hr, he⟩ := hs.kid x hx
    simpa [← he] using Nat.ne_of_lt (s.rkey_serial r hr)

theorem mem_of_kindOf {key : String} {id : Nat} {t : TypeID} (h : s.kindOf key = some (id, t)) :
    ∃ r ∈ s.rkey, r.id = id := by
  obtain ⟨r, hr, he⟩ := Option.map_eq_some'.1 h
  exact ⟨r, (findKey_eq_some.1 hr).1, congrArg Prod.fst he⟩

theorem seqOf_eq_nil {key : String} (h : s.findKey key = none) : seqOf s key = [] := by
  simp [seqOf, rowsOf, Store.kindOf, h]

end Tables

/-! ## Changes of one list's rows -/

section Rows
variable {s : Store} {key : String} {id : Nat}

theorem sortByPos_perm (rows : List ListRow) : (sortByPos rows).Perm rows :=
  List.perm_insertionSort _ rows

theorem mem_sortByPos {rows : List ListRow} {x : ListRow} : x ∈ sortByPos rows ↔ x ∈ rows :=
  (sortByPos_perm rows).mem_iff

/-- In the reading order, the rows before a row have smaller positions and the rows after
it larger ones. -/
theorem pos_lt_of_split (hn : (positions (s.listRows id)).Nodup) {A B : List ListRow}
    {x : ListRow} (hL : sortByPos (s.listRows id) = A ++ x :: B) :
    (∀ y ∈ A, y.pos < x.pos) ∧ ∀ z ∈ B, x.pos < z.pos := by
  have hs := sortByPos_sorted hn
  rw [hL] at hs
  obtain ⟨-, hB, hAB⟩ := List.pairwise_append.1 hs
  exact ⟨fun y hy => hAB y hy x (List.mem_cons_self _ _), (List.pairwise_cons.1 hB).1⟩

/-- **A new row between two parts of the reading order.**  A position strictly above the
rows of `A` and strictly below those of `B` is free, and the row inserted there is read
between them. -/
theorem insert_between (hs : ListInv s) (hk : s.kindOf key = some (id, .list))
    {A B : List ListRow} (hAB : sortByPos (s.listRows id) = A ++ B) {p : ℚ}
    (hA : ∀ y ∈ A, y.pos < p) (hB : ∀ z ∈ B, p < z.pos) (elem : Value) :
    ∃ s', s.insertList ⟨id, p, elem⟩ = some s' ∧ ListInv s' ∧
      seqOf s' = Function.update (seqOf s) key ((A ++ ⟨id, p, elem⟩ :: B).map (·.elem)) := by
  have hfree : (⟨id, p, elem⟩ : ListRow).slot ∉ s.rlist.map ListRow.slot := by
    intro hm
    obtain ⟨y, hy, he⟩ := List.mem_map.1 hm
    simp only [ListRow.slot, Prod.mk.injEq] at he
    have hy' : y ∈ A ++ B := hAB ▸ mem_sortByPos.2 (List.mem_filter.2 ⟨hy, by simp [he.1]⟩)
    rcases List.mem_append.1 hy' with hy' | hy'
    · exact absurd he.2 (ne_of_lt (hA y hy'))
    · exact absurd he.2.symm (ne_of_lt (hB y hy'))
  obtain ⟨s', hs'⟩ := insertList_isSome hfree
  refine ⟨s', hs', hs.insertList hs' (mem_of_kindOf hk), ?_⟩
  have hrows := listRows_insertList hs'
  rw [seqOf_update (kindOf_congr (insertList_eq_some hs').2.1) hk
    fun j hj => by simp [hrows, Ne.symm hj], hrows, if_pos rfl,
    sortByPos_insert (r := ⟨id, p, elem⟩) (positions_listRows_nodup s id) hAB hA hB]

theorem kid_of_mem_split {A B : List ListRow} {x : ListRow}
    (hL : sortByPos (s.listRows id) = A ++ x :: B) : x.kid = id :=
  kid_of_mem_listRows (mem_sortByPos.1 (by rw [hL]; simp))

/-- The row of list `id` at `x`'s position is `x` alone. -/
theorem rlist_filter_at {A B : List ListRow} {x : ListRow}
    (hL : sortByPos (s.listRows id) = A ++ x :: B) :
    s.rlist.filter (fun r => r.kid = id && r.pos = x.pos) = [x] := by
  have hn := positions_listRows_nodup s id
  obtain ⟨hA, hB⟩ := pos_lt_of_split hn hL
  have hx : x.kid = id := kid_of_mem_split hL
  have hrl : s.rlist.filter (fun r => r.kid = id && r.pos = x.pos) =
      (s.listRows id).filter (fun r => r.pos = x.pos) := by
    rw [listRows, List.filter_filter]
    exact List.filter_congr fun y _ => Bool.and_comm _ _
  refine List.Perm.eq_singleton ?_
  rw [hrl]
  refine (((sortByPos_perm _).filter _).symm).trans ?_
  rw [hL, List.filter_append, List.filter_cons,
    List.filter_eq_nil_iff.2 fun y hy => by simp [ne_of_lt (hA y hy)],
    List.filter_eq_nil_iff.2 fun z hz => by simp [ne_of_gt (hB z hz)]]
  simp

/-- **The row at one position deleted.**  The query returns its element and the list
reads without it. -/
theorem delete_at (hs : ListInv s) (hk : s.kindOf key = some (id, .list))
    {A B : List ListRow} {x : ListRow} (hL : sortByPos (s.listRows id) = A ++ x :: B)
    (now : Int) :
    let hit := fun r : ListRow => r.kid = id && r.pos = x.pos
    (s.rlist.filter hit).map (·.elem) = [x.elem] ∧ ListInv (s.deleteList hit now) ∧
      seqOf (s.deleteList hit now) =
        Function.update (seqOf s) key ((A ++ B).map (·.elem)) := by
  intro hit
  have hn := positions_listRows_nodup s id
  obtain ⟨hA, hB⟩ := pos_lt_of_split hn hL
  refine ⟨by rw [rlist_filter_at hL]; rfl, hs.deleteList hit now, ?_⟩
  rw [seqOf_update (deleteList_kindOf s hit now) hk
      fun j hj => by
        rw [listRows_deleteList]
        exact List.filter_eq_self.2 fun y hy => by simp [hit, kid_of_mem_listRows hy, hj],
      listRows_deleteList, sortByPos_filter hn, hL, List.filter_append, List.filter_cons,
      List.filter_eq_self.2 fun y hy => by simp [hit, ne_of_lt (hA y hy)],
      List.filter_eq_self.2 fun z hz => by simp [hit, ne_of_gt (hB z hz)]]
  simp [hit, kid_of_mem_split hL]

/-- **The row at one position updated.**  One row changes, and the list reads with its
element replaced. -/
theorem update_at (hs : ListInv s) (hk : s.kindOf key = some (id, .list))
    {A B : List ListRow} {x : ListRow} (hL : sortByPos (s.listRows id) = A ++ x :: B)
    (e : Value) (now : Int) :
    let hit := fun r : ListRow => r.kid = id && r.pos = x.pos
    (s.rlist.filter hit).length = 1 ∧ ListInv (s.updateList hit e now) ∧
      seqOf (s.updateList hit e now) =
        Function.update (seqOf s) key (A.map (·.elem) ++ e :: B.map (·.elem)) := by
  intro hit
  have hn := positions_listRows_nodup s id
  obtain ⟨hA, hB⟩ := pos_lt_of_split hn hL
  refine ⟨by rw [rlist_filter_at hL]; rfl, hs.updateList hit e now, ?_⟩
  have hpos : ∀ r : ListRow, (if hit r then { r with elem := e } else r).pos = r.pos := fun r => by
    split <;> rfl
  have hA' : A.map (fun r => if hit r then { r with elem := e } else r) = A :=
    (List.map_congr_left fun y hy => by simp [hit, ne_of_lt (hA y hy)]).trans (List.map_id' A)
  have hB' : B.map (fun r => if hit r then { r with elem := e } else r) = B :=
    (List.map_congr_left fun z hz => by simp [hit, ne_of_gt (hB z hz)]).trans (List.map_id' B)
  rw [seqOf_update (updateList_kindOf s hit e now) hk
      fun j hj => by
        rw [listRows_updateList]
        exact (List.map_congr_left fun y hy => by simp [hit, kid_of_mem_listRows hy, hj]).trans
          (List.map_id' _),
      listRows_updateList, sortByPos_map hn hpos, hL, List.map_append, List.map_cons, hA', hB']
  simp [hit, kid_of_mem_split hL]

/-- `delete ... where elem = ?`: every occurrence of the element goes. -/
theorem deleteElem (hs : ListInv s) (hk : s.kindOf key = some (id, .list)) (e : Value)
    (now : Int) :
    let hit := fun r : ListRow => r.kid = id && r.elem = e
    ListInv (s.deleteList hit now) ∧
      seqOf (s.deleteList hit now) =
        Function.update (seqOf s) key ((seqOf s key).filter (· ≠ e)) := by
  intro hit
  refine ⟨hs.deleteList hit now, ?_⟩
  rw [seqOf_update (deleteList_kindOf s hit now) hk
      fun j hj => by
        rw [listRows_deleteList]
        exact List.filter_eq_self.2 fun y hy => by simp [hit, kid_of_mem_listRows hy, hj],
    listRows_deleteList, sortByPos_filter (positions_listRows_nodup s id), seqOf_of_kindOf hk,
    List.filter_map]
  refine congrArg (fun l : List ListRow => Function.update (seqOf s) key (l.map (·.elem))) ?_
  exact List.filter_congr fun y hy => by
    simp [hit, kid_of_mem_listRows (mem_sortByPos.1 hy)]

theorem slots_nodup (s : Store) (id : Nat) : ((sortByPos (s.listRows id)).map ListRow.slot).Nodup :=
  ((sortByPos_perm _).map _).nodup_iff.2
    (s.rlist_pk.sublist ((List.filter_sublist _).map _))

/-- `sqlDeleteFront` and `sqlDeleteBack`: the first or last `n` occurrences go. -/
theorem deleteSome_rows (hs : ListInv s) (hk : s.kindOf key = some (id, .list)) (desc : Bool)
    (e : Value) (n : Nat) (now : Int) :
    let ids := ((ordered ((s.listRows id).filter (·.elem = e)) desc).take n).map ListRow.slot
    let hit := fun r : ListRow => r.slot ∈ ids
    ListInv (s.deleteList hit now) ∧
      seqOf (s.deleteList hit now) = Function.update (seqOf s) key
        (if desc then eraseLast e n (seqOf s key) else eraseFirst e n (seqOf s key)) := by
  intro ids hit
  have hn := positions_listRows_nodup s id
  have hids : ∀ z ∈ ids, z.1 = id := fun z hz => by
    obtain ⟨y, hy, rfl⟩ := List.mem_map.1 hz
    have hy := (List.take_sublist _ _).subset hy
    simp only [ordered] at hy
    split at hy <;>
      simp only [List.mem_reverse, mem_sortByPos, List.mem_filter] at hy <;>
      exact kid_of_mem_listRows hy.1
  refine ⟨hs.deleteList hit now, ?_⟩
  rw [seqOf_update (deleteList_kindOf s hit now) hk
      fun j hj => by
        rw [listRows_deleteList]
        exact List.filter_eq_self.2 fun y hy => by
          have := kid_of_mem_listRows hy
          simp only [hit, Bool.not_eq_true', decide_eq_false_iff_not]
          exact fun hm => hj (this ▸ hids _ hm),
    listRows_deleteList, sortByPos_filter hn, seqOf_of_kindOf hk]
  refine congrArg (Function.update (seqOf s) key) ?_
  cases desc
  · simpa only [ids, hit, ordered, Bool.false_eq_true, if_false, sortByPos_filter hn, decide_not]
      using eraseFirst_map ListRow.elem ListRow.slot e n _ (slots_nodup s id)
  · have h := eraseFirst_map ListRow.elem ListRow.slot e n (sortByPos (s.listRows id)).reverse
      (by rw [List.map_reverse]; exact List.nodup_reverse.2 (slots_nodup s id))
    simp only [List.filter_reverse, List.map_reverse, decide_not] at h
    simp only [ids, hit, ordered, if_true, sortByPos_filter hn, decide_not, eraseLast,
      List.map_reverse]
    rw [← h, List.reverse_reverse]

end Rows

/-! ## Positions: greatest, least and the neighbours of an anchor -/

theorem max?_spec {ps : List ℚ} {m : ℚ} (h : ps.max? = some m) : m ∈ ps ∧ ∀ q ∈ ps, q ≤ m :=
  ⟨List.max?_mem max_choice h, (List.max?_le_iff (fun _ _ _ => max_le_iff) h).1 le_rfl⟩

theorem min?_spec {ps : List ℚ} {m : ℚ} (h : ps.min? = some m) : m ∈ ps ∧ ∀ q ∈ ps, m ≤ q :=
  ⟨List.min?_mem min_choice h, (List.le_min?_iff (fun _ _ _ => le_min_iff) h).1 le_rfl⟩

theorem lt_pushBackPos {ps : List ℚ} {q : ℚ} (hq : q ∈ ps) : q < ps.max?.elim 0 (· + 1) := by
  obtain ⟨m, hm⟩ := Option.isSome_iff_exists.1 (List.isSome_max?_of_mem hq)
  rw [hm]
  exact lt_of_le_of_lt ((max?_spec hm).2 q hq) (lt_add_one m)

theorem pushFrontPos_lt {ps : List ℚ} {q : ℚ} (hq : q ∈ ps) : ps.min?.elim 0 (· - 1) < q := by
  obtain ⟨m, hm⟩ := Option.isSome_iff_exists.1 (List.isSome_min?_of_mem hq)
  rw [hm]
  exact lt_of_lt_of_le (sub_one_lt m) ((min?_spec hm).2 q hq)

theorem mem_positions {rows : List ListRow} {q : ℚ} : q ∈ positions rows ↔ ∃ y ∈ rows, y.pos = q :=
  List.mem_map

section Anchor
variable {s : Store} {id : Nat}

/-- `min(pos) where elem = pivot` is the position of the first row carrying `pivot` in the
reading order. -/
theorem anchor_split {pivot : Value} {a : ℚ}
    (ha : (positions ((s.listRows id).filter (·.elem = pivot))).min? = some a) :
    ∃ A x B, sortByPos (s.listRows id) = A ++ x :: B ∧ x.elem = pivot ∧ x.pos = a ∧
      ∀ y ∈ A, y.elem ≠ pivot := by
  obtain ⟨ham, hle⟩ := min?_spec ha
  obtain ⟨w, hw, rfl⟩ := mem_positions.1 ham
  obtain ⟨hw, hwp⟩ := List.mem_filter.1 hw
  have hwL : w ∈ sortByPos (s.listRows id) := mem_sortByPos.2 hw
  cases hf : (sortByPos (s.listRows id)).find? (·.elem = pivot) with
  | none => exact absurd hwp (by simpa using List.find?_eq_none.1 hf w hwL)
  | some x =>
    obtain ⟨hxp, A, B, hL, hA⟩ := List.find?_eq_some.1 hf
    have hxp : x.elem = pivot := by simpa using hxp
    have hA : ∀ y ∈ A, y.elem ≠ pivot := fun y hy => by simpa using hA y hy
    obtain ⟨hltA, hltB⟩ := pos_lt_of_split (positions_listRows_nodup s id) hL
    have hx : x ∈ s.listRows id := mem_sortByPos.1 (by rw [hL]; simp)
    have hwx : x.pos ≤ w.pos := by
      rw [hL] at hwL
      rcases List.mem_append.1 hwL with hwA | hwB
      · exact absurd (by simpa using hwp) (hA w hwA)
      · rcases List.mem_cons.1 hwB with rfl | hwB
        · exact le_rfl
        · exact le_of_lt (hltB w hwB)
    refine ⟨A, x, B, hL, hxp, le_antisymm hwx ?_, hA⟩
    exact hle _ (mem_positions.2 ⟨x, List.mem_filter.2 ⟨hx, by simpa using hxp⟩, rfl⟩)

/-- Without an anchor the list does not hold the pivot. -/
theorem pivot_not_mem {pivot : Value}
    (ha : (positions ((s.listRows id).filter (·.elem = pivot))).min? = none) :
    pivot ∉ (sortByPos (s.listRows id)).map (·.elem) := by
  simp only [List.min?_eq_none_iff, positions, List.map_eq_nil_iff, List.filter_eq_nil_iff] at ha
  simp only [List.mem_map, mem_sortByPos, not_exists, not_and]
  intro y hy he
  exact ha y hy (by simpa using he)

end Anchor

/-! ## The statements -/

section Statements
variable {s : Store} {key : String} {id : Nat}

/-- `sqlPush` on a list store: the key exists afterwards as a list with a length, and no
sequence changes. -/
theorem sqlPush_spec (hs : ListInv s) (key : String) (now : Int) :
    ∃ id n s', sqlPush key now s = .ok ((id, some n), s') ∧ ListInv s' ∧
      seqOf s' = seqOf s ∧ s'.kindOf key = some (id, .list) := by
  unfold sqlPush upsertKey
  split
  · rename_i h
    refine ⟨_, _, _, rfl, hs.insertKey key now 1 _, ?_, by rw [kindOf_insertKey, if_pos rfl]⟩
    funext k
    by_cases hkk : k = key
    · subst k
      rw [seqOf_eq_nil h, seqOf, rowsOf, kindOf_insertKey, if_pos rfl]
      simp only [listRows_insertKey, hs.listRows_serial]; rfl
    · simp only [seqOf, rowsOf, kindOf_insertKey, listRows_insertKey, if_neg hkk]
  · rename_i r h
    obtain ⟨hr, -⟩ := findKey_eq_some.1 h
    obtain ⟨ht, -, hl⟩ := hs.keys r hr
    obtain ⟨n, hn⟩ := Option.isSome_iff_exists.1 hl
    rw [if_pos ht, hn]
    exact ⟨_, _, _, rfl, hs.touch _ _ _, seqOf_touch .., by rw [kindOf_touch, hs.kindOf h]⟩

theorem sqlPushBack_spec (hs : ListInv s) (hk : s.kindOf key = some (id, .list)) (elem : Value) :
    ∃ s', sqlPushBack id elem s = .ok ((), s') ∧ ListInv s' ∧
      seqOf s' = Function.update (seqOf s) key (seqOf s key ++ [elem]) := by
  obtain ⟨s', h, hi, hq⟩ := insert_between hs hk (List.append_nil _).symm
    (fun y hy => lt_pushBackPos (List.mem_map_of_mem _ (mem_sortByPos.1 hy)))
    (fun _ h => absurd h (List.not_mem_nil _)) elem
  refine ⟨s', by simp only [sqlPushBack, pushAt, positions, h], hi, ?_⟩
  rw [hq, seqOf_of_kindOf hk, List.map_append]; rfl

theorem sqlPushFront_spec (hs : ListInv s) (hk : s.kindOf key = some (id, .list)) (elem : Value) :
    ∃ s', sqlPushFront id elem s = .ok ((), s') ∧ ListInv s' ∧
      seqOf s' = Function.update (seqOf s) key (elem :: seqOf s key) := by
  obtain ⟨s', h, hi, hq⟩ := insert_between hs hk (List.nil_append _).symm
    (fun _ h => absurd h (List.not_mem_nil _))
    (fun y hy => pushFrontPos_lt (List.mem_map_of_mem _ (mem_sortByPos.1 hy))) elem
  refine ⟨s', by simp only [sqlPushFront, pushAt, positions, h], hi, ?_⟩
  rw [hq, seqOf_of_kindOf hk]; rfl

/-- The midpoint insert before the first `pivot`.  Without a pivot it inserts nothing:
an empty list makes its `select` empty, and otherwise `pos` is `NULL`. -/
theorem sqlInsertBefore_spec (hs : ListInv s) (hk : s.kindOf key = some (id, .list))
    (pivot elem : Value) :
    ∃ s', (sqlInsertBefore id pivot elem s = .ok ((), s') ∨
        sqlInsertBefore id pivot elem s = .error (.notNull "rlist.pos") ∧ s' = s) ∧
      ListInv s' ∧
      seqOf s' = Function.update (seqOf s) key (insertBeforeFirst pivot elem (seqOf s key)) := by
  cases ha : (positions ((s.listRows id).filter (·.elem = pivot))).min? with
  | none =>
    refine ⟨s, ?_, hs, ?_⟩
    · unfold sqlInsertBefore insertNear
      simp only [ha, Option.map_none']
      split <;> simp_all
    · rw [seqOf_of_kindOf hk, insertBeforeFirst_of_not_mem _ (pivot_not_mem ha),
        ← seqOf_of_kindOf hk, Function.update_eq_self]
  | some a =>
    obtain ⟨A, x, B, hL, hxp, rfl, hA⟩ := anchor_split ha
    obtain ⟨hltA, hltB⟩ := pos_lt_of_split (positions_listRows_nodup s id) hL
    have hmemA : ∀ y ∈ A, y.pos ∈ (positions (s.listRows id)).filter (· < x.pos) := fun y hy =>
      List.mem_filter.2 ⟨mem_positions.2 ⟨y, mem_sortByPos.1 (by rw [hL]; simp [hy]), rfl⟩,
        by simpa using hltA y hy⟩
    obtain ⟨p, hp, hAp, hpa⟩ : ∃ p, ((positions (s.listRows id)).filter (· < x.pos)).max?.elim
        (x.pos - 1) (fun b => (x.pos + b) / 2) = p ∧ (∀ y ∈ A, y.pos < p) ∧ p < x.pos := by
      cases hb : ((positions (s.listRows id)).filter (· < x.pos)).max? with
      | none =>
        rw [List.max?_eq_none_iff] at hb
        exact ⟨_, rfl, fun y hy => absurd (hmemA y hy) (by simp [hb]), sub_one_lt _⟩
      | some b =>
        obtain ⟨hbm, hble⟩ := max?_spec hb
        have hba : b < x.pos := by simpa using (List.mem_filter.1 hbm).2
        refine ⟨_, rfl, fun y hy => ?_, by simp only [Option.elim]; linarith⟩
        have := hble _ (hmemA y hy)
        simp only [Option.elim]; linarith
    have hBp : ∀ z ∈ x :: B, p < z.pos := fun z hz => by
      rcases List.mem_cons.1 hz with rfl | hz
      · exact hpa
      · exact hpa.trans (hltB z hz)
    obtain ⟨s', hins, hi, hq⟩ := insert_between hs hk hL hAp hBp elem
    refine ⟨s', .inl ?_, hi, ?_⟩
    · unfold sqlInsertBefore insertNear
      simp only [ha, Option.map_some', hp]
      split
      · rename_i _ _ h
        exact absurd (mem_sortByPos.1 (by rw [hL]; simp) : x ∈ s.listRows id) (by simp [h])
      · simp_all
      · rename_i h; simp only [Option.some.injEq] at h; subst h; simp only [hins]
    · rw [hq, seqOf_of_kindOf hk, hL]
      exact congrArg _ (insertBeforeFirst_map ListRow.elem hA hxp ⟨id, p, elem⟩).symm

/-- The midpoint insert after the first `pivot`. -/
theorem sqlInsertAfter_spec (hs : ListInv s) (hk : s.kindOf key = some (id, .list))
    (pivot elem : Value) :
    ∃ s', (sqlInsertAfter id pivot elem s = .ok ((), s') ∨
        sqlInsertAfter id pivot elem s = .error (.notNull "rlist.pos") ∧ s' = s) ∧
      ListInv s' ∧
      seqOf s' = Function.update (seqOf s) key (insertAfterFirst pivot elem (seqOf s key)) := by
  cases ha : (positions ((s.listRows id).filter (·.elem = pivot))).min? with
  | none =>
    refine ⟨s, ?_, hs, ?_⟩
    · unfold sqlInsertAfter insertNear
      simp only [ha, Option.map_none']
      split <;> simp_all
    · rw [seqOf_of_kindOf hk, insertAfterFirst_of_not_mem _ (pivot_not_mem ha),
        ← seqOf_of_kindOf hk, Function.update_eq_self]
  | some a =>
    obtain ⟨A, x, B, hL, hxp, rfl, hA⟩ := anchor_split ha
    obtain ⟨hltA, hltB⟩ := pos_lt_of_split (positions_listRows_nodup s id) hL
    have hmemB : ∀ z ∈ B, z.pos ∈ (positions (s.listRows id)).filter (x.pos < ·) := fun z hz =>
      List.mem_filter.2 ⟨mem_positions.2 ⟨z, mem_sortByPos.1 (by rw [hL]; simp [hz]), rfl⟩,
        by simpa using hltB z hz⟩
    obtain ⟨p, hp, hBp, hap⟩ : ∃ p, ((positions (s.listRows id)).filter (x.pos < ·)).min?.elim
        (x.pos + 1) (fun b => (x.pos + b) / 2) = p ∧ (∀ z ∈ B, p < z.pos) ∧ x.pos < p := by
      cases hb : ((positions (s.listRows id)).filter (x.pos < ·)).min? with
      | none =>
        rw [List.min?_eq_none_iff] at hb
        exact ⟨_, rfl, fun z hz => absurd (hmemB z hz) (by simp [hb]), lt_add_one _⟩
      | some b =>
        obtain ⟨hbm, hble⟩ := min?_spec hb
        have hab : x.pos < b := by simpa using (List.mem_filter.1 hbm).2
        refine ⟨_, rfl, fun z hz => ?_, by simp only [Option.elim]; linarith⟩
        have := hble _ (hmemB z hz)
        simp only [Option.elim]; linarith
    have hAp : ∀ y ∈ A ++ [x], y.pos < p := fun y hy => by
      rcases List.mem_append.1 hy with hy | hy
      · exact (hltA y hy).trans hap
      · rw [List.mem_singleton.1 hy]; exact hap
    obtain ⟨s', hins, hi, hq⟩ :=
      insert_between hs hk (by rw [hL, List.append_assoc]; rfl) hAp hBp elem
    refine ⟨s', .inl ?_, hi, ?_⟩
    · unfold sqlInsertAfter insertNear
      simp only [ha, Option.map_some', hp]
      split
      · rename_i _ _ h
        exact absurd (mem_sortByPos.1 (by rw [hL]; simp) : x ∈ s.listRows id) (by simp [h])
      · simp_all
      · rename_i h; simp only [Option.some.injEq] at h; subst h; simp only [hins]
    · rw [hq, seqOf_of_kindOf hk, hL, List.append_assoc]
      exact congrArg _ (insertAfterFirst_map ListRow.elem hA hxp ⟨id, p, elem⟩).symm

/-- An operation that leaves an empty sequence empty changes nothing when `key` holds
no elements. -/
theorem update_of_nil (h : seqOf s key = []) {l : List Value} (hl : l = []) :
    seqOf s = Function.update (seqOf s) key l := by
  rw [hl, ← h, Function.update_eq_self]

theorem sqlPopBack_spec (hs : ListInv s) (key : String) (now : Int) :
    ∃ s', sqlPopBack key now s = .ok ((seqOf s key).getLast?.toList, s') ∧ ListInv s' ∧
      seqOf s' = Function.update (seqOf s) key (seqOf s key).dropLast := by
  unfold sqlPopBack popAt
  simp only [curkey, hs.curRow]
  cases hf : s.findKey key with
  | none =>
    exact ⟨s, by simp [seqOf_eq_nil hf], hs, update_of_nil (seqOf_eq_nil hf) (by simp [seqOf_eq_nil hf])⟩
  | some r =>
    have hk := hs.kindOf hf
    simp only [Option.map_some']
    cases hm : (positions (s.listRows r.id)).max? with
    | none =>
      have hq : seqOf s key = [] := by
        rw [seqOf_of_kindOf hk, show s.listRows r.id = [] by simpa [positions] using hm]; rfl
      exact ⟨s, by simp [hq], hs, update_of_nil hq (by simp [hq])⟩
    | some p =>
      obtain ⟨hpm, hple⟩ := max?_spec hm
      obtain ⟨w, hw, rfl⟩ := mem_positions.1 hpm
      rcases List.eq_nil_or_concat (sortByPos (s.listRows r.id)) with hL | ⟨L, x, hL⟩
      · exact absurd (mem_sortByPos.2 hw) (by rw [hL]; simp)
      · rw [List.concat_eq_append] at hL
        obtain ⟨hlt, -⟩ := pos_lt_of_split (positions_listRows_nodup s r.id) hL
        have hwx : w.pos = x.pos := by
          have hxw := hple x.pos (mem_positions.2 ⟨x, mem_sortByPos.1 (by rw [hL]; simp), rfl⟩)
          have hwL := mem_sortByPos.2 hw
          rw [hL] at hwL
          rcases List.mem_append.1 hwL with hwL | hwx
          · exact absurd hxw (not_le.2 (hlt w hwL))
          · rw [List.mem_singleton.1 hwx]
        obtain ⟨h1, h2, h3⟩ := delete_at hs hk hL now
        refine ⟨_, ?_, h2, ?_⟩
        · simp only [hwx, h1, seqOf_of_kindOf hk, hL]; simp
        · rw [h3, seqOf_of_kindOf hk, hL]; simp

theorem sqlPopFront_spec (hs : ListInv s) (key : String) (now : Int) :
    ∃ s', sqlPopFront key now s = .ok ((seqOf s key).head?.toList, s') ∧ ListInv s' ∧
      seqOf s' = Function.update (seqOf s) key (seqOf s key).tail := by
  unfold sqlPopFront popAt
  simp only [curkey, hs.curRow]
  cases hf : s.findKey key with
  | none =>
    exact ⟨s, by simp [seqOf_eq_nil hf], hs, update_of_nil (seqOf_eq_nil hf) (by simp [seqOf_eq_nil hf])⟩
  | some r =>
    have hk := hs.kindOf hf
    simp only [Option.map_some']
    cases hm : (positions (s.listRows r.id)).min? with
    | none =>
      have hq : seqOf s key = [] := by
        rw [seqOf_of_kindOf hk, show s.listRows r.id = [] by simpa [positions] using hm]; rfl
      exact ⟨s, by simp [hq], hs, update_of_nil hq (by simp [hq])⟩
    | some p =>
      obtain ⟨hpm, hple⟩ := min?_spec hm
      obtain ⟨w, hw, rfl⟩ := mem_positions.1 hpm
      cases hL : sortByPos (s.listRows r.id) with
      | nil => exact absurd (mem_sortByPos.2 hw) (by rw [hL]; simp)
      | cons x L =>
        have hL' : sortByPos (s.listRows r.id) = [] ++ x :: L := hL
        obtain ⟨-, hlt⟩ := pos_lt_of_split (positions_listRows_nodup s r.id) hL'
        have hwx : w.pos = x.pos := by
          have hxw := hple x.pos (mem_positions.2 ⟨x, mem_sortByPos.1 (by rw [hL]; simp), rfl⟩)
          have hwL := mem_sortByPos.2 hw
          rw [hL] at hwL
          rcases List.mem_cons.1 hwL with rfl | hwL
          · rfl
          · exact absurd hxw (not_le.2 (hlt w hwL))
        obtain ⟨h1, h2, h3⟩ := delete_at hs hk hL' now
        refine ⟨_, ?_, h2, ?_⟩
        · simp only [hwx, h1, seqOf_of_kindOf hk, hL]; simp
        · rw [h3, seqOf_of_kindOf hk, hL]; simp

/-- `sqlSet` at a non-negative index of the order it reads. -/
theorem sqlSet_spec (hs : ListInv s) (key : String) (now : Int) (desc : Bool) {i : Int}
    (hi : 0 ≤ i) (elem : Value) :
    ∃ n s', sqlSet key now desc i elem s = .ok (n, s') ∧ ListInv s' ∧
      seqOf s' = Function.update (seqOf s) key (if desc
        then ((seqOf s key).reverse.set i.toNat elem).reverse
        else (seqOf s key).set i.toNat elem) := by
  unfold sqlSet
  simp only [curkey, hs.curRow, if_neg (not_lt.2 hi)]
  cases hf : s.findKey key with
  | none =>
    exact ⟨0, s, rfl, hs, update_of_nil (seqOf_eq_nil hf) (by cases desc <;> simp [seqOf_eq_nil hf])⟩
  | some r =>
    have hk := hs.kindOf hf
    simp only [Option.map_some']
    cases hget : (ordered (s.listRows r.id) desc)[i.toNat]? with
    | none =>
      have hlen := List.getElem?_eq_none_iff.1 hget
      simp only [ordered] at hlen
      have hlen' : (seqOf s key).length ≤ i.toNat := by
        rw [seqOf_of_kindOf hk, List.length_map]; split at hlen <;> simpa using hlen
      have hr : (seqOf s key).reverse.length ≤ i.toNat := by simpa using hlen'
      refine ⟨0, s, rfl, hs, ?_⟩
      cases desc <;> simp [List.set_eq_of_length_le hlen', List.set_eq_of_length_le hr]
    | some x =>
      obtain ⟨A, B, hAB, hA⟩ := split_of_getElem? hget
      cases desc
      · have hL : sortByPos (s.listRows r.id) = A ++ x :: B := by simpa [ordered] using hAB
        obtain ⟨h1, h2, h3⟩ := update_at hs hk hL elem now
        refine ⟨_, _, rfl, h2, ?_⟩
        rw [h3, seqOf_of_kindOf hk, hL, ← hA]; simp
      · have hL : sortByPos (s.listRows r.id) = B.reverse ++ x :: A.reverse := by
          rw [← List.reverse_reverse (sortByPos _),
            show (sortByPos (s.listRows r.id)).reverse = A ++ x :: B by simpa [ordered] using hAB]
          simp
        obtain ⟨h1, h2, h3⟩ := update_at hs hk hL elem now
        refine ⟨_, _, rfl, h2, ?_⟩
        rw [h3, seqOf_of_kindOf hk, hL, ← hA]; simp

theorem sqlDelete_spec (hs : ListInv s) (key : String) (now : Int) (elem : Value) :
    ∃ n s', sqlDelete key now elem s = .ok (n, s') ∧ ListInv s' ∧
      seqOf s' = Function.update (seqOf s) key ((seqOf s key).filter (· ≠ elem)) := by
  unfold sqlDelete
  simp only [curkey, hs.curRow]
  cases hf : s.findKey key with
  | none => exact ⟨0, s, rfl, hs, update_of_nil (seqOf_eq_nil hf) (by simp [seqOf_eq_nil hf])⟩
  | some r =>
    obtain ⟨h1, h2⟩ := deleteElem hs (hs.kindOf hf) elem now
    exact ⟨_, _, rfl, h1, h2⟩

theorem deleteSome_spec (hs : ListInv s) (desc : Bool) (key : String) (now : Int) (elem : Value)
    (n : Int) :
    ∃ m s', deleteSome desc key now elem (some n) s = .ok (m, s') ∧ ListInv s' ∧
      seqOf s' = Function.update (seqOf s) key (if desc
        then eraseLast elem n.toNat (seqOf s key)
        else eraseFirst elem n.toNat (seqOf s key)) := by
  unfold deleteSome
  simp only [curkey, hs.curRow]
  cases hf : s.findKey key with
  | none =>
    exact ⟨0, s, rfl, hs, update_of_nil (seqOf_eq_nil hf) (by cases desc <;> simp [seqOf_eq_nil hf])⟩
  | some r =>
    obtain ⟨h1, h2⟩ := deleteSome_rows hs (hs.kindOf hf) desc elem n.toNat now
    exact ⟨_, _, rfl, h1, h2⟩

end Statements


/-! ## The methods -/

/-- A method run from `s` leaves a store with `ListInv` holding the sequences `σ`, and
does not fail on `rlist_pk_idx`. -/
structure Meets (x : Tx α) (s : Store) (σ : String → List Value) : Prop where
  inv : ListInv (x.final s)
  seq : seqOf (x.final s) = σ
  no_pk : x.result s ≠ .error (.db (.unique "rlist_pk_idx"))

section Methods
variable {s s' : Store} {σ : String → List Value} {x : Tx α}

theorem Meets.of_ok {a : α} (h : x s = .ok a s') (hi : ListInv s') (hq : seqOf s' = σ) :
    Meets x s σ :=
  ⟨by rwa [Tx.final_of_ok h], by rwa [Tx.final_of_ok h], by simp [Tx.result, h]⟩

theorem Meets.of_error {e : Error} (h : x s = .error e s')
    (he : e ≠ .db (.unique "rlist_pk_idx")) (hi : ListInv s') (hq : seqOf s' = σ) :
    Meets x s σ :=
  ⟨by rwa [Tx.final_of_error h], by rwa [Tx.final_of_error h], by simpa [Tx.result, h] using he⟩

theorem Meets.forget (h : Meets x s σ) : Meets x.forget s σ := by
  refine ⟨by simpa using h.inv, by simpa using h.seq, ?_⟩
  rw [Tx.result_forget]
  have := h.no_pk
  revert this
  cases x.result s <;> simp [Except.map]

variable (d : Dialect)

/-- `Tx.push`, given an insert statement that changes the key's sequence by `op`. -/
theorem push_spec (hs : ListInv s) {key : String} {elem : Value} {ins : Nat → Value → Stmt Unit}
    {f : List Value → List Value}
    (hins : ∀ {t : Store} {id : Nat}, ListInv t → t.kindOf key = some (id, .list) →
      ∃ t', ins id elem t = .ok ((), t') ∧ ListInv t' ∧
        seqOf t' = Function.update (seqOf t) key (f (seqOf t key)))
    (now : Int) :
    ∃ n s', push d ins key elem now s = .ok n s' ∧ ListInv s' ∧
      seqOf s' = Function.update (seqOf s) key (f (seqOf s key)) := by
  obtain ⟨id, n, s1, h1, hi1, hq1, hk1⟩ := sqlPush_spec hs key now
  obtain ⟨s2, h2, hi2, hq2⟩ := hins hi1 hk1
  refine ⟨n, s2, ?_, hi2, by rw [hq2, hq1]⟩
  simp only [push, bind, EStateM.bind, orThrow, h1, h2, pure, EStateM.pure]

/-- `Tx.insert`, given an insert statement that changes the key's sequence by `op`, or
refuses a `NULL` position and changes nothing. -/
theorem insert_spec (hs : ListInv s) {key : String} {pivot elem : Value}
    {ins : Nat → Value → Value → Stmt Unit} {f : List Value → List Value} (hnil : f [] = [])
    (hins : ∀ {t : Store} {id : Nat}, ListInv t → t.kindOf key = some (id, .list) →
      ∃ t', (ins id pivot elem t = .ok ((), t') ∨
          ins id pivot elem t = .error (.notNull "rlist.pos") ∧ t' = t) ∧ ListInv t' ∧
        seqOf t' = Function.update (seqOf t) key (f (seqOf t key)))
    (now : Int) :
    Meets (insert d ins key pivot elem now) s (Function.update (seqOf s) key (f (seqOf s key))) := by
  have h1 : sqlInsert key now s = .ok ((s.findKey key).map fun r => (r.id, r.len.map (· + 1)),
      s.touch (·.selects key .list now) 1 (some now) 1) := by simp [sqlInsert, hs.curRow]
  have hi1 := hs.touch (·.selects key .list now) (some now) 1
  cases hf : s.findKey key with
  | none =>
    refine Meets.of_error (e := .notFound) ?_ (by simp) hi1 ?_
    · simp only [insert, bind, EStateM.bind, orThrow, h1, hf, Option.map_none']
      rfl
    · rw [seqOf_touch, seqOf_eq_nil hf, hnil]; exact update_of_nil (seqOf_eq_nil hf) rfl
  | some r =>
    have hk1 : (s.touch (·.selects key .list now) 1 (some now) 1).kindOf key = some (r.id, .list) := by
      rw [kindOf_touch]; exact hs.kindOf hf
    obtain ⟨n, hn⟩ := Option.isSome_iff_exists.1 (hs.keys r (findKey_eq_some.1 hf).1).2.2
    obtain ⟨t', hres, hi', hq'⟩ := hins hi1 hk1
    rw [seqOf_touch] at hq'
    rcases hres with h2 | ⟨h2, rfl⟩
    · refine Meets.of_ok (a := n + 1) ?_ hi' hq'
      simp only [insert, bind, EStateM.bind, orThrow, h1, hf, hn, Option.map_some', exec, h2]
      rfl
    · refine Meets.of_error (e := if constraintFailed d (.notNull "rlist.pos") "NOT NULL"
        "rlist.pos" then .notFound else typedError d (.notNull "rlist.pos")) ?_ ?_ hi' hq'
      · simp only [insert, bind, EStateM.bind, orThrow, h1, hf, hn, Option.map_some', exec, h2]
        rfl
      · cases d <;> simp [constraintFailed, typedError]

theorem pop_eq {st : Stmt (List Value)} {o : Option Value} (h : st s = .ok (o.toList, s')) :
    pop d st s = o.elim (.error .notFound s') (.ok · s') := by
  cases o <;> simp only [pop, bind, EStateM.bind, orThrow, h, Option.toList] <;> rfl

theorem popBack_spec (hs : ListInv s) (key : String) (now : Int) :
    ∃ s', ListInv s' ∧ seqOf s' = Function.update (seqOf s) key (seqOf s key).dropLast ∧
      popBack d key now s = (seqOf s key).getLast?.elim (.error .notFound s') (.ok · s') := by
  obtain ⟨s', h, hi, hq⟩ := sqlPopBack_spec hs key now
  refine ⟨s', hi, hq, ?_⟩
  rw [popBack, pop_eq d h]

theorem popFront_spec (hs : ListInv s) (key : String) (now : Int) :
    ∃ s', ListInv s' ∧ seqOf s' = Function.update (seqOf s) key (seqOf s key).tail ∧
      popFront d key now s = (seqOf s key).head?.elim (.error .notFound s') (.ok · s') := by
  obtain ⟨s', h, hi, hq⟩ := sqlPopFront_spec hs key now
  refine ⟨s', hi, hq, ?_⟩
  rw [popFront, pop_eq d h]

/-- Every pop meets its operation, whether it finds an element or not. -/
theorem Meets.of_elim {o : Option Value} {y : Tx Value}
    (hy : y s = o.elim (.error .notFound s') (.ok · s')) (hi : ListInv s') (hq : seqOf s' = σ) :
    Meets y s σ := by
  cases o
  · exact Meets.of_error hy (by simp) hi hq
  · exact Meets.of_ok hy hi hq

/-- `Tx.PopBackPushFront`: the last element of `src`, if any, moves to the front of
`dest`. -/
theorem popBackPushFront_spec (hs : ListInv s) (src dest : String) (now : Int) :
    Meets (popBackPushFront d src dest now) s (match (seqOf s src).getLast? with
      | none => seqOf s
      | some e =>
        Function.update (Function.update (seqOf s) src (seqOf s src).dropLast) dest
          (e :: Function.update (seqOf s) src (seqOf s src).dropLast dest)) := by
  obtain ⟨s1, hi1, hq1, h1⟩ := popBack_spec d hs src now
  cases hl : (seqOf s src).getLast? with
  | none =>
    rw [hl] at h1
    refine Meets.of_error (e := .notFound) ?_ (by simp) hi1 ?_
    · simp only [popBackPushFront, bind, EStateM.bind, h1, Option.elim]
    · rw [hq1, List.getLast?_eq_none_iff.1 hl]; exact (update_of_nil (List.getLast?_eq_none_iff.1 hl) rfl).symm
  | some e =>
    rw [hl] at h1
    obtain ⟨n, s2, h2, hi2, hq2⟩ := push_spec d hi1 (fun ht hk => sqlPushFront_spec ht hk e) now
    refine Meets.of_ok (a := e) ?_ hi2 (by rw [hq2, hq1])
    simp only [popBackPushFront, bind, EStateM.bind, h1, Option.elim, pushFront, h2, pure,
      EStateM.pure]

theorem Meets.of_ite {c : Prop} [Decidable c] {y : Tx Unit}
    (hy : y s = if c then .error .notFound s' else .ok () s') (hi : ListInv s') (hq : seqOf s' = σ) :
    Meets y s σ := by
  by_cases h : c
  · rw [if_pos h] at hy; exact Meets.of_error hy (by simp) hi hq
  · rw [if_neg h] at hy; exact Meets.of_ok hy hi hq

/-- `Tx.Set`: `LSET`, an index out of range failing with `ErrNotFound`. -/
theorem set_spec (hs : ListInv s) (key : String) (idx : Int) (elem : Value) (now : Int) :
    Meets (set d key idx elem now) s
      (Function.update (seqOf s) key (setAt (seqOf s key) idx elem)) := by
  by_cases hidx : idx < 0
  · obtain ⟨n, s1, h1, hi1, hq1⟩ :=
      sqlSet_spec hs key now true (show (0 : Int) ≤ -idx - 1 by omega) elem
    rw [if_pos rfl, ← setAt_neg _ hidx] at hq1
    refine Meets.of_ite (c := n = 0) ?_ hi1 hq1
    simp only [set, hidx, if_true, bind, EStateM.bind, orThrow, h1]
    split <;> rfl
  · obtain ⟨n, s1, h1, hi1, hq1⟩ := sqlSet_spec hs key now false (not_lt.1 hidx) elem
    simp only [Bool.false_eq_true, if_false] at hq1
    rw [setAt, if_pos (not_lt.1 hidx)]
    refine Meets.of_ite (c := n = 0) ?_ hi1 hq1
    simp only [set, hidx, if_false, bind, EStateM.bind, orThrow, h1]
    split <;> rfl

/-- `Tx.Delete`: every occurrence of the element goes. -/
theorem delete_spec (hs : ListInv s) (key : String) (elem : Value) (now : Int) :
    Meets (delete key elem now) s
      (Function.update (seqOf s) key ((seqOf s key).filter (· ≠ elem))) :=
  have ⟨n, _, h1, hi1, hq1⟩ := sqlDelete_spec hs key now elem
  Meets.of_ok (a := n) (by simp only [delete, orThrow, h1]) hi1 hq1

/-- `Tx.DeleteFront` and `Tx.DeleteBack`: the first or last `count` occurrences go; a
count that is not positive leaves the statement without its argument, and it fails. -/
theorem deleteWith_spec (hs : ListInv s) (desc : Bool) (key : String) (elem : Value)
    (count : Int) (now : Int) :
    Meets (deleteWith d (deleteSome desc) key elem count now) s
      (Function.update (seqOf s) key (if desc
        then eraseLast elem count.toNat (seqOf s key)
        else eraseFirst elem count.toNat (seqOf s key))) := by
  by_cases hc : 0 < count
  · obtain ⟨m, s1, h1, hi1, hq1⟩ := deleteSome_spec hs desc key now elem count
    exact Meets.of_ok (a := m) (by simp only [deleteWith, if_pos hc, orThrow, h1]) hi1 hq1
  · have h0 : count.toNat = 0 := by omega
    refine Meets.of_error (e := typedError d .bind)
      (by simp only [deleteWith, if_neg hc, orThrow, deleteSome])
      (by cases d <;> simp [typedError, constraintFailed]) hs ?_
    rw [h0]; cases desc <;> simp [eraseFirst, eraseLast]

/-- A method that fails or returns without writing leaves the sequences as they were. -/
theorem Meets.of_read (hs : ListInv s)
    (h : (∃ a, x s = .ok a s) ∨ ∃ e, x s = .error e s ∧ e ≠ .db (.unique "rlist_pk_idx")) :
    Meets x s (seqOf s) := by
  rcases h with ⟨a, h⟩ | ⟨e, h, he⟩
  · exact Meets.of_ok h hs rfl
  · exact Meets.of_error h he hs rfl

theorem get_spec (hs : ListInv s) (key : String) (idx now : Int) :
    Meets (get d key idx now) s (seqOf s) := by
  apply Meets.of_read hs
  have hv : ∀ desc i, (∃ v, exec (sqlGet d key now desc i) s = .ok (.ok v) s) ∨
      ∃ e, exec (sqlGet d key now desc i) s = .ok (.error e) s ∧ (e = .limit ∨ e = .range) :=
    fun desc i => by
      rcases sqlGet_cases d key now desc i s with ⟨v, h⟩ | ⟨e, h, he⟩
      · exact .inl ⟨v, by simp only [exec, h]⟩
      · exact .inr ⟨e, by simp only [exec, h], he⟩
  rcases hv (if idx < 0 then (true, -idx - 1) else (false, idx)).1
    (if idx < 0 then (true, -idx - 1) else (false, idx)).2 with ⟨v, h⟩ | ⟨e, h, he⟩
  · simp only [get, bind, EStateM.bind, h]
    cases v
    · exact .inr ⟨_, rfl, by simp⟩
    · exact .inl ⟨_, rfl⟩
  · simp only [get, bind, EStateM.bind, h]
    exact .inr ⟨_, rfl, by rcases he with rfl | rfl <;> simp⟩

theorem len_spec (hs : ListInv s) (key : String) (now : Int) :
    Meets (len d key now) s (seqOf s) := by
  apply Meets.of_read hs
  obtain ⟨v, h⟩ : ∃ v, orThrow (sqlLen key now) (typedError d) s = .ok v s := ⟨_, rfl⟩
  simp only [len, bind, EStateM.bind, h]
  rcases v with _ | _ | n
  · exact .inl ⟨_, rfl⟩
  · exact .inr ⟨_, rfl, by simp⟩
  · exact .inl ⟨_, rfl⟩

theorem range_spec (hs : ListInv s) (key : String) (start stop now : Int) :
    Meets (range d key start stop now) s (seqOf s) := by
  apply Meets.of_read hs
  unfold range
  split
  · exact .inl ⟨_, rfl⟩
  · rcases sqlRange_cases d key now start stop s with ⟨v, h⟩ | ⟨e, h, he⟩
    · exact .inl ⟨v, orThrow_ok h⟩
    · exact .inr ⟨_, orThrow_error h, typedError_ne_db (by rcases he with rfl | rfl <;> simp)⟩

/-- `Tx.Trim` keeps `ListInv`, on either engine. -/
theorem trim_inv (hs : ListInv s) (key : String) (start stop now : Int) :
    ListInv ((trim d key start stop now).final s) := by
  cases d
  · rcases sqlTrim_cases .sqlite key now start stop s with ⟨n, h⟩ | ⟨n, p, h⟩ | ⟨e, h⟩
    · rwa [Tx.final_of_ok (x := trim .sqlite key start stop now) (orThrow_ok h)]
    · rw [Tx.final_of_ok (x := trim .sqlite key start stop now) (orThrow_ok h)]
      exact hs.deleteList p now
    · rwa [Tx.final_of_error (x := trim .sqlite key start stop now) (orThrow_error h)]
  · rwa [Tx.final_of_error (trim_postgres key start stop now s)]

end Methods

end RList
end Redka
