import Redka.RList.Reads

/-! # Ranges and trims

`Tx.Range` and `Tx.Trim` hand their bounds to SQL as `limit (stop - start + 1) offset
start`, a negative bound counted from the key's `len`, and the engine computes them in its
own integers.  With both bounds counted from the front, `start ≤ stop + 1` and a
`stop - start + 1` that fits those integers, the query reads exactly `LRANGE`'s slice, on
either engine (`range_eq_lrange`), and on SQLite `Trim` keeps that slice, as `LTRIM` does, and
returns the number of elements it removed (`trim_eq_ltrim`): the list refinement of
`RList.Refine` then covers `Trim` too.  Past that domain the engines' own rules for a
negative `LIMIT` or `OFFSET` decide what is read: with reversed bounds counted from the
front, SQLite's reading of a negative `LIMIT` as no limit makes `Trim` keep the tail from
`start` on where `LTRIM` empties the list (`trim_reversed_keeps_tail`), and the theorems at
the end of the module show where a negative bound parts from `LRANGE` and `LTRIM`.
-/

namespace Redka
namespace RList
open Store

variable {s : Store}

/-- The rows the range queries read are the key's sequence. -/
theorem curRows_elems (hs : ListInv s) (key : String) (now : Int) :
    (curRows s key now).map (·.elem) = seqOf s key := by
  rw [curRows, hs.curRow]
  cases hf : s.findKey key with
  | none => rw [seqOf_eq_nil hf]; rfl
  | some r => rw [seqOf_of_kindOf (hs.kindOf hf)]; rfl

/-- **`Tx.Range` is `LRANGE`** on every list store, for bounds counted from the front
with `start ≤ stop + 1`, on either engine, where `stop` and `stop - start + 1` are integers
of the engine's. -/
theorem range_eq_lrange (d : Dialect) (hs : ListInv s) (key : String) {start stop : Int}
    (h0 : 0 ≤ start) (h1 : 0 ≤ stop) (h2 : start ≤ stop + 1) (hw : stop ≤ d.maxInt)
    (hn : stop - start + 1 ≤ d.maxInt) (now : Int) :
    range d key start stop now s = .ok (lrange (seqOf s key) start stop) s := by
  rw [lrange_of_nonneg _ h0 h1 h2]
  unfold range
  split
  · rw [show (stop - start + 1).toNat = 0 by omega, List.take_zero]; rfl
  · rename_i hq
    have h3 := d.one_le_maxInt
    apply orThrow_ok
    simp only [sqlRange, window_of_nonneg (Dialect.param_of_le (by omega) (by omega))
      (Dialect.param_of_le (by omega) hw) h0 h1 (rangeLength_of_le (by omega) hn),
      applyLimit_nonneg d (by omega : 0 ≤ stop - start + 1) h0, List.map_take, List.map_drop,
      curRows_elems hs]

/-- `range_eq_lrange` after the three pushes, for the bounds `(0, 1)`. -/
theorem range_eq_lrange_three :
    ListInv threePushes ∧ (0 : Int) ≤ 0 ∧ (0 : Int) ≤ 1 ∧ (0 : Int) ≤ 1 + 1 ∧
      (1 : Int) ≤ Dialect.sqlite.maxInt ∧ (1 : Int) - 0 + 1 ≤ Dialect.sqlite.maxInt ∧
      range .sqlite "k" 0 1 0 threePushes = .ok (lrange (seqOf threePushes "k") 0 1) threePushes :=
  have hs := ListInv.of_reachable
    (@runList_reachable .sqlite ⟨fun _ => none, fun _ => none, fun _ => [], fun _ => []⟩ _ _ .empty)
  ⟨hs, by decide, by decide, by decide, by decide, by decide,
    range_eq_lrange .sqlite hs "k" (by decide) (by decide) (by decide) (by decide) (by decide) 0⟩

/-- At `(0, 2^63 - 1)`, `stop - start + 1` leaves SQLite's integers and the query fails. -/
example : (range .sqlite "k" 0 (2 ^ 63 - 1) 0).result threePushes = .error (.db .limit) := by
  with_unfolding_all decide

/-! ## `Tx.Trim` on SQLite -/

/-- In rows of distinct slots, the rows whose slot is among those of an infix are the
infix. -/
theorem filter_slot_infix {A M B : List ListRow} (hn : ((A ++ M ++ B).map ListRow.slot).Nodup) :
    (A ++ M ++ B).filter (fun x => x.slot ∈ M.map ListRow.slot) = M := by
  rw [List.map_append, List.map_append] at hn
  obtain ⟨hAM, -, hdB⟩ := List.nodup_append.1 hn
  obtain ⟨-, -, hdA⟩ := List.nodup_append.1 hAM
  rw [List.filter_append, List.filter_append,
    List.filter_eq_nil_iff.2 fun x hx hm => hdA (List.mem_map_of_mem _ hx) (of_decide_eq_true hm),
    List.filter_eq_self.2 fun x hx => decide_eq_true (List.mem_map_of_mem _ hx),
    List.filter_eq_nil_iff.2 fun x hx hm => hdB (List.mem_append_right _ (of_decide_eq_true hm))
      (List.mem_map_of_mem _ hx)]
  simp

/-- SQLite's `limit l offset o` reads an infix of the rows. -/
theorem applyLimit_sqlite_infix {α : Type} (l o : Int) (rows : List α) :
    ∃ rest A B, applyLimit .sqlite (some l) (some o) rows = .ok rest ∧ rows = A ++ rest ++ B := by
  refine ⟨_, rows.take o.toNat, if l < 0 then [] else (rows.drop o.toNat).drop l.toNat, rfl, ?_⟩
  by_cases hl : l < 0 <;> simp [hl]

theorem applyLimit_map {α β : Type} (f : α → β) (d : Dialect) (l o : Option Int) (rows : List α) :
    applyLimit d l o (rows.map f) = (applyLimit d l o rows).map (List.map f) := by
  unfold applyLimit
  split
  · split <;> simp [List.map_drop, List.map_take, Except.map]
  · rfl
  · split
    · rfl
    · split <;> simp [List.map_drop, List.map_take, Except.map]

/-- **Keeping an infix.**  Deleting the rows of list `key` whose slots are not those of an
infix of its reading order leaves the infix as the key's sequence. -/
theorem seqOf_deleteList_infix {key : String} {id : Nat} (hk : s.kindOf key = some (id, .list))
    {A M B : List ListRow} (hAB : sortByPos (s.listRows id) = A ++ M ++ B) (now : Int) :
    seqOf (s.deleteList (fun x => x.kid = id && x.slot ∉ M.map ListRow.slot) now) =
      Function.update (seqOf s) key (M.map (·.elem)) := by
  rw [seqOf_update (deleteList_kindOf s _ now) hk fun j hj => by
      rw [listRows_deleteList]
      exact List.filter_eq_self.2 fun y hy => by simp [kid_of_mem_listRows hy, hj],
    listRows_deleteList, sortByPos_filter (positions_listRows_nodup s id)]
  have hfilter : (sortByPos (s.listRows id)).filter
      (fun x => !(x.kid = id && x.slot ∉ M.map ListRow.slot)) =
      (sortByPos (s.listRows id)).filter (fun x => x.slot ∈ M.map ListRow.slot) :=
    List.filter_congr fun y hy => by
      simp only [kid_of_mem_listRows (mem_sortByPos.1 hy), decide_True, Bool.true_and, decide_not,
        Bool.not_not]
  rw [hfilter, hAB, filter_slot_infix (hAB ▸ slots_nodup s id)]

/-- **`Tx.Trim` on SQLite**, with both bounds counted from the front: the elements the engine's
`limit (stop - start + 1) offset start` reads stay, the others go, and their number is
returned. -/
theorem trim_sqlite (hs : ListInv s) (key : String) {start stop : Int} (h0 : 0 ≤ start)
    (h1 : 0 ≤ stop) {l : Int} (hl : rangeLength .sqlite start stop = .ok l) (now : Int) :
    ∃ kept s', applyLimit .sqlite (some l) (some start) (seqOf s key) = .ok kept ∧
      trim .sqlite key start stop now s = .ok ((seqOf s key).length - kept.length) s' ∧
      ListInv s' ∧ seqOf s' = Function.update (seqOf s) key kept := by
  cases hf : s.findKey key with
  | none =>
    have h := seqOf_eq_nil hf
    exact ⟨[], s, by simp [h, applyLimit], by simp [trim, orThrow, sqlTrim, hs.curRow, hf, h], hs,
      update_of_nil h rfl⟩
  | some r =>
    have hk := hs.kindOf hf
    obtain ⟨remain, A, B, hL, hAB⟩ :=
      applyLimit_sqlite_infix l start (sortByPos (s.listRows r.id))
    have hq := seqOf_deleteList_infix hk hAB now
    have hd := length_filter_of_deleteList hk
      (fun x _ (hx : (x.kid = r.id && x.slot ∉ remain.map ListRow.slot) = true) => by
        simp at hx; exact hx.1) now
    rw [hq, Function.update_same] at hd
    refine ⟨remain.map (·.elem), _, by rw [seqOf_of_kindOf hk, applyLimit_map, hL]; rfl, ?_,
      hs.deleteList _ now, hq⟩
    cases hrows : s.listRows r.id with
    | nil =>
      have hnil : s.rlist.filter (fun x => x.kid = r.id && x.slot ∉ remain.map ListRow.slot) = [] :=
        List.filter_eq_nil_iff.2 fun x hx hx' => by
          simp only [Bool.and_eq_true, decide_eq_true_eq] at hx'
          have hm : x ∈ s.listRows r.id := List.mem_filter.2 ⟨hx, by simp [hx'.1]⟩
          simp [hrows] at hm
      simp only [hnil, List.length_nil, List.length_map, Nat.zero_add] at hd
      rw [deleteList_of_nil hnil now]
      simp [trim, orThrow, sqlTrim, hs.curRow, hf, hrows]
      omega
    | cons x xs =>
      rw [hrows] at hL
      simp only [trim, orThrow, sqlTrim, hs.curRow, hf, hrows,
        window_of_nonneg (d := .sqlite) rfl rfl h0 h1 hl, hL]
      congr 1
      omega

/-- **`Tx.Trim` is `LTRIM` on SQLite**, for bounds counted from the front with
`start ≤ stop + 1` and a `stop - start + 1` below `2^63`: on every store the list repository
reaches, the key keeps `LRANGE`'s slice, as `LTRIM` leaves it, and the call returns the
number of elements it removed. -/
theorem trim_eq_ltrim {core : Core} {s : Store} (hr : Reachable .sqlite core Call.IsList s)
    (key : String) {start stop : Int} (h0 : 0 ≤ start) (h1 : 0 ≤ stop) (h2 : start ≤ stop + 1)
    (hn : stop - start + 1 < 2 ^ 63) (now : Int) :
    (trim .sqlite key start stop now).result s =
        .ok ((seqOf s key).length - (lrange (seqOf s key) start stop).length) ∧
      seqOf ((trim .sqlite key start stop now).final s) =
        (ListCall.trim key start stop).absStep (seqOf s) := by
  obtain ⟨kept, s', hk, ht, -, hq⟩ := trim_sqlite (ListInv.of_reachable hr) key h0 h1
    (rangeLength_of_le (by simp only [Dialect.maxInt]; omega) (by simp only [Dialect.maxInt]; omega))
    now
  have hkept : kept = lrange (seqOf s key) start stop := by
    rw [lrange_of_nonneg _ h0 h1 h2]
    simp only [applyLimit, show ¬stop - start + 1 < 0 by omega, if_false, Except.ok.injEq] at hk
    exact hk.symm
  subst hkept
  rw [Tx.result, Tx.final, ht]
  exact ⟨rfl, hq⟩

theorem trim_eq_ltrim_threePushes :
    Reachable .sqlite ⟨fun _ => none, fun _ => none, fun _ => [], fun _ => []⟩ Call.IsList threePushes ∧
      (0 : Int) ≤ 0 ∧ (0 : Int) ≤ 1 ∧ (0 : Int) ≤ 1 + 1 ∧ (1 : Int) - 0 + 1 < 2 ^ 63 ∧
      (trim .sqlite "k" 0 1 0).result threePushes =
        .ok ((seqOf threePushes "k").length - (lrange (seqOf threePushes "k") 0 1).length) ∧
      seqOf ((trim .sqlite "k" 0 1 0).final threePushes) =
        (ListCall.trim "k" 0 1).absStep (seqOf threePushes) :=
  have hr : Reachable .sqlite ⟨fun _ => none, fun _ => none, fun _ => [], fun _ => []⟩ Call.IsList
      threePushes := runList_reachable _ _ .empty
  ⟨hr, le_rfl, by decide, by decide, by decide,
    trim_eq_ltrim hr "k" le_rfl (by decide) (by decide) (by decide) 0⟩

/-- **Reversed bounds.**  With `0 ≤ stop` and `stop + 1 < start`, `stop - start + 1` is a
negative `LIMIT`, which SQLite reads as no limit: on every store the list repository
reaches, the elements from `start` on stay, where `LTRIM` empties the list. -/
theorem trim_reversed_keeps_tail {core : Core} {s : Store} (hr : Reachable .sqlite core Call.IsList s)
    (key : String) {start stop : Int} (h1 : 0 ≤ stop) (h2 : stop + 1 < start) (now : Int) :
    seqOf ((trim .sqlite key start stop now).final s) key = (seqOf s key).drop start.toNat ∧
      lrange (seqOf s key) start stop = [] := by
  obtain ⟨kept, s', hk, ht, -, hq⟩ := trim_sqlite (ListInv.of_reachable hr) key
    (show 0 ≤ start by omega) h1 (rangeLength_sqlite_of_lt h1 (by omega)) now
  simp only [applyLimit, show stop - start + 1 < 0 by omega, if_true, Except.ok.injEq] at hk
  refine ⟨by rw [Tx.final, ht, hq, Function.update_same, hk], ?_⟩
  simp only [lrange, not_lt.2 h1, not_lt.2 (show (0 : Int) ≤ start by omega), if_false,
    max_eq_left (show (0 : Int) ≤ start by omega)]
  exact if_pos (.inl (by omega))

theorem trim_reversed_keeps_tail_threePushes :
    Reachable .sqlite ⟨fun _ => none, fun _ => none, fun _ => [], fun _ => []⟩ Call.IsList threePushes ∧
      (0 : Int) ≤ 0 ∧ (0 : Int) + 1 < 2 ∧
      seqOf ((trim .sqlite "k" 2 0 0).final threePushes) "k" = (seqOf threePushes "k").drop (2 : Int).toNat ∧
      lrange (seqOf threePushes "k") 2 0 = [] :=
  have hr : Reachable .sqlite ⟨fun _ => none, fun _ => none, fun _ => [], fun _ => []⟩ Call.IsList
      threePushes := runList_reachable _ _ .empty
  ⟨hr, le_rfl, by decide, trim_reversed_keeps_tail hr "k" le_rfl (by decide) 0⟩

/-- `LTRIM k 2 0` after the three pushes keeps the third element. -/
example : seqOf ((trim .sqlite "k" 2 0 0).final threePushes) "k" = [[1]] := by
  with_unfolding_all decide

/-- Five pushes, then `Range(-10, 1)`.  The lower bound resolves to `-5` and becomes a
negative `OFFSET`: SQLite reads it as zero and returns all five elements, PostgreSQL
refuses it; `LRANGE` gives the first two. -/
theorem range_negative_start :
    (range .sqlite "k" (-10) 1 0).result (runList .sqlite Store.empty
        [(.pushBack "k" [1], 0), (.pushBack "k" [2], 0), (.pushBack "k" [3], 0),
          (.pushBack "k" [4], 0), (.pushBack "k" [5], 0)]) = .ok [[1], [2], [3], [4], [5]] ∧
      (range .postgres "k" (-10) 1 0).result (runList .postgres Store.empty
        [(.pushBack "k" [1], 0), (.pushBack "k" [2], 0), (.pushBack "k" [3], 0),
          (.pushBack "k" [4], 0), (.pushBack "k" [5], 0)]) = .error (.db .limit) ∧
      lrange (seqOf (runList .sqlite Store.empty
        [(.pushBack "k" [1], 0), (.pushBack "k" [2], 0), (.pushBack "k" [3], 0),
          (.pushBack "k" [4], 0), (.pushBack "k" [5], 0)]) "k") (-10) 1 = [[1], [2]] := by
  with_unfolding_all decide

/-- Five pushes, then `Trim(-10, 1)`.  SQLite's `remain` reads the negative `OFFSET` as
zero and keeps every row: the call deletes nothing and returns 0, where `LTRIM` keeps the
first two elements and removes three.  PostgreSQL refuses the statement
(`sqlTrimPostgres`). -/
theorem trim_negative_start :
    (trim .sqlite "k" (-10) 1 0).result (runList .sqlite Store.empty
        [(.pushBack "k" [1], 0), (.pushBack "k" [2], 0), (.pushBack "k" [3], 0),
          (.pushBack "k" [4], 0), (.pushBack "k" [5], 0)]) = .ok 0 ∧
      seqOf ((trim .sqlite "k" (-10) 1 0).final (runList .sqlite Store.empty
        [(.pushBack "k" [1], 0), (.pushBack "k" [2], 0), (.pushBack "k" [3], 0),
          (.pushBack "k" [4], 0), (.pushBack "k" [5], 0)])) "k" = [[1], [2], [3], [4], [5]] ∧
      (trim .postgres "k" (-10) 1 0).result (runList .postgres Store.empty
        [(.pushBack "k" [1], 0), (.pushBack "k" [2], 0), (.pushBack "k" [3], 0),
          (.pushBack "k" [4], 0), (.pushBack "k" [5], 0)]) = .error (.db .parse) ∧
      lrange (seqOf (runList .sqlite Store.empty
        [(.pushBack "k" [1], 0), (.pushBack "k" [2], 0), (.pushBack "k" [3], 0),
          (.pushBack "k" [4], 0), (.pushBack "k" [5], 0)]) "k") (-10) 1 = [[1], [2]] := by
  refine ⟨by with_unfolding_all decide, by with_unfolding_all decide, ?_, by with_unfolding_all decide⟩
  rw [Tx.result, trim_postgres]
  rfl

end RList
end Redka
