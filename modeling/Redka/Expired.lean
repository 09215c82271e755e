import Redka.RHash.Refine

/-! # Writes to an expired key

A key whose row has `etime ≤ now` is invisible at `now`: no typed query selects it.  The
upserts of `push` (`sqlPush`) and of the hash writers (`sqlSet1`) conflict on `key` alone,
so they meet the expired row all the same.  A row of another type refuses the write, since
`type` becomes `NULL`; a row of the written type is bumped in place and keeps its `etime`.
The key so stays invisible at `now`, while the new element or field is stored beside the
expired payload (`expired_write_effect`).
-/

namespace Redka
open Store

/-- `key` still names a row with `r`'s id, type and expiry: a write updated `r` in place. -/
def SameRow (s : Store) (key : String) (r : KeyRow) : Prop :=
  ∃ r', s.findKey key = some r' ∧ r'.id = r.id ∧ r'.type = r.type ∧ r'.etime = r.etime

section SameRow
variable {s s' : Store} {key : String} {r : KeyRow}

theorem SameRow.of_findKey (hf : s.findKey key = some r) : SameRow s key r :=
  ⟨r, hf, rfl, rfl, rfl⟩

theorem SameRow.of_same {r' : KeyRow} (h : SameRow s key r') (hi : r'.id = r.id)
    (ht : r'.type = r.type) (he : r'.etime = r.etime) : SameRow s key r :=
  have ⟨r'', hf, hi', ht', he'⟩ := h
  ⟨r'', hf, hi'.trans hi, ht'.trans ht, he'.trans he⟩

theorem SameRow.touch (h : SameRow s key r) (p dv mtime dl) : SameRow (s.touch p dv mtime dl) key r := by
  obtain ⟨r', hf, hi, ht, he⟩ := h
  refine ⟨if p r' then r'.touch dv mtime dl else r', by rw [findKey_touch, hf]; rfl, ?_, ?_, ?_⟩ <;>
    split <;> simp [hi, ht, he]

theorem SameRow.upsertHash (h : SameRow s key r) (kid field value) :
    SameRow (s.upsertHash kid field value) key r := by
  unfold Store.upsertHash
  split
  · exact h
  · exact SameRow.touch h _ _ _ _

theorem SameRow.insertList (h : SameRow s key r) {row : ListRow} (hs : s.insertList row = some s') :
    SameRow s' key r := by
  obtain ⟨r', hf, hr⟩ := h
  exact ⟨r', by rw [← hf]; simp only [findKey, (insertList_eq_some hs).2.1], hr⟩

/-- The row keeps its expiry, so no typed query selects the key while `r` is expired. -/
theorem SameRow.curRow (h : SameRow s key r) {now : Int} (hl : r.live now = false) (t : TypeID) :
    s.curRow key t now = none := by
  obtain ⟨r', hf, -, -, he⟩ := h
  cases hc : s.curRow key t now with
  | none => rfl
  | some r'' =>
    obtain ⟨hf', -, hl'⟩ := curRow_eq_some.1 hc
    rw [hf, Option.some.injEq] at hf'
    subst hf'
    have hlive : r'.live now = r.live now := by unfold KeyRow.live; rw [he]
    rw [hlive, hl] at hl'
    cases hl'

end SameRow

/-! ## The writers on an existing row

The upserts ignore `etime`, so these hold of a live row and of an expired one alike. -/

section Writers
variable (d : Dialect) {s : Store} {key : String}

/-- A push onto a list row bumps the row and adds one row for the element. -/
theorem push_of_row {r : KeyRow} (hf : s.findKey key = some r) {choose : List ℚ → ℚ}
    (hc : ∀ ps, choose ps ∉ ps) (ht : r.type = .list) {n : Int} (hl : r.len = some n) (e : Value)
    (now : Int) :
    ∃ s', RList.push d (RList.pushAt choose) key e now s = .ok (n + 1) s' ∧ SameRow s' key r ∧
      s'.listRows r.id = s.listRows r.id ++ [⟨r.id, choose (RList.positions (s.listRows r.id)), e⟩] := by
  obtain ⟨s', hs', hp⟩ := RList.pushAt_eq hc r.id e (s.touch (·.key = key) 1 (some now) 1)
  refine ⟨s', ?_, ((SameRow.of_findKey hf).touch _ _ _ _).insertList hs', ?_⟩
  · rw [RList.push_eq, show RList.sqlPush key now s = _ from upsertKey_of_same hf ht, hl]
    simp only [Option.map_some', hp]
  · rw [RList.listRows_insertList hs', if_pos rfl]
    simp

theorem listPayload_of_pushBack {s' : Store} {id : Nat} {e : Value}
    (h : s'.listRows id = s.listRows id ++
      [⟨id, (RList.positions (s.listRows id)).max?.elim 0 (· + 1), e⟩]) :
    listPayload s' id = listPayload s id ++ [e] := by
  unfold listPayload
  rw [h, RList.sortByPos_insert (r := ⟨id, (RList.positions (s.listRows id)).max?.elim 0 (· + 1), e⟩)
    (RList.positions_listRows_nodup s id) (List.append_nil _).symm
    (fun a ha => RList.lt_pushBackPos (List.mem_map_of_mem _ (RList.mem_sortByPos.1 ha)))
    (fun _ h => absurd h (List.not_mem_nil _))]
  simp

theorem listPayload_of_pushFront {s' : Store} {id : Nat} {e : Value}
    (h : s'.listRows id = s.listRows id ++
      [⟨id, (RList.positions (s.listRows id)).min?.elim 0 (· - 1), e⟩]) :
    listPayload s' id = e :: listPayload s id := by
  unfold listPayload
  rw [h, RList.sortByPos_insert (r := ⟨id, (RList.positions (s.listRows id)).min?.elim 0 (· - 1), e⟩)
    (RList.positions_listRows_nodup s id) (List.nil_append _).symm
    (fun _ h => absurd h (List.not_mem_nil _))
    (fun b hb => RList.pushFrontPos_lt (List.mem_map_of_mem _ (RList.mem_sortByPos.1 hb)))]
  rfl

/-- `setField` on a hash row bumps the row and sets the field. -/
theorem setField_of_row {r : KeyRow} (hf : s.findKey key = some r) (ht : r.type = .hash)
    (field : String) (value : Value) (now : Int) :
    RHash.setField d key field value now s =
      .ok () ((s.touch (·.key = key) 1 (some now) 0).upsertHash r.id field value) := by
  rw [RHash.setField_eq, upsertKey_of_same hf ht]

theorem hashPayload_of_setField (s : Store) (key : String) (id : Nat) (field : String) (value : Value)
    (now : Int) :
    hashPayload ((s.touch (·.key = key) 1 (some now) 0).upsertHash id field value) id =
      Function.update (hashPayload s id) field (some value) := by
  rw [RHash.hashPayload_upsertHash, (samePayload_touch s _ _ _ _ id).2]

/-- A map from field to value with the entries set one after another. -/
def setAll (σ : String → Option Value) (l : List (String × Value)) : String → Option Value :=
  l.foldl (fun σ e => Function.update σ e.1 (some e.2)) σ

/-- `SetMany`'s loop on a hash row sets each entry in turn. -/
theorem setFields_of_row (key : String) (now : Int) :
    ∀ (l : List (String × Value)) {s : Store} {r : KeyRow}, SameRow s key r → r.type = .hash →
      ∃ s', RHash.setFields d key now l s = .ok () s' ∧ SameRow s' key r ∧
        hashPayload s' r.id = setAll (hashPayload s r.id) l
  | [], s, _, h, _ => ⟨s, rfl, h, rfl⟩
  | (f, v) :: l, s, r, ⟨r', hf, hi, ht', he⟩, ht => by
    have hsame := (((SameRow.of_findKey hf).touch (·.key = key) 1 (some now) 0).upsertHash
      r'.id f v).of_same hi ht' he
    obtain ⟨s', hs', hsame', hp⟩ := setFields_of_row key now l hsame ht
    refine ⟨s', ?_, hsame', ?_⟩
    · rw [RHash.setFields_cons]
      simp only [bind, EStateM.bind, setField_of_row d hf (ht'.trans ht), hs']
    · rw [hp, ← hi, hashPayload_of_setField]; rfl

end Writers

/-! ## Every writer on an expired key -/

section Expired
variable {d : Dialect} {s : Store} {key : String} {r : KeyRow} {now : Int}
  (hf : s.findKey key = some r) (hl : r.live now = false)
include hf hl

theorem pushes_of_expired (ht : r.type = .list) {n : Int} (hn : r.len = some n) (e : Value) :
    (∃ s', RList.pushBack d key e now s = .ok (n + 1) s' ∧ (∀ t, s'.curRow key t now = none) ∧
      SameRow s' key r ∧ listPayload s' r.id = listPayload s r.id ++ [e]) ∧
    (∃ s', RList.pushFront d key e now s = .ok (n + 1) s' ∧ (∀ t, s'.curRow key t now = none) ∧
      SameRow s' key r ∧ listPayload s' r.id = e :: listPayload s r.id) := by
  obtain ⟨sb, hb, hsb, hrb⟩ := push_of_row d hf RList.pushBack_fresh ht hn e now
  obtain ⟨sf, hfr, hsf, hrf⟩ := push_of_row d hf RList.pushFront_fresh ht hn e now
  exact ⟨⟨sb, hb, hsb.curRow hl, hsb, listPayload_of_pushBack hrb⟩,
    ⟨sf, hfr, hsf.curRow hl, hsf, listPayload_of_pushFront hrf⟩⟩

theorem fieldValues_of_expired (field : String) : RHash.fieldValues s key field now = [] := by
  simp only [RHash.fieldValues, RHash.rowsOf_of_curRow ((SameRow.of_findKey hf).curRow hl _),
    List.filter_nil, List.map_nil]

theorem countIn_of_expired (fields : List String) : RHash.countIn s key fields now = 0 := by
  simp only [RHash.countIn, RHash.rowsOf_of_curRow ((SameRow.of_findKey hf).curRow hl _),
    List.filter_nil, List.length_nil]

theorem hashWrites_of_expired (ht : r.type = .hash) (field : String) (value : Value) :
    ∃ s', RHash.setField d key field value now s = .ok () s' ∧
      RHash.set d key field value now s = .ok true s' ∧
      RHash.setNotExists d key field value now s = .ok true s' ∧ (∀ t, s'.curRow key t now = none) ∧
      SameRow s' key r ∧ hashPayload s' r.id = Function.update (hashPayload s r.id) field (some value) := by
  have hw := setField_of_row d hf ht field value now
  have hsame := ((SameRow.of_findKey hf).touch (·.key = key) 1 (some now) 0).upsertHash r.id field value
  refine ⟨_, hw, ?_, ?_, hsame.curRow hl, hsame, hashPayload_of_setField ..⟩
  · rw [RHash.set_eq, countIn_of_expired hf hl]
    simp only [bind, EStateM.bind, hw]; rfl
  · rw [RHash.setNotExists_eq, fieldValues_of_expired hf hl]
    simp only [List.isEmpty_nil, if_true, bind, EStateM.bind, hw]; rfl

theorem setMany_of_expired (ht : r.type = .hash) (m : RHash.Items) :
    ∃ s', RHash.setMany d key m now s = .ok m.entries.length s' ∧ (∀ t, s'.curRow key t now = none) ∧
      SameRow s' key r ∧
      hashPayload s' r.id = setAll (hashPayload s r.id) m.entries := by
  obtain ⟨s', hs', hsame, hp⟩ := setFields_of_row d key now m.entries (SameRow.of_findKey hf) ht
  refine ⟨s', ?_, hsame.curRow hl, hsame, hp⟩
  rw [RHash.setMany_eq, countIn_of_expired hf hl]
  simp only [bind, EStateM.bind, hs', Nat.cast_zero, sub_zero]; rfl

theorem otherWrites_of_expired (ht : r.type ≠ .hash) (field : String) (value : Value) :
    RHash.setField d key field value now s = .error (typedError d (.notNull "rkey.type")) s ∧
      RHash.set d key field value now s = .error (typedError d (.notNull "rkey.type")) s ∧
      RHash.setNotExists d key field value now s = .error (typedError d (.notNull "rkey.type")) s := by
  have hw := RHash.setField_of_other d hf ht field value now
  refine ⟨hw, by simp [RHash.set_eq, bind, EStateM.bind, hw], ?_⟩
  rw [RHash.setNotExists_eq, fieldValues_of_expired hf hl]
  simp [bind, EStateM.bind, hw]

theorem otherSetMany_of_expired (ht : r.type ≠ .hash) (m : RHash.Items) :
    RHash.setMany d key m now s =
      if m.entries = [] then .ok 0 s else .error (typedError d (.notNull "rkey.type")) s := by
  rw [RHash.setMany_eq]
  rcases m with ⟨_ | ⟨⟨f, v⟩, l⟩, hn⟩
  · simp [countIn_of_expired hf hl]; rfl
  · simp [RHash.setFields_cons, bind, EStateM.bind, RHash.setField_of_other d hf ht]

/-- `Incr` reads `nil`, as on an absent field, and writes through `setField`. -/
theorem incr_of_expired (c : Core) (field : String) (delta : Int) :
    RHash.incr d c key field delta now s =
      match c.valueInt [] with
      | none => .error .valueType s
      | some v => (RHash.setField d key field (c.intBytes (RHash.goInt (v + delta))) now >>= fun _ =>
          pure (RHash.goInt (v + delta))) s := by
  rw [RHash.incr, RHash.incrWith_eq, fieldValues_of_expired hf hl, List.headD_nil]
  rcases c.valueInt [] with _ | v <;> rfl

end Expired

/-- The row of a list `k` that expired at 0, with one element and `len = 1`. -/
def staleRow : KeyRow := ⟨1, "k", .list, 1, some 0, 0, some 1⟩

/-- A store holding only the expired list `k = [7]`. -/
def staleList : Store where
  rkey := [staleRow]
  rlist := [⟨1, 0, [7]⟩]
  rhash := []
  serial := 2
  rkey_id := by decide
  rkey_key := by decide
  rkey_serial := by decide
  rlist_pk := by decide
  rhash_pk := by decide
  rhash_rowid := by decide

/-- At 5 the list `k` of `staleList` is expired.  A hash `Set` on it fails with
`ErrKeyType`; a `PushBack` succeeds but returns 2, and afterwards `Len` still reads 0 while
the list's rows hold the expired element before the new one. -/
theorem expired_key_stays_absent :
    (RHash.set .sqlite "k" "f" [1] 5).result staleList = .error .keyType ∧
      (RList.pushBack .sqlite "k" [2] 5).result staleList = .ok 2 ∧
      (RList.len .sqlite "k" 5).result ((RList.pushBack .sqlite "k" [2] 5).final staleList) = .ok 0 ∧
      listPayload ((RList.pushBack .sqlite "k" [2] 5).final staleList) 1 = [[7], [2]] := by
  with_unfolding_all decide

end Redka
