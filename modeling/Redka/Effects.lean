import Redka.RList.Seq

/-! # What a call may do to the keys it finds

Every writer of the list and hash repositories changes `rkey` in one of two ways: it
inserts a fresh key row, or it touches rows (`update rkey set version = version + 1,
...`), from Go or from a trigger.  So a call keeps every row it finds, with its id, key
and type, and never lowers its version.  The version is the optimistic-locking counter
of the outer layer: whenever a call changes the payload of a key (the elements of a
list in `order by pos`, or the value of each field of a hash), the key's version must
grow.  `Evolves s s'` says both, and it composes (`Evolves.trans`).

A statement alone need not evolve: an insert into `rlist` changes a payload without a
touch.  The writers pair such a statement with a touch of the same key, before it
(`sqlPush`, `sqlInsert`, `sqlSet1`) or after it (`sqlDelete2`), or have it fire a
trigger that touches the key (`rlist_on_delete`, `rlist_on_update`).  `Evolves.of_bump`
is the pairing: a touch that raises the version of key `id` and a change of no payload
but `id`'s.

The second half of the module is the invariant of stores reached by list and hash calls
together (`Inv`): every key row never expires and has a length, every typed row belongs
to a key of its own type, and a hash key's `len` counts its fields.  A list key's `len`
is not in it: `Tx.insert` breaks it (the trace at the end of `RList.Refine`).
-/

namespace Redka
open Store RList

/-- The elements of list `id`, in `order by pos`. -/
def listPayload (s : Store) (id : Nat) : List Value := (sortByPos (s.listRows id)).map (·.elem)

/-- The value of each field of hash `id`. -/
def hashPayload (s : Store) (id : Nat) (field : String) : Option Value :=
  ((s.hashRows id).find? (·.field = field)).map (·.value)

/-- `s'` holds the payloads of `s` at key id `id`. -/
def SamePayload (s s' : Store) (id : Nat) : Prop :=
  listPayload s' id = listPayload s id ∧ hashPayload s' id = hashPayload s id

/-- What a call may do to the key rows it finds: keep each with its id, key and type,
never lower its version, and raise the version of every key whose payload changes. -/
structure Evolves (s s' : Store) : Prop where
  kept : ∀ r ∈ s.rkey, ∃ r' ∈ s'.rkey,
    r'.id = r.id ∧ r'.key = r.key ∧ r'.type = r.type ∧ r.version ≤ r'.version
  bumped : ∀ r ∈ s.rkey, ¬SamePayload s s' r.id → ∃ r' ∈ s'.rkey, r'.id = r.id ∧ r.version < r'.version

section Evolves
variable {s s' s'' : Store}

theorem SamePayload.trans {id : Nat} (h : SamePayload s s' id) (h' : SamePayload s' s'' id) :
    SamePayload s s'' id :=
  ⟨h'.1.trans h.1, h'.2.trans h.2⟩

theorem Evolves.refl (s : Store) : Evolves s s :=
  ⟨fun r hr => ⟨r, hr, rfl, rfl, rfl, le_rfl⟩, fun _ _ h => absurd ⟨rfl, rfl⟩ h⟩

theorem Evolves.trans (h : Evolves s s') (h' : Evolves s' s'') : Evolves s s'' where
  kept r hr :=
    have ⟨r1, hr1, hi1, hk1, ht1, hv1⟩ := h.kept r hr
    have ⟨r2, hr2, hi2, hk2, ht2, hv2⟩ := h'.kept r1 hr1
    ⟨r2, hr2, hi2.trans hi1, hk2.trans hk1, ht2.trans ht1, hv1.trans hv2⟩
  bumped r hr hp := by
    by_cases h1 : SamePayload s s' r.id
    · obtain ⟨r1, hr1, hi1, -, -, hv1⟩ := h.kept r hr
      obtain ⟨r2, hr2, hi2, hv2⟩ := h'.bumped r1 hr1 fun h2 => hp (h1.trans (hi1 ▸ h2))
      exact ⟨r2, hr2, hi2.trans hi1, lt_of_le_of_lt hv1 hv2⟩
    · obtain ⟨r1, hr1, hi1, hv1⟩ := h.bumped r hr h1
      obtain ⟨r2, hr2, hi2, -, -, hv2⟩ := h'.kept r1 hr1
      exact ⟨r2, hr2, hi2.trans hi1, lt_of_lt_of_le hv1 hv2⟩

/-- The shape of every write to `rkey`: touched rows, then fresh ones; a key whose
payload changes must have been touched with a new version. -/
theorem Evolves.of_touch {g : KeyRow → KeyRow} (hg : IsTouch g) {extra : List KeyRow}
    (hk : s'.rkey = s.rkey.map g ++ extra)
    (hb : ∀ r ∈ s.rkey, ¬SamePayload s s' r.id → r.version < (g r).version) : Evolves s s' where
  kept r hr := ⟨g r, by rw [hk]; exact List.mem_append_left _ (List.mem_map_of_mem g hr),
    hg.id r, hg.key r, hg.type r, hg.version r⟩
  bumped r hr hp := ⟨g r, by rw [hk]; exact List.mem_append_left _ (List.mem_map_of_mem g hr),
    hg.id r, hb r hr hp⟩

/-- A touch that raises the version of key `id`, with a change of no payload but `id`'s. -/
theorem Evolves.of_bump {g : KeyRow → KeyRow} (hg : IsTouch g) {extra : List KeyRow}
    (hk : s'.rkey = s.rkey.map g ++ extra) {id : Nat}
    (hid : ∀ r ∈ s.rkey, r.id = id → r.version < (g r).version)
    (hp : ∀ j ≠ id, SamePayload s s' j) : Evolves s s' :=
  Evolves.of_touch hg hk fun r hr h => hid r hr (by_contra fun hne => h (hp _ hne))

/-- Rows untouched and payloads kept. -/
theorem Evolves.of_rows {g : KeyRow → KeyRow} (hg : IsTouch g) {extra : List KeyRow}
    (hk : s'.rkey = s.rkey.map g ++ extra) (hp : ∀ j, SamePayload s s' j) : Evolves s s' :=
  Evolves.of_touch hg hk fun _ _ h => absurd (hp _) h

end Evolves

/-! ## Payloads under the table operations -/

section Payloads
variable {s s' : Store}

theorem kid_of_mem_hashRows {kid : Nat} {r : HashRow} (h : r ∈ s.hashRows kid) : r.kid = kid := by
  simpa using (List.mem_filter.1 h).2

@[simp] theorem hashRows_touch (s : Store) (p dv mtime dl j) :
    (s.touch p dv mtime dl).hashRows j = s.hashRows j := rfl

@[simp] theorem hashRows_insertKey (s : Store) (key type mtime len h j) :
    (s.insertKey key type mtime len h).hashRows j = s.hashRows j := rfl

@[simp] theorem hashRows_deleteList (s : Store) (p now j) :
    (s.deleteList p now).hashRows j = s.hashRows j := by
  simp only [hashRows, deleteList_rhash]

@[simp] theorem hashRows_updateList (s : Store) (p e now j) :
    (s.updateList p e now).hashRows j = s.hashRows j := by
  simp only [hashRows, updateList_rhash]

@[simp] theorem hashRows_deleteHash (s : Store) (p j) :
    (s.deleteHash p).hashRows j = (s.hashRows j).filter fun r => !p r := by
  simp only [hashRows, deleteHash_rhash, List.filter_filter, Bool.and_comm]

/-- `upsertHash` on a field the hash has: the value is replaced in place. -/
theorem upsertHash_of_mem {kid : Nat} {field : String} (h : (kid, field) ∈ s.rhash.map HashRow.slot)
    (value : Value) :
    (s.upsertHash kid field value).rkey = s.rkey ∧ (s.upsertHash kid field value).rlist = s.rlist ∧
      ∀ j, (s.upsertHash kid field value).hashRows j = (s.hashRows j).map fun r =>
        if r.slot = (kid, field) then { r with value := value } else r := by
  unfold upsertHash
  rw [dif_pos h]
  refine ⟨rfl, rfl, fun j => ?_⟩
  have hk : ∀ r : HashRow, (if r.slot = (kid, field) then { r with value := value } else r).kid =
      r.kid := fun r => by split <;> rfl
  simp only [hashRows]
  rw [List.filter_map, List.filter_congr (q := fun x => decide (x.kid = j))
    fun r _ => by simp only [Function.comp, hk]]

/-- `upsertHash` on a new field: a row is appended, and its trigger counts it into the
key's `len`. -/
theorem upsertHash_of_not_mem {kid : Nat} {field : String}
    (h : (kid, field) ∉ s.rhash.map HashRow.slot) (value : Value) :
    (s.upsertHash kid field value).rkey =
        s.rkey.map (fun r => if r.id = kid then r.touch 0 none 1 else r) ∧
      (s.upsertHash kid field value).rlist = s.rlist ∧
      ∀ j, (s.upsertHash kid field value).hashRows j =
        s.hashRows j ++ if kid = j then [⟨s.nextRowid, kid, field, value⟩] else [] := by
  unfold upsertHash
  rw [dif_neg h]
  refine ⟨by simp, rfl, fun j => ?_⟩
  simp only [hashRows, touch_rhash, List.filter_append, List.filter_cons, List.filter_nil,
    decide_eq_true_eq]

theorem hashRows_upsertHash_ne (s : Store) {kid j : Nat} (h : j ≠ kid) (field value) :
    (s.upsertHash kid field value).hashRows j = s.hashRows j := by
  by_cases hin : (kid, field) ∈ s.rhash.map HashRow.slot
  · rw [(upsertHash_of_mem hin value).2.2]
    conv_rhs => rw [← List.map_id (s.hashRows j)]
    refine List.map_congr_left fun r hr => ?_
    simp [HashRow.slot, kid_of_mem_hashRows hr, h]
  · rw [(upsertHash_of_not_mem hin value).2.2, if_neg (Ne.symm h), List.append_nil]

theorem listPayload_congr {t : Store} {j : Nat} (h : t.listRows j = s.listRows j) :
    listPayload t j = listPayload s j := by
  unfold listPayload; rw [h]

theorem hashPayload_congr {t : Store} {j : Nat} (h : t.hashRows j = s.hashRows j) :
    hashPayload t j = hashPayload s j := by
  unfold hashPayload; rw [h]

theorem samePayload_touch (s : Store) (p dv mtime dl j) : SamePayload s (s.touch p dv mtime dl) j :=
  ⟨rfl, rfl⟩

theorem samePayload_insertKey (s : Store) (key type mtime len h j) :
    SamePayload s (s.insertKey key type mtime len h) j :=
  ⟨rfl, rfl⟩

theorem samePayload_insertList {row : ListRow} (h : s.insertList row = some s') {j : Nat}
    (hj : j ≠ row.kid) : SamePayload s s' j :=
  ⟨listPayload_congr (by rw [listRows_insertList h, if_neg (Ne.symm hj), List.append_nil]),
    hashPayload_congr (by simp only [hashRows, (insertList_eq_some h).2.2.1])⟩

theorem samePayload_deleteList {p : ListRow → Bool} {j : Nat} (h : ∀ x ∈ s.listRows j, p x = false)
    (now : Int) : SamePayload s (s.deleteList p now) j :=
  ⟨listPayload_congr (by
    rw [listRows_deleteList, List.filter_eq_self.2 fun x hx => by simp [h x hx]]),
    hashPayload_congr (hashRows_deleteList ..)⟩

theorem samePayload_updateList {p : ListRow → Bool} {j : Nat} (h : ∀ x ∈ s.listRows j, p x = false)
    (e : Value) (now : Int) : SamePayload s (s.updateList p e now) j := by
  refine ⟨listPayload_congr ?_, hashPayload_congr (hashRows_updateList ..)⟩
  rw [listRows_updateList]
  conv_rhs => rw [← List.map_id (s.listRows j)]
  exact List.map_congr_left fun x hx => by simp [h x hx]

theorem samePayload_deleteHash {p : HashRow → Bool} {j : Nat} (h : ∀ x ∈ s.hashRows j, p x = false) :
    SamePayload s (s.deleteHash p) j :=
  ⟨rfl, hashPayload_congr (by
    rw [hashRows_deleteHash, List.filter_eq_self.2 fun x hx => by simp [h x hx]])⟩

theorem samePayload_upsertHash {kid j : Nat} (hj : j ≠ kid) (field value) :
    SamePayload s (s.upsertHash kid field value) j := by
  refine ⟨listPayload_congr ?_, hashPayload_congr (hashRows_upsertHash_ne s hj _ _)⟩
  by_cases hin : (kid, field) ∈ s.rhash.map HashRow.slot
  · simp only [listRows, (upsertHash_of_mem hin value).2.1]
  · simp only [listRows, (upsertHash_of_not_mem hin value).2.1]

end Payloads

/-! ## The table operations evolve -/

section Tables
variable {s : Store}

theorem evolves_touch (s : Store) (p) {dv : Int} (hdv : 0 ≤ dv) (mtime dl) :
    Evolves s (s.touch p dv mtime dl) :=
  Evolves.of_rows (isTouch_touch p hdv mtime dl) (List.append_nil _).symm (samePayload_touch s p dv mtime dl)

/-- What the triggers of the rows `l` do to `rkey`, each touching the key of its row with
a new version: the rows of those keys get a new version, the others stay. -/
theorem foldl_trigger_rkey {f : Store → ListRow → Store}
    (hf : ∀ t x, ∃ g, IsTouch g ∧ (f t x).rkey = t.rkey.map g ∧
      (∀ r : KeyRow, r.id = x.kid → r.version < (g r).version) ∧ ∀ r : KeyRow, r.id ≠ x.kid → g r = r) :
    ∀ (l : List ListRow) (t : Store), ∃ g, IsTouch g ∧ (l.foldl f t).rkey = t.rkey.map g ∧
      (∀ r : KeyRow, (∃ x ∈ l, x.kid = r.id) → r.version < (g r).version) ∧
      ∀ r : KeyRow, (∀ x ∈ l, x.kid ≠ r.id) → g r = r
  | [], _ => ⟨_, IsTouch.refl, (List.map_id' _).symm, fun _ ⟨_, h, _⟩ => absurd h (List.not_mem_nil _),
      fun _ _ => rfl⟩
  | x :: l, t =>
    have ⟨g, hg, hk, hlt, heq⟩ := hf t x
    have ⟨g', hg', hk', hlt', heq'⟩ := foldl_trigger_rkey hf l (f t x)
    ⟨g' ∘ g, hg'.comp hg, by rw [List.foldl_cons, hk', hk, List.map_map],
      fun r ⟨y, hy, he⟩ => by
        rcases List.mem_cons.1 hy with rfl | hy
        · exact lt_of_lt_of_le (hlt r he.symm) (hg'.version _)
        · exact lt_of_le_of_lt (hg.version r) (hlt' (g r) ⟨y, hy, he.trans (hg.id r).symm⟩),
      fun r hr => by
        simp only [Function.comp, heq r (fun h => hr x (List.mem_cons_self _ _) h.symm),
          heq' r fun y hy => hr y (List.mem_cons_of_mem _ hy)]⟩

theorem rlistTrigger_rkey (now dl : Int) (t : Store) (x : ListRow) :
    ∃ g, IsTouch g ∧ (t.touch (·.id = x.kid) 1 (some now) dl).rkey = t.rkey.map g ∧
      (∀ r : KeyRow, r.id = x.kid → r.version < (g r).version) ∧ ∀ r : KeyRow, r.id ≠ x.kid → g r = r :=
  ⟨_, isTouch_touch _ Int.one_nonneg _ _, rfl, fun r h => by simp [h, KeyRow.touch],
    fun r h => by simp [h]⟩

theorem deleteList_trigger (s : Store) (p now) :
    ∃ g, IsTouch g ∧ (s.deleteList p now).rkey = s.rkey.map g ∧
      (∀ r : KeyRow, (∃ x ∈ s.rlist.filter p, x.kid = r.id) → r.version < (g r).version) ∧
      ∀ r : KeyRow, (∀ x ∈ s.rlist.filter p, x.kid ≠ r.id) → g r = r :=
  foldl_trigger_rkey (rlistTrigger_rkey now (-1)) _ _

theorem updateList_trigger (s : Store) (p e now) :
    ∃ g, IsTouch g ∧ (s.updateList p e now).rkey = s.rkey.map g ∧
      (∀ r : KeyRow, (∃ x ∈ s.rlist.filter p, x.kid = r.id) → r.version < (g r).version) ∧
      ∀ r : KeyRow, (∀ x ∈ s.rlist.filter p, x.kid ≠ r.id) → g r = r :=
  foldl_trigger_rkey (rlistTrigger_rkey now 0) _ _

/-- A row of list `j` that a predicate selects is one of the rows it selects in `rlist`. -/
theorem hit_of_listRows {p : ListRow → Bool} {j : Nat} (h : ¬∀ x ∈ s.listRows j, p x = false) :
    ∃ x ∈ s.rlist.filter p, x.kid = j := by
  push_neg at h
  obtain ⟨x, hx, hp⟩ := h
  exact ⟨x, List.mem_filter.2 ⟨(List.mem_filter.1 hx).1, by simpa using hp⟩, kid_of_mem_listRows hx⟩

theorem evolves_deleteList (s : Store) (p now) : Evolves s (s.deleteList p now) :=
  have ⟨_, hg, hk, hlt, _⟩ := deleteList_trigger s p now
  Evolves.of_touch hg (hk.trans (List.append_nil _).symm) fun r _ h =>
    hlt r (hit_of_listRows fun hp => h (samePayload_deleteList hp now))

theorem evolves_updateList (s : Store) (p e now) : Evolves s (s.updateList p e now) :=
  have ⟨_, hg, hk, hlt, _⟩ := updateList_trigger s p e now
  Evolves.of_touch hg (hk.trans (List.append_nil _).symm) fun r _ h =>
    hlt r (hit_of_listRows fun hp => h (samePayload_updateList hp e now))

/-! ### Writes paired with a touch -/

/-- The first half of a paired write: key `id` gets a new version (or is created), and no
payload changes. -/
structure Bumps (id : Nat) (s s' : Store) : Prop where
  rows : ∃ g, IsTouch g ∧ (∀ r ∈ s.rkey, r.id = id → r.version < (g r).version) ∧
    ∃ extra, s'.rkey = s.rkey.map g ++ extra
  same : ∀ j, SamePayload s s' j

/-- The other half: the payload of `id` alone changes, and key rows are only touched. -/
structure WritesAt (id : Nat) (s s' : Store) : Prop where
  rows : ∃ g, IsTouch g ∧ s'.rkey = s.rkey.map g
  same : ∀ j ≠ id, SamePayload s s' j

theorem Bumps.evolves {id : Nat} {s' : Store} (h : Bumps id s s') : Evolves s s' :=
  have ⟨_, hg, _, _, hk⟩ := h.rows
  Evolves.of_rows hg hk h.same

theorem Evolves.of_bumps_writesAt {id : Nat} {s1 s2 : Store} (h1 : Bumps id s s1)
    (h2 : WritesAt id s1 s2) : Evolves s s2 :=
  have ⟨g, hg, hlt, extra, hk⟩ := h1.rows
  have ⟨g', hg', hk'⟩ := h2.rows
  Evolves.of_bump (hg'.comp hg)
    (show s2.rkey = s.rkey.map (g' ∘ g) ++ extra.map g' by rw [hk', hk, List.map_append, List.map_map]) (fun r hr hi => lt_of_lt_of_le (hlt r hr hi) (hg'.version _))
    fun j hj => (h1.same j).trans (h2.same j hj)

theorem Evolves.of_writesAt_bumps {id : Nat} {s1 s2 : Store} (h1 : WritesAt id s s1)
    (h2 : Bumps id s1 s2) : Evolves s s2 :=
  have ⟨g, hg, hk⟩ := h1.rows
  have ⟨g', hg', hlt, extra, hk'⟩ := h2.rows
  Evolves.of_bump (hg'.comp hg) (show s2.rkey = s.rkey.map (g' ∘ g) ++ extra by rw [hk', hk, List.map_map]) (fun r hr hi => lt_of_le_of_lt (hg.version r)
      (hlt (g r) (hk ▸ List.mem_map_of_mem g hr) ((hg.id r).trans hi)))
    fun j hj => (h1.same j hj).trans (h2.same j)

/-- A touch with a new version of rows that select the row of `id`. -/
theorem bumps_touch {r : KeyRow} (hr : r ∈ s.rkey) {p : KeyRow → Bool} (hp : p r) (mtime dl) :
    Bumps r.id s (s.touch p 1 mtime dl) :=
  ⟨⟨_, isTouch_touch p Int.one_nonneg mtime dl, fun r' hr' hi => by
      rw [eq_of_id_eq hr' hr hi]; simp [hp, KeyRow.touch], [], (List.append_nil _).symm⟩,
    samePayload_touch s p 1 mtime dl⟩

theorem bumps_insertKey (s : Store) (key type mtime len h) :
    Bumps s.serial s (s.insertKey key type mtime len h) :=
  ⟨⟨id, IsTouch.refl, fun r hr hi => absurd hi (Nat.ne_of_lt (s.rkey_serial r hr)), _,
      by rw [insertKey_rkey, List.map_id]⟩, samePayload_insertKey s key type mtime len h⟩

theorem writesAt_insertList {row : ListRow} {s' : Store} (h : s.insertList row = some s') :
    WritesAt row.kid s s' :=
  ⟨⟨id, IsTouch.refl, by rw [(insertList_eq_some h).2.1, List.map_id]⟩,
    fun _ hj => samePayload_insertList h hj⟩

theorem writesAt_upsertHash (s : Store) (kid : Nat) (field value) :
    WritesAt kid s (s.upsertHash kid field value) := by
  refine ⟨?_, fun _ hj => samePayload_upsertHash hj field value⟩
  by_cases hin : (kid, field) ∈ s.rhash.map HashRow.slot
  · exact ⟨id, IsTouch.refl, by rw [(upsertHash_of_mem hin value).1, List.map_id]⟩
  · have hg := isTouch_touch (fun r : KeyRow => decide (r.id = kid)) le_rfl none 1
    simp only [decide_eq_true_eq] at hg
    exact ⟨_, hg, (upsertHash_of_not_mem hin value).1⟩

theorem writesAt_deleteHash {id : Nat} {p : HashRow → Bool} (hp : ∀ x, p x → x.kid = id) :
    WritesAt id s (s.deleteHash p) :=
  ⟨⟨fun r => r, IsTouch.refl, by rw [deleteHash_rkey, List.map_id']⟩, fun j hj =>
    samePayload_deleteHash fun x hx => by
      by_contra h
      exact hj ((kid_of_mem_hashRows hx).symm.trans (hp x (by simpa using h)))⟩

theorem WritesAt.trans {id : Nat} {s1 s2 : Store} (h1 : WritesAt id s s1) (h2 : WritesAt id s1 s2) :
    WritesAt id s s2 :=
  have ⟨g, hg, hk⟩ := h1.rows
  have ⟨g', hg', hk'⟩ := h2.rows
  ⟨⟨g' ∘ g, hg'.comp hg, by rw [hk', hk, List.map_map]⟩, fun j hj => (h1.same j hj).trans (h2.same j hj)⟩

end Tables

/-! ## The invariant of list and hash runs -/

/-- What holds of every store the list and hash repositories reach together. -/
structure Inv (s : Store) : Prop where
  keys : ∀ r ∈ s.rkey, r.etime = none ∧ r.len.isSome
  list_kid : ∀ x ∈ s.rlist, ∃ r ∈ s.rkey, r.id = x.kid ∧ r.type = .list
  hash_kid : ∀ x ∈ s.rhash, ∃ r ∈ s.rkey, r.id = x.kid ∧ r.type = .hash
  hash_len : ∀ r ∈ s.rkey, r.type = .hash → r.len = some ((s.hashRows r.id).length : Int)

section Inv
variable {s s' : Store}

theorem Inv.empty : Inv Store.empty :=
  ⟨fun _ h => absurd h (List.not_mem_nil _), fun _ h => absurd h (List.not_mem_nil _),
    fun _ h => absurd h (List.not_mem_nil _), fun _ h => absurd h (List.not_mem_nil _)⟩

/-- Touching key rows, keeping or rewriting list rows in place, and any change of hash
rows that keeps them on hash keys, with the `len` of each hash key counting its rows. -/
theorem Inv.of_touch (hs : Inv s) {g : KeyRow → KeyRow} (hg : IsTouch g) (hk : s'.rkey = s.rkey.map g)
    (hl : ∀ x ∈ s'.rlist, ∃ y ∈ s.rlist, y.kid = x.kid)
    (hh : ∀ x ∈ s'.rhash, ∃ r ∈ s.rkey, r.id = x.kid ∧ r.type = .hash)
    (hlen : ∀ r ∈ s.rkey, r.type = .hash → (g r).len = some ((s'.hashRows r.id).length : Int)) :
    Inv s' where
  keys r' hr' := by
    rw [hk] at hr'
    obtain ⟨r, hr, rfl⟩ := List.mem_map.1 hr'
    exact ⟨(hg.etime r).trans (hs.keys r hr).1, (hg.len r).trans (hs.keys r hr).2⟩
  list_kid x hx := by
    obtain ⟨y, hy, he⟩ := hl x hx
    obtain ⟨r, hr, hi, ht⟩ := hs.list_kid y hy
    exact ⟨g r, hk ▸ List.mem_map_of_mem g hr, (hg.id r).trans (hi.trans he), (hg.type r).trans ht⟩
  hash_kid x hx := by
    obtain ⟨r, hr, hi, ht⟩ := hh x hx
    exact ⟨g r, hk ▸ List.mem_map_of_mem g hr, (hg.id r).trans hi, (hg.type r).trans ht⟩
  hash_len r' hr' ht := by
    rw [hk] at hr'
    obtain ⟨r, hr, rfl⟩ := List.mem_map.1 hr'
    rw [hg.type] at ht
    rw [hlen r hr ht, hg.id]

/-- `Inv.of_touch` with the hash rows unchanged and the `len` of hash keys kept. -/
theorem Inv.of_touch_same (hs : Inv s) {g : KeyRow → KeyRow} (hg : IsTouch g)
    (hk : s'.rkey = s.rkey.map g) (hl : ∀ x ∈ s'.rlist, ∃ y ∈ s.rlist, y.kid = x.kid)
    (hh : s'.rhash = s.rhash) (hlen : ∀ r ∈ s.rkey, r.type = .hash → (g r).len = r.len) : Inv s' :=
  hs.of_touch hg hk hl (fun x hx => hs.hash_kid x (hh ▸ hx)) fun r hr ht => by
    rw [hlen r hr ht, hs.hash_len r hr ht]; simp only [hashRows, hh]

/-- A touch of rows that are not hash keys, or that keeps `len`. -/
theorem Inv.touch (hs : Inv s) {p : KeyRow → Bool} {dv : Int} (hdv : 0 ≤ dv) (mtime) {dl : Int}
    (hp : ∀ r ∈ s.rkey, p r → r.type = .hash → dl = 0) : Inv (s.touch p dv mtime dl) :=
  hs.of_touch_same (isTouch_touch p hdv mtime dl) rfl (fun x hx => ⟨x, hx, rfl⟩) rfl fun r hr ht => by
    by_cases h : p r
    · simp [h, KeyRow.touch, hp r hr h ht]
    · simp [h]

/-- The bump of `sqlInsert` touches list keys only. -/
theorem Inv.touch_list (hs : Inv s) (key : String) (now : Int) :
    Inv (s.touch (·.selects key .list now) 1 (some now) 1) :=
  hs.touch Int.one_nonneg _ fun r _ hp ht => by simp [KeyRow.selects, ht] at hp

/-- The triggers of list rows touch list keys only. -/
theorem Inv.trigger_hash (hs : Inv s) {l : List ListRow} (hl : ∀ x ∈ l, x ∈ s.rlist) {r : KeyRow}
    (hr : r ∈ s.rkey) (ht : r.type = .hash) : ∀ x ∈ l, x.kid ≠ r.id := fun x hx he => by
  obtain ⟨r', hr', hi, ht'⟩ := hs.list_kid x (hl x hx)
  rw [eq_of_id_eq hr' hr (hi.trans he), ht] at ht'
  cases ht'

theorem Inv.deleteList (hs : Inv s) (p now) : Inv (s.deleteList p now) :=
  have ⟨_, hg, hk, _, heq⟩ := deleteList_trigger s p now
  hs.of_touch_same hg hk (fun x hx => ⟨x, (by simpa using hx : x ∈ s.rlist ∧ _).1, rfl⟩)
    (deleteList_rhash ..) fun r hr ht => by
      rw [heq r (hs.trigger_hash (fun x hx => (List.mem_filter.1 hx).1) hr ht)]

theorem Inv.updateList (hs : Inv s) (p e now) : Inv (s.updateList p e now) :=
  have ⟨_, hg, hk, _, heq⟩ := updateList_trigger s p e now
  hs.of_touch_same hg hk (fun x hx => by
      obtain ⟨y, hy, rfl⟩ := List.mem_map.1 (by simpa using hx)
      exact ⟨y, hy, by split <;> rfl⟩)
    (updateList_rhash ..) fun r hr ht => by
      rw [heq r (hs.trigger_hash (fun x hx => (List.mem_filter.1 hx).1) hr ht)]

theorem Inv.insertList (hs : Inv s) {row : ListRow} (h : s.insertList row = some s')
    (hk : ∃ r ∈ s.rkey, r.id = row.kid ∧ r.type = .list) : Inv s' := by
  obtain ⟨hl, hr, hh, -⟩ := insertList_eq_some h
  refine ⟨by rw [hr]; exact hs.keys, fun x hx => ?_, by rw [hr, hh]; exact hs.hash_kid, ?_⟩
  · rw [hr]
    rcases List.mem_append.1 (hl ▸ hx) with hx | hx
    · exact hs.list_kid x hx
    · exact (List.mem_singleton.1 hx) ▸ hk
  · rw [hr]; simp only [hashRows, hh]; exact hs.hash_len

theorem Inv.hashRows_serial (hs : Inv s) : s.hashRows s.serial = [] :=
  List.filter_eq_nil_iff.2 fun x hx => by
    obtain ⟨r, hr, he, -⟩ := hs.hash_kid x hx
    simpa [← he] using Nat.ne_of_lt (s.rkey_serial r hr)

/-- A fresh key with a length, `0` for a hash. -/
theorem Inv.insertKey (hs : Inv s) (key : String) (type : TypeID) (mtime : Int) {n : Int}
    (hn : type = .hash → n = 0) (h) : Inv (s.insertKey key type mtime (some n) h) where
  keys r hr := by
    rcases List.mem_append.1 hr with hr | hr
    · exact hs.keys r hr
    · rw [List.mem_singleton.1 hr]; exact ⟨rfl, rfl⟩
  list_kid x hx :=
    have ⟨r, hr, he⟩ := hs.list_kid x hx
    ⟨r, List.mem_append_left _ hr, he⟩
  hash_kid x hx :=
    have ⟨r, hr, he⟩ := hs.hash_kid x hx
    ⟨r, List.mem_append_left _ hr, he⟩
  hash_len r hr ht := by
    rcases List.mem_append.1 hr with hr | hr
    · exact hs.hash_len r hr ht
    · rw [List.mem_singleton.1 hr] at ht ⊢
      simp only [hashRows_insertKey, hs.hashRows_serial, hn ht, List.length_nil, Nat.cast_zero]

theorem kid_of_mem_upsertHash {kid : Nat} {field : String} {value : Value} {x : HashRow}
    (hx : x ∈ (s.upsertHash kid field value).rhash) : x.kid = kid ∨ ∃ y ∈ s.rhash, y.kid = x.kid := by
  unfold upsertHash at hx
  split at hx
  · obtain ⟨y, hy, rfl⟩ := List.mem_map.1 hx
    exact .inr ⟨y, hy, by split <;> rfl⟩
  · rcases List.mem_append.1 hx with hx | hx
    · exact .inr ⟨x, hx, rfl⟩
    · exact .inl (by rw [List.mem_singleton.1 hx])

/-- The upsert of a field of a hash key. -/
theorem Inv.upsertHash (hs : Inv s) {kid : Nat} (hk : ∃ r ∈ s.rkey, r.id = kid ∧ r.type = .hash)
    (field : String) (value : Value) : Inv (s.upsertHash kid field value) := by
  obtain ⟨g, hg, hr, hl, hh⟩ : ∃ g, IsTouch g ∧ (s.upsertHash kid field value).rkey = s.rkey.map g ∧
      (s.upsertHash kid field value).rlist = s.rlist ∧ ∀ r ∈ s.rkey, r.type = .hash →
        (g r).len = some (((s.upsertHash kid field value).hashRows r.id).length : Int) := by
    by_cases hin : (kid, field) ∈ s.rhash.map HashRow.slot
    · obtain ⟨hr, hl, hh⟩ := upsertHash_of_mem hin value
      exact ⟨id, IsTouch.refl, by rw [hr, List.map_id], hl, fun r hr' ht => by
        rw [hh, List.length_map]; exact hs.hash_len r hr' ht⟩
    · obtain ⟨hr, hl, hh⟩ := upsertHash_of_not_mem hin value
      have hg := isTouch_touch (fun r : KeyRow => decide (r.id = kid)) le_rfl none 1
      simp only [decide_eq_true_eq] at hg
      refine ⟨_, hg, hr, hl, fun r hr' ht => ?_⟩
      rw [hh]
      by_cases hi : r.id = kid
      · simp [hi, KeyRow.touch, hs.hash_len r hr' ht]
      · simp [hi, Ne.symm hi, hs.hash_len r hr' ht]
  refine hs.of_touch hg hr (fun x hx => ⟨x, hl ▸ hx, rfl⟩) (fun x hx => ?_) hh
  rcases kid_of_mem_upsertHash hx with he | ⟨y, hy, he⟩
  · obtain ⟨r, hr, hi, ht⟩ := hk
    exact ⟨r, hr, hi.trans he.symm, ht⟩
  · obtain ⟨r, hr, hi, ht⟩ := hs.hash_kid y hy
    exact ⟨r, hr, hi.trans he, ht⟩

theorem deleteHash_of_none {p : HashRow → Bool} (h : ∀ x ∈ s.rhash, p x = false) : s.deleteHash p = s := by
  ext1
  · rfl
  · rfl
  · rw [deleteHash_rhash, List.filter_eq_self.2 fun x hx => by simp [h x hx]]
  · rfl

/-- The rows a predicate on one hash's rows selects, counted in the table or in the hash. -/
theorem filter_rhash_eq {p : HashRow → Bool} {id : Nat} (hp : ∀ x, p x → x.kid = id) :
    s.rhash.filter p = (s.hashRows id).filter p := by
  rw [hashRows, List.filter_filter]
  exact List.filter_congr fun x _ => by
    by_cases h : p x <;> simp [h, hp x]

theorem KeyRow.selects_of_curRow {key : String} {t : TypeID} {now : Int} {r : KeyRow}
    (hr : s.curRow key t now = some r) : r.selects key t now := by
  obtain ⟨hf, ht, hl⟩ := curRow_eq_some.1 hr
  simp [KeyRow.selects, (findKey_eq_some.1 hf).2, ht, hl]

/-- The row `curRow` finds is the only row its query selects. -/
theorem eq_of_curRow {key : String} {t : TypeID} {now : Int} {r r' : KeyRow}
    (hr : s.curRow key t now = some r) (hr' : r' ∈ s.rkey) (h : r'.selects key t now) : r' = r := by
  obtain ⟨hf, -, -⟩ := curRow_eq_some.1 hr
  obtain ⟨hrk, hk⟩ := findKey_eq_some.1 hf
  simp only [KeyRow.selects, Bool.and_eq_true, decide_eq_true_eq] at h
  exact eq_of_key_eq hr' hrk (h.1.1.trans hk.symm)

/-- `Tx.Delete`'s two statements: the fields go, and the key's `len` loses their number. -/
theorem Inv.deleteFields (hs : Inv s) {key : String} {now : Int} {r : KeyRow}
    (hr : s.curRow key .hash now = some r) (fields : List String) :
    Inv ((s.deleteHash fun x => x.kid = r.id && x.field ∈ fields).touch (·.selects key .hash now) 1
      (some now) (-((s.rhash.filter fun x => x.kid = r.id && x.field ∈ fields).length : Int))) := by
  have hrk := (findKey_eq_some.1 (curRow_eq_some.1 hr).1).1
  have hp : ∀ x : HashRow, (x.kid = r.id && x.field ∈ fields) → x.kid = r.id := fun x h => by
    simp only [Bool.and_eq_true, decide_eq_true_eq] at h; exact h.1
  refine hs.of_touch (isTouch_touch _ Int.one_nonneg _ _) rfl (fun x hx => ⟨x, hx, rfl⟩)
    (fun x hx => hs.hash_kid x (List.mem_filter.1 hx).1) fun r' hr' ht => ?_
  by_cases h : r'.selects key .hash now
  · obtain rfl := eq_of_curRow hr hr' h
    have hcount := List.length_eq_length_filter_add (l := s.hashRows r'.id)
      (fun x => x.kid = r'.id && x.field ∈ fields)
    rw [← filter_rhash_eq hp] at hcount
    simp only [h, if_true, KeyRow.touch_len, hs.hash_len r' hr' ht, Option.map_some',
      hashRows_touch, hashRows_deleteHash, Option.some.injEq]
    omega
  · have hne : r'.id ≠ r.id := fun he => h (eq_of_id_eq hr' hrk he ▸ KeyRow.selects_of_curRow hr)
    simp only [h, Bool.false_eq_true, if_false, hashRows_touch, hashRows_deleteHash,
      hs.hash_len r' hr' ht]
    rw [(List.filter_eq_self (l := s.hashRows r'.id)).2 fun x hx => by
      simp [kid_of_mem_hashRows hx, hne]]

end Inv

/-! ## The typed upsert -/

section Upsert
variable {s s' : Store} {key : String} {t : TypeID} {now len0 dl : Int}

/-- A successful typed upsert creates key `id` or bumps it; the key is then of type `t`,
and it keeps `Inv` when a hash key gets `len = 0` and no change of `len`. -/
theorem upsertKey_ok {id : Nat} {len : Option Int} (h : upsertKey key t now len0 dl s = .ok ((id, len), s')) :
    Bumps id s s' ∧ (∃ r ∈ s'.rkey, r.id = id ∧ r.key = key ∧ r.type = t) ∧
      (Inv s → (t = .hash → len0 = 0 ∧ dl = 0) → Inv s' ∧ len.isSome) := by
  rcases upsertKey_cases key t now len0 dl s with ⟨hf, h'⟩ | ⟨r, hf, ht, h'⟩ | ⟨r, hf, ht, h'⟩ <;>
    rw [h'] at h <;> cases h
  · exact ⟨bumps_insertKey .., ⟨_, List.mem_append_right _ (List.mem_singleton_self _), rfl, rfl, rfl⟩,
      fun hs hh => ⟨hs.insertKey key t now (fun ht => (hh ht).1) _, rfl⟩⟩
  · obtain ⟨hr, hk⟩ := findKey_eq_some.1 hf
    refine ⟨bumps_touch hr (by simpa using hk) _ _, ⟨_, List.mem_map_of_mem _ hr, by simp [hk],
      by simp [hk], by simp [hk, ht]⟩, fun hs hh => ⟨hs.touch Int.one_nonneg _ fun r' hr' hp hth => ?_, ?_⟩⟩
    · rw [eq_of_key_eq hr' hr ((by simpa using hp : r'.key = key).trans hk.symm), ht] at hth
      exact (hh hth).2
    · simpa using (hs.keys r hr).2

/-- The typed upsert on a key of another type. -/
theorem upsertKey_of_other {r : KeyRow} (hf : s.findKey key = some r) (ht : r.type ≠ t) :
    upsertKey key t now len0 dl s = .error (.notNull "rkey.type") := by
  rcases upsertKey_cases key t now len0 dl s with ⟨h, -⟩ | ⟨r', h, ht', -⟩ | ⟨-, -, -, h⟩
  · rw [hf] at h; cases h
  · rw [hf] at h; cases h; exact absurd ht' ht
  · exact h

/-- The typed upsert on a row of type `t`, live or expired: the conflict bumps it. -/
theorem upsertKey_of_same {r : KeyRow} (hf : s.findKey key = some r) (ht : r.type = t) :
    upsertKey key t now len0 dl s = .ok ((r.id, r.len.map (· + dl)), s.touch (·.key = key) 1 (some now) dl) := by
  rcases upsertKey_cases key t now len0 dl s with ⟨h, -⟩ | ⟨r', h, -, h'⟩ | ⟨r', h, ht', -⟩
  · rw [hf] at h; cases h
  · rw [hf, Option.some.injEq] at h; rw [h, h']
  · rw [hf, Option.some.injEq] at h; exact absurd (h ▸ ht) ht'

theorem upsertKey_error {e : SqlError} (h : upsertKey key t now len0 dl s = .error e) :
    e = .notNull "rkey.type" ∧ ∃ r, s.findKey key = some r ∧ r.type ≠ t := by
  rcases upsertKey_cases key t now len0 dl s with ⟨hf, h'⟩ | ⟨r, hf, ht, h'⟩ | ⟨r, hf, ht, h'⟩ <;>
    rw [h'] at h <;> cases h
  exact ⟨rfl, r, hf, ht⟩

end Upsert

/-! ## Methods

`Sound x s`: the run of method `x` from `s` ends, returned or failed, in a store that
evolves from `s` and keeps `Inv`.  `Clean x s`: when it fails, it leaves `s` as it was.
Both are proved per method in `RList.Effects` and `RHash.Effects`. -/

/-- The run of `x` from `s` ends in a store that evolves from `s` and keeps `Inv`. -/
structure Sound (x : Tx α) (s : Store) : Prop where
  evolves : Evolves s (x.final s)
  inv : Inv s → Inv (x.final s)

/-- A failed run of `x` from `s` leaves `s` as it was. -/
def Clean (x : Tx α) (s : Store) : Prop := ∀ e s', x s = .error e s' → s' = s

section Methods
variable {s s1 : Store} {x : Tx α} {f : α → Tx β}

theorem Tx.final_bind_ok {a : α} (h : x s = .ok a s1) : (x >>= f).final s = (f a).final s1 := by
  simp only [Tx.final, bind, EStateM.bind, h]

theorem Tx.final_bind_error {e : Error} (h : x s = .error e s1) : (x >>= f).final s = s1 := by
  simp only [Tx.final, bind, EStateM.bind, h]

theorem Sound.of_final (h : x.final s = s1) (he : Evolves s s1) (hi : Inv s → Inv s1) : Sound x s :=
  ⟨h ▸ he, h ▸ hi⟩

/-- A method that leaves the store as it was. -/
theorem Sound.of_read (h : x.final s = s) : Sound x s :=
  Sound.of_final h (Evolves.refl s) id

theorem Sound.bind (hx : Sound x s) (hf : ∀ a s1, x s = .ok a s1 → Sound (f a) s1) :
    Sound (x >>= f) s := by
  cases h : x s with
  | ok a s1 =>
    have h1 := Tx.final_of_ok h
    have hs := hf a s1 h
    exact Sound.of_final (Tx.final_bind_ok h) (h1 ▸ hx.evolves |>.trans hs.evolves)
      fun hi => hs.inv (h1 ▸ hx.inv hi)
  | error e s1 =>
    exact Sound.of_final (Tx.final_bind_error h) (Tx.final_of_error h ▸ hx.evolves)
      (Tx.final_of_error h ▸ hx.inv)

/-- A one-statement method whose writes evolve and keep `Inv`. -/
theorem Sound.of_orThrow {st : Stmt α}
    (h : ∀ a s', st s = .ok (a, s') → Evolves s s' ∧ (Inv s → Inv s')) (f : SqlError → Error) :
    Sound (orThrow st f) s := by
  cases hq : st s with
  | error e => exact Sound.of_read (Tx.final_of_error (orThrow_error hq))
  | ok v =>
    obtain ⟨a, s'⟩ := v
    exact Sound.of_final (Tx.final_of_ok (orThrow_ok hq)) (h _ _ hq).1 (h _ _ hq).2

/-- A failed statement has no effect. -/
theorem Clean.of_orThrow (st : Stmt α) (f : SqlError → Error) : Clean (orThrow st f) s :=
  fun e s' hx => by
    simp only [orThrow] at hx
    split at hx
    · cases hx
    · cases hx; rfl

theorem Clean.of_read (h : x.final s = s) : Clean x s := fun _ _ hx =>
  (Tx.final_of_error hx).symm.trans h

theorem Tx.final_congr {y : Tx α} (h : y s = x s) : y.final s = x.final s := by
  rw [Tx.final, h]; rfl

theorem Sound.congr {y : Tx α} (h : y s = x s) (hx : Sound x s) : Sound y s :=
  ⟨Tx.final_congr h ▸ hx.evolves, Tx.final_congr h ▸ hx.inv⟩

theorem Clean.congr {y : Tx α} (h : y s = x s) (hx : Clean x s) : Clean y s :=
  fun e s' hy => hx e s' (h ▸ hy)

/-- Run `x`, then return a value computed before it. -/
theorem Sound.then_pure (hx : Sound x s) (b : β) : Sound (x >>= fun _ => pure b) s :=
  hx.bind fun _ _ _ => Sound.of_read rfl

theorem Clean.then_pure (hx : Clean x s) (b : β) : Clean (x >>= fun _ => pure b) s :=
  fun _ _ h => by
    simp only [bind, EStateM.bind] at h
    split at h
    · cases h
    · cases h; exact hx _ _ ‹_›

theorem Sound.forget (h : Sound x s) : Sound x.forget s :=
  ⟨by simpa using h.evolves, by simpa using h.inv⟩

theorem Tx.forget_error {e : Error} (h : x.forget s = .error e s1) : x s = .error e s1 := by
  simp only [Tx.forget, bind, EStateM.bind] at h
  split at h
  · cases h
  · cases h; assumption

theorem Clean.forget (h : Clean x s) : Clean x.forget s := fun _ _ hx => h _ _ (Tx.forget_error hx)

end Methods

end Redka
