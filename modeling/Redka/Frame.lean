import Redka.RHash.Refine

/-! # The list and hash repositories leave each other's keys alone

A list method writes `rkey` rows it finds or creates as lists, and `rlist` rows; a hash
method writes `rkey` rows it finds or creates as hashes, and `rhash` rows.  Neither changes
the id or the type of a key, nor the other's table.  So, from every store, reachable or
not, and whether the call succeeds or fails:

* every hash call leaves the sequence of every list as it was (`hashCall_keeps_lists`);
* every list call leaves the field map of every hash as it was (`listCall_keeps_hashes`).

The proofs say once which table writes each list method makes (`ListCall.keeps`, the list
counterpart of `HashCall.keeps`) and check that each write keeps the other repository's view.

On every store list and hash calls reach, in any interleaving, a hash's `len` is its number
of fields: `Len` returns the length of what `Fields` returns (`hash_len_fields`).
-/

namespace Redka
open Store RList RHash

/-! ## What the list methods write -/

/-- A property of stores that each table write of the list methods keeps: creating a list
key, touching keys, inserting, deleting and rewriting list rows. -/
structure ListWrites (P : Store → Prop) : Prop where
  insertKey : ∀ s key mtime len h, P s → P (s.insertKey key .list mtime len h)
  touch : ∀ s p mtime dl, P s → P (s.touch p 1 mtime dl)
  insertList : ∀ {s s' : Store} {row : ListRow}, s.insertList row = some s' → P s → P s'
  deleteList : ∀ s p now, P s → P (s.deleteList p now)
  updateList : ∀ s p e now, P s → P (s.updateList p e now)

theorem Keeps.of_orThrow {P : Store → Prop} {α : Type} {st : Stmt α}
    (h : ∀ s a s', st s = .ok (a, s') → P s → P s') (f : SqlError → Error) :
    Keeps P (orThrow st f) := fun s hs => by
  cases hq : st s with
  | error e => rw [Tx.final_of_error (orThrow_error hq)]; exact hs
  | ok v => rw [Tx.final_of_ok (orThrow_ok hq)]; exact h s v.1 v.2 hq hs

section ListWrites
variable (d : Dialect) {P : Store → Prop} (hP : ListWrites P)
include hP

theorem ListWrites.write {s s' : Store} (h : ListWrite s s') (hs : P s) : P s' := by
  rcases h with rfl | ⟨p, now, rfl⟩ | ⟨p, e, now, rfl⟩
  · exact hs
  · exact hP.deleteList _ _ _ hs
  · exact hP.updateList _ _ _ _ hs

theorem sqlPush_keeps (key : String) (now : Int) :
    ∀ s a s', sqlPush key now s = .ok (a, s') → P s → P s' := fun s a s' h hs => by
  rcases upsertKey_cases key .list now 1 1 s with ⟨_, h'⟩ | ⟨_, _, _, h'⟩ | ⟨_, _, _, h'⟩ <;>
    rw [sqlPush, h'] at h <;> cases h
  · exact hP.insertKey _ _ _ _ _ hs
  · exact hP.touch _ _ _ _ hs

theorem push_keeps {choose : List ℚ → ℚ} (hc : ∀ ps, choose ps ∉ ps) (key : String) (e : Value)
    (now : Int) : Keeps P (push d (pushAt choose) key e now) := by
  unfold push
  refine (Keeps.of_orThrow (sqlPush_keeps hP key now) _).bind fun ⟨id, length⟩ => ?_
  cases length with
  | none => exact Keeps.of_read fun _ => rfl
  | some n =>
    refine (Keeps.of_orThrow (fun s _ s' h hs => ?_) _).bind fun _ => Keeps.of_read fun _ => rfl
    obtain ⟨s2, hi, hp⟩ := pushAt_eq hc id e s
    rw [hp] at h
    cases h
    exact hP.insertList hi hs

theorem pop_keeps (pick : List ℚ → Option ℚ) (key : String) (now : Int) :
    Keeps P (pop d (popAt pick key now)) := by
  unfold pop
  exact (Keeps.of_orThrow (fun _ _ _ h => hP.write (popAt_write h).1) _).bind fun l => by
    cases l <;> exact Keeps.of_read fun _ => rfl

theorem insert_keeps (adj : ℚ → List ℚ → Option ℚ) (beyond : ℚ → ℚ) (key : String) (p e : Value)
    (now : Int) : Keeps P (insert d (insertNear adj beyond) key p e now) := fun s hs => by
  rcases insert_final d adj beyond key p e now s with h | ⟨_, -, _, h⟩
  · rw [h]; exact hP.touch _ _ _ _ hs
  · exact hP.insertList h (hP.touch _ _ _ _ hs)

theorem set_keeps (key : String) (idx : Int) (elem : Value) (now : Int) :
    Keeps P (RList.set d key idx elem now) := by
  unfold RList.set
  split
  exact (Keeps.of_orThrow (fun _ _ _ h => hP.write (sqlSet_write h).1) _).bind fun _ =>
    Keeps.of_read fun _ => by split <;> rfl

theorem trim_keeps (key : String) (start stop now : Int) : Keeps P (trim d key start stop now) := by
  cases d
  · exact Keeps.of_orThrow (fun _ _ _ h => hP.write (sqlTrim_write h)) _
  · exact Keeps.of_read fun s => Tx.final_of_error (trim_postgres key start stop now s)

theorem popBackPushFront_keeps (src dest : String) (now : Int) :
    Keeps P (popBackPushFront d src dest now) := by
  unfold popBackPushFront
  exact (pop_keeps d hP _ src now).bind fun e =>
    (push_keeps d hP pushFront_fresh dest e now).bind fun _ => Keeps.of_read fun _ => rfl

/-- Every list call keeps what the table writes of the list methods keep. -/
theorem ListCall.keeps (now : Int) : ∀ c : ListCall, Keeps P (c.tx d now)
  | .pushBack k e => (push_keeps d hP pushBack_fresh k e now).forget
  | .pushFront k e => (push_keeps d hP pushFront_fresh k e now).forget
  | .popBack k => (pop_keeps d hP _ k now).forget
  | .popFront k => (pop_keeps d hP _ k now).forget
  | .insertBefore k p e => (insert_keeps d hP _ _ k p e now).forget
  | .insertAfter k p e => (insert_keeps d hP _ _ k p e now).forget
  | .set k i e => set_keeps d hP k i e now
  | .delete _ _ => (Keeps.of_orThrow (fun _ _ _ h => hP.write (sqlDelete_write h)) _).forget
  | .deleteFront _ _ _ => (Keeps.of_orThrow (fun _ _ _ h => hP.write (deleteSome_write h)) _).forget
  | .deleteBack _ _ _ => (Keeps.of_orThrow (fun _ _ _ h => hP.write (deleteSome_write h)) _).forget
  | .popBackPushFront src dest => (popBackPushFront_keeps d hP src dest now).forget
  | .trim k a b => (trim_keeps d hP k a b now).forget
  | .get k i => (Keeps.of_read (get_final d k i now)).forget
  | .len k => (Keeps.of_read (len_final d k now)).forget
  | .range k a b => (Keeps.of_read (range_final d k a b now)).forget

end ListWrites

/-! ## The other repository's view -/

theorem hashView_congr {s t : Store} (hk : t.kindOf = s.kindOf) (hr : t.rhash = s.rhash) :
    hashView t = hashView s := by
  funext key
  unfold hashView hashPayload
  rw [hk, show t.hashRows = s.hashRows from funext fun _ => by rw [hashRows, hr]; rfl]

theorem seqOf_congr {s t : Store} (hk : t.kindOf = s.kindOf) (hl : t.rlist = s.rlist) :
    seqOf t = seqOf s := by
  funext key
  simp only [seqOf, RList.rowsOf, hk, listRows, hl]

theorem kindOf_of_not_mem {s : Store} {key : String} (h : key ∉ s.rkey.map KeyRow.key) :
    s.kindOf key = none := by
  have hf : s.findKey key = none := findKey_eq_none.2 fun r hr he => h (he ▸ List.mem_map_of_mem _ hr)
  simp [Store.kindOf, hf]

/-- The field maps of the hashes are kept by every table write of the list methods. -/
theorem hashView_listWrites (v : String → String → Option Value) :
    ListWrites fun s => hashView s = v where
  insertKey s key mtime len h hs := by
    rw [← hs]
    funext k
    by_cases hk : k = key
    · subst hk
      have h0 := kindOf_of_not_mem h
      simp [hashView, kindOf_insertKey, h0]
    · simp only [hashView, kindOf_insertKey, if_neg hk]
      rfl
  touch s p mtime dl hs := (hashView_touch s p 1 mtime dl).trans hs
  insertList h hs := by
    obtain ⟨-, hk, hr, -⟩ := insertList_eq_some h
    exact (hashView_congr (kindOf_congr hk) hr).trans hs
  deleteList s p now hs := (hashView_congr (deleteList_kindOf s p now) (deleteList_rhash s p now)).trans hs
  updateList s p e now hs := (hashView_congr (updateList_kindOf s p e now) (updateList_rhash s p e now)).trans hs

/-- The sequences of the lists are kept by every table write of the hash methods. -/
theorem seqOf_hashWrites (q : String → List Value) : HashWrites fun s => seqOf s = q where
  insertKey s key mtime len h hs := by
    rw [← hs]
    funext k
    by_cases hk : k = key
    · subst hk
      have h0 := kindOf_of_not_mem h
      simp [seqOf, RList.rowsOf, kindOf_insertKey, h0]
    · simp only [seqOf, RList.rowsOf, kindOf_insertKey, if_neg hk]
      rfl
  touch s p mtime dl hs := (seqOf_touch s p 1 mtime dl).trans hs
  upsertHash s kid field value hs := by
    have hl : (s.upsertHash kid field value).rlist = s.rlist := by
      by_cases hin : (kid, field) ∈ s.rhash.map HashRow.slot
      · exact (upsertHash_of_mem hin value).2.1
      · exact (upsertHash_of_not_mem hin value).2.1
    exact (seqOf_congr (kindOf_upsertHash s kid field value) hl).trans hs
  deleteHash s p hs := (seqOf_congr (kindOf_congr rfl) rfl).trans hs

/-- **A hash call leaves every list alone.**  From every store, whatever the call returns. -/
theorem hashCall_keeps_lists (d : Dialect) (core : Core) (now : Int) (c : HashCall) (s : Store) :
    seqOf ((c.tx d core now).final s) = seqOf s :=
  HashCall.keeps d (seqOf_hashWrites (seqOf s)) core now c s rfl

/-- **A list call leaves every hash alone.**  From every store, whatever the call returns. -/
theorem listCall_keeps_hashes (d : Dialect) (now : Int) (c : ListCall) (s : Store) :
    hashView ((c.tx d now).final s) = hashView s :=
  ListCall.keeps d (hashView_listWrites (hashView s)) now c s rfl

/-! ## Mixed runs -/

/-- **A hash's `len` counts its fields.**  On every store list and hash calls reach, in any
interleaving, `Len` returns, for every key and instant, the number of fields `Fields`
returns. -/
theorem hash_len_fields {d : Dialect} {core : Core} {allowed : Call → Prop} {s : Store}
    (hs : Reachable d core allowed s) (key : String) (now : Int) :
    ∃ fs, RHash.fields d key now s = .ok fs s ∧ RHash.len key now s = .ok (fs.length : Int) s := by
  refine ⟨(RHash.rowsOf s key now).map HashRow.field, rfl, ?_⟩
  rw [len_run]
  cases hc : s.curRow key .hash now with
  | none => simp [rowsOf_of_curRow hc]
  | some r =>
    obtain ⟨hf, ht, -⟩ := curRow_eq_some.1 hc
    have hlen := (Inv.of_reachable hs).hash_len r (findKey_eq_some.1 hf).1 ht
    simp [hlen, RHash.rowsOf, curkey, hc]

/-- A mixed run: `RPUSH l 1`, `HSET h f 1`, `HSET l f 2` (refused: `l` is a list), `RPOP l`. -/
def mixedRun : Store :=
  runCalls .sqlite ⟨fun _ => none, fun _ => none, fun _ => [], fun _ => []⟩ Store.empty
    [(.list (.pushBack "l" [1]), 0), (.hash (.set "h" "f" [1]), 0), (.hash (.set "l" "f" [2]), 0),
      (.list (.popBack "l"), 0)]

theorem hash_len_fields_mixedRun :
    Reachable .sqlite ⟨fun _ => none, fun _ => none, fun _ => [], fun _ => []⟩ (fun _ => True) mixedRun ∧
      ∃ fs, RHash.fields .sqlite "h" 0 mixedRun = .ok fs mixedRun ∧
        RHash.len "h" 0 mixedRun = .ok (fs.length : Int) mixedRun :=
  have hs : Reachable .sqlite ⟨fun _ => none, fun _ => none, fun _ => [], fun _ => []⟩ (fun _ => True)
      mixedRun := runCalls_reachable _ _ .empty (by simp)
  ⟨hs, hash_len_fields hs "h" 0⟩

end Redka
