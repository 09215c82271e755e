import Redka.Frame
import Redka.RList.Reads

/-! # The `len` column of lists

`rkey.len` is kept by hand: `sqlPush` and `sqlInsert` add 1 in Go, and the trigger
`rlist_on_delete` subtracts 1 for each deleted row.  `Tx.Len` reads the column, not the rows.

Every list method but the inserts keeps the column equal to the key's number of rows, from
every store with `ListInv`, whether it succeeds or fails: a push adds one row and one to
`len`, and every other method deletes rows, each firing its trigger, rewrites rows in place,
or reads (`ListCall.keeps_len`).  So on every store the list calls other than `InsertBefore`
and `InsertAfter` reach, `Tx.Len` returns the length of the key's sequence
(`len_eq_length`).  An insert into an emptied list counts the element in without inserting
it, and breaks that.
-/

namespace Redka

/-- A list call other than `InsertBefore` and `InsertAfter`. -/
def Call.IsListNoInsert : Call → Prop
  | .list (.insertBefore ..) => False
  | .list (.insertAfter ..) => False
  | .list _ => True
  | .hash _ => False

namespace RList
open Store RHash

/-- Every list key's `len` is its number of rows. -/
def ListLen (s : Store) : Prop :=
  ∀ r ∈ s.rkey, r.type = .list → r.len = some ((s.listRows r.id).length : Int)

/-- `ListLen` with one element of key `id` counted in before its row is inserted: what holds
between the two statements of a push. -/
def ListLenAhead (s : Store) (id : Nat) : Prop :=
  ∀ r ∈ s.rkey, r.type = .list →
    r.len = some ((s.listRows r.id).length + if r.id = id then 1 else 0 : Int)

section Tables
variable {s s' : Store}

/-! ## Triggers -/

/-- The triggers of the rows `l`, each adding `dl` to the `len` of its row's key: a key's
`len` moves by `dl` for each of its rows in `l`. -/
theorem foldl_trigger_len (now dl : Int) : ∀ (l : List ListRow) (t : Store),
    ∃ g, IsTouch g ∧
      (l.foldl (fun t x => t.touch (·.id = x.kid) 1 (some now) dl) t).rkey = t.rkey.map g ∧
      ∀ r, (g r).len = r.len.map (· + dl * ((l.filter (·.kid = r.id)).length : Int))
  | [], _ => ⟨fun r => r, IsTouch.refl, (List.map_id' _).symm, fun r => by simp⟩
  | x :: l, t => by
    have ht := isTouch_touch (·.id = x.kid) Int.one_nonneg (some now) dl
    obtain ⟨g, hg, hk, hl⟩ := foldl_trigger_len now dl l (t.touch (·.id = x.kid) 1 (some now) dl)
    refine ⟨g ∘ _, hg.comp ht, by rw [List.foldl_cons, hk, ← List.map_map]; rfl, fun r => ?_⟩
    rw [Function.comp_apply, hl, ht.id]
    by_cases h : r.id = x.kid
    · simp only [h, decide_True, if_true, KeyRow.touch, List.filter_cons, List.length_cons,
        Option.map_map]
      congr 1; funext v; simp only [Function.comp_apply]; rw [Nat.cast_succ, Int.mul_add, Int.mul_one]; omega
    · simp [h, Ne.symm h, List.filter_cons]

theorem filter_filter_kid (s : Store) (p : ListRow → Bool) (j : Nat) :
    (s.rlist.filter p).filter (·.kid = j) = (s.listRows j).filter p := by
  simp only [listRows, List.filter_filter, Bool.and_comm]

/-- A delete takes from each key's `len` its number of deleted rows. -/
theorem deleteList_len (s : Store) (p : ListRow → Bool) (now : Int) :
    ∃ g, IsTouch g ∧ (s.deleteList p now).rkey = s.rkey.map g ∧
      ∀ r, (g r).len = r.len.map (· - (((s.listRows r.id).filter p).length : Int)) := by
  obtain ⟨g, hg, hk, hl⟩ : ∃ g, IsTouch g ∧ (s.deleteList p now).rkey = s.rkey.map g ∧
      ∀ r, (g r).len = r.len.map (· + -1 * (((s.rlist.filter p).filter (·.kid = r.id)).length : Int)) :=
    foldl_trigger_len now (-1) _ _
  refine ⟨g, hg, hk, fun r => ?_⟩
  rw [hl, filter_filter_kid]
  congr 1; funext v; omega

/-- An update leaves every `len` as it was. -/
theorem updateList_len (s : Store) (p : ListRow → Bool) (e : Value) (now : Int) :
    ∃ g, IsTouch g ∧ (s.updateList p e now).rkey = s.rkey.map g ∧ ∀ r, (g r).len = r.len := by
  obtain ⟨g, hg, hk, hl⟩ : ∃ g, IsTouch g ∧ (s.updateList p e now).rkey = s.rkey.map g ∧
      ∀ r, (g r).len = r.len.map (· + 0 * (((s.rlist.filter p).filter (·.kid = r.id)).length : Int)) :=
    foldl_trigger_len now 0 _ _
  exact ⟨g, hg, hk, fun r => by simp [hl]⟩

/-! ## Each write -/

theorem ListLen.deleteList (hl : ListLen s) (p : ListRow → Bool) (now : Int) :
    ListLen (s.deleteList p now) := by
  obtain ⟨g, hg, hk, hlen⟩ := deleteList_len s p now
  intro r' hr' ht
  rw [hk] at hr'
  obtain ⟨r, hr, rfl⟩ := List.mem_map.1 hr'
  have hsplit := List.length_eq_length_filter_add (l := s.listRows r.id) p
  rw [hlen, hl r hr (hg.type r ▸ ht), listRows_deleteList, hg.id]
  simp only [Option.map_some', Option.some.injEq]
  omega

theorem ListLen.updateList (hl : ListLen s) (p : ListRow → Bool) (e : Value) (now : Int) :
    ListLen (s.updateList p e now) := by
  obtain ⟨g, hg, hk, hlen⟩ := updateList_len s p e now
  intro r' hr' ht
  rw [hk] at hr'
  obtain ⟨r, hr, rfl⟩ := List.mem_map.1 hr'
  rw [hlen, hl r hr (hg.type r ▸ ht), listRows_updateList, hg.id, List.length_map]

theorem ListLen.write (h : ListWrite s s') (hl : ListInv s ∧ ListLen s) : ListInv s' ∧ ListLen s' := by
  rcases h with rfl | ⟨p, now, rfl⟩ | ⟨p, e, now, rfl⟩
  · exact hl
  · exact ⟨hl.1.deleteList p now, hl.2.deleteList p now⟩
  · exact ⟨hl.1.updateList p e now, hl.2.updateList p e now⟩

/-- `sqlPush` on a new key: a row with `len = 1` and no element yet. -/
theorem ListLen.insertKey (hi : ListInv s) (hl : ListLen s) (key : String) (mtime : Int) (h) :
    ListLenAhead (s.insertKey key .list mtime (some 1) h) s.serial := by
  intro r hr ht
  rcases List.mem_append.1 hr with hr | hr
  · simp [hl r hr ht, Nat.ne_of_lt (s.rkey_serial r hr)]
  · rw [List.mem_singleton.1 hr]; simp [hi.listRows_serial]

/-- `sqlPush` on a list key: `len = len + 1` before the element is in. -/
theorem ListLen.touchKey (hl : ListLen s) {key : String} {r : KeyRow} (hf : s.findKey key = some r)
    (mtime : Option Int) : ListLenAhead (s.touch (·.key = key) 1 mtime 1) r.id := by
  obtain ⟨hr, hkey⟩ := findKey_eq_some.1 hf
  intro r'' hr'' ht
  obtain ⟨r', hr', rfl⟩ := List.mem_map.1 hr''
  by_cases hk : r'.key = key
  · obtain rfl := eq_of_key_eq hr' hr (hk.trans hkey.symm)
    simp only [hk, decide_True, if_true, KeyRow.touch] at ht ⊢
    simp [hl r' hr' ht]
  · have hid : r'.id ≠ r.id := fun he => hk ((eq_of_id_eq hr' hr he).symm ▸ hkey)
    simp only [hk, decide_False, if_false] at ht ⊢
    simp [hl r' hr' ht, hid]

/-- The push's insert puts in the row counted ahead. -/
theorem ListLenAhead.insertList {id : Nat} (hl : ListLenAhead s id) {row : ListRow}
    (h : s.insertList row = some s') (hk : row.kid = id) : ListLen s' := by
  intro r hr ht
  rw [(insertList_eq_some h).2.1] at hr
  rw [hl r hr ht, listRows_insertList h, List.length_append, hk]
  by_cases he : id = r.id
  · simp [he]
  · simp [he, Ne.symm he]

end Tables

/-! ## Each method -/

section Methods
variable (d : Dialect)

/-- A push adds one row and one to `len`. -/
theorem push_keeps_len {choose : List ℚ → ℚ} (hc : ∀ ps, choose ps ∉ ps) (key : String) (e : Value)
    (now : Int) : Keeps (fun s => ListInv s ∧ ListLen s) (push d (pushAt choose) key e now) := by
  rintro s ⟨hi, hl⟩
  rw [Tx.final, push_eq, sqlPush]
  rcases upsertKey_cases key .list now 1 1 s with ⟨hf, h⟩ | ⟨r, hf, -, h⟩ | ⟨r, hf, -, h⟩ <;>
    rw [h]
  · obtain ⟨s2, hi2, hp⟩ := pushAt_eq hc s.serial e (s.insertKey key .list now (some 1)
      (key_not_mem_of_findKey hf))
    simp only [hp]
    exact ⟨(hi.insertKey key now 1 _).insertList hi2 ⟨_, List.mem_append_right _
      (List.mem_singleton_self _), rfl⟩, (hl.insertKey hi key now _).insertList hi2 rfl⟩
  · have hr := (findKey_eq_some.1 hf).1
    obtain ⟨n, hn⟩ := Option.isSome_iff_exists.1 (hi.keys r hr).2.2
    obtain ⟨s2, hi2, hp⟩ := pushAt_eq hc r.id e (s.touch (·.key = key) 1 (some now) 1)
    simp only [hn, Option.map_some', hp]
    exact ⟨(hi.touch _ _ _).insertList hi2 ⟨_, List.mem_map_of_mem _ hr, by split <;> rfl⟩,
      (hl.touchKey hf _).insertList hi2 rfl⟩
  · exact ⟨hi, hl⟩

theorem pop_keeps_len (pick : List ℚ → Option ℚ) (key : String) (now : Int) :
    Keeps (fun s => ListInv s ∧ ListLen s) (pop d (popAt pick key now)) := by
  unfold pop
  exact (Keeps.of_orThrow (fun _ _ _ h => ListLen.write (popAt_write h).1) _).bind fun l => by
    cases l <;> exact Keeps.of_read fun _ => rfl

theorem set_keeps_len (key : String) (idx : Int) (elem : Value) (now : Int) :
    Keeps (fun s => ListInv s ∧ ListLen s) (RList.set d key idx elem now) := by
  unfold RList.set
  split
  exact (Keeps.of_orThrow (fun _ _ _ h => ListLen.write (sqlSet_write h).1) _).bind fun _ =>
    Keeps.of_read fun _ => by split <;> rfl

theorem trim_keeps_len (key : String) (start stop now : Int) :
    Keeps (fun s => ListInv s ∧ ListLen s) (trim d key start stop now) := by
  cases d
  · exact Keeps.of_orThrow (fun _ _ _ h => ListLen.write (sqlTrim_write h)) _
  · exact Keeps.of_read fun s => Tx.final_of_error (trim_postgres key start stop now s)

theorem popBackPushFront_keeps_len (src dest : String) (now : Int) :
    Keeps (fun s => ListInv s ∧ ListLen s) (popBackPushFront d src dest now) := by
  unfold popBackPushFront
  exact (pop_keeps_len d _ src now).bind fun e =>
    (push_keeps_len d pushFront_fresh dest e now).bind fun _ => Keeps.of_read fun _ => rfl

/-- Every list call but the inserts keeps `len` equal to the number of rows. -/
theorem ListCall.keeps_len (now : Int) :
    ∀ c : ListCall, (Call.list c).IsListNoInsert → Keeps (fun s => ListInv s ∧ ListLen s) (c.tx d now)
  | .pushBack k e, _ => (push_keeps_len d pushBack_fresh k e now).forget
  | .pushFront k e, _ => (push_keeps_len d pushFront_fresh k e now).forget
  | .popBack k, _ => (pop_keeps_len d _ k now).forget
  | .popFront k, _ => (pop_keeps_len d _ k now).forget
  | .insertBefore .., h => h.elim
  | .insertAfter .., h => h.elim
  | .set k i e, _ => set_keeps_len d k i e now
  | .delete _ _, _ =>
    (Keeps.of_orThrow (fun _ _ _ h => ListLen.write (sqlDelete_write h)) _).forget
  | .deleteFront _ _ _, _ =>
    (Keeps.of_orThrow (fun _ _ _ h => ListLen.write (deleteSome_write h)) _).forget
  | .deleteBack _ _ _, _ =>
    (Keeps.of_orThrow (fun _ _ _ h => ListLen.write (deleteSome_write h)) _).forget
  | .popBackPushFront src dest, _ => (popBackPushFront_keeps_len d src dest now).forget
  | .trim k a b, _ => (trim_keeps_len d k a b now).forget
  | .get k i, _ => (Keeps.of_read (get_final d k i now)).forget
  | .len k, _ => (Keeps.of_read (len_final d k now)).forget
  | .range k a b, _ => (Keeps.of_read (range_final d k a b now)).forget

/-- **Run.** On every store the list calls but the inserts reach, `len` counts the rows. -/
theorem ListLen.of_reachable {core : Core} {s : Store} (h : Reachable d core Call.IsListNoInsert s) :
    ListInv s ∧ ListLen s := by
  induction h with
  | empty => exact ⟨ListInv.empty, fun _ h => absurd h (List.not_mem_nil _)⟩
  | step c now hc _ ih =>
    cases c with
    | list c => exact ListCall.keeps_len d now c hc _ ih
    | hash c => exact hc.elim

/-- **`LLEN` is the length of the list.**  On every store the list calls other than
`InsertBefore` and `InsertAfter` reach, failed calls included, `Tx.Len` returns the length
of the key's sequence: 0 when the key is absent. -/
theorem len_eq_length {core : Core} {s : Store} (h : Reachable d core Call.IsListNoInsert s)
    (key : String) (now : Int) : (len d key now).result s = .ok ((seqOf s key).length : Int) := by
  obtain ⟨hi, hl⟩ := ListLen.of_reachable d h
  cases hf : s.findKey key with
  | none =>
    simp [Tx.result, len, bind, EStateM.bind, orThrow, sqlLen, hi.curRow, hf, seqOf_eq_nil hf, pure,
      EStateM.pure]
  | some r =>
    have hr := (findKey_eq_some.1 hf).1
    rw [length_seqOf (hi.kindOf hf)]
    simp [Tx.result, len, bind, EStateM.bind, orThrow, sqlLen, hi.curRow, hf,
      hl r hr (hi.keys r hr).1, pure, EStateM.pure]

/-- Two pushes and a pop onto `k`, then `RPOPLPUSH k j`. -/
def pushesAndPops : Store :=
  runCalls .sqlite ⟨fun _ => none, fun _ => none, fun _ => [], fun _ => []⟩ Store.empty
    [(.list (.pushBack "k" [1]), 0), (.list (.pushFront "k" [2]), 0), (.list (.popFront "k"), 0),
      (.list (.popBackPushFront "k" "j"), 0), (.list (.pushBack "k" [3]), 0)]

theorem len_eq_length_pushesAndPops :
    Reachable .sqlite ⟨fun _ => none, fun _ => none, fun _ => [], fun _ => []⟩ Call.IsListNoInsert
        pushesAndPops ∧
      (len .sqlite "j" 0).result pushesAndPops = .ok ((seqOf pushesAndPops "j").length : Int) :=
  have h : Reachable .sqlite ⟨fun _ => none, fun _ => none, fun _ => [], fun _ => []⟩
      Call.IsListNoInsert pushesAndPops :=
    runCalls_reachable _ _ .empty (by simp [Call.IsListNoInsert])
  ⟨h, len_eq_length .sqlite h "j" 0⟩

/-- `j` holds the element `RPOPLPUSH` moved. -/
example : (len .sqlite "j" 0).result pushesAndPops = .ok 1 := by
  with_unfolding_all decide

end Methods

end RList
end Redka
