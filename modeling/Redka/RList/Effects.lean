import Redka.Effects
import Redka.RList.Spec

/-! # What the list methods do to keys

Every method of `rlist.Tx` is `Sound` from every store: it keeps the key rows it finds,
raises the version of each list whose elements change, and keeps `Inv`.  From a store
with `Inv` every method but two is also `Clean`: when it fails, it has written nothing.
The two are the methods that run a second write after a first one succeeded:

* `Tx.insert` has bumped the key with `sqlInsert` (version, `mtime`, `len + 1`) when its
  insert fails on a missing pivot (`insert_error`);
* `Tx.PopBackPushFront` has popped `src` when its push onto `dest` fails, which it does
  when `dest` is a key of another type (`popBackPushFront_error`).

The proofs read each method through one equation (`push_eq`, `insert_eq`) or through the
outcomes of its one statement.
-/

namespace Redka
namespace RList
open Store

variable (d : Dialect)

/-! ## Pushes -/

/-- `Tx.push`, statement by statement. -/
theorem push_eq (ins : Nat → Value → Stmt Unit) (key : String) (e : Value) (now : Int) (s : Store) :
    push d ins key e now s = match sqlPush key now s with
      | .error err => .error (typedError d err) s
      | .ok ((_, none), s1) => .error .scan s1
      | .ok ((id, some n), s1) => match ins id e s1 with
        | .ok (_, s2) => .ok n s2
        | .error err => .error (typedError d err) s1 := by
  simp only [push, bind, EStateM.bind, orThrow, pure, EStateM.pure]
  rcases sqlPush key now s with _ | ⟨⟨id, _ | n⟩, s1⟩
  · rfl
  · rfl
  · cases h : ins id e s1 <;> simp only [h, EStateM.bind, orThrow, EStateM.pure]

/-- A position outside the list's own positions is a free slot, so the push inserts. -/
theorem pushAt_eq {choose : List ℚ → ℚ} (hc : ∀ ps, choose ps ∉ ps) (kid : Nat) (e : Value)
    (s : Store) : ∃ s', s.insertList ⟨kid, choose (positions (s.listRows kid)), e⟩ = some s' ∧
      pushAt choose kid e s = .ok ((), s') := by
  obtain ⟨s', h⟩ := @insertList_isSome s ⟨kid, choose (positions (s.listRows kid)), e⟩
    fun hm => by
      obtain ⟨x, hx, he⟩ := List.mem_map.1 hm
      simp only [ListRow.slot, Prod.mk.injEq] at he
      exact hc _ (mem_positions.2 ⟨x, List.mem_filter.2 ⟨hx, by simp [he.1]⟩, he.2⟩)
  exact ⟨s', h, by simp only [pushAt, h]⟩

theorem pushBack_fresh (ps : List ℚ) : ps.max?.elim 0 (· + 1) ∉ ps :=
  fun h => lt_irrefl _ (lt_pushBackPos h)

theorem pushFront_fresh (ps : List ℚ) : ps.min?.elim 0 (· - 1) ∉ ps :=
  fun h => lt_irrefl _ (pushFrontPos_lt h)

/-- A push onto a key of another type fails in the upsert and writes nothing. -/
theorem push_of_other (ins : Nat → Value → Stmt Unit) {key : String} {s : Store} {r : KeyRow}
    (hf : s.findKey key = some r) (ht : r.type ≠ .list) (e : Value) (now : Int) :
    push d ins key e now s = .error (typedError d (.notNull "rkey.type")) s := by
  rw [push_eq, show sqlPush key now s = _ from upsertKey_of_other hf ht]

section Push
variable {choose : List ℚ → ℚ} (hc : ∀ ps, choose ps ∉ ps)
include hc

theorem push_sound (key : String) (e : Value) (now : Int) (s : Store) :
    Sound (push d (pushAt choose) key e now) s := by
  cases h : sqlPush key now s with
  | error err =>
    exact Sound.of_read (Tx.final_of_error (by rw [push_eq, h]))
  | ok v =>
    obtain ⟨⟨id, len⟩, s1⟩ := v
    obtain ⟨hb, ⟨r, hr, hi, -, ht⟩, hinv⟩ := upsertKey_ok h
    cases len with
    | none =>
      exact Sound.of_final (Tx.final_of_error (by rw [push_eq, h])) hb.evolves
        fun hs => (hinv hs nofun).1
    | some n =>
      obtain ⟨s2, hi2, hp⟩ := pushAt_eq hc id e s1
      have hx : push d (pushAt choose) key e now s = .ok n s2 := by rw [push_eq, h]; simp only [hp]
      exact Sound.of_final (Tx.final_of_ok hx) (Evolves.of_bumps_writesAt hb (writesAt_insertList hi2))
        fun hs => ((hinv hs nofun).1).insertList hi2 ⟨r, hr, hi, ht⟩

/-- From a store with `Inv`, a failed push has written nothing: only the upsert can
fail, on a key of another type. -/
theorem push_clean (key : String) (e : Value) (now : Int) {s : Store} (hs : Inv s) :
    Clean (push d (pushAt choose) key e now) s := fun err s' hx => by
  rw [push_eq] at hx
  cases h : sqlPush key now s with
  | error err' => rw [h] at hx; cases hx; rfl
  | ok v =>
    obtain ⟨⟨id, len⟩, s1⟩ := v
    obtain ⟨-, -, hinv⟩ := upsertKey_ok h
    obtain ⟨n, rfl⟩ := Option.isSome_iff_exists.1 (hinv hs nofun).2
    obtain ⟨s2, -, hp⟩ := pushAt_eq hc id e s1
    rw [h] at hx
    simp only [hp] at hx
    cases hx

end Push

/-! ## Statements that delete or rewrite rows -/

/-- What a list statement other than an insert leaves: the store, or the store with rows
deleted or rewritten and their triggers fired. -/
def ListWrite (s s' : Store) : Prop :=
  s' = s ∨ (∃ p now, s' = s.deleteList p now) ∨ ∃ p e now, s' = s.updateList p e now

section Writes
variable {s s' : Store} {key : String} {now : Int} {elem : Value} {n : Nat}

theorem ListWrite.sound (h : ListWrite s s') : Evolves s s' ∧ (Inv s → Inv s') := by
  rcases h with rfl | ⟨p, now, rfl⟩ | ⟨p, e, now, rfl⟩
  · exact ⟨Evolves.refl _, id⟩
  · exact ⟨evolves_deleteList s p now, fun hs => hs.deleteList p now⟩
  · exact ⟨evolves_updateList s p e now, fun hs => hs.updateList p e now⟩

/-- A pop deletes the rows at one position, and returns nothing only when it deletes
nothing. -/
theorem popAt_write {pick : List ℚ → Option ℚ} {l : List Value}
    (h : popAt pick key now s = .ok (l, s')) : ListWrite s s' ∧ (l = [] → s' = s) := by
  unfold popAt at h
  split at h
  · cases h; exact ⟨.inl rfl, fun _ => rfl⟩
  · split at h
    · cases h; exact ⟨.inl rfl, fun _ => rfl⟩
    · cases h
      exact ⟨.inr (.inl ⟨_, _, rfl⟩), fun hl => deleteList_of_nil (List.map_eq_nil_iff.1 hl) _⟩

/-- `sqlSet` rewrites rows, and counts none only when it rewrites none. -/
theorem sqlSet_write {desc : Bool} {idx : Int} (h : sqlSet key now desc idx elem s = .ok (n, s')) :
    ListWrite s s' ∧ (n = 0 → s' = s) := by
  unfold sqlSet at h
  split at h
  · cases h; exact ⟨.inl rfl, fun _ => rfl⟩
  · split at h
    · cases h; exact ⟨.inl rfl, fun _ => rfl⟩
    · cases h
      exact ⟨.inr (.inr ⟨_, _, _, rfl⟩), fun hn => updateList_of_nil (List.length_eq_zero.1 hn) _ _⟩

theorem sqlDelete_write (h : sqlDelete key now elem s = .ok (n, s')) : ListWrite s s' := by
  unfold sqlDelete at h
  split at h <;> cases h
  · exact .inl rfl
  · exact .inr (.inl ⟨_, _, rfl⟩)

theorem deleteSome_write {desc : Bool} {count : Option Int}
    (h : deleteSome desc key now elem count s = .ok (n, s')) : ListWrite s s' := by
  unfold deleteSome at h
  split at h
  · cases h
  · split at h <;> cases h
    · exact .inl rfl
    · exact .inr (.inl ⟨_, _, rfl⟩)

theorem sqlTrim_write {d : Dialect} {start stop : Int}
    (h : sqlTrim d key now start stop s = .ok (n, s')) : ListWrite s s' := by
  rcases sqlTrim_cases d key now start stop s with ⟨_, h'⟩ | ⟨_, _, h'⟩ | ⟨_, h'⟩ <;>
    rw [h'] at h <;> cases h
  · exact .inl rfl
  · exact .inr (.inl ⟨_, _, rfl⟩)

end Writes

/-! ## Pops -/

/-- `Tx.pop`, statement by statement. -/
theorem pop_eq_match (st : Stmt (List Value)) (s : Store) :
    pop d st s = match st s with
      | .error e => .error (typedError d e) s
      | .ok ([], s1) => .error .notFound s1
      | .ok (v :: _, s1) => .ok v s1 := by
  simp only [pop, bind, EStateM.bind, orThrow]
  rcases st s with _ | ⟨_ | _, _⟩ <;> rfl

theorem pop_sound (pick : List ℚ → Option ℚ) (key : String) (now : Int) (s : Store) :
    Sound (pop d (popAt pick key now)) s := by
  cases h : popAt pick key now s with
  | error e => exact Sound.of_read (Tx.final_of_error (by rw [pop_eq_match, h]))
  | ok v =>
    obtain ⟨l, s1⟩ := v
    have hf : (pop d (popAt pick key now)).final s = s1 := by
      rw [Tx.final, pop_eq_match, h]; cases l <;> rfl
    exact Sound.of_final hf (popAt_write h).1.sound.1 (popAt_write h).1.sound.2

/-- A pop that finds nothing has deleted nothing. -/
theorem pop_clean (pick : List ℚ → Option ℚ) (key : String) (now : Int) (s : Store) :
    Clean (pop d (popAt pick key now)) s := fun e s' hx => by
  rw [pop_eq_match] at hx
  split at hx
  · cases hx; rfl
  · cases hx; exact (popAt_write ‹_›).2 rfl
  · cases hx

theorem popBackPushFront_sound (src dest : String) (now : Int) (s : Store) :
    Sound (popBackPushFront d src dest now) s :=
  (pop_sound d _ src now s).bind fun e s1 _ =>
    (push_sound d pushFront_fresh dest e now s1).bind fun _ _ _ => Sound.of_read rfl

/-- A failed `PopBackPushFront` has written nothing, or has popped `src`: its push onto
`dest` failed after the pop. -/
theorem popBackPushFront_error (src dest : String) (now : Int) {s s' : Store} (hs : Inv s)
    {e : Error} (h : popBackPushFront d src dest now s = .error e s') :
    s' = s ∨ ∃ v, popBack d src now s = .ok v s' := by
  simp only [popBackPushFront, bind, EStateM.bind, pure, EStateM.pure] at h
  cases h1 : popBack d src now s with
  | error e1 s1 => rw [h1] at h; cases h; exact .inl (pop_clean d _ src now s _ _ h1)
  | ok v s1 =>
    rw [h1] at h
    dsimp only at h
    cases h2 : pushFront d dest v now s1 with
    | ok => rw [h2] at h; cases h
    | error e2 s2 =>
      rw [h2] at h; cases h
      have hs1 : Inv s1 :=
        Tx.final_of_ok (x := pop d (popAt List.max? src now)) h1 ▸ (pop_sound d _ src now s).inv hs
      exact .inr ⟨v, by rw [push_clean d pushFront_fresh dest v now hs1 _ _ h2]⟩

/-! ## Inserts -/

/-- `Tx.insert`, statement by statement: `sqlInsert` bumps the list key before the
insert runs. -/
theorem insert_eq (ins : Nat → Value → Value → Stmt Unit) (key : String) (p e : Value)
    (now : Int) (s : Store) : insert d ins key p e now s = match s.curRow key .list now with
      | none => .error .notFound (s.touch (·.selects key .list now) 1 (some now) 1)
      | some r => match r.len with
        | none => .error .scan (s.touch (·.selects key .list now) 1 (some now) 1)
        | some n => match ins r.id p e (s.touch (·.selects key .list now) 1 (some now) 1) with
          | .ok (_, s2) => .ok (n + 1) s2
          | .error err => .error (if constraintFailed d err "NOT NULL" "rlist.pos" then .notFound
              else typedError d err) (s.touch (·.selects key .list now) 1 (some now) 1) := by
  simp only [insert, bind, EStateM.bind, orThrow, sqlInsert, exec]
  rcases s.curRow key .list now with _ | ⟨id, _, _, _, _, _, _ | n⟩
  · rfl
  · rfl
  · dsimp only [Option.map, EStateM.bind, exec]
    cases ins id p e (s.touch (·.selects key .list now) 1 (some now) 1) with
    | ok v => obtain ⟨⟨⟩, _⟩ := v; rfl
    | error => rfl

/-- `insertNear` inserts one row into its list, or nothing. -/
theorem insertNear_ok {adj : ℚ → List ℚ → Option ℚ} {beyond : ℚ → ℚ} {kid : Nat} {p e : Value}
    {s s' : Store} {u : Unit} (h : insertNear adj beyond kid p e s = .ok (u, s')) :
    s' = s ∨ ∃ pos, s.insertList ⟨kid, pos, e⟩ = some s' := by
  unfold insertNear at h
  dsimp only at h
  split at h
  · cases h; exact .inl rfl
  · cases h
  · split at h
    · cases h; exact .inr ⟨_, ‹_›⟩
    · cases h

/-- Where an insert ends: with the list key bumped by `sqlInsert`, and one row more in
the list it selected when the insert statement succeeded. -/
theorem insert_final (adj : ℚ → List ℚ → Option ℚ) (beyond : ℚ → ℚ) (key : String) (p e : Value)
    (now : Int) (s : Store) :
    (insert d (insertNear adj beyond) key p e now).final s =
        s.touch (·.selects key .list now) 1 (some now) 1 ∨
      ∃ r, s.curRow key .list now = some r ∧ ∃ pos,
        (s.touch (·.selects key .list now) 1 (some now) 1).insertList ⟨r.id, pos, e⟩ =
          some ((insert d (insertNear adj beyond) key p e now).final s) := by
  rw [Tx.final, insert_eq]
  rcases hc : s.curRow key .list now with _ | r
  · exact .inl rfl
  · dsimp only
    rcases r.len with _ | n
    · exact .inl rfl
    · dsimp only
      cases hi : insertNear adj beyond r.id p e (s.touch (·.selects key .list now) 1 (some now) 1) with
      | error => exact .inl rfl
      | ok v =>
        obtain ⟨u, s2⟩ := v
        rcases insertNear_ok hi with h | ⟨pos, h⟩
        · exact .inl h
        · exact .inr ⟨r, rfl, pos, h⟩

theorem insert_sound (adj : ℚ → List ℚ → Option ℚ) (beyond : ℚ → ℚ) (key : String) (p e : Value)
    (now : Int) (s : Store) : Sound (insert d (insertNear adj beyond) key p e now) s := by
  rcases insert_final d adj beyond key p e now s with h | ⟨r, hc, pos, h⟩
  · exact Sound.of_final h (evolves_touch s _ Int.one_nonneg _ _) fun hs => hs.touch_list key now
  · have hr := (findKey_eq_some.1 (curRow_eq_some.1 hc).1).1
    have hg := isTouch_touch (·.selects key .list now) Int.one_nonneg (some now) 1
    exact Sound.of_final rfl
      (Evolves.of_bumps_writesAt (bumps_touch hr (KeyRow.selects_of_curRow hc) _ _)
        (writesAt_insertList h))
      fun hs => (hs.touch_list key now).insertList h
        ⟨_, mem_touch hr _ _ _ _, hg.id r, (hg.type r).trans (curRow_eq_some.1 hc).2.1⟩

/-- A failed insert leaves the list key bumped by `sqlInsert` (version, `mtime` and
`len + 1`), whether it found no list, no `len`, or no pivot. -/
theorem insert_error {ins : Nat → Value → Value → Stmt Unit} {key : String} {p e : Value}
    {now : Int} {s s' : Store} {err : Error} (h : insert d ins key p e now s = .error err s') :
    s' = s.touch (·.selects key .list now) 1 (some now) 1 := by
  rw [insert_eq] at h
  split at h
  · cases h; rfl
  · split at h
    · cases h; rfl
    · split at h <;> cases h; rfl

/-! ## Index writes, deletions and reads -/

theorem set_sound (key : String) (idx : Int) (elem : Value) (now : Int) (s : Store) :
    Sound (set d key idx elem now) s := by
  unfold set
  split
  exact (Sound.of_orThrow (fun _ _ h => (sqlSet_write h).1.sound) _).bind
    fun _ _ _ => Sound.of_read (by split <;> rfl)

/-- `Set` fails on a count of 0, when `sqlSet` has rewritten nothing. -/
theorem set_clean (key : String) (idx : Int) (elem : Value) (now : Int) (s : Store) :
    Clean (set d key idx elem now) s := fun e s' hx => by
  by_cases hi : idx < 0 <;> simp only [set, hi, if_true, if_false, bind, EStateM.bind] at hx
  all_goals
    split at hx
    · rename_i h
      split at hx
      · cases hx; exact (sqlSet_write (ok_of_orThrow h)).2 ‹_›
      · cases hx
    · cases hx; exact Clean.of_orThrow _ _ _ _ ‹_›

theorem delete_sound (key : String) (elem : Value) (now : Int) (s : Store) :
    Sound (delete key elem now) s :=
  Sound.of_orThrow (fun _ _ h => (sqlDelete_write h).sound) _

theorem deleteWith_sound (desc : Bool) (key : String) (elem : Value) (count now : Int) (s : Store) :
    Sound (deleteWith d (deleteSome desc) key elem count now) s :=
  Sound.of_orThrow (fun _ _ h => (deleteSome_write h).sound) _

theorem trim_sound (key : String) (start stop now : Int) (s : Store) :
    Sound (trim d key start stop now) s := by
  cases d
  · exact Sound.of_orThrow (fun _ _ h => (sqlTrim_write h).sound) _
  · exact Sound.of_read (Tx.final_of_error (trim_postgres key start stop now s))

theorem get_final (key : String) (idx now : Int) (s : Store) : (get d key idx now).final s = s := by
  unfold get
  split
  rename_i desc i _
  obtain ⟨r, h⟩ : ∃ r, exec (sqlGet d key now desc i) s = .ok r s := by
    rcases sqlGet_cases d key now desc i s with ⟨v, h⟩ | ⟨e, h, -⟩
    · exact ⟨.ok v, by simp only [exec, h]⟩
    · exact ⟨.error e, by simp only [exec, h]⟩
  rw [Tx.final_bind_ok h]
  split <;> rfl

theorem len_final (key : String) (now : Int) (s : Store) : (len d key now).final s = s := by
  unfold len
  rw [Tx.final_bind_ok (x := orThrow (sqlLen key now) _) rfl]
  split <;> rfl

theorem range_final (key : String) (start stop now : Int) (s : Store) :
    (range d key start stop now).final s = s := by
  unfold range
  split
  · rfl
  · rcases sqlRange_cases d key now start stop s with ⟨v, h⟩ | ⟨e, h, -⟩ <;>
      simp only [Tx.final, orThrow, h]

end RList
end Redka
