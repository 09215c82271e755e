import Redka.Effects
import Redka.RHash.Tx

/-! # What the hash methods do to keys

Every method of `rhash.Tx` is `Sound` from every store, and `Clean`: a hash method can
fail only in the typed upsert of `setField`, before it has written anything, or in a
read.  `SetMany` writes its fields one `setField` at a time, and only the first can fail:
once it has made the key a hash key, the others find a hash key (`setFields_ok`).

Each writer is read through one equation (`setField_eq`, `set_eq`, `delete_eq`, ...):
its reads return the store unchanged, so the equation is its one write with the value
the reads computed.
-/

namespace Redka
namespace RHash
open Store

variable (d : Dialect)

/-- What `sqlGet` reads of a field: its value, in a list of at most one. -/
def fieldValues (s : Store) (key field : String) (now : Int) : List Value :=
  ((rowsOf s key now).filter (·.field = field)).map (·.value)

/-- What `sqlCount` counts of some fields. -/
def countIn (s : Store) (key : String) (fields : List String) (now : Int) : Nat :=
  ((rowsOf s key now).filter (·.field ∈ fields)).length

/-- With no row selected at `now`, the hash reads see nothing. -/
theorem rowsOf_of_curRow {s : Store} {key : String} {now : Int} (h : s.curRow key .hash now = none) :
    rowsOf s key now = [] := by
  simp only [rowsOf, curkey, h]; rfl

/-! ## `setField` -/

/-- `Tx.set` (unexported), statement by statement: `sqlSet1` always returns the row's id,
so the fallback lookup never runs. -/
theorem setField_eq (key field : String) (value : Value) (now : Int) (s : Store) :
    setField d key field value now s = match upsertKey key .hash now 0 0 s with
      | .ok ((id, _), s1) => .ok () (s1.upsertHash id field value)
      | .error e => .error (typedError d e) s := by
  simp only [setField, bind, EStateM.bind, exec, sqlSet1, orThrow, sqlSet2]
  rcases upsertKey key .hash now 0 0 s with _ | ⟨⟨_, _⟩, _⟩ <;> rfl

theorem setField_sound (key field : String) (value : Value) (now : Int) (s : Store) :
    Sound (setField d key field value now) s := by
  cases h : upsertKey key .hash now 0 0 s with
  | error e => exact Sound.of_read (Tx.final_of_error (by rw [setField_eq, h]))
  | ok v =>
    obtain ⟨⟨id, len⟩, s1⟩ := v
    obtain ⟨hb, ⟨r, hr, hi, -, ht⟩, hinv⟩ := upsertKey_ok h
    exact Sound.of_final (Tx.final_of_ok (by rw [setField_eq, h]))
      (Evolves.of_bumps_writesAt hb (writesAt_upsertHash s1 id field value))
      fun hs => ((hinv hs fun _ => ⟨rfl, rfl⟩).1).upsertHash ⟨r, hr, hi, ht⟩ field value

/-- `setField` fails only on a key of another type, and then has written nothing. -/
theorem setField_error {key field : String} {value : Value} {now : Int} {s s' : Store} {e : Error}
    (h : setField d key field value now s = .error e s') :
    e = typedError d (.notNull "rkey.type") ∧ s' = s ∧ ∃ r, s.findKey key = some r ∧ r.type ≠ .hash := by
  rw [setField_eq] at h
  split at h
  · cases h
  · cases h
    obtain ⟨rfl, hr⟩ := upsertKey_error ‹_›
    exact ⟨rfl, rfl, hr⟩

theorem setField_clean (key field : String) (value : Value) (now : Int) (s : Store) :
    Clean (setField d key field value now) s := fun _ _ h => (setField_error d h).2.1

/-- After a successful `setField`, the key is a hash key. -/
theorem setField_ok {key field : String} {value : Value} {now : Int} {s s' : Store} {u : Unit}
    (h : setField d key field value now s = .ok u s') : ∃ id, s'.kindOf key = some (id, .hash) := by
  rw [setField_eq] at h
  split at h
  · cases h
    obtain ⟨-, ⟨r, hr, -, hk, ht⟩, -⟩ := upsertKey_ok ‹_›
    refine ⟨r.id, ?_⟩
    rw [kindOf_upsertHash]
    simp [kindOf, findKey_eq_some.2 ⟨hr, hk⟩, ht]
  · cases h

/-- On a key of another type, `setField` fails in the upsert and writes nothing. -/
theorem setField_of_other {key : String} {s : Store} {r : KeyRow} (hf : s.findKey key = some r)
    (ht : r.type ≠ .hash) (field : String) (value : Value) (now : Int) :
    setField d key field value now s = .error (typedError d (.notNull "rkey.type")) s := by
  rw [setField_eq, upsertKey_of_other hf ht]

/-- On a hash key, `setField` succeeds. -/
theorem setField_of_hash {key : String} {s : Store} {id : Nat} (hk : s.kindOf key = some (id, .hash))
    (field : String) (value : Value) (now : Int) :
    ∃ s', setField d key field value now s = .ok () s' := by
  cases h : setField d key field value now s with
  | ok u s' => exact ⟨s', rfl⟩
  | error e s' =>
    obtain ⟨-, -, r, hf, ht⟩ := setField_error d h
    simp only [kindOf, hf, Option.map_some', Option.some.injEq, Prod.mk.injEq] at hk
    exact absurd hk.2 ht

/-! ## Writers -/

/-- The loop of `SetMany`: one `setField` per entry. -/
def setFields (key : String) (now : Int) (l : List (String × Value)) : Tx Unit :=
  l.forM fun (field, val) => setField d key field val now

theorem setFields_cons (key : String) (now : Int) (f : String) (v : Value) (l : List (String × Value)) :
    setFields d key now ((f, v) :: l) = setField d key f v now >>= fun _ => setFields d key now l :=
  rfl

theorem setFields_sound (key : String) (now : Int) :
    ∀ (l : List (String × Value)) (s : Store), Sound (setFields d key now l) s
  | [], _ => Sound.of_read rfl
  | (f, v) :: l, s => (setField_sound d key f v now s).bind fun _ s1 _ => setFields_sound key now l s1

/-- From a hash key, every `setField` of the loop succeeds. -/
theorem setFields_ok (key : String) (now : Int) :
    ∀ (l : List (String × Value)) {s : Store} {id : Nat}, s.kindOf key = some (id, .hash) →
      ∃ s', setFields d key now l s = .ok () s'
  | [], s, _, _ => ⟨s, rfl⟩
  | (f, v) :: l, s, _, hk => by
    obtain ⟨s1, h1⟩ := setField_of_hash d hk f v now
    obtain ⟨_, hk1⟩ := setField_ok d h1
    obtain ⟨s2, h2⟩ := setFields_ok key now l hk1
    exact ⟨s2, by rw [setFields_cons]; simp only [bind, EStateM.bind, h1]; exact h2⟩

/-- Only the first `setField` of the loop can fail, and it has then written nothing. -/
theorem setFields_clean (key : String) (now : Int) (l : List (String × Value)) (s : Store) :
    Clean (setFields d key now l) s := fun e s' hx => by
  cases l with
  | nil => cases hx
  | cons fv l =>
    obtain ⟨f, v⟩ := fv
    rw [setFields_cons] at hx
    simp only [bind, EStateM.bind] at hx
    split at hx
    · obtain ⟨_, hk⟩ := setField_ok d ‹_›
      obtain ⟨_, h2⟩ := setFields_ok d key now l hk
      rw [h2] at hx
      cases hx
    · cases hx; exact setField_clean d key f v now s _ _ ‹_›

/-- `Tx.Set`: the count read before the write decides the result. -/
theorem set_eq (key field : String) (value : Value) (now : Int) (s : Store) :
    set d key field value now s =
      (setField d key field value now >>= fun _ => pure (decide (countIn s key [field] now = 0))) s :=
  rfl

/-- `Tx.SetMany`: the fields counted before the writes are taken off the number of
entries. -/
theorem setMany_eq (key : String) (items : Items) (now : Int) (s : Store) :
    setMany d key items now s = (setFields d key now items.entries >>= fun _ =>
      pure ((items.entries.length : Int) - countIn s key items.fields now)) s :=
  rfl

/-- `Tx.SetNotExists`: a field the read finds is left as it is. -/
theorem setNotExists_eq (key field : String) (value : Value) (now : Int) (s : Store) :
    setNotExists d key field value now s =
      if (fieldValues s key field now).isEmpty then
        (setField d key field value now >>= fun _ => pure true) s
      else .ok false s := by
  show (if (!(fieldValues s key field now).isEmpty) = true then pure false
    else setField d key field value now >>= fun _ => pure true) s = _
  cases (fieldValues s key field now).isEmpty <;> rfl

/-- `Tx.Delete`: no fields, or none of them present, is a count of 0 and no bump;
otherwise the fields go and the key's `len` loses their number. -/
theorem delete_eq (key : String) (fields : List String) (now : Int) (s : Store) :
    delete d key fields now s = if fields = [] then .ok 0 s else
      match s.curRow key .hash now with
      | none => .ok 0 s
      | some r =>
        if (s.rhash.filter fun x => x.kid = r.id && x.field ∈ fields).length = 0 then
          .ok 0 (s.deleteHash fun x => x.kid = r.id && x.field ∈ fields)
        else .ok (s.rhash.filter fun x => x.kid = r.id && x.field ∈ fields).length
          ((s.deleteHash fun x => x.kid = r.id && x.field ∈ fields).touch (·.selects key .hash now) 1
            (some now) (-((s.rhash.filter fun x => x.kid = r.id && x.field ∈ fields).length : Int))) := by
  unfold delete
  split
  · rfl
  · simp only [bind, EStateM.bind, orThrow, sqlDelete1, curkey, pure, EStateM.pure]
    cases s.curRow key .hash now with
    | none => rfl
    | some r =>
      dsimp only [Option.map]
      split <;> rfl

theorem delete_sound (key : String) (fields : List String) (now : Int) (s : Store) :
    Sound (delete d key fields now) s := by
  have h := delete_eq d key fields now s
  split at h
  · exact Sound.of_read (Tx.final_of_ok h)
  · cases hc : s.curRow key .hash now with
    | none => rw [hc] at h; exact Sound.of_read (Tx.final_of_ok h)
    | some r =>
      rw [hc] at h
      dsimp only at h
      split at h
      · rename_i h0
        have hn := List.filter_eq_nil_iff.1 (List.length_eq_zero.1 h0)
        rw [deleteHash_of_none fun x hx => Bool.eq_false_iff.2 (hn x hx)] at h
        exact Sound.of_read (Tx.final_of_ok h)
      · have hr := (findKey_eq_some.1 (curRow_eq_some.1 hc).1).1
        have hp : ∀ x : HashRow, (x.kid = r.id && x.field ∈ fields) → x.kid = r.id := fun x hx => by
          simp only [Bool.and_eq_true, decide_eq_true_eq] at hx; exact hx.1
        exact Sound.of_final (Tx.final_of_ok h)
          (Evolves.of_writesAt_bumps (writesAt_deleteHash hp)
            (bumps_touch (s := s.deleteHash fun x => x.kid = r.id && x.field ∈ fields) hr
              (KeyRow.selects_of_curRow hc) _ _))
          fun hs => hs.deleteFields hc fields

/-- `Tx.Delete` never fails. -/
theorem delete_clean (key : String) (fields : List String) (now : Int) (s : Store) :
    Clean (delete d key fields now) s := fun e s' hx => by
  rw [delete_eq] at hx
  split at hx
  · cases hx
  · split at hx
    · cases hx
    · split at hx <;> cases hx

/-! ## Reads -/

theorem get_run (key field : String) (now : Int) (s : Store) :
    get d key field now s = match fieldValues s key field now with
      | [] => .error .notFound s
      | v :: _ => .ok v s := by
  show (match fieldValues s key field now with
    | [] => (throw Error.notFound : Tx Value) | v :: _ => pure v) s = _
  cases fieldValues s key field now <;> rfl

theorem exists_run (key field : String) (now : Int) (s : Store) :
    «exists» d key field now s = .ok (!(fieldValues s key field now).isEmpty) s := rfl

theorem len_run (key : String) (now : Int) (s : Store) :
    len key now s = match (s.curRow key .hash now).map KeyRow.len with
      | none => .ok 0 s
      | some none => .error .scan s
      | some (some n) => .ok n s := by
  show (match (s.curRow key .hash now).map KeyRow.len with
    | none => (pure 0 : Tx Int) | some none => throw Error.scan | some (some n) => pure n) s = _
  rcases (s.curRow key .hash now).map KeyRow.len with _ | _ | n <;> rfl

/-- The read of `Incr` and `IncrFloat`: a missing field is `nil`. -/
theorem get_or_nil (key field : String) (now : Int) (s : Store) :
    tryCatch (get d key field now) (fun e : Error => if e = .notFound then pure [] else throw e) s =
      .ok ((fieldValues s key field now).headD []) s := by
  simp only [tryCatch, tryCatchThe, MonadExceptOf.tryCatch, EStateM.tryCatch, get_run]
  cases fieldValues s key field now <;> rfl

/-- `Tx.Incr` and `Tx.IncrFloat`: a missing field reads as `nil`, and the sum is written
back by `setField`. -/
theorem incrWith_eq {N : Type} (parse : Value → Option N) (add : N → N) (render : N → Value)
    (key field : String) (now : Int) (s : Store) :
    incrWith d parse add render key field now s =
      match parse ((fieldValues s key field now).headD []) with
      | none => .error .valueType s
      | some v => (setField d key field (render (add v)) now >>= fun _ => pure (add v)) s := by
  simp only [incrWith, bind, EStateM.bind, get_or_nil]
  cases parse ((fieldValues s key field now).headD []) <;> rfl

theorem count_final (key : String) (fields : List String) (now : Int) (s : Store) :
    (count d key fields now).final s = s := rfl
theorem fields_final (key : String) (now : Int) (s : Store) : (fields d key now).final s = s := rfl
theorem values_final (key : String) (now : Int) (s : Store) : (values key now).final s = s := rfl
theorem items_final (key : String) (now : Int) (s : Store) : (items key now).final s = s := rfl
theorem exists_final (key field : String) (now : Int) (s : Store) :
    («exists» d key field now).final s = s := rfl

theorem get_final (key field : String) (now : Int) (s : Store) : (get d key field now).final s = s := by
  rw [Tx.final, get_run]; cases fieldValues s key field now <;> rfl

theorem getMany_final (key : String) (fields : List String) (now : Int) (s : Store) :
    (getMany d key fields now).final s = s := by
  match fields with
  | [] => rfl
  | [field] =>
    show (match fieldValues s key field now with
      | [] => (pure [] : Tx (List (String × Value))) | _ :: _ => throw Error.scan).final s = s
    cases fieldValues s key field now <;> rfl
  | _ :: _ :: _ => rfl

theorem len_final (key : String) (now : Int) (s : Store) : (len key now).final s = s := by
  rw [Tx.final, len_run]; rcases (s.curRow key .hash now).map KeyRow.len with _ | _ | n <;> rfl

/-! ## Every writer -/

theorem set_sound (key field : String) (value : Value) (now : Int) (s : Store) :
    Sound (set d key field value now) s :=
  Sound.congr (set_eq d key field value now s) ((setField_sound d key field value now s).then_pure _)

theorem set_clean (key field : String) (value : Value) (now : Int) (s : Store) :
    Clean (set d key field value now) s :=
  Clean.congr (set_eq d key field value now s) ((setField_clean d key field value now s).then_pure _)

theorem setMany_sound (key : String) (items : Items) (now : Int) (s : Store) :
    Sound (setMany d key items now) s :=
  Sound.congr (setMany_eq d key items now s) ((setFields_sound d key now items.entries s).then_pure _)

theorem setMany_clean (key : String) (items : Items) (now : Int) (s : Store) :
    Clean (setMany d key items now) s :=
  Clean.congr (setMany_eq d key items now s) ((setFields_clean d key now items.entries s).then_pure _)

theorem setNotExists_sound (key field : String) (value : Value) (now : Int) (s : Store) :
    Sound (setNotExists d key field value now) s := by
  have h := setNotExists_eq d key field value now s
  split at h
  · exact Sound.congr h ((setField_sound d key field value now s).then_pure _)
  · exact Sound.of_read (Tx.final_of_ok h)

theorem setNotExists_clean (key field : String) (value : Value) (now : Int) (s : Store) :
    Clean (setNotExists d key field value now) s := by
  have h := setNotExists_eq d key field value now s
  split at h
  · exact Clean.congr h ((setField_clean d key field value now s).then_pure _)
  · exact Clean.of_read (Tx.final_of_ok h)

section Incr
variable {N : Type} (parse : Value → Option N) (add : N → N) (render : N → Value)

theorem incrWith_sound (key field : String) (now : Int) (s : Store) :
    Sound (incrWith d parse add render key field now) s := by
  have h := incrWith_eq d parse add render key field now s
  split at h
  · exact Sound.of_read (Tx.final_of_error h)
  · exact Sound.congr h ((setField_sound d key field _ now s).then_pure _)

theorem incrWith_clean (key field : String) (now : Int) (s : Store) :
    Clean (incrWith d parse add render key field now) s := by
  have h := incrWith_eq d parse add render key field now s
  split at h
  · exact Clean.of_read (Tx.final_of_error h)
  · exact Clean.congr h ((setField_clean d key field _ now s).then_pure _)

end Incr

end RHash
end Redka
