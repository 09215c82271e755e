import Redka.Calls
import Redka.RList.Effects
import Redka.RHash.Effects

/-! # What every run of list and hash calls keeps

The method lemmas of `RList.Effects` and `RHash.Effects`, gathered per call: every call
is `Sound` from every store, so every store reachable by list and hash calls has `Inv`
(`Inv.of_reachable`), and every call keeps the key rows it finds and raises the version of
each key whose payload it changes.

A failed call is not always free of effects.  From a store with `Inv` a failed call has
written nothing, but for the two methods that write twice (`ListCall.error_effect`): an
insert has bumped its list key with `sqlInsert`, and `PopBackPushFront` has popped its
source.  Hash calls never fail after a write (`HashCall.clean`).
-/

namespace Redka
open Store

/-! ## Each call is sound -/

theorem ListCall.sound (d : Dialect) (c : ListCall) (now : Int) (s : Store) : Sound (c.tx d now) s := by
  cases c with
  | pushBack k e => exact (RList.push_sound d RList.pushBack_fresh k e now s).forget
  | pushFront k e => exact (RList.push_sound d RList.pushFront_fresh k e now s).forget
  | popBack k => exact (RList.pop_sound d _ k now s).forget
  | popFront k => exact (RList.pop_sound d _ k now s).forget
  | insertBefore k p e => exact (RList.insert_sound d _ _ k p e now s).forget
  | insertAfter k p e => exact (RList.insert_sound d _ _ k p e now s).forget
  | set k i e => exact RList.set_sound d k i e now s
  | delete k e => exact (RList.delete_sound k e now s).forget
  | deleteFront k e n => exact (RList.deleteWith_sound d false k e n now s).forget
  | deleteBack k e n => exact (RList.deleteWith_sound d true k e n now s).forget
  | popBackPushFront src dest => exact (RList.popBackPushFront_sound d src dest now s).forget
  | trim k a b => exact (RList.trim_sound d k a b now s).forget
  | get k i => exact (Sound.of_read (RList.get_final d k i now s)).forget
  | len k => exact (Sound.of_read (RList.len_final d k now s)).forget
  | range k a b => exact (Sound.of_read (RList.range_final d k a b now s)).forget

theorem HashCall.sound (d : Dialect) (core : Core) (c : HashCall) (now : Int) (s : Store) :
    Sound (c.tx d core now) s := by
  cases c with
  | set k f v => exact (RHash.set_sound d k f v now s).forget
  | setMany k m => exact (RHash.setMany_sound d k m now s).forget
  | setNotExists k f v => exact (RHash.setNotExists_sound d k f v now s).forget
  | delete k fs => exact (RHash.delete_sound d k fs now s).forget
  | incr k f n => exact (RHash.incrWith_sound d _ _ _ k f now s).forget
  | incrFloat k f x => exact (RHash.incrWith_sound d _ _ _ k f now s).forget
  | get k f => exact (Sound.of_read (RHash.get_final d k f now s)).forget
  | getMany k fs => exact (Sound.of_read (RHash.getMany_final d k fs now s)).forget
  | «exists» k f => exact (Sound.of_read (RHash.exists_final d k f now s)).forget
  | fields k => exact (Sound.of_read (RHash.fields_final d k now s)).forget
  | values k => exact (Sound.of_read (RHash.values_final k now s)).forget
  | items k => exact (Sound.of_read (RHash.items_final k now s)).forget
  | len k => exact (Sound.of_read (RHash.len_final k now s)).forget

theorem Call.sound (d : Dialect) (core : Core) (now : Int) (s : Store) :
    ∀ c : Call, Sound (c.tx d core now) s
  | .list c => ListCall.sound d c now s
  | .hash c => HashCall.sound d core c now s

/-- **Run.** Every store list and hash calls reach has `Inv`. -/
theorem Inv.of_reachable {d : Dialect} {core : Core} {allowed : Call → Prop} {s : Store}
    (h : Reachable d core allowed s) : Inv s := by
  induction h with
  | empty => exact Inv.empty
  | step c now _ _ ih => exact (Call.sound d core now _ c).inv ih

/-! ## Failed calls -/

/-- A failed hash call has written nothing. -/
theorem HashCall.clean (d : Dialect) (core : Core) (c : HashCall) (now : Int) (s : Store) :
    Clean (c.tx d core now) s := by
  cases c with
  | set k f v => exact (RHash.set_clean d k f v now s).forget
  | setMany k m => exact (RHash.setMany_clean d k m now s).forget
  | setNotExists k f v => exact (RHash.setNotExists_clean d k f v now s).forget
  | delete k fs => exact (RHash.delete_clean d k fs now s).forget
  | incr k f n => exact (RHash.incrWith_clean d _ _ _ k f now s).forget
  | incrFloat k f x => exact (RHash.incrWith_clean d _ _ _ k f now s).forget
  | get k f => exact (Clean.of_read (RHash.get_final d k f now s)).forget
  | getMany k fs => exact (Clean.of_read (RHash.getMany_final d k fs now s)).forget
  | «exists» k f => exact (Clean.of_read (RHash.exists_final d k f now s)).forget
  | fields k => exact (Clean.of_read (RHash.fields_final d k now s)).forget
  | values k => exact (Clean.of_read (RHash.values_final k now s)).forget
  | items k => exact (Clean.of_read (RHash.items_final k now s)).forget
  | len k => exact (Clean.of_read (RHash.len_final k now s)).forget

/-- From a store with `Inv`, a failed list call has written nothing, but for an insert,
which leaves its key bumped by `sqlInsert`, and a `PopBackPushFront` whose pop succeeded,
which leaves `src` popped. -/
theorem ListCall.error_effect (d : Dialect) {s s' : Store} (hs : Inv s) (c : ListCall) (now : Int)
    {e : Error} (h : c.tx d now s = .error e s') :
    s' = s ∨
      (∃ k p x, (c = .insertBefore k p x ∨ c = .insertAfter k p x) ∧
        s' = s.touch (·.selects k .list now) 1 (some now) 1) ∨
      ∃ src dest, c = .popBackPushFront src dest ∧ ∃ v, RList.popBack d src now s = .ok v s' := by
  cases c with
  | pushBack k x => exact .inl ((RList.push_clean d RList.pushBack_fresh k x now hs).forget _ _ h)
  | pushFront k x => exact .inl ((RList.push_clean d RList.pushFront_fresh k x now hs).forget _ _ h)
  | popBack k => exact .inl ((RList.pop_clean d _ k now s).forget _ _ h)
  | popFront k => exact .inl ((RList.pop_clean d _ k now s).forget _ _ h)
  | insertBefore k p x =>
    exact .inr (.inl ⟨k, p, x, .inl rfl, RList.insert_error d (Tx.forget_error h)⟩)
  | insertAfter k p x =>
    exact .inr (.inl ⟨k, p, x, .inr rfl, RList.insert_error d (Tx.forget_error h)⟩)
  | set k i x => exact .inl (RList.set_clean d k i x now s _ _ h)
  | delete k x => exact .inl ((Clean.of_orThrow _ _).forget _ _ h)
  | deleteFront k x n => exact .inl ((Clean.of_orThrow _ _).forget _ _ h)
  | deleteBack k x n => exact .inl ((Clean.of_orThrow _ _).forget _ _ h)
  | popBackPushFront src dest =>
    rcases RList.popBackPushFront_error d src dest now hs (Tx.forget_error h) with h' | h'
    · exact .inl h'
    · exact .inr (.inr ⟨src, dest, rfl, h'⟩)
  | trim k a b =>
    cases d with
    | sqlite => exact .inl ((Clean.of_orThrow (RList.sqlTrim .sqlite k now a b) _).forget _ _ h)
    | postgres => exact .inl ((Clean.of_orThrow (RList.sqlTrimPostgres k now a b) _).forget _ _ h)
  | get k i => exact .inl ((Clean.of_read (RList.get_final d k i now s)).forget _ _ h)
  | len k => exact .inl ((Clean.of_read (RList.len_final d k now s)).forget _ _ h)
  | range k a b => exact .inl ((Clean.of_read (RList.range_final d k a b now s)).forget _ _ h)

/-! ## Typed rows and versions -/

/-- **Typed rows.** On every store list and hash calls reach, failed calls included, every
row of `rlist` belongs to a list key and every row of `rhash` to a hash key; no call
changes the id, key or type of a key row; and the writers that go through the typed
upsert, a push and `setField`, fail on a key of another type with its `NOT NULL` error,
before writing anything.  The other list writers select their key with `type = 2`, and so
find no key of another type. -/
theorem typed_rows_of_reachable {d : Dialect} {core : Core} {s : Store}
    (hs : Reachable d core (fun _ => True) s) :
    (∀ x ∈ s.rlist, ∃ r ∈ s.rkey, r.id = x.kid ∧ r.type = .list) ∧
      (∀ x ∈ s.rhash, ∃ r ∈ s.rkey, r.id = x.kid ∧ r.type = .hash) ∧
      (∀ (c : Call) (now : Int), ∀ r ∈ s.rkey, ∃ r' ∈ ((c.tx d core now).final s).rkey,
        r'.id = r.id ∧ r'.key = r.key ∧ r'.type = r.type) ∧
      ∀ key r, s.findKey key = some r →
        (r.type ≠ .list → ∀ ins e now,
          RList.push d ins key e now s = .error (typedError d (.notNull "rkey.type")) s) ∧
        (r.type ≠ .hash → ∀ field value now,
          RHash.setField d key field value now s = .error (typedError d (.notNull "rkey.type")) s) :=
  have hi := Inv.of_reachable hs
  ⟨hi.list_kid, hi.hash_kid, fun c now r hr =>
    have ⟨r', hr', hid, hk, ht, _⟩ := (Call.sound d core now s c).evolves.kept r hr
    ⟨r', hr', hid, hk, ht⟩,
    fun _ _ hf => ⟨fun ht ins e now => RList.push_of_other d ins hf ht e now,
      fun ht field value now => RHash.setField_of_other d hf ht field value now⟩⟩

/-- The statement on the store a list push and a hash write reach. -/
theorem typed_rows_of_reachable_push_set :
    Reachable .sqlite ⟨fun _ => none, fun _ => none, fun _ => [], fun _ => []⟩ (fun _ => True)
        (runCalls .sqlite ⟨fun _ => none, fun _ => none, fun _ => [], fun _ => []⟩ Store.empty
          [(.list (.pushBack "a" [1]), 0), (.hash (.set "h" "f" [1]), 0)]) ∧
      (∀ x ∈ (runCalls .sqlite ⟨fun _ => none, fun _ => none, fun _ => [], fun _ => []⟩ Store.empty
          [(.list (.pushBack "a" [1]), 0), (.hash (.set "h" "f" [1]), 0)]).rlist,
        ∃ r ∈ (runCalls .sqlite ⟨fun _ => none, fun _ => none, fun _ => [], fun _ => []⟩ Store.empty
          [(.list (.pushBack "a" [1]), 0), (.hash (.set "h" "f" [1]), 0)]).rkey,
          r.id = x.kid ∧ r.type = .list) ∧
      (∀ x ∈ (runCalls .sqlite ⟨fun _ => none, fun _ => none, fun _ => [], fun _ => []⟩ Store.empty
          [(.list (.pushBack "a" [1]), 0), (.hash (.set "h" "f" [1]), 0)]).rhash,
        ∃ r ∈ (runCalls .sqlite ⟨fun _ => none, fun _ => none, fun _ => [], fun _ => []⟩ Store.empty
          [(.list (.pushBack "a" [1]), 0), (.hash (.set "h" "f" [1]), 0)]).rkey,
          r.id = x.kid ∧ r.type = .hash) ∧
      (∀ (c : Call) (now : Int), ∀ r ∈ (runCalls .sqlite
          ⟨fun _ => none, fun _ => none, fun _ => [], fun _ => []⟩ Store.empty
          [(.list (.pushBack "a" [1]), 0), (.hash (.set "h" "f" [1]), 0)]).rkey,
        ∃ r' ∈ ((c.tx .sqlite ⟨fun _ => none, fun _ => none, fun _ => [], fun _ => []⟩ now).final
          (runCalls .sqlite ⟨fun _ => none, fun _ => none, fun _ => [], fun _ => []⟩ Store.empty
            [(.list (.pushBack "a" [1]), 0), (.hash (.set "h" "f" [1]), 0)])).rkey,
          r'.id = r.id ∧ r'.key = r.key ∧ r'.type = r.type) ∧
      ∀ key r, (runCalls .sqlite ⟨fun _ => none, fun _ => none, fun _ => [], fun _ => []⟩ Store.empty
          [(.list (.pushBack "a" [1]), 0), (.hash (.set "h" "f" [1]), 0)]).findKey key = some r →
        (r.type ≠ .list → ∀ ins e now,
          RList.push .sqlite ins key e now (runCalls .sqlite
            ⟨fun _ => none, fun _ => none, fun _ => [], fun _ => []⟩ Store.empty
            [(.list (.pushBack "a" [1]), 0), (.hash (.set "h" "f" [1]), 0)]) =
            .error (typedError .sqlite (.notNull "rkey.type")) (runCalls .sqlite
              ⟨fun _ => none, fun _ => none, fun _ => [], fun _ => []⟩ Store.empty
              [(.list (.pushBack "a" [1]), 0), (.hash (.set "h" "f" [1]), 0)])) ∧
        (r.type ≠ .hash → ∀ field value now,
          RHash.setField .sqlite key field value now (runCalls .sqlite
            ⟨fun _ => none, fun _ => none, fun _ => [], fun _ => []⟩ Store.empty
            [(.list (.pushBack "a" [1]), 0), (.hash (.set "h" "f" [1]), 0)]) =
            .error (typedError .sqlite (.notNull "rkey.type")) (runCalls .sqlite
              ⟨fun _ => none, fun _ => none, fun _ => [], fun _ => []⟩ Store.empty
              [(.list (.pushBack "a" [1]), 0), (.hash (.set "h" "f" [1]), 0)])) :=
  have hs := @runCalls_reachable .sqlite ⟨fun _ => none, fun _ => none, fun _ => [], fun _ => []⟩
    (fun _ => True) Store.empty [(.list (.pushBack "a" [1]), 0), (.hash (.set "h" "f" [1]), 0)]
    .empty fun _ _ => trivial
  ⟨hs, typed_rows_of_reachable hs⟩

/-- **Versions.** From every store, a call that changes the elements of a list, in
`order by pos`, or the value of a field of a hash, raises the version of its key. -/
theorem version_grows_with_payload (d : Dialect) (core : Core) (c : Call) (now : Int) {s : Store}
    {r : KeyRow} (hr : r ∈ s.rkey)
    (hp : listPayload ((c.tx d core now).final s) r.id ≠ listPayload s r.id ∨
      hashPayload ((c.tx d core now).final s) r.id ≠ hashPayload s r.id) :
    ∃ r' ∈ ((c.tx d core now).final s).rkey, r'.key = r.key ∧ r.version < r'.version := by
  have he := (Call.sound d core now s c).evolves
  obtain ⟨r', hr', hid, hv⟩ := he.bumped r hr fun h => hp.elim (· h.1) (· h.2)
  obtain ⟨r'', hr'', hid', hk, -⟩ := he.kept r hr
  exact ⟨r', hr', eq_of_id_eq hr' hr'' (hid.trans hid'.symm) ▸ hk, hv⟩

/-- A second push onto a list raises its version from 1 to 2. -/
theorem version_grows_with_payload_push :
    (⟨1, "k", .list, 1, none, 0, some 1⟩ : KeyRow) ∈
        (runList .sqlite Store.empty [(.pushBack "k" [1], 0)]).rkey ∧
      listPayload (((Call.list (.pushBack "k" [2])).tx .sqlite
          ⟨fun _ => none, fun _ => none, fun _ => [], fun _ => []⟩ 0).final
          (runList .sqlite Store.empty [(.pushBack "k" [1], 0)])) 1 ≠
        listPayload (runList .sqlite Store.empty [(.pushBack "k" [1], 0)]) 1 ∧
      ∃ r' ∈ (((Call.list (.pushBack "k" [2])).tx .sqlite
          ⟨fun _ => none, fun _ => none, fun _ => [], fun _ => []⟩ 0).final
          (runList .sqlite Store.empty [(.pushBack "k" [1], 0)])).rkey,
        r'.key = "k" ∧ (1 : Int) < r'.version :=
  have hr : (⟨1, "k", .list, 1, none, 0, some 1⟩ : KeyRow) ∈
      (runList .sqlite Store.empty [(.pushBack "k" [1], 0)]).rkey := by
    with_unfolding_all decide
  have hp : listPayload (((Call.list (.pushBack "k" [2])).tx .sqlite
      ⟨fun _ => none, fun _ => none, fun _ => [], fun _ => []⟩ 0).final
      (runList .sqlite Store.empty [(.pushBack "k" [1], 0)])) 1 ≠
      listPayload (runList .sqlite Store.empty [(.pushBack "k" [1], 0)]) 1 := by
    with_unfolding_all decide
  ⟨hr, hp, version_grows_with_payload .sqlite _ (.list (.pushBack "k" [2])) 0 hr (.inl hp)⟩

/-! ## Failed calls in a run -/

/-- Two failed calls that have written: `InsertBefore` with a missing pivot fails with
`ErrNotFound` after `sqlInsert` has bumped its key (version and `len` 2, over one row), and
`PopBackPushFront` onto a hash key fails with `ErrKeyType` after popping its source. -/
theorem failed_calls_write :
    Reachable .sqlite ⟨fun _ => none, fun _ => none, fun _ => [], fun _ => []⟩ (fun _ => True)
        (runList .sqlite Store.empty [(.pushBack "k" [1], 0)]) ∧
      ((Call.list (.insertBefore "k" [9] [2])).tx .sqlite
          ⟨fun _ => none, fun _ => none, fun _ => [], fun _ => []⟩ 1).result
        (runList .sqlite Store.empty [(.pushBack "k" [1], 0)]) = .error .notFound ∧
      (runList .sqlite Store.empty [(.pushBack "k" [1], 0)]).rkey.map
        (fun r => (r.version, r.len)) = [(1, some 1)] ∧
      (((Call.list (.insertBefore "k" [9] [2])).tx .sqlite
          ⟨fun _ => none, fun _ => none, fun _ => [], fun _ => []⟩ 1).final
        (runList .sqlite Store.empty [(.pushBack "k" [1], 0)])).rkey.map
        (fun r => (r.version, r.len)) = [(2, some 2)] ∧
      ((Call.list (.popBackPushFront "a" "h")).tx .sqlite
          ⟨fun _ => none, fun _ => none, fun _ => [], fun _ => []⟩ 1).result
        (runCalls .sqlite ⟨fun _ => none, fun _ => none, fun _ => [], fun _ => []⟩ Store.empty
          [(.list (.pushBack "a" [1]), 0), (.hash (.set "h" "f" [1]), 0)]) = .error .keyType ∧
      (runCalls .sqlite ⟨fun _ => none, fun _ => none, fun _ => [], fun _ => []⟩ Store.empty
          [(.list (.pushBack "a" [1]), 0), (.hash (.set "h" "f" [1]), 0)]).rlist.length = 1 ∧
      (((Call.list (.popBackPushFront "a" "h")).tx .sqlite
          ⟨fun _ => none, fun _ => none, fun _ => [], fun _ => []⟩ 1).final
        (runCalls .sqlite ⟨fun _ => none, fun _ => none, fun _ => [], fun _ => []⟩ Store.empty
          [(.list (.pushBack "a" [1]), 0), (.hash (.set "h" "f" [1]), 0)])).rlist = [] :=
  ⟨(runList_reachable _ _ .empty).mono fun _ _ => trivial, by with_unfolding_all decide,
    by with_unfolding_all decide, by with_unfolding_all decide, by with_unfolding_all decide,
    by with_unfolding_all decide, by with_unfolding_all decide⟩

/-- **Failed calls.** On every store list and hash calls reach, a failed call leaves the
tables as they were, but for two methods: a failed `InsertBefore` or `InsertAfter` leaves
its list key bumped by `sqlInsert` (version, `mtime`, `len + 1`), and a failed
`PopBackPushFront` may leave `src` popped, its push onto `dest` having failed. -/
theorem failed_call_effect {d : Dialect} {core : Core} {s : Store}
    (hs : Reachable d core (fun _ => True) s) (c : Call) (now : Int) {e : Error}
    (h : (c.tx d core now).result s = .error e) :
    (c.tx d core now).final s = s ∨
      (∃ k p x, (c = .list (.insertBefore k p x) ∨ c = .list (.insertAfter k p x)) ∧
        (c.tx d core now).final s = s.touch (·.selects k .list now) 1 (some now) 1) ∨
      ∃ src dest, c = .list (.popBackPushFront src dest) ∧
        ∃ v, RList.popBack d src now s = .ok v ((c.tx d core now).final s) := by
  cases hx : c.tx d core now s with
  | ok => rw [Tx.result, hx] at h; cases h
  | error e' s' =>
    rw [Tx.final_of_error hx]
    cases c with
    | hash c => exact .inl (HashCall.clean d core c now s _ _ hx)
    | list c =>
      rcases ListCall.error_effect d (Inv.of_reachable hs) c now hx with h' | ⟨k, p, x, hc, h'⟩ |
        ⟨src, dest, hc, h'⟩
      · exact .inl h'
      · exact .inr (.inl ⟨k, p, x, hc.imp (congrArg _) (congrArg _), h'⟩)
      · exact .inr (.inr ⟨src, dest, congrArg _ hc, h'⟩)

/-- The insert with a missing pivot, from the store one push reaches. -/
theorem failed_call_effect_insert :
    Reachable .sqlite ⟨fun _ => none, fun _ => none, fun _ => [], fun _ => []⟩ (fun _ => True)
        (runList .sqlite Store.empty [(.pushBack "k" [1], 0)]) ∧
      ((Call.list (.insertBefore "k" [9] [2])).tx .sqlite
          ⟨fun _ => none, fun _ => none, fun _ => [], fun _ => []⟩ 1).result
        (runList .sqlite Store.empty [(.pushBack "k" [1], 0)]) = .error .notFound ∧
      (((Call.list (.insertBefore "k" [9] [2])).tx .sqlite
          ⟨fun _ => none, fun _ => none, fun _ => [], fun _ => []⟩ 1).final
          (runList .sqlite Store.empty [(.pushBack "k" [1], 0)]) =
            runList .sqlite Store.empty [(.pushBack "k" [1], 0)] ∨
        (∃ k p x, (Call.list (.insertBefore "k" [9] [2]) = .list (.insertBefore k p x) ∨
            Call.list (.insertBefore "k" [9] [2]) = .list (.insertAfter k p x)) ∧
          ((Call.list (.insertBefore "k" [9] [2])).tx .sqlite
            ⟨fun _ => none, fun _ => none, fun _ => [], fun _ => []⟩ 1).final
              (runList .sqlite Store.empty [(.pushBack "k" [1], 0)]) =
            (runList .sqlite Store.empty [(.pushBack "k" [1], 0)]).touch
              (·.selects k .list 1) 1 (some 1) 1) ∨
        ∃ src dest, Call.list (.insertBefore "k" [9] [2]) = .list (.popBackPushFront src dest) ∧
          ∃ v, RList.popBack .sqlite src 1 (runList .sqlite Store.empty [(.pushBack "k" [1], 0)]) =
            .ok v (((Call.list (.insertBefore "k" [9] [2])).tx .sqlite
              ⟨fun _ => none, fun _ => none, fun _ => [], fun _ => []⟩ 1).final
                (runList .sqlite Store.empty [(.pushBack "k" [1], 0)]))) :=
  have hs : Reachable .sqlite ⟨fun _ => none, fun _ => none, fun _ => [], fun _ => []⟩ (fun _ => True)
      (runList .sqlite Store.empty [(.pushBack "k" [1], 0)]) :=
    (runList_reachable _ _ .empty).mono fun _ _ => trivial
  have h : ((Call.list (.insertBefore "k" [9] [2])).tx .sqlite
      ⟨fun _ => none, fun _ => none, fun _ => [], fun _ => []⟩ 1).result
        (runList .sqlite Store.empty [(.pushBack "k" [1], 0)]) = .error .notFound := by
    with_unfolding_all decide
  ⟨hs, h, failed_call_effect hs _ 1 h⟩

end Redka
