import Redka.RHash.Scan
import Redka.Frame
import Redka.Runs

/-! # A hash scan amid other clients' calls

Each `Scan` runs in a transaction of its own, so between two pages of a client's loop other
clients' list and hash calls run to their end (`scanAmid`).  Redis promises that a full
`HSCAN` returns every field the hash holds from the start of the iteration to its end.

With `order by rowid` in `sqlScan`, the loop keeps that promise here, on every store the
repositories reach and whatever the other clients do between the pages, as long as none of
them deletes the field (`scanAmid_returns_kept_field`): an upsert keeps the row of a field
the hash has, with its `rowid` (`holdsRow_upserts`); a list call leaves `rhash` alone
(`holdsRow_listWrites`); and a page read by `rowid` holds every row above the cursor up to
the next one (`mem_page_of_le_cursor`).
-/

namespace Redka

/-- A call that leaves field `f` of hash `key` in place: any call but a `Delete` of `key` that
lists `f`. -/
def Call.Spares (key f : String) : Call → Prop
  | .hash (.delete k fs) => k ≠ key ∨ f ∉ fs
  | _ => True

namespace RHash
open Store Sqlx

/-- Hash `key` has the id `kid`, and its field `f` has the row of id `i`. -/
def HoldsRow (key : String) (kid i : Nat) (f : String) (s : Store) : Prop :=
  (∃ r ∈ s.rkey, r.key = key ∧ r.id = kid ∧ r.type = .hash) ∧
    ∃ v, (⟨i, kid, f, v⟩ : HashRow) ∈ s.rhash

section Rows
variable {key f : String} {kid i : Nat} {s s' : Store}

theorem HoldsRow.of_rows (h : HoldsRow key kid i f s) {g : KeyRow → KeyRow} (hg : IsTouch g)
    {extra : List KeyRow} (hk : s'.rkey = s.rkey.map g ++ extra)
    (hh : ∀ v, (⟨i, kid, f, v⟩ : HashRow) ∈ s.rhash → ∃ v', (⟨i, kid, f, v'⟩ : HashRow) ∈ s'.rhash) :
    HoldsRow key kid i f s' :=
  have ⟨⟨r, hr, h1, h2, h3⟩, v, hv⟩ := h
  ⟨⟨g r, hk ▸ List.mem_append_left _ (List.mem_map_of_mem g hr), (hg.key r).trans h1,
    (hg.id r).trans h2, (hg.type r).trans h3⟩, hh v hv⟩

/-- An upsert keeps every row, with its id, its key and its field. -/
theorem mem_upsertHash_of_mem {x : HashRow} (hx : x ∈ s.rhash) (kid' : Nat) (field : String)
    (value : Value) : ∃ v, (⟨x.rowid, x.kid, x.field, v⟩ : HashRow) ∈ (s.upsertHash kid' field value).rhash := by
  unfold Store.upsertHash
  split
  · refine ⟨if x.slot = (kid', field) then value else x.value, List.mem_map.2 ⟨x, hx, ?_⟩⟩
    by_cases h : x.slot = (kid', field) <;> simp [h]
  · exact ⟨x.value, List.mem_append_left _ hx⟩

/-- The table writes of the hash methods but `Delete` keep the row of a field. -/
theorem holdsRow_upserts : HashUpserts (HoldsRow key kid i f) where
  insertKey _ _ _ _ _ h := h.of_rows IsTouch.refl (by rw [insertKey_rkey, List.map_id']) fun v hv => ⟨v, hv⟩
  touch _ p _ _ h := h.of_rows (isTouch_touch p Int.one_nonneg _ _) (List.append_nil _).symm
    fun v hv => ⟨v, hv⟩
  upsertHash s kid' field value h :=
    have ⟨_, hg, hk⟩ := (writesAt_upsertHash s kid' field value).rows
    h.of_rows hg (hk.trans (List.append_nil _).symm) fun _ hv => mem_upsertHash_of_mem hv kid' field value

/-- The table writes of the list methods leave `rhash` alone. -/
theorem holdsRow_listWrites : ListWrites (HoldsRow key kid i f) where
  insertKey _ _ _ _ _ h := h.of_rows IsTouch.refl (by rw [insertKey_rkey, List.map_id']) fun v hv => ⟨v, hv⟩
  touch _ p _ _ h := h.of_rows (isTouch_touch p Int.one_nonneg _ _) (List.append_nil _).symm
    fun v hv => ⟨v, hv⟩
  insertList hi h :=
    have ⟨_, hk, hh, _⟩ := insertList_eq_some hi
    h.of_rows IsTouch.refl (by rw [hk, List.map_id', List.append_nil]) fun v hv => ⟨v, hh ▸ hv⟩
  deleteList s p now h :=
    have ⟨_, hg, hk⟩ := s.deleteList_rkey p now
    h.of_rows hg (hk.trans (List.append_nil _).symm) fun v hv => ⟨v, by simpa using hv⟩
  updateList s p e now h :=
    have ⟨_, hg, hk⟩ := s.updateList_rkey p e now
    h.of_rows hg (hk.trans (List.append_nil _).symm) fun v hv => ⟨v, by simpa using hv⟩

/-- A delete whose predicate spares the row keeps it. -/
theorem HoldsRow.deleteHash (h : HoldsRow key kid i f s) {p : HashRow → Bool}
    (hp : ∀ v, p ⟨i, kid, f, v⟩ = false) : HoldsRow key kid i f (s.deleteHash p) :=
  h.of_rows IsTouch.refl (by rw [deleteHash_rkey, List.map_id', List.append_nil]) fun v hv =>
    ⟨v, List.mem_filter.2 ⟨hv, by simp [hp v]⟩⟩

end Rows

section Calls
variable (d : Dialect) {key f : String} {kid i : Nat}

/-- A `Delete` of another key, or of other fields, keeps the row of `f`. -/
theorem delete_keeps_row {k : String} {fs : List String} (hsp : k ≠ key ∨ f ∉ fs) (now : Int) :
    Keeps (HoldsRow key kid i f) (delete d k fs now) := fun s hs => by
  have h := delete_eq d k fs now s
  split at h
  · rw [Tx.final_of_ok h]; exact hs
  split at h
  · rw [Tx.final_of_ok h]; exact hs
  rename_i r hr
  have hspare : ∀ v, ((⟨i, kid, f, v⟩ : HashRow).kid = r.id && f ∈ fs) = false := fun v => by
    obtain ⟨⟨rk, hrk, hkey, hid, -⟩, -⟩ := hs
    obtain ⟨hmem, hrkey⟩ := findKey_eq_some.1 (curRow_eq_some.1 hr).1
    rcases hsp with hne | hnot
    · have hid' : kid ≠ r.id := fun he =>
        hne (hrkey ▸ hkey ▸ congrArg KeyRow.key (eq_of_id_eq hrk hmem (hid.trans he))).symm
      simp [hid']
    · simp [hnot]
  have hd := hs.deleteHash (p := fun x => x.kid = r.id && x.field ∈ fs) hspare
  split at h
  · rw [Tx.final_of_ok h]; exact hd
  · rw [Tx.final_of_ok h]; exact holdsRow_upserts.touch _ _ _ _ hd

/-- Every call that spares field `f` of `key` keeps its row. -/
theorem Call.keeps_holdsRow (core : Core) (now : Int) :
    ∀ c : Call, c.Spares key f → Keeps (HoldsRow key kid i f) (c.tx d core now)
  | .list c, _ => ListCall.keeps d holdsRow_listWrites now c
  | .hash c, hc => HashCall.keeps_of d holdsRow_upserts core now c fun k fs he => by
    subst he; exact delete_keeps_row d hc now

theorem runCalls_holdsRow (core : Core) :
    ∀ (calls : List (Call × Int)) (s : Store), (∀ p ∈ calls, p.1.Spares key f) →
      HoldsRow key kid i f s → HoldsRow key kid i f (runCalls d core s calls)
  | [], _, _, h => h
  | (c, now) :: rest, s, hc, h =>
    runCalls_holdsRow core rest _ (fun p hp => hc p (List.mem_cons_of_mem _ hp))
      (Call.keeps_holdsRow d core now c (hc _ (List.mem_cons_self _ _)) s h)

end Calls

/-! ## Pages read by `rowid` -/

section Pages
variable {key pattern : String} {count now : Int} {s : Store}

theorem rowsOf_of_holdsRow (hs : Inv s) {f : String} {kid i : Nat} (h : HoldsRow key kid i f s)
    (now : Int) : rowsOf s key now = s.hashRows kid := by
  obtain ⟨⟨r, hr, hkey, rfl, ht⟩, -⟩ := h
  have hc : s.curRow key .hash now = some r := curRow_eq_some.2
    ⟨findKey_eq_some.2 ⟨hr, hkey⟩, ht, by simp [KeyRow.live, (hs.keys r hr).1]⟩
  simp [rowsOf, curkey, hc]

/-- Under `order by rowid`, the page at a cursor is empty only when no row qualifies, and it
holds every qualifying row up to the next cursor. -/
theorem mem_page_of_le_cursor (hc : 1 ≤ count) {c : Int} {x : HashRow}
    (hx : x ∈ qualifying s key now c pattern) :
    page rowidOrder s key now c pattern count ≠ [] ∧
      (x ∈ page rowidOrder s key now c pattern count ∨
        (page rowidOrder s key now c pattern count).foldl (fun m r => max m (r.rowid : Int)) 0 <
          x.rowid) := by
  have hxL : x ∈ byRowid (qualifying s key now c pattern) := (byRowid_perm _).mem_iff.2 hx
  have hne : page rowidOrder s key now c pattern count ≠ [] := fun he => by
    rcases List.take_eq_nil_iff.1 he with h | h
    · omega
    · exact List.not_mem_nil x (h ▸ hxL)
  refine ⟨hne, or_iff_not_imp_left.2 fun hn => ?_⟩
  have hsorted : (byRowid (qualifying s key now c pattern)).Pairwise (·.rowid < ·.rowid) :=
    byRowid_sorted (rowid_nodup_qualifying c)
  rw [← List.take_append_drop count.toNat (byRowid _)] at hxL hsorted
  obtain ⟨⟨top, htop, htopeq⟩, -⟩ := cursor_of_page hne
  have hdrop := (List.mem_append.1 hxL).resolve_left hn
  have := (List.pairwise_append.1 hsorted).2.2 top htop x hdrop
  omega

end Pages

/-! ## The loop -/

/-- The client's loop amid other clients' calls: before each `Scan`, the calls made since the
previous one run; the pages, or `none` when a `Scan` fails or the batches run out first. -/
def scanAmid (ord : Order) (key pattern : String) (count now : Int) (d : Dialect) (core : Core) :
    List (List (Call × Int)) → Int → Store → Option (List (List HashItem))
  | [], _, _ => none
  | calls :: rest, cursor, s =>
    match scan ord key cursor pattern count now (runCalls d core s calls) with
    | .ok r s' =>
      if r.items = [] then some []
      else (scanAmid ord key pattern count now d core rest r.cursor s').map (r.items :: ·)
    | .error _ _ => none

theorem hashView_eq_some {s : Store} {key f : String} {v : Value} (h : hashView s key f = some v) :
    ∃ kid, s.kindOf key = some (kid, .hash) ∧ hashPayload s kid f = some v := by
  unfold hashView at h
  rcases hk : s.kindOf key with _ | ⟨kid, _ | _ | _ | _ | _⟩ <;> simp only [hk] at h <;> try cases h
  exact ⟨kid, rfl, h⟩

section Loop
variable {d : Dialect} {core : Core} {key pattern f : String} {count now : Int} {kid i : Nat}

/-- From a cursor below the row of `f`, a loop that ends has returned that row. -/
theorem scanAmid_finds (hc : 1 ≤ count) (hg : glob f pattern) :
    ∀ (batches : List (List (Call × Int))) (c : Int) (s : Store) (pages : List (List HashItem)),
      Reachable d core (fun _ => True) s → HoldsRow key kid i f s →
      (∀ calls ∈ batches, ∀ p ∈ calls, p.1.Spares key f) → c < i →
      scanAmid rowidOrder key pattern count now d core batches c s = some pages →
        ∃ it ∈ pages.flatten, it.id = i ∧ it.field = f
  | [], _, _, _, _, _, _, _, hrun => by cases hrun
  | calls :: rest, c, s, pages, hr, hh, hb, hci, hrun => by
    have hr1 := runCalls_reachable s calls hr fun _ _ => trivial
    have hh1 := runCalls_holdsRow d core calls s (hb calls (List.mem_cons_self _ _)) hh
    obtain ⟨v, hv⟩ := hh1.2
    have hq : (⟨i, kid, f, v⟩ : HashRow) ∈ qualifying (runCalls d core s calls) key now c pattern :=
      mem_qualifying.2 ⟨rowsOf_of_holdsRow (Inv.of_reachable hr1) hh1 now ▸
        List.mem_filter.2 ⟨hv, by simp⟩, hci, hg⟩
    obtain ⟨hne, hin | hlt⟩ := mem_page_of_le_cursor hc hq <;>
      rw [scanAmid, scan_eq hc] at hrun <;>
      simp only [List.map_eq_nil_iff, hne, if_false, Option.map_eq_some'] at hrun <;>
      obtain ⟨later, hlater, rfl⟩ := hrun
    · exact ⟨_, List.mem_append_left _ (List.mem_map_of_mem HashRow.item hin), rfl, rfl⟩
    · obtain ⟨it, hit, hid⟩ := scanAmid_finds hc hg rest _ _ later hr1 hh1
        (fun calls hc => hb calls (List.mem_cons_of_mem _ hc)) hlt hlater
      exact ⟨it, List.mem_append_right _ hit, hid⟩

/-- The table writes of the list methods leave `rhash` alone. -/
theorem rowidsPos_listWrites : ListWrites RowidsPos where
  insertKey _ _ _ _ _ h := h
  touch _ _ _ _ h := h
  insertList hi h x hx := h x ((insertList_eq_some hi).2.2.1 ▸ hx)
  deleteList _ _ _ h x hx := h x (by simpa using hx)
  updateList _ _ _ _ h x hx := h x (by simpa using hx)

/-- What the table writes of both repositories keep and the empty store has, every store their
calls reach has. -/
theorem Reachable.of_writes {P : Store → Prop} (hL : ListWrites P) (hH : HashWrites P)
    (h0 : P Store.empty) {allowed : Call → Prop} {s : Store} (h : Reachable d core allowed s) : P s := by
  induction h with
  | empty => exact h0
  | step c now _ _ ih =>
    cases c with
    | list c => exact ListCall.keeps d hL now c _ ih
    | hash c => exact HashCall.keeps d hH core now c _ ih

/-- Every hash row has a positive id on every store the repositories reach. -/
theorem rowidsPos_of_reachable {allowed : Call → Prop} {s : Store} (h : Reachable d core allowed s) :
    RowidsPos s :=
  Reachable.of_writes rowidsPos_listWrites rowidsPos_writes (fun _ h => absurd h (List.not_mem_nil _)) h

/-- **A scan amid other clients' calls misses no field that stays.**  On SQLite, with
`order by rowid`, on every store the list and hash repositories reach, whatever calls other
clients make between the pages, in any order, as long as none of them deletes the field: a
loop that runs to its empty page has returned every field of the hash that matches the
pattern and that the hash held when the loop began. -/
theorem scanAmid_returns_kept_field {s : Store} (hr : Reachable d core (fun _ => True) s)
    {v : Value} (hv : hashView s key f = some v) (hg : glob f pattern) (hc : 1 ≤ count)
    (batches : List (List (Call × Int))) (hb : ∀ calls ∈ batches, ∀ p ∈ calls, p.1.Spares key f)
    {pages : List (List HashItem)} (hrun : scanAmid rowidOrder key pattern count now d core batches 0 s = some pages) :
    f ∈ pages.flatten.map (·.field) := by
  obtain ⟨kid, hk, hp⟩ := hashView_eq_some hv
  obtain ⟨r, hr', rfl, -⟩ := hashPayload_eq_some.1 hp
  obtain ⟨rk, hf, he⟩ := Option.map_eq_some'.1 hk
  have hh : HoldsRow key kid r.rowid r.field s :=
    ⟨⟨rk, (findKey_eq_some.1 hf).1, (findKey_eq_some.1 hf).2, congrArg Prod.fst he,
      congrArg Prod.snd he⟩, r.value, (kid_of_mem_hashRows hr') ▸ (List.mem_filter.1 hr').1⟩
  obtain ⟨it, hit, -, hf⟩ := scanAmid_finds hc hg batches 0 s pages hr hh hb
    (by exact_mod_cast rowidsPos_of_reachable hr r (List.mem_filter.1 hr').1) hrun
  exact List.mem_map.2 ⟨it, hit, hf⟩

/-- `HSET h a 1`, `HSET h b 2`, `HSET h c 3`. -/
def threeFields : Store :=
  runCalls .sqlite ⟨fun _ => none, fun _ => none, fun _ => [], fun _ => []⟩ Store.empty
    [(.hash (.set "h" "a" [1]), 0), (.hash (.set "h" "b" [2]), 0), (.hash (.set "h" "c" [3]), 0)]

/-- What other clients do between the pages of a scan of `h` by one field a page: `HDEL h a`
and `HSET h b 7`, then `HSET h d 4` and `RPUSH l 5`. -/
def midScanCalls : List (List (Call × Int)) :=
  [[], [(.hash (.delete "h" ["a"]), 0), (.hash (.set "h" "b" [7]), 0)],
    [(.hash (.set "h" "d" [4]), 0), (.list (.pushBack "l" [5]), 0)], [], [], []]

/-- The field `b`, rewritten between the pages, comes back with its new value; so does `d`,
added during the scan above the cursor. -/
theorem scanAmid_returns_kept_field_b :
    Reachable .sqlite ⟨fun _ => none, fun _ => none, fun _ => [], fun _ => []⟩ (fun _ => True)
        threeFields ∧
      hashView threeFields "h" "b" = some [2] ∧ glob "b" "*" = true ∧ (1 : Int) ≤ 1 ∧
      (∀ calls ∈ midScanCalls, ∀ p ∈ calls, p.1.Spares "h" "b") ∧
      scanAmid rowidOrder "h" "*" 1 0 .sqlite ⟨fun _ => none, fun _ => none, fun _ => [], fun _ => []⟩
          midScanCalls 0 threeFields =
        some [[⟨1, "a", [1]⟩], [⟨2, "b", [7]⟩], [⟨3, "c", [3]⟩], [⟨4, "d", [4]⟩]] ∧
      "b" ∈ ([[⟨1, "a", [1]⟩], [⟨2, "b", [7]⟩], [⟨3, "c", [3]⟩], [⟨4, "d", [4]⟩]] :
        List (List HashItem)).flatten.map (·.field) :=
  have hr : Reachable .sqlite ⟨fun _ => none, fun _ => none, fun _ => [], fun _ => []⟩ (fun _ => True)
      threeFields := runCalls_reachable _ _ .empty fun _ _ => trivial
  have hv : hashView threeFields "h" "b" = some [2] := by with_unfolding_all decide
  have hb : ∀ calls ∈ midScanCalls, ∀ p ∈ calls, p.1.Spares "h" "b" := by
    simp [midScanCalls, Call.Spares, or_imp, forall_and]
  have hrun : scanAmid rowidOrder "h" "*" 1 0 .sqlite ⟨fun _ => none, fun _ => none, fun _ => [], fun _ => []⟩
      midScanCalls 0 threeFields =
        some [[⟨1, "a", [1]⟩], [⟨2, "b", [7]⟩], [⟨3, "c", [3]⟩], [⟨4, "d", [4]⟩]] := by
    with_unfolding_all decide
  ⟨hr, hv, by decide, le_refl 1, hb, hrun,
    scanAmid_returns_kept_field hr hv (by decide) (le_refl 1) midScanCalls hb hrun⟩

end Loop

end RHash
end Redka
