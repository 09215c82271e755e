import Mathlib.Data.List.Sort

/-! # The query strings of `net/url`

`DataSource` reads the parameters after the `?` of a path with `url.ParseQuery`, sets its own
with `Values.Set` and `Values.Add`, and writes them back with `Values.Encode`.  A Go string
is its bytes.

* `QueryEscape` keeps the unreserved bytes (ASCII letters and digits, `-`, `_`, `.`, `~`),
  writes a space as `+` and every other byte as `%XX` in upper-case hex; `QueryUnescape`
  reads `%XX` (in either case) and `+` back, and fails at a `%` that two hex digits do not
  follow.
* `ParseQuery` reads the `&`-separated segments in turn: a segment holding a `;` records an
  error and is skipped, an empty one is skipped, one whose key or value (split at the first
  `=`) does not unescape keeps the first error and is skipped, and every other one adds its
  value to its key.  The map is returned with the error.
* `Values.Encode` writes `key=value` for each value of each key, keys in byte order, joined
  by `&`.

An escaped text holds none of `&`, `=` and `;` and unescapes back (`unescape_escape`), so
`ParseQuery` reads back, without error, the map `Encode` wrote (`parseQuery_encode`).
-/

namespace Redka
namespace Url

/-- A Go `string`: its bytes. -/
abbrev Bytes := List UInt8

/-- The bytes of an ASCII literal. -/
def ascii (s : String) : Bytes := s.data.map Char.toUInt8

/-! ## Escaping -/

/-- The bytes `shouldEscape(c, encodeQueryComponent)` keeps: ASCII letters and digits, `-`,
`_`, `.` and `~`. -/
def unreserved (c : UInt8) : Bool :=
  (97 ≤ c.toNat && c.toNat ≤ 122) || (65 ≤ c.toNat && c.toNat ≤ 90) ||
    (48 ≤ c.toNat && c.toNat ≤ 57) || c.toNat = 45 || c.toNat = 95 || c.toNat = 46 || c.toNat = 126

/-- `upperhex[n]`, the hex digit of `n < 16`. -/
def upperhex (n : Nat) : UInt8 := if n < 10 then (48 + n).toUInt8 else (55 + n).toUInt8

/-- `ishex` and `unhex`: the value of a hex digit, in either case. -/
def unhex (c : UInt8) : Option Nat :=
  if 48 ≤ c.toNat ∧ c.toNat ≤ 57 then some (c.toNat - 48)
  else if 97 ≤ c.toNat ∧ c.toNat ≤ 102 then some (c.toNat - 87)
  else if 65 ≤ c.toNat ∧ c.toNat ≤ 70 then some (c.toNat - 55)
  else none

/-- One byte of `QueryEscape`. -/
def escapeByte (c : UInt8) : Bytes :=
  if c = ' '.toUInt8 then ['+'.toUInt8]
  else if unreserved c then [c]
  else ['%'.toUInt8, upperhex (c.toNat / 16), upperhex (c.toNat % 16)]

/-- `QueryEscape`.  (Go returns the text itself when no byte needs escaping, which is the same
bytes.) -/
def queryEscape (s : Bytes) : Bytes := s.flatMap escapeByte

/-- `QueryUnescape`: the bytes, or the `EscapeError` text, the first `%` sequence that is not
`%` and two hex digits (at most three bytes of it). -/
def queryUnescape : Bytes → Except Bytes Bytes
  | [] => .ok []
  | c :: t =>
    if c = '%'.toUInt8 then
      match t with
      | h :: l :: t' =>
        match unhex h, unhex l with
        | some a, some b => (queryUnescape t').map ((16 * a + b).toUInt8 :: ·)
        | _, _ => .error (c :: h :: [l])
      | _ => .error (c :: t)
    else if c = '+'.toUInt8 then (queryUnescape t).map (' '.toUInt8 :: ·)
    else (queryUnescape t).map (c :: ·)

theorem unhex_upperhex : ∀ n < 16, unhex (upperhex n) = some n := by decide

theorem upperhex_unreserved : ∀ n < 16, unreserved (upperhex n) = true := by decide

theorem ofNat_hex (c : UInt8) : (16 * (c.toNat / 16) + c.toNat % 16).toUInt8 = c :=
  UInt8.toNat.inj <| by
    have : c.toNat < 256 := c.toNat_lt_size
    rw [Nat.toUInt8, UInt8.toNat_ofNat_of_lt (show _ < 256 by omega)]
    omega

/-- `QueryUnescape` at a byte other than `%`. -/
theorem queryUnescape_cons {c : UInt8} (hp : c ≠ '%'.toUInt8) (t : Bytes) :
    queryUnescape (c :: t) =
      if c = '+'.toUInt8 then (queryUnescape t).map (' '.toUInt8 :: ·)
      else (queryUnescape t).map (c :: ·) := by
  rw [queryUnescape.eq_def]
  exact if_neg hp

/-- **One byte round trip.** -/
theorem unescape_escapeByte (c : UInt8) (rest : Bytes) :
    queryUnescape (escapeByte c ++ rest) = (queryUnescape rest).map (c :: ·) := by
  unfold escapeByte
  split_ifs with hsp hu
  · subst hsp
    rw [List.singleton_append, queryUnescape_cons (by decide), if_pos rfl]
  · have hp : c ≠ '%'.toUInt8 := fun h => by subst h; exact absurd hu (by decide)
    have hq : c ≠ '+'.toUInt8 := fun h => by subst h; exact absurd hu (by decide)
    rw [List.singleton_append, queryUnescape_cons hp, if_neg hq]
  · have : c.toNat < 256 := c.toNat_lt_size
    rw [List.cons_append, List.cons_append, List.cons_append, List.nil_append, queryUnescape.eq_2,
      if_pos rfl, unhex_upperhex _ (show c.toNat / 16 < 16 by omega),
      unhex_upperhex _ (show c.toNat % 16 < 16 by omega)]
    simp only [ofNat_hex]

theorem unescape_escape_append (s rest : Bytes) :
    queryUnescape (queryEscape s ++ rest) = (queryUnescape rest).map (s ++ ·) := by
  induction s with
  | nil => show queryUnescape rest = _; cases queryUnescape rest <;> rfl
  | cons c s ih =>
    rw [queryEscape, List.flatMap_cons, List.append_assoc, unescape_escapeByte, ← queryEscape, ih]
    cases queryUnescape rest <;> rfl

/-- **Round trip.** `QueryUnescape(QueryEscape(s)) = s`. -/
theorem unescape_escape (s : Bytes) : queryUnescape (queryEscape s) = .ok s := by
  simpa [queryUnescape.eq_1, Except.map] using unescape_escape_append s []

/-- An escaped byte is unreserved, `+` or `%`. -/
theorem mem_escapeByte {b c : UInt8} (h : b ∈ escapeByte c) :
    unreserved b = true ∨ b.toNat = 43 ∨ b.toNat = 37 := by
  unfold escapeByte at h
  have : c.toNat < 256 := c.toNat_lt_size
  split_ifs at h with hsp hu
  · exact .inr (.inl (by rw [List.mem_singleton.1 h]; rfl))
  · exact .inl (List.mem_singleton.1 h ▸ hu)
  · simp only [List.mem_cons, List.mem_singleton, List.not_mem_nil, or_false] at h
    rcases h with rfl | rfl | rfl
    · exact .inr (.inr rfl)
    · exact .inl (upperhex_unreserved _ (by omega))
    · exact .inl (upperhex_unreserved _ (by omega))

/-- An escaped text holds none of the bytes `ParseQuery` and `DataSource` split at. -/
theorem not_mem_escape {b : UInt8} (hb : b.toNat = 38 ∨ b.toNat = 59 ∨ b.toNat = 61 ∨ b.toNat = 63)
    (s : Bytes) : b ∉ queryEscape s := fun h => by
  obtain ⟨c, -, hc⟩ := List.mem_flatMap.1 h
  rcases mem_escapeByte hc with hu | h | h
  · simp only [unreserved, Bool.or_eq_true, Bool.and_eq_true, decide_eq_true_eq] at hu
    omega
  · omega
  · omega

/-! ## Cutting and segments -/

/-- `strings.Cut(s, sep)` for a one-byte separator: the bytes before the first `sep` and those
after it, all of `s` and none when it has no `sep`. -/
def cut (sep : UInt8) : Bytes → Bytes × Bytes
  | [] => ([], [])
  | c :: t => if c = sep then ([], t) else ((cut sep t).1.cons c, (cut sep t).2)

/-- The segments the loop `for query != "" { key, query, _ = strings.Cut(query, "&"); ... }`
visits. -/
def segments : Bytes → List Bytes
  | [] => []
  | c :: t =>
    if c = '&'.toUInt8 then [] :: segments t
    else match segments t with
      | [] => [[c]]
      | s :: ss => (c :: s) :: ss

theorem cut_append {sep : UInt8} {p : Bytes} (hp : sep ∉ p) (rest : Bytes) :
    cut sep (p ++ sep :: rest) = (p, rest) := by
  induction p with
  | nil => simp [cut]
  | cons c p ih =>
    rw [List.mem_cons, not_or] at hp
    rw [List.cons_append, cut, if_neg (Ne.symm hp.1), ih hp.2]

theorem segments_append_amp {p : Bytes} (hp : '&'.toUInt8 ∉ p) (rest : Bytes) :
    segments (p ++ '&'.toUInt8 :: rest) = p :: segments rest := by
  induction p with
  | nil => simp [segments]
  | cons c p ih =>
    rw [List.mem_cons, not_or] at hp
    rw [List.cons_append, segments, if_neg (Ne.symm hp.1), ih hp.2]

theorem segments_of_not_mem {p : Bytes} (hp : '&'.toUInt8 ∉ p) (hne : p ≠ []) : segments p = [p] := by
  induction p with
  | nil => exact absurd rfl hne
  | cons c p ih =>
    rw [List.mem_cons, not_or] at hp
    rw [segments, if_neg (Ne.symm hp.1)]
    cases p with
    | nil => rfl
    | cons c' p' => rw [ih hp.2 (List.cons_ne_nil _ _)]

/-- The bytes of segments joined by `&`, as `Encode` writes them: `&` before every segment
but the first. -/
def joinAmp : List Bytes → Bytes
  | [] => []
  | [s] => s
  | s :: s' :: ss => s ++ '&'.toUInt8 :: joinAmp (s' :: ss)

/-- Joined by `&`, segments that are nonempty and hold no `&` come back as they were. -/
theorem segments_joinAmp : ∀ segs : List Bytes, (∀ s ∈ segs, s ≠ [] ∧ '&'.toUInt8 ∉ s) →
    segments (joinAmp segs) = segs
  | [], _ => rfl
  | [s], h => segments_of_not_mem (h s (List.mem_singleton_self _)).2 (h s (List.mem_singleton_self _)).1
  | s :: s' :: segs, h => by
    rw [joinAmp, segments_append_amp (h s (List.mem_cons_self _ _)).2,
      segments_joinAmp (s' :: segs) fun x hx => h x (List.mem_cons_of_mem _ hx)]

/-! ## `url.Values` -/

/-- `url.Values`: each key with its values; the keys are distinct, as those of a Go map. -/
structure Values where
  entries : List (Bytes × List Bytes)
  keys_nodup : (entries.map (·.1)).Nodup

namespace Values

/-- `make(Values)`. -/
def empty : Values := ⟨[], List.nodup_nil⟩

/-- `v[key]`: the values of `key`, none when it is absent. -/
def lookup (v : Values) (key : Bytes) : List Bytes := (v.entries.filter (·.1 = key)).flatMap (·.2)

/-- `v[key] = f(v[key])`. -/
def modify (v : Values) (key : Bytes) (f : List Bytes → List Bytes) : Values :=
  if h : key ∈ v.entries.map (·.1) then
    ⟨v.entries.map fun e => if e.1 = key then (e.1, f e.2) else e, by
      rw [List.map_map]
      convert v.keys_nodup using 2
      funext e; simp only [Function.comp]; split <;> rfl⟩
  else
    ⟨v.entries ++ [(key, f [])], by
      rw [List.map_append, List.map_singleton, ← List.concat_eq_append]
      exact v.keys_nodup.concat h⟩

/-- `Values.Set`: `key` gets the one value. -/
def set (v : Values) (key value : Bytes) : Values := v.modify key fun _ => [value]

/-- `Values.Add`: `value` is appended to the values of `key`. -/
def add (v : Values) (key value : Bytes) : Values := v.modify key (· ++ [value])

/-- `Values.Get`: the first value of `key`, or the empty string. -/
def get (v : Values) (key : Bytes) : Bytes := (v.lookup key).headD []

/-- Whether `a` comes no later than `b` in byte order, the order of Go's `<` on strings. -/
def bytesLe : Bytes → Bytes → Bool
  | [], _ => true
  | _ :: _, [] => false
  | a :: s, b :: t => a < b || (a = b && bytesLe s t)

/-- Each value with its key, keys in the order of `entries`. -/
def pairs (l : List (Bytes × List Bytes)) : List (Bytes × Bytes) := l.flatMap fun e => e.2.map (e.1, ·)

/-- `Values.Encode`: `key=value` for each value of each key, the keys sorted, joined by `&`. -/
def encode (v : Values) : Bytes :=
  joinAmp <|
    (pairs (v.entries.insertionSort fun a b => bytesLe a.1 b.1)).map fun p =>
      queryEscape p.1 ++ '='.toUInt8 :: queryEscape p.2

theorem filter_key_of_mem {l : List (Bytes × List Bytes)} (hl : (l.map (·.1)).Nodup)
    {e : Bytes × List Bytes} (he : e ∈ l) : l.filter (·.1 = e.1) = [e] := by
  induction l with
  | nil => exact absurd he (List.not_mem_nil _)
  | cons a l ih =>
    rw [List.map_cons, List.nodup_cons] at hl
    rcases List.mem_cons.1 he with rfl | he
    · rw [List.filter_cons_of_pos (by simp), List.filter_eq_nil_iff.2 fun x hx h =>
        hl.1 (List.mem_map.2 ⟨x, hx, of_decide_eq_true h⟩)]
    · have hne : a.1 ≠ e.1 := fun h => hl.1 (h ▸ List.mem_map_of_mem _ he)
      rw [List.filter_cons_of_neg (by simpa using hne), ih hl.2 he]

theorem filter_key_of_not_mem {l : List (Bytes × List Bytes)} {key : Bytes}
    (h : key ∉ l.map (·.1)) : l.filter (·.1 = key) = [] :=
  List.filter_eq_nil_iff.2 fun x hx hk => h (List.mem_map.2 ⟨x, hx, of_decide_eq_true hk⟩)

/-- Changing the values of `key` leaves the entries of every other key. -/
theorem filter_key_map_modify (l : List (Bytes × List Bytes)) {key k : Bytes} (hk : k ≠ key)
    (f : List Bytes → List Bytes) :
    (l.map fun e => if e.1 = key then (e.1, f e.2) else e).filter (·.1 = k) = l.filter (·.1 = k) := by
  induction l with
  | nil => rfl
  | cons e l ih =>
    by_cases he : e.1 = key
    · have hne : e.1 ≠ k := he ▸ Ne.symm hk
      simp [List.filter_cons, he, ih, hne, Ne.symm hk]
    · simp [List.filter_cons, he, ih]

theorem lookup_of_mem {v : Values} {e : Bytes × List Bytes} (he : e ∈ v.entries) :
    v.lookup e.1 = e.2 := by
  rw [lookup, filter_key_of_mem v.keys_nodup he, List.flatMap_singleton]

theorem lookup_of_not_mem {v : Values} {key : Bytes} (h : key ∉ v.entries.map (·.1)) :
    v.lookup key = [] := by
  rw [lookup, filter_key_of_not_mem h, List.flatMap_nil]

/-- **Store and lookup.** After `v[key] = f(v[key])`, `key` has `f` of its values, and every
other key its own. -/
theorem lookup_modify (v : Values) (key : Bytes) (f : List Bytes → List Bytes) (k : Bytes) :
    (v.modify key f).lookup k = if k = key then f (v.lookup key) else v.lookup k := by
  unfold modify
  split
  · next h =>
    obtain ⟨e, he, rfl⟩ := List.mem_map.1 h
    split_ifs with hk
    · subst hk
      have hm : (e.1, f e.2) ∈ (v.modify e.1 f).entries := by
        simp only [modify, dif_pos h]
        exact List.mem_map.2 ⟨e, he, if_pos rfl⟩
      rw [lookup_of_mem he]
      simpa only [modify, dif_pos h] using lookup_of_mem hm
    · rw [lookup, filter_key_map_modify _ hk]
      rfl
  · next h =>
    split_ifs with hk
    · subst hk
      simp [lookup, List.filter_append, filter_key_of_not_mem h, lookup_of_not_mem h]
    · simp [lookup, List.filter_append, hk, Ne.symm hk]

@[simp] theorem lookup_set (v : Values) (key value k : Bytes) :
    (v.set key value).lookup k = if k = key then [value] else v.lookup k :=
  lookup_modify v key _ k

@[simp] theorem lookup_add (v : Values) (key value k : Bytes) :
    (v.add key value).lookup k = if k = key then v.lookup key ++ [value] else v.lookup k :=
  lookup_modify v key _ k

@[simp] theorem lookup_empty (k : Bytes) : empty.lookup k = [] := rfl

/-- The values of a key among the pairs of a list are the values of its entries with that key. -/
theorem pairs_filter (l : List (Bytes × List Bytes)) (k : Bytes) :
    ((pairs l).filter (·.1 = k)).map (·.2) = (l.filter (·.1 = k)).flatMap (·.2) := by
  induction l with
  | nil => rfl
  | cons e l ih =>
    obtain ⟨ek, ev⟩ := e
    by_cases hk : ek = k
    · subst hk
      have hall : (ev.map (ek, ·)).filter (·.1 = ek) = ev.map (ek, ·) :=
        List.filter_eq_self.2 fun x hx => by obtain ⟨y, -, rfl⟩ := List.mem_map.1 hx; simp
      simp [pairs, List.filter_append, hall, ← ih, Function.comp_def]
    · simp [pairs, List.filter_append, hk, ← ih, Function.comp_def]

/-- Sorting the entries changes no key's values: at most one entry has the key. -/
theorem lookup_perm {v : Values} {l : List (Bytes × List Bytes)} (hp : l.Perm v.entries) (k : Bytes) :
    (l.filter (·.1 = k)).flatMap (·.2) = v.lookup k := by
  have hf := hp.filter fun e => decide (e.1 = k)
  by_cases hk : k ∈ v.entries.map (·.1)
  · obtain ⟨e, he, rfl⟩ := List.mem_map.1 hk
    rw [lookup, filter_key_of_mem v.keys_nodup he] at *
    rw [List.perm_singleton.1 hf]
  · rw [lookup, filter_key_of_not_mem hk] at *
    rw [List.Perm.nil_eq hf.symm]

end Values

/-! ## `ParseQuery` -/

/-- The errors `ParseQuery` returns. -/
inductive QueryError where
  /-- `invalid semicolon separator in query`. -/
  | semicolon
  /-- `EscapeError`, with the bad `%` sequence. -/
  | escape (text : Bytes)
  deriving DecidableEq, Repr

/-- The loop of `parseQuery` over the segments, with the map and the error so far.  A `;`
sets the error whatever it was; an escape error is kept only when there was none. -/
def parseSegments : Values → Option QueryError → List Bytes → Values × Option QueryError
  | m, err, [] => (m, err)
  | m, err, key :: segs =>
    if ';'.toUInt8 ∈ key then parseSegments m (some .semicolon) segs
    else if key = [] then parseSegments m err segs
    else
      match queryUnescape (cut '='.toUInt8 key).1 with
      | .error e => parseSegments m (err <|> some (.escape e)) segs
      | .ok k =>
        match queryUnescape (cut '='.toUInt8 key).2 with
        | .error e => parseSegments m (err <|> some (.escape e)) segs
        | .ok x => parseSegments (m.add k x) err segs

/-- `url.ParseQuery`: the map of the segments that parse, and the error. -/
def parseQuery (query : Bytes) : Values × Option QueryError :=
  parseSegments .empty none (segments query)

/-- A segment as `parseQuery` reads it: its key and value, when it holds no `;`, is not empty
and both halves unescape. -/
def readSegment (seg : Bytes) : Option (Bytes × Bytes) :=
  if ';'.toUInt8 ∈ seg ∨ seg = [] then none
  else
    match queryUnescape (cut '='.toUInt8 seg).1, queryUnescape (cut '='.toUInt8 seg).2 with
    | .ok k, .ok x => some (k, x)
    | _, _ => none

/-- The values of key `k` in the segments that read. -/
def segmentValues (segs : List Bytes) (k : Bytes) : List Bytes :=
  ((segs.filterMap readSegment).filter (·.1 = k)).map (·.2)

theorem segmentValues_of_none {seg : Bytes} (h : readSegment seg = none) (segs : List Bytes) (k : Bytes) :
    segmentValues (seg :: segs) k = segmentValues segs k := by
  simp [segmentValues, List.filterMap_cons, h]

/-- **What `ParseQuery` keeps**, whatever errors it meets: the map holds, for each key, the
values of the segments that read, in order. -/
theorem parseSegments_lookup (k : Bytes) : ∀ (segs : List Bytes) (m : Values) (err : Option QueryError),
    (parseSegments m err segs).1.lookup k = m.lookup k ++ segmentValues segs k
  | [], m, err => by simp [parseSegments, segmentValues]
  | seg :: segs, m, err => by
    unfold parseSegments
    by_cases hs : ';'.toUInt8 ∈ seg
    · rw [if_pos hs, parseSegments_lookup k segs, segmentValues_of_none (by simp [readSegment, hs])]
    rw [if_neg hs]
    by_cases he : seg = []
    · rw [if_pos he, parseSegments_lookup k segs, segmentValues_of_none (by simp [readSegment, he])]
    rw [if_neg he]
    have hr : readSegment seg = match queryUnescape (cut '='.toUInt8 seg).1,
        queryUnescape (cut '='.toUInt8 seg).2 with
        | .ok k, .ok x => some (k, x)
        | _, _ => none := by
      rw [readSegment, if_neg (not_or.2 ⟨hs, he⟩)]
    split <;> rename_i _ key hk
    · rw [parseSegments_lookup k segs, segmentValues_of_none (by simp [hr, hk])]
    · split <;> rename_i _ x hx
      · rw [parseSegments_lookup k segs, segmentValues_of_none (by simp [hr, hk, hx])]
      · rw [parseSegments_lookup k segs, Values.lookup_add]
        by_cases hkk : k = key <;> simp [segmentValues, List.filterMap_cons, hr, hk, hx, hkk, eq_comm]

theorem parseQuery_lookup (q k : Bytes) : (parseQuery q).1.lookup k = segmentValues (segments q) k := by
  rw [parseQuery, parseSegments_lookup, Values.lookup_empty, List.nil_append]

/-- A pair as `Encode` writes it. -/
def encodePair (p : Bytes × Bytes) : Bytes := queryEscape p.1 ++ '='.toUInt8 :: queryEscape p.2

/-- An encoded pair holds neither `&` nor `;`. -/
theorem not_mem_encodePair {b : UInt8} (hb : b.toNat = 38 ∨ b.toNat = 59) (p : Bytes × Bytes) :
    b ∉ encodePair p := by
  simp only [encodePair, List.mem_append, List.mem_cons, not_or]
  refine ⟨not_mem_escape (by omega) _, fun h => ?_, not_mem_escape (by omega) _⟩
  subst h
  revert hb
  decide

/-- `parseQuery` reads one encoded pair back, and adds it. -/
theorem parseSegments_encodePair (m : Values) (err : Option QueryError) (p : Bytes × Bytes)
    (segs : List Bytes) :
    parseSegments m err (encodePair p :: segs) = parseSegments (m.add p.1 p.2) err segs := by
  have hsemi : ';'.toUInt8 ∉ encodePair p := not_mem_encodePair (by decide) p
  have hcut : cut '='.toUInt8 (encodePair p) = (queryEscape p.1, queryEscape p.2) :=
    cut_append (not_mem_escape (by decide) _) _
  rw [parseSegments, if_neg hsemi, if_neg (by simp [encodePair]), hcut]
  simp only [unescape_escape]

theorem parseSegments_encode (m : Values) (err : Option QueryError) :
    ∀ ps : List (Bytes × Bytes),
      parseSegments m err (ps.map encodePair) = (ps.foldl (fun m p => m.add p.1 p.2) m, err)
  | [] => rfl
  | p :: ps => by
    rw [List.map_cons, parseSegments_encodePair, parseSegments_encode _ _ ps, List.foldl_cons]

theorem lookup_foldl_add (k : Bytes) : ∀ (ps : List (Bytes × Bytes)) (m : Values),
    (ps.foldl (fun m p => m.add p.1 p.2) m).lookup k = m.lookup k ++ (ps.filter (·.1 = k)).map (·.2)
  | [], m => by simp
  | p :: ps, m => by
    rw [List.foldl_cons, lookup_foldl_add k ps, Values.lookup_add]
    by_cases hk : p.1 = k
    · subst hk; simp
    · simp [hk, Ne.symm hk]

/-- **Round trip.** `ParseQuery(v.Encode())` gives back the values of every key of `v`, with no
error. -/
theorem parseQuery_encode (v : Values) :
    (parseQuery v.encode).2 = none ∧ ∀ k, (parseQuery v.encode).1.lookup k = v.lookup k := by
  have hperm := List.perm_insertionSort (fun a b => Values.bytesLe a.1 b.1 = true) v.entries
  set l := v.entries.insertionSort fun a b => Values.bytesLe a.1 b.1 = true
  have hsegs : segments v.encode = (Values.pairs l).map encodePair := by
    refine segments_joinAmp _ fun s hs => ?_
    obtain ⟨p, -, rfl⟩ := List.mem_map.1 hs
    exact ⟨by simp [encodePair], not_mem_encodePair (by decide) p⟩
  rw [parseQuery, hsegs, parseSegments_encode]
  exact ⟨rfl, fun k => by
    rw [lookup_foldl_add, Values.lookup_empty, List.nil_append, Values.pairs_filter,
      Values.lookup_perm hperm]⟩

end Url
end Redka
