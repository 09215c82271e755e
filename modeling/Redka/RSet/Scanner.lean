import Redka.Sqlx

/-! # `rset.Scanner`

The scanner turns the paged `Scan` of the set repository into one item per call: `Scan`
moves to the next item of the current page, and fetches the page at the current cursor
when that one is used up.  The page source is any function from a cursor and a page size
to the next cursor and a page, or an error (`Source`).

Over a chain of non-empty pages from cursor 0, the calls yield the pages' items once each
and in order, and the next call returns false, with `Err` the source's error when the fetch
failed (`scanner_pages`).  A failed fetch keeps the cursor, so every later call fails the
same way.  An empty page keeps the cursor that came with it, and a later call fetches there
as a scanner started at that cursor would; the hash repository's `Scan` returns cursor 0
with an empty page, and a source that does the same makes the scanner start over.
-/

namespace Redka
namespace RSet

/-- A repository's `Scan` at one key and pattern: from a cursor and a page size, the next
cursor and the page's items, or an error. -/
abbrev Source := Int → Int → Except Error (Int × List Value)

/-- `Scanner`, less the transaction, key and pattern, which only the source reads. -/
structure Scanner where
  cursor : Int
  pageSize : Int
  index : Nat
  cur : Value
  items : List Value
  err : Option Error

/-- `newScanner`; page size 0 means `scanPageSize`, which the sources of `rset` do not
include. -/
def newScanner (scanPageSize pageSize : Int) : Scanner :=
  ⟨0, if pageSize = 0 then scanPageSize else pageSize, 0, [], [], none⟩

/-- The advance of `Scanner.Scan` to the next item of the current page. -/
def Scanner.advance (sc : Scanner) (h : sc.index < sc.items.length) : Bool × Scanner :=
  (true, { sc with cur := sc.items.get ⟨sc.index, h⟩, index := sc.index + 1 })

/-- `Scanner.Scan`, with the scanner after it. -/
def Scanner.scan (src : Source) (sc : Scanner) : Bool × Scanner :=
  if h : sc.index < sc.items.length then sc.advance h
  else
    match src sc.cursor sc.pageSize with
    | .error e => (false, { sc with err := some e })
    | .ok (c, items) =>
      let sc' := { sc with cursor := c, items := items, index := 0 }
      if h : sc'.index < sc'.items.length then sc'.advance h else (false, sc')

/-- `n` calls of `Scan`, each with what `Item` returns after it. -/
def calls (src : Source) : Nat → Scanner → List (Bool × Value) × Scanner
  | 0, sc => ([], sc)
  | n + 1, sc =>
    let r := sc.scan src
    let rest := calls src n r.2
    ((r.1, r.2.cur) :: rest.1, rest.2)

/-- What the caller of each call gets: the item, after `true`; nothing, after `false`. -/
def yields (l : List (Bool × Value)) : List (Option Value) :=
  l.map fun r => if r.1 then some r.2 else none

/-- A chain of non-empty pages from cursor `c` to cursor `c'`, with their items in order. -/
inductive Pages (src : Source) (pageSize : Int) : Int → List Value → Int → Prop
  | last (c : Int) : Pages src pageSize c [] c
  | page {c c' c'' : Int} {p items : List Value} : src c pageSize = .ok (c', p) → p ≠ [] →
      Pages src pageSize c' items c'' → Pages src pageSize c (p ++ items) c''

variable {src : Source}

/-- The scanner has used up its page and fetches at `c` next. -/
def Scanner.AtEnd (sc : Scanner) (c : Int) : Prop := sc.cursor = c ∧ sc.items.length ≤ sc.index

theorem calls_add (m n : Nat) (sc : Scanner) :
    calls src (m + n) sc =
      ((calls src m sc).1 ++ (calls src n (calls src m sc).2).1, (calls src n (calls src m sc).2).2) := by
  induction m generalizing sc with
  | zero => simp [calls]
  | succ m ih => rw [Nat.add_right_comm]; simp [calls, ih]

/-! ## One call -/

theorem scan_of_lt {sc : Scanner} (h : sc.index < sc.items.length) : sc.scan src = sc.advance h :=
  dif_pos h

theorem scan_error {sc : Scanner} {c : Int} (hc : sc.AtEnd c) {e : Error}
    (he : src c sc.pageSize = .error e) : sc.scan src = (false, { sc with err := some e }) := by
  rw [Scanner.scan, dif_neg (Nat.not_lt.2 hc.2), hc.1, he]

theorem scan_empty {sc : Scanner} {c c' : Int} (hc : sc.AtEnd c) (he : src c sc.pageSize = .ok (c', [])) :
    sc.scan src = (false, { sc with cursor := c', items := [], index := 0 }) := by
  rw [Scanner.scan, dif_neg (Nat.not_lt.2 hc.2), hc.1, he]
  rfl

theorem scan_page {sc : Scanner} {c c' : Int} (hc : sc.AtEnd c) {x : Value} {rest : List Value}
    (he : src c sc.pageSize = .ok (c', x :: rest)) :
    sc.scan src = (true, { sc with cursor := c', items := x :: rest, index := 1, cur := x }) := by
  rw [Scanner.scan, dif_neg (Nat.not_lt.2 hc.2), hc.1, he]
  exact dif_pos (Nat.succ_pos _)

/-! ## Runs -/

/-- The rest of the current page comes out item by item. -/
theorem calls_rest : ∀ (rest : List Value) (sc : Scanner), sc.items.drop sc.index = rest →
    (calls src rest.length sc).1 = rest.map (fun x => (true, x)) ∧
      (calls src rest.length sc).2 =
        { sc with index := sc.index + rest.length, cur := (sc.cur :: rest).getLast (List.cons_ne_nil _ _) }
  | [], sc, _ => by simp [calls]
  | x :: rest, sc, h => by
    have hlt : sc.index < sc.items.length := by
      by_contra hn; rw [List.drop_eq_nil_of_le (Nat.not_lt.1 hn)] at h; cases h
    have hx : sc.items.get ⟨sc.index, hlt⟩ = x := by
      rw [List.drop_eq_getElem_cons hlt] at h; exact (List.cons.inj h).1
    have hr : sc.items.drop (sc.index + 1) = rest := by
      rw [List.drop_eq_getElem_cons hlt] at h; exact (List.cons.inj h).2
    have ih := calls_rest rest { sc with cur := x, index := sc.index + 1 } hr
    simp only [List.length_cons, calls, scan_of_lt hlt, Scanner.advance, hx, ih.1, ih.2,
      List.map_cons, true_and]
    simp [List.getLast_cons]
    omega

/-- Over a chain of non-empty pages, the calls yield the pages' items in order and end with
the last page used up, at the cursor that came with it. -/
theorem calls_pages {c c' : Int} {items : List Value} {ps : Int} (h : Pages src ps c items c') :
    ∀ sc : Scanner, sc.AtEnd c → sc.pageSize = ps →
      (calls src items.length sc).1 = items.map (fun x => (true, x)) ∧
        (calls src items.length sc).2.AtEnd c' ∧ (calls src items.length sc).2.pageSize = ps ∧
        (calls src items.length sc).2.err = sc.err := by
  induction h with
  | last c => exact fun sc hc hp => ⟨rfl, hc, hp, rfl⟩
  | @page c c₁ c₂ p items hsrc hp _ ih =>
    intro sc hc hps
    obtain ⟨x, rest, rfl⟩ := List.exists_cons_of_ne_nil hp
    have h1 := scan_page hc (hps ▸ hsrc)
    set sc₁ := { sc with cursor := c₁, items := x :: rest, index := 1, cur := x }
    have hrest := @calls_rest src rest sc₁ rfl
    set sc₂ := (calls src rest.length sc₁).2
    have hend : sc₂.AtEnd c₁ := by rw [hrest.2]; exact ⟨rfl, by simp [sc₁]; omega⟩
    have ih' := ih sc₂ hend (by rw [hrest.2]; exact hps)
    have hlen : (x :: rest ++ items).length = 1 + rest.length + items.length := by
      simp only [List.cons_append, List.length_cons, List.length_append]; omega
    rw [hlen, calls_add, calls_add]
    simp only [calls, h1, List.singleton_append, List.cons_append, List.map_cons, List.map_append]
    refine ⟨?_, ih'.2.1, ih'.2.2.1, by rw [ih'.2.2.2, hrest.2]⟩
    rw [hrest.1, ih'.1, List.nil_append]

/-- A failed fetch leaves the cursor where it was, so every later call fails the same way. -/
theorem calls_error {c : Int} {e : Error} :
    ∀ (n : Nat) (sc : Scanner), sc.AtEnd c → src c sc.pageSize = .error e →
      yields (calls src (n + 1) sc).1 = List.replicate (n + 1) none ∧
        (calls src (n + 1) sc).2.err = some e
  | 0, sc, hc, he => by simp [calls, scan_error hc he, yields]
  | n + 1, sc, hc, he => by
    have ih := calls_error n { sc with err := some e } hc he
    rw [calls, scan_error hc he]
    simp only [yields, List.map_cons, ite_false, List.replicate_succ] at ih ⊢
    exact ⟨congrArg _ ih.1, ih.2⟩

/-- What decides a call: the cursor, the page size and the position in the page. -/
def Scanner.pos (sc : Scanner) : Int × Int × Nat × List Value :=
  (sc.cursor, sc.pageSize, sc.index, sc.items)

theorem scan_congr {sc sc' : Scanner} (h : sc.pos = sc'.pos) :
    (sc.scan src).1 = (sc'.scan src).1 ∧ (sc.scan src).2.pos = (sc'.scan src).2.pos ∧
      ((sc.scan src).1 = true → (sc.scan src).2.cur = (sc'.scan src).2.cur) := by
  obtain ⟨c, ps, i, _, items, _⟩ := sc
  obtain ⟨c', ps', i', _, items', _⟩ := sc'
  simp only [Scanner.pos, Prod.mk.injEq] at h
  obtain ⟨rfl, rfl, rfl, rfl⟩ := h
  unfold Scanner.scan
  split_ifs with hi
  · simp [Scanner.advance, Scanner.pos]
  · rcases src c ps with _ | ⟨c'', _ | ⟨x, rest⟩⟩ <;> simp [Scanner.advance, Scanner.pos]

theorem yields_calls_congr : ∀ (n : Nat) {sc sc' : Scanner}, sc.pos = sc'.pos →
    yields (calls src n sc).1 = yields (calls src n sc').1
  | 0, _, _, _ => rfl
  | n + 1, sc, sc', h => by
    obtain ⟨h1, h2, h3⟩ := @scan_congr src _ _ h
    have ih := yields_calls_congr n h2
    simp only [calls, yields, List.map_cons] at ih ⊢
    rw [ih, h1]
    by_cases hb : (sc'.scan src).1 = true
    · rw [if_pos hb, if_pos hb, h3 (h1 ▸ hb)]
    · rw [if_neg hb, if_neg hb]

@[simp] theorem yields_map_true (l : List Value) : yields (l.map fun x => (true, x)) = l.map some := by
  simp [yields]

@[simp] theorem yields_append (l l' : List (Bool × Value)) : yields (l ++ l') = yields l ++ yields l' :=
  List.map_append _ _ _

@[simp] theorem yields_cons_false (x : Value) (l : List (Bool × Value)) :
    yields ((false, x) :: l) = none :: yields l := rfl

/-- A source whose first page holds one item and whose next page is empty, with cursor 0
as the hash repository's `Scan` returns it. -/
def restartSource : Source := fun c _ => if c = 0 then .ok (1, [[7]]) else .ok (0, [])

/-- After the empty page the next call fetches at cursor 0 again and yields the item a
second time. -/
theorem scanner_restarts_after_empty_page :
    yields (calls restartSource 3 (newScanner 10 0)).1 = [some [7], none, some [7]] := by
  decide

/-- The calls of a scanner over a chain of non-empty pages from cursor 0 yield the pages'
items once each and in order.  At the end of the chain, a failed fetch makes that call and
every later one return false, with `Err` the error; an empty page makes that call return
false with `Err` nil, and the later calls behave as a new scanner started at the cursor
that came with the empty page. -/
theorem scanner_pages (src : Source) (scanPageSize pageSize : Int) {items : List Value} {c : Int}
    (h : Pages src (newScanner scanPageSize pageSize).pageSize 0 items c) (n : Nat) :
    yields (calls src items.length (newScanner scanPageSize pageSize)).1 = items.map some ∧
      (∀ e, src c (newScanner scanPageSize pageSize).pageSize = .error e →
        yields (calls src (items.length + (n + 1)) (newScanner scanPageSize pageSize)).1 =
            items.map some ++ List.replicate (n + 1) none ∧
          (calls src (items.length + (n + 1)) (newScanner scanPageSize pageSize)).2.err = some e) ∧
      (∀ c', src c (newScanner scanPageSize pageSize).pageSize = .ok (c', []) →
        yields (calls src (items.length + (1 + n)) (newScanner scanPageSize pageSize)).1 =
            items.map some ++
              none :: yields (calls src n { newScanner scanPageSize pageSize with cursor := c' }).1 ∧
          (calls src (items.length + 1) (newScanner scanPageSize pageSize)).2.err = none) := by
  set sc := newScanner scanPageSize pageSize
  obtain ⟨hrun, hend, hps, herr⟩ := calls_pages h sc ⟨rfl, Nat.zero_le _⟩ rfl
  set sc₁ := (calls src items.length sc).2
  refine ⟨by rw [hrun, yields_map_true], fun e he => ?_, fun c' he => ?_⟩
  · have h₂ := calls_error n sc₁ hend (hps ▸ he)
    rw [calls_add, yields_append, hrun, yields_map_true, h₂.1]
    exact ⟨rfl, h₂.2⟩
  · have h₂ := scan_empty hend (hps ▸ he)
    have hpos : Scanner.pos { sc₁ with cursor := c', items := [], index := 0 } =
        Scanner.pos { sc with cursor := c' } := by
      simp only [Scanner.pos, hps]; rfl
    refine ⟨?_, by rw [calls_add]; simp only [calls, h₂]; exact herr⟩
    rw [calls_add, Nat.add_comm 1 n]
    simp only [calls, h₂, yields_append, hrun, yields_map_true, yields_cons_false]
    rw [yields_calls_congr n hpos]

/-- The witness chain: one page, then the empty page at cursor 1. -/
theorem scanner_pages_restart :
    Pages restartSource 10 0 [[7]] 1 ∧
      yields (calls restartSource (1 + (1 + 1)) (newScanner 10 0)).1 =
        [[7]].map some ++ none :: yields (calls restartSource 1 { newScanner 10 0 with cursor := 0 }).1 :=
  have hp : Pages restartSource 10 0 [[7]] 1 :=
    (Pages.page rfl (List.cons_ne_nil _ _) (.last 1) : Pages restartSource 10 0 ([[7]] ++ []) 1)
  ⟨hp, ((scanner_pages restartSource 10 0 hp 1).2.2 0 rfl).1⟩

end RSet
end Redka
