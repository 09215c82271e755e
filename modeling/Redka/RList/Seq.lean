import Redka.RList.Sql

/-! # The sequence a list key holds

A list is stored as rows with positions; what it *is* is the sequence of its
elements in `order by pos`.  `seqOf` reads that sequence off a store, and the
abstract operations at the end of this module say what each list method is meant to
do to it.

The reading order is characterised once (`sortByPos_eq`): any arrangement of a list's
rows with strictly increasing positions is the order `order by pos` reads.  Positions
are unique within a list (`positions_listRows_nodup`, from `rlist_pk_idx`), so every
change of rows the queries make has an obvious arrangement: a row past the last, or
strictly between two neighbours, slots in (`sortByPos_insert`); deleting rows keeps the
order of the others (`sortByPos_filter`); changing elements keeps the positions
(`sortByPos_map`).
-/

namespace Redka
namespace RList
open Store

/-- Strictly increasing positions. -/
def PosLT (a b : ListRow) : Prop := a.pos < b.pos

instance : IsTotal ListRow PosLE := ⟨fun a b => le_total a.pos b.pos⟩
instance : IsTrans ListRow PosLE := ⟨fun _ _ _ => le_trans⟩
instance : IsAntisymm ListRow PosLT := ⟨fun _ _ h h' => absurd h' (lt_asymm h)⟩

theorem positions_nodup_of_sorted {l : List ListRow} (h : l.Sorted PosLT) :
    (positions l).Nodup :=
  List.pairwise_map.2 (h.imp ne_of_lt)

theorem sorted_lt_of_le {l : List ListRow} (h : l.Sorted PosLE) (hn : (positions l).Nodup) :
    l.Sorted PosLT :=
  (h.and (List.pairwise_map.1 hn)).imp fun h => lt_of_le_of_ne h.1 h.2

theorem sortByPos_sorted {rows : List ListRow} (hn : (positions rows).Nodup) :
    (sortByPos rows).Sorted PosLT :=
  sorted_lt_of_le (List.sorted_insertionSort _ _)
    (((List.perm_insertionSort _ rows).map _).nodup_iff.2 hn)

/-- **Reading order.** An arrangement of a list's rows with strictly increasing
positions is the order in which `order by pos` reads them. -/
theorem sortByPos_eq {rows L : List ListRow} (hp : L.Perm rows) (hs : L.Sorted PosLT) :
    sortByPos rows = L :=
  have hperm := (List.perm_insertionSort _ rows).trans hp.symm
  List.eq_of_perm_of_sorted hperm
    (sortByPos_sorted ((hp.map _).nodup_iff.1 (positions_nodup_of_sorted hs))) hs

/-- A list's positions are distinct: `rlist_pk_idx`. -/
theorem positions_listRows_nodup (s : Store) (kid : Nat) : (positions (s.listRows kid)).Nodup := by
  have h : ((s.listRows kid).map ListRow.slot).Nodup :=
    s.rlist_pk.sublist ((List.filter_sublist _).map _)
  have : (s.listRows kid).map ListRow.slot = (positions (s.listRows kid)).map (kid, ·) := by
    rw [positions, List.map_map]
    exact List.map_congr_left fun r hr => by
      simp [ListRow.slot, (by simpa [listRows] using hr : r ∈ s.rlist ∧ r.kid = kid).2]
  exact List.Nodup.of_map _ (this ▸ h)

/-- A row whose position lies strictly between two parts of the reading order slots
in between them. -/
theorem sortByPos_insert {rows A B : List ListRow} {r : ListRow}
    (hn : (positions rows).Nodup) (hAB : sortByPos rows = A ++ B)
    (hA : ∀ a ∈ A, a.pos < r.pos) (hB : ∀ b ∈ B, r.pos < b.pos) :
    sortByPos (rows ++ [r]) = A ++ r :: B := by
  have hs := sortByPos_sorted hn
  rw [hAB] at hs
  obtain ⟨hsA, hsB, hAB'⟩ := List.pairwise_append.1 hs
  refine sortByPos_eq ?_ (List.pairwise_append.2 ⟨hsA, List.pairwise_cons.2 ⟨hB, hsB⟩, ?_⟩)
  · have hp : (A ++ B).Perm rows := hAB ▸ List.perm_insertionSort PosLE rows
    exact List.perm_middle.trans ((List.perm_append_singleton _ _).symm.trans (hp.append_right _))
  · intro a ha b hb
    rcases List.mem_cons.1 hb with rfl | hb
    · exact hA a ha
    · exact hAB' a ha b hb

/-- Deleting rows keeps the reading order of the others. -/
theorem sortByPos_filter {rows : List ListRow} (hn : (positions rows).Nodup) (q : ListRow → Bool) :
    sortByPos (rows.filter q) = (sortByPos rows).filter q :=
  sortByPos_eq ((List.perm_insertionSort _ rows).filter q) ((sortByPos_sorted hn).filter q)

/-- Changing rows without moving them keeps the reading order. -/
theorem sortByPos_map {rows : List ListRow} (hn : (positions rows).Nodup) {f : ListRow → ListRow}
    (hf : ∀ r, (f r).pos = r.pos) : sortByPos (rows.map f) = (sortByPos rows).map f :=
  sortByPos_eq ((List.perm_insertionSort _ rows).map f)
    (List.pairwise_map.2 ((sortByPos_sorted hn).imp fun h => by rwa [PosLT, hf, hf]))

/-! ## What the list methods are meant to do

Each list method implements a Redis command; on the sequence a key holds, the command
is one of these operations. -/

section Ops
variable {α : Type}

/-- `LSET`: the element at `i` replaced, a negative `i` counting from the end; an
index out of range changes nothing. -/
def setAt (l : List α) (i : Int) (e : α) : List α :=
  if 0 ≤ i then l.set i.toNat e
  else if 0 ≤ l.length + i then l.set (l.length + i).toNat e else l

/-- `LRANGE start stop`: negative indices count from the end, and the slice is
clipped to the list. -/
def lrange (l : List α) (start stop : Int) : List α :=
  let n : Int := l.length
  let b := max (if start < 0 then start + n else start) 0
  let e := if stop < 0 then stop + n else stop
  if e < b ∨ n ≤ b then [] else (l.drop b.toNat).take (min e (n - 1) - b + 1).toNat

/-- With both bounds counted from the front and `start ≤ stop + 1`, `LRANGE` is a plain
slice. -/
theorem lrange_of_nonneg (l : List α) {start stop : Int} (h0 : 0 ≤ start) (h1 : 0 ≤ stop)
    (h2 : start ≤ stop + 1) :
    lrange l start stop = (l.drop start.toNat).take (stop - start + 1).toNat := by
  unfold lrange
  simp only [not_lt.2 h0, not_lt.2 h1, if_false, max_eq_left h0]
  split
  · rename_i h
    rcases h with h | h
    · rw [show (stop - start + 1).toNat = 0 by omega, List.take_zero]
    · rw [List.drop_eq_nil_of_le (by omega : l.length ≤ start.toNat), List.take_nil]
  · rename_i h
    rw [not_or, not_lt, not_le] at h
    by_cases hs : stop ≤ l.length - 1
    · rw [min_eq_left hs]
    · rw [min_eq_right (by omega), List.take_of_length_le (by simp; omega),
        List.take_of_length_le (by simp; omega)]

/-- An element found at an index splits the list there. -/
theorem split_of_getElem? {L : List α} {j : Nat} {x : α} (h : L[j]? = some x) :
    ∃ A B, L = A ++ x :: B ∧ A.length = j := by
  obtain ⟨hj, rfl⟩ := List.getElem?_eq_some_iff.1 h
  exact ⟨L.take j, L.drop (j + 1), by rw [← List.drop_eq_getElem_cons hj, List.take_append_drop],
    by simp [hj.le]⟩

theorem set_split (A B : List α) (x e : α) : (A ++ x :: B).set A.length e = A ++ e :: B := by
  simp

/-- A negative index of `LSET` is an index into the reversed list. -/
theorem setAt_neg (l : List α) {i : Int} (hi : i < 0) (e : α) :
    setAt l i e = (l.reverse.set (-i - 1).toNat e).reverse := by
  rw [setAt, if_neg (not_le.2 hi)]
  cases h : l.reverse[(-i - 1).toNat]? with
  | none =>
    have hlen := List.getElem?_eq_none_iff.1 h
    rw [List.set_eq_of_length_le hlen, List.reverse_reverse, if_neg]
    simp only [List.length_reverse] at hlen
    omega
  | some x =>
    obtain ⟨A, B, hAB, hA⟩ := split_of_getElem? h
    have hl : l = B.reverse ++ x :: A.reverse := by
      rw [← List.reverse_reverse l, hAB]; simp
    have hlen : l.length = A.length + B.length + 1 := by rw [hl]; simp; omega
    have hidx : (l.length + i).toNat = B.reverse.length := by simp; omega
    rw [if_pos (by omega), hidx, hAB, ← hA, set_split, hl, set_split]
    simp

variable [DecidableEq α]


/-- `LINSERT ... BEFORE`: `e` just before the first `pivot`; no change without one. -/
def insertBeforeFirst (pivot e : α) : List α → List α
  | [] => []
  | x :: xs => if x = pivot then e :: x :: xs else x :: insertBeforeFirst pivot e xs

/-- `LINSERT ... AFTER`: `e` just after the first `pivot`; no change without one. -/
def insertAfterFirst (pivot e : α) : List α → List α
  | [] => []
  | x :: xs => if x = pivot then x :: e :: xs else x :: insertAfterFirst pivot e xs

/-- `LREM` with a positive count: the first `n` occurrences of `e` removed. -/
def eraseFirst (e : α) : Nat → List α → List α
  | 0, l => l
  | _ + 1, [] => []
  | n + 1, x :: xs => if x = e then eraseFirst e n xs else x :: eraseFirst e (n + 1) xs

/-- `LREM` with a negative count: the last `n` occurrences of `e` removed. -/
def eraseLast (e : α) (n : Nat) (l : List α) : List α := (eraseFirst e n l.reverse).reverse

theorem insertBeforeFirst_of_not_mem {pivot : α} (e : α) {l : List α} (h : pivot ∉ l) :
    insertBeforeFirst pivot e l = l := by
  induction l with
  | nil => rfl
  | cons x l ih =>
    have hx : x ≠ pivot := fun hx => h (hx ▸ List.mem_cons_self _ _)
    rw [insertBeforeFirst, if_neg hx, ih fun hm => h (List.mem_cons_of_mem _ hm)]

theorem insertAfterFirst_of_not_mem {pivot : α} (e : α) {l : List α} (h : pivot ∉ l) :
    insertAfterFirst pivot e l = l := by
  induction l with
  | nil => rfl
  | cons x l ih =>
    have hx : x ≠ pivot := fun hx => h (hx ▸ List.mem_cons_self _ _)
    rw [insertAfterFirst, if_neg hx, ih fun hm => h (List.mem_cons_of_mem _ hm)]

@[simp] theorem eraseFirst_nil (e : α) (n : Nat) : eraseFirst e n [] = [] := by
  cases n <;> rfl

@[simp] theorem eraseLast_nil (e : α) (n : Nat) : eraseLast e n [] = [] := by
  simp [eraseLast]

variable {β : Type} (f : β → α)

/-- Inserting a row just before the first row carrying `pivot` inserts its element
before the first `pivot`. -/
theorem insertBeforeFirst_map {A B : List β} {x : β} {pivot : α}
    (hA : ∀ y ∈ A, f y ≠ pivot) (hx : f x = pivot) (r : β) :
    insertBeforeFirst pivot (f r) ((A ++ x :: B).map f) = (A ++ r :: x :: B).map f := by
  induction A with
  | nil => simp [insertBeforeFirst, hx]
  | cons y A ih =>
    simp only [List.cons_append, List.map_cons]
    rw [insertBeforeFirst, if_neg (hA y (List.mem_cons_self _ _)),
      ih fun z hz => hA z (List.mem_cons_of_mem _ hz)]

theorem insertAfterFirst_map {A B : List β} {x : β} {pivot : α}
    (hA : ∀ y ∈ A, f y ≠ pivot) (hx : f x = pivot) (r : β) :
    insertAfterFirst pivot (f r) ((A ++ x :: B).map f) = (A ++ x :: r :: B).map f := by
  induction A with
  | nil => simp [insertAfterFirst, hx]
  | cons y A ih =>
    simp only [List.cons_append, List.map_cons]
    rw [insertAfterFirst, if_neg (hA y (List.mem_cons_self _ _)),
      ih fun z hz => hA z (List.mem_cons_of_mem _ hz)]

/-- Deleting the rows among the first `n` carrying `e`, named by a key unique to each
row, removes the first `n` occurrences of `e`. -/
theorem eraseFirst_map {γ : Type} [DecidableEq γ] (k : β → γ) (e : α) :
    ∀ (n : Nat) (L : List β), (L.map k).Nodup →
      (L.filter fun r => k r ∉ ((L.filter (f · = e)).take n).map k).map f =
        eraseFirst e n (L.map f)
  | 0, L, _ => by simp [eraseFirst]
  | _ + 1, [], _ => rfl
  | n + 1, x :: L, hL => by
    obtain ⟨hx, hL⟩ := List.nodup_cons.1 hL
    have hsub : ∀ m, ∀ z ∈ ((L.filter (f · = e)).take m).map k, z ∈ L.map k := fun m z hz =>
      (((List.take_sublist _ _).trans (List.filter_sublist _)).map k).subset hz
    by_cases hfx : f x = e
    · have hne : ∀ y ∈ L, (k y ∈ k x :: ((L.filter (f · = e)).take n).map k ↔
          k y ∈ ((L.filter (f · = e)).take n).map k) := fun y hy =>
        ⟨fun h => (List.mem_cons.1 h).resolve_left fun h' => hx (h' ▸ List.mem_map_of_mem k hy),
          List.mem_cons_of_mem _⟩
      simp only [List.filter_cons, hfx, decide_True, if_true, List.take_succ_cons, List.map_cons,
        List.mem_cons_self, not_true, decide_False, Bool.false_eq_true, if_false, eraseFirst]
      rw [← eraseFirst_map k e n L hL]
      congr 1
      exact List.filter_congr fun y hy => by simp only [hne y hy]
    · have hkx : k x ∉ ((L.filter (f · = e)).take (n + 1)).map k := fun h => hx (hsub _ _ h)
      simp only [List.filter_cons, hfx, decide_False, Bool.false_eq_true, if_false, hkx,
        not_false_eq_true, decide_True, if_true, List.map_cons, eraseFirst]
      rw [eraseFirst_map k e (n + 1) L hL]

end Ops

/-! ## The rows of one list -/

@[simp] theorem listRows_touch (s : Store) (p dv mtime dl j) :
    (s.touch p dv mtime dl).listRows j = s.listRows j := rfl

@[simp] theorem listRows_insertKey (s : Store) (key type mtime len h j) :
    (s.insertKey key type mtime len h).listRows j = s.listRows j := rfl

@[simp] theorem listRows_deleteList (s : Store) (p now j) :
    (s.deleteList p now).listRows j = (s.listRows j).filter fun r => !p r := by
  simp only [listRows, deleteList_rlist, List.filter_filter, Bool.and_comm]

@[simp] theorem listRows_updateList (s : Store) (p e now j) :
    (s.updateList p e now).listRows j =
      (s.listRows j).map fun r => if p r then { r with elem := e } else r := by
  simp only [listRows, updateList_rlist, List.filter_map]
  congr 2; funext r; simp only [Function.comp]; split <;> rfl

theorem listRows_insertList {s s' : Store} {row : ListRow} (h : s.insertList row = some s')
    (j : Nat) : s'.listRows j = s.listRows j ++ if row.kid = j then [row] else [] := by
  simp only [listRows, (insertList_eq_some h).1, List.filter_append, List.filter_cons,
    List.filter_nil, decide_eq_true_eq]

theorem kid_of_mem_listRows {s : Store} {kid : Nat} {r : ListRow} (h : r ∈ s.listRows kid) :
    r.kid = kid := by
  simpa using (List.mem_filter.1 h).2

/-! ## The sequence a key holds -/

/-- The rows list `key` holds, in reading order; none when `key` is not a list. -/
def rowsOf (s : Store) (key : String) : List ListRow :=
  match s.kindOf key with
  | some (id, .list) => sortByPos (s.listRows id)
  | _ => []

/-- The sequence list `key` holds: its elements in `order by pos`. -/
def seqOf (s : Store) (key : String) : List Value := (rowsOf s key).map (·.elem)

@[simp] theorem seqOf_touch (s : Store) (p dv mtime dl) :
    seqOf (s.touch p dv mtime dl) = seqOf s := by
  funext k; simp only [seqOf, rowsOf, kindOf_touch, listRows_touch]

theorem seqOf_of_kindOf {s : Store} {key : String} {id : Nat}
    (h : s.kindOf key = some (id, .list)) :
    seqOf s key = (sortByPos (s.listRows id)).map (·.elem) := by
  simp [seqOf, rowsOf, h]

/-- Two keys of one id are one key. -/
theorem kindOf_inj {s : Store} {k k' : String} {id : Nat} {t t' : TypeID}
    (h : s.kindOf k = some (id, t)) (h' : s.kindOf k' = some (id, t')) : k = k' := by
  obtain ⟨r, hr, hre⟩ := Option.map_eq_some'.1 h
  obtain ⟨r', hr', hre'⟩ := Option.map_eq_some'.1 h'
  obtain ⟨hm, rfl⟩ := findKey_eq_some.1 hr
  obtain ⟨hm', rfl⟩ := findKey_eq_some.1 hr'
  rw [eq_of_id_eq hm hm' ((congrArg Prod.fst hre).trans (congrArg Prod.fst hre').symm)]

/-- **Frame.** A change of one list's rows that leaves the keys alone changes the
sequence of that key only. -/
theorem seqOf_update {s s' : Store} {key : String} {id : Nat}
    (hk : s'.kindOf = s.kindOf) (hid : s.kindOf key = some (id, .list))
    (hrows : ∀ j, j ≠ id → s'.listRows j = s.listRows j) :
    seqOf s' = Function.update (seqOf s) key ((sortByPos (s'.listRows id)).map (·.elem)) := by
  funext k
  by_cases hkey : k = key
  · subst hkey; simp [seqOf, rowsOf, hk, hid]
  · rw [Function.update_noteq hkey]
    simp only [seqOf, rowsOf, hk]
    rcases hkk : s.kindOf k with _ | ⟨j, _ | _ | _ | _ | _⟩ <;> try rfl
    exact congrArg (fun l => (sortByPos l).map (·.elem))
      (hrows j fun hj => hkey (kindOf_inj (hj ▸ hkk) hid))

end RList
end Redka
