import Mathlib.Order.WithBot
import Mathlib.Tactic

/-!
# Priority queues

A binary heap in a list, with the smallest key on top, as `std::priority_queue` keeps it.  An
element that is pushed rises from the end of the list.  For a pop the last element takes the
place of the top, sinks to a leaf along the smaller children, and rises from there.

* `keyAt` is the key at a position, and `⊤` behind the end, so that the order of a heap is about all
  positions; `RisingAt`, `SinkingAt` are the orders of a list with one element out of place;
* `PriorityQueue` is a list in heap order; `perm_push`, `perm_pop` say what its operations do to the
  elements, `le_of_top?` that the top has the smallest key;
* `top?_push`: an element whose key is not smaller leaves the top where it is.
-/

universe u v

namespace Heap

/-- The position above; that of the top is its own. -/
def parent (i : ℕ) : ℕ := (i - 1) / 2

theorem parent_eq_iff {i j : ℕ} (hj : j ≠ 0) : parent j = i ↔ j = 2 * i + 1 ∨ j = 2 * i + 2 := by
  unfold parent
  omega

theorem parent_lt {i : ℕ} (hi : i ≠ 0) : parent i < i := by
  unfold parent
  omega

/-! ### Orders of positions -/

section Order

variable {β : Type v} [LinearOrder β] {f g : ℕ → β} {i : ℕ}

/-- No key is below that of its parent. -/
def Ordered (f : ℕ → β) : Prop := ∀ j, f (parent j) ≤ f j

/-- Only the element at this position may have to rise. -/
structure RisingAt (f : ℕ → β) (i : ℕ) : Prop where
  others : ∀ j, j ≠ i → f (parent j) ≤ f j
  below : ∀ j, parent j = i → f (parent i) ≤ f j

/-- Only the element at this position may have to sink. -/
structure SinkingAt (f : ℕ → β) (i : ℕ) : Prop where
  others : ∀ j, j ≠ i → parent j ≠ i → f (parent j) ≤ f j
  below : ∀ j, j ≠ i → parent j = i → i ≠ 0 → f (parent i) ≤ f j

/-- The elements at two positions are exchanged. -/
structure Swapped (f g : ℕ → β) (i j : ℕ) : Prop where
  left : g i = f j
  right : g j = f i
  rest : ∀ p, p ≠ i → p ≠ j → g p = f p

theorem Ordered.top_le (h : Ordered f) (i : ℕ) : f 0 ≤ f i := by
  induction i using Nat.strongRecOn with
  | ind i ih =>
    by_cases hi : i = 0
    · rw [hi]
    · exact (ih _ (parent_lt hi)).trans (h i)

theorem RisingAt.ordered (h : RisingAt f i) (hle : f (parent i) ≤ f i) : Ordered f := by
  intro j
  by_cases hj : j = i
  · rw [hj]
    exact hle
  · exact h.others j hj

/-- The element is smaller than the one above it, and takes its place. -/
theorem RisingAt.swap (h : RisingAt f i) (hlt : f i < f (parent i))
    (hg : Swapped f g i (parent i)) : RisingAt g (parent i) := by
  have hi : i ≠ 0 := by
    rintro rfl
    exact lt_irrefl _ hlt
  have hparent := parent_lt hi
  constructor
  · intro j hj
    by_cases hji : j = i
    · rw [hji, hg.left, hg.right]
      exact hlt.le
    · rw [hg.rest j hji hj]
      by_cases hup : parent j = i
      · rw [hup, hg.left]
        exact h.below j hup
      · by_cases hside : parent j = parent i
        · rw [hside, hg.right]
          exact hlt.le.trans (hside ▸ h.others j hji)
        · rw [hg.rest _ hup hside]
          exact h.others j hji
  · intro j hj
    by_cases hzero : parent i = 0
    · -- the top is above its children
      have htop : parent (parent i) = parent i := by
        rw [hzero]
        rfl
      rw [htop, hg.right]
      by_cases hji : j = i
      · rw [hji, hg.left]
        exact hlt.le
      · by_cases hjp : j = parent i
        · rw [hjp, hg.right]
        · rw [hg.rest j hji hjp]
          exact hlt.le.trans (hj ▸ h.others j hji)
    · have hgrand := parent_lt hzero
      have hne : parent i ≠ i := hparent.ne
      rw [hg.rest (parent (parent i)) (by omega) hgrand.ne]
      by_cases hji : j = i
      · rw [hji, hg.left]
        exact h.others _ hne
      · have hjp : j ≠ parent i := by
          rintro rfl
          exact hgrand.ne hj
        rw [hg.rest j hji hjp]
        exact (h.others _ hne).trans (hj ▸ h.others j hji)

/-- The smaller one of the elements below takes the place of the element. -/
theorem SinkingAt.swap {c : ℕ} (h : SinkingAt f i) (hc : c ≠ 0) (hparent : parent c = i)
    (hmin : ∀ j, j ≠ 0 → parent j = i → f c ≤ f j) (hg : Swapped f g i c) : SinkingAt g c := by
  have hlt : i < c := hparent ▸ parent_lt hc
  constructor
  · intro j hj hup
    by_cases hji : j = i
    · subst hji
      by_cases hzero : j = 0
      · rw [hzero]
        rfl
      · have habove := parent_lt hzero
        rw [hg.rest (parent j) habove.ne (by omega), hg.left]
        exact h.below c (by omega) hparent hzero
    · rw [hg.rest j hji hj]
      by_cases hside : parent j = i
      · rw [hside, hg.left]
        refine hmin j ?_ hside
        rintro rfl
        exact hji hside
      · rw [hg.rest _ hside hup]
        exact h.others j hji hside
  · intro j hj hup hzero
    have hjlt : c < j := hup ▸ parent_lt (by rintro rfl; exact hj hup)
    rw [hparent, hg.left, hg.rest j (by omega) hj]
    have hother := h.others j (by omega) (by omega)
    rwa [hup] at hother

/-- At a leaf the element has nothing below it, and may have to rise. -/
theorem SinkingAt.risingAt [OrderTop β] (h : SinkingAt f i)
    (hleaf : ∀ j, j ≠ 0 → parent j = i → f j = ⊤) : RisingAt f i := by
  constructor
  · intro j hj
    by_cases hup : parent j = i
    · by_cases hzero : j = 0
      · rw [hzero]
        rfl
      · rw [hleaf j hzero hup]
        exact le_top
    · exact h.others j hj hup
  · intro j hup
    by_cases hzero : j = 0
    · subst hzero
      rw [← hup]
      rfl
    · rw [hleaf j hzero hup]
      exact le_top

end Order

/-! ### Lists -/

section List

variable {α : Type u} {κ : Type v} (key : α → κ)

/-- The key at a position, and `⊤` behind the end. -/
def keyAt (l : List α) (i : ℕ) : WithTop κ :=
  match l[i]? with
  | some x => (key x : WithTop κ)
  | none => ⊤

theorem keyAt_congr {l l' : List α} {i j : ℕ} (h : l[i]? = l'[j]?) :
    keyAt key l i = keyAt key l' j := by
  unfold keyAt
  rw [h]

theorem keyAt_of_getElem? {l : List α} {i : ℕ} {x : α} (h : l[i]? = some x) :
    keyAt key l i = key x := by
  unfold keyAt
  rw [h]

theorem keyAt_of_length_le {l : List α} {i : ℕ} (h : l.length ≤ i) : keyAt key l i = ⊤ := by
  unfold keyAt
  rw [List.getElem?_eq_none h]

theorem getElem?_swap {l : List α} {i j : ℕ} (hi : i < l.length) (hj : j < l.length) (p : ℕ) :
    (l.swap i j)[p]? = if p = j then l[i]? else if p = i then l[j]? else l[p]? := by
  rw [List.swap_eq_of_lt hi hj, List.getElem?_set, List.getElem?_set, List.length_set]
  by_cases hpj : p = j
  · subst hpj
    simp [hj, hi]
  · by_cases hpi : p = i
    · subst hpi
      simp [Ne.symm hpj, hpj, hi, hj]
    · simp [Ne.symm hpj, Ne.symm hpi, hpj, hpi]

theorem swapped_swap {l : List α} {i j : ℕ} (hi : i < l.length) (hj : j < l.length) :
    Swapped (keyAt key l) (keyAt key (l.swap i j)) i j := by
  constructor
  · apply keyAt_congr
    rw [getElem?_swap hi hj]
    by_cases hij : i = j
    · rw [if_pos hij, hij]
    · rw [if_neg hij, if_pos rfl]
  · apply keyAt_congr
    rw [getElem?_swap hi hj, if_pos rfl]
  · intro p hpi hpj
    apply keyAt_congr
    rw [getElem?_swap hi hj, if_neg hpj, if_neg hpi]

variable [LinearOrder κ]

/-- The element at a position rises while it is smaller than the one above it. -/
def siftUp : ℕ → List α → ℕ → List α
  | 0, l, _ => l
  | fuel + 1, l, i =>
      if keyAt key l i < keyAt key l (parent i) then siftUp fuel (l.swap i (parent i)) (parent i)
      else l

/-- The element at a position sinks to a leaf, along the smaller children, and along the right ones
where both are the same. -/
def sink : ℕ → List α → ℕ → List α × ℕ
  | 0, l, i => (l, i)
  | fuel + 1, l, i =>
      if 2 * i + 2 < l.length then
        let child := if keyAt key l (2 * i + 1) < keyAt key l (2 * i + 2) then 2 * i + 1
          else 2 * i + 2
        sink fuel (l.swap i child) child
      else if 2 * i + 1 < l.length then (l.swap i (2 * i + 1), 2 * i + 1)
      else (l, i)

/-- Put an element behind the last one, and let it rise. -/
def push (l : List α) (x : α) : List α := siftUp key l.length (l ++ [x]) l.length

/-- Let the last element take the place of the top, sink, and rise. -/
def pop (l : List α) : List α :=
  match l.getLast? with
  | none => []
  | some x =>
      let sunk := sink key l.length (l.dropLast.set 0 x) 0
      siftUp key sunk.2 sunk.1 sunk.2

theorem siftUp_perm (fuel : ℕ) (l : List α) (i : ℕ) : (siftUp key fuel l i).Perm l := by
  induction fuel generalizing l i with
  | zero => exact .refl l
  | succ fuel ih =>
    unfold siftUp
    split_ifs
    · exact (ih _ _).trans (List.swap_perm l i (parent i))
    · exact .refl l

theorem sink_perm (fuel : ℕ) (l : List α) (i : ℕ) : (sink key fuel l i).1.Perm l := by
  induction fuel generalizing l i with
  | zero => exact .refl l
  | succ fuel ih =>
    unfold sink
    split_ifs
    · exact (ih _ _).trans (List.swap_perm l i _)
    · exact (ih _ _).trans (List.swap_perm l i _)
    · exact List.swap_perm l i _
    · exact .refl l

theorem push_perm (l : List α) (x : α) : (push key l x).Perm (x :: l) :=
  (siftUp_perm key _ _ _).trans (List.perm_append_singleton x l)

theorem pop_perm {l : List α} {x : α} (h : l[0]? = some x) : l.Perm (x :: pop key l) := by
  cases l with
  | nil => cases h
  | cons y l =>
    obtain rfl := Option.some.inj h
    refine List.Perm.cons y ?_
    unfold pop
    rw [List.getLast?_cons]
    refine List.Perm.symm (((siftUp_perm key _ _ _).trans (sink_perm key _ _ _)).trans ?_)
    cases hl : l.reverse with
    | nil =>
      obtain rfl := List.reverse_eq_nil_iff.1 hl
      exact .refl []
    | cons z rest =>
      obtain rfl : l = rest.reverse ++ [z] := by
        rw [← List.reverse_reverse l, hl, List.reverse_cons]
      rw [List.getLast?_concat, Option.getD_some, ← List.cons_append, List.dropLast_concat,
        List.set_cons_zero]
      exact (List.perm_append_singleton z rest.reverse).symm

/-- A position whose element is to rise is one in the list, and not the top. -/
theorem lt_length_of_lt_parent {l : List α} {i : ℕ}
    (hlt : keyAt key l i < keyAt key l (parent i)) : i ≠ 0 ∧ i < l.length := by
  constructor
  · rintro rfl
    exact lt_irrefl _ hlt
  · by_contra hge
    rw [keyAt_of_length_le key (Nat.le_of_not_lt hge)] at hlt
    exact not_top_lt hlt

theorem ordered_siftUp {fuel : ℕ} {l : List α} {i : ℕ} (hfuel : i ≤ fuel)
    (h : RisingAt (keyAt key l) i) : Ordered (keyAt key (siftUp key fuel l i)) := by
  induction fuel generalizing l i with
  | zero =>
    obtain rfl := Nat.le_zero.1 hfuel
    exact h.ordered le_rfl
  | succ fuel ih =>
    unfold siftUp
    split_ifs with hlt
    · obtain ⟨hi, hlen⟩ := lt_length_of_lt_parent key hlt
      have hparent := parent_lt hi
      apply ih (by omega)
      exact h.swap hlt (swapped_swap key hlen (by omega))
    · exact h.ordered (not_lt.1 hlt)

/-- One step down, to the child with the smaller key. -/
theorem sinkingAt_swap {l : List α} {i c : ℕ} (hc : c < l.length)
    (hchild : c = 2 * i + 1 ∨ c = 2 * i + 2) (hleft : keyAt key l c ≤ keyAt key l (2 * i + 1))
    (hright : keyAt key l c ≤ keyAt key l (2 * i + 2)) (h : SinkingAt (keyAt key l) i) :
    SinkingAt (keyAt key (l.swap i c)) c := by
  have hne : c ≠ 0 := by omega
  refine h.swap hne ((parent_eq_iff hne).2 hchild) ?_ (swapped_swap key (by omega) hc)
  intro j hj hup
  rcases (parent_eq_iff hj).1 hup with rfl | rfl
  · exact hleft
  · exact hright

theorem risingAt_of_leaf {l : List α} {i : ℕ} (hleaf : l.length ≤ 2 * i + 1)
    (h : SinkingAt (keyAt key l) i) : RisingAt (keyAt key l) i := by
  apply h.risingAt
  intro j hj hup
  apply keyAt_of_length_le
  rcases (parent_eq_iff hj).1 hup with rfl | rfl
  · exact hleaf
  · omega

theorem risingAt_sink {fuel : ℕ} {l : List α} {i : ℕ} (hfuel : l.length ≤ i + fuel)
    (h : SinkingAt (keyAt key l) i) :
    RisingAt (keyAt key (sink key fuel l i).1) (sink key fuel l i).2 := by
  induction fuel generalizing l i with
  | zero =>
    have hleaf : l.length ≤ 2 * i + 1 := by omega
    exact risingAt_of_leaf key hleaf h
  | succ fuel ih =>
    unfold sink
    by_cases hboth : 2 * i + 2 < l.length
    · rw [if_pos hboth]
      dsimp only
      by_cases hleft : keyAt key l (2 * i + 1) < keyAt key l (2 * i + 2)
      · rw [if_pos hleft]
        apply ih
        · rw [(List.swap_perm l i (2 * i + 1)).length_eq]
          omega
        · exact sinkingAt_swap key (by omega) (Or.inl rfl) le_rfl hleft.le h
      · rw [if_neg hleft]
        apply ih
        · rw [(List.swap_perm l i (2 * i + 2)).length_eq]
          omega
        · exact sinkingAt_swap key hboth (Or.inr rfl) (not_lt.1 hleft) le_rfl h
    · rw [if_neg hboth]
      by_cases hone : 2 * i + 1 < l.length
      · -- the only child is the last element, and a leaf
        rw [if_pos hone]
        apply risingAt_of_leaf key
        · rw [(List.swap_perm l i (2 * i + 1)).length_eq]
          omega
        · refine sinkingAt_swap key hone (Or.inl rfl) le_rfl ?_ h
          rw [keyAt_of_length_le key (by omega : l.length ≤ 2 * i + 2)]
          exact le_top
      · rw [if_neg hone]
        exact risingAt_of_leaf key (not_lt.1 hone) h

theorem ordered_push {l : List α} (h : Ordered (keyAt key l)) (x : α) :
    Ordered (keyAt key (push key l x)) := by
  apply ordered_siftUp key le_rfl
  have hold : ∀ j, j < l.length → keyAt key (l ++ [x]) j = keyAt key l j := fun j hj =>
    keyAt_congr key (List.getElem?_append_left hj)
  have hend : ∀ j, l.length < j → keyAt key (l ++ [x]) j = ⊤ := by
    intro j hj
    apply keyAt_of_length_le
    rw [List.length_append, List.length_singleton]
    omega
  constructor
  · intro j hj
    by_cases hlt : j < l.length
    · have hup : parent j ≤ j := by
        unfold parent
        omega
      rw [hold j hlt, hold _ (by omega)]
      exact h j
    · rw [hend j (by omega)]
      exact le_top
  · intro j hup
    by_cases hlt : l.length < j
    · rw [hend j hlt]
      exact le_top
    · -- the only position with this one above it is the top of an empty list
      have hzero : j = 0 := by
        by_contra hne
        have hparent := parent_lt hne
        omega
      subst hzero
      rw [← hup]
      rfl

theorem ordered_pop {l : List α} (h : Ordered (keyAt key l)) : Ordered (keyAt key (pop key l)) := by
  unfold pop
  cases hlast : l.getLast? with
  | none => exact fun _ => le_refl (⊤ : WithTop κ)
  | some x =>
    apply ordered_siftUp key le_rfl
    apply risingAt_sink key
    · rw [List.length_set, List.length_dropLast]
      omega
    · have hold : ∀ j, j ≠ 0 → j < l.length - 1 →
          keyAt key (l.dropLast.set 0 x) j = keyAt key l j := by
        intro j hj hlt
        apply keyAt_congr
        rw [List.getElem?_set_ne hj.symm, List.getElem?_dropLast, if_pos hlt]
      constructor
      · intro j hj hup
        by_cases hlt : j < l.length - 1
        · have hparent := parent_lt hj
          rw [hold j hj hlt, hold _ hup (by omega)]
          exact h j
        · rw [keyAt_of_length_le key (i := j)]
          · exact le_top
          · rw [List.length_set, List.length_dropLast]
            omega
      · intro j _ _ hzero
        exact absurd rfl hzero

/-- An element that rises stops below a top that is not larger. -/
theorem getElem?_siftUp_zero {fuel : ℕ} {l : List α} {i : ℕ}
    (hle : keyAt key l 0 ≤ keyAt key l i) : (siftUp key fuel l i)[0]? = l[0]? := by
  induction fuel generalizing l i with
  | zero => rfl
  | succ fuel ih =>
    unfold siftUp
    split_ifs with hlt
    · obtain ⟨hi, hlen⟩ := lt_length_of_lt_parent key hlt
      have hparent : parent i ≠ 0 := by
        intro hzero
        rw [hzero] at hlt
        exact absurd hle (not_le.2 hlt)
      have hup := parent_lt hi
      have hswap := getElem?_swap hlen (hup.trans hlen)
      have htop : (l.swap i (parent i))[0]? = l[0]? := by
        rw [hswap, if_neg (Ne.symm hparent), if_neg (Ne.symm hi)]
      rw [ih, htop]
      rw [keyAt_congr key htop, (swapped_swap key hlen (hup.trans hlen)).right]
      exact hle
    · rfl

end List

end Heap

/-- A list in heap order; the element of the smallest key is on top. -/
structure PriorityQueue {α : Type u} {κ : Type v} [LinearOrder κ] (key : α → κ) where
  items : List α
  ordered : Heap.Ordered (Heap.keyAt key items)

namespace PriorityQueue

variable {α : Type u} {κ : Type v} [LinearOrder κ] {key : α → κ}

/-- A queue without items. -/
def empty : PriorityQueue key where
  items := []
  ordered _ := le_refl (⊤ : WithTop κ)

/-- An item with the smallest key. -/
def top? (q : PriorityQueue key) : Option α := q.items[0]?

/-- `push`, which keeps the order. -/
def push (q : PriorityQueue key) (x : α) : PriorityQueue key where
  items := Heap.push key q.items x
  ordered := Heap.ordered_push key q.ordered x

/-- `pop`, which keeps the order. -/
def pop (q : PriorityQueue key) : PriorityQueue key where
  items := Heap.pop key q.items
  ordered := Heap.ordered_pop key q.ordered

/-- Pushing one after the other. -/
def pushAll (q : PriorityQueue key) (xs : List α) : PriorityQueue key := xs.foldl push q

theorem perm_push (q : PriorityQueue key) (x : α) : (q.push x).items.Perm (x :: q.items) :=
  Heap.push_perm key q.items x

theorem perm_pushAll (q : PriorityQueue key) (xs : List α) :
    (q.pushAll xs).items.Perm (q.items ++ xs) := by
  induction xs generalizing q with
  | nil => rw [List.append_nil]; rfl
  | cons x xs ih =>
    refine (ih (q.push x)).trans (((q.perm_push x).append_right xs).trans ?_)
    exact List.perm_middle.symm

theorem perm_pop {q : PriorityQueue key} {x : α} (h : q.top? = some x) :
    q.items.Perm (x :: q.pop.items) :=
  Heap.pop_perm key h

theorem top?_eq_none_iff {q : PriorityQueue key} : q.top? = none ↔ q.items = [] := by
  unfold top?
  rw [List.getElem?_eq_none_iff, Nat.le_zero, List.length_eq_zero_iff]

/-- No element has a smaller key than the top. -/
theorem le_of_top? {q : PriorityQueue key} {x y : α} (h : q.top? = some x) (hy : y ∈ q.items) :
    key x ≤ key y := by
  obtain ⟨i, hi⟩ := List.mem_iff_getElem?.1 hy
  have hle := q.ordered.top_le i
  rw [Heap.keyAt_of_getElem? key h, Heap.keyAt_of_getElem? key hi] at hle
  exact WithTop.coe_le_coe.1 hle

/-- A pushed element whose key is not smaller leaves the top. -/
theorem top?_push {q : PriorityQueue key} {x y : α} (h : q.top? = some x) (hle : key x ≤ key y) :
    (q.push y).top? = some x := by
  have htop : (q.items ++ [y])[0]? = some x := by
    rw [List.getElem?_append_left (List.getElem?_eq_some_iff.1 h).1]
    exact h
  have hend : (q.items ++ [y])[q.items.length]? = some y := List.getElem?_concat_length
  refine (Heap.getElem?_siftUp_zero key ?_).trans htop
  rw [Heap.keyAt_of_getElem? key htop, Heap.keyAt_of_getElem? key hend]
  exact WithTop.coe_le_coe.2 hle

theorem top?_pushAll {q : PriorityQueue key} {x : α} {ys : List α} (h : q.top? = some x)
    (hle : ∀ y ∈ ys, key x ≤ key y) : (q.pushAll ys).top? = some x := by
  induction ys generalizing q with
  | nil => exact h
  | cons y ys ih =>
    rw [List.forall_mem_cons] at hle
    exact ih (top?_push h hle.1) hle.2

/-- Elements with the same key do not leave in the order in which they were pushed. -/
example : ((empty : PriorityQueue fun p : ℕ × ℕ => p.1).pushAll
    [(2, 0), (2, 1), (2, 2), (2, 3)]).pop.top? = some (2, 2) := by
  decide +kernel

end PriorityQueue
