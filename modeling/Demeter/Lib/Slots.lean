import Mathlib.Algebra.BigOperators.Group.List.Lemmas
import Mathlib.Data.List.Count
import Mathlib.Tactic

/-!
# Taking from slots one by one

Slots have capacities, and each of a list of picks takes one from its slot, if there is anything
left in it.

* `left` is what is left of a slot, `exists_left_pos` finds a slot with something left;
* `FullestFirst` says that every pick is a fullest slot, and then the slots are levelled down:
  `FullestFirst.levelled`.
-/

namespace Slots

/-- What is left of a capacity after `k` picks. -/
def left (cap : ℤ) (k : ℕ) : ℤ := cap - min (k : ℤ) (max cap 0)

@[simp] theorem left_zero (cap : ℤ) : left cap 0 = cap := by
  unfold left
  omega

theorem left_succ (cap : ℤ) (k : ℕ) :
    left cap (k + 1) = if left cap k > 0 then left cap k - 1 else left cap k := by
  unfold left
  split_ifs <;> omega

theorem left_pos {cap : ℤ} {k : ℕ} : 0 < left cap k ↔ (k : ℤ) < cap := by
  unfold left
  omega

theorem left_le (cap : ℤ) (k : ℕ) : left cap k ≤ cap := by
  unfold left
  omega

theorem left_anti (cap : ℤ) {k k' : ℕ} (h : k ≤ k') : left cap k' ≤ left cap k := by
  unfold left
  omega

section Picks

variable {ι : Type*} [DecidableEq ι]

theorem sum_count_le {slots : List ι} (hnodup : slots.Nodup) (picks : List ι) :
    (slots.map picks.count).sum ≤ picks.length := by
  induction slots generalizing picks with
  | nil => exact Nat.zero_le _
  | cons i slots ih =>
    obtain ⟨hi, hnodup⟩ := List.nodup_cons.1 hnodup
    have hrest : slots.map picks.count = slots.map (picks.filter (· ≠ i)).count := by
      refine List.map_congr_left fun j hj => ?_
      have hji : j ≠ i := fun he => hi (he ▸ hj)
      rw [List.count_filter (by simpa using hji)]
    have hlength : picks.length = picks.count i + (picks.filter (· ≠ i)).length := by
      rw [← List.countP_eq_length_filter, List.count, List.length_eq_countP_add_countP (· == i)]
      simp
    rw [List.map_cons, List.sum_cons, hrest, hlength]
    exact Nat.add_le_add_left (ih hnodup _) _

/-- With fewer picks than there is capacity, something is left. -/
theorem exists_left_pos {slots : List ι} (hnodup : slots.Nodup) {cap : ι → ℤ} {picks : List ι}
    (h : (picks.length : ℤ) < (slots.map fun i => max (cap i) 0).sum) :
    ∃ i ∈ slots, 0 < left (cap i) (picks.count i) := by
  by_contra hnone
  push Not at hnone
  have hle : ∀ i ∈ slots, max (cap i) 0 ≤ (picks.count i : ℤ) := by
    intro i hi
    have := hnone i hi
    unfold left at this
    omega
  have hsum := List.sum_le_sum hle
  have hcount : ((slots.map fun i => (picks.count i : ℤ)).sum) ≤ picks.length := by
    have hle := sum_count_le hnodup picks
    rw [← Nat.cast_le (α := ℤ), Nat.cast_list_sum, List.map_map] at hle
    exact hle
  omega

/-- Every pick takes something. -/
def Available (cap : ι → ℤ) (picks : List ι) : Prop :=
  ∀ k pick, picks[k]? = some pick → 0 < left (cap pick) ((picks.take k).count pick)

/-- Every pick is a slot of which there is at least as much left as of any other one. -/
def FullestFirst (slots : ι → Prop) (cap : ι → ℤ) (picks : List ι) : Prop :=
  ∀ k pick, picks[k]? = some pick → ∀ i, slots i →
    left (cap i) ((picks.take k).count i) ≤ left (cap pick) ((picks.take k).count pick)

variable {slots : ι → Prop} {cap : ι → ℤ} {picks : List ι}

omit [DecidableEq ι] in
/-- What holds of every pick and the picks before it. -/
theorem of_append_singleton {P : List ι → ι → Prop} {pick : ι}
    (h : ∀ k p, (picks ++ [pick])[k]? = some p → P ((picks ++ [pick]).take k) p) :
    (∀ k p, picks[k]? = some p → P (picks.take k) p) ∧ P picks pick := by
  refine ⟨fun k p hk => ?_, ?_⟩
  · have hlt := (List.getElem?_eq_some_iff.1 hk).1
    have hp := h k p (by rw [List.getElem?_append_left hlt, hk])
    rwa [List.take_append_of_le_length hlt.le] at hp
  · have hlast := h picks.length pick List.getElem?_concat_length
    rwa [List.take_left] at hlast

/-- A slot is not picked more often than its capacity. -/
theorem Available.count_le (h : Available cap picks) {i : ι} (hi : i ∈ picks) :
    (picks.count i : ℤ) ≤ cap i := by
  induction picks using List.reverseRecOn with
  | nil => cases hi
  | append_singleton picks pick ih =>
    obtain ⟨hpicks, hpos⟩ := of_append_singleton
      (P := fun before p => 0 < left (cap p) (before.count p)) h
    rw [List.count_append, List.count_singleton]
    by_cases hpick : pick = i
    · subst hpick
      rw [left_pos] at hpos
      simpa using hpos
    · have hi' : i ∈ picks := (List.mem_append.1 hi).resolve_right fun he =>
        hpick (List.mem_singleton.1 he).symm
      rw [if_neg (by simpa using hpick), Nat.add_zero]
      exact ih hpicks hi'

/-- **Levelling.**  When the fullest slots are picked first, no slot has more than one more left
than a slot that was picked. -/
theorem FullestFirst.levelled (h : FullestFirst slots cap picks) (havail : Available cap picks)
    {i j : ι} (hi : i ∈ picks) (hj : slots j) :
    left (cap j) (picks.count j) ≤ left (cap i) (picks.count i) + 1 := by
  induction picks using List.reverseRecOn with
  | nil => cases hi
  | append_singleton picks pick ih =>
    obtain ⟨hpicks, hpos⟩ := of_append_singleton
      (P := fun before p => 0 < left (cap p) (before.count p)) havail
    obtain ⟨hlevels, hfullest⟩ := of_append_singleton (P := fun before p =>
      ∀ i, slots i → left (cap i) (before.count i) ≤ left (cap p) (before.count p)) h
    have hanti : left (cap j) ((picks ++ [pick]).count j) ≤ left (cap j) (picks.count j) :=
      left_anti _ (by rw [List.count_append]; exact Nat.le_add_right _ _)
    by_cases hpick : pick = i
    · subst hpick
      have hj' := hfullest j hj
      have hcount : (picks ++ [pick]).count pick = picks.count pick + 1 := by
        rw [List.count_append, List.count_singleton_self]
      rw [hcount, left_succ, if_pos hpos]
      omega
    · have hi' : i ∈ picks := (List.mem_append.1 hi).resolve_right fun he =>
        hpick (List.mem_singleton.1 he).symm
      have hcount : (picks ++ [pick]).count i = picks.count i := by
        rw [List.count_append, List.count_singleton, if_neg (by simpa using hpick), Nat.add_zero]
      rw [hcount]
      exact hanti.trans (ih hlevels hpicks hi')

end Picks

end Slots
