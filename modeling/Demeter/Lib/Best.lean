import Mathlib.Data.List.MinMax
import Mathlib.Data.List.Infix

/-!
# Running maxima

* `keepBest` is one step of a loop that keeps the acceptable element of largest key, the first one
  of several;
* `foldl_keepBest` says that the loop computes the `argmax` of the acceptable elements.
-/

namespace Best

variable {α β : Type*} [LinearOrder β]

/-- Keep the better of the best element so far and one more element. -/
def keepBest (p : α → Bool) (key : α → β) (best : Option (β × α)) (a : α) : Option (β × α) :=
  if p a then
    match best with
    | none => some (key a, a)
    | some b => if b.1 < key a then some (key a, a) else some b
  else best

variable (p : α → Bool) (key : α → β)

section Steps

variable {p} {a : α}

theorem keepBest_of_not (h : p a = false) (best : Option (β × α)) :
    keepBest p key best a = best := by
  unfold keepBest
  rw [h]
  rfl

theorem keepBest_none (h : p a = true) : keepBest p key none a = some (key a, a) := if_pos h

theorem keepBest_some (h : p a = true) (b : β × α) :
    keepBest p key (some b) a = if b.1 < key a then some (key a, a) else some b := if_pos h

end Steps

theorem foldl_keepBest (l : List α) :
    l.foldl (keepBest p key) none = ((l.filter p).argmax key).map fun a => (key a, a) := by
  induction l using List.reverseRecOn with
  | nil => rfl
  | append_singleton l a ih =>
    rw [List.foldl_append, ih, List.foldl_cons, List.foldl_nil, List.filter_append]
    unfold keepBest
    by_cases ha : p a
    · rw [if_pos ha, List.filter_cons_of_pos ha, List.filter_nil, List.argmax_concat]
      cases (l.filter p).argmax key with
      | none => rfl
      | some b =>
        simp only [Option.map_some]
        split_ifs <;> rfl
    · rw [if_neg ha, List.filter_cons_of_neg (by simpa using ha), List.filter_nil, List.append_nil]

variable {p key}

/-- The best element is acceptable and of maximal key. -/
theorem foldl_keepBest_eq_some {l : List α} {b : β × α}
    (h : l.foldl (keepBest p key) none = some b) :
    b.2 ∈ l ∧ p b.2 ∧ b.1 = key b.2 ∧ ∀ a ∈ l, p a → key a ≤ b.1 := by
  rw [foldl_keepBest, Option.map_eq_some_iff] at h
  obtain ⟨a, hmax, rfl⟩ := h
  obtain ⟨hmem, hpa⟩ := List.mem_filter.1 (List.argmax_mem hmax)
  exact ⟨hmem, hpa, rfl, fun x hx hpx =>
    List.le_of_mem_argmax (List.mem_filter.2 ⟨hx, hpx⟩) hmax⟩

variable (p key)

theorem isSome_foldl_keepBest {l : List α} :
    (l.foldl (keepBest p key) none).isSome ↔ ∃ a ∈ l, p a := by
  rw [foldl_keepBest, Option.isSome_map, Option.isSome_iff_ne_none, Ne, List.argmax_eq_none,
    List.filter_eq_nil_iff]
  push Not
  rfl

/-! ### Maxima of related keys -/

theorem argmax_map {γ : Type*} (f : γ → β) (g : α → γ) (l : List α) :
    (l.map g).argmax f = (l.argmax fun a => f (g a)).map g := by
  induction l using List.reverseRecOn with
  | nil => rfl
  | append_singleton l a ih =>
    rw [List.map_append, List.map_singleton, List.argmax_concat, List.argmax_concat, ih]
    cases l.argmax fun a => f (g a) with
    | none => rfl
    | some b =>
      simp only [Option.map_some]
      split_ifs <;> rfl

/-- Keys that compare alike have the same maxima. -/
theorem argmax_congr [DecidableEq α] {β' : Type*} [LinearOrder β'] {f : α → β} {g : α → β'}
    {l : List α} (h : ∀ a ∈ l, ∀ b ∈ l, f a ≤ f b ↔ g a ≤ g b) : l.argmax f = l.argmax g := by
  ext m
  rw [List.argmax_eq_some_iff, List.argmax_eq_some_iff]
  refine and_congr_right fun hm => and_congr ?_ ?_
  · exact forall₂_congr fun a ha => h a ha m hm
  · exact forall₂_congr fun a ha => imp_congr_left (h m hm a ha)

/-- The element has a key at least as large as every other element, and a larger one than those
before it. -/
def Leads [DecidableEq α] (l : List α) (f : α → β) (m : α) : Prop :=
  ∀ a ∈ l, a ≠ m → f a ≤ f m ∧ (f m ≤ f a → l.idxOf m ≤ l.idxOf a)

theorem argmax_eq_some_iff_leads [DecidableEq α] {l : List α} {f : α → β} {m : α} :
    l.argmax f = some m ↔ m ∈ l ∧ Leads l f m := by
  rw [List.argmax_eq_some_iff]
  refine and_congr_right fun _ => ⟨?_, fun h => ⟨fun a ha => ?_, fun a ha hle => ?_⟩⟩
  · rintro ⟨hle, hidx⟩ a ha -
    exact ⟨hle a ha, hidx a ha⟩
  · by_cases ham : a = m
    · rw [ham]
    · exact (h a ha ham).1
  · by_cases ham : a = m
    · rw [ham]
    · exact (h a ha ham).2 hle

end Best
