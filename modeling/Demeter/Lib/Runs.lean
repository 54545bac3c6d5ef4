import Mathlib.Data.List.Basic
import Mathlib.Order.Basic

/-!
# Runs of a transition function

A deterministic system is a function `step : σ → α → σ`; the state after the inputs `l` is
`l.foldl step s`.  A system that may refuse an input is a function `step : σ → α → Option σ`, with
`exec step s l` for the state after `l`.

* `Along step G s l` says that every step of the run meets the condition `G`, which may look at
  the state before the step and at the input; `Allowed` is the same for a partial system;
* `foldl_invariant`, `exec_invariant` are the induction rules for invariants under a condition;
* `forall_exec_iff_allowed` says when a property of every state of a run is equivalent to the
  condition;
* `foldl_iff_along`, `foldl_eq_iff_along` and `exec_iff_allowed` say when a property of the final
  state is equivalent to the condition having held at every step.
-/

namespace Runs

variable {σ α : Type*}

/-! ### Total systems -/

section Total

variable (step : σ → α → σ)

/-- Every step of the run from `s` on the inputs `l` meets the condition `G`. -/
def Along (G : σ → α → Prop) : σ → List α → Prop
  | _, [] => True
  | s, a :: l => G s a ∧ Along G (step s a) l

instance Along.decidable (G : σ → α → Prop) [∀ s a, Decidable (G s a)] :
    ∀ s l, Decidable (Along step G s l)
  | _, [] => .isTrue trivial
  | s, a :: l => @instDecidableAnd _ _ _ (Along.decidable G (step s a) l)

variable {step} {G : σ → α → Prop}

theorem along_append {s : σ} {l l' : List α} :
    Along step G s (l ++ l') ↔ Along step G s l ∧ Along step G (l.foldl step s) l' := by
  induction l generalizing s with
  | nil => simp [Along]
  | cons a l ih => simp only [List.cons_append, Along, ih, List.foldl_cons, and_assoc]

theorem along_true (s : σ) (l : List α) : Along step (fun _ _ => True) s l := by
  induction l generalizing s with
  | nil => trivial
  | cons a l ih => exact ⟨trivial, ih _⟩

theorem Along.and {G' : σ → α → Prop} {s : σ} {l : List α} (h : Along step G s l)
    (h' : Along step G' s l) : Along step (fun s a => G s a ∧ G' s a) s l := by
  induction l generalizing s with
  | nil => trivial
  | cons a l ih => exact ⟨⟨h.1, h'.1⟩, ih h.2 h'.2⟩

/-- A condition that looks at the image of the state under a simulation. -/
theorem along_map {τ : Type*} {step' : τ → α → τ} {G : τ → α → Prop} {φ : σ → τ}
    (hφ : ∀ s a, φ (step s a) = step' (φ s) a) {s : σ} {l : List α} :
    Along step (fun s a => G (φ s) a) s l ↔ Along step' G (φ s) l := by
  induction l generalizing s with
  | nil => rfl
  | cons a l ih => rw [Along, Along, ih, hφ]

/-- An invariant kept by every step that meets the condition holds after such a run. -/
theorem foldl_invariant {P : σ → Prop} (hs : ∀ s a, G s a → P s → P (step s a)) {s : σ}
    {l : List α} (h : Along step G s l) (h0 : P s) : P (l.foldl step s) := by
  induction l generalizing s with
  | nil => exact h0
  | cons a l ih => exact ih h.2 (hs s a h.1 h0)

/-- Under an invariant `I`, kept where `F` holds, a property that no step can restore stays
lost. -/
theorem foldl_lost {F : σ → α → Prop} {I P : σ → Prop} (hI : ∀ s a, F s a → I s → I (step s a))
    (hn : ∀ s a, I s → P (step s a) → P s) {s : σ} {l : List α} (hF : Along step F s l)
    (i0 : I s) (h : P (l.foldl step s)) : P s := by
  induction l generalizing s with
  | nil => exact h
  | cons a l ih => exact hn s a i0 (ih hF.2 (hI s a hF.1 i0) h)

/-- Under an invariant `I`, kept where `F` holds: if a step keeps `P` exactly when it meets the
condition, and no step can restore `P`, then `P` holds at the end exactly when every step met the
condition. -/
theorem foldl_iff_along {F : σ → α → Prop} {I P : σ → Prop}
    (hI : ∀ s a, F s a → I s → I (step s a)) (hs : ∀ s a, I s → P s → (P (step s a) ↔ G s a))
    (hn : ∀ s a, I s → P (step s a) → P s) {s : σ} {l : List α} (hF : Along step F s l)
    (i0 : I s) (h0 : P s) : P (l.foldl step s) ↔ Along step G s l := by
  induction l generalizing s with
  | nil => simp [Along, h0]
  | cons a l ih =>
    rw [List.foldl_cons, Along]
    have ha := hs s a i0 h0
    have hIa := hI s a hF.1 i0
    constructor
    · intro h
      have h1 := foldl_lost hI hn hF.2 hIa h
      exact ⟨ha.1 h1, (ih hF.2 hIa h1).1 h⟩
    · rintro ⟨hg, h⟩
      exact (ih hF.2 hIa (ha.2 hg)).2 h

theorem le_foldl {β : Type*} [Preorder β] {m : σ → β} (hle : ∀ s a, m s ≤ m (step s a)) (s : σ)
    (l : List α) : m s ≤ m (l.foldl step s) := by
  induction l generalizing s with
  | nil => exact le_rfl
  | cons a l ih => exact (hle s a).trans (ih _)

/-- A quantity that never decreases, and that a step keeps exactly when it meets the condition, is
the same at the end exactly when every step met the condition. -/
theorem foldl_eq_iff_along {β : Type*} [PartialOrder β] {m : σ → β}
    (hle : ∀ s a, m s ≤ m (step s a)) (heq : ∀ s a, m (step s a) = m s ↔ G s a) (s : σ)
    (l : List α) : m (l.foldl step s) = m s ↔ Along step G s l := by
  induction l generalizing s with
  | nil => simp [Along]
  | cons a l ih =>
    rw [List.foldl_cons, Along, ← heq]
    constructor
    · intro h
      have ha : m (step s a) = m s := le_antisymm (h ▸ le_foldl hle (step s a) l) (hle s a)
      exact ⟨ha, (ih _).1 (h.trans ha.symm)⟩
    · rintro ⟨ha, h⟩
      exact ((ih _).2 h).trans ha

end Total

/-! ### Partial systems -/

section Partial

variable (step : σ → α → Option σ)

/-- The state after a list of inputs, if none of them is refused. -/
def exec : σ → List α → Option σ
  | s, [] => some s
  | s, a :: l => (step s a).bind fun s' => exec s' l

/-- Every step of the run from `s` on the inputs `l` meets the condition `G`. -/
def Allowed (G : σ → α → Prop) : σ → List α → Prop
  | _, [] => True
  | s, a :: l => G s a ∧ ∀ s', step s a = some s' → Allowed G s' l

instance Allowed.decidable (G : σ → α → Prop) [∀ s a, Decidable (G s a)] :
    ∀ s l, Decidable (Allowed step G s l)
  | _, [] => .isTrue trivial
  | s, a :: l =>
      match h : step s a with
      | none => decidable_of_iff (G s a) (by simp [Allowed, h])
      | some s' =>
          have := Allowed.decidable G s' l
          decidable_of_iff (G s a ∧ Allowed step G s' l) (by simp [Allowed, h])

variable {step} {G : σ → α → Prop}

theorem allowed_true (s : σ) (l : List α) : Allowed step (fun _ _ => True) s l := by
  induction l generalizing s with
  | nil => trivial
  | cons a l ih => exact ⟨trivial, fun s' _ => ih s'⟩

/-- A condition on the inputs alone. -/
theorem allowed_of_forall {G : α → Prop} {l : List α} (h : ∀ a ∈ l, G a) (s : σ) :
    Allowed step (fun _ a => G a) s l := by
  induction l generalizing s with
  | nil => trivial
  | cons a l ih =>
    exact ⟨h a List.mem_cons_self, fun s' _ => ih (fun b hb => h b (List.mem_cons_of_mem a hb)) s'⟩

theorem Allowed.imp {G' : σ → α → Prop} (hG : ∀ s a, G s a → G' s a) {s : σ} {l : List α}
    (h : Allowed step G s l) : Allowed step G' s l := by
  induction l generalizing s with
  | nil => trivial
  | cons a l ih => exact ⟨hG s a h.1, fun s' hs' => ih (h.2 s' hs')⟩

theorem Allowed.and {G' : σ → α → Prop} {s : σ} {l : List α} (h : Allowed step G s l)
    (h' : Allowed step G' s l) : Allowed step (fun s a => G s a ∧ G' s a) s l := by
  induction l generalizing s with
  | nil => trivial
  | cons a l ih => exact ⟨⟨h.1, h'.1⟩, fun s' hs' => ih (h.2 s' hs') (h'.2 s' hs')⟩

theorem exec_append (s : σ) (l l' : List α) :
    exec step s (l ++ l') = (exec step s l).bind fun s' => exec step s' l' := by
  induction l generalizing s with
  | nil => rfl
  | cons a l ih =>
    rw [List.cons_append, exec, exec, Option.bind_assoc]
    exact congrArg _ (funext fun s' => ih s')

theorem allowed_append {s : σ} {l l' : List α} :
    Allowed step G s (l ++ l') ↔
      Allowed step G s l ∧ ∀ t, exec step s l = some t → Allowed step G t l' := by
  induction l generalizing s with
  | nil => simp [Allowed, exec]
  | cons a l ih =>
    simp only [List.cons_append, Allowed, ih, exec, Option.bind_eq_some_iff, and_assoc]
    refine and_congr_right fun _ => ⟨fun h => ⟨fun s' hs' => (h s' hs').1, ?_⟩, ?_⟩
    · rintro t ⟨s', hs', ht⟩
      exact (h s' hs').2 t ht
    · rintro ⟨hl, hl'⟩ s' hs'
      exact ⟨hl s' hs', fun t ht => hl' t ⟨s', hs', ht⟩⟩

/-- A map between the states that commutes with the steps. -/
theorem exec_map {τ : Type*} {step' : τ → α → Option τ} {φ : σ → τ}
    (hφ : ∀ s a, step' (φ s) a = (step s a).map φ) (s : σ) (l : List α) :
    exec step' (φ s) l = (exec step s l).map φ := by
  induction l generalizing s with
  | nil => rfl
  | cons a l ih =>
    rw [exec, exec, hφ]
    cases step s a with
    | none => rfl
    | some s' => exact ih s'

theorem exec_invariant {P : σ → Prop} (hs : ∀ s a s', G s a → step s a = some s' → P s → P s')
    {s t : σ} {l : List α} (h : Allowed step G s l) (hx : exec step s l = some t) (h0 : P s) :
    P t := by
  induction l generalizing s with
  | nil => cases hx; exact h0
  | cons a l ih =>
    obtain ⟨s', hs', hx'⟩ := Option.bind_eq_some_iff.1 hx
    exact ih (h.2 s' hs') hx' (hs s a s' h.1 hs' h0)

/-- Under an invariant `I`: if `P` holds after a step exactly when it held before and the step meets
the condition, then `P` holds at the end exactly when it held at the start and every step met the
condition. -/
theorem exec_iff_allowed {I P : σ → Prop} (hI : ∀ s a s', step s a = some s' → I s → I s')
    (hs : ∀ s a s', step s a = some s' → I s → (P s' ↔ P s ∧ G s a)) {s t : σ} {l : List α}
    (hx : exec step s l = some t) (i0 : I s) : P t ↔ P s ∧ Allowed step G s l := by
  induction l generalizing s with
  | nil =>
    cases hx
    simp [Allowed]
  | cons a l ih =>
    obtain ⟨s', hs', hx'⟩ := Option.bind_eq_some_iff.1 hx
    rw [ih hx' (hI s a s' hs' i0), hs s a s' hs' i0, and_assoc, Allowed]
    simp [hs']

/-- A run never stops where an invariant says that a step exists. -/
theorem exists_exec {P : σ → Prop} (hs : ∀ s a, P s → ∃ s', step s a = some s' ∧ P s') {s : σ}
    (h0 : P s) (l : List α) : ∃ t, exec step s l = some t ∧ P t := by
  induction l generalizing s with
  | nil => exact ⟨s, rfl, h0⟩
  | cons a l ih =>
    obtain ⟨s', hs', h1⟩ := hs s a h0
    obtain ⟨t, ht, h2⟩ := ih h1
    exact ⟨t, by rw [exec, hs', Option.bind_some, ht], h2⟩

/-- If a step keeps `P` exactly when it meets the condition, then `P` holds in every state of a run
exactly when every step meets the condition. -/
theorem forall_exec_iff_allowed {P : σ → Prop}
    (hs : ∀ s a, P s → ((∀ s', step s a = some s' → P s') ↔ G s a)) {s : σ} {l : List α}
    (h0 : P s) : (∀ l' t, l' <+: l → exec step s l' = some t → P t) ↔ Allowed step G s l := by
  induction l generalizing s with
  | nil =>
    refine ⟨fun _ => trivial, fun _ l' t hl' ht => ?_⟩
    obtain rfl := List.prefix_nil.1 hl'
    exact Option.some.inj ht ▸ h0
  | cons a l ih =>
    constructor
    · intro h
      have hP : ∀ s', step s a = some s' → P s' := fun s' hs' =>
        h [a] s' (List.prefix_append [a] l) (by simp [exec, hs'])
      refine ⟨(hs s a h0).1 hP, fun s' hs' => (ih (hP s' hs')).1 fun l' t hl' ht => ?_⟩
      exact h (a :: l') t ((List.prefix_cons_inj a).2 hl') (by simp [exec, hs', ht])
    · rintro ⟨hg, h⟩ l' t hl' ht
      cases l' with
      | nil => exact Option.some.inj ht ▸ h0
      | cons b l' =>
        obtain ⟨rfl, htail⟩ := List.cons_prefix_cons.1 hl'
        obtain ⟨s', hs', ht'⟩ := Option.bind_eq_some_iff.1 ht
        exact (ih ((hs s b h0).2 hg s' hs')).2 (h s' hs') l' t htail ht'

end Partial

end Runs
