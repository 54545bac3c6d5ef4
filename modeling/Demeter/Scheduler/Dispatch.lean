import Mathlib.Data.Fin.Basic
import Mathlib.Data.Finset.Basic
import Mathlib.Data.List.FinRange
import Mathlib.Tactic

/-!
# The choice of an executor

The first half of `schedule_func_call` in `src/scheduler/scheduler_server.cpp`: the scan of
`executor_status_map` and the choice of an executor for a function call.  The `n` executors of a
node are numbered in the order in which `executor_status_map`, a hash table whose keys never change,
is iterated; `rand` is the value of `rand_r`.

`selectExecutor_spec` says which executor may be chosen, `selectExecutor_ne_none` that one is chosen
if there is one, `eligible_selectExecutor` that it was eligible.
-/

namespace Demeter.Scheduler

/-- The values of `executor_status_map`. -/
inductive ExecutorStatus where
  | empty
  | available
  | await
  | busy
  | error
  deriving DecidableEq

/-- The executors that `schedule_func_call` looks at. -/
def ExecutorStatus.Eligible (status : ExecutorStatus) : Prop :=
  status = .empty ∨ status = .available

instance (status : ExecutorStatus) : Decidable status.Eligible :=
  inferInstanceAs (Decidable (status = .empty ∨ status = .available))

variable {n : ℕ} (sharedExecutor : Bool) (status : Fin n → ExecutorStatus)

/-- The scan over the executors in their order, which stops at the first executor that is
available and has run the function (`warm`): that executor, if there is one, and the executors
collected before. -/
def scanExecutors (warm : Finset (Fin n)) : List (Fin n) → Option (Fin n) × List (Fin n)
  | [] => (none, [])
  | e :: es =>
      if status e = .available ∧ e ∈ warm then (some e, [])
      else
        let rest := scanExecutors warm es
        if status e = .empty ∨ (sharedExecutor ∧ status e = .available) then (rest.1, e :: rest.2)
        else rest

/-- The executor for a call; `none` if there is none. -/
def selectExecutor (warm : Finset (Fin n)) (rand : ℕ) : Option (Fin n) :=
  let scan := scanExecutors sharedExecutor status warm (List.finRange n)
  match scan.1 with
  | some e => some e
  | none => scan.2[rand % scan.2.length]?

/-- The executor that stops the scan is available and warm, those collected before are empty, or
available if executors are shared. -/
theorem scanExecutors_spec (warm : Finset (Fin n)) (es : List (Fin n)) :
    (∀ e, (scanExecutors sharedExecutor status warm es).1 = some e →
      status e = .available ∧ e ∈ warm) ∧
    ∀ e ∈ (scanExecutors sharedExecutor status warm es).2,
      status e = .empty ∨ (sharedExecutor ∧ status e = .available) := by
  induction es with
  | nil => simp [scanExecutors]
  | cons e es ih =>
    unfold scanExecutors
    split_ifs with hwarm hcold
    · refine ⟨fun e' he' => ?_, by simp⟩
      obtain rfl := Option.some.inj he'
      exact hwarm
    · refine ⟨ih.1, fun e' he' => ?_⟩
      obtain rfl | he' := List.mem_cons.1 he'
      · exact hcold
      · exact ih.2 e' he'
    · exact ih

/-- The executor for a call is empty, or available and warm or shared. -/
theorem selectExecutor_spec {warm : Finset (Fin n)} {rand : ℕ} {e : Fin n}
    (h : selectExecutor sharedExecutor status warm rand = some e) :
    status e = .empty ∨ (status e = .available ∧ (sharedExecutor ∨ e ∈ warm)) := by
  obtain ⟨h1, h2⟩ := scanExecutors_spec sharedExecutor status warm (List.finRange n)
  simp only [selectExecutor] at h
  split at h
  · next hw =>
    obtain ⟨havail, hwarm⟩ := h1 e (hw.trans h)
    exact .inr ⟨havail, .inr hwarm⟩
  · exact (h2 e (List.mem_of_getElem? h)).imp_right fun hs => ⟨hs.2, .inl hs.1⟩

/-- The scan finds an executor if there is one for the function. -/
theorem scanExecutors_ne {warm : Finset (Fin n)} {es : List (Fin n)} {e : Fin n} (he : e ∈ es)
    (h : status e = .empty ∨ (status e = .available ∧ (sharedExecutor ∨ e ∈ warm))) :
    (scanExecutors sharedExecutor status warm es).1 ≠ none ∨
      (scanExecutors sharedExecutor status warm es).2 ≠ [] := by
  induction es with
  | nil => cases he
  | cons e' es ih =>
    unfold scanExecutors
    split_ifs with hwarm hcold
    · exact .inl (Option.some_ne_none e')
    · exact .inr (List.cons_ne_nil e' _)
    · refine ih ((List.mem_cons.1 he).resolve_left ?_)
      rintro rfl
      obtain h | ⟨havail, hshared | hmem⟩ := h
      · exact hcold (.inl h)
      · exact hcold (.inr ⟨hshared, havail⟩)
      · exact hwarm ⟨havail, hmem⟩

/-- An executor is chosen if there is one for the function. -/
theorem selectExecutor_ne_none {warm : Finset (Fin n)} {e : Fin n}
    (h : status e = .empty ∨ (status e = .available ∧ (sharedExecutor ∨ e ∈ warm))) (rand : ℕ) :
    selectExecutor sharedExecutor status warm rand ≠ none := by
  have hscan := scanExecutors_ne sharedExecutor status (List.mem_finRange e) h
  simp only [selectExecutor]
  split
  · exact Option.some_ne_none _
  · next hnone =>
    have hpos := List.length_pos_iff.2 (hscan.resolve_left fun hne => hne hnone)
    rw [List.getElem?_eq_getElem (Nat.mod_lt rand hpos)]
    exact Option.some_ne_none _

theorem eligible_selectExecutor {warm : Finset (Fin n)} {rand : ℕ} {e : Fin n}
    (h : selectExecutor sharedExecutor status warm rand = some e) : (status e).Eligible :=
  (selectExecutor_spec sharedExecutor status h).imp_right And.left

end Demeter.Scheduler
