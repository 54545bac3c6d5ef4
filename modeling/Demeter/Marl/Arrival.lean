import Demeter.Lib.Runs
import Demeter.Marl.Precedence

/-!
# Arrival times in the simulator

The arrival time of a job is carried along for the accounting (waiting time, job completion time),
but neither the release pass, nor the observation, nor a step compares it with the clock: a step
starts every pending function it is asked to start, at its own clock.

* `ArrivalSafe`: every function that was started has a start time no earlier than the arrival of
  its job;
* `ArrivedAction`, `ArrivedStep`: an action, or a whole step, executes only functions of jobs that
  have arrived;
* `arrivalSafe_run_iff`: the first holds after a run exactly when the second held at every step.
-/

namespace Demeter.Marl.DemeterEnv

variable {σ : Type} {uniform : σ → ℚ × σ} {estimate : Estimator}

/-- No function of a job started before the arrival of the job. -/
def ArrivalSafe (c : DemeterController) : Prop :=
  ∀ job ∈ c.jobs.values, ∀ fn ∈ job.functions.values, ∀ t, fn.startTime = some t →
    job.arrivalTime ≤ t

/-- Only finished functions have a start time. -/
def OnlyFinishedStarted (c : DemeterController) : Prop :=
  ∀ ref fn, getFn c.jobs ref = some fn → fn.status ≠ .finished → fn.startTime = none

/-- If the action is executed, the job of its function has arrived. -/
def ArrivedAction (refs : Dict String FnRef) (dcs : Dict String ℕ) (st : StepState σ)
    (action : OrchestrationAction) : Prop :=
  ∀ ref fn i dc, DemeterController.resolve refs dcs st.env.controller action =
      some (ref, fn, i, dc) → fn.status = .pending →
    ∀ arrival, arrivalAt st.env.controller.jobs ref = some arrival → arrival ≤ st.env.now

variable (uniform estimate) in
/-- Every function the step executes belongs to a job that has arrived. -/
def ArrivedStep (env : DemeterEnv σ) (actions : List OrchestrationAction) : Prop :=
  Runs.Along
    (stepAction uniform estimate (fnById env.controller.jobs)
      (dataCenterMap env.controller.config.dataCenters))
    (ArrivedAction (fnById env.controller.jobs) (dataCenterMap env.controller.config.dataCenters))
    ⟨env, 0, env.now⟩ actions

theorem arrivalSafe_iff {c : DemeterController} :
    ArrivalSafe c ↔ ∀ ref arrival fn, arrivalAt c.jobs ref = some arrival →
      getFn c.jobs ref = some fn → ∀ t, fn.startTime = some t → arrival ≤ t := by
  constructor
  · intro h ref arrival fn ha hfn t ht
    obtain ⟨job, hjob, hfn⟩ := getFn_eq_some_iff.1 hfn
    rw [arrivalAt, hjob, Option.map_some, Option.some.injEq] at ha
    rw [← ha]
    exact h job (Dict.mem_values_of_get? hjob) fn (Dict.mem_values_of_get? hfn) t ht
  · intro h job hjob fn hfn t ht
    obtain ⟨jk, hjob⟩ := Dict.mem_values_iff.1 hjob
    obtain ⟨k, hfn⟩ := Dict.mem_values_iff.1 hfn
    refine h (jk, k) job.arrivalTime fn ?_ (getFn_eq_some_iff.2 ⟨job, hjob, hfn⟩) t ht
    rw [arrivalAt, hjob, Option.map_some]

/-! ### One action -/

section Action

variable (refs : Dict String FnRef) (dcs : Dict String ℕ) (st : StepState σ)
  (action : OrchestrationAction)

/-- The function at a place after executing the one at `ref`. -/
theorem getFn_execute {ref ref' : FnRef} {fn fn' : FunctionSpec} {i : ℕ} {dc : DataCenter}
    (hfn : getFn st.env.controller.jobs ref = some fn)
    (h : getFn (execute uniform estimate st action ref fn i dc).env.controller.jobs ref' =
      some fn') :
    (ref' = ref ∧ ∃ duration, fn' = executeFunction st.env.now duration action fn) ∨
      (ref' ≠ ref ∧ getFn st.env.controller.jobs ref' = some fn') := by
  simp only [execute, DemeterController.update, getFn_modifyFn] at h
  split_ifs at h with hr
  · rw [hr, hfn, Option.map_some, Option.some.injEq] at h
    exact Or.inl ⟨hr, _, h.symm⟩
  · exact Or.inr ⟨hr, h⟩

theorem onlyFinishedStarted_stepAction (h : OnlyFinishedStarted st.env.controller) :
    OnlyFinishedStarted (stepAction uniform estimate refs dcs st action).env.controller := by
  rcases stepAction_cases uniform estimate refs dcs st action with
    ⟨he, -⟩ | ⟨ref, fn, i, dc, hr, hs, he⟩ <;> rw [he]
  · exact h
  obtain ⟨-, hfn, -⟩ := DemeterController.resolve_eq_some_iff.1 hr
  intro ref' fn' hfn' hs'
  rcases getFn_execute st action hfn hfn' with ⟨-, _, rfl⟩ | ⟨-, hfn'⟩
  · exact absurd rfl hs'
  · exact h ref' fn' hfn' hs'

/-- An action cannot repair an early start: it only starts functions that had no start time. -/
theorem arrivalSafe_of_stepAction (hI : OnlyFinishedStarted st.env.controller)
    (h : ArrivalSafe (stepAction uniform estimate refs dcs st action).env.controller) :
    ArrivalSafe st.env.controller := by
  rcases stepAction_cases uniform estimate refs dcs st action with
    ⟨he, -⟩ | ⟨ref, fn, i, dc, hr, hs, he⟩ <;> rw [he] at h
  · exact h
  obtain ⟨-, hfn, -⟩ := DemeterController.resolve_eq_some_iff.1 hr
  rw [arrivalSafe_iff] at h ⊢
  intro ref' arrival fn' ha hfn' t ht
  by_cases hne : ref' = ref
  · subst hne
    rw [hfn, Option.some.injEq] at hfn'
    rw [← hfn', hI _ fn hfn (by simp [hs])] at ht
    cases ht
  · refine h ref' arrival fn' ?_ ?_ t ht
    · rwa [execute, DemeterController.update, arrivalAt_modifyFn]
    · rwa [execute, DemeterController.update, getFn_modifyFn, if_neg hne]

/-- An action keeps the property exactly when the job it executes has arrived. -/
theorem arrivalSafe_stepAction_iff (h : ArrivalSafe st.env.controller) :
    ArrivalSafe (stepAction uniform estimate refs dcs st action).env.controller ↔
      ArrivedAction refs dcs st action := by
  rcases stepAction_cases uniform estimate refs dcs st action with
    ⟨he, hskip⟩ | ⟨ref, fn, i, dc, hr, hs, he⟩ <;> rw [he]
  · exact iff_of_true h fun ref fn i dc hr hs => absurd hs (hskip ref fn i dc hr)
  obtain ⟨-, hfn, -⟩ := DemeterController.resolve_eq_some_iff.1 hr
  rw [arrivalSafe_iff] at h ⊢
  constructor
  · intro h' ref' fn' i' dc' hr' _ arrival ha
    rw [hr] at hr'
    cases hr'
    obtain ⟨duration, hnew⟩ : ∃ duration, getFn (execute uniform estimate st action ref fn i
        dc).env.controller.jobs ref = some (executeFunction st.env.now duration action fn) :=
      ⟨_, by rw [execute, DemeterController.update, getFn_modifyFn, if_pos rfl, hfn,
        Option.map_some]⟩
    refine h' ref arrival _ ?_ hnew st.env.now rfl
    rwa [execute, DemeterController.update, arrivalAt_modifyFn]
  · intro hG ref' arrival fn' ha hfn' t ht
    rw [execute, DemeterController.update, arrivalAt_modifyFn] at ha
    rcases getFn_execute st action hfn hfn' with ⟨rfl, _, rfl⟩ | ⟨-, hfn'⟩
    · cases ht
      exact hG _ fn i dc hr hs arrival ha
    · exact h ref' arrival fn' ha hfn' t ht

end Action

/-! ### The release pass -/

theorem startTime_releaseFunction (funcs : Dict String FunctionSpec) (now : ℚ)
    (fn : FunctionSpec) : (releaseFunction funcs now fn).startTime = fn.startTime := by
  rcases releaseFunction_cases funcs now fn with ⟨h, -⟩ | ⟨h, -⟩ <;> rw [h]

theorem onlyFinishedStarted_release {c : DemeterController} (h : OnlyFinishedStarted c) (now : ℚ) :
    OnlyFinishedStarted (c.release now) := by
  intro ref fn hfn hs
  obtain ⟨job, fn₀, hjob, hfn₀, rfl⟩ := DemeterController.getFn_release hfn
  rw [startTime_releaseFunction]
  exact h ref fn₀ (getFn_eq_some_iff.2 ⟨job, hjob, hfn₀⟩)
    fun hf => hs (status_releaseFunction_eq_finished.2 hf)

theorem arrivalSafe_release_iff {c : DemeterController} {now : ℚ} :
    ArrivalSafe (c.release now) ↔ ArrivalSafe c := by
  simp only [arrivalSafe_iff, DemeterController.arrivalAt_release]
  constructor
  · intro h ref arrival fn ha hfn t ht
    obtain ⟨job, hjob, hfn⟩ := getFn_eq_some_iff.1 hfn
    refine h ref arrival _ ha (DemeterController.getFn_release_of_eq_some hjob hfn now) t ?_
    rwa [startTime_releaseFunction]
  · intro h ref arrival fn ha hfn t ht
    obtain ⟨job, fn₀, hjob, hfn₀, rfl⟩ := DemeterController.getFn_release hfn
    rw [startTime_releaseFunction] at ht
    exact h ref arrival fn₀ ha (getFn_eq_some_iff.2 ⟨job, hjob, hfn₀⟩) t ht

/-! ### Whole runs -/

theorem onlyFinishedStarted_step (env : DemeterEnv σ) (actions : List OrchestrationAction)
    (h : OnlyFinishedStarted env.controller) :
    OnlyFinishedStarted (env.step uniform estimate actions).env.controller := by
  refine onlyFinishedStarted_release (onlyFinishedStarted_release ?_ _) _
  exact List.foldlRecOn (motive := fun st : StepState σ => OnlyFinishedStarted st.env.controller)
    actions _ h fun st hst action _ => onlyFinishedStarted_stepAction _ _ st action hst

theorem arrivalSafe_step_iff (env : DemeterEnv σ) (actions : List OrchestrationAction) :
    ArrivalSafe (env.step uniform estimate actions).env.controller ↔
      ArrivalSafe (stepActions uniform estimate env actions).env.controller :=
  arrivalSafe_release_iff.trans arrivalSafe_release_iff

/-- Nothing has started after `reset`. -/
theorem startTime_reset {config : DemeterConfig} {profiles : List RawProfile} {random : σ}
    {ref : FnRef} {fn : FunctionSpec}
    (h : getFn (reset config profiles random).1.controller.jobs ref = some fn) :
    fn.startTime = none := by
  obtain ⟨job, fn₀, hjob, hfn₀, rfl⟩ := DemeterController.getFn_release h
  obtain ⟨raw, -, rfl⟩ := mem_values_registerAll (Dict.mem_values_of_get? hjob)
  rw [startTime_releaseFunction]
  exact (expanded_buildJob raw).unstarted hfn₀

/-- **Arrival times and the clock.**  A function starts at the clock of the step that executes it,
whether or not its job has arrived: after any run, no started function started before the arrival
of its job if and only if every step executed only functions of jobs that had arrived. -/
theorem arrivalSafe_run_iff (config : DemeterConfig) (profiles : List RawProfile) (random : σ)
    (plans : List (List OrchestrationAction)) :
    ArrivalSafe (run uniform estimate config profiles random plans).controller ↔
      Runs.Along (fun env actions => (env.step uniform estimate actions).env)
        (ArrivedStep uniform estimate) (reset config profiles random).1 plans := by
  refine Runs.foldl_iff_along
    (I := fun env : DemeterEnv σ => OnlyFinishedStarted env.controller)
    (P := fun env : DemeterEnv σ => ArrivalSafe env.controller)
    (fun env actions _ => onlyFinishedStarted_step env actions) ?_ ?_ (Runs.along_true _ plans)
    (fun _ _ hfn _ => startTime_reset hfn) ?_
  · intro env actions hI h
    rw [arrivalSafe_step_iff]
    exact Runs.foldl_iff_along
      (I := fun st : StepState σ => OnlyFinishedStarted st.env.controller)
      (P := fun st : StepState σ => ArrivalSafe st.env.controller)
      (fun st a _ => onlyFinishedStarted_stepAction _ _ st a)
      (fun st a _ => arrivalSafe_stepAction_iff _ _ st a)
      (fun st a => arrivalSafe_of_stepAction _ _ st a) (Runs.along_true _ actions) hI h
  · intro env actions hI h
    rw [arrivalSafe_step_iff] at h
    exact Runs.foldl_lost (I := fun st : StepState σ => OnlyFinishedStarted st.env.controller)
      (P := fun st : StepState σ => ArrivalSafe st.env.controller)
      (fun st a _ => onlyFinishedStarted_stepAction _ _ st a)
      (fun st a => arrivalSafe_of_stepAction _ _ st a) (Runs.along_true _ actions) hI h
  · rw [arrivalSafe_iff]
    intro ref arrival fn _ hfn t ht
    rw [startTime_reset hfn] at ht
    cases ht

/-- A job that arrives at 22.5 s has its first function started at 0 s. -/
theorem not_arrivalSafe_sample :
    ¬ ArrivalSafe (Sample.run [Sample.profile (45 / 2)] [[Sample.action "scan"]]).controller := by
  have early : ∃ job ∈ (Sample.run [Sample.profile (45 / 2)]
      [[Sample.action "scan"]]).controller.jobs.values, ∃ fn ∈ job.functions.values,
        fn.startTime = some 0 ∧ ¬ job.arrivalTime ≤ 0 := by decide +kernel
  obtain ⟨job, hjob, fn, hfn, hs, hlt⟩ := early
  exact fun h => hlt (h job hjob fn hfn 0 hs)

end Demeter.Marl.DemeterEnv
