import Demeter.Marl.Simulator

/-!
# Precedence safety of the simulator

A function waits exactly as long as one of its predecessors has not finished, and it starts no
earlier than its predecessors finish.

* `JobInv now bound funcs` is the invariant that survives the middle of a step, when functions have
  finished but nothing has been released yet: `now` is the clock of the step and `bound` the latest
  finish time so far;
* `JobInv.execute` and `JobInv.release` are its step lemmas, `run_runInv` its run lemma;
* `Settled` is the extra fact that holds after a release pass.
-/

namespace Demeter.Marl

/-- The function under `p` finished at or before `t`. -/
def FinishedBy (funcs : Dict String FunctionSpec) (p : String) (t : ℚ) : Prop :=
  ∃ fn tf, funcs.get? p = some fn ∧ fn.status = .finished ∧ fn.finishTime = some tf ∧ tf ≤ t

theorem FinishedBy.isFinished {funcs : Dict String FunctionSpec} {p : String} {t : ℚ}
    (h : FinishedBy funcs p t) : IsFinished funcs p := by
  obtain ⟨fn, _, hfn, hs, -⟩ := h
  exact ⟨fn, hfn, hs⟩

theorem FinishedBy.mono {funcs : Dict String FunctionSpec} {p : String} {t t' : ℚ}
    (h : FinishedBy funcs p t) (ht : t ≤ t') : FinishedBy funcs p t' := by
  obtain ⟨fn, tf, hfn, hs, hf, hle⟩ := h
  exact ⟨fn, tf, hfn, hs, hf, hle.trans ht⟩

/-- What holds of a simulated job at any clock: predecessor ids are functions of the job, and no
function is ever seen running, since a step executes it at once. -/
structure Wired (funcs : Dict String FunctionSpec) : Prop where
  known : ∀ {k fn}, funcs.get? k = some fn → ∀ p ∈ fn.predecessors, p ∈ funcs.keys
  not_running : ∀ {k fn}, funcs.get? k = some fn → fn.status ≠ .running

/-- The invariant of a job while a step at clock `now` has seen finish times up to `bound`. -/
structure JobInv (now bound : ℚ) (funcs : Dict String FunctionSpec) : Prop extends
    Wired funcs where
  pending : ∀ {k fn}, funcs.get? k = some fn → fn.status = .pending →
    ∀ p ∈ fn.predecessors, FinishedBy funcs p now
  finished : ∀ {k fn}, funcs.get? k = some fn → fn.status = .finished →
    ∃ s t, fn.startTime = some s ∧ fn.finishTime = some t ∧ t ≤ bound ∧
      ∀ p ∈ fn.predecessors, FinishedBy funcs p s

/-- After a release pass: a waiting function has an unfinished predecessor. -/
def Settled (funcs : Dict String FunctionSpec) : Prop :=
  ∀ {k fn}, funcs.get? k = some fn → fn.status = .waiting →
    ∃ p ∈ fn.predecessors, ¬ IsFinished funcs p

/-! ### The release pass -/

/-- The release pass does not change which functions have finished. -/
theorem isFinished_release {job : JobSpec} {now : ℚ} {p : String} :
    IsFinished (releaseReadyFunctions job now).functions p ↔ IsFinished job.functions p := by
  simp only [IsFinished, get?_releaseReadyFunctions, Option.map_eq_some_iff]
  constructor
  · rintro ⟨_, ⟨fn, hfn, rfl⟩, hs⟩
    exact ⟨fn, hfn, status_releaseFunction_eq_finished.1 hs⟩
  · rintro ⟨fn, hfn, hs⟩
    exact ⟨_, ⟨fn, hfn, rfl⟩, status_releaseFunction_eq_finished.2 hs⟩

theorem FinishedBy.release {job : JobSpec} {now t : ℚ} {p : String}
    (h : FinishedBy job.functions p t) :
    FinishedBy (releaseReadyFunctions job now).functions p t := by
  obtain ⟨fn, tf, hfn, hs, hf, hle⟩ := h
  refine ⟨fn, tf, ?_, hs, hf, hle⟩
  rw [get?_releaseReadyFunctions, hfn, Option.map_some, releaseFunction_of_finished hs]

theorem Wired.release {job : JobSpec} (h : Wired job.functions) (now : ℚ) :
    Wired (releaseReadyFunctions job now).functions where
  known {k fn} hfn p hp := by
    rw [get?_releaseReadyFunctions, Option.map_eq_some_iff] at hfn
    obtain ⟨fn₀, h₀, rfl⟩ := hfn
    rw [predecessors_releaseFunction] at hp
    rw [show (releaseReadyFunctions job now).functions.keys = job.functions.keys from
      Dict.keys_mapVals _ _]
    exact h.known h₀ p hp
  not_running {k fn} hfn := by
    rw [get?_releaseReadyFunctions, Option.map_eq_some_iff] at hfn
    obtain ⟨fn₀, h₀, rfl⟩ := hfn
    rcases releaseFunction_cases job.functions now fn₀ with ⟨he, -⟩ | ⟨he, -⟩
    · rw [he]; exact h.not_running h₀
    · rw [he]; simp

/-- The release pass at a clock no earlier than all finish times keeps the invariant. -/
theorem JobInv.release {now bound now' : ℚ} {job : JobSpec} (h : JobInv now bound job.functions)
    (hnow : now ≤ now') (hbound : bound ≤ now') :
    JobInv now' now' (releaseReadyFunctions job now').functions where
  toWired := h.toWired.release now'
  pending {k fn} hfn hs p hp := by
    rw [get?_releaseReadyFunctions, Option.map_eq_some_iff] at hfn
    obtain ⟨fn₀, h₀, rfl⟩ := hfn
    rw [predecessors_releaseFunction] at hp
    refine FinishedBy.release ?_
    rcases releaseFunction_cases job.functions now' fn₀ with ⟨he, -⟩ | ⟨-, -, hall⟩
    · rw [he] at hs
      exact (h.pending h₀ hs p hp).mono hnow
    · -- a released function: its predecessors finished by `bound`
      obtain ⟨g, hg, hgs⟩ := hall p hp
      obtain ⟨_, t, -, ht, hle, -⟩ := h.finished hg hgs
      exact ⟨g, t, hg, hgs, ht, hle.trans hbound⟩
  finished {k fn} hfn hs := by
    rw [get?_releaseReadyFunctions, Option.map_eq_some_iff] at hfn
    obtain ⟨fn₀, h₀, rfl⟩ := hfn
    have hs₀ := status_releaseFunction_eq_finished.1 hs
    rw [releaseFunction_of_finished hs₀]
    obtain ⟨s, t, hs', ht, hle, hp⟩ := h.finished h₀ hs₀
    exact ⟨s, t, hs', ht, hle.trans hbound, fun p hpm => (hp p hpm).release⟩

theorem settled_release (job : JobSpec) (now : ℚ) :
    Settled (releaseReadyFunctions job now).functions := by
  intro k fn hfn hs
  rw [get?_releaseReadyFunctions, Option.map_eq_some_iff] at hfn
  obtain ⟨fn₀, -, rfl⟩ := hfn
  rcases releaseFunction_cases job.functions now fn₀ with ⟨he, hw⟩ | ⟨he, -⟩
  · rw [he] at hs ⊢
    obtain ⟨p, hp, hn⟩ := hw hs
    exact ⟨p, hp, fun hf => hn (isFinished_release.1 hf)⟩
  · rw [he] at hs
    cases hs

/-! ### Executing a function -/

section Execute

variable {funcs : Dict String FunctionSpec} {k : String} {fn : FunctionSpec}

/-- Executing a pending function does not disturb the functions that had finished. -/
theorem FinishedBy.modify {p : String} {t : ℚ} (h : FinishedBy funcs p t)
    (hk : funcs.get? k = some fn) (hs : fn.status = .pending) (f : FunctionSpec → FunctionSpec) :
    FinishedBy (funcs.modify k f) p t := by
  obtain ⟨g, tf, hg, hgs, hf, hle⟩ := h
  have hne : p ≠ k := by
    rintro rfl
    rw [hk, Option.some.injEq] at hg
    rw [hg, hgs] at hs
    cases hs
  exact ⟨g, tf, by rw [Dict.get?_modify, if_neg hne]; exact hg, hgs, hf, hle⟩

/-- The functions after executing the one under `k`. -/
theorem get?_modify_cases {f : FunctionSpec → FunctionSpec} {k' : String} {fn' : FunctionSpec}
    (hk : funcs.get? k = some fn) (h : (funcs.modify k f).get? k' = some fn') :
    (k' = k ∧ fn' = f fn) ∨ funcs.get? k' = some fn' := by
  rw [Dict.get?_modify] at h
  split_ifs at h with hkk
  · rw [hkk, hk, Option.map_some, Option.some.injEq] at h
    exact Or.inl ⟨hkk, h.symm⟩
  · exact Or.inr h

theorem Wired.execute (h : Wired funcs) (hk : funcs.get? k = some fn) (now duration : ℚ)
    (action : OrchestrationAction) :
    Wired (funcs.modify k (DemeterEnv.executeFunction now duration action)) where
  known {k' fn'} h' p hp := by
    rw [Dict.keys_modify]
    rcases get?_modify_cases hk h' with ⟨-, rfl⟩ | h'
    · exact h.known hk p hp
    · exact h.known h' p hp
  not_running {k' fn'} h' := by
    rcases get?_modify_cases hk h' with ⟨-, rfl⟩ | h'
    · simp [DemeterEnv.executeFunction]
    · exact h.not_running h'

/-- Executing a pending function at clock `now` keeps the invariant, with its finish time taken
into the bound. -/
theorem JobInv.execute {now bound : ℚ} (h : JobInv now bound funcs)
    (hk : funcs.get? k = some fn) (hs : fn.status = .pending) (duration : ℚ)
    (action : OrchestrationAction) :
    JobInv now (max bound (now + duration))
      (funcs.modify k (DemeterEnv.executeFunction now duration action)) where
  toWired := h.toWired.execute hk now duration action
  pending {k' fn'} h' hs' p hp := by
    rcases get?_modify_cases hk h' with ⟨-, rfl⟩ | h'
    · cases hs'
    · exact (h.pending h' hs' p hp).modify hk hs _
  finished {k' fn'} h' hs' := by
    rcases get?_modify_cases hk h' with ⟨-, rfl⟩ | h'
    · exact ⟨now, now + duration, rfl, rfl, le_max_right _ _,
        fun p hp => (h.pending hk hs p hp).modify hk hs _⟩
    · obtain ⟨s, t, hst, ht, hle, hp⟩ := h.finished h' hs'
      exact ⟨s, t, hst, ht, hle.trans (le_max_left _ _), fun p hpm => (hp p hpm).modify hk hs _⟩

end Execute

theorem JobInv.mono {now bound bound' : ℚ} {funcs : Dict String FunctionSpec}
    (h : JobInv now bound funcs) (hle : bound ≤ bound') : JobInv now bound' funcs where
  toWired := h.toWired
  pending := h.pending
  finished hfn hs := by
    obtain ⟨s, t, hst, ht, hb, hp⟩ := h.finished hfn hs
    exact ⟨s, t, hst, ht, hb.trans hle, hp⟩

theorem Expanded.wired {targets : List String} {funcs : Dict String FunctionSpec}
    (h : Expanded targets funcs) : Wired funcs where
  known := h.known
  not_running hfn := by rw [h.status hfn]; split_ifs <;> simp

/-- A freshly built job satisfies the invariant at every clock. -/
theorem Expanded.jobInv {targets : List String} {funcs : Dict String FunctionSpec}
    (h : Expanded targets funcs) (now bound : ℚ) : JobInv now bound funcs where
  toWired := h.wired
  pending hfn hs p hp := by
    rw [h.status hfn] at hs
    split_ifs at hs with ht
    exact absurd (h.target hfn (List.ne_nil_of_mem hp)) ht
  finished hfn hs := by
    rw [h.status hfn] at hs
    split_ifs at hs

/-! ### Whole runs -/

namespace DemeterEnv

variable {σ : Type} {uniform : σ → ℚ × σ} {estimate : Estimator}

/-- The invariant of the loop over the actions of a step. -/
def LoopInv (st : StepState σ) : Prop :=
  st.env.now ≤ st.maxFinish ∧
    ∀ job ∈ st.env.controller.jobs.values, JobInv st.env.now st.maxFinish job.functions

theorem loopInv_stepAction (refs : Dict String FnRef) (dcs : Dict String ℕ) (st : StepState σ)
    (action : OrchestrationAction) (h : LoopInv st) :
    LoopInv (stepAction uniform estimate refs dcs st action) := by
  rcases stepAction_cases uniform estimate refs dcs st action with
    ⟨he, -⟩ | ⟨ref, fn, i, dc, hr, hs, he⟩
  · rwa [he]
  rw [he]
  obtain ⟨hle, hjobs⟩ := h
  refine ⟨hle.trans (le_max_left _ _), fun job hjob => ?_⟩
  rcases mem_values_modifyFn hjob with hjob | ⟨job₀, hjob₀, rfl⟩
  · exact (hjobs job hjob).mono (le_max_left _ _)
  · obtain ⟨-, hfn, -⟩ := DemeterController.resolve_eq_some_iff.1 hr
    obtain ⟨job₁, hjob₁, hfn⟩ := getFn_eq_some_iff.1 hfn
    rw [hjob₀, Option.some.injEq] at hjob₁
    subst hjob₁
    exact (hjobs job₀ (Dict.mem_values_of_get? hjob₀)).execute hfn hs _ action

/-- The invariant between two steps. -/
def RunInv (env : DemeterEnv σ) : Prop :=
  ∀ job ∈ env.controller.jobs.values,
    JobInv env.now env.now job.functions ∧ Settled job.functions

/-- Releasing all jobs at a late enough clock re-establishes the invariant between steps. -/
theorem inv_release {c : DemeterController} {now bound now' : ℚ}
    (h : ∀ job ∈ c.jobs.values, JobInv now bound job.functions) (hnow : now ≤ now')
    (hbound : bound ≤ now') :
    ∀ job ∈ (c.release now').jobs.values,
      JobInv now' now' job.functions ∧ Settled job.functions := by
  intro job hjob
  obtain ⟨k, hk⟩ := Dict.mem_values_iff.1 hjob
  rw [DemeterController.release, Dict.get?_mapVals, Option.map_eq_some_iff] at hk
  obtain ⟨job₀, hjob₀, rfl⟩ := hk
  exact ⟨(h job₀ (Dict.mem_values_of_get? hjob₀)).release hnow hbound, settled_release job₀ now'⟩

theorem runInv_reset (config : DemeterConfig) (profiles : List RawProfile) (random : σ) :
    RunInv (reset config profiles random).1 := by
  have fresh : ∀ job ∈ (registerAll config profiles).jobs.values, JobInv 0 0 job.functions := by
    intro job hjob
    obtain ⟨raw, -, rfl⟩ := mem_values_registerAll hjob
    exact (expanded_buildJob raw).jobInv 0 0
  exact inv_release fresh le_rfl le_rfl

theorem runInv_step {env : DemeterEnv σ} (h : RunInv env)
    (hint : 0 ≤ env.controller.config.runtime.intervalSeconds)
    (actions : List OrchestrationAction) : RunInv (env.step uniform estimate actions).env := by
  obtain ⟨hnow, hrt⟩ := stepActions_frame uniform estimate env actions
  have hloop : LoopInv (stepActions uniform estimate env actions) :=
    List.foldlRecOn (motive := LoopInv) actions _ ⟨le_rfl, fun job hjob => (h job hjob).1⟩
      fun st hst action _ => loopInv_stepAction _ _ st action hst
  obtain ⟨hle, hjobs⟩ := hloop
  set st := stepActions uniform estimate env actions with hst
  -- the new clock is at least the latest finish time
  have hbound : st.maxFinish ≤
      st.maxFinish + st.env.controller.config.runtime.intervalSeconds := by
    rw [hrt]; linarith
  have first := inv_release hjobs (hle.trans hbound) hbound
  exact inv_release (fun job hjob => (first job hjob).1) le_rfl le_rfl

theorem run_runInv (config : DemeterConfig) (profiles : List RawProfile) (random : σ)
    (hint : 0 ≤ config.runtime.intervalSeconds) (plans : List (List OrchestrationAction)) :
    RunInv (run uniform estimate config profiles random plans) := by
  have key := List.foldlRecOn
    (motive := fun env : DemeterEnv σ =>
      RunInv env ∧ env.controller.config.runtime = config.runtime)
    plans (fun env actions => (env.step uniform estimate actions).env)
    ⟨runInv_reset config profiles random,
      congrArg (·.runtime) (config_registerAll config profiles)⟩
    fun env h actions _ => ⟨runInv_step h.1 (h.2 ▸ hint) actions,
      (runtime_step env actions).trans h.2⟩
  exact key.1

/-- **Precedence safety.**  After `reset` and any steps, every predecessor id is a function of the
job, a function waits exactly when some predecessor has not finished, and a finished function
started no earlier than each of its predecessors finished. -/
theorem precedence_safety (config : DemeterConfig) (profiles : List RawProfile) (random : σ)
    (hint : 0 ≤ config.runtime.intervalSeconds) (plans : List (List OrchestrationAction))
    (job : JobSpec)
    (hjob : job ∈ (run uniform estimate config profiles random plans).controller.jobs.values)
    (fn : FunctionSpec) (hfn : fn ∈ job.functions.values) :
    (∀ p ∈ fn.predecessors, p ∈ job.functions.keys) ∧
    (fn.status = .waiting ↔ ∃ p ∈ fn.predecessors, ¬ IsFinished job.functions p) ∧
    (fn.status = .finished → ∃ s, fn.startTime = some s ∧ ∀ p ∈ fn.predecessors,
      ∃ g t, job.functions.get? p = some g ∧ g.finishTime = some t ∧ t ≤ s) := by
  obtain ⟨hinv, hsettled⟩ := run_runInv config profiles random hint plans job hjob
  obtain ⟨k, hk⟩ := Dict.mem_values_iff.1 hfn
  refine ⟨hinv.known hk, ⟨hsettled hk, ?_⟩, ?_⟩
  · rintro ⟨p, hp, hn⟩
    cases hs : fn.status with
    | waiting => rfl
    | pending => exact absurd (hinv.pending hk hs p hp).isFinished hn
    | running => exact absurd hs (hinv.not_running hk)
    | finished =>
      obtain ⟨_, _, -, -, -, hpred⟩ := hinv.finished hk hs
      exact absurd (hpred p hp).isFinished hn
  · intro hs
    obtain ⟨s, _, hst, -, -, hpred⟩ := hinv.finished hk hs
    refine ⟨s, hst, fun p hp => ?_⟩
    obtain ⟨g, t, hg, -, ht, hle⟩ := hpred p hp
    exact ⟨g, t, hg, ht, hle⟩

/-- Both functions of the sample job finish, and the second one respects the first. -/
theorem precedence_safety_sample :
    ∃ job ∈ (Sample.run [Sample.profile 0]
        [[Sample.action "scan"], [Sample.action "aggregate"]]).controller.jobs.values,
      ∃ fn ∈ job.functions.values, fn.predecessors ≠ [] ∧ fn.status = .finished ∧
        ∃ s, fn.startTime = some s ∧ ∀ p ∈ fn.predecessors,
          ∃ g t, job.functions.get? p = some g ∧ g.finishTime = some t ∧ t ≤ s := by
  obtain ⟨job, hjob, fn, hfn, hp, hs⟩ :
      ∃ job ∈ (Sample.run [Sample.profile 0]
          [[Sample.action "scan"], [Sample.action "aggregate"]]).controller.jobs.values,
        ∃ fn ∈ job.functions.values, fn.predecessors ≠ [] ∧ fn.status = .finished := by
    decide +kernel
  exact ⟨job, hjob, fn, hfn, hp, hs,
    (precedence_safety _ _ _ (by decide +kernel) _ job hjob fn hfn).2.2 hs⟩

end DemeterEnv

end Demeter.Marl
