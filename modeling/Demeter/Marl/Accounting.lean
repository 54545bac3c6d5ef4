import Demeter.Marl.Simulator

/-!
# Accounting in the simulator

`step` adds up the costs and the memory of what it executes, and returns the negated costs as its
reward, with the terminal reward when all jobs are finished.

* `runExecutions` are the executions of a run, `results` what its steps return;
* `Balanced` is the invariant: the executed functions are distinct and finished, and the three
  counters are what the executions and the finished functions add up to;
* `accounts_run` states this for every run, and for the rewards up to the first step that is done.
-/

namespace Demeter.Marl.DemeterEnv

variable {σ : Type} (uniform : σ → ℚ × σ) (estimate : Estimator)

/-! ### Executions -/

/-- An executed function with the cost that was estimated for it. -/
structure Execution where
  ref : FnRef
  cost : ℚ

/-- What an action executes. -/
def executedBy (refs : Dict String FnRef) (dcs : Dict String ℕ) (st : StepState σ)
    (action : OrchestrationAction) : List Execution :=
  match DemeterController.resolve refs dcs st.env.controller action with
  | some (ref, fn, _, dc) =>
      if fn.status = .pending then
        [⟨ref, (estimate fn dc action.allocation st.env.controller.config.dataCenters st.env.now
          st.env.controller.config.model.timeoutSeconds).totalCost⟩]
      else []
  | none => []

/-- The executions of a list of actions. -/
def executions (refs : Dict String FnRef) (dcs : Dict String ℕ) :
    StepState σ → List OrchestrationAction → List Execution
  | _, [] => []
  | st, action :: actions =>
      executedBy estimate refs dcs st action ++
        executions refs dcs (stepAction uniform estimate refs dcs st action) actions

/-- The executions of a step. -/
def stepExecutions (env : DemeterEnv σ) (actions : List OrchestrationAction) : List Execution :=
  executions uniform estimate (fnById env.controller.jobs)
    (dataCenterMap env.controller.config.dataCenters) ⟨env, 0, env.now⟩ actions

/-- The executions of a list of steps. -/
def runExecutions : DemeterEnv σ → List (List OrchestrationAction) → List Execution
  | _, [] => []
  | env, actions :: plans =>
      stepExecutions uniform estimate env actions ++
        runExecutions (env.step uniform estimate actions).env plans

/-- What a list of steps returns. -/
def results : DemeterEnv σ → List (List OrchestrationAction) → List (StepResult σ)
  | _, [] => []
  | env, actions :: plans =>
      env.step uniform estimate actions ::
        results (env.step uniform estimate actions).env plans

/-- The memory of the allocation of a function, for as long as it ran. -/
def gbSeconds (fn : FunctionSpec) : ℚ :=
  (fn.allocation.map AllocationType.memoryGb).getD 0 * fn.observedDuration.getD 0

/-! ### The invariant -/

/-- The counters are the sums over the executions. -/
structure Balanced (env : DemeterEnv σ) (log : List Execution) : Prop where
  nodup : (log.map (·.ref)).Nodup
  finished : ∀ e ∈ log, ∃ fn, getFn env.controller.jobs e.ref = some fn ∧ fn.status = .finished
  executed : env.finishedFunctions = log.length
  count : env.finishedFunctions =
    (allFunctions env.controller.jobs).countP (·.status = .finished)
  cost : env.totalCost = (log.map (·.cost)).sum
  memory : env.memoryUsageGbSeconds =
    (((allFunctions env.controller.jobs).filter (·.status = .finished)).map gbSeconds).sum

/-- The memory of a function counts when it is finished. -/
def finishedGbSeconds (fn : FunctionSpec) : ℚ :=
  if fn.status = .finished then gbSeconds fn else 0

theorem sum_filter_finished (fns : List FunctionSpec) :
    ((fns.filter (·.status = .finished)).map gbSeconds).sum = (fns.map finishedGbSeconds).sum := by
  induction fns with
  | nil => rfl
  | cons fn fns ih =>
    rw [List.map_cons, List.sum_cons, ← ih, List.filter_cons, finishedGbSeconds]
    by_cases h : fn.status = .finished
    · simp [h]
    · simp [h]

variable {uniform estimate}

theorem executedBy_of_skip {refs : Dict String FnRef} {dcs : Dict String ℕ} {st : StepState σ}
    {action : OrchestrationAction}
    (h : ∀ ref fn i dc, DemeterController.resolve refs dcs st.env.controller action =
      some (ref, fn, i, dc) → fn.status ≠ .pending) :
    executedBy estimate refs dcs st action = [] := by
  rw [executedBy]
  cases hr : DemeterController.resolve refs dcs st.env.controller action with
  | none => rfl
  | some r =>
    obtain ⟨ref, fn, i, dc⟩ := r
    exact if_neg (h ref fn i dc hr)

theorem executedBy_of_pending {refs : Dict String FnRef} {dcs : Dict String ℕ} {st : StepState σ}
    {action : OrchestrationAction} {ref : FnRef} {fn : FunctionSpec} {i : ℕ} {dc : DataCenter}
    (hr : DemeterController.resolve refs dcs st.env.controller action = some (ref, fn, i, dc))
    (hs : fn.status = .pending) :
    executedBy estimate refs dcs st action =
      [⟨ref, (estimate fn dc action.allocation st.env.controller.config.dataCenters st.env.now
        st.env.controller.config.model.timeoutSeconds).totalCost⟩] := by
  rw [executedBy, hr]
  exact if_pos hs

/-- Executing a pending function. -/
theorem Balanced.execute {st : StepState σ} {log : List Execution} (h : Balanced st.env log)
    (action : OrchestrationAction) {ref : FnRef} {fn : FunctionSpec} (i : ℕ) (dc : DataCenter)
    (hfn : getFn st.env.controller.jobs ref = some fn) (hs : fn.status = .pending) :
    Balanced (execute uniform estimate st action ref fn i dc).env
      (log ++ [⟨ref, (estimate fn dc action.allocation st.env.controller.config.dataCenters
        st.env.now st.env.controller.config.model.timeoutSeconds).totalCost⟩]) where
  nodup := by
    rw [List.map_append, List.nodup_append]
    refine ⟨h.nodup, List.nodup_singleton _, ?_⟩
    rintro r hr r' hr' rfl
    -- what was executed before is finished, and this function is pending
    obtain ⟨e, he, rfl⟩ := List.mem_map.1 hr
    obtain ⟨fn', hfn', hs'⟩ := h.finished e he
    have href : e.ref = ref := List.mem_singleton.1 hr'
    rw [href, hfn, Option.some.injEq] at hfn'
    rw [hfn', hs'] at hs
    cases hs
  finished e he := by
    simp only [Marl.DemeterEnv.execute, DemeterController.update, getFn_modifyFn]
    by_cases href : e.ref = ref
    · rw [if_pos href, href, hfn]
      exact ⟨_, rfl, rfl⟩
    · rw [if_neg href]
      refine h.finished e ((List.mem_append.1 he).resolve_right fun hmem => href ?_)
      rw [List.mem_singleton.1 hmem]
  executed := by simp [Marl.DemeterEnv.execute, h.executed]
  count := by
    have hcount := countP_allFunctions_modifyFn (fun fn => decide (fn.status = .finished))
      (executeFunction st.env.now ((estimate fn dc action.allocation
        st.env.controller.config.dataCenters st.env.now
        st.env.controller.config.model.timeoutSeconds).duration * (uniform st.env.random).1) action)
      hfn
    simp only [hs, executeFunction, decide_true, if_true] at hcount
    simp only [Marl.DemeterEnv.execute, DemeterController.update, h.count]
    exact hcount.symm
  cost := by simp [Marl.DemeterEnv.execute, h.cost]
  memory := by
    have hsum := sum_allFunctions_modifyFn finishedGbSeconds
      (executeFunction st.env.now ((estimate fn dc action.allocation
        st.env.controller.config.dataCenters st.env.now
        st.env.controller.config.model.timeoutSeconds).duration * (uniform st.env.random).1) action)
      hfn
    rw [finishedGbSeconds, if_neg (by simp [hs]), add_zero] at hsum
    rw [sum_filter_finished]
    simp only [Marl.DemeterEnv.execute, DemeterController.update, h.memory, sum_filter_finished]
    rw [hsum]
    simp [finishedGbSeconds, executeFunction, gbSeconds]

theorem Balanced.stepAction {st : StepState σ} {log : List Execution} (h : Balanced st.env log)
    (refs : Dict String FnRef) (dcs : Dict String ℕ) (action : OrchestrationAction) :
    Balanced (stepAction uniform estimate refs dcs st action).env
        (log ++ executedBy estimate refs dcs st action) ∧
      (stepAction uniform estimate refs dcs st action).reward =
        st.reward - ((executedBy estimate refs dcs st action).map (·.cost)).sum := by
  rcases stepAction_cases uniform estimate refs dcs st action with
    ⟨he, hskip⟩ | ⟨ref, fn, i, dc, hr, hs, he⟩ <;> rw [he]
  · rw [executedBy_of_skip hskip]
    simpa using h
  · obtain ⟨-, hfn, -⟩ := DemeterController.resolve_eq_some_iff.1 hr
    rw [executedBy_of_pending hr hs]
    exact ⟨h.execute action i dc hfn hs, by simp [Marl.DemeterEnv.execute]⟩

/-- The loop over the actions. -/
theorem Balanced.foldl {st : StepState σ} {log : List Execution} (h : Balanced st.env log)
    (refs : Dict String FnRef) (dcs : Dict String ℕ) (actions : List OrchestrationAction) :
    Balanced (actions.foldl (Marl.DemeterEnv.stepAction uniform estimate refs dcs) st).env
        (log ++ executions uniform estimate refs dcs st actions) ∧
      (actions.foldl (Marl.DemeterEnv.stepAction uniform estimate refs dcs) st).reward =
        st.reward - ((executions uniform estimate refs dcs st actions).map (·.cost)).sum := by
  induction actions generalizing st log with
  | nil => simpa [executions] using h
  | cons action actions ih =>
    obtain ⟨hnext, hreward⟩ := h.stepAction refs dcs action
    obtain ⟨hlast, hrest⟩ := ih hnext
    rw [List.foldl_cons, executions, ← List.append_assoc]
    refine ⟨hlast, ?_⟩
    rw [hrest, hreward, List.map_append, List.sum_append]
    ring

/-! ### Steps -/

theorem gbSeconds_releaseFunction (funcs : Dict String FunctionSpec) (now : ℚ) (fn : FunctionSpec) :
    gbSeconds (releaseFunction funcs now fn) = gbSeconds fn := by
  rcases releaseFunction_cases funcs now fn with ⟨h, -⟩ | ⟨h, -⟩ <;> rw [h]
  rfl

/-- The release pass changes neither the finished functions nor their memory. -/
theorem sum_allFunctions_release (c : DemeterController) (now : ℚ) :
    ((allFunctions (c.release now).jobs).map finishedGbSeconds).sum =
      ((allFunctions c.jobs).map finishedGbSeconds).sum := by
  have hfn : ∀ funcs fn,
      finishedGbSeconds (releaseFunction funcs now fn) = finishedGbSeconds fn := by
    intro funcs fn
    simp only [finishedGbSeconds, status_releaseFunction_eq_finished, gbSeconds_releaseFunction]
  simp only [allFunctions, DemeterController.release, releaseReadyFunctions, Dict.values_mapVals,
    List.flatMap_map, List.map_flatMap, List.map_map, Function.comp_def, hfn]

/-- The release pass and the clock do not matter. -/
theorem Balanced.release {env env' : DemeterEnv σ} {log : List Execution} (h : Balanced env log)
    (now : ℚ) (hcontroller : env'.controller = env.controller.release now)
    (hcount : env'.finishedFunctions = env.finishedFunctions)
    (hcost : env'.totalCost = env.totalCost)
    (hmemory : env'.memoryUsageGbSeconds = env.memoryUsageGbSeconds) : Balanced env' log where
  nodup := h.nodup
  finished e he := by
    obtain ⟨fn, hfn, hs⟩ := h.finished e he
    obtain ⟨job, hjob, hfn'⟩ := getFn_eq_some_iff.1 hfn
    rw [hcontroller]
    exact ⟨_, DemeterController.getFn_release_of_eq_some hjob hfn' now,
      status_releaseFunction_eq_finished.2 hs⟩
  executed := hcount.trans h.executed
  count := by
    rw [hcontroller, hcount, h.count]
    refine (DemeterController.countP_allFunctions_release (fun funcs fn => ?_) _).symm
    simp only [status_releaseFunction_eq_finished]
  cost := hcost.trans h.cost
  memory := by
    rw [hcontroller, hmemory, h.memory, sum_filter_finished, sum_filter_finished,
      sum_allFunctions_release]

theorem Balanced.step {env : DemeterEnv σ} {log : List Execution} (h : Balanced env log)
    (actions : List OrchestrationAction) :
    Balanced (env.step uniform estimate actions).env
        (log ++ stepExecutions uniform estimate env actions) ∧
      (env.step uniform estimate actions).reward =
        -((stepExecutions uniform estimate env actions).map (·.cost)).sum +
          if (env.step uniform estimate actions).done then
            (env.step uniform estimate actions).env.terminalReward else 0 := by
  have hst : Balanced (stepActions uniform estimate env actions).env
        (log ++ stepExecutions uniform estimate env actions) ∧
      (stepActions uniform estimate env actions).reward =
        0 - ((stepExecutions uniform estimate env actions).map (·.cost)).sum :=
    Balanced.foldl h _ _ actions
  -- the step releases once itself and once more when it observes
  let now := (stepActions uniform estimate env actions).maxFinish +
    (stepActions uniform estimate env actions).env.controller.config.runtime.intervalSeconds
  have hreleased : Balanced { (stepActions uniform estimate env actions).env with
      controller := (stepActions uniform estimate env actions).env.controller.release now }
      (log ++ stepExecutions uniform estimate env actions) :=
    hst.1.release now rfl rfl rfl rfl
  refine ⟨hreleased.release now rfl rfl rfl rfl, ?_⟩
  have hreward : (env.step uniform estimate actions).reward =
      if (env.step uniform estimate actions).done then
        (stepActions uniform estimate env actions).reward +
          (env.step uniform estimate actions).env.terminalReward
      else (stepActions uniform estimate env actions).reward := rfl
  rw [hreward, hst.2]
  split_ifs <;> ring

/-! ### Runs -/

theorem balanced_reset (config : DemeterConfig) (profiles : List RawProfile) (random : σ) :
    Balanced (reset config profiles random).1 [] := by
  have hstatus : ∀ fn ∈ allFunctions (registerAll config profiles).jobs, fn.status ≠ .finished := by
    intro fn hfn
    obtain ⟨job, hjob, hmem⟩ := List.mem_flatMap.1 hfn
    obtain ⟨raw, -, rfl⟩ := mem_values_registerAll hjob
    obtain ⟨k, hk⟩ := Dict.mem_values_iff.1 hmem
    rw [(expanded_buildJob raw).status hk]
    split_ifs <;> simp
  have hregistered : Balanced
      { (reset config profiles random).1 with controller := registerAll config profiles } [] := by
    refine ⟨List.nodup_nil, by simp, rfl, ?_, rfl, ?_⟩
    · refine (List.countP_eq_zero.2 fun fn hfn => ?_).symm
      simpa using hstatus fn hfn
    · have hnone : (allFunctions (registerAll config profiles).jobs).filter
          (·.status = .finished) = [] :=
        List.filter_eq_nil_iff.2 fun fn hfn => by simpa using hstatus fn hfn
      simp only [hnone]
      rfl
  exact hregistered.release 0 rfl rfl rfl rfl

theorem Balanced.run {env : DemeterEnv σ} {log : List Execution} (h : Balanced env log)
    (plans : List (List OrchestrationAction)) :
    Balanced (plans.foldl (fun env actions => (env.step uniform estimate actions).env) env)
      (log ++ runExecutions uniform estimate env plans) := by
  induction plans generalizing env log with
  | nil => simpa [runExecutions] using h
  | cons actions plans ih =>
    rw [List.foldl_cons, runExecutions, ← List.append_assoc]
    exact ih (h.step actions).1

/-- The rewards of a list of steps of which at most the last one is done. -/
theorem Balanced.sum_rewards {env : DemeterEnv σ} {log : List Execution} (h : Balanced env log)
    (pre : List (List OrchestrationAction)) (actions : List OrchestrationAction)
    (hdone : ∀ r ∈ results uniform estimate env pre, r.done = false) :
    let last := (pre ++ [actions]).foldl
      (fun env actions => (env.step uniform estimate actions).env) env
    ((results uniform estimate env (pre ++ [actions])).map (·.reward)).sum =
      -((runExecutions uniform estimate env (pre ++ [actions])).map (·.cost)).sum +
        if last.done then last.terminalReward else 0 := by
  induction pre generalizing env log with
  | nil =>
    simp only [List.nil_append, List.foldl_cons, List.foldl_nil, results, runExecutions,
      List.append_nil, List.map_cons, List.map_nil, List.sum_cons, List.sum_nil, add_zero]
    exact (h.step actions).2
  | cons first pre ih =>
    obtain ⟨hnext, hreward⟩ := @Balanced.step σ uniform estimate env log h first
    have hfirst : (DemeterEnv.step uniform estimate env first).done = false :=
      hdone _ List.mem_cons_self
    have hrest := ih hnext fun r hr => hdone r (List.mem_cons_of_mem _ hr)
    rw [hfirst, if_neg Bool.false_ne_true, add_zero] at hreward
    simp only [List.cons_append, List.foldl_cons, results, runExecutions, List.map_cons,
      List.sum_cons, List.map_append, List.sum_append] at hrest ⊢
    rw [hrest, hreward, neg_add, add_assoc]
    rfl

/-- What a run from `start` to `env` through `plans` adds up. -/
structure Accounts (uniform : σ → ℚ × σ) (estimate : Estimator) (start env : DemeterEnv σ)
    (plans : List (List OrchestrationAction)) : Prop where
  once : ((runExecutions uniform estimate start plans).map (·.ref)).Nodup
  executed : env.finishedFunctions = (runExecutions uniform estimate start plans).length
  count : env.finishedFunctions =
    (allFunctions env.controller.jobs).countP (·.status = .finished)
  cost : env.totalCost = ((runExecutions uniform estimate start plans).map (·.cost)).sum
  memory : env.memoryUsageGbSeconds =
    (((allFunctions env.controller.jobs).filter (·.status = .finished)).map gbSeconds).sum
  reward : ∀ pre actions, plans = pre ++ [actions] →
    (∀ r ∈ results uniform estimate start pre, r.done = false) →
    ((results uniform estimate start plans).map (·.reward)).sum =
      -env.totalCost + if env.done then env.terminalReward else 0

/-- **Executions and accounts.**  In every run each function is executed at most once, the counters
are what was executed, and up to the first step that is done the rewards are the negated costs, with
the terminal reward on that step. -/
theorem accounts_run (uniform : σ → ℚ × σ) (estimate : Estimator) (config : DemeterConfig)
    (profiles : List RawProfile) (random : σ) (plans : List (List OrchestrationAction)) :
    Accounts uniform estimate (reset config profiles random).1
      (run uniform estimate config profiles random plans) plans := by
  have hstart := balanced_reset config profiles random
  have hrun := @Balanced.run σ uniform estimate _ _ hstart plans
  rw [List.nil_append] at hrun
  refine ⟨hrun.nodup, hrun.executed, hrun.count, hrun.cost, hrun.memory, ?_⟩
  rintro pre actions rfl hdone
  rw [hstart.sum_rewards pre actions hdone, ← hrun.cost]
  rfl

end Demeter.Marl.DemeterEnv
