import Demeter.Marl.Controller
import Demeter.Marl.Cost

/-!
# The simulator

`MARL/simulator.py`: `reset` registers the job profiles and makes the first observation, `step`
executes a list of actions at once, advances the clock past the last finish time and releases the
functions that became ready.

The random source is a state `σ` with `uniform : σ → ℚ × σ` (the jitter), and the cost model is an
arbitrary `Estimator`.  The environment exists from `reset` on: before it, the source has no
controller and `step` fails its assertion.
-/

namespace Demeter.Marl

/-- The environment with its clock, its counters and the state of the random generator. -/
structure DemeterEnv (σ : Type) where
  baseConfig : DemeterConfig
  jobProfiles : List RawProfile
  random : σ
  controller : DemeterController
  now : ℚ
  totalCost : ℚ
  memoryUsageGbSeconds : ℚ
  finishedFunctions : ℕ

/-- What `step` returns, with the environment after it. -/
structure StepResult (σ : Type) where
  env : DemeterEnv σ
  obs : Observation
  reward : ℚ
  done : Bool

/-- The local variables of the loop over the actions. -/
structure StepState (σ : Type) where
  env : DemeterEnv σ
  reward : ℚ
  maxFinish : ℚ

variable {σ : Type}

namespace DemeterEnv

/-- The controller with all profiles registered, before the first observation. -/
def registerAll (config : DemeterConfig) (profiles : List RawProfile) : DemeterController :=
  profiles.foldl DemeterController.registerJob (.init config)

/-- A new controller with all jobs, observed at time 0. -/
def reset (config : DemeterConfig) (profiles : List RawProfile) (random : σ) :
    DemeterEnv σ × Observation :=
  let observed := (registerAll config profiles).observe 0
  ({ baseConfig := config
     jobProfiles := profiles
     random := random
     controller := observed.1
     now := 0
     totalCost := 0
     memoryUsageGbSeconds := 0
     finishedFunctions := 0 }, observed.2)

/-- What executing a function does to it. -/
def executeFunction (now duration : ℚ) (action : OrchestrationAction) (fn : FunctionSpec) :
    FunctionSpec :=
  { fn with
    placement := some action.dcName
    allocation := some action.allocation
    startTime := some now
    observedDuration := some duration
    finishTime := some (now + duration)
    status := .finished
    resourcePeakCpu := action.allocation.cpuCores
    resourcePeakMemoryMb := min (action.allocation.memoryMb : ℚ) (fn.inputMb * (11 / 10)) }

/-- What executing a function does to its data center. -/
def returnSlot (dc : DataCenter) : DataCenter :=
  { dc with
    runningFunctions := max 0 (dc.runningFunctions - 1)
    availableExecutors := dc.availableExecutors + 1
    warmContainers := dc.warmContainers + 1 }

variable (uniform : σ → ℚ × σ) (estimate : Estimator)

/-- Execute one function at one data center. -/
def execute (st : StepState σ) (action : OrchestrationAction) (ref : FnRef) (fn : FunctionSpec)
    (i : ℕ) (dc : DataCenter) : StepState σ :=
  let env := st.env
  let config := env.controller.config
  let metrics := estimate fn dc action.allocation config.dataCenters env.now
    config.model.timeoutSeconds
  let jitter := uniform env.random
  let duration := metrics.duration * jitter.1
  { env :=
      { env with
        random := jitter.2
        controller :=
          env.controller.update ref (executeFunction env.now duration action) i returnSlot
        totalCost := env.totalCost + metrics.totalCost
        memoryUsageGbSeconds :=
          env.memoryUsageGbSeconds + action.allocation.memoryGb * duration
        finishedFunctions := env.finishedFunctions + 1 }
    reward := st.reward - metrics.totalCost
    maxFinish := max st.maxFinish (env.now + duration) }

/-- One action of a step; it is skipped unless it names a known data center and a pending
function. -/
def stepAction (refs : Dict String FnRef) (dcs : Dict String ℕ) (st : StepState σ)
    (action : OrchestrationAction) : StepState σ :=
  match DemeterController.resolve refs dcs st.env.controller action with
  | some (ref, fn, i, dc) =>
      if fn.status = .pending then execute uniform estimate st action ref fn i dc else st
  | none => st

/-- The loop over the actions. -/
def stepActions (env : DemeterEnv σ) (actions : List OrchestrationAction) : StepState σ :=
  actions.foldl
    (stepAction uniform estimate (fnById env.controller.jobs)
      (dataCenterMap env.controller.config.dataCenters))
    ⟨env, 0, env.now⟩

/-- The reward for the time that is left to the deadlines. -/
def terminalReward (env : DemeterEnv σ) : ℚ :=
  env.controller.jobs.values.foldl (fun reward job =>
    reward + env.controller.config.model.penaltyBeta * (job.sloSeconds - job.jct) /
      max job.sloSeconds (1 / 1000000)) 0

/-- All jobs are finished. -/
def done (env : DemeterEnv σ) : Bool := env.controller.jobs.values.all (·.finished)

/-- The end of a step: the clock advances past the last finish time, the functions that became
ready are released and the state is observed. -/
def finishStep (st : StepState σ) : StepResult σ :=
  let now := st.maxFinish + st.env.controller.config.runtime.intervalSeconds
  let observed := (st.env.controller.release now).observe now
  let env' : DemeterEnv σ := { st.env with now := now, controller := observed.1 }
  { env := env'
    obs := observed.2
    reward := if env'.done then st.reward + env'.terminalReward else st.reward
    done := env'.done }

/-- `step`: the plan is executed, then time goes on. -/
def step (env : DemeterEnv σ) (actions : List OrchestrationAction) : StepResult σ :=
  finishStep (stepActions uniform estimate env actions)

/-- The environment after `reset` and a list of steps. -/
def run (config : DemeterConfig) (profiles : List RawProfile) (random : σ)
    (plans : List (List OrchestrationAction)) : DemeterEnv σ :=
  plans.foldl (fun env actions => (env.step uniform estimate actions).env)
    (reset config profiles random).1

/-- The state of the loop of `simulate`: the environment, the last observation, the state of the
policy and the flag `done`. -/
structure Episode (σ ρ : Type) where
  env : DemeterEnv σ
  obs : Observation
  policyState : ρ
  done : Bool

namespace Episode

variable {ρ : Type}

/-- The state before the first iteration. -/
def start (config : DemeterConfig) (profiles : List RawProfile) (random : σ) (r : ρ) :
    Episode σ ρ where
  env := (reset config profiles random).1
  obs := (reset config profiles random).2
  policyState := r
  done := false

/-- One iteration: plan, then step. -/
def iterate (policy : Policy ρ) (ep : Episode σ ρ) : Episode σ ρ :=
  let planned := policy ep.policyState ep.obs
  let result := ep.env.step uniform estimate planned.1
  { env := result.env, obs := result.obs, policyState := planned.2, done := result.done }

/-- The loop, cut off after `fuel` iterations. -/
def loop (policy : Policy ρ) : ℕ → Episode σ ρ → Episode σ ρ
  | 0, ep => ep
  | fuel + 1, ep => if ep.done then ep else loop policy fuel (iterate uniform estimate policy ep)

end Episode

/-! ### What one action does -/

/-- An action is skipped, or it executes a pending function. -/
theorem stepAction_cases (refs : Dict String FnRef) (dcs : Dict String ℕ) (st : StepState σ)
    (action : OrchestrationAction) :
    (stepAction uniform estimate refs dcs st action = st ∧
        ∀ ref fn i dc, DemeterController.resolve refs dcs st.env.controller action =
          some (ref, fn, i, dc) → fn.status ≠ .pending) ∨
      ∃ ref fn i dc, DemeterController.resolve refs dcs st.env.controller action =
          some (ref, fn, i, dc) ∧ fn.status = .pending ∧
        stepAction uniform estimate refs dcs st action =
          execute uniform estimate st action ref fn i dc := by
  unfold stepAction
  cases hr : DemeterController.resolve refs dcs st.env.controller action with
  | none => exact Or.inl ⟨rfl, by simp⟩
  | some r =>
    obtain ⟨ref, fn, i, dc⟩ := r
    by_cases hs : fn.status = .pending
    · exact Or.inr ⟨ref, fn, i, dc, rfl, hs, if_pos hs⟩
    · refine Or.inl ⟨if_neg hs, ?_⟩
      rintro ref' fn' i' dc' h
      cases h
      exact hs

variable {uniform estimate} in
/-- The loop over the actions changes neither the clock nor the settings. -/
theorem stepAction_frame (refs : Dict String FnRef) (dcs : Dict String ℕ) (st : StepState σ)
    (action : OrchestrationAction) :
    (stepAction uniform estimate refs dcs st action).env.now = st.env.now ∧
      (stepAction uniform estimate refs dcs st action).env.controller.config.runtime =
        st.env.controller.config.runtime := by
  rcases stepAction_cases uniform estimate refs dcs st action with
    ⟨h, -⟩ | ⟨ref, fn, i, dc, -, -, h⟩ <;> rw [h]
  · exact ⟨rfl, rfl⟩
  · exact ⟨rfl, rfl⟩

theorem stepActions_frame (env : DemeterEnv σ) (actions : List OrchestrationAction) :
    (stepActions uniform estimate env actions).env.now = env.now ∧
      (stepActions uniform estimate env actions).env.controller.config.runtime =
        env.controller.config.runtime := by
  refine List.foldlRecOn (motive := fun st : StepState σ => st.env.now = env.now ∧
    st.env.controller.config.runtime = env.controller.config.runtime) actions _ ⟨rfl, rfl⟩ ?_
  rintro st ⟨hn, hr⟩ action -
  obtain ⟨hn', hr'⟩ := stepAction_frame _ _ st action
  exact ⟨hn'.trans hn, hr'.trans hr⟩

variable {uniform estimate}

theorem runtime_step (env : DemeterEnv σ) (actions : List OrchestrationAction) :
    (env.step uniform estimate actions).env.controller.config.runtime =
      env.controller.config.runtime :=
  (stepActions_frame uniform estimate env actions).2

theorem config_registerAll (config : DemeterConfig) (profiles : List RawProfile) :
    (registerAll config profiles).config = config :=
  List.foldlRecOn (motive := fun c : DemeterController => c.config = config) profiles _ rfl
    fun _ h _ _ => h

/-- The jobs registered at reset are built from the profiles. -/
theorem mem_values_registerAll {config : DemeterConfig} {profiles : List RawProfile}
    {job : JobSpec} (h : job ∈ (registerAll config profiles).jobs.values) :
    ∃ raw ∈ profiles, job = buildJob raw := by
  have key : ∀ (l : List RawProfile) (c : DemeterController),
      (∀ job ∈ c.jobs.values, ∃ raw ∈ profiles, job = buildJob raw) → (∀ raw ∈ l, raw ∈ profiles) →
      ∀ job ∈ (l.foldl DemeterController.registerJob c).jobs.values,
        ∃ raw ∈ profiles, job = buildJob raw := by
    intro l
    induction l with
    | nil => exact fun c hc _ => hc
    | cons raw l ih =>
      intro c hc hl
      refine ih _ (fun job hjob => ?_) fun r hr => hl r (List.mem_cons_of_mem _ hr)
      obtain ⟨k, hk⟩ := Dict.mem_values_iff.1 hjob
      rw [DemeterController.registerJob, Dict.get?_set] at hk
      split_ifs at hk
      · cases hk
        exact ⟨raw, hl raw List.mem_cons_self, rfl⟩
      · exact hc job (Dict.mem_values_of_get? hk)
  exact key profiles _ (by simp [DemeterController.init, Dict.values, Dict.empty])
    (fun _ h => h) job h

end DemeterEnv

/-! ### A small workload

One data center and a job of two stages, used to evaluate the model. -/

namespace Sample

/-- Square root and power, exact at the value one, where the sample allocation uses them. -/
def floatMath : FloatMath where
  sqrt x := x
  pow x _ := x

/-- One core and one gigabyte. -/
def allocation : AllocationType := { name := "1c-1024m", cpuCores := 1, memoryMb := 1024 }

/-- One data center and one allocation. -/
def config : DemeterConfig where
  dataCenters := [{ name := "paris", nodeIp := "10.0.0.11" }]
  allocations := [allocation]

/-- A scan followed by an aggregation, arriving at the given time. -/
def profile (arrivalTime : ℚ) : RawProfile where
  jobId := "job-0"
  arrivalTime := some arrivalTime
  stages := [{ id := "scan", inputMb := some 45 }, { id := "aggregate", inputMb := some 45 }]
  edges := [("scan", "aggregate")]

/-- A stage of the job goes to the only data center. -/
def action (stageId : String) : OrchestrationAction where
  functionId := functionId "job-0" stageId 0
  dcName := "paris"
  allocation := allocation

/-- A run on the sample configuration without jitter. -/
def run (profiles : List RawProfile) (plans : List (List OrchestrationAction)) : DemeterEnv Unit :=
  DemeterEnv.run (fun r => (1, r)) (estimateMetrics floatMath) config profiles () plans

end Sample

end Demeter.Marl
