import Demeter.Lib.Runs
import Demeter.Marl.Simulator

/-!
# Executor slots

`available_executors + running_functions` of a data center counts its slots.  The controller takes
a slot with a floor at zero free executors, the simulator returns one with a floor at zero running
functions; neither looks at the counter before.  Both floors create a slot, so the number of slots
never decreases, and it is conserved exactly when no floor is hit.

* `slots`, `slotsAt`: the slots of a data center, and of the data center at a position;
* `FreeSlot`, `TakenSlot`: a placement finds a free executor, an execution finds a running function;
* `map_slots_eq_iff`: conservation over whole runs of the controller and of the simulator.
-/

namespace Demeter.Marl

/-- The executors of a data center, free or in use. -/
def DataCenter.slots (dc : DataCenter) : ℤ := dc.availableExecutors + dc.runningFunctions

namespace DemeterController

/-- The slots of the data center at a position. -/
def slotsAt (c : DemeterController) (i : ℕ) : ℤ :=
  ((c.config.dataCenters[i]?).map DataCenter.slots).getD 0

theorem slots_takeSlot (dc : DataCenter) :
    (takeSlot dc).slots = dc.slots + max 0 (1 - dc.availableExecutors) := by
  simp only [takeSlot, DataCenter.slots]
  omega

/-! ### Changing one data center -/

section Update

variable (c : DemeterController) (ref : FnRef) (f : FunctionSpec → FunctionSpec) {i : ℕ}
  {g : DataCenter → DataCenter} {dc : DataCenter}

theorem slotsAt_update (hdc : c.config.dataCenters[i]? = some dc) (j : ℕ) :
    slotsAt (c.update ref f i g) j = if j = i then (g dc).slots else slotsAt c j := by
  simp only [slotsAt, update, List.getElem?_modify]
  split_ifs with h1 h2 h2
  · subst h2
    simp [hdc]
  · exact absurd h1.symm h2
  · exact absurd h2.symm h1
  · simp

theorem slotsAt_le_update (hdc : c.config.dataCenters[i]? = some dc)
    (hg : dc.slots ≤ (g dc).slots) :
    slotsAt c ≤ slotsAt (c.update ref f i g) := by
  intro j
  rw [slotsAt_update c ref f hdc]
  split_ifs with h
  · subst h
    simpa [slotsAt, hdc] using hg
  · exact le_rfl

theorem slotsAt_update_eq_iff (hdc : c.config.dataCenters[i]? = some dc) :
    slotsAt (c.update ref f i g) = slotsAt c ↔ (g dc).slots = dc.slots := by
  constructor
  · intro h
    have hi := congrFun h i
    rw [slotsAt_update c ref f hdc, if_pos rfl] at hi
    simpa [slotsAt, hdc] using hi
  · intro h
    funext j
    rw [slotsAt_update c ref f hdc]
    split_ifs with hj
    · subst hj
      simpa [slotsAt, hdc] using h
    · rfl

@[simp] theorem length_dataCenters_update :
    (c.update ref f i g).config.dataCenters.length = c.config.dataCenters.length := by
  simp [update]

end Update

/-- Two lists of data centers of one length have the same slots when they have them at every
position. -/
theorem map_slots_eq_iff_slotsAt (c c' : DemeterController)
    (h : c.config.dataCenters.length = c'.config.dataCenters.length) :
    c.config.dataCenters.map DataCenter.slots = c'.config.dataCenters.map DataCenter.slots ↔
      slotsAt c = slotsAt c' := by
  constructor
  · intro heq
    funext i
    simp only [slotsAt, ← List.getElem?_map, heq]
  · intro heq
    refine List.ext_getElem (by simpa using h) fun i hi hi' => ?_
    have := congrFun heq i
    rw [List.length_map] at hi hi'
    simpa [slotsAt, List.getElem?_eq_getElem hi, List.getElem?_eq_getElem hi'] using this

/-! ### The controller -/

/-- If the action places a function, its data center has a free executor. -/
def FreeSlot (refs : Dict String FnRef) (dcs : Dict String ℕ) (c : DemeterController)
    (action : OrchestrationAction) : Prop :=
  ∀ ref fn i dc, resolve refs dcs c action = some (ref, fn, i, dc) → 1 ≤ dc.availableExecutors

theorem slotsAt_le_applyAction (refs : Dict String FnRef) (dcs : Dict String ℕ) (now : ℚ)
    (c : DemeterController) (action : OrchestrationAction) :
    slotsAt c ≤ slotsAt (applyAction refs dcs now c action) := by
  rcases applyAction_cases refs dcs now c action with ⟨he, -⟩ | ⟨ref, fn, i, dc, hr, he⟩ <;> rw [he]
  obtain ⟨-, -, -, hdc⟩ := resolve_eq_some_iff.1 hr
  refine slotsAt_le_update c ref _ hdc ?_
  rw [slots_takeSlot]
  omega

theorem slotsAt_applyAction_eq_iff (refs : Dict String FnRef) (dcs : Dict String ℕ) (now : ℚ)
    (c : DemeterController) (action : OrchestrationAction) :
    slotsAt (applyAction refs dcs now c action) = slotsAt c ↔ FreeSlot refs dcs c action := by
  rcases applyAction_cases refs dcs now c action with ⟨he, hr⟩ | ⟨ref, fn, i, dc, hr, he⟩ <;>
    rw [he]
  · simp [FreeSlot, hr]
  obtain ⟨-, -, -, hdc⟩ := resolve_eq_some_iff.1 hr
  rw [slotsAt_update_eq_iff c ref _ hdc, slots_takeSlot]
  constructor
  · intro h ref' fn' i' dc' hr'
    rw [hr] at hr'
    cases hr'
    omega
  · intro h
    have := h ref fn i dc hr
    omega

/-- What the users of a controller call. -/
inductive Request
  | registerJob (raw : RawProfile)
  | runOnce (now : ℚ)

variable {ρ : Type} (policy : Policy ρ)

/-- One request to the controller. -/
def serve (s : DemeterController × ρ) : Request → DemeterController × ρ
  | .registerJob raw => (s.1.registerJob raw, s.2)
  | .runOnce now => runOnce policy s now

/-- Every placement of the request finds a free executor. -/
def FreeSlots (s : DemeterController × ρ) : Request → Prop
  | .registerJob _ => True
  | .runOnce now =>
      Runs.Along
        (applyAction (fnById (s.1.release now).jobs) (dataCenterMap s.1.config.dataCenters) now)
        (FreeSlot (fnById (s.1.release now).jobs) (dataCenterMap s.1.config.dataCenters))
        (s.1.release now) (policy s.2 (s.1.observe now).2).1

theorem slotsAt_le_serve (s : DemeterController × ρ) (request : Request) :
    slotsAt s.1 ≤ slotsAt (serve policy s request).1 := by
  cases request with
  | registerJob raw => exact le_rfl
  | runOnce now => exact Runs.le_foldl (slotsAt_le_applyAction _ _ now) (s.1.release now) _

theorem slotsAt_serve_eq_iff (s : DemeterController × ρ) (request : Request) :
    slotsAt (serve policy s request).1 = slotsAt s.1 ↔ FreeSlots policy s request := by
  cases request with
  | registerJob raw => exact iff_of_true rfl trivial
  | runOnce now =>
    exact Runs.foldl_eq_iff_along (slotsAt_le_applyAction _ _ now)
      (slotsAt_applyAction_eq_iff _ _ now) (s.1.release now) _

theorem length_dataCenters_serve (s : DemeterController × ρ) (request : Request) :
    (serve policy s request).1.config.dataCenters.length = s.1.config.dataCenters.length := by
  cases request with
  | registerJob raw => rfl
  | runOnce now =>
    refine List.foldlRecOn (motive := fun c : DemeterController =>
      c.config.dataCenters.length = s.1.config.dataCenters.length) _ _ rfl fun c hc action _ => ?_
    rcases applyAction_cases _ _ now c action with ⟨he, -⟩ | ⟨ref, fn, i, dc, -, he⟩ <;> rw [he]
    · exact hc
    · rwa [length_dataCenters_update]

end DemeterController

/-! ### The simulator -/

namespace DemeterEnv

open DemeterController

variable {σ : Type} {uniform : σ → ℚ × σ} {estimate : Estimator}

theorem slots_returnSlot (dc : DataCenter) :
    (returnSlot dc).slots = dc.slots + max 0 (1 - dc.runningFunctions) := by
  simp only [returnSlot, DataCenter.slots]
  omega

/-- If the action executes a function, its data center has a running function. -/
def TakenSlot (refs : Dict String FnRef) (dcs : Dict String ℕ) (st : StepState σ)
    (action : OrchestrationAction) : Prop :=
  ∀ ref fn i dc, resolve refs dcs st.env.controller action = some (ref, fn, i, dc) →
    fn.status = .pending → 1 ≤ dc.runningFunctions

variable (uniform estimate) in
/-- Every execution of the step finds a running function. -/
def TakenSlots (env : DemeterEnv σ) (actions : List OrchestrationAction) : Prop :=
  Runs.Along
    (stepAction uniform estimate (fnById env.controller.jobs)
      (dataCenterMap env.controller.config.dataCenters))
    (TakenSlot (fnById env.controller.jobs) (dataCenterMap env.controller.config.dataCenters))
    ⟨env, 0, env.now⟩ actions

theorem slotsAt_le_stepAction (refs : Dict String FnRef) (dcs : Dict String ℕ) (st : StepState σ)
    (action : OrchestrationAction) :
    slotsAt st.env.controller ≤
      slotsAt (stepAction uniform estimate refs dcs st action).env.controller := by
  rcases stepAction_cases uniform estimate refs dcs st action with
    ⟨he, -⟩ | ⟨ref, fn, i, dc, hr, -, he⟩ <;> rw [he]
  obtain ⟨-, -, -, hdc⟩ := resolve_eq_some_iff.1 hr
  refine slotsAt_le_update _ ref _ hdc ?_
  rw [slots_returnSlot]
  omega

theorem slotsAt_stepAction_eq_iff (refs : Dict String FnRef) (dcs : Dict String ℕ)
    (st : StepState σ) (action : OrchestrationAction) :
    slotsAt (stepAction uniform estimate refs dcs st action).env.controller =
      slotsAt st.env.controller ↔ TakenSlot refs dcs st action := by
  rcases stepAction_cases uniform estimate refs dcs st action with
    ⟨he, hskip⟩ | ⟨ref, fn, i, dc, hr, hs, he⟩ <;> rw [he]
  · exact iff_of_true rfl fun ref fn i dc hr hs => absurd hs (hskip ref fn i dc hr)
  obtain ⟨-, -, -, hdc⟩ := resolve_eq_some_iff.1 hr
  refine (slotsAt_update_eq_iff _ ref _ hdc).trans ?_
  rw [slots_returnSlot]
  constructor
  · intro h ref' fn' i' dc' hr' _
    rw [hr] at hr'
    cases hr'
    omega
  · intro h
    have := h ref fn i dc hr hs
    omega

theorem length_dataCenters_step (env : DemeterEnv σ) (actions : List OrchestrationAction) :
    (env.step uniform estimate actions).env.controller.config.dataCenters.length =
      env.controller.config.dataCenters.length := by
  refine List.foldlRecOn (motive := fun st : StepState σ =>
    st.env.controller.config.dataCenters.length = env.controller.config.dataCenters.length)
    actions _ rfl fun st hst action _ => ?_
  rcases stepAction_cases uniform estimate _ _ st action with
    ⟨he, -⟩ | ⟨ref, fn, i, dc, -, -, he⟩ <;> rw [he]
  · exact hst
  · exact (length_dataCenters_update _ _ _).trans hst

end DemeterEnv

/-! ### Whole runs -/

variable {σ ρ : Type}

/-- **Conservation of executor slots.**  In every run of the controller the slots of every data
center stay those of its configuration if and only if every placement finds a free executor; in
every run of the simulator, if and only if every execution finds a running function in its data
center. -/
theorem map_slots_eq_iff (config : DemeterConfig) (policy : Policy ρ) (r : ρ)
    (requests : List DemeterController.Request) (uniform : σ → ℚ × σ) (estimate : Estimator)
    (profiles : List RawProfile) (random : σ) (plans : List (List OrchestrationAction)) :
    ((requests.foldl (DemeterController.serve policy) (.init config, r)).1.config.dataCenters.map
          DataCenter.slots = config.dataCenters.map DataCenter.slots ↔
        Runs.Along (DemeterController.serve policy) (DemeterController.FreeSlots policy)
          (.init config, r) requests) ∧
      ((DemeterEnv.run uniform estimate config profiles random
          plans).controller.config.dataCenters.map DataCenter.slots =
          config.dataCenters.map DataCenter.slots ↔
        Runs.Along (fun env actions => (env.step uniform estimate actions).env)
          (DemeterEnv.TakenSlots uniform estimate) (DemeterEnv.reset config profiles random).1
          plans) := by
  constructor
  · refine (DemeterController.map_slots_eq_iff_slotsAt _ (.init config) ?_).trans
      (Runs.foldl_eq_iff_along (m := fun s : DemeterController × ρ => s.1.slotsAt)
        (DemeterController.slotsAt_le_serve policy) (DemeterController.slotsAt_serve_eq_iff policy)
        (.init config, r) requests)
    exact List.foldlRecOn (motive := fun s : DemeterController × ρ =>
      s.1.config.dataCenters.length = config.dataCenters.length) requests _ rfl
      fun s hs request _ => (DemeterController.length_dataCenters_serve policy s request).trans hs
  · have hreset : (DemeterEnv.reset config profiles random).1.controller.config = config :=
      DemeterEnv.config_registerAll config profiles
    rw [← congrArg (·.dataCenters.map DataCenter.slots) hreset]
    refine (DemeterController.map_slots_eq_iff_slotsAt _ _ ?_).trans
      (Runs.foldl_eq_iff_along (m := fun env : DemeterEnv σ => env.controller.slotsAt)
        (fun env actions => ?_) (fun env actions => ?_) _ plans)
    · exact List.foldlRecOn (motive := fun env : DemeterEnv σ =>
        env.controller.config.dataCenters.length = _) plans _ rfl
        fun env henv actions _ => (DemeterEnv.length_dataCenters_step env actions).trans henv
    · exact Runs.le_foldl (m := fun st : StepState σ => st.env.controller.slotsAt)
        (DemeterEnv.slotsAt_le_stepAction _ _) ⟨env, 0, env.now⟩ actions
    · exact Runs.foldl_eq_iff_along (m := fun st : StepState σ => st.env.controller.slotsAt)
        (DemeterEnv.slotsAt_le_stepAction _ _) (DemeterEnv.slotsAt_stepAction_eq_iff _ _)
        ⟨env, 0, env.now⟩ actions

namespace Sample

/-- The heuristic policy on the sample allocations. -/
def policy : Policy Unit :=
  demeterHeuristicPolicy (estimateMetrics floatMath) config.allocations
    config.runtime.memoryLossFactor

/-- The plan of the policy for the observation made at reset. -/
def firstPlan (profiles : List RawProfile) : List OrchestrationAction :=
  (policy () (DemeterEnv.reset config profiles ()).2).1

end Sample

/-- On the sample configuration, which has no executors, one round of the controller places a
function without a slot, and one step of the simulator returns a slot nobody took. -/
theorem map_slots_ne_sample :
    ([DemeterController.Request.registerJob (Sample.profile 0), .runOnce 0].foldl
        (DemeterController.serve Sample.policy)
        (.init Sample.config, ())).1.config.dataCenters.map DataCenter.slots ≠
          Sample.config.dataCenters.map DataCenter.slots ∧
      (Sample.run [Sample.profile 0]
        [Sample.firstPlan [Sample.profile 0]]).controller.config.dataCenters.map DataCenter.slots ≠
          Sample.config.dataCenters.map DataCenter.slots := by
  decide +kernel

end Demeter.Marl
