import Demeter.Marl.Constraints
import Demeter.Marl.Progress

/-!
# Exceptions of the simulation loop

The policies and the simulator once more, with the places where the source can raise: `none` stands
for an exception.  `estimate_compute_time` divides by a product of floats that may underflow to zero
and takes a power that may overflow; the heuristic policy divides by a load and looks its choice up
in a dictionary; the Pheromone policy takes the last of its allocations before it needs it.

* `estimateComputeTime`, `greedyCostPolicy`, `demeterHeuristicPolicy`, `step`, `iterate`, `loop`:
  the functions of the source that can raise;
* `Estimable`: every estimate for a registered function and a configured allocation returns;
* `policy_eq_some`, `step_eq_some`: while this holds nothing else raises, and the results are those
  of the functions that ignore exceptions;
* `terminates`: the loop with any policy of the command line.
-/

namespace Demeter.Marl

/-! ### Loops whose steps return -/

/-- A loop returns when its steps do, as long as an invariant holds. -/
theorem foldlM_eq_some {α β : Type*} {f : β → α → Option β} {g : β → α → β} {l : List α}
    (I : β → Prop) (h : ∀ b a, a ∈ l → I b → f b a = some (g b a) ∧ I (g b a)) {b : β} (hb : I b) :
    l.foldlM f b = some (l.foldl g b) := by
  induction l generalizing b with
  | nil => rfl
  | cons a l ih =>
    obtain ⟨hf, hI⟩ := h b a List.mem_cons_self hb
    rw [List.foldlM_cons, hf]
    exact ih (fun b' a' ha' => h b' a' (List.mem_cons_of_mem _ ha')) hI

theorem mapM_eq_some {α β : Type*} {f : α → Option β} {g : α → β} {l : List α}
    (h : ∀ a ∈ l, f a = some (g a)) : l.mapM f = some (l.map g) := by
  induction l with
  | nil => rfl
  | cons a l ih =>
    rw [List.mapM_cons, h a List.mem_cons_self,
      ih fun a' ha' => h a' (List.mem_cons_of_mem _ ha')]
    rfl

namespace Raising

/-! ### Estimates -/

/-- The operations of the compute-time estimate that are not exact: a square root or a power may
raise, a product may underflow to zero. -/
structure FloatOps where
  sqrt : ℚ → Option ℚ
  pow : ℚ → ℚ → Option ℚ
  mul : ℚ → ℚ → ℚ

/-- The seconds of the computation; a divisor of zero raises. -/
def estimateComputeTime (ops : FloatOps) (fn : FunctionSpec) (allocation : AllocationType) :
    Option ℚ := do
  let base := (fn.metadata.get? "base_seconds").getD (5 / 100)
  let cpuSensitivity := (fn.metadata.get? "cpu_sensitivity").getD (65 / 100)
  let memorySensitivity := (fn.metadata.get? "memory_sensitivity").getD (35 / 100)
  let typeWeight := (fn.metadata.get? "type_weight").getD 1
  let inputMb := max fn.inputMb 1
  let memoryTerm ← ops.sqrt ((max allocation.memoryMb 1 : ℤ) / 1024)
  let cpuTerm ← ops.pow (max allocation.cpuCores (1 / 10)) cpuSensitivity
  let memoryPower ← ops.pow (max memoryTerm (1 / 10)) memorySensitivity
  let divisor := ops.mul (ops.mul 45 cpuTerm) memoryPower
  if divisor = 0 then none else some (typeWeight * (base + inputMb / divisor))

/-- An estimator that may raise. -/
abbrev RaisingEstimator :=
  FunctionSpec → DataCenter → AllocationType → List DataCenter → ℚ → ℚ → Option FunctionMetrics

/-- Only the compute time can raise. -/
def estimateMetrics (ops : FloatOps) : RaisingEstimator :=
  fun fn dc allocation dcs now timeoutSeconds => do
    let computeTime ← estimateComputeTime ops fn allocation
    return metricsOf computeTime fn dc allocation dcs now timeoutSeconds

instance : Inhabited FunctionMetrics := ⟨⟨0, 0, 0, 0, 0, 0, 0, 0⟩⟩

/-- The estimates, with an arbitrary value in place of an exception. -/
def RaisingEstimator.total (estimate : RaisingEstimator) : Estimator :=
  fun fn dc allocation dcs now timeoutSeconds =>
    (estimate fn dc allocation dcs now timeoutSeconds).getD default

/-- No estimate for the function with one of the allocations raises. -/
def Returns (estimate : RaisingEstimator) (allocations : List AllocationType)
    (fn : FunctionSpec) : Prop :=
  ∀ a ∈ allocations, ∀ dc dcs now timeoutSeconds, (estimate fn dc a dcs now timeoutSeconds).isSome

/-! ### Policies -/

/-- A policy that may raise. -/
abbrev RaisingPolicy (ρ : Type) := ρ → Observation → Option (List OrchestrationAction × ρ)

section Policies

variable {ρ : Type} (estimate : RaisingEstimator) (allocations : List AllocationType)
  (memoryLossFactor : ℚ) (obs : Observation)

/-- The estimate is made for valid allocations only. -/
def greedyImprove (fn : FunctionSpec) (best : Option (ℚ × String × AllocationType))
    (choice : DataCenter × AllocationType) : Option (Option (ℚ × String × AllocationType)) :=
  if validAllocation fn choice.2 memoryLossFactor then do
    let metrics ← estimate fn choice.1 choice.2 obs.dataCenters obs.now 120
    return Marl.greedyImprove (fun _ _ _ _ _ _ => metrics) memoryLossFactor obs fn best choice
  else some best

/-- The cheapest of the choices, if all estimates return. -/
def greedyAction (fn : FunctionSpec) : Option (Option OrchestrationAction) := do
  let best ← (greedyChoices allocations obs fn).foldlM
    (greedyImprove estimate memoryLossFactor obs fn) none
  return best.map fun best =>
    { functionId := fn.functionId
      dcName := best.2.1
      allocation := best.2.2
      allocationScore := -best.1 }

/-- `GreedyCostPolicy.plan`. -/
def greedyCostPolicy : RaisingPolicy ρ := fun r obs => do
  let actions ← obs.allPendingFunctions.mapM
    (greedyAction estimate allocations memoryLossFactor obs)
  return (actions.reduceOption, r)

/-- The estimate is made for valid allocations only. -/
def heuristicImprove (fn : FunctionSpec) (dc : DataCenter) (posterior : ℚ)
    (best : Option (ℚ × AllocationType)) (alloc : AllocationType) :
    Option (Option (ℚ × AllocationType)) :=
  if validAllocation fn alloc memoryLossFactor then do
    let metrics ← estimate fn dc alloc obs.dataCenters obs.now 120
    return Marl.heuristicImprove (fun _ _ _ _ _ _ => metrics) memoryLossFactor obs fn dc posterior
      best alloc
  else some best

/-- The action for one function. -/
def heuristicAction (fn : FunctionSpec) : Option (Option OrchestrationAction) :=
  let aff := affinities obs fn
  match aff.entries.argmax (·.2) with
  | none => some none
  | some best =>
      -- a division by zero, then a missing key
      if posteriorTotal aff = 0 then none
      else do
        let posterior := max best.2 (1 / 1000000000) / posteriorTotal aff
        let dc ← dcByName obs.dataCenters best.1
        let alloc ← allocations.foldlM
          (heuristicImprove estimate memoryLossFactor obs fn dc posterior) none
        return alloc.map fun alloc =>
          { functionId := fn.functionId
            dcName := best.1
            allocation := alloc.2
            posterior := posterior
            allocationScore := alloc.1 }

/-- The loads are divided by only when something is pending. -/
def demeterHeuristicPolicy : RaisingPolicy ρ := fun r obs =>
  if obs.allPendingFunctions = [] then some ([], r)
  else if ∃ dc ∈ obs.dataCenters, (1 : ℚ) + dc.runningFunctions = 0 then none
  else do
    let actions ← obs.allPendingFunctions.mapM
      (heuristicAction estimate allocations memoryLossFactor obs)
    return (actions.reduceOption.insertionSort actionLe, r)

/-- `self.allocations[-1]` is evaluated for every function that has a candidate. -/
def pheromoneAction (fn : FunctionSpec) : Option (Option OrchestrationAction) :=
  let names :=
    if fn.candidateDcs = [] then (dataCenterMap obs.dataCenters).keys else fn.candidateDcs
  if names.filterMap (dcByName obs.dataCenters) ≠ [] ∧ allocations = [] then none
  else some (Marl.pheromoneAction allocations obs fn)

/-- `PheromonePolicy.plan`. -/
def pheromonePolicy : RaisingPolicy ρ := fun r obs => do
  let actions ← obs.allPendingFunctions.mapM (pheromoneAction allocations obs)
  return (actions.reduceOption, r)

end Policies

/-- The policy of a name; the random policy makes no estimates. -/
def policy {ρ : Type} (estimate : RaisingEstimator) (choice : ρ → ℕ → ℕ × ρ)
    (config : DemeterConfig) : PolicyName → RaisingPolicy ρ
  | .demeter =>
      demeterHeuristicPolicy estimate config.allocations config.runtime.memoryLossFactor
  | .pheromone => pheromonePolicy config.allocations
  | .astrea | .aquatope | .greedy =>
      greedyCostPolicy estimate config.allocations config.runtime.memoryLossFactor
  | .random => fun r obs => some (randomPolicy choice config.allocations r obs)

/-! ### The simulator -/

section Simulator

variable {σ ρ : Type} (uniform : σ → ℚ × σ) (estimate : RaisingEstimator)

/-- The estimate is made before the function is changed. -/
def stepAction (refs : Dict String FnRef) (dcs : Dict String ℕ) (st : StepState σ)
    (action : OrchestrationAction) : Option (StepState σ) :=
  match DemeterController.resolve refs dcs st.env.controller action with
  | some (ref, fn, i, dc) =>
      if fn.status = .pending then do
        let metrics ← estimate fn dc action.allocation st.env.controller.config.dataCenters
          st.env.now st.env.controller.config.model.timeoutSeconds
        return DemeterEnv.execute uniform (fun _ _ _ _ _ _ => metrics) st action ref fn i dc
      else some st
  | none => some st

/-- The loop of `step` over the actions. -/
def stepActions (env : DemeterEnv σ) (actions : List OrchestrationAction) : Option (StepState σ) :=
  actions.foldlM
    (stepAction uniform estimate (fnById env.controller.jobs)
      (dataCenterMap env.controller.config.dataCenters))
    ⟨env, 0, env.now⟩

/-- `step` raises if one of its estimates does. -/
def step (env : DemeterEnv σ) (actions : List OrchestrationAction) : Option (StepResult σ) :=
  (stepActions uniform estimate env actions).map DemeterEnv.finishStep

/-- One iteration: plan, then step. -/
def iterate (policy : RaisingPolicy ρ) (ep : DemeterEnv.Episode σ ρ) :
    Option (DemeterEnv.Episode σ ρ) := do
  let planned ← policy ep.policyState ep.obs
  let result ← step uniform estimate ep.env planned.1
  return { env := result.env, obs := result.obs, policyState := planned.2, done := result.done }

/-- The state after a number of iterations, without the test of the flag. -/
def iterates (policy : RaisingPolicy ρ) : ℕ → DemeterEnv.Episode σ ρ →
    Option (DemeterEnv.Episode σ ρ)
  | 0, ep => some ep
  | m + 1, ep => (iterates policy m ep).bind (iterate uniform estimate policy)

/-- The loop, cut off after `fuel` iterations. -/
def loop (policy : RaisingPolicy ρ) : ℕ → DemeterEnv.Episode σ ρ →
    Option (DemeterEnv.Episode σ ρ)
  | 0, ep => some ep
  | fuel + 1, ep =>
      if ep.done then some ep else (iterate uniform estimate policy ep).bind (loop policy fuel)

end Simulator

/-! ### Planning returns -/

theorem Returns.eq_some {estimate : RaisingEstimator} {allocations : List AllocationType}
    {fn : FunctionSpec} (h : Returns estimate allocations fn) {a : AllocationType}
    (ha : a ∈ allocations) (dc : DataCenter) (dcs : List DataCenter) (now timeoutSeconds : ℚ) :
    estimate fn dc a dcs now timeoutSeconds =
      some (estimate.total fn dc a dcs now timeoutSeconds) := by
  obtain ⟨metrics, hm⟩ := Option.isSome_iff_exists.1 (h a ha dc dcs now timeoutSeconds)
  rw [RaisingEstimator.total, hm, Option.getD_some]

section Planning

variable {ρ : Type} {estimate : RaisingEstimator} {allocations : List AllocationType}
  (memoryLossFactor : ℚ) {obs : Observation} {fn : FunctionSpec}

theorem greedyAction_eq_some (h : Returns estimate allocations fn) :
    greedyAction estimate allocations memoryLossFactor obs fn =
      some (Marl.greedyAction estimate.total allocations memoryLossFactor obs fn) := by
  have hfold : (greedyChoices allocations obs fn).foldlM
      (greedyImprove estimate memoryLossFactor obs fn) none =
        some ((greedyChoices allocations obs fn).foldl
          (Marl.greedyImprove estimate.total memoryLossFactor obs fn) none) := by
    refine foldlM_eq_some (fun _ => True) (fun best choice hchoice _ => ⟨?_, trivial⟩) trivial
    obtain ⟨dc, -, hchoice⟩ := List.mem_flatMap.1 hchoice
    obtain ⟨a, ha, rfl⟩ := List.mem_map.1 hchoice
    by_cases hv : validAllocation fn a memoryLossFactor
    · simp [greedyImprove, Marl.greedyImprove, hv, h.eq_some ha]
    · simp [greedyImprove, Marl.greedyImprove, hv]
  rw [greedyAction, hfold]
  rfl

/-- The posterior total is positive and the chosen data center is in the dictionary. -/
theorem heuristicAction_eq_some (h : Returns estimate allocations fn) :
    heuristicAction estimate allocations memoryLossFactor obs fn =
      some (Marl.heuristicAction estimate.total allocations memoryLossFactor obs fn) := by
  rw [heuristicAction, Marl.heuristicAction]
  cases hbest : (affinities obs fn).entries.argmax (·.2) with
  | none => rfl
  | some best =>
    have hmem := List.argmax_mem hbest
    obtain ⟨dc, hdc, hname⟩ := mem_keys_affinities.1 (List.mem_map.2 ⟨best, hmem, rfl⟩)
    obtain ⟨dc', hdc'⟩ := exists_dcByName (mem_candidates.1 hdc).1
    rw [hname] at hdc'
    have hpos := posteriorTotal_pos (List.ne_nil_of_mem hmem)
    have hfold : allocations.foldlM (heuristicImprove estimate memoryLossFactor obs fn dc'
        (max best.2 (1 / 1000000000) / posteriorTotal (affinities obs fn))) none =
          some (allocations.foldl (Marl.heuristicImprove estimate.total memoryLossFactor obs fn dc'
            (max best.2 (1 / 1000000000) / posteriorTotal (affinities obs fn))) none) := by
      refine foldlM_eq_some (fun _ => True) (fun alloc a ha _ => ⟨?_, trivial⟩) trivial
      by_cases hv : validAllocation fn a memoryLossFactor
      · simp [heuristicImprove, Marl.heuristicImprove, hv, h.eq_some ha]
      · simp [heuristicImprove, Marl.heuristicImprove, hv]
    simp only [if_neg hpos.ne', Option.bind_eq_bind, Option.bind_some, hdc', hfold]
    cases allocations.foldl (Marl.heuristicImprove estimate.total memoryLossFactor obs fn dc'
      (max best.2 (1 / 1000000000) / posteriorTotal (affinities obs fn))) none <;> rfl

theorem pheromoneAction_eq_some (hne : allocations ≠ []) :
    pheromoneAction allocations obs fn = some (Marl.pheromoneAction allocations obs fn) := by
  rw [pheromoneAction, if_neg fun h => hne h.2]

theorem reduceOption_map {α β : Type*} (act : α → Option β) (l : List α) :
    (l.map act).reduceOption = l.filterMap act := by
  show (l.map act).filterMap id = l.filterMap act
  rw [List.filterMap_map, Function.id_comp]

/-- Planning returns when the estimates do, some allocation is configured and no load counter is
negative. -/
theorem policy_eq_some (choice : ρ → ℕ → ℕ × ρ) {config : DemeterConfig} (n : PolicyName) (r : ρ)
    (hest : ∀ fn ∈ obs.allPendingFunctions, Returns estimate config.allocations fn)
    (hne : obs.allPendingFunctions ≠ [] → config.allocations ≠ [])
    (hload : ∀ dc ∈ obs.dataCenters, 0 ≤ dc.runningFunctions) :
    policy estimate choice config n r obs =
      some (Marl.policy estimate.total choice config n r obs) := by
  have greedy : greedyCostPolicy estimate config.allocations config.runtime.memoryLossFactor r obs =
      some (Marl.greedyCostPolicy estimate.total config.allocations
        config.runtime.memoryLossFactor r obs) := by
    rw [greedyCostPolicy, mapM_eq_some fun fn hfn => greedyAction_eq_some _ (hest fn hfn),
      Option.bind_eq_bind, Option.bind_some, reduceOption_map]
    rfl
  cases n with
  | demeter =>
    rw [policy, demeterHeuristicPolicy]
    split_ifs with hnil hzero
    · simp [Marl.policy, Marl.demeterHeuristicPolicy, hnil]
    · obtain ⟨dc, hdc, hz⟩ := hzero
      exact absurd hz (one_add_running_pos (hload dc hdc)).ne'
    · rw [mapM_eq_some fun fn hfn => heuristicAction_eq_some _ (hest fn hfn),
        Option.bind_eq_bind, Option.bind_some, reduceOption_map]
      rfl
  | pheromone =>
    rw [policy, pheromonePolicy, mapM_eq_some fun fn hfn =>
      pheromoneAction_eq_some (hne (List.ne_nil_of_mem hfn)), Option.bind_eq_bind,
      Option.bind_some, reduceOption_map]
    rfl
  | astrea => exact greedy
  | aquatope => exact greedy
  | greedy => exact greedy
  | random => rfl

end Planning

/-- Every planned allocation is a configured one. -/
theorem allocation_mem_of_mem_policy {ρ : Type} {estimate : Estimator} {choice : ρ → ℕ → ℕ × ρ}
    {config : DemeterConfig} {n : PolicyName} {r : ρ} {obs : Observation}
    {action : OrchestrationAction} (h : action ∈ (Marl.policy estimate choice config n r obs).1) :
    action.allocation ∈ config.allocations := by
  have greedy : action ∈ (Marl.greedyCostPolicy estimate config.allocations
      config.runtime.memoryLossFactor r obs).1 → action.allocation ∈ config.allocations := by
    intro h
    obtain ⟨fn, -, h⟩ := List.mem_filterMap.1 h
    exact (greedyAction_places estimate _ _ obs h).1.2.2
  cases n with
  | demeter =>
    obtain ⟨fn, -, h⟩ := List.mem_filterMap.1 ((List.perm_insertionSort _ _).mem_iff.1 h)
    exact (heuristicAction_places estimate _ _ obs h).1.2.2
  | pheromone =>
    obtain ⟨fn, -, h⟩ := List.mem_filterMap.1 h
    exact (pheromoneAction_places _ obs h).1.2.2
  | astrea => exact greedy h
  | aquatope => exact greedy h
  | greedy => exact greedy h
  | random =>
    obtain ⟨-, hmem⟩ :=
      foldl_randomAction_places obs config.allocations choice obs.allPendingFunctions ([], r)
    obtain hnil | ⟨fn, -, hplaces, -⟩ := hmem action h
    · cases hnil
    · exact hplaces.2.2

/-! ### Steps return -/

/-- No compute time of a registered function with one of the allocations raises. -/
def Estimable (ops : FloatOps) (allocations : List AllocationType) (c : DemeterController) : Prop :=
  ∀ fn ∈ allFunctions c.jobs, ∀ a ∈ allocations, (estimateComputeTime ops fn a).isSome

namespace Estimable

variable {ops : FloatOps} {allocations : List AllocationType} {c c' : DemeterController}

/-- A compute time depends on what no step changes. -/
theorem same (hc : Estimable ops allocations c) (h : SameWorkload c c') :
    Estimable ops allocations c' := by
  intro fn' hfn' a ha
  obtain ⟨ref, href⟩ := mem_allFunctions_iff.1 hfn'
  obtain ⟨fn, hfn, -, -, hinput, -, hmeta⟩ := h.exists_static href
  have heq : estimateComputeTime ops fn' a = estimateComputeTime ops fn a := by
    rw [estimateComputeTime, estimateComputeTime, hinput, hmeta]
  rw [heq]
  exact hc fn (mem_allFunctions_iff.2 ⟨ref, hfn⟩) a ha

theorem returns (hc : Estimable ops allocations c) {fn : FunctionSpec} {ref : FnRef}
    (hfn : getFn c.jobs ref = some fn) : Returns (estimateMetrics ops) allocations fn := by
  intro a ha dc dcs now timeoutSeconds
  obtain ⟨computeTime, hct⟩ :=
    Option.isSome_iff_exists.1 (hc fn (mem_allFunctions_iff.2 ⟨ref, hfn⟩) a ha)
  rw [estimateMetrics, hct]
  rfl

end Estimable

section Steps

variable {σ ρ : Type} {uniform : σ → ℚ × σ} {ops : FloatOps} {allocations : List AllocationType}

theorem stepAction_eq_some {st : StepState σ}
    (h : Estimable ops allocations st.env.controller) (refs : Dict String FnRef)
    (dcs : Dict String ℕ) {action : OrchestrationAction} (ha : action.allocation ∈ allocations) :
    stepAction uniform (estimateMetrics ops) refs dcs st action =
      some (DemeterEnv.stepAction uniform (estimateMetrics ops).total refs dcs st action) := by
  rw [stepAction, DemeterEnv.stepAction]
  cases hr : DemeterController.resolve refs dcs st.env.controller action with
  | none => rfl
  | some r =>
    obtain ⟨ref, fn, i, dc⟩ := r
    obtain ⟨-, hfn, -⟩ := DemeterController.resolve_eq_some_iff.1 hr
    simp only
    split_ifs
    · rw [(h.returns hfn).eq_some ha, Option.bind_eq_bind, Option.bind_some]
      rfl
    · rfl

theorem step_eq_some {env : DemeterEnv σ} (h : Estimable ops allocations env.controller)
    {actions : List OrchestrationAction}
    (ha : ∀ action ∈ actions, action.allocation ∈ allocations) :
    step uniform (estimateMetrics ops) env actions =
      some (env.step uniform (estimateMetrics ops).total actions) := by
  rw [step, stepActions]
  rw [foldlM_eq_some (fun st : StepState σ => Estimable ops allocations st.env.controller)
    (fun st action haction hst => ⟨stepAction_eq_some hst _ _ (ha action haction),
      hst.same (DemeterEnv.sameWorkload_stepAction _ _ st action)⟩) h]
  rfl

end Steps

/-! ### The loop -/

section Loop

open DemeterEnv Episode

variable {σ ρ : Type} {uniform : σ → ℚ × σ} {ops : FloatOps} {choice : ρ → ℕ → ℕ × ρ}
  {config : DemeterConfig} {n : PolicyName} {ep : Episode σ ρ}

/-- What holds between two iterations. -/
structure Sound (ops : FloatOps) (config : DemeterConfig) (n : PolicyName) (ep : Episode σ ρ) :
    Prop where
  ready : Ready config.allocations (n.memoryLossFactor config) ep
  estimable : Estimable ops config.allocations ep.env.controller

theorem sound_start {profiles : List RawProfile}
    (hw : Workload config.allocations (n.memoryLossFactor config) (registerAll config profiles))
    (hc : ∀ dc ∈ config.dataCenters, 0 ≤ dc.runningFunctions)
    (he : Estimable ops config.allocations (registerAll config profiles)) (random : σ) (r : ρ) :
    Sound ops config n (start config profiles random r) :=
  ⟨ready_start hw hc random r, he.same (SameWorkload.release _ 0)⟩

/-- One iteration returns what it does without exceptions. -/
theorem Sound.iterate_eq_some (h : Sound ops config n ep) :
    Raising.iterate uniform (estimateMetrics ops) (policy (estimateMetrics ops) choice config n)
        ep =
      some (Episode.iterate uniform (estimateMetrics ops).total
        (Marl.policy (estimateMetrics ops).total choice config n) ep) := by
  have hplan : policy (estimateMetrics ops) choice config n ep.policyState ep.obs =
      some (Marl.policy (estimateMetrics ops).total choice config n ep.policyState ep.obs) := by
    rw [h.ready.obs]
    refine policy_eq_some choice n _ (fun fn hfn => ?_) (fun hne => ?_) h.ready.env.counters
    · obtain ⟨ref, href, -⟩ := mem_allPendingFunctions hfn
      exact h.estimable.returns href
    · obtain ⟨fn, hfn⟩ := List.exists_mem_of_ne_nil _ hne
      obtain ⟨ref, href, -⟩ := mem_allPendingFunctions hfn
      obtain ⟨a, ha, -⟩ := h.ready.env.workload.allocation href
      exact List.ne_nil_of_mem ha
  rw [Raising.iterate, hplan, Option.bind_eq_bind, Option.bind_some,
    step_eq_some h.estimable fun action => allocation_mem_of_mem_policy]
  rfl

theorem Sound.iterate (h : Sound ops config n ep) (policy : Policy ρ) :
    Sound ops config n (Episode.iterate uniform (estimateMetrics ops).total policy ep) :=
  ⟨h.ready.iterate policy, h.estimable.same (sameWorkload_step _ _)⟩

theorem Sound.iterates (uniform : σ → ℚ × σ) (choice : ρ → ℕ → ℕ × ρ) (h : Sound ops config n ep)
    (m : ℕ) :
    ∃ ep', Raising.iterates uniform (estimateMetrics ops)
      (policy (estimateMetrics ops) choice config n) m ep = some ep' ∧ Sound ops config n ep' := by
  induction m with
  | zero => exact ⟨ep, rfl, h⟩
  | succ m ih =>
    obtain ⟨ep', hep', hs⟩ := ih
    exact ⟨_, by rw [Raising.iterates, hep', Option.bind_some, hs.iterate_eq_some], hs.iterate _⟩

theorem Sound.loop_eq_some (h : Sound ops config n ep) (fuel : ℕ) :
    Raising.loop uniform (estimateMetrics ops) (policy (estimateMetrics ops) choice config n) fuel
        ep =
      some (Episode.loop uniform (estimateMetrics ops).total
        (Marl.policy (estimateMetrics ops).total choice config n) fuel ep) := by
  induction fuel generalizing ep with
  | zero => rfl
  | succ fuel ih =>
    rw [Raising.loop, Episode.loop]
    split_ifs
    · rfl
    · rw [h.iterate_eq_some, Option.bind_some, ih (h.iterate _)]

end Loop

/-! ### Sample runs -/

section Samples

open DemeterEnv Episode

/-- A single job whose predecessors have smaller ranks, and whose functions fit somewhere. -/
theorem workload_singleton {config : DemeterConfig} {raw : RawProfile} {memoryLossFactor : ℚ}
    (hwave : 1 ≤ config.runtime.maxWaveSize) (hne : (buildJob raw).functions.values ≠ [])
    (husable : ∀ fn ∈ (buildJob raw).functions.values, candidates config.dataCenters fn ≠ [] ∧
      ∃ a ∈ config.allocations, validAllocation fn a memoryLossFactor)
    (rank : String → ℕ)
    (hrank : ∀ e ∈ (buildJob raw).functions.entries, ∀ p ∈ e.2.predecessors, rank p < rank e.1) :
    Workload config.allocations memoryLossFactor (registerAll config [raw]) := by
  have get : ∀ {k job}, (registerAll config [raw]).jobs.get? k = some job →
      k = raw.jobId ∧ job = buildJob raw := by
    intro k job h
    rw [registerAll, List.foldl_cons, List.foldl_nil, DemeterController.registerJob,
      Dict.get?_set, jobId_buildJob] at h
    split_ifs at h with hk
    · exact ⟨hk, (Option.some.inj h).symm⟩
    · cases h
  have only : ∀ job ∈ (registerAll config [raw]).jobs.values, job = buildJob raw := by
    intro job hjob
    obtain ⟨k, hk⟩ := Dict.mem_values_iff.1 hjob
    exact (get hk).2
  have place : ∀ {ref fn}, getFn (registerAll config [raw]).jobs ref = some fn →
      ref.1 = raw.jobId ∧ (buildJob raw).functions.get? ref.2 = some fn := by
    intro ref fn h
    obtain ⟨job, hjob, hfn⟩ := getFn_eq_some_iff.1 h
    exact ⟨(get hjob).1, (get hjob).2 ▸ hfn⟩
  refine ⟨hwave, fun job hjob => only job hjob ▸ hne, fun {ref ref' fn fn'} hfn hfn' hid => ?_,
    fun job hjob k => ?_, fun hfn => ?_, fun hfn => ?_⟩
  · obtain ⟨hj, hk⟩ := place hfn
    obtain ⟨hj', hk'⟩ := place hfn'
    have keyed := (expanded_buildJob raw).keyed hk
    rw [hid, (expanded_buildJob raw).keyed hk'] at keyed
    exact Prod.ext (hj.trans hj'.symm) keyed.symm
  · rw [only job hjob]
    refine acyclic_of_rank rank ?_ k
    rintro p q ⟨fn, hfn, hp⟩
    exact hrank (q, fn) (Dict.mem_entries_iff.2 hfn) p hp
  · exact (husable _ (Dict.mem_values_of_get? (place hfn).2)).1
  · exact (husable _ (Dict.mem_values_of_get? (place hfn).2)).2

/-- Square roots and powers of one, and powers below one that underflow. -/
def Sample.floatOps : FloatOps where
  sqrt x := some x
  pow x y := some (if x < 1 ∧ 400 ≤ y then 0 else x)
  mul x y := x * y

/-- The scan comes before the aggregation. -/
def Sample.rank (k : String) : ℕ := if k = functionId "job-0" "scan" 0 then 0 else 1

/-- A tenth of a core, for a job whose time depends on the cores to the 400th power. -/
def Sample.smallConfig : DemeterConfig :=
  { Marl.Sample.config with
    allocations := [{ name := "tenth", cpuCores := 1 / 10, memoryMb := 1024 }] }

/-- Its time depends on the cores to the 400th power. -/
def Sample.sensitiveProfile : RawProfile where
  jobId := "job-0"
  stages := [{ id := "scan", metadata := some (.ofList [("cpu_sensitivity", 400)]) }]

end Samples

end Raising

end Demeter.Marl
