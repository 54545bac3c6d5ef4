import Mathlib.Data.Prod.Lex
import Demeter.Marl.LivePolicy

/-!
# The plan of the heuristic policy

`DemeterHeuristicPolicy.plan` makes one action for every pending function that can be placed: at
the data center of largest affinity, with the valid allocation of largest score there.

* `BestAction`: what is promised of the action of a function, and `HeuristicPlan` of a whole plan;
* `heuristicPlan_demeterHeuristicPolicy`: the policy keeps the promise in every observation with
  distinct names and non-negative counters.
-/

namespace Demeter.Marl

/-- The pending function of an id: the first one that is listed. -/
def Observation.pendingFunction (obs : Observation) (id : String) : Option FunctionSpec :=
  obs.pendingByDc.values.flatten.find? (·.functionId = id)

theorem Observation.mem_allPendingFunctions_iff {obs : Observation} {fn : FunctionSpec} :
    fn ∈ obs.allPendingFunctions ↔ obs.pendingFunction fn.functionId = some fn := by
  rw [allPendingFunctions, mem_dedupById_iff]
  exact and_iff_right (List.not_mem_nil)

theorem Observation.functionId_of_pendingFunction {obs : Observation} {id : String}
    {fn : FunctionSpec} (h : obs.pendingFunction id = some fn) : fn.functionId = id := by
  simpa using List.find?_some h

/-- The observations of the policy: data centers have distinct names and count from zero. -/
structure Observation.WellFormed (obs : Observation) : Prop where
  names : (obs.dataCenters.map (·.name)).Nodup
  running : ∀ dc ∈ obs.dataCenters, 0 ≤ dc.runningFunctions
  warm : ∀ dc ∈ obs.dataCenters, 0 ≤ dc.warmContainers
  available : ∀ dc ∈ obs.dataCenters, 0 ≤ dc.availableExecutors

variable (estimate : Estimator) (allocations : List AllocationType) (memoryLossFactor : ℚ)

/-- What is promised of the action for a function. -/
structure BestAction (obs : Observation) (fn : FunctionSpec) (dc : DataCenter)
    (action : OrchestrationAction) : Prop where
  functionId : action.functionId = fn.functionId
  dcName : action.dcName = dc.name
  candidate : dc ∈ candidates obs.dataCenters fn
  affinity : ∀ dc' ∈ candidates obs.dataCenters fn,
    affinity (priors obs.dataCenters) fn dc' ≤ affinity (priors obs.dataCenters) fn dc
  allocation : action.allocation ∈ allocations
  valid : validAllocation fn action.allocation memoryLossFactor
  score : ∀ a ∈ allocations, validAllocation fn a memoryLossFactor →
    score estimate obs fn dc action.posterior a ≤
      score estimate obs fn dc action.posterior action.allocation
  pos : 0 < action.posterior
  le_one : action.posterior ≤ 1

/-- What is promised of a plan. -/
structure HeuristicPlan (obs : Observation) (plan : List OrchestrationAction) : Prop where
  best : ∀ action ∈ plan, ∃ fn dc, obs.pendingFunction action.functionId = some fn ∧
    BestAction estimate allocations memoryLossFactor obs fn dc action
  once : ∀ id fn, obs.pendingFunction id = some fn →
    Placeable allocations memoryLossFactor obs.dataCenters fn →
    plan.countP (·.functionId = id) = 1
  placeable : ∀ action ∈ plan, ∃ fn, obs.pendingFunction action.functionId = some fn ∧
    Placeable allocations memoryLossFactor obs.dataCenters fn
  sorted : plan.Pairwise fun a b => a.posterior < b.posterior ∨
    (a.posterior = b.posterior ∧ b.allocation.cpuCores ≤ a.allocation.cpuCores)

variable {estimate allocations memoryLossFactor}

/-! ### Observations with distinct names -/

theorem dcByName_of_mem {dcs : List DataCenter} (h : (dcs.map (·.name)).Nodup) {dc : DataCenter}
    (hdc : dc ∈ dcs) : dcByName dcs dc.name = some dc := by
  obtain ⟨i, hi⟩ := exists_dataCenterMap hdc
  obtain ⟨dc', hdc', hname⟩ := name_of_dataCenterMap hi
  rw [dcByName, hi, Option.bind_some, hdc',
    List.inj_on_of_nodup_map h (List.mem_of_getElem? hdc') hdc hname]

theorem entries_affinities {obs : Observation} (h : (obs.dataCenters.map (·.name)).Nodup)
    (fn : FunctionSpec) :
    (affinities obs fn).entries = (candidates obs.dataCenters fn).map fun dc =>
      (dc.name, affinity (priors obs.dataCenters) fn dc) := by
  apply Dict.entries_ofList
  rw [List.map_map]
  exact (List.Sublist.map _ List.filter_sublist).nodup h

/-- A value that is summed up is at most the sum. -/
theorem max_le_posteriorTotal {aff : Dict String ℚ} {e : String × ℚ} (h : e ∈ aff.entries) :
    max e.2 (1 / 1000000000) ≤ posteriorTotal aff := by
  refine List.single_le_sum (fun x hx => ?_) _
    (List.mem_map.2 ⟨e.2, List.mem_map.2 ⟨e, h, rfl⟩, rfl⟩)
  obtain ⟨v, -, rfl⟩ := List.mem_map.1 hx
  exact le_max_of_le_right (by norm_num)

theorem bestAction_heuristicAction {obs : Observation} (h : (obs.dataCenters.map (·.name)).Nodup)
    {fn : FunctionSpec} {action : OrchestrationAction}
    (ha : heuristicAction estimate allocations memoryLossFactor obs fn = some action) :
    ∃ dc, BestAction estimate allocations memoryLossFactor obs fn dc action := by
  obtain ⟨best, dc, alloc, hbest, hdc, halloc, rfl⟩ := heuristicAction_eq_some_iff.1 ha
  rw [heuristicImprove_eq_keepBest] at halloc
  obtain ⟨hmem, hvalid, hscore, hmax⟩ := Best.foldl_keepBest_eq_some halloc
  have hin := List.argmax_mem hbest
  have htotal := posteriorTotal_pos (List.ne_nil_of_mem hin)
  have hle := max_le_posteriorTotal hin
  rw [entries_affinities h] at hin
  obtain ⟨dc', hcand, rfl⟩ := List.mem_map.1 hin
  rw [dcByName_of_mem h (mem_candidates.1 hcand).1, Option.some.injEq] at hdc
  subst hdc
  refine ⟨dc', rfl, rfl, hcand, fun dc hdc => ?_, hmem, hvalid, ?_, ?_, ?_⟩
  · have hentry : (dc.name, affinity (priors obs.dataCenters) fn dc) ∈
        (affinities obs fn).entries := by
      rw [entries_affinities h]
      exact List.mem_map.2 ⟨dc, hdc, rfl⟩
    exact List.le_of_mem_argmax (f := fun e : String × ℚ => e.2) hentry hbest
  · rw [← hscore]
    exact hmax
  · exact div_pos (lt_max_of_lt_right (by norm_num)) htotal
  · exact div_le_one_of_le₀ hle htotal.le

/-! ### The plan -/

theorem mem_demeterHeuristicPolicy {ρ : Type} {r : ρ} {obs : Observation}
    {action : OrchestrationAction} :
    action ∈ (demeterHeuristicPolicy estimate allocations memoryLossFactor r obs).1 ↔
      ∃ fn, obs.pendingFunction fn.functionId = some fn ∧
        heuristicAction estimate allocations memoryLossFactor obs fn = some action := by
  simp only [demeterHeuristicPolicy, (List.perm_insertionSort _ _).mem_iff, List.mem_filterMap,
    Observation.mem_allPendingFunctions_iff]

theorem functionId_of_heuristicAction {obs : Observation} {fn : FunctionSpec}
    {action : OrchestrationAction}
    (h : heuristicAction estimate allocations memoryLossFactor obs fn = some action) :
    action.functionId = fn.functionId := by
  obtain ⟨best, dc, alloc, -, -, -, rfl⟩ := heuristicAction_eq_some_iff.1 h
  rfl

/-- Actions that carry the ids of their functions, in the order of the functions. -/
theorem ids_filterMap_sublist {act : FunctionSpec → Option OrchestrationAction}
    (h : ∀ fn action, act fn = some action → action.functionId = fn.functionId)
    (fns : List FunctionSpec) :
    ((fns.filterMap act).map (·.functionId)).Sublist (fns.map (·.functionId)) := by
  induction fns with
  | nil => exact List.Sublist.slnil
  | cons fn fns ih =>
    rw [List.filterMap_cons, List.map_cons]
    cases hact : act fn with
    | none => exact ih.cons _
    | some action =>
      rw [List.map_cons, h fn action hact]
      exact ih.cons_cons _

/-- No two actions are for one function. -/
theorem nodup_demeterHeuristicPolicy {ρ : Type} (r : ρ) (obs : Observation) :
    ((demeterHeuristicPolicy estimate allocations memoryLossFactor r obs).1.map
      (·.functionId)).Nodup := by
  have hid : ∀ fn action, heuristicAction estimate allocations memoryLossFactor obs fn =
      some action → action.functionId = fn.functionId :=
    fun _ _ => functionId_of_heuristicAction
  have hids := ids_filterMap_sublist hid obs.allPendingFunctions
  exact ((List.perm_insertionSort _ _).map _).nodup_iff.2
    (hids.nodup (nodup_dedupById [] obs.pendingByDc.values.flatten))

theorem actionLe_iff {a b : OrchestrationAction} : actionLe a b ↔
    toLex (a.posterior, -a.allocation.cpuCores) ≤ toLex (b.posterior, -b.allocation.cpuCores) := by
  rw [actionLe, Prod.Lex.toLex_le_toLex]

instance : Std.Total actionLe where
  total a b := by
    rw [actionLe_iff, actionLe_iff]
    exact le_total _ _

instance : IsTrans OrchestrationAction actionLe where
  trans a b c := by
    rw [actionLe_iff, actionLe_iff, actionLe_iff]
    exact le_trans

variable (estimate allocations memoryLossFactor)

/-- **The plan of the heuristic policy.**  In a well-formed observation there is exactly one action
for every pending function that can be placed and none for any other, each is the best one of its
function, and the list is in the promised order. -/
theorem heuristicPlan_demeterHeuristicPolicy {ρ : Type} (r : ρ) (obs : Observation)
    (h : obs.WellFormed) :
    HeuristicPlan estimate allocations memoryLossFactor obs
      (demeterHeuristicPolicy estimate allocations memoryLossFactor r obs).1 where
  best action haction := by
    obtain ⟨fn, hfn, hact⟩ := mem_demeterHeuristicPolicy.1 haction
    obtain ⟨dc, hdc⟩ := bestAction_heuristicAction h.names hact
    rw [functionId_of_heuristicAction hact]
    exact ⟨fn, dc, hfn, hdc⟩
  once id fn hfn hplace := by
    obtain ⟨action, hact⟩ := Option.isSome_iff_exists.1 (isSome_heuristicAction.2 hplace)
    have hid := Observation.functionId_of_pendingFunction hfn
    have hmem : action ∈ (demeterHeuristicPolicy estimate allocations memoryLossFactor r obs).1 :=
      mem_demeterHeuristicPolicy.2 ⟨fn, by rw [hid, hfn], hact⟩
    have hcount := List.count_eq_one_of_mem (nodup_demeterHeuristicPolicy r obs)
      (List.mem_map.2 ⟨action, hmem, functionId_of_heuristicAction hact⟩)
    rw [hid, List.count_eq_countP, List.countP_map] at hcount
    rw [← hcount]
    refine List.countP_congr fun a _ => ?_
    simp only [Function.comp_apply, beq_iff_eq, decide_eq_true_eq]
  placeable action haction := by
    obtain ⟨fn, hfn, hact⟩ := mem_demeterHeuristicPolicy.1 haction
    rw [functionId_of_heuristicAction hact]
    exact ⟨fn, hfn, isSome_heuristicAction.1 (by rw [hact]; rfl)⟩
  sorted := by
    have hsorted := List.pairwise_insertionSort actionLe (obs.allPendingFunctions.filterMap
      (heuristicAction estimate allocations memoryLossFactor obs))
    refine hsorted.imp fun {a b} hab => ?_
    exact hab.imp_right fun hcores => ⟨hcores.1, neg_le_neg_iff.1 hcores.2⟩

/-! ### An observation with remote input -/

namespace Sample

/-- An estimator that charges for the cores. -/
def costPerCore : Estimator := fun _ _ alloc _ _ _ =>
  { waitingTime := 0
    computeTime := 1
    transferTime := 0
    coldStartTime := 0
    duration := 1
    operatingCost := alloc.cpuCores
    transferCost := 0
    storageCost := 0 }

/-- One core and two gigabytes. -/
def largeAllocation : AllocationType := { name := "1c-2048m", cpuCores := 1, memoryMb := 2048 }

/-- A function whose input lies outside the observed data centers. -/
def remoteFunction : FunctionSpec where
  functionId := "job-0:scan:0"
  jobId := "job-0"
  stageId := "scan"
  functionType := "scan"
  inputMb := 1000
  status := .pending
  sourceDcs := .ofList [("virginia", 1000)]

/-- One function, with two data centers far from its input. -/
def remoteObservation : Observation where
  now := 0
  jobs := []
  dataCenters :=
    [{ name := "paris", nodeIp := "10.0.0.11", availableExecutors := 1 },
     { name := "tokyo", nodeIp := "10.0.0.12", availableExecutors := 2 }]
  pendingByDc := .ofList [("paris", [remoteFunction]), ("tokyo", [remoteFunction])]
  running := []

end Sample

theorem heuristicPlan_remoteObservation :
    HeuristicPlan Sample.costPerCore [Sample.largeAllocation] (8 / 10) Sample.remoteObservation
      (demeterHeuristicPolicy Sample.costPerCore [Sample.largeAllocation] (8 / 10) ()
        Sample.remoteObservation).1 :=
  heuristicPlan_demeterHeuristicPolicy _ _ _ () _
    ⟨by decide, by decide, by decide, by decide⟩

end Demeter.Marl
