import Mathlib.Data.List.MinMax
import Demeter.Marl.Cost

/-!
# Policies

`MARL/policy.py`: the random, Pheromone, greedy and Demeter heuristic policies.  A policy maps an
observation to a list of actions; a state `ρ` carries the random generator of the random policy.

With non-negative load counters every denominator of this file is positive (`one_add_running_pos`,
`posteriorTotal_pos`).  The estimator is total here; the exceptions that an estimate can raise are
the subject of `Marl/Raising.lean`.
-/

namespace Demeter.Marl

/-- A policy, with the state of its random generator. -/
abbrev Policy (ρ : Type) := ρ → Observation → List OrchestrationAction × ρ

/-- The data centers a function may run in. -/
def candidates (dcs : List DataCenter) (fn : FunctionSpec) : List DataCenter :=
  dcs.filter fun dc => fn.candidateDcs = [] ∨ dc.name ∈ fn.candidateDcs

/-! ### The random policy -/

/-- `choice r n` draws an index for a list of length `n`; it is reduced modulo `n`. -/
def randomAction {ρ : Type} (choice : ρ → ℕ → ℕ × ρ) (allocations : List AllocationType)
    (obs : Observation) (acc : List OrchestrationAction × ρ) (fn : FunctionSpec) :
    List OrchestrationAction × ρ :=
  let cands := candidates obs.dataCenters fn
  let valid := allocations.filter fun a => validAllocation fn a
  if cands = [] ∨ valid = [] then acc
  else
    let i := choice acc.2 cands.length
    let j := choice i.2 valid.length
    match cands[i.1 % cands.length]?, valid[j.1 % valid.length]? with
    | some dc, some a =>
        (acc.1 ++ [{ functionId := fn.functionId, dcName := dc.name, allocation := a }], j.2)
    | _, _ => (acc.1, j.2)

/-- A random candidate and a random valid allocation for each function. -/
def randomPolicy {ρ : Type} (choice : ρ → ℕ → ℕ × ρ) (allocations : List AllocationType) :
    Policy ρ := fun r obs =>
  obs.allPendingFunctions.foldl (randomAction choice allocations obs) ([], r)

/-! ### The Pheromone policy -/

/-- The order in which the Pheromone policy tries the allocations. -/
def smallerFirst (a b : AllocationType) : Prop :=
  a.memoryMb < b.memoryMb ∨ (a.memoryMb = b.memoryMb ∧ a.cpuCores ≤ b.cpuCores)

instance : DecidableRel smallerFirst := fun _ _ => inferInstanceAs (Decidable (_ ∨ _))

/-- The allocation that the Pheromone policy takes: the first valid one of the sorted list, or the
last one. -/
def pheromoneAllocation (allocations : List AllocationType) (fn : FunctionSpec) :
    Option AllocationType :=
  ((allocations.insertionSort smallerFirst).find? fun a => validAllocation fn a).or
    (allocations.insertionSort smallerFirst).getLast?

/-- It finds one in a list that is not empty. -/
theorem exists_pheromoneAllocation {allocations : List AllocationType} (h : allocations ≠ [])
    (fn : FunctionSpec) : ∃ a, pheromoneAllocation allocations fn = some a := by
  have hne : allocations.insertionSort smallerFirst ≠ [] := by
    intro hnil
    exact h (List.length_eq_zero_iff.1 (by
      rw [← List.length_insertionSort smallerFirst, hnil, List.length_nil]))
  rw [← Option.isSome_iff_exists, pheromoneAllocation, Option.isSome_or, Bool.or_eq_true]
  exact Or.inr (by rw [List.getLast?_eq_some_getLast hne, Option.isSome_some])

/-- The action for one function: the data center holding most of its input. -/
def pheromoneAction (allocations : List AllocationType) (obs : Observation) (fn : FunctionSpec) :
    Option OrchestrationAction :=
  let names :=
    if fn.candidateDcs = [] then (dataCenterMap obs.dataCenters).keys else fn.candidateDcs
  let cands := names.filterMap (dcByName obs.dataCenters)
  match cands.argmax fun dc => (fn.sourceDcs.get? dc.name).getD 0,
      pheromoneAllocation allocations fn with
  | some dc, some a => some { functionId := fn.functionId, dcName := dc.name, allocation := a }
  | _, _ => none

/-- `PheromonePolicy.plan`. -/
def pheromonePolicy {ρ : Type} (allocations : List AllocationType) : Policy ρ := fun r obs =>
  (obs.allPendingFunctions.filterMap (pheromoneAction allocations obs), r)

/-! ### The greedy policy -/

/-- Keep the better of the best choice so far and one more choice. -/
def greedyImprove (estimate : Estimator) (memoryLossFactor : ℚ) (obs : Observation)
    (fn : FunctionSpec) (best : Option (ℚ × String × AllocationType))
    (choice : DataCenter × AllocationType) : Option (ℚ × String × AllocationType) :=
  if validAllocation fn choice.2 memoryLossFactor then
    let metrics := estimate fn choice.1 choice.2 obs.dataCenters obs.now 120
    let objective := metrics.totalCost + 1 / 1000 * metrics.duration
    match best with
    | none => some (objective, choice.1.name, choice.2)
    | some b => if objective < b.1 then some (objective, choice.1.name, choice.2) else some b
  else best

/-- The choices in the order of the two nested loops. -/
def greedyChoices (allocations : List AllocationType) (obs : Observation) (fn : FunctionSpec) :
    List (DataCenter × AllocationType) :=
  (candidates obs.dataCenters fn).flatMap fun dc => allocations.map (dc, ·)

/-- The cheapest of the choices for one function. -/
def greedyAction (estimate : Estimator) (allocations : List AllocationType)
    (memoryLossFactor : ℚ) (obs : Observation) (fn : FunctionSpec) : Option OrchestrationAction :=
  ((greedyChoices allocations obs fn).foldl
    (greedyImprove estimate memoryLossFactor obs fn) none).map fun best =>
      { functionId := fn.functionId
        dcName := best.2.1
        allocation := best.2.2
        allocationScore := -best.1 }

/-- `GreedyCostPolicy.plan`. -/
def greedyCostPolicy {ρ : Type} (estimate : Estimator) (allocations : List AllocationType)
    (memoryLossFactor : ℚ) : Policy ρ := fun r obs =>
  (obs.allPendingFunctions.filterMap (greedyAction estimate allocations memoryLossFactor obs), r)

/-! ### The Demeter heuristic policy -/

/-- The normalized priors: less loaded data centers with warm containers are preferred. -/
def priors (dcs : List DataCenter) : Dict String ℚ :=
  let raw : Dict String ℚ := .ofList <| dcs.map fun dc =>
    (dc.name, (1 + dc.warmContainers + dc.availableExecutors) / (1 + dc.runningFunctions))
  let priorSum := if raw.values.sum = 0 then 1 else raw.values.sum
  raw.mapVals fun _ v => v / priorSum

/-- The affinity of a function for a data center. -/
def affinity (prior : Dict String ℚ) (fn : FunctionSpec) (dc : DataCenter) : ℚ :=
  let localityMb := (fn.sourceDcs.get? dc.name).getD 0
  let remoteMb := max (fn.sourceDcs.values.sum - localityMb) 0
  let bwPenalty := (fn.sourceDcs.entries.map fun e =>
    if e.1 = dc.name then 0 else divBandwidth e.2 (dc.bandwidthTo e.1)).sum
  let loadPenalty : ℚ :=
    dc.runningFunctions / (max (dc.availableExecutors + dc.runningFunctions) 1 : ℤ)
  let warmBonus : ℚ := if dc.warmContainers > 0 then 15 / 100 else 0
  (1 + localityMb / max fn.inputMb 1 - 25 / 100 * remoteMb / max fn.inputMb 1
    - 35 / 100 * bwPenalty - 2 / 10 * loadPenalty + warmBonus)
    * (prior.get? dc.name).getD (1 / 1000000)

/-- The affinity of the function for each candidate. -/
def affinities (obs : Observation) (fn : FunctionSpec) : Dict String ℚ :=
  .ofList <| (candidates obs.dataCenters fn).map fun dc =>
    (dc.name, affinity (priors obs.dataCenters) fn dc)

/-- The denominator of the posterior. -/
def posteriorTotal (aff : Dict String ℚ) : ℚ := (aff.values.map (max · (1 / 1000000000))).sum

/-- Keep the better of the best allocation so far and one more allocation. -/
def heuristicImprove (estimate : Estimator) (memoryLossFactor : ℚ) (obs : Observation)
    (fn : FunctionSpec) (dc : DataCenter) (posterior : ℚ) (best : Option (ℚ × AllocationType))
    (alloc : AllocationType) : Option (ℚ × AllocationType) :=
  if validAllocation fn alloc memoryLossFactor then
    let metrics := estimate fn dc alloc obs.dataCenters obs.now 120
    let urgency := 1 - posterior
    let score := -metrics.totalCost - 5 / 10000 * metrics.duration
      + urgency * alloc.cpuCores * (1 / 100000)
    match best with
    | none => some (score, alloc)
    | some b => if score > b.1 then some (score, alloc) else some b
  else best

/-- The action for one function: the data center of largest affinity, then the valid allocation
of largest score there. -/
def heuristicAction (estimate : Estimator) (allocations : List AllocationType)
    (memoryLossFactor : ℚ) (obs : Observation) (fn : FunctionSpec) :
    Option OrchestrationAction := do
  let aff := affinities obs fn
  let best ← aff.entries.argmax (·.2)
  let posterior := max best.2 (1 / 1000000000) / posteriorTotal aff
  let dc ← dcByName obs.dataCenters best.1
  let alloc ← allocations.foldl
    (heuristicImprove estimate memoryLossFactor obs fn dc posterior) none
  return {
    functionId := fn.functionId
    dcName := best.1
    allocation := alloc.2
    posterior := posterior
    allocationScore := alloc.1 }

/-- Increasing posterior, then decreasing number of cores. -/
def actionLe (a b : OrchestrationAction) : Prop :=
  a.posterior < b.posterior ∨
    (a.posterior = b.posterior ∧ -a.allocation.cpuCores ≤ -b.allocation.cpuCores)

instance : DecidableRel actionLe := fun _ _ => inferInstanceAs (Decidable (_ ∨ _))

/-- `DemeterHeuristicPolicy.plan`. -/
def demeterHeuristicPolicy {ρ : Type} (estimate : Estimator) (allocations : List AllocationType)
    (memoryLossFactor : ℚ) : Policy ρ := fun r obs =>
  ((obs.allPendingFunctions.filterMap
    (heuristicAction estimate allocations memoryLossFactor obs)).insertionSort actionLe, r)

/-! ### The policies of the command line -/

/-- The policies of the command line. -/
inductive PolicyName
  | demeter
  | pheromone
  | astrea
  | aquatope
  | greedy
  | random
  deriving DecidableEq

/-- The policy of a name; two of the baselines are the greedy policy. -/
def policy {ρ : Type} (estimate : Estimator) (choice : ρ → ℕ → ℕ × ρ) (config : DemeterConfig) :
    PolicyName → Policy ρ
  | .demeter =>
      demeterHeuristicPolicy estimate config.allocations config.runtime.memoryLossFactor
  | .pheromone => pheromonePolicy config.allocations
  | .astrea | .aquatope | .greedy =>
      greedyCostPolicy estimate config.allocations config.runtime.memoryLossFactor
  | .random => randomPolicy choice config.allocations

/-- The factor by which a policy judges allocations; two of them keep the default. -/
def PolicyName.memoryLossFactor (config : DemeterConfig) : PolicyName → ℚ
  | .demeter | .astrea | .aquatope | .greedy => config.runtime.memoryLossFactor
  | .pheromone | .random => 8 / 10

/-! ### Denominators -/

theorem one_add_running_pos {dc : DataCenter} (h : 0 ≤ dc.runningFunctions) :
    (0 : ℚ) < 1 + dc.runningFunctions := by
  have : (0 : ℚ) ≤ dc.runningFunctions := by exact_mod_cast h
  linarith

theorem posteriorTotal_pos {aff : Dict String ℚ} (h : aff.entries ≠ []) :
    0 < posteriorTotal aff := by
  unfold posteriorTotal
  refine List.sum_pos _ ?_ (by simpa [Dict.values] using h)
  intro x hx
  obtain ⟨v, -, rfl⟩ := List.mem_map.1 hx
  exact lt_max_of_lt_right (by norm_num)

end Demeter.Marl
