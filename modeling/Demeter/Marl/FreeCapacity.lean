import Demeter.Marl.HeuristicPlan

/-!
# Free capacity

The heuristic policy multiplies a signed sum, the `fit` of a function to a data center, by the
normalized prior of the data center.  Idle executors and warm containers raise the prior, so they
attract a function with a positive fit and repel one with a negative fit.

* `argmax_affinities`: the normalization does not matter, the policy takes the first data center
  with the largest product of `fit` and `weight`;
* `addCapacity`: the observation with more capacity at one data center;
* `forall_leadsGrown_iff` is about executors: they relieve the load of a data center;
* `stays_iff` says for which functions no added capacity drives the function away from the data
  center that was chosen for it.
-/

namespace Demeter.Marl

/-! ### Data centers by name -/

/-- The last data center of a name counts. -/
theorem dcByName_eq_find? (dcs : List DataCenter) (n : String) :
    dcByName dcs n = dcs.reverse.find? (·.name = n) := by
  have hfst : dcs.reverse = dcs.zipIdx.reverse.map Prod.fst := by
    rw [List.map_reverse, List.zipIdx_map_fst]
  have hname : ((fun e : String × ℕ => decide (e.1 = n)) ∘ fun e : DataCenter × ℕ =>
      (e.1.name, e.2)) = (fun dc => decide (dc.name = n)) ∘ Prod.fst := rfl
  rw [dcByName, dataCenterMap, Dict.get?_ofList, ← List.map_reverse, List.find?_map,
    Option.map_map, hname, hfst, List.find?_map]
  cases h : dcs.zipIdx.reverse.find? ((fun dc => decide (dc.name = n)) ∘ Prod.fst) with
  | none => rfl
  | some e =>
    have hmem := List.mem_reverse.1 (List.mem_of_find?_eq_some h)
    exact List.mem_zipIdx_iff_getElem?.1 hmem

theorem get?_ofList_name {ν : Type*} (f : DataCenter → ν) (dcs : List DataCenter) (n : String) :
    (Dict.ofList (dcs.map fun dc => (dc.name, f dc))).get? n = (dcByName dcs n).map f := by
  rw [Dict.get?_ofList, ← List.map_reverse, List.find?_map, Option.map_map, dcByName_eq_find?]
  rfl

/-- A candidate is looked up among all data centers. -/
theorem dcByName_candidates {dcs : List DataCenter} {fn : FunctionSpec} {n : String}
    (h : fn.candidateDcs = [] ∨ n ∈ fn.candidateDcs) :
    dcByName (candidates dcs fn) n = dcByName dcs n := by
  rw [dcByName_eq_find?, dcByName_eq_find?, candidates, ← List.filter_reverse, List.find?_filter]
  congr 1
  funext dc
  by_cases hname : dc.name = n
  · simp [hname, h]
  · simp [hname]

/-! ### Fit and weight -/

/-- The signed sum in the affinity of a function for a data center. -/
def fit (fn : FunctionSpec) (dc : DataCenter) : ℚ :=
  let localityMb := (fn.sourceDcs.get? dc.name).getD 0
  let remoteMb := max (fn.sourceDcs.values.sum - localityMb) 0
  let bwPenalty := (fn.sourceDcs.entries.map fun e =>
    if e.1 = dc.name then 0 else divBandwidth e.2 (dc.bandwidthTo e.1)).sum
  let loadPenalty : ℚ :=
    dc.runningFunctions / (max (dc.availableExecutors + dc.runningFunctions) 1 : ℤ)
  let warmBonus : ℚ := if dc.warmContainers > 0 then 15 / 100 else 0
  1 + localityMb / max fn.inputMb 1 - 25 / 100 * remoteMb / max fn.inputMb 1
    - 35 / 100 * bwPenalty - 2 / 10 * loadPenalty + warmBonus

/-- The share of busy executors. -/
def load (dc : DataCenter) : ℚ :=
  dc.runningFunctions / (max (dc.availableExecutors + dc.runningFunctions) 1 : ℤ)

/-- The fit without the penalty for load. -/
def unloadedFit (fn : FunctionSpec) (dc : DataCenter) : ℚ := fit fn dc + 2 / 10 * load dc

/-- The prior of a data center before it is normalized. -/
def weight (dc : DataCenter) : ℚ :=
  (1 + dc.warmContainers + dc.availableExecutors) / (1 + dc.runningFunctions)

/-- The product of fit and weight at the data center of a name. -/
def pull (dcs : List DataCenter) (fn : FunctionSpec) (n : String) : ℚ :=
  ((dcByName dcs n).map fun dc => fit fn dc * weight dc).getD 0

/-- The names a function may be placed under. -/
def candidateNames (dcs : List DataCenter) (fn : FunctionSpec) : List String :=
  (dataCenterMap (candidates dcs fn)).keys

/-- The counters of an observation are counts. -/
structure Counts (dcs : List DataCenter) : Prop where
  running : ∀ dc ∈ dcs, 0 ≤ dc.runningFunctions
  warm : ∀ dc ∈ dcs, 0 ≤ dc.warmContainers
  available : ∀ dc ∈ dcs, 0 ≤ dc.availableExecutors

theorem Counts.weight_pos {dcs : List DataCenter} (h : Counts dcs) {dc : DataCenter}
    (hdc : dc ∈ dcs) : 0 < weight dc := by
  have hw : (0 : ℚ) ≤ dc.warmContainers := by exact_mod_cast h.warm dc hdc
  have ha : (0 : ℚ) ≤ dc.availableExecutors := by exact_mod_cast h.available dc hdc
  exact div_pos (by linarith) (one_add_running_pos (h.running dc hdc))

/-- The sum that normalizes the priors. -/
def priorSum (dcs : List DataCenter) : ℚ :=
  let sum := (Dict.ofList (dcs.map fun dc => (dc.name, weight dc))).values.sum
  if sum = 0 then 1 else sum

theorem get?_priors (dcs : List DataCenter) (n : String) :
    (priors dcs).get? n = (dcByName dcs n).map fun dc => weight dc / priorSum dcs := by
  rw [priors, Dict.get?_mapVals]
  have hget := get?_ofList_name weight dcs n
  simp only [weight] at hget
  rw [hget, Option.map_map]
  rfl

theorem Counts.priorSum_pos {dcs : List DataCenter} (h : Counts dcs) : 0 < priorSum dcs := by
  have hnonneg : 0 ≤ (Dict.ofList (dcs.map fun dc => (dc.name, weight dc))).values.sum := by
    refine List.sum_nonneg fun v hv => ?_
    obtain ⟨n, hn⟩ := Dict.mem_values_iff.1 hv
    obtain ⟨dc, hdc, heq⟩ := List.mem_map.1 (Dict.mem_of_get?_ofList hn)
    rw [← (Prod.mk.inj heq).2]
    exact (h.weight_pos hdc).le
  rw [priorSum]
  split_ifs with hzero
  · exact one_pos
  · exact lt_of_le_of_ne hnonneg (Ne.symm hzero)

theorem affinity_eq {dcs : List DataCenter} {n : String} {dc : DataCenter}
    (h : dcByName dcs n = some dc) (fn : FunctionSpec) :
    affinity (priors dcs) fn dc = fit fn dc * weight dc / priorSum dcs := by
  rw [affinity, name_of_dcByName h, get?_priors, h, Option.map_some, Option.getD_some,
    ← mul_div_assoc, fit, name_of_dcByName h]

/-! ### The chosen data center -/

theorem keys_affinities (obs : Observation) (fn : FunctionSpec) :
    (affinities obs fn).keys = candidateNames obs.dataCenters fn := by
  rw [affinities, candidateNames]
  exact keys_ofList_name _ _

theorem exists_dcByName_of_mem {dcs : List DataCenter} {fn : FunctionSpec} {n : String}
    (h : n ∈ candidateNames dcs fn) :
    ∃ dc, dcByName dcs n = some dc ∧ dcByName (candidates dcs fn) n = some dc := by
  obtain ⟨i, hi⟩ := Dict.mem_keys_iff.1 h
  obtain ⟨dc, hdc, hname⟩ := name_of_dataCenterMap hi
  have hfound : dcByName (candidates dcs fn) n = some dc := by
    rw [dcByName, hi, Option.bind_some, hdc]
  have hcand := (mem_candidates.1 (List.mem_of_getElem? hdc)).2
  rw [hname] at hcand
  exact ⟨dc, by rw [← dcByName_candidates hcand, hfound], hfound⟩

theorem get?_affinities {obs : Observation} {fn : FunctionSpec} {n : String}
    (h : n ∈ candidateNames obs.dataCenters fn) :
    (affinities obs fn).get? n =
      some (pull obs.dataCenters fn n / priorSum obs.dataCenters) := by
  obtain ⟨dc, hdc, hcand⟩ := exists_dcByName_of_mem h
  rw [affinities, get?_ofList_name, hcand, Option.map_some, affinity_eq hdc, pull, hdc,
    Option.map_some, Option.getD_some]

/-- The largest affinity belongs to the first name of largest pull. -/
theorem argmax_affinities {obs : Observation} (h : Counts obs.dataCenters) (fn : FunctionSpec) :
    (affinities obs fn).entries.argmax (·.2) =
      ((candidateNames obs.dataCenters fn).argmax (pull obs.dataCenters fn)).map fun n =>
        (n, pull obs.dataCenters fn n / priorSum obs.dataCenters) := by
  rw [Dict.entries_eq_map fun n hn => get?_affinities (keys_affinities obs fn ▸ hn),
    keys_affinities, Best.argmax_map]
  congr 1
  exact Best.argmax_congr fun a _ b _ => div_le_div_iff_of_pos_right h.priorSum_pos

section Chooses

variable (estimate : Estimator) (allocations : List AllocationType) (memoryLossFactor : ℚ)

/-- The plan places the function at the data center. -/
def Chooses (obs : Observation) (fn : FunctionSpec) (n : String) : Prop :=
  ∃ action ∈ (demeterHeuristicPolicy estimate allocations memoryLossFactor () obs).1,
    action.functionId = fn.functionId ∧ action.dcName = n

variable {estimate allocations memoryLossFactor}

theorem chooses_iff {obs : Observation} (h : Counts obs.dataCenters) {fn : FunctionSpec}
    (hfn : fn ∈ obs.allPendingFunctions) {n : String} :
    Chooses estimate allocations memoryLossFactor obs fn n ↔
      (∃ a ∈ allocations, validAllocation fn a memoryLossFactor) ∧
        (candidateNames obs.dataCenters fn).argmax (pull obs.dataCenters fn) = some n := by
  rw [Observation.mem_allPendingFunctions_iff] at hfn
  constructor
  · rintro ⟨action, hmem, hid, rfl⟩
    obtain ⟨fn', hfn', hact⟩ := mem_demeterHeuristicPolicy.1 hmem
    rw [← functionId_of_heuristicAction hact, hid, hfn, Option.some.injEq] at hfn'
    subst hfn'
    refine ⟨(isSome_heuristicAction.1 (Option.isSome_iff_exists.2 ⟨action, hact⟩)).2, ?_⟩
    obtain ⟨best, dc, alloc, hbest, -, -, rfl⟩ := heuristicAction_eq_some_iff.1 hact
    rw [argmax_affinities h, Option.map_eq_some_iff] at hbest
    obtain ⟨n, hn, rfl⟩ := hbest
    exact hn
  · rintro ⟨hvalid, hn⟩
    obtain ⟨dc, -, hdc⟩ := exists_dcByName_of_mem (List.argmax_mem hn)
    have hplace : Placeable allocations memoryLossFactor obs.dataCenters fn :=
      ⟨List.ne_nil_of_mem (mem_of_dcByName hdc), hvalid⟩
    have hsome : (heuristicAction estimate allocations memoryLossFactor obs fn).isSome :=
      isSome_heuristicAction.2 hplace
    obtain ⟨action, hact⟩ := Option.isSome_iff_exists.1 hsome
    refine ⟨action, mem_demeterHeuristicPolicy.2 ⟨fn, hfn, hact⟩,
      functionId_of_heuristicAction hact, ?_⟩
    obtain ⟨best, dc, alloc, hbest, -, -, rfl⟩ := heuristicAction_eq_some_iff.1 hact
    rw [argmax_affinities h, hn, Option.map_some, Option.some.injEq] at hbest
    rw [← hbest]

end Chooses

/-! ### More capacity -/

/-- A data center with more idle executors and more warm containers. -/
def grow (executors warm : ℕ) (dc : DataCenter) : DataCenter :=
  { dc with
    availableExecutors := dc.availableExecutors + executors
    warmContainers := dc.warmContainers + warm }

/-- More capacity at the data center of a name. -/
def growAt (n : String) (executors warm : ℕ) (dcs : List DataCenter) : List DataCenter :=
  ((dataCenterMap dcs).get? n).elim dcs fun i => dcs.modify i (grow executors warm)

/-- The observation with more free capacity in one data center. -/
def Observation.addCapacity (obs : Observation) (n : String) (executors warm : ℕ) : Observation :=
  { obs with dataCenters := growAt n executors warm obs.dataCenters }

theorem map_name_growAt (n : String) (executors warm : ℕ) (dcs : List DataCenter) :
    (growAt n executors warm dcs).map (·.name) = dcs.map (·.name) := by
  rw [growAt]
  cases (dataCenterMap dcs).get? n with
  | none => rfl
  | some i =>
    refine List.ext_getElem? fun j => ?_
    rw [Option.elim_some, List.getElem?_map, List.getElem?_map, List.getElem?_modify]
    split_ifs <;> cases dcs[j]? <;> rfl

theorem dcByName_growAt (n m : String) (executors warm : ℕ) (dcs : List DataCenter) :
    dcByName (growAt n executors warm dcs) m =
      if m = n then (dcByName dcs n).map (grow executors warm) else dcByName dcs m := by
  rw [dcByName, dataCenterMap_congr (map_name_growAt n executors warm dcs), growAt]
  cases hn : (dataCenterMap dcs).get? n with
  | none =>
    rw [Option.elim_none]
    split_ifs with hmn
    · rw [hmn, hn, dcByName, hn]
      rfl
    · rfl
  | some i =>
    rw [Option.elim_some]
    split_ifs with hmn
    · rw [hmn, hn, dcByName, hn, Option.bind_some, Option.bind_some, List.getElem?_modify]
      simp
    · rw [dcByName]
      cases hm : (dataCenterMap dcs).get? m with
      | none => rfl
      | some j =>
        have hne : i ≠ j := by
          rintro rfl
          obtain ⟨dc, hdc, hname⟩ := name_of_dataCenterMap hn
          obtain ⟨dc', hdc', hname'⟩ := name_of_dataCenterMap hm
          rw [hdc, Option.some.injEq] at hdc'
          exact hmn (by rw [← hname', ← hdc', hname])
        rw [Option.bind_some, Option.bind_some, List.getElem?_modify]
        simp [hne]

theorem candidateNames_growAt (n : String) (executors warm : ℕ) (dcs : List DataCenter)
    (fn : FunctionSpec) :
    candidateNames (growAt n executors warm dcs) fn = candidateNames dcs fn := by
  have hmap : ∀ dcs : List DataCenter, (candidates dcs fn).map (·.name) =
      (dcs.map (·.name)).filter fun m => fn.candidateDcs = [] ∨ m ∈ fn.candidateDcs := by
    intro dcs
    rw [List.filter_map]
    rfl
  rw [candidateNames, candidateNames, dataCenterMap_congr]
  rw [hmap, hmap, map_name_growAt]

theorem Counts.growAt {dcs : List DataCenter} (h : Counts dcs) (n : String) (executors warm : ℕ) :
    Counts (growAt n executors warm dcs) := by
  have hmem : ∀ dc ∈ Marl.growAt n executors warm dcs,
      dc ∈ dcs ∨ ∃ dc₀ ∈ dcs, dc = grow executors warm dc₀ := by
    intro dc hdc
    rw [Marl.growAt] at hdc
    cases hn : (dataCenterMap dcs).get? n with
    | none =>
      rw [hn, Option.elim_none] at hdc
      exact Or.inl hdc
    | some i =>
      rw [hn, Option.elim_some] at hdc
      obtain ⟨j, hj⟩ := List.mem_iff_getElem?.1 hdc
      rw [List.getElem?_modify] at hj
      obtain ⟨dc₀, hdc₀, rfl⟩ := Option.map_eq_some_iff.1 hj
      split_ifs
      · exact Or.inr ⟨dc₀, List.mem_of_getElem? hdc₀, rfl⟩
      · exact Or.inl (List.mem_of_getElem? hdc₀)
  refine ⟨fun dc hdc => ?_, fun dc hdc => ?_, fun dc hdc => ?_⟩ <;>
    obtain hdc | ⟨dc₀, hdc₀, rfl⟩ := hmem dc hdc
  · exact h.running dc hdc
  · exact h.running dc₀ hdc₀
  · exact h.warm dc hdc
  · exact add_nonneg (h.warm dc₀ hdc₀) (Int.natCast_nonneg _)
  · exact h.available dc hdc
  · exact add_nonneg (h.available dc₀ hdc₀) (Int.natCast_nonneg _)

theorem pull_eq {dcs : List DataCenter} {n : String} {dc : DataCenter}
    (h : dcByName dcs n = some dc) (fn : FunctionSpec) : pull dcs fn n = fit fn dc * weight dc := by
  rw [pull, h, Option.map_some, Option.getD_some]

theorem pull_growAt {dcs : List DataCenter} {n : String} {dc : DataCenter}
    (h : dcByName dcs n = some dc) (executors warm : ℕ) (fn : FunctionSpec) (m : String) :
    pull (growAt n executors warm dcs) fn m =
      if m = n then fit fn (grow executors warm dc) * weight (grow executors warm dc)
      else pull dcs fn m := by
  rw [pull, dcByName_growAt, h]
  split_ifs <;> rfl

/-- More executors lower the load. -/
theorem load_grow_le {dc : DataCenter} (h : 0 ≤ dc.runningFunctions) (executors : ℕ) :
    (dc.runningFunctions : ℚ) /
        (max (dc.availableExecutors + executors + dc.runningFunctions) 1 : ℤ) ≤
      dc.runningFunctions / (max (dc.availableExecutors + dc.runningFunctions) 1 : ℤ) := by
  have hpos : (0 : ℤ) < max (dc.availableExecutors + dc.runningFunctions) 1 :=
    lt_max_of_lt_right one_pos
  have hle : max (dc.availableExecutors + dc.runningFunctions) 1 ≤
      max (dc.availableExecutors + executors + dc.runningFunctions) 1 := by omega
  refine div_le_div_of_nonneg_left ?_ ?_ ?_
  · exact_mod_cast h
  · exact_mod_cast hpos
  · exact_mod_cast hle

/-- Growth does not lower the fit. -/
theorem fit_le_fit_grow {dc : DataCenter} (h : 0 ≤ dc.runningFunctions) (fn : FunctionSpec)
    (executors warm : ℕ) : fit fn dc ≤ fit fn (grow executors warm dc) := by
  have hload := load_grow_le h executors
  have hbonus : (if dc.warmContainers > 0 then (15 / 100 : ℚ) else 0) ≤
      if dc.warmContainers + warm > 0 then 15 / 100 else 0 := by
    split_ifs with hw hw'
    · exact le_rfl
    · omega
    · norm_num
    · exact le_rfl
  have hbw : (grow executors warm dc).bandwidthTo = dc.bandwidthTo := rfl
  simp only [fit, hbw]
  exact add_le_add (sub_le_sub_left (mul_le_mul_of_nonneg_left hload (by norm_num)) _) hbonus

theorem weight_grow {dc : DataCenter} (executors warm : ℕ) :
    weight (grow executors warm dc) =
      weight dc + (executors + warm) / (1 + dc.runningFunctions) := by
  simp only [weight, grow]
  push_cast
  ring

theorem weight_le_weight_grow {dc : DataCenter} (h : 0 ≤ dc.runningFunctions)
    (executors warm : ℕ) : weight dc ≤ weight (grow executors warm dc) := by
  rw [weight_grow]
  have := one_add_running_pos h
  linarith [div_nonneg (by positivity : (0 : ℚ) ≤ executors + warm) this.le]

/-- A negative fit and enough warm containers push the pull below any value. -/
theorem exists_pull_lt {dc : DataCenter} (h : 0 ≤ dc.runningFunctions) {fn : FunctionSpec}
    {warm : ℕ} (hfit : ∀ k, fit fn (grow 0 (warm + k) dc) = fit fn (grow 0 warm dc))
    (hneg : fit fn (grow 0 warm dc) < 0) (v : ℚ) :
    ∃ k, fit fn (grow 0 (warm + k) dc) * weight (grow 0 (warm + k) dc) < v := by
  have hpos := one_add_running_pos h
  obtain ⟨k, hk⟩ := exists_nat_gt
    ((v / fit fn (grow 0 warm dc) - weight dc) * (1 + dc.runningFunctions))
  refine ⟨k, ?_⟩
  rw [hfit, weight_grow]
  have hgt : v / fit fn (grow 0 warm dc) <
      weight dc + ((0 : ℕ) + (warm + k : ℕ)) / (1 + dc.runningFunctions) := by
    rw [← sub_lt_iff_lt_add', lt_div_iff₀ hpos]
    refine hk.trans_le ?_
    push_cast
    linarith [Nat.cast_nonneg (α := ℚ) warm]
  calc fit fn (grow 0 warm dc) *
        (weight dc + ((0 : ℕ) + (warm + k : ℕ)) / (1 + dc.runningFunctions))
      < fit fn (grow 0 warm dc) * (v / fit fn (grow 0 warm dc)) :=
        mul_lt_mul_of_neg_left hgt hneg
    _ = v := mul_div_cancel₀ v hneg.ne

/-! ### More executors -/

theorem fit_grow_executors (fn : FunctionSpec) (dc : DataCenter) (executors : ℕ) :
    fit fn (grow executors 0 dc) =
      unloadedFit fn dc - 2 / 10 * load (grow executors 0 dc) := by
  have hbw : (grow executors 0 dc).bandwidthTo = dc.bandwidthTo := rfl
  have hwarm : (grow executors 0 dc).warmContainers = dc.warmContainers := by simp [grow]
  have hname : (grow executors 0 dc).name = dc.name := rfl
  simp only [unloadedFit, fit, load, hbw, hwarm, hname]
  ring

theorem load_nonneg {dc : DataCenter} (h : 0 ≤ dc.runningFunctions) : 0 ≤ load dc := by
  have hrun : (0 : ℚ) ≤ dc.runningFunctions := by exact_mod_cast h
  have hmax : (0 : ℚ) ≤ (max (dc.availableExecutors + dc.runningFunctions) 1 : ℤ) := by
    exact_mod_cast zero_le_one.trans (le_max_right _ _)
  exact div_nonneg hrun hmax

/-- If the load takes the fit from zero to below it, there is some. -/
theorem one_le_runningFunctions {dc : DataCenter} {fn : FunctionSpec}
    (hrun : 0 ≤ dc.runningFunctions) (hneg : fit fn dc < 0) (hzero : unloadedFit fn dc = 0) :
    1 ≤ dc.runningFunctions := by
  by_contra hnone
  have hidle : dc.runningFunctions = 0 := by omega
  rw [unloadedFit, load, hidle, Int.cast_zero, zero_div, mul_zero, add_zero] at hzero
  exact absurd hneg hzero.not_lt

section Executors

variable {dc : DataCenter} {fn : FunctionSpec} (havail : 0 ≤ dc.availableExecutors)
  (hwarm : dc.warmContainers = 0)
include havail hwarm

/-- With a negative fit that the load does not explain, enough executors push the pull below any
value. -/
theorem exists_executors_lt (hrun : 0 ≤ dc.runningFunctions) (hneg : unloadedFit fn dc < 0)
    (v : ℚ) : ∃ executors, fit fn (grow executors 0 dc) * weight (grow executors 0 dc) < v := by
  have hpos := one_add_running_pos hrun
  obtain ⟨e, he⟩ := exists_nat_gt (v / unloadedFit fn dc * (1 + dc.runningFunctions))
  refine ⟨e, ?_⟩
  have hfit : fit fn (grow e 0 dc) ≤ unloadedFit fn dc := by
    have hload : 0 ≤ load (grow e 0 dc) := load_nonneg hrun
    rw [fit_grow_executors]
    linarith
  have ha : (0 : ℚ) ≤ dc.availableExecutors := by exact_mod_cast havail
  have hsum : weight (grow e 0 dc) =
      (1 + dc.availableExecutors + e) / (1 + dc.runningFunctions) := by
    rw [weight_grow, weight, hwarm, ← add_div]
    push_cast
    ring
  have hweight : v / unloadedFit fn dc < weight (grow e 0 dc) := by
    rw [hsum, lt_div_iff₀ hpos]
    linarith
  have hweight0 : 0 ≤ weight (grow e 0 dc) := by
    rw [hsum]
    exact div_nonneg (by positivity) hpos.le
  calc fit fn (grow e 0 dc) * weight (grow e 0 dc)
      ≤ unloadedFit fn dc * weight (grow e 0 dc) := mul_le_mul_of_nonneg_right hfit hweight0
    _ < unloadedFit fn dc * (v / unloadedFit fn dc) := mul_lt_mul_of_neg_left hweight hneg
    _ = v := mul_div_cancel₀ v hneg.ne

/-- With a fit of zero but for the load, the pull is above the negative share of the running
functions, and executors bring it closer. -/
theorem pull_grow_eq (hrun : 1 ≤ dc.runningFunctions) (hzero : unloadedFit fn dc = 0)
    (executors : ℕ) :
    fit fn (grow executors 0 dc) * weight (grow executors 0 dc) =
      -(2 / 10) * (dc.runningFunctions / (1 + dc.runningFunctions)) +
        2 / 10 * (dc.runningFunctions / (1 + dc.runningFunctions)) *
          ((dc.runningFunctions - 1) /
            (dc.availableExecutors + executors + dc.runningFunctions)) := by
  have hr : (1 : ℚ) ≤ dc.runningFunctions := by exact_mod_cast hrun
  have ha : (0 : ℚ) ≤ dc.availableExecutors := by exact_mod_cast havail
  have he : (0 : ℚ) ≤ executors := Nat.cast_nonneg executors
  have hmax : max (dc.availableExecutors + executors + dc.runningFunctions) 1 =
      dc.availableExecutors + executors + dc.runningFunctions := max_eq_left (by omega)
  have hload : load (grow executors 0 dc) =
      dc.runningFunctions / (dc.availableExecutors + executors + dc.runningFunctions) := by
    simp only [load, grow, hmax]
    push_cast
    rfl
  have hs : (dc.availableExecutors + executors + dc.runningFunctions : ℚ) ≠ 0 := by linarith
  have hr' : (1 + dc.runningFunctions : ℚ) ≠ 0 := by linarith
  rw [fit_grow_executors, hzero, hload, weight_grow, weight, hwarm]
  field_simp
  push_cast
  ring

/-- The pull sinks to the negative share of the running functions, and no further. -/
theorem forall_le_pull_grow_iff (hrun : 1 ≤ dc.runningFunctions) (hzero : unloadedFit fn dc = 0)
    (v : ℚ) :
    (∀ executors, v ≤ fit fn (grow executors 0 dc) * weight (grow executors 0 dc)) ↔
      v ≤ -(2 / 10) * (dc.runningFunctions / (1 + dc.runningFunctions)) := by
  have hr : (1 : ℚ) ≤ dc.runningFunctions := by exact_mod_cast hrun
  have ha : (0 : ℚ) ≤ dc.availableExecutors := by exact_mod_cast havail
  have hpull := pull_grow_eq havail hwarm hrun hzero
  have hshare : (0 : ℚ) ≤ dc.runningFunctions / (1 + dc.runningFunctions) :=
    div_nonneg (by linarith) (by linarith)
  set share := (dc.runningFunctions : ℚ) / (1 + dc.runningFunctions)
  constructor
  · intro h
    by_contra hv
    -- the rest of the pull becomes smaller than the gap
    have hgap : 0 < v - -(2 / 10) * share := by linarith
    obtain ⟨e, he⟩ := exists_nat_gt
      (2 / 10 * share * (dc.runningFunctions - 1) / (v - -(2 / 10) * share))
    have he0 : (0 : ℚ) ≤ e := Nat.cast_nonneg e
    rw [div_lt_iff₀ hgap] at he
    have hlast : v - -(2 / 10) * share ≤ 2 / 10 * share * (dc.runningFunctions - 1) /
        (dc.availableExecutors + e + dc.runningFunctions) := by
      have hle := h e
      rw [hpull] at hle
      rw [mul_div_assoc]
      linarith
    rw [le_div_iff₀ (by linarith)] at hlast
    nlinarith
  · intro h e
    have he0 : (0 : ℚ) ≤ e := Nat.cast_nonneg e
    have hrest : (0 : ℚ) ≤ (dc.runningFunctions - 1) /
        (dc.availableExecutors + e + dc.runningFunctions) :=
      div_nonneg (by linarith) (by linarith)
    rw [hpull]
    linarith [mul_nonneg (mul_nonneg (by norm_num : (0 : ℚ) ≤ 2 / 10) hshare) hrest]

/-- The pull reaches that share only if it is there from the start, with one running function. -/
theorem pull_grow_le (hrun : 1 ≤ dc.runningFunctions) (hzero : unloadedFit fn dc = 0)
    {executors : ℕ} (h : fit fn (grow executors 0 dc) * weight (grow executors 0 dc) ≤
      -(2 / 10) * (dc.runningFunctions / (1 + dc.runningFunctions))) :
    fit fn dc * weight dc ≤ fit fn (grow executors 0 dc) * weight (grow executors 0 dc) := by
  have hgrow : grow 0 0 dc = dc := by simp [grow]
  have hstart := pull_grow_eq havail hwarm hrun hzero 0
  rw [hgrow] at hstart
  have hend := pull_grow_eq havail hwarm hrun hzero executors
  obtain hone | hmore := hrun.eq_or_lt
  · rw [← hone] at hstart hend
    rw [hstart, hend]
    norm_num
  · -- with more functions the pull stays above the share
    have hr : (1 : ℚ) < dc.runningFunctions := by exact_mod_cast hmore
    have ha : (0 : ℚ) ≤ dc.availableExecutors := by exact_mod_cast havail
    have he0 : (0 : ℚ) ≤ executors := Nat.cast_nonneg executors
    have hshare : (0 : ℚ) < dc.runningFunctions / (1 + dc.runningFunctions) :=
      div_pos (by linarith) (by linarith)
    have hrest : (0 : ℚ) < (dc.runningFunctions - 1) /
        (dc.availableExecutors + executors + dc.runningFunctions) :=
      div_pos (by linarith) (by linarith)
    rw [hend] at h
    exact absurd h (not_le.2 (lt_add_of_pos_right _
      (mul_pos (mul_pos (by norm_num) hshare) hrest)))

end Executors

/-! ### When the function stays -/

/-- The product of fit and weight with more executors leads those of the other candidates. -/
def LeadsGrown (dcs : List DataCenter) (fn : FunctionSpec) (n : String) (dc : DataCenter)
    (executors : ℕ) : Prop :=
  Best.Leads (candidateNames dcs fn) (fun m =>
    if m = n then fit fn (grow executors 0 dc) * weight (grow executors 0 dc) else pull dcs fn m) n

/-- Another candidate does not overtake, whatever capacity is added: there is none, the fit is not
negative, or a first warm container makes it so and executors do not lose the lead.  They relieve
the load: if the fit without the load is positive, only the few executors count that leave the fit
negative; if it is zero, the pull sinks to the share of the running functions and no further. -/
def Anchored (dcs : List DataCenter) (fn : FunctionSpec) (n : String) (dc : DataCenter) : Prop :=
  (∀ m ∈ candidateNames dcs fn, m = n) ∨ 0 ≤ fit fn dc ∨
    (dc.warmContainers = 0 ∧ 0 ≤ fit fn (grow 0 1 dc) ∧
      (0 < unloadedFit fn dc ∧
          (∀ executors : ℕ, unloadedFit fn dc < 2 / 10 * load (grow executors 0 dc) →
            LeadsGrown dcs fn n dc executors) ∨
        unloadedFit fn dc = 0 ∧ ∀ m ∈ candidateNames dcs fn, m ≠ n →
          pull dcs fn m ≤ -(2 / 10) * (dc.runningFunctions / (1 + dc.runningFunctions))))

/-- A pull that does not decrease keeps the lead. -/
theorem leads_growAt {dcs : List DataCenter} {fn : FunctionSpec} {n : String} {dc : DataCenter}
    (hdc : dcByName dcs n = some dc) {executors warm : ℕ}
    (hlead : Best.Leads (candidateNames dcs fn) (pull dcs fn) n)
    (hle : pull dcs fn n ≤ fit fn (grow executors warm dc) * weight (grow executors warm dc)) :
    Best.Leads (candidateNames dcs fn) (pull (growAt n executors warm dcs) fn) n := by
  intro m hm hmn
  obtain ⟨hle', hidx⟩ := hlead m hm hmn
  rw [pull_growAt hdc, pull_growAt hdc, if_neg hmn, if_pos rfl]
  exact ⟨hle'.trans hle, fun h => hidx (hle.trans h)⟩

/-- The data center leads with more executors if it does in the list where it has them. -/
theorem leadsGrown_iff {dcs : List DataCenter} {fn : FunctionSpec} {n : String} {dc : DataCenter}
    (hdc : dcByName dcs n = some dc) (executors : ℕ) : LeadsGrown dcs fn n dc executors ↔
      Best.Leads (candidateNames dcs fn) (pull (growAt n executors 0 dcs) fn) n := by
  have hpull : pull (growAt n executors 0 dcs) fn = fun m =>
      if m = n then fit fn (grow executors 0 dc) * weight (grow executors 0 dc)
      else pull dcs fn m := funext (pull_growAt hdc executors 0 fn)
  rw [LeadsGrown, hpull]

section Stays

variable {dcs : List DataCenter} {fn : FunctionSpec} {n : String} {dc : DataCenter}
  (hcounts : Counts dcs) (hdc : dcByName dcs n = some dc)
include hcounts hdc

/-- With a fit that is not negative more capacity means more pull. -/
theorem leads_of_fit_nonneg (hfit : 0 ≤ fit fn dc)
    (hlead : Best.Leads (candidateNames dcs fn) (pull dcs fn) n) (executors warm : ℕ) :
    Best.Leads (candidateNames dcs fn) (pull (growAt n executors warm dcs) fn) n := by
  have hmem := mem_of_dcByName hdc
  have hrun := hcounts.running dc hmem
  refine leads_growAt hdc hlead ?_
  rw [pull_eq hdc]
  exact mul_le_mul (fit_le_fit_grow hrun fn executors warm)
    (weight_le_weight_grow hrun executors warm) (hcounts.weight_pos hmem).le
    (hfit.trans (fit_le_fit_grow hrun fn executors warm))

/-- A negative fit keeps its lead under more executors if the load alone makes it negative. -/
theorem forall_leadsGrown_iff (hwarm : dc.warmContainers = 0) (hneg : fit fn dc < 0)
    (hother : ∃ m ∈ candidateNames dcs fn, m ≠ n)
    (hlead : Best.Leads (candidateNames dcs fn) (pull dcs fn) n) :
    (∀ executors, LeadsGrown dcs fn n dc executors) ↔
      0 < unloadedFit fn dc ∧
          (∀ executors : ℕ, unloadedFit fn dc < 2 / 10 * load (grow executors 0 dc) →
            LeadsGrown dcs fn n dc executors) ∨
        unloadedFit fn dc = 0 ∧ ∀ m ∈ candidateNames dcs fn, m ≠ n →
          pull dcs fn m ≤ -(2 / 10) * (dc.runningFunctions / (1 + dc.runningFunctions)) := by
  have hmem := mem_of_dcByName hdc
  have hrun := hcounts.running dc hmem
  have havail := hcounts.available dc hmem
  have hbelow : ∀ {executors}, LeadsGrown dcs fn n dc executors →
      ∀ m ∈ candidateNames dcs fn, m ≠ n →
        pull dcs fn m ≤ fit fn (grow executors 0 dc) * weight (grow executors 0 dc) := by
    intro executors h m hm hmn
    simpa only [if_neg hmn, if_true] using (h m hm hmn).1
  have hone := one_le_runningFunctions hrun hneg
  constructor
  · intro h
    obtain ⟨m, hm, hmn⟩ := hother
    obtain hless | hzero | hmore := lt_trichotomy (unloadedFit fn dc) 0
    · obtain ⟨e, he⟩ := exists_executors_lt havail hwarm hrun hless (pull dcs fn m)
      exact absurd he (not_lt.2 (hbelow (h e) m hm hmn))
    · exact .inr ⟨hzero, fun m hm hmn => (forall_le_pull_grow_iff havail hwarm (hone hzero) hzero
        _).1 fun e => hbelow (h e) m hm hmn⟩
    · exact .inl ⟨hmore, fun e _ => h e⟩
  · rintro (⟨-, hfew⟩ | ⟨hzero, hshare⟩) executors
    · by_cases hload : unloadedFit fn dc < 2 / 10 * load (grow executors 0 dc)
      · exact hfew executors hload
      · -- the pull rises from below zero, and keeps the lead
        refine (leadsGrown_iff hdc executors).2 (leads_growAt hdc hlead ?_)
        have hfit : 0 ≤ fit fn (grow executors 0 dc) := by
          rw [fit_grow_executors]
          linarith
        have hweight := hcounts.weight_pos hmem
        calc pull dcs fn n = fit fn dc * weight dc := pull_eq hdc fn
          _ ≤ 0 := mul_nonpos_of_nonpos_of_nonneg hneg.le hweight.le
          _ ≤ _ := mul_nonneg hfit (hweight.le.trans (weight_le_weight_grow hrun executors 0))
    · intro m hm hmn
      have hle := (forall_le_pull_grow_iff havail hwarm (hone hzero) hzero _).2
        (hshare m hm hmn) executors
      refine ⟨by simpa only [if_neg hmn, if_true] using hle, fun htie => ?_⟩
      simp only [if_neg hmn, if_true] at htie
      have hstart := pull_grow_le havail hwarm (hone hzero) hzero (htie.trans (hshare m hm hmn))
      exact (hlead m hm hmn).2 ((pull_eq hdc fn).trans_le (hstart.trans htie))

theorem leads_of_anchored (hanchored : Anchored dcs fn n dc)
    (hlead : Best.Leads (candidateNames dcs fn) (pull dcs fn) n) (executors warm : ℕ) :
    Best.Leads (candidateNames dcs fn) (pull (growAt n executors warm dcs) fn) n := by
  have hmem := mem_of_dcByName hdc
  have hrun := hcounts.running dc hmem
  have hweight := weight_le_weight_grow hrun executors warm
  by_cases honly : ∀ m ∈ candidateNames dcs fn, m = n
  · exact fun m hm hmn => absurd (honly m hm) hmn
  by_cases hneg : 0 ≤ fit fn dc
  · exact leads_of_fit_nonneg hcounts hdc hneg hlead executors warm
  obtain ⟨hwarm, hfit, hleads⟩ := (hanchored.resolve_left honly).resolve_left hneg
  rw [← forall_leadsGrown_iff hcounts hdc hwarm (not_le.1 hneg) (by simpa using honly) hlead]
    at hleads
  obtain rfl | ⟨k, rfl⟩ : warm = 0 ∨ ∃ k, warm = 1 + k := by
    cases warm with
    | zero => exact Or.inl rfl
    | succ k => exact Or.inr ⟨k, Nat.add_comm _ _⟩
  · exact (leadsGrown_iff hdc executors).1 (hleads executors)
  · -- the first warm container takes the pull from below zero to above it
    refine leads_growAt hdc hlead ?_
    have hgrown : grow executors k (grow 0 1 dc) = grow executors (1 + k) dc := by
      simp only [grow]
      congr 1 <;> push_cast <;> ring
    have hfit' : 0 ≤ fit fn (grow executors (1 + k) dc) := by
      rw [← hgrown]
      exact hfit.trans (fit_le_fit_grow (show 0 ≤ (grow 0 1 dc).runningFunctions from hrun)
        _ _ _)
    calc pull dcs fn n = fit fn dc * weight dc := pull_eq hdc fn
      _ ≤ 0 := mul_nonpos_of_nonpos_of_nonneg (not_le.1 hneg).le (hcounts.weight_pos hmem).le
      _ ≤ _ := mul_nonneg hfit' ((hcounts.weight_pos hmem).le.trans hweight)

theorem anchored_of_leads (hlead : Best.Leads (candidateNames dcs fn) (pull dcs fn) n)
    (hleads : ∀ executors warm,
      Best.Leads (candidateNames dcs fn) (pull (growAt n executors warm dcs) fn) n) :
    Anchored dcs fn n dc := by
  have hrun := hcounts.running dc (mem_of_dcByName hdc)
  rw [Anchored, or_iff_not_imp_left, or_iff_not_imp_left]
  intro honly hfit
  push Not at honly hfit
  obtain ⟨m, hm, hmn⟩ := honly
  -- with a fit that stays negative, enough warm containers lose the lead
  have hnonneg : ∀ warm : ℕ, (∀ k, fit fn (grow 0 (warm + k) dc) = fit fn (grow 0 warm dc)) →
      0 ≤ fit fn (grow 0 warm dc) := by
    intro warm hconst
    by_contra hneg
    obtain ⟨k, hk⟩ := exists_pull_lt hrun hconst (not_le.1 hneg) (pull dcs fn m)
    have h := (hleads 0 (warm + k) m hm hmn).1
    rw [pull_growAt hdc, pull_growAt hdc, if_neg hmn, if_pos rfl] at h
    exact absurd hk (not_lt.2 h)
  have hbonus : ∀ warm k : ℕ, 0 < dc.warmContainers + warm →
      fit fn (grow 0 (warm + k) dc) = fit fn (grow 0 warm dc) := by
    intro warm k hpos
    have hpos' : 0 < dc.warmContainers + (warm + k : ℕ) := by
      push_cast
      omega
    have hbw : ∀ w, (grow 0 w dc).bandwidthTo = dc.bandwidthTo := fun _ => rfl
    simp only [fit, hbw]
    simp only [grow, gt_iff_lt, hpos, hpos', if_true]
    rfl
  have hzero : grow 0 0 dc = dc := by simp [grow]
  have hwarm : dc.warmContainers = 0 := by
    by_contra hwarm
    have hpos : 0 < dc.warmContainers :=
      lt_of_le_of_ne (hcounts.warm dc (mem_of_dcByName hdc)) (Ne.symm hwarm)
    have h := hnonneg 0 fun k => hbonus 0 k (by simpa using hpos)
    rw [hzero] at h
    exact absurd hfit (not_lt.2 h)
  refine ⟨hwarm, hnonneg 1 fun k => hbonus 1 k (by rw [hwarm]; norm_num), ?_⟩
  exact (forall_leadsGrown_iff hcounts hdc hwarm hfit ⟨m, hm, hmn⟩ hlead).1
    fun executors => (leadsGrown_iff hdc executors).2 (hleads executors 0)

end Stays

theorem chooses_remoteFunction :
    Chooses Sample.costPerCore [Sample.largeAllocation] (8 / 10) Sample.remoteObservation
      Sample.remoteFunction "paris" := by
  unfold Chooses
  decide +kernel

namespace Sample

/-- A busy data center with a fast link to the input. -/
def busyDataCenter : DataCenter where
  name := "paris"
  nodeIp := "10.0.0.11"
  runningFunctions := 1
  bandwidthMbps := .ofList [("virginia", 500)]

/-- The other data center is idle. -/
def busyObservation : Observation :=
  { remoteObservation with
    dataCenters :=
      [busyDataCenter, { name := "tokyo", nodeIp := "10.0.0.12", availableExecutors := 2 }] }

theorem load_grow_busyDataCenter (executors : ℕ) :
    load (grow executors 0 busyDataCenter) = 1 / (executors + 1) := by
  have hmax : max ((0 : ℤ) + executors + 1) 1 = executors + 1 := by omega
  simp only [load, grow, busyDataCenter, hmax]
  push_cast
  rfl

end Sample

end Demeter.Marl
