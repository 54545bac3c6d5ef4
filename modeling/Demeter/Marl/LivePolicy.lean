import Demeter.Lib.Best
import Demeter.Marl.Policy

/-!
# Live policies

A policy is live when it acts on every pending function that has a candidate data center and a
valid allocation.  All policies of the command line are live.

* `Live`: the property;
* `Placeable`: the function has a candidate data center and a valid allocation, and
  `isSome_heuristicAction` says that the heuristic policy places exactly these functions;
* `live_randomPolicy`, `live_pheromonePolicy`, `live_greedyCostPolicy`,
  `live_demeterHeuristicPolicy`, and `live_policy` for the policy of a name.
-/

namespace Demeter.Marl

/-- The action places the function in one of the observed data centers. -/
def ActsOn (obs : Observation) (fn : FunctionSpec) (action : OrchestrationAction) : Prop :=
  action.functionId = fn.functionId ∧ ∃ dc ∈ obs.dataCenters, dc.name = action.dcName

/-- The policy acts on every pending function with a candidate and a valid allocation. -/
def Live {ρ : Type} (policy : Policy ρ) (allocations : List AllocationType)
    (memoryLossFactor : ℚ) : Prop :=
  ∀ r obs fn, fn ∈ obs.allPendingFunctions → candidates obs.dataCenters fn ≠ [] →
    (∃ a ∈ allocations, validAllocation fn a memoryLossFactor) →
    ∃ action ∈ (policy r obs).1, ActsOn obs fn action

theorem mem_candidates {dcs : List DataCenter} {fn : FunctionSpec} {dc : DataCenter} :
    dc ∈ candidates dcs fn ↔ dc ∈ dcs ∧ (fn.candidateDcs = [] ∨ dc.name ∈ fn.candidateDcs) := by
  simp [candidates]

/-- A data center is found under its name, possibly another one of that name. -/
theorem exists_dcByName {dcs : List DataCenter} {dc : DataCenter} (h : dc ∈ dcs) :
    ∃ dc', dcByName dcs dc.name = some dc' := by
  obtain ⟨i, hi⟩ := exists_dataCenterMap h
  obtain ⟨dc', hdc', -⟩ := name_of_dataCenterMap hi
  exact ⟨dc', by rw [dcByName, hi, Option.bind_some, hdc']⟩

theorem mem_of_dcByName {dcs : List DataCenter} {n : String} {dc : DataCenter}
    (h : dcByName dcs n = some dc) : dc ∈ dcs := by
  obtain ⟨i, -, hi⟩ := Option.bind_eq_some_iff.1 h
  exact List.mem_of_getElem? hi

theorem name_of_dcByName {dcs : List DataCenter} {n : String} {dc : DataCenter}
    (h : dcByName dcs n = some dc) : dc.name = n := by
  obtain ⟨i, hi, hdc⟩ := Option.bind_eq_some_iff.1 h
  obtain ⟨dc', hdc', hname⟩ := name_of_dataCenterMap hi
  obtain rfl := Option.some.inj (hdc'.symm.trans hdc)
  exact hname

/-! ### The random policy -/

section Random

variable {ρ : Type} (choice : ρ → ℕ → ℕ × ρ) (allocations : List AllocationType)
  (obs : Observation)

theorem mem_randomAction_of_mem {acc : List OrchestrationAction × ρ} {fn : FunctionSpec}
    {action : OrchestrationAction} (h : action ∈ acc.1) :
    action ∈ (randomAction choice allocations obs acc fn).1 := by
  simp only [randomAction]
  split_ifs
  · exact h
  · split
    · exact List.mem_append_left _ h
    · exact h

theorem exists_mem_randomAction (acc : List OrchestrationAction × ρ) {fn : FunctionSpec}
    (hc : candidates obs.dataCenters fn ≠ [])
    (hv : ∃ a ∈ allocations, validAllocation fn a) :
    ∃ action ∈ (randomAction choice allocations obs acc fn).1, ActsOn obs fn action := by
  have hv' : allocations.filter (fun a => validAllocation fn a) ≠ [] := by
    obtain ⟨a, ha, hva⟩ := hv
    exact List.ne_nil_of_mem (List.mem_filter.2 ⟨ha, hva⟩)
  have drawn : ∀ {α : Type} {l : List α} (_ : l ≠ []) (n : ℕ),
      ∃ x ∈ l, l[n % l.length]? = some x := by
    intro α l hl n
    have hlt := Nat.mod_lt n (List.length_pos_of_ne_nil hl)
    exact ⟨l[n % l.length], List.getElem_mem hlt, List.getElem?_eq_getElem hlt⟩
  simp only [randomAction, hc, hv', or_self, if_false]
  obtain ⟨dc, hdc, hi⟩ := drawn hc (choice acc.2 (candidates obs.dataCenters fn).length).1
  obtain ⟨a, -, hj⟩ := drawn hv' (choice (choice acc.2 (candidates obs.dataCenters fn).length).2
    (allocations.filter fun a => validAllocation fn a).length).1
  rw [hi, hj]
  exact ⟨_, List.mem_append_right _ List.mem_cons_self, rfl, dc, (mem_candidates.1 hdc).1, rfl⟩

theorem live_randomPolicy : Live (randomPolicy choice allocations) allocations (8 / 10) := by
  intro r obs fn hfn hc hv
  obtain ⟨pre, post, hsplit⟩ := List.append_of_mem hfn
  simp only [randomPolicy, hsplit, List.foldl_append, List.foldl_cons]
  obtain ⟨action, hmem, hacts⟩ := exists_mem_randomAction choice allocations obs
    (pre.foldl (randomAction choice allocations obs) ([], r)) hc hv
  refine ⟨action, ?_, hacts⟩
  exact List.foldlRecOn (motive := fun acc : List OrchestrationAction × ρ => action ∈ acc.1) post _
    hmem fun acc h fn _ => mem_randomAction_of_mem choice allocations obs h

end Random

/-- A policy that maps every pending function to an optional action is live when these actions
exist. -/
theorem live_of_filterMap {ρ : Type} {policy : Policy ρ} {allocations : List AllocationType}
    {memoryLossFactor : ℚ} {act : Observation → FunctionSpec → Option OrchestrationAction}
    (hp : ∀ r obs action, action ∈ (policy r obs).1 ↔
      action ∈ obs.allPendingFunctions.filterMap (act obs))
    (ha : ∀ obs fn, candidates obs.dataCenters fn ≠ [] →
      (∃ a ∈ allocations, validAllocation fn a memoryLossFactor) →
      ∃ action, act obs fn = some action ∧ ActsOn obs fn action) :
    Live policy allocations memoryLossFactor := by
  intro r obs fn hfn hc hv
  obtain ⟨action, hact, hacts⟩ := ha obs fn hc hv
  exact ⟨action, (hp r obs action).2 (List.mem_filterMap.2 ⟨fn, hfn, hact⟩), hacts⟩

/-! ### The Pheromone policy -/

theorem exists_argmax {α β : Type*} [LinearOrder β] (f : α → β) {l : List α} (h : l ≠ []) :
    ∃ x ∈ l, l.argmax f = some x := by
  cases hx : l.argmax f with
  | none => exact absurd (List.argmax_eq_none.1 hx) h
  | some x => exact ⟨x, List.argmax_mem hx, rfl⟩

theorem live_pheromonePolicy {ρ : Type} (allocations : List AllocationType) :
    Live (pheromonePolicy allocations : Policy ρ) allocations (8 / 10) := by
  refine live_of_filterMap (fun r obs action => Iff.rfl) fun obs fn hc hv => ?_
  have hnames : ((if fn.candidateDcs = [] then (dataCenterMap obs.dataCenters).keys
      else fn.candidateDcs).filterMap (dcByName obs.dataCenters)) ≠ [] := by
    obtain ⟨dc, hdc⟩ := List.exists_mem_of_ne_nil _ hc
    obtain ⟨hdc, hcand⟩ := mem_candidates.1 hdc
    obtain ⟨dc', hdc'⟩ := exists_dcByName hdc
    refine List.ne_nil_of_mem (List.mem_filterMap.2 ⟨dc.name, ?_, hdc'⟩)
    split_ifs with he
    · obtain ⟨i, hi⟩ := exists_dataCenterMap hdc
      exact Dict.mem_keys_iff.2 ⟨i, hi⟩
    · exact hcand.resolve_left he
  obtain ⟨dc, hdc, hmax⟩ := exists_argmax (fun dc => (fn.sourceDcs.get? dc.name).getD 0) hnames
  obtain ⟨n, -, hn⟩ := List.mem_filterMap.1 hdc
  obtain ⟨b, hb, -⟩ := hv
  obtain ⟨a, ha⟩ := exists_pheromoneAllocation (List.ne_nil_of_mem hb) fn
  refine ⟨{ functionId := fn.functionId, dcName := dc.name, allocation := a }, ?_, rfl, dc,
    mem_of_dcByName hn, rfl⟩
  simp only [pheromoneAction]
  rw [hmax, ha]

/-! ### The greedy policy -/

/-- A fold that keeps a best choice has one as soon as it met an acceptable one. -/
theorem isSome_foldl {α β : Type*} {f : Option β → α → Option β} {p : α → Prop}
    (hf : ∀ b a, (f b a).isSome ↔ b.isSome ∨ p a) (l : List α) (b : Option β) :
    (l.foldl f b).isSome ↔ b.isSome ∨ ∃ a ∈ l, p a := by
  induction l generalizing b with
  | nil => simp
  | cons a l ih => simp only [List.foldl_cons, ih, hf, List.mem_cons, exists_eq_or_imp, or_assoc]

theorem isSome_greedyImprove (estimate : Estimator) (memoryLossFactor : ℚ) (obs : Observation)
    (fn : FunctionSpec) (best : Option (ℚ × String × AllocationType))
    (choice : DataCenter × AllocationType) :
    (greedyImprove estimate memoryLossFactor obs fn best choice).isSome ↔
      best.isSome ∨ validAllocation fn choice.2 memoryLossFactor := by
  simp only [greedyImprove]
  split_ifs with hval
  · cases best with
    | none => simp [hval]
    | some b =>
      simp only [hval, or_true, iff_true]
      split_ifs <;> rfl
  · simp [hval]

theorem live_greedyCostPolicy {ρ : Type} (estimate : Estimator) (allocations : List AllocationType)
    (memoryLossFactor : ℚ) :
    Live (greedyCostPolicy estimate allocations memoryLossFactor : Policy ρ) allocations
      memoryLossFactor := by
  refine live_of_filterMap (fun r obs action => Iff.rfl) fun obs fn hc hv => ?_
  have hsome : ((greedyChoices allocations obs fn).foldl
      (greedyImprove estimate memoryLossFactor obs fn) none).isSome := by
    rw [isSome_foldl (isSome_greedyImprove estimate memoryLossFactor obs fn)]
    obtain ⟨dc, hdc⟩ := List.exists_mem_of_ne_nil _ hc
    obtain ⟨a, ha, hva⟩ := hv
    exact Or.inr ⟨(dc, a), List.mem_flatMap.2 ⟨dc, hdc, List.mem_map.2 ⟨a, ha, rfl⟩⟩, hva⟩
  obtain ⟨best, hbest⟩ := Option.isSome_iff_exists.1 hsome
  -- the best choice so far is always one of the choices
  have named : ∀ b, (greedyChoices allocations obs fn).foldl
      (greedyImprove estimate memoryLossFactor obs fn) none = some b →
      ∃ dc ∈ obs.dataCenters, dc.name = b.2.1 := by
    refine List.foldlRecOn (motive := fun best : Option (ℚ × String × AllocationType) =>
      ∀ b, best = some b → ∃ dc ∈ obs.dataCenters, dc.name = b.2.1) _ _ (by simp) ?_
    intro best hbest choice hchoice b hb
    obtain ⟨dc, hdc, hchoice⟩ := List.mem_flatMap.1 hchoice
    obtain ⟨a, -, rfl⟩ := List.mem_map.1 hchoice
    simp only [greedyImprove] at hb
    split_ifs at hb
    · cases best with
      | none =>
        cases hb
        exact ⟨dc, (mem_candidates.1 hdc).1, rfl⟩
      | some b₀ =>
        simp only at hb
        split_ifs at hb
        · cases hb
          exact ⟨dc, (mem_candidates.1 hdc).1, rfl⟩
        · exact hbest b hb
    · exact hbest b hb
  exact ⟨_, by rw [greedyAction, hbest, Option.map_some], rfl, named best hbest⟩

/-! ### The Demeter heuristic policy -/

section Heuristic

variable (estimate : Estimator) (allocations : List AllocationType) (memoryLossFactor : ℚ)

/-- The function has a candidate data center and a valid allocation. -/
def Placeable (dcs : List DataCenter) (fn : FunctionSpec) : Prop :=
  candidates dcs fn ≠ [] ∧ ∃ a ∈ allocations, validAllocation fn a memoryLossFactor

/-- The score of an allocation at a data center. -/
def score (obs : Observation) (fn : FunctionSpec) (dc : DataCenter) (posterior : ℚ)
    (alloc : AllocationType) : ℚ :=
  let metrics := estimate fn dc alloc obs.dataCenters obs.now 120
  let urgency := 1 - posterior
  let score := -metrics.totalCost - 5 / 10000 * metrics.duration
    + urgency * alloc.cpuCores * (1 / 100000)
  score

theorem heuristicImprove_eq_keepBest (obs : Observation) (fn : FunctionSpec) (dc : DataCenter)
    (posterior : ℚ) :
    heuristicImprove estimate memoryLossFactor obs fn dc posterior =
      Best.keepBest (fun a => validAllocation fn a memoryLossFactor)
        (score estimate obs fn dc posterior) := by
  funext best a
  simp only [heuristicImprove, Best.keepBest, score, gt_iff_lt]
  cases best with
  | none => rfl
  | some b => split_ifs <;> rfl

theorem mem_keys_affinities {obs : Observation} {fn : FunctionSpec} {n : String} :
    n ∈ (affinities obs fn).keys ↔ ∃ dc ∈ candidates obs.dataCenters fn, dc.name = n := by
  simp [affinities, Dict.mem_keys_ofList]

variable {estimate allocations memoryLossFactor}

theorem heuristicAction_eq_some_iff {obs : Observation} {fn : FunctionSpec}
    {action : OrchestrationAction} :
    heuristicAction estimate allocations memoryLossFactor obs fn = some action ↔
      ∃ best dc alloc, (affinities obs fn).entries.argmax (·.2) = some best ∧
        dcByName obs.dataCenters best.1 = some dc ∧
        allocations.foldl (heuristicImprove estimate memoryLossFactor obs fn dc
          (max best.2 (1 / 1000000000) / posteriorTotal (affinities obs fn))) none =
            some alloc ∧
        action = {
          functionId := fn.functionId
          dcName := best.1
          allocation := alloc.2
          posterior := max best.2 (1 / 1000000000) / posteriorTotal (affinities obs fn)
          allocationScore := alloc.1 } := by
  simp only [heuristicAction, Option.bind_eq_bind, Option.bind_eq_some_iff, Option.pure_def,
    Option.some.injEq]
  constructor
  · rintro ⟨best, hbest, dc, hdc, alloc, halloc, rfl⟩
    exact ⟨best, dc, alloc, hbest, hdc, halloc, rfl⟩
  · rintro ⟨best, dc, alloc, hbest, hdc, halloc, rfl⟩
    exact ⟨best, hbest, dc, hdc, alloc, halloc, rfl⟩

/-- The functions that can be placed get an action, and no others. -/
theorem isSome_heuristicAction {obs : Observation} {fn : FunctionSpec} :
    (heuristicAction estimate allocations memoryLossFactor obs fn).isSome ↔
      Placeable allocations memoryLossFactor obs.dataCenters fn := by
  rw [Option.isSome_iff_exists]
  constructor
  · rintro ⟨action, haction⟩
    obtain ⟨best, dc, alloc, hbest, -, halloc, -⟩ := heuristicAction_eq_some_iff.1 haction
    obtain ⟨dc', hdc', -⟩ := mem_keys_affinities.1
      (List.mem_map.2 ⟨best, List.argmax_mem hbest, rfl⟩)
    rw [heuristicImprove_eq_keepBest] at halloc
    obtain ⟨hmem, hvalid, -⟩ := Best.foldl_keepBest_eq_some halloc
    exact ⟨List.ne_nil_of_mem hdc', alloc.2, hmem, hvalid⟩
  · rintro ⟨hcand, hvalid⟩
    have hne : (affinities obs fn).entries ≠ [] := by
      obtain ⟨dc, hdc⟩ := List.exists_mem_of_ne_nil _ hcand
      obtain ⟨e, he, -⟩ := List.mem_map.1 (mem_keys_affinities.2 ⟨dc, hdc, rfl⟩)
      exact List.ne_nil_of_mem he
    obtain ⟨best, hmem, hbest⟩ := exists_argmax (fun e : String × ℚ => e.2) hne
    obtain ⟨dc, hdc, hname⟩ := mem_keys_affinities.1 (List.mem_map.2 ⟨best, hmem, rfl⟩)
    obtain ⟨dc', hdc'⟩ := exists_dcByName (mem_candidates.1 hdc).1
    rw [hname] at hdc'
    obtain ⟨alloc, halloc⟩ := Option.isSome_iff_exists.1 ((Best.isSome_foldl_keepBest _
      (score estimate obs fn dc'
        (max best.2 (1 / 1000000000) / posteriorTotal (affinities obs fn)))).2 hvalid)
    rw [← heuristicImprove_eq_keepBest] at halloc
    exact ⟨_, heuristicAction_eq_some_iff.2 ⟨best, dc', alloc, hbest, hdc', halloc, rfl⟩⟩

variable (estimate allocations memoryLossFactor)

theorem live_demeterHeuristicPolicy {ρ : Type} :
    Live (demeterHeuristicPolicy estimate allocations memoryLossFactor : Policy ρ) allocations
      memoryLossFactor := by
  refine live_of_filterMap (fun r obs action => (List.perm_insertionSort _ _).mem_iff)
    fun obs fn hc hv => ?_
  obtain ⟨action, haction⟩ := Option.isSome_iff_exists.1 (isSome_heuristicAction.2 ⟨hc, hv⟩)
  obtain ⟨best, dc, alloc, -, hdc, -, heq⟩ := heuristicAction_eq_some_iff.1 haction
  rw [heq] at haction
  exact ⟨_, haction, rfl, dc, mem_of_dcByName hdc, name_of_dcByName hdc⟩

end Heuristic

/-- Every policy of the command line is live. -/
theorem live_policy {ρ : Type} (estimate : Estimator) (choice : ρ → ℕ → ℕ × ρ)
    (config : DemeterConfig) (n : PolicyName) :
    Live (policy estimate choice config n) config.allocations (n.memoryLossFactor config) := by
  cases n with
  | demeter => exact live_demeterHeuristicPolicy estimate _ _
  | pheromone => exact live_pheromonePolicy _
  | astrea => exact live_greedyCostPolicy estimate _ _
  | aquatope => exact live_greedyCostPolicy estimate _ _
  | greedy => exact live_greedyCostPolicy estimate _ _
  | random => exact live_randomPolicy choice _

end Demeter.Marl
