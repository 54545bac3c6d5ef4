import Demeter.Marl.HeuristicPlan

/-!
# The constraints on plans

Every policy of the command line places pending functions, each at most once, at their candidates.
They judge allocations differently: the heuristic and the greedy policies use the configured
`memory_loss_factor`, the random and the Pheromone policies the default of `valid_allocation`, and
the Pheromone policy falls back to its largest allocation.

* `MemoryRule`: what is promised of the allocation of a function, policy by policy;
* `Constrained`: what is promised of a plan;
* `constrained_policy`: the policies keep these promises.
-/

namespace Demeter.Marl

/-! ### Valid allocations -/

/-- A larger factor allows more. -/
theorem validAllocation_mono {fn : FunctionSpec} {a : AllocationType} {f g : ℚ} (hf : 0 < f)
    (hfg : f ≤ g) (h : validAllocation fn a f) : validAllocation fn a g := by
  simp only [validAllocation, decide_eq_true_eq, max_le_iff] at h ⊢
  refine ⟨?_, h.2⟩
  have hpos : (0 : ℚ) < max f (1 / 1000000) := lt_max_of_lt_left hf
  have hle : max f (1 / 1000000) ≤ max g (1 / 1000000) := max_le_max_right _ hfg
  by_cases hin : 0 ≤ fn.inputMb
  · exact (div_le_div_of_nonneg_left hin hpos hle).trans h.1
  · exact (div_nonpos_of_nonpos_of_nonneg (not_le.1 hin).le (hpos.trans_le hle).le).trans
      (zero_le_one.trans h.2)

theorem validAllocation_of_memoryMb_le {fn : FunctionSpec} {a b : AllocationType} {f : ℚ}
    (hab : a.memoryMb ≤ b.memoryMb) (h : validAllocation fn a f) : validAllocation fn b f := by
  simp only [validAllocation, decide_eq_true_eq] at h ⊢
  exact h.trans (by exact_mod_cast hab)

/-! ### Promises -/

/-- The memory constraint on the allocation of a function.  The policies without a factor of their
own promise nothing under a configured factor below their default. -/
def MemoryRule (config : DemeterConfig) (fn : FunctionSpec) (a : AllocationType) :
    PolicyName → Prop
  | .demeter | .greedy | .astrea | .aquatope =>
      validAllocation fn a config.runtime.memoryLossFactor
  | .random =>
      8 / 10 ≤ config.runtime.memoryLossFactor →
        validAllocation fn a config.runtime.memoryLossFactor
  | .pheromone =>
      8 / 10 ≤ config.runtime.memoryLossFactor →
        validAllocation fn a config.runtime.memoryLossFactor ∨
          ∀ b ∈ config.allocations,
            ¬ validAllocation fn b config.runtime.memoryLossFactor ∧ b.memoryMb ≤ a.memoryMb

/-- The action places the function at a candidate, with a configured allocation. -/
def PlacesAtCandidate (allocations : List AllocationType) (obs : Observation) (fn : FunctionSpec)
    (action : OrchestrationAction) : Prop :=
  action.functionId = fn.functionId ∧
    (∃ dc ∈ candidates obs.dataCenters fn, dc.name = action.dcName) ∧
      action.allocation ∈ allocations

/-- What every policy promises of a plan. -/
structure Constrained (config : DemeterConfig) (n : PolicyName) (obs : Observation)
    (plan : List OrchestrationAction) : Prop where
  once : (plan.map (·.functionId)).Nodup
  obeys : ∀ action ∈ plan, ∃ fn, obs.pendingFunction action.functionId = some fn ∧
    PlacesAtCandidate config.allocations obs fn action ∧ MemoryRule config fn action.allocation n

theorem nodup_allPendingFunctions (obs : Observation) :
    (obs.allPendingFunctions.map (·.functionId)).Nodup :=
  nodup_dedupById [] obs.pendingByDc.values.flatten

/-- Plans that make at most one action of every pending function. -/
theorem constrained_filterMap {config : DemeterConfig} {n : PolicyName} {obs : Observation}
    {act : FunctionSpec → Option OrchestrationAction}
    (h : ∀ fn action, act fn = some action →
      PlacesAtCandidate config.allocations obs fn action ∧
        MemoryRule config fn action.allocation n) :
    Constrained config n obs (obs.allPendingFunctions.filterMap act) where
  once := (ids_filterMap_sublist (fun fn action hact => (h fn action hact).1.1)
    obs.allPendingFunctions).nodup (nodup_allPendingFunctions obs)
  obeys action haction := by
    obtain ⟨fn, hfn, hact⟩ := List.mem_filterMap.1 haction
    obtain ⟨hplaces, hmemory⟩ := h fn action hact
    rw [hplaces.1]
    exact ⟨fn, Observation.mem_allPendingFunctions_iff.1 hfn, hplaces, hmemory⟩

theorem Constrained.perm {config : DemeterConfig} {n : PolicyName} {obs : Observation}
    {plan plan' : List OrchestrationAction} (h : Constrained config n obs plan)
    (hperm : plan.Perm plan') : Constrained config n obs plan' where
  once := (hperm.map _).nodup_iff.1 h.once
  obeys action haction := h.obeys action (hperm.mem_iff.2 haction)

/-! ### The policies -/

variable (estimate : Estimator) (allocations : List AllocationType) (memoryLossFactor : ℚ)
  (obs : Observation)

theorem heuristicAction_places {fn : FunctionSpec} {action : OrchestrationAction}
    (h : heuristicAction estimate allocations memoryLossFactor obs fn = some action) :
    PlacesAtCandidate allocations obs fn action ∧
      validAllocation fn action.allocation memoryLossFactor := by
  obtain ⟨best, dc, alloc, hbest, -, halloc, rfl⟩ := heuristicAction_eq_some_iff.1 h
  rw [heuristicImprove_eq_keepBest] at halloc
  obtain ⟨hmem, hvalid, -⟩ := Best.foldl_keepBest_eq_some halloc
  have hkey := mem_keys_affinities.1 (List.mem_map.2 ⟨best, List.argmax_mem hbest, rfl⟩)
  exact ⟨⟨rfl, hkey, hmem⟩, hvalid⟩

theorem greedyAction_places {fn : FunctionSpec} {action : OrchestrationAction}
    (h : greedyAction estimate allocations memoryLossFactor obs fn = some action) :
    PlacesAtCandidate allocations obs fn action ∧
      validAllocation fn action.allocation memoryLossFactor := by
  rw [greedyAction, Option.map_eq_some_iff] at h
  obtain ⟨best, hbest, rfl⟩ := h
  -- the best choice so far is always one of the valid choices
  have hchoice : ∀ b, (greedyChoices allocations obs fn).foldl
      (greedyImprove estimate memoryLossFactor obs fn) none = some b →
      (∃ dc ∈ candidates obs.dataCenters fn, dc.name = b.2.1) ∧ b.2.2 ∈ allocations ∧
        validAllocation fn b.2.2 memoryLossFactor := by
    refine List.foldlRecOn (motive := fun best : Option (ℚ × String × AllocationType) =>
      ∀ b, best = some b → (∃ dc ∈ candidates obs.dataCenters fn, dc.name = b.2.1) ∧
        b.2.2 ∈ allocations ∧ validAllocation fn b.2.2 memoryLossFactor) _ _ (by simp) ?_
    intro best hbest choice hchoice b hb
    obtain ⟨dc, hdc, hchoice⟩ := List.mem_flatMap.1 hchoice
    obtain ⟨a, ha, rfl⟩ := List.mem_map.1 hchoice
    simp only [greedyImprove] at hb
    split_ifs at hb with hvalid
    · cases best with
      | none =>
        cases hb
        exact ⟨⟨dc, hdc, rfl⟩, ha, hvalid⟩
      | some b₀ =>
        simp only at hb
        split_ifs at hb
        · cases hb
          exact ⟨⟨dc, hdc, rfl⟩, ha, hvalid⟩
        · exact hbest b hb
    · exact hbest b hb
  obtain ⟨hcand, hmem, hvalid⟩ := hchoice best hbest
  exact ⟨⟨rfl, hcand, hmem⟩, hvalid⟩

theorem smallerFirst_iff {a b : AllocationType} :
    smallerFirst a b ↔ toLex (a.memoryMb, a.cpuCores) ≤ toLex (b.memoryMb, b.cpuCores) := by
  rw [smallerFirst, Prod.Lex.toLex_le_toLex]

instance : Std.Total smallerFirst where
  total a b := by
    rw [smallerFirst_iff, smallerFirst_iff]
    exact le_total _ _

instance : IsTrans AllocationType smallerFirst where
  trans a b c := by
    rw [smallerFirst_iff, smallerFirst_iff, smallerFirst_iff]
    exact le_trans

theorem memoryMb_le_of_smallerFirst {a b : AllocationType} (h : smallerFirst a b) :
    a.memoryMb ≤ b.memoryMb :=
  h.elim le_of_lt fun h => h.1.le

/-- What the Pheromone policy takes is valid, or has the largest memory. -/
theorem pheromone_allocation {fn : FunctionSpec} {a : AllocationType}
    (h : pheromoneAllocation allocations fn = some a) :
    a ∈ allocations ∧ (validAllocation fn a ∨ ∀ b ∈ allocations, b.memoryMb ≤ a.memoryMb) := by
  have hperm := List.perm_insertionSort smallerFirst allocations
  rw [pheromoneAllocation, Option.or_eq_some_iff] at h
  obtain h | ⟨-, h⟩ := h
  · exact ⟨hperm.mem_iff.1 (List.mem_of_find?_eq_some h),
      Or.inl (by simpa using List.find?_some h)⟩
  · obtain ⟨l, hl⟩ := List.getLast?_eq_some_iff.1 h
    have hsorted := List.pairwise_insertionSort smallerFirst allocations
    rw [hl, List.pairwise_append] at hsorted
    refine ⟨hperm.mem_iff.1 (List.mem_of_getLast? h), Or.inr fun b hb => ?_⟩
    rw [← hperm.mem_iff, hl, List.mem_append, List.mem_singleton] at hb
    obtain hb | rfl := hb
    · exact memoryMb_le_of_smallerFirst (hsorted.2.2 b hb a List.mem_cons_self)
    · exact le_rfl

theorem pheromoneAction_places {fn : FunctionSpec} {action : OrchestrationAction}
    (h : pheromoneAction allocations obs fn = some action) :
    PlacesAtCandidate allocations obs fn action ∧
      (validAllocation fn action.allocation ∨
        ∀ b ∈ allocations, b.memoryMb ≤ action.allocation.memoryMb) := by
  simp only [pheromoneAction] at h
  split at h
  · rename_i dc a hdc ha
    cases h
    obtain ⟨n, hn, hfound⟩ := List.mem_filterMap.1 (List.argmax_mem hdc)
    obtain ⟨i, hi, hget⟩ := Option.bind_eq_some_iff.1 hfound
    obtain ⟨dc', hdc', hname⟩ := name_of_dataCenterMap hi
    rw [hget, Option.some.injEq] at hdc'
    subst hdc'
    have hcand : fn.candidateDcs = [] ∨ dc.name ∈ fn.candidateDcs := by
      rw [hname]
      split_ifs at hn with hempty
      · exact Or.inl hempty
      · exact Or.inr hn
    obtain ⟨hmem, hrule⟩ := pheromone_allocation allocations ha
    exact ⟨⟨rfl, ⟨dc, mem_candidates.2 ⟨mem_of_dcByName hfound, hcand⟩, rfl⟩, hmem⟩, hrule⟩
  · cases h

/-- The random policy adds at most one action for each function. -/
theorem randomAction_places {ρ : Type} (choice : ρ → ℕ → ℕ × ρ)
    (acc : List OrchestrationAction × ρ) (fn : FunctionSpec) :
    (randomAction choice allocations obs acc fn).1 = acc.1 ∨
      ∃ action, (randomAction choice allocations obs acc fn).1 = acc.1 ++ [action] ∧
        PlacesAtCandidate allocations obs fn action ∧
          validAllocation fn action.allocation := by
  simp only [randomAction]
  split_ifs
  · exact Or.inl rfl
  · split
    · rename_i dc a hdc ha
      obtain ⟨hmem, hvalid⟩ := List.mem_filter.1 (List.mem_of_getElem? ha)
      exact Or.inr ⟨_, rfl, ⟨rfl, ⟨dc, List.mem_of_getElem? hdc, rfl⟩, hmem⟩, hvalid⟩
    · exact Or.inl rfl

/-- The random policy makes at most one action for each function, in their order. -/
theorem foldl_randomAction_places {ρ : Type} (allocations : List AllocationType)
    (choice : ρ → ℕ → ℕ × ρ) (fns : List FunctionSpec) (acc : List OrchestrationAction × ρ) :
    ((fns.foldl (randomAction choice allocations obs) acc).1.map (·.functionId)).Sublist
        (acc.1.map (·.functionId) ++ fns.map (·.functionId)) ∧
      ∀ action ∈ (fns.foldl (randomAction choice allocations obs) acc).1,
        action ∈ acc.1 ∨ ∃ fn ∈ fns, PlacesAtCandidate allocations obs fn action ∧
          validAllocation fn action.allocation := by
  induction fns generalizing acc with
  | nil => exact ⟨by simp, fun action h => Or.inl h⟩
  | cons fn fns ih =>
    obtain ⟨hids, hmem⟩ := ih (randomAction choice allocations obs acc fn)
    rw [List.foldl_cons, List.map_cons]
    obtain h | ⟨added, h, hplaces, hvalid⟩ :=
      randomAction_places allocations obs choice acc fn <;> rw [h] at hids hmem
    · refine ⟨hids.trans ((List.sublist_cons_self _ _).append_left _), fun action ha => ?_⟩
      exact (hmem action ha).imp_right fun ⟨g, hg, hrest⟩ => ⟨g, List.mem_cons_of_mem _ hg, hrest⟩
    · -- an action for `fn` was added
      rw [List.map_append, List.map_singleton, hplaces.1, List.append_assoc] at hids
      refine ⟨hids, fun action ha => ?_⟩
      obtain hmem | ⟨g, hg, hrest⟩ := hmem action ha
      · obtain hmem | hmem := List.mem_append.1 hmem
        · exact Or.inl hmem
        · rw [List.mem_singleton.1 hmem]
          exact Or.inr ⟨fn, List.mem_cons_self, hplaces, hvalid⟩
      · exact Or.inr ⟨g, List.mem_cons_of_mem _ hg, hrest⟩

theorem constrained_randomPolicy {ρ : Type} (choice : ρ → ℕ → ℕ × ρ) (config : DemeterConfig)
    (r : ρ) :
    Constrained config .random obs (randomPolicy choice config.allocations r obs).1 := by
  obtain ⟨hids, hmem⟩ :=
    foldl_randomAction_places obs config.allocations choice obs.allPendingFunctions ([], r)
  refine ⟨hids.nodup (nodup_allPendingFunctions obs), fun action haction => ?_⟩
  obtain hnil | ⟨fn, hfn, hplaces, hvalid⟩ := hmem action haction
  · cases hnil
  · rw [hplaces.1]
    exact ⟨fn, Observation.mem_allPendingFunctions_iff.1 hfn, hplaces,
      fun hfactor => validAllocation_mono (by norm_num) hfactor hvalid⟩

theorem constrained_pheromonePolicy {ρ : Type} (config : DemeterConfig) (r : ρ) :
    Constrained config .pheromone obs (pheromonePolicy config.allocations r obs).1 := by
  refine constrained_filterMap fun fn action h => ?_
  obtain ⟨hplaces, hrule⟩ := pheromoneAction_places config.allocations obs h
  refine ⟨hplaces, fun hfactor => ?_⟩
  obtain hvalid | hlargest := hrule
  · exact Or.inl (validAllocation_mono (by norm_num) hfactor hvalid)
  · by_cases hvalid : validAllocation fn action.allocation config.runtime.memoryLossFactor
    · exact Or.inl hvalid
    · exact Or.inr fun b hb =>
        ⟨fun hb' => hvalid (validAllocation_of_memoryMb_le (hlargest b hb) hb'), hlargest b hb⟩

/-- **The constraints on plans.**  Every policy of the command line places pending functions, each
at most once, at a candidate data center and with a configured allocation that obeys the memory
rule of the policy. -/
theorem constrained_policy {ρ : Type} (choice : ρ → ℕ → ℕ × ρ) (config : DemeterConfig)
    (n : PolicyName) (r : ρ) :
    Constrained config n obs (policy estimate choice config n r obs).1 := by
  have hgreedy : ∀ n', n' = .greedy ∨ n' = .astrea ∨ n' = .aquatope → Constrained config n' obs
      (greedyCostPolicy estimate config.allocations config.runtime.memoryLossFactor r obs).1 := by
    intro n' hn'
    refine constrained_filterMap fun fn action h => ?_
    obtain ⟨hplaces, hvalid⟩ := greedyAction_places estimate _ _ obs h
    refine ⟨hplaces, ?_⟩
    obtain rfl | rfl | rfl := hn' <;> exact hvalid
  cases n with
  | demeter =>
    refine Constrained.perm (constrained_filterMap fun fn action h => ?_)
      (List.perm_insertionSort actionLe _).symm
    exact heuristicAction_places estimate config.allocations config.runtime.memoryLossFactor obs h
  | pheromone => exact constrained_pheromonePolicy obs config r
  | astrea => exact hgreedy .astrea (by simp)
  | aquatope => exact hgreedy .aquatope (by simp)
  | greedy => exact hgreedy .greedy (by simp)
  | random => exact constrained_randomPolicy obs choice config r

/-! ### A function that fits nowhere -/

namespace Sample

/-- The configuration has one allocation, which is too small for the remote function. -/
def smallAllocation : AllocationType := { name := "1c-1024m", cpuCores := 1, memoryMb := 1024 }

/-- Only the small allocation is configured. -/
def smallConfig : DemeterConfig where
  dataCenters := remoteObservation.dataCenters
  allocations := [smallAllocation]

end Sample

/-- The Pheromone policy places the function with the allocation that does not hold its input. -/
theorem invalid_remoteFunction :
    ∃ action ∈ (policy Sample.costPerCore (fun r _ => (0, r)) Sample.smallConfig .pheromone ()
        Sample.remoteObservation).1,
      action.functionId = Sample.remoteFunction.functionId ∧
        ¬ validAllocation Sample.remoteFunction action.allocation
          Sample.smallConfig.runtime.memoryLossFactor := by
  decide +kernel

end Demeter.Marl
