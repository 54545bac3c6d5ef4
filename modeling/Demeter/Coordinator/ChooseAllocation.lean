import Mathlib.Data.Prod.Lex
import Mathlib.Algebra.Order.Ring.Rat
import Demeter.Lib.Best
import Demeter.Coordinator.Messages
import Demeter.Marl.Constraints

/-!
# The choice of an allocation

The coordinator (`choose_allocation` in `src/coordinator/demeter_scheduler.cpp`) and the Pheromone
policy both look for the smallest allocation that holds the input of a function.  The policy sorts
its list, the coordinator scans it in the configured order, and both have a fallback when nothing
fits.  Numbers are exact here.

* `chooseAllocation` with its spec `chooseAllocation_of_fits`, `chooseAllocation_of_not_fits`;
* `pheromoneAllocation` is what the policy takes;
* `agrees_iff` says for which lists of allocations the two agree: the fallback of the coordinator
  is the last allocation of the list, whatever its size.
-/

namespace Demeter.Coordinator.Numeric

/-! ### The coordinator -/

/-- An allocation of the configuration. -/
structure DemeterAllocation where
  name : String
  cpuCores : ℚ
  memoryMb : ℕ
  deriving DecidableEq

/-- The weights of a node. -/
structure DemeterNodeProfile where
  dc : String
  warmWeight : ℚ
  loadWeight : ℚ
  localityWeight : ℚ
  deriving DecidableEq

/-- The configuration of the scheduler. -/
structure DemeterSchedulerConfig where
  enabled : Bool := false
  memoryLossFactor : ℚ := 8 / 10
  allocations : List DemeterAllocation := []
  nodeProfiles : Dict Address DemeterNodeProfile := .empty

/-- `clamp_positive`. -/
def clampPositive (value fallback : ℚ) : ℚ := if value > 0 then value else fallback

/-- The size of the arguments in MB, at least 1. -/
def estimateRequestInputMb (req : FunctionRequest) : ℚ :=
  let totalBytes : ℚ := req.arguments.foldl (fun total arg =>
    if arg.body = [] then total else total + arg.body.length) 0
  max (totalBytes / (1024 * 1024)) 1

/-- The memory a request needs; `fl` rounds the quotient. -/
def requiredMb (fl : ℚ → ℚ) (req : FunctionRequest) (config : DemeterSchedulerConfig) : ℚ :=
  fl (estimateRequestInputMb req / clampPositive config.memoryLossFactor (8 / 10))

/-- One step of the scan; the flag says whether an allocation was found. -/
def scanAllocation (required : ℚ) (best : DemeterAllocation × Bool) (alloc : DemeterAllocation) :
    DemeterAllocation × Bool :=
  if required ≤ alloc.memoryMb then
    if best.2 = false ∨ alloc.memoryMb < best.1.memoryMb ∨
        (alloc.memoryMb = best.1.memoryMb ∧ alloc.cpuCores < best.1.cpuCores) then
      (alloc, true)
    else best
  else best

/-- The smallest allocation that holds the input, or the last one if none does. -/
def chooseAllocation (fl : ℚ → ℚ) (req : FunctionRequest) (config : DemeterSchedulerConfig) :
    DemeterAllocation :=
  match config.allocations with
  | [] => { name := "default", cpuCores := 1, memoryMb := 128 }
  | front :: rest =>
      let best := (front :: rest).foldl (scanAllocation (requiredMb fl req config)) (front, false)
      if best.2 then best.1 else (front :: rest).getLast (List.cons_ne_nil _ _)

/-- Memory first, then cores; the smaller one is better. -/
def sizeKey (a : DemeterAllocation) : (ℕ ×ₗ ℚ)ᵒᵈ :=
  OrderDual.toDual (toLex (a.memoryMb, a.cpuCores))

/-- The scan with a flag keeps the best allocation that fits. -/
theorem foldl_scanAllocation (required : ℚ) (front : DemeterAllocation)
    (l : List DemeterAllocation) :
    l.foldl (scanAllocation required) (front, false) =
      ((l.foldl (Best.keepBest (fun a => required ≤ a.memoryMb) sizeKey) none).map
        fun b => (b.2, true)).getD (front, false) := by
  induction l using List.reverseRecOn with
  | nil => rfl
  | append_singleton l a ih =>
    rw [List.foldl_append, List.foldl_append, ih]
    simp only [List.foldl_cons, List.foldl_nil, scanAllocation]
    cases h : l.foldl (Best.keepBest (fun a => required ≤ a.memoryMb) sizeKey) none with
    | none =>
      unfold Best.keepBest
      by_cases hfit : required ≤ a.memoryMb <;> simp [hfit]
    | some b =>
      have hkey : b.1 = sizeKey b.2 := (Best.foldl_keepBest_eq_some h).2.2.1
      have hlt : b.1 < sizeKey a ↔ a.memoryMb < b.2.memoryMb ∨
          (a.memoryMb = b.2.memoryMb ∧ a.cpuCores < b.2.cpuCores) := by
        rw [hkey, sizeKey, sizeKey, OrderDual.toDual_lt_toDual, Prod.Lex.toLex_lt_toLex]
      unfold Best.keepBest
      by_cases hfit : required ≤ a.memoryMb
      · by_cases hless : b.1 < sizeKey a
        · simp [hfit, hless, hlt.1 hless]
        · have hless' := hless
          rw [hlt] at hless'
          simp [hfit, hless, hless']
      · simp [hfit]

section Choice

variable {fl : ℚ → ℚ} {req : FunctionRequest} {config : DemeterSchedulerConfig}

theorem chooseAllocation_eq (hne : config.allocations ≠ []) :
    chooseAllocation fl req config =
      ((config.allocations.foldl (Best.keepBest
        (fun a => requiredMb fl req config ≤ a.memoryMb) sizeKey) none).map Prod.snd).getD
        (config.allocations.getLast hne) := by
  unfold chooseAllocation
  split
  · rename_i hnil
    exact absurd hnil hne
  · rename_i front rest hcons
    simp only [foldl_scanAllocation, hcons]
    cases (front :: rest).foldl (Best.keepBest
      (fun a => decide (requiredMb fl req config ≤ a.memoryMb)) sizeKey) none <;> rfl

/-- When some allocation fits, the choice is the least one that does. -/
theorem chooseAllocation_of_fits
    (h : ∃ a ∈ config.allocations, requiredMb fl req config ≤ a.memoryMb) :
    chooseAllocation fl req config ∈ config.allocations ∧
      requiredMb fl req config ≤ (chooseAllocation fl req config).memoryMb ∧
        ∀ b ∈ config.allocations, requiredMb fl req config ≤ b.memoryMb →
          (chooseAllocation fl req config).memoryMb < b.memoryMb ∨
            ((chooseAllocation fl req config).memoryMb = b.memoryMb ∧
              (chooseAllocation fl req config).cpuCores ≤ b.cpuCores) := by
  have hne : config.allocations ≠ [] := List.ne_nil_of_mem h.choose_spec.1
  obtain ⟨best, hbest⟩ := Option.isSome_iff_exists.1 ((Best.isSome_foldl_keepBest
    (fun a : DemeterAllocation => decide (requiredMb fl req config ≤ a.memoryMb)) sizeKey).2
      (by simpa using h))
  obtain ⟨hmem, hfit, hkey, hmax⟩ := Best.foldl_keepBest_eq_some hbest
  rw [chooseAllocation_eq hne, hbest, Option.map_some, Option.getD_some]
  refine ⟨hmem, by simpa using hfit, fun b hb hbfit => ?_⟩
  have hle := hmax b hb (by simpa using hbfit)
  rw [hkey, sizeKey, sizeKey, OrderDual.toDual_le_toDual, Prod.Lex.toLex_le_toLex] at hle
  exact hle

/-- When none fits, the choice is the last allocation. -/
theorem chooseAllocation_of_not_fits (hne : config.allocations ≠ [])
    (h : ∀ a ∈ config.allocations, ¬ requiredMb fl req config ≤ a.memoryMb) :
    chooseAllocation fl req config = config.allocations.getLast hne := by
  rw [chooseAllocation_eq hne, Best.foldl_keepBest, List.filter_eq_nil_iff.2 (by simpa using h)]
  rfl

end Choice

/-! ### The policy -/

open Marl (AllocationType FunctionSpec validAllocation smallerFirst pheromoneAllocation
  exists_pheromoneAllocation)

/-- The same allocation for the policies. -/
def DemeterAllocation.toAllocationType (a : DemeterAllocation) : AllocationType where
  name := a.name
  cpuCores := a.cpuCores
  memoryMb := a.memoryMb

/-- The first acceptable element of a sorted list. -/
theorem rel_of_find?_eq_some {α : Type*} {r : α → α → Prop} {p : α → Bool} {l : List α} {a b : α}
    (hl : l.Pairwise r) (ha : l.find? p = some a) (hb : b ∈ l) (hpb : p b) : b = a ∨ r a b := by
  obtain ⟨-, as, bs, rfl, hnot⟩ := List.find?_eq_some_iff_append.1 ha
  obtain hb | hb := List.mem_append.1 hb
  · exact absurd hpb (by simpa using hnot b hb)
  · exact (List.mem_cons.1 hb).imp_right
      ((List.pairwise_cons.1 (List.pairwise_append.1 hl).2.1).1 b)

theorem rel_of_getLast? {α : Type*} {r : α → α → Prop} {l : List α} {a b : α}
    (hl : l.Pairwise r) (ha : l.getLast? = some a) (hb : b ∈ l) : b = a ∨ r b a := by
  obtain ⟨l', rfl⟩ := List.getLast?_eq_some_iff.1 ha
  obtain hb | hb := List.mem_append.1 hb
  · exact Or.inr ((List.pairwise_append.1 hl).2.2 b hb a List.mem_cons_self)
  · exact Or.inl (List.mem_singleton.1 hb)

section Policy

variable {allocations : List AllocationType} {fn : FunctionSpec} {a : AllocationType}

theorem smallerFirst_refl (a : AllocationType) : smallerFirst a a := Or.inr ⟨rfl, le_rfl⟩

/-- Allocations that are smaller than each other have the same size. -/
theorem size_eq_of_smallerFirst {b : AllocationType} (hab : smallerFirst a b)
    (hba : smallerFirst b a) : a.memoryMb = b.memoryMb ∧ a.cpuCores = b.cpuCores := by
  obtain hab | ⟨hmem, hab⟩ := hab
  · exact absurd (Marl.memoryMb_le_of_smallerFirst hba) (not_le.2 hab)
  · obtain hba | ⟨-, hba⟩ := hba
    · exact absurd hmem hba.ne'
    · exact ⟨hmem, le_antisymm hab hba⟩

theorem pheromoneAllocation_of_valid (h : ∃ b ∈ allocations, validAllocation fn b)
    (ha : pheromoneAllocation allocations fn = some a) :
    a ∈ allocations ∧ validAllocation fn a ∧
      ∀ b ∈ allocations, validAllocation fn b → smallerFirst a b := by
  have hperm := List.perm_insertionSort smallerFirst allocations
  have hsorted := List.pairwise_insertionSort smallerFirst allocations
  rw [pheromoneAllocation, Option.or_eq_some_iff] at ha
  obtain hfind | ⟨hnone, -⟩ := ha
  · refine ⟨hperm.mem_iff.1 (List.mem_of_find?_eq_some hfind),
      by simpa using List.find?_some hfind, fun b hb hvalid => ?_⟩
    obtain rfl | hle := rel_of_find?_eq_some hsorted hfind (hperm.mem_iff.2 hb) hvalid
    · exact smallerFirst_refl b
    · exact hle
  · obtain ⟨b, hb, hvalid⟩ := h
    exact absurd hvalid (by simpa using List.find?_eq_none.1 hnone b (hperm.mem_iff.2 hb))

theorem pheromoneAllocation_of_not_valid (h : ∀ b ∈ allocations, ¬ validAllocation fn b)
    (ha : pheromoneAllocation allocations fn = some a) :
    a ∈ allocations ∧ ∀ b ∈ allocations, smallerFirst b a := by
  have hperm := List.perm_insertionSort smallerFirst allocations
  have hsorted := List.pairwise_insertionSort smallerFirst allocations
  rw [pheromoneAllocation, Option.or_eq_some_iff] at ha
  obtain hfind | ⟨-, hlast⟩ := ha
  · exact absurd (by simpa using List.find?_some hfind)
      (h a (hperm.mem_iff.1 (List.mem_of_find?_eq_some hfind)))
  · refine ⟨hperm.mem_iff.1 (List.mem_of_getLast? hlast), fun b hb => ?_⟩
    obtain rfl | hle := rel_of_getLast? hsorted hlast (hperm.mem_iff.2 hb)
    · exact smallerFirst_refl b
    · exact hle

end Policy

/-! ### Agreement -/

/-- Both choose an allocation of the same size, the least one that holds the input or else one of
the largest. -/
structure Agrees (req : FunctionRequest) (config : DemeterSchedulerConfig) : Prop where
  pick : ∀ fn : FunctionSpec, fn.inputMb = estimateRequestInputMb req →
    ∃ a, pheromoneAllocation (config.allocations.map (·.toAllocationType)) fn = some a ∧
      a.memoryMb = (chooseAllocation id req config).memoryMb ∧
        a.cpuCores = (chooseAllocation id req config).cpuCores
  least : (∃ a ∈ config.allocations, estimateRequestInputMb req / (8 / 10) ≤ a.memoryMb) →
    chooseAllocation id req config ∈ config.allocations ∧
      estimateRequestInputMb req / (8 / 10) ≤ (chooseAllocation id req config).memoryMb ∧
        ∀ b ∈ config.allocations, estimateRequestInputMb req / (8 / 10) ≤ b.memoryMb →
          (chooseAllocation id req config).memoryMb < b.memoryMb ∨
            ((chooseAllocation id req config).memoryMb = b.memoryMb ∧
              (chooseAllocation id req config).cpuCores ≤ b.cpuCores)
  largest : (∀ a ∈ config.allocations, ¬ estimateRequestInputMb req / (8 / 10) ≤ a.memoryMb) →
    chooseAllocation id req config ∈ config.allocations ∧
      ∀ b ∈ config.allocations, b.memoryMb ≤ (chooseAllocation id req config).memoryMb

section Agreement

variable {req : FunctionRequest} {config : DemeterSchedulerConfig}

theorem requiredMb_id (hfactor : config.memoryLossFactor = 8 / 10) :
    requiredMb id req config = estimateRequestInputMb req / (8 / 10) := by
  rw [requiredMb, hfactor, clampPositive, ite_self, id]

theorem one_le_estimateRequestInputMb (req : FunctionRequest) : 1 ≤ estimateRequestInputMb req :=
  le_max_right _ _

theorem validAllocation_toAllocationType {fn : FunctionSpec}
    (hfn : fn.inputMb = estimateRequestInputMb req) (a : DemeterAllocation) :
    validAllocation fn a.toAllocationType ↔
      estimateRequestInputMb req / (8 / 10) ≤ a.memoryMb := by
  have hone := one_le_estimateRequestInputMb req
  have hfactor : max (8 / 10 : ℚ) (1 / 1000000) = 8 / 10 := max_eq_left (by norm_num)
  have hrequired : 1 ≤ estimateRequestInputMb req / (8 / 10) := by
    rw [le_div_iff₀ (by norm_num)]
    linarith
  rw [validAllocation, decide_eq_true_eq, hfn, hfactor, max_eq_left hrequired,
    DemeterAllocation.toAllocationType, Int.cast_natCast]

theorem smallerFirst_toAllocationType {a b : DemeterAllocation} :
    smallerFirst a.toAllocationType b.toAllocationType ↔
      a.memoryMb < b.memoryMb ∨ (a.memoryMb = b.memoryMb ∧ a.cpuCores ≤ b.cpuCores) := by
  simp [smallerFirst, DemeterAllocation.toAllocationType]

/-- Whatever the policy takes has the size of an allocation that is comparable both ways. -/
theorem pick_of_smallerFirst {fn : FunctionSpec} {c : DemeterAllocation}
    (hne : config.allocations ≠ [])
    (h : ∀ a, pheromoneAllocation (config.allocations.map (·.toAllocationType)) fn = some a →
      smallerFirst a c.toAllocationType ∧ smallerFirst c.toAllocationType a) :
    ∃ a, pheromoneAllocation (config.allocations.map (·.toAllocationType)) fn = some a ∧
      a.memoryMb = c.memoryMb ∧ a.cpuCores = c.cpuCores := by
  obtain ⟨a, ha⟩ := exists_pheromoneAllocation (mt List.map_eq_nil_iff.1 hne) fn
  obtain ⟨hac, hca⟩ := h a ha
  exact ⟨a, ha, size_eq_of_smallerFirst hac hca⟩

theorem agrees_of_fits (hfactor : config.memoryLossFactor = 8 / 10)
    (h : ∃ a ∈ config.allocations, estimateRequestInputMb req / (8 / 10) ≤ a.memoryMb) :
    Agrees req config := by
  have hfits := h
  simp only [← requiredMb_id hfactor] at hfits
  obtain ⟨hmem, hfit, hleast⟩ := chooseAllocation_of_fits hfits
  simp only [requiredMb_id hfactor] at hfit hleast
  refine ⟨fun fn hfn => ?_, fun _ => ⟨hmem, hfit, hleast⟩, fun hnone => ?_⟩
  · refine pick_of_smallerFirst (List.ne_nil_of_mem hmem) fun a ha => ?_
    obtain ⟨b, hb, hbfit⟩ := h
    obtain ⟨hin, hvalid, hmin⟩ := pheromoneAllocation_of_valid ⟨b.toAllocationType,
      List.mem_map.2 ⟨b, hb, rfl⟩, (validAllocation_toAllocationType hfn b).2 hbfit⟩ ha
    obtain ⟨a', ha', rfl⟩ := List.mem_map.1 hin
    refine ⟨hmin _ (List.mem_map.2 ⟨_, hmem, rfl⟩)
      ((validAllocation_toAllocationType hfn _).2 hfit), ?_⟩
    exact smallerFirst_toAllocationType.2
      (hleast a' ha' ((validAllocation_toAllocationType hfn a').1 hvalid))
  · obtain ⟨b, hb, hbfit⟩ := h
    exact absurd hbfit (hnone b hb)

theorem agrees_iff_of_not_fits (hfactor : config.memoryLossFactor = 8 / 10)
    (hne : config.allocations ≠ [])
    (h : ∀ a ∈ config.allocations, ¬ estimateRequestInputMb req / (8 / 10) ≤ a.memoryMb) :
    Agrees req config ↔ ∀ b ∈ config.allocations,
      b.memoryMb < (config.allocations.getLast hne).memoryMb ∨
        (b.memoryMb = (config.allocations.getLast hne).memoryMb ∧
          b.cpuCores ≤ (config.allocations.getLast hne).cpuCores) := by
  have hnone := h
  simp only [← requiredMb_id hfactor] at hnone
  have hchosen := chooseAllocation_of_not_fits hne hnone
  have hinvalid : ∀ {fn : FunctionSpec}, fn.inputMb = estimateRequestInputMb req →
      ∀ b ∈ config.allocations.map (·.toAllocationType), ¬ validAllocation fn b := by
    intro fn hfn b hb
    obtain ⟨b', hb', rfl⟩ := List.mem_map.1 hb
    rw [validAllocation_toAllocationType hfn]
    exact h b' hb'
  constructor
  · intro hagrees b hb
    -- any function with this input is a witness, since no allocation holds it
    let fn : FunctionSpec := { functionId := "", jobId := "", stageId := "", functionType := ""
                               inputMb := estimateRequestInputMb req }
    obtain ⟨a, ha, hmemory, hcores⟩ := hagrees.pick fn rfl
    have hle := (pheromoneAllocation_of_not_valid (hinvalid rfl) ha).2 b.toAllocationType
      (List.mem_map.2 ⟨b, hb, rfl⟩)
    rw [hchosen] at hmemory hcores
    rw [← smallerFirst_toAllocationType]
    rw [smallerFirst, hmemory, hcores] at hle
    exact hle
  · intro hlast
    have hmem := List.getLast_mem hne
    refine ⟨fun fn hfn => ?_, fun hfits => ?_, fun _ => ?_⟩
    · rw [hchosen]
      refine pick_of_smallerFirst hne fun a ha => ?_
      obtain ⟨hin, hmax⟩ := pheromoneAllocation_of_not_valid (hinvalid hfn) ha
      obtain ⟨a', ha', rfl⟩ := List.mem_map.1 hin
      exact ⟨smallerFirst_toAllocationType.2 (hlast a' ha'),
        hmax _ (List.mem_map.2 ⟨_, hmem, rfl⟩)⟩
    · obtain ⟨b, hb, hbfit⟩ := hfits
      exact absurd hbfit (h b hb)
    · rw [hchosen]
      exact ⟨hmem, fun b hb => (hlast b hb).elim le_of_lt fun hb => hb.1.le⟩

/-- **Agreement.**  The coordinator and the Pheromone policy choose allocations of the same size if
and only if some allocation holds the input or the last one of the list is the largest. -/
theorem agrees_iff (req : FunctionRequest) (config : DemeterSchedulerConfig)
    (hfactor : config.memoryLossFactor = 8 / 10) (hne : config.allocations ≠ []) :
    Agrees req config ↔
      (∃ a ∈ config.allocations, estimateRequestInputMb req / (8 / 10) ≤ a.memoryMb) ∨
        ∀ b ∈ config.allocations, b.memoryMb < (config.allocations.getLast hne).memoryMb ∨
          (b.memoryMb = (config.allocations.getLast hne).memoryMb ∧
            b.cpuCores ≤ (config.allocations.getLast hne).cpuCores) := by
  by_cases h : ∃ a ∈ config.allocations, estimateRequestInputMb req / (8 / 10) ≤ a.memoryMb
  · exact iff_of_true (agrees_of_fits hfactor h) (Or.inl h)
  · rw [or_iff_right h]
    push Not at h
    exact agrees_iff_of_not_fits hfactor hne fun a ha => not_le.2 (h a ha)

end Agreement

/-! ### Allocations from large to small -/

namespace Sample

/-- The larger allocation is configured first. -/
def largeFirst : DemeterSchedulerConfig where
  allocations :=
    [{ name := "1c-1024m", cpuCores := 1, memoryMb := 1024 },
     { name := "1c-512m", cpuCores := 1, memoryMb := 512 }]

/-- A request with one argument of the given number of bytes. -/
def requestOfSize (bytes : ℕ) : FunctionRequest where
  name := "map"
  arguments := [{ body := List.replicate bytes 0 }]

theorem estimate_requestOfSize (bytes : ℕ) :
    estimateRequestInputMb (requestOfSize bytes) = max ((bytes : ℚ) / (1024 * 1024)) 1 := by
  simp only [estimateRequestInputMb, requestOfSize, List.foldl_cons, List.foldl_nil]
  split_ifs with hnil
  · rw [List.replicate_eq_nil_iff] at hnil
    rw [hnil, Nat.cast_zero]
  · rw [List.length_replicate, zero_add]

end Sample

theorem agrees_smallRequest : Agrees { name := "map", arguments := [] } Sample.largeFirst :=
  (agrees_iff _ Sample.largeFirst rfl (by decide)).2 (.inl (by decide +kernel))

/-- One gibibyte fits nowhere.  The coordinator takes the last allocation, which is the smaller
one. -/
theorem not_agrees_gibibyte : ¬ Agrees (Sample.requestOfSize (2 ^ 30)) Sample.largeFirst := by
  intro h
  have hnone : ∀ a ∈ Sample.largeFirst.allocations,
      ¬ estimateRequestInputMb (Sample.requestOfSize (2 ^ 30)) / (8 / 10) ≤ a.memoryMb := by
    rw [Sample.estimate_requestOfSize]
    simp only [Sample.largeFirst, List.forall_mem_cons]
    norm_num
  have hlast := (agrees_iff_of_not_fits rfl (by decide) hnone).1 h
  revert hlast
  decide

end Demeter.Coordinator.Numeric
