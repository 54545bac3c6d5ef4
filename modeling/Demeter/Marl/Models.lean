import Mathlib.Algebra.Order.Field.Rat
import Mathlib.Order.WithBot
import Demeter.Lib.Dict

/-!
# Data model of the orchestrator

The records shared by the controller, the policies and the simulator (`MARL/models.py`) and the
configuration they are started from (`MARL/config.py`).  Floating-point quantities are exact
rationals; an infinite bandwidth is `⊤`.  Dictionaries are insertion-ordered, as in the source.
-/

namespace Demeter.Marl

/-- Lifecycle state of a function. -/
inductive FunctionStatus
  | waiting
  | pending
  | running
  | finished
  deriving DecidableEq, Repr

/-- The position of a status in the lifecycle. -/
def FunctionStatus.rank : FunctionStatus → ℕ
  | .waiting => 0
  | .pending => 1
  | .running => 2
  | .finished => 3

/-- CPU-memory configuration for one function invocation. -/
structure AllocationType where
  name : String
  cpuCores : ℚ
  memoryMb : ℤ
  deriving DecidableEq

/-- The memory in GB. -/
def AllocationType.memoryGb (a : AllocationType) : ℚ := a.memoryMb / 1024

/-- Runtime and price information for a worker region. -/
structure DataCenter where
  name : String
  nodeIp : String
  region : String := ""
  runningFunctions : ℤ := 0
  warmContainers : ℤ := 0
  availableExecutors : ℤ := 0
  priceCoreSecond : ℚ := 1667 / 100000000
  priceGbSecond : ℚ := 965 / 100000000
  requestPrice : ℚ := 2 / 10000000
  storageGbSecond : ℚ := 8 / 10000000000
  bandwidthMbps : Dict String ℚ := .empty
  transferPriceGb : Dict String ℚ := .empty
  deriving DecidableEq

/-- Bandwidth to another region; infinite inside the region itself. -/
def DataCenter.bandwidthTo (dc : DataCenter) (other : String) : WithTop ℚ :=
  if other = dc.name then ⊤
  else ↑(max ((dc.bandwidthMbps.get? other).getD 100) (1 / 1000000))

/-- The price per GB; free inside the region itself. -/
def DataCenter.transferPriceTo (dc : DataCenter) (other : String) : ℚ :=
  if other = dc.name then 0 else (dc.transferPriceGb.get? other).getD (2 / 100)

/-- Division by a bandwidth; dividing by infinity gives zero. -/
def divBandwidth (x : ℚ) : WithTop ℚ → ℚ
  | ⊤ => 0
  | (b : ℚ) => x / b

/-- Function-level node of the execution graph. -/
structure FunctionSpec where
  functionId : String
  jobId : String
  stageId : String
  functionType : String
  inputMb : ℚ
  outputMb : ℚ := 0
  status : FunctionStatus := .waiting
  candidateDcs : List String := []
  sourceDcs : Dict String ℚ := .empty
  placement : Option String := none
  allocation : Option AllocationType := none
  arrivalTime : ℚ := 0
  startTime : Option ℚ := none
  finishTime : Option ℚ := none
  observedDuration : Option ℚ := none
  resourcePeakMemoryMb : ℚ := 0
  resourcePeakCpu : ℚ := 0
  coldStartPenalty : ℚ := 0
  predecessors : List String := []
  successors : List String := []
  metadata : Dict String ℚ := .empty
  deriving DecidableEq

/-- Stage-level node before its expansion into parallel functions. -/
structure StageSpec where
  stageId : String
  functionType : String
  parallelism : ℤ
  trigger : String := "direct"
  inputMb : ℚ := 0
  outputMb : ℚ := 0
  candidateDcs : List String := []
  sourceDcs : Dict String ℚ := .empty
  metadata : Dict String ℚ := .empty
  deriving DecidableEq

/-- A job: its stages, its stage edges and the functions they expand to. -/
structure JobSpec where
  jobId : String
  sloSeconds : ℚ
  arrivalTime : ℚ := 0
  priority : ℚ := 1
  stages : List StageSpec := []
  edges : List (String × String) := []
  functions : Dict String FunctionSpec := .empty
  deriving DecidableEq

/-- A job is finished when it has functions and all of them are. -/
def JobSpec.finished (job : JobSpec) : Bool :=
  !job.functions.values.isEmpty && job.functions.values.all (·.status = .finished)

/-- Completion time of a job, measured from its arrival and never negative. -/
def JobSpec.jct (job : JobSpec) : ℚ :=
  match job.functions.values.map (fun fn =>
      match fn.finishTime with
      | some t => if t = 0 then job.arrivalTime else t
      | none => job.arrivalTime) with
  | [] => 0
  | t :: ts => max 0 (ts.foldl max t - job.arrivalTime)

/-- One placement and allocation decision. -/
structure OrchestrationAction where
  functionId : String
  dcName : String
  allocation : AllocationType
  posterior : ℚ := 0
  allocationScore : ℚ := 0
  deriving DecidableEq

/-- Snapshot consumed by a policy at one orchestration interval. -/
structure Observation where
  now : ℚ
  jobs : List JobSpec
  dataCenters : List DataCenter
  pendingByDc : Dict String (List FunctionSpec)
  running : List FunctionSpec
  deriving DecidableEq

/-- The data centers by name: the last one of a name, as its position in the list. -/
def dataCenterMap (dcs : List DataCenter) : Dict String ℕ :=
  .ofList (dcs.zipIdx.map fun e => (e.1.name, e.2))

/-- Keep the first function of each id; `seen` are the ids met before. -/
def dedupById (seen : List String) : List FunctionSpec → List FunctionSpec
  | [] => []
  | fn :: fns =>
      if fn.functionId ∈ seen then dedupById seen fns
      else fn :: dedupById (fn.functionId :: seen) fns

/-- The pending functions of all data centers, each id once. -/
def Observation.allPendingFunctions (obs : Observation) : List FunctionSpec :=
  dedupById [] obs.pendingByDc.values.flatten

/-- The learning and cost-model settings the orchestrator reads. -/
structure ModelConfig where
  penaltyBeta : ℚ := 3 / 10
  timeoutSeconds : ℚ := 120
  deriving DecidableEq

/-- The runtime settings the orchestrator reads. -/
structure RuntimeConfig where
  intervalSeconds : ℚ := 5
  maxWaveSize : ℤ := 20
  memoryLossFactor : ℚ := 8 / 10
  deriving DecidableEq

/-- What the orchestrator is started from. -/
structure DemeterConfig where
  dataCenters : List DataCenter
  allocations : List AllocationType
  model : ModelConfig := {}
  runtime : RuntimeConfig := {}
  deriving DecidableEq

/-! ### Lookup by name -/

theorem name_of_dataCenterMap {dcs : List DataCenter} {n : String} {i : ℕ}
    (h : (dataCenterMap dcs).get? n = some i) : ∃ dc, dcs[i]? = some dc ∧ dc.name = n := by
  obtain ⟨⟨dc, j⟩, hmem, heq⟩ := List.mem_map.1 (Dict.mem_of_get?_ofList h)
  cases heq
  exact ⟨dc, List.mem_zipIdx_iff_getElem?.1 hmem, rfl⟩

/-- The names are in the order of any dictionary that is made of the data centers. -/
theorem keys_ofList_name {ν : Type} (dcs : List DataCenter) (f : DataCenter → ν) :
    (Dict.ofList (dcs.map fun dc => (dc.name, f dc))).keys = (dataCenterMap dcs).keys := by
  apply Dict.keys_ofList_congr
  conv_lhs => rw [List.map_map, ← List.zipIdx_map_fst 0 dcs, List.map_map]
  rw [List.map_map]
  rfl

/-- The positions depend on the names only. -/
theorem dataCenterMap_congr {dcs dcs' : List DataCenter}
    (h : dcs.map (·.name) = dcs'.map (·.name)) : dataCenterMap dcs = dataCenterMap dcs' := by
  have key : ∀ l : List DataCenter,
      l.zipIdx.map (fun e => (e.1.name, e.2)) = (l.map (·.name)).zipIdx := by
    intro l
    rw [List.zipIdx_map]
    rfl
  rw [dataCenterMap, dataCenterMap, key, key, h]

theorem exists_dataCenterMap {dcs : List DataCenter} {dc : DataCenter} (h : dc ∈ dcs) :
    ∃ i, (dataCenterMap dcs).get? dc.name = some i := by
  obtain ⟨i, hi⟩ := List.mem_iff_getElem?.1 h
  apply Dict.exists_get?_ofList
  rw [List.map_map]
  exact List.mem_map.2 ⟨(dc, i), List.mem_zipIdx_iff_getElem?.2 hi, rfl⟩

/-! ### Removing repeated ids -/

theorem mem_of_mem_dedupById {seen : List String} {fns : List FunctionSpec} {fn : FunctionSpec}
    (h : fn ∈ dedupById seen fns) : fn ∈ fns := by
  induction fns generalizing seen with
  | nil => exact h
  | cons g fns ih =>
    rw [dedupById] at h
    split_ifs at h with hg
    · exact List.mem_cons_of_mem _ (ih h)
    · rcases List.mem_cons.1 h with rfl | h
      · exact List.mem_cons_self
      · exact List.mem_cons_of_mem _ (ih h)

/-- Every id of the list that was not seen before is kept once. -/
theorem exists_mem_dedupById {seen : List String} {fns : List FunctionSpec} {fn : FunctionSpec}
    (h : fn ∈ fns) (hs : fn.functionId ∉ seen) :
    ∃ g ∈ dedupById seen fns, g.functionId = fn.functionId := by
  induction fns generalizing seen with
  | nil => cases h
  | cons g fns ih =>
    rw [dedupById]
    by_cases hid : g.functionId = fn.functionId
    · rw [if_neg (hid ▸ hs)]
      exact ⟨g, List.mem_cons_self, hid⟩
    · have hmem : fn ∈ fns := (List.mem_cons.1 h).resolve_left fun he => hid (he ▸ rfl)
      split_ifs with hg
      · exact ih hmem hs
      · have hs' : fn.functionId ∉ g.functionId :: seen := by simpa [Ne.symm hid] using hs
        obtain ⟨g', hg', hid'⟩ := ih hmem hs'
        exact ⟨g', List.mem_cons_of_mem _ hg', hid'⟩

/-- The kept functions are the first ones of their ids. -/
theorem mem_dedupById_iff {seen : List String} {fns : List FunctionSpec} {fn : FunctionSpec} :
    fn ∈ dedupById seen fns ↔
      fn.functionId ∉ seen ∧ fns.find? (·.functionId = fn.functionId) = some fn := by
  induction fns generalizing seen with
  | nil => simp [dedupById]
  | cons g fns ih =>
    rw [dedupById, List.find?_cons]
    by_cases hid : g.functionId = fn.functionId
    · rw [decide_eq_true hid]
      by_cases hs : g.functionId ∈ seen
      · rw [if_pos hs, ih]
        exact ⟨fun h => absurd (hid ▸ hs) h.1, fun h => absurd (hid ▸ hs) h.1⟩
      · rw [if_neg hs, List.mem_cons, ih, Option.some.injEq]
        constructor
        · rintro (rfl | ⟨h, -⟩)
          · exact ⟨hs, rfl⟩
          · exact absurd (hid ▸ List.mem_cons_self) h
        · rintro ⟨-, rfl⟩
          exact Or.inl rfl
    · have hne : fn ≠ g := fun h => hid (h ▸ rfl)
      rw [decide_eq_false hid]
      split_ifs with hs
      · exact ih
      · rw [List.mem_cons, ih, List.mem_cons, or_iff_right hne, not_or]
        exact ⟨fun h => ⟨h.1.2, h.2⟩, fun h => ⟨⟨Ne.symm hid, h.1⟩, h.2⟩⟩

theorem nodup_dedupById (seen : List String) (fns : List FunctionSpec) :
    ((dedupById seen fns).map (·.functionId)).Nodup := by
  induction fns generalizing seen with
  | nil => exact List.nodup_nil
  | cons g fns ih =>
    rw [dedupById]
    split_ifs
    · exact ih seen
    · refine List.nodup_cons.2 ⟨fun hmem => ?_, ih _⟩
      obtain ⟨fn, hfn, hid⟩ := List.mem_map.1 hmem
      exact (mem_dedupById_iff.1 hfn).1 (hid ▸ List.mem_cons_self)

end Demeter.Marl
