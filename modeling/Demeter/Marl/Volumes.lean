import Demeter.Marl.Expansion

/-!
# Data volumes of expanded functions

A stage has the volumes of its input and output, and the volume that lies in each data center.
`expand_execution_graph` divides the first two among the functions of the stage.

* `expandedFrom` are the functions that the loop over a stage makes, and `volumes_eq` finds their
  volumes in the expanded job;
* `conserves_iff`: the volumes are conserved only if there is one function, or nothing lies in any
  data center, since every function gets all of the latter volumes.
-/

namespace Demeter.Marl

/-- The functions expanded from a stage. -/
def expandedFrom (job : JobSpec) (stage : StageSpec) : List FunctionSpec :=
  (List.range stage.parallelism.toNat).map (stageFunction job stage)

/-- The volume in a data center. -/
def volumeIn (sourceDcs : Dict String ℚ) (dc : String) : ℚ := (sourceDcs.get? dc).getD 0

/-- The functions have the volumes of the stage, altogether; and each has its own input in the data
centers if the stage has. -/
structure Conserves (stage : StageSpec) (fns : List FunctionSpec) : Prop where
  input : (fns.map (·.inputMb)).sum = stage.inputMb
  output : (fns.map (·.outputMb)).sum = stage.outputMb
  sources : ∀ dc, (fns.map fun fn => volumeIn fn.sourceDcs dc).sum = volumeIn stage.sourceDcs dc
  own : stage.sourceDcs.values.sum = stage.inputMb →
    ∀ fn ∈ fns, fn.sourceDcs.values.sum = fn.inputMb

/-! ### The functions of a job -/

/-- The volumes of a function. -/
def volumes (fn : FunctionSpec) : ℚ × ℚ × Dict String ℚ := (fn.inputMb, fn.outputMb, fn.sourceDcs)

theorem DistinctStages.volumes_eq {job : JobSpec} (hdistinct : DistinctStages job)
    {stage : StageSpec} (h : stage ∈ job.stages) :
    (List.range stage.parallelism.toNat).map (fun idx =>
        ((expandExecutionGraph job).functions.get?
          (functionId job.jobId stage.stageId idx)).map volumes) =
      (expandedFrom job stage).map fun fn => some (volumes fn) := by
  rw [expandedFrom, List.map_map]
  refine List.map_congr_left fun idx hidx => ?_
  have hget := hdistinct.get?_functions (p := (stage, idx)) (mem_slots.2 ⟨h, List.mem_range.1 hidx⟩)
  rw [slotId] at hget
  rw [hget]
  rfl

/-! ### Sums -/

section Sums

variable (job : JobSpec) (stage : StageSpec)

theorem sum_div_parallelism (hp : 1 ≤ stage.parallelism) (v : ℚ) :
    ((List.range stage.parallelism.toNat).map fun _ => v / (max stage.parallelism 1 : ℤ)).sum =
      v := by
  obtain ⟨n, hn⟩ := Int.eq_ofNat_of_zero_le (zero_le_one.trans hp)
  have hpos : (n : ℚ) ≠ 0 := by
    have : n ≠ 0 := by omega
    exact_mod_cast this
  rw [hn, max_eq_left (hn ▸ hp : (1 : ℤ) ≤ n), List.map_const', List.sum_replicate]
  simp [mul_div_cancel₀ v hpos]

theorem sum_volumeIn (dc : String) :
    ((expandedFrom job stage).map fun fn => volumeIn fn.sourceDcs dc).sum =
      stage.parallelism.toNat * volumeIn stage.sourceDcs dc := by
  simp [expandedFrom, stageFunction, Function.comp_def]

theorem sum_values_eq_zero {sourceDcs : Dict String ℚ} (h : ∀ dc, volumeIn sourceDcs dc = 0) :
    sourceDcs.values.sum = 0 := by
  refine List.sum_eq_zero fun v hv => ?_
  obtain ⟨dc, hdc⟩ := Dict.mem_values_iff.1 hv
  simpa [volumeIn, hdc] using h dc

end Sums

/-- **The volumes are conserved exactly if there is one function, or no volume in any data
center.** -/
theorem conserves_iff (job : JobSpec) (stage : StageSpec) (hp : 1 ≤ stage.parallelism) :
    Conserves stage (expandedFrom job stage) ↔
      stage.parallelism = 1 ∨ ∀ dc, volumeIn stage.sourceDcs dc = 0 := by
  constructor
  · intro h
    by_contra hnot
    obtain ⟨hne, hsome⟩ := not_or.1 hnot
    obtain ⟨dc, hdc⟩ := not_forall.1 hsome
    have hsum := (sum_volumeIn job stage dc).symm.trans (h.sources dc)
    have hone : (stage.parallelism.toNat : ℚ) = 1 := (mul_eq_right₀ hdc).1 hsum
    have hone' : stage.parallelism.toNat = 1 := by exact_mod_cast hone
    omega
  · intro h
    refine ⟨?_, ?_, fun dc => ?_, fun hinput fn hfn => ?_⟩
    · rw [expandedFrom, List.map_map]
      exact sum_div_parallelism stage hp stage.inputMb
    · rw [expandedFrom, List.map_map]
      exact sum_div_parallelism stage hp stage.outputMb
    · rw [sum_volumeIn]
      obtain hone | hzero := h
      · simp [hone]
      · simp [hzero dc]
    · obtain ⟨idx, -, rfl⟩ := List.mem_map.1 hfn
      simp only [stageFunction]
      obtain hone | hzero := h
      · simp [hone, hinput]
      · rw [sum_values_eq_zero hzero] at hinput ⊢
        rw [← hinput, zero_div]

/-! ### A scan of logs -/

/-- Functions that scan the logs of two regions. -/
def readLogs (parallelism : ℤ) : StageSpec where
  stageId := "read_logs"
  functionType := "scan"
  parallelism := parallelism
  inputMb := 900
  outputMb := 250
  sourceDcs := .ofList [("us-east", 450), ("eu-west", 450)]

/-- Four functions aggregate what the scans have written; none of it is assigned to a region. -/
def aggregateLogs : StageSpec where
  stageId := "aggregate"
  functionType := "aggregate"
  parallelism := 4
  inputMb := 250
  outputMb := 12

theorem conserves_aggregateLogs :
    Conserves aggregateLogs (expandedFrom { jobId := "job", sloSeconds := 60 } aggregateLogs) :=
  (conserves_iff _ _ (by decide)).2 (.inr fun _ => rfl)

/-- Each of the two functions has all of the logs. -/
theorem not_conserves_readLogs :
    ¬ ∀ job stage, 1 ≤ stage.parallelism → Conserves stage (expandedFrom job stage) := by
  intro h
  have hsources :=
    (h { jobId := "job", sloSeconds := 60 } (readLogs 2) (by decide)).sources "us-east"
  revert hsources
  decide +kernel

end Demeter.Marl
