import Demeter.Marl.Models

/-!
# Duration and cost estimates

`MARL/cost.py`.  The square root and the real power of the compute-time estimate are parameters
(`FloatMath`), since they leave the rationals; everything else is exact.  The simulator and the
policies take the whole estimator as a parameter, of type `Estimator`.
-/

namespace Demeter.Marl

/-- The estimate for one function at one place. -/
structure FunctionMetrics where
  waitingTime : ℚ
  computeTime : ℚ
  transferTime : ℚ
  coldStartTime : ℚ
  duration : ℚ
  operatingCost : ℚ
  transferCost : ℚ
  storageCost : ℚ

/-- Operation, transfer and storage. -/
def FunctionMetrics.totalCost (m : FunctionMetrics) : ℚ :=
  m.operatingCost + m.transferCost + m.storageCost

/-- An estimator of metrics: function, data center, allocation, all data centers, time, timeout. -/
abbrev Estimator :=
  FunctionSpec → DataCenter → AllocationType → List DataCenter → ℚ → ℚ → FunctionMetrics

/-- The memory constraint on an allocation. -/
def validAllocation (fn : FunctionSpec) (allocation : AllocationType)
    (memoryLossFactor : ℚ := 8 / 10) : Bool :=
  max (fn.inputMb / max memoryLossFactor (1 / 1000000)) 1 ≤ (allocation.memoryMb : ℚ)

/-- The data center of a name. -/
def dcByName (dcs : List DataCenter) (n : String) : Option DataCenter :=
  ((dataCenterMap dcs).get? n).bind fun i => dcs[i]?

/-- The seconds that the remote input takes. -/
def estimateTransferTime (fn : FunctionSpec) (dc : DataCenter) (dcs : List DataCenter) : ℚ :=
  fn.sourceDcs.entries.foldl (fun seconds e =>
    if e.1 = dc.name then seconds
    else
      let bandwidth := ((dcByName dcs e.1).getD dc).bandwidthTo dc.name
      seconds + divBandwidth (e.2 * 8) (max bandwidth ((1 / 1000000 : ℚ) : WithTop ℚ))) 0

/-- The price of the remote input. -/
def estimateTransferCost (fn : FunctionSpec) (dc : DataCenter) (dcs : List DataCenter) : ℚ :=
  fn.sourceDcs.entries.foldl (fun cost e =>
    if e.1 = dc.name then cost
    else cost + e.2 / 1024 * ((dcByName dcs e.1).getD dc).transferPriceTo dc.name) 0

/-- The two operations on floats that are not rational. -/
structure FloatMath where
  sqrt : ℚ → ℚ
  pow : ℚ → ℚ → ℚ

/-- The seconds of the computation. -/
def estimateComputeTime (fm : FloatMath) (fn : FunctionSpec) (allocation : AllocationType) : ℚ :=
  let base := (fn.metadata.get? "base_seconds").getD (5 / 100)
  let cpuSensitivity := (fn.metadata.get? "cpu_sensitivity").getD (65 / 100)
  let memorySensitivity := (fn.metadata.get? "memory_sensitivity").getD (35 / 100)
  let typeWeight := (fn.metadata.get? "type_weight").getD 1
  let inputMb := max fn.inputMb 1
  let memoryTerm := fm.sqrt ((max allocation.memoryMb 1 : ℤ) / 1024)
  let cpuTerm := fm.pow (max allocation.cpuCores (1 / 10)) cpuSensitivity
  typeWeight *
    (base + inputMb / (45 * cpuTerm * fm.pow (max memoryTerm (1 / 10)) memorySensitivity))

/-- The metrics for an estimated compute time. -/
def metricsOf (computeTime : ℚ) : Estimator := fun fn dc allocation dcs now timeoutSeconds =>
  let waiting := max 0 (now - fn.arrivalTime)
  let transferTime := estimateTransferTime fn dc dcs
  let coldStart :=
    (if dc.warmContainers > 0 then 0
      else (fn.metadata.get? "cold_start_seconds").getD (4 / 10)) + fn.coldStartPenalty
  let duration :=
    min (waiting + transferTime + computeTime + coldStart) (timeoutSeconds * (15 / 10))
  { waitingTime := waiting
    computeTime := computeTime
    transferTime := transferTime
    coldStartTime := coldStart
    duration := duration
    operatingCost :=
      duration * (dc.priceCoreSecond * allocation.cpuCores +
        dc.priceGbSecond * allocation.memoryGb) + dc.requestPrice
    transferCost := estimateTransferCost fn dc dcs
    storageCost :=
      max fn.outputMb 0 / 1024 * dc.storageGbSecond * max computeTime (1 / 1000) }

/-- `estimate_metrics`. -/
def estimateMetrics (fm : FloatMath) : Estimator := fun fn dc allocation dcs now timeoutSeconds =>
  metricsOf (estimateComputeTime fm fn allocation) fn dc allocation dcs now timeoutSeconds

end Demeter.Marl
