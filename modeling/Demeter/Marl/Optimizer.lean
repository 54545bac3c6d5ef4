import Demeter.Marl.Models

/-!
# The DAG optimizer

`MARL/optimizer.py`: a raw job profile becomes a job, its stages are expanded into parallel
functions, the stage edges into function-level predecessor and successor lists, and functions whose
predecessors have finished are released.

* `buildJob`, `expandExecutionGraph`, `releaseReadyFunctions`;
* `Expanded` collects what holds of the functions of a freshly built job, and `expanded_buildJob`
  shows it for every profile: repeated stages, unknown stages in edges and self edges included.
-/

namespace Demeter.Marl

/-! ### Raw profiles -/

/-- A stage of a raw job profile; `none` stands for a missing key. -/
structure RawStage where
  id : String
  function : Option String := none
  type : Option String := none
  parallelism : Option ℤ := none
  trigger : Option String := none
  inputMb : Option ℚ := none
  outputMb : Option ℚ := none
  candidateDcs : Option (List String) := none
  sourceDcs : Option (Dict String ℚ) := none
  metadata : Option (Dict String ℚ) := none

/-- A raw job profile; `none` stands for a missing key. -/
structure RawProfile where
  jobId : String
  sloSeconds : Option ℚ := none
  slo : Option ℚ := none
  arrivalTime : Option ℚ := none
  priority : Option ℚ := none
  stages : List RawStage := []
  edges : List (String × String) := []
  candidateDcs : Option (List String) := none
  sourceDcs : Option (Dict String ℚ) := none

/-- The parallelism of a stage that states none. -/
def defaultParallelism : ℤ := 1

/-- The stage described by an item of a profile, with the defaults of the source. -/
def buildStage (raw : RawProfile) (item : RawStage) : StageSpec where
  stageId := item.id
  functionType := item.function.getD (item.type.getD item.id)
  parallelism := item.parallelism.getD defaultParallelism
  trigger := item.trigger.getD "direct"
  inputMb := item.inputMb.getD 1
  outputMb := item.outputMb.getD (item.inputMb.getD 1)
  candidateDcs := item.candidateDcs.getD (raw.candidateDcs.getD [])
  sourceDcs := item.sourceDcs.getD (raw.sourceDcs.getD .empty)
  metadata := item.metadata.getD .empty

/-! ### Expansion -/

/-- The id of the `idx`-th function of a stage. -/
def functionId (jobId stageId : String) (idx : ℕ) : String :=
  jobId ++ ":" ++ stageId ++ ":" ++ toString idx

/-- A stage without an incoming edge. -/
def isSourceStage (job : JobSpec) (stageId : String) : Bool :=
  stageId ∉ job.edges.map Prod.snd

/-- The `idx`-th parallel function of a stage. -/
def stageFunction (job : JobSpec) (stage : StageSpec) (idx : ℕ) : FunctionSpec where
  functionId := functionId job.jobId stage.stageId idx
  jobId := job.jobId
  stageId := stage.stageId
  functionType := stage.functionType
  inputMb := stage.inputMb / (max stage.parallelism 1 : ℤ)
  outputMb := stage.outputMb / (max stage.parallelism 1 : ℤ)
  status := if isSourceStage job stage.stageId then .pending else .waiting
  candidateDcs := stage.candidateDcs
  sourceDcs := stage.sourceDcs
  arrivalTime := job.arrivalTime
  metadata := stage.metadata

/-- All functions, keyed by their ids; a later stage replaces functions of the same id. -/
def stageFunctions (job : JobSpec) : Dict String FunctionSpec :=
  .ofList <| job.stages.flatMap fun stage =>
    (List.range stage.parallelism.toNat).map fun idx =>
      ((stageFunction job stage idx).functionId, stageFunction job stage idx)

/-- Functions in the order of their ids. -/
def sortById (fns : List FunctionSpec) : List FunctionSpec :=
  fns.insertionSort fun a b => a.functionId ≤ b.functionId

/-- The trigger of a stage; edges into unknown stages count as direct. -/
def triggerOf (job : JobSpec) (stageId : String) : String :=
  (((Dict.ofList (job.stages.map fun s => (s.stageId, s))).get? stageId).map (·.trigger)).getD
    "direct"

/-- The function pairs a stage edge stands for: one to one, or all to all. -/
def edgePairs (job : JobSpec) (funcs : Dict String FunctionSpec) (edge : String × String) :
    List (FunctionSpec × FunctionSpec) :=
  let srcFns := funcs.values.filter (·.stageId = edge.1)
  let dstFns := funcs.values.filter (·.stageId = edge.2)
  if triggerOf job edge.2 ∈ ["direct", "one_to_one"] ∧ srcFns.length = dstFns.length then
    (sortById srcFns).zip (sortById dstFns)
  else
    srcFns.flatMap fun src => dstFns.map fun dst => (src, dst)

/-- Record one function-level edge at both of its ends. -/
def link (funcs : Dict String FunctionSpec) (pair : FunctionSpec × FunctionSpec) :
    Dict String FunctionSpec :=
  (funcs.modify pair.1.functionId fun fn =>
      { fn with successors := fn.successors ++ [pair.2.functionId] }).modify
    pair.2.functionId fun fn => { fn with predecessors := fn.predecessors ++ [pair.1.functionId] }

/-- An edge between stages becomes edges between functions. -/
def linkEdge (job : JobSpec) (funcs : Dict String FunctionSpec) (edge : String × String) :
    Dict String FunctionSpec :=
  (edgePairs job funcs edge).foldl link funcs

/-- `expand_execution_graph`. -/
def expandExecutionGraph (job : JobSpec) : JobSpec :=
  { job with functions := job.edges.foldl (linkEdge job) (stageFunctions job) }

/-- The job described by a profile, before its stages are expanded. -/
def profileJob (raw : RawProfile) : JobSpec where
  jobId := raw.jobId
  sloSeconds := raw.sloSeconds.getD (raw.slo.getD 60)
  arrivalTime := raw.arrivalTime.getD 0
  priority := raw.priority.getD 1
  stages := raw.stages.map (buildStage raw)
  edges := raw.edges

/-- `build_job`. -/
def buildJob (raw : RawProfile) : JobSpec := expandExecutionGraph (profileJob raw)

/-! ### Releasing functions -/

/-- The function stored under `p` has finished. -/
def IsFinished (funcs : Dict String FunctionSpec) (p : String) : Prop :=
  ∃ fn, funcs.get? p = some fn ∧ fn.status = .finished

instance (funcs : Dict String FunctionSpec) (p : String) : Decidable (IsFinished funcs p) :=
  decidable_of_iff ((funcs.get? p).any (·.status = .finished)) <| by
    simp [IsFinished, Option.any_eq_true]

/-- What the release pass does to one function. -/
def releaseFunction (funcs : Dict String FunctionSpec) (now : ℚ) (fn : FunctionSpec) :
    FunctionSpec :=
  if fn.status = .waiting ∧ ∀ p ∈ fn.predecessors, IsFinished funcs p then
    { fn with status := .pending, arrivalTime := now }
  else fn

/-- Release every waiting function whose predecessors have all finished.  The pass finishes no
function, so each test sees the finished functions of the job it started from. -/
def releaseReadyFunctions (job : JobSpec) (now : ℚ) : JobSpec :=
  { job with functions := job.functions.mapVals fun _ fn => releaseFunction job.functions now fn }

theorem get?_releaseReadyFunctions (job : JobSpec) (now : ℚ) (k : String) :
    (releaseReadyFunctions job now).functions.get? k =
      (job.functions.get? k).map (releaseFunction job.functions now) :=
  Dict.get?_mapVals _ _ _

/-- A function is left alone, or it was waiting for nothing and becomes pending. -/
theorem releaseFunction_cases (funcs : Dict String FunctionSpec) (now : ℚ) (fn : FunctionSpec) :
    (releaseFunction funcs now fn = fn ∧
        (fn.status = .waiting → ∃ p ∈ fn.predecessors, ¬ IsFinished funcs p)) ∨
      (releaseFunction funcs now fn = { fn with status := .pending, arrivalTime := now } ∧
        fn.status = .waiting ∧ ∀ p ∈ fn.predecessors, IsFinished funcs p) := by
  unfold releaseFunction
  split_ifs with h
  · exact Or.inr ⟨rfl, h⟩
  · refine Or.inl ⟨rfl, fun hw => ?_⟩
    simpa [hw] using h

@[simp] theorem predecessors_releaseFunction (funcs : Dict String FunctionSpec) (now : ℚ)
    (fn : FunctionSpec) : (releaseFunction funcs now fn).predecessors = fn.predecessors := by
  rcases releaseFunction_cases funcs now fn with ⟨h, -⟩ | ⟨h, -⟩ <;> rw [h]

theorem releaseFunction_of_finished {funcs : Dict String FunctionSpec} {now : ℚ}
    {fn : FunctionSpec} (h : fn.status = .finished) : releaseFunction funcs now fn = fn := by
  unfold releaseFunction
  rw [if_neg (by simp [h])]

theorem status_releaseFunction_eq_finished {funcs : Dict String FunctionSpec} {now : ℚ}
    {fn : FunctionSpec} :
    (releaseFunction funcs now fn).status = .finished ↔ fn.status = .finished := by
  rcases releaseFunction_cases funcs now fn with ⟨h, -⟩ | ⟨h, hw, -⟩
  · rw [h]
  · simp [h, hw]

/-! ### The functions of a freshly built job -/

/-- What expansion guarantees, `targets` being the stages with an incoming edge: functions are
stored under their own ids, nothing has been executed, predecessor ids are known functions, and
a function is pending exactly when no edge leads to its stage, in which case it has no
predecessors. -/
structure Expanded (targets : List String) (funcs : Dict String FunctionSpec) : Prop where
  keyed : ∀ {k fn}, funcs.get? k = some fn → fn.functionId = k
  unstarted : ∀ {k fn}, funcs.get? k = some fn → fn.startTime = none
  unplaced : ∀ {k fn}, funcs.get? k = some fn → fn.placement = none
  status : ∀ {k fn}, funcs.get? k = some fn →
    fn.status = if fn.stageId ∈ targets then .waiting else .pending
  known : ∀ {k fn}, funcs.get? k = some fn → ∀ p ∈ fn.predecessors, p ∈ funcs.keys
  target : ∀ {k fn}, funcs.get? k = some fn → fn.predecessors ≠ [] → fn.stageId ∈ targets

theorem mem_stageFunctions {job : JobSpec} {k : String} {fn : FunctionSpec}
    (h : (stageFunctions job).get? k = some fn) :
    ∃ stage ∈ job.stages, ∃ idx, fn = stageFunction job stage idx ∧ k = fn.functionId := by
  have hmem := Dict.mem_of_get?_ofList h
  rw [List.mem_flatMap] at hmem
  obtain ⟨stage, hs, hmem⟩ := hmem
  obtain ⟨idx, -, heq⟩ := List.mem_map.1 hmem
  cases heq
  exact ⟨stage, hs, idx, rfl, rfl⟩

theorem expanded_stageFunctions (job : JobSpec) :
    Expanded (job.edges.map Prod.snd) (stageFunctions job) where
  keyed h := by obtain ⟨_, -, _, rfl, rfl⟩ := mem_stageFunctions h; rfl
  unstarted h := by obtain ⟨_, -, _, rfl, rfl⟩ := mem_stageFunctions h; rfl
  unplaced h := by obtain ⟨_, -, _, rfl, rfl⟩ := mem_stageFunctions h; rfl
  status h := by
    obtain ⟨stage, -, idx, rfl, rfl⟩ := mem_stageFunctions h
    by_cases hm : stage.stageId ∈ job.edges.map Prod.snd <;>
      simp only [stageFunction, isSourceStage, hm, not_true_eq_false, not_false_eq_true,
        decide_true, decide_false, if_true, if_false, Bool.false_eq_true]
  known h := by obtain ⟨_, -, _, rfl, rfl⟩ := mem_stageFunctions h; simp [stageFunction]
  target h := by obtain ⟨_, -, _, rfl, rfl⟩ := mem_stageFunctions h; simp [stageFunction]

@[simp] theorem keys_link (funcs : Dict String FunctionSpec)
    (pair : FunctionSpec × FunctionSpec) : (link funcs pair).keys = funcs.keys := by
  simp [link]

/-- A function after one link: the lists may have grown, the other fields are the same. -/
theorem get?_link {funcs : Dict String FunctionSpec} {pair : FunctionSpec × FunctionSpec}
    {k : String} {fn : FunctionSpec} (h : (link funcs pair).get? k = some fn) :
    ∃ fn₀ ss ps, funcs.get? k = some fn₀ ∧
      fn = { fn₀ with successors := ss, predecessors := ps } ∧
      ps = fn₀.predecessors ++ if k = pair.2.functionId then [pair.1.functionId] else [] := by
  unfold link at h
  rw [Dict.get?_modify, Dict.get?_modify] at h
  cases h₀ : funcs.get? k with
  | none => simp [h₀] at h
  | some fn₀ =>
    rw [h₀] at h
    split_ifs at h with h2 h1 h1 <;> cases h <;>
      exact ⟨_, _, _, rfl, rfl, by simp [h2]⟩

/-- Linking two known functions, the second in a target stage, keeps the guarantees. -/
theorem Expanded.link {targets : List String} {funcs : Dict String FunctionSpec}
    (he : Expanded targets funcs) {pair : FunctionSpec × FunctionSpec}
    (h1 : pair.1.functionId ∈ funcs.keys)
    (h2 : ∀ fn, funcs.get? pair.2.functionId = some fn → fn.stageId ∈ targets) :
    Expanded targets (link funcs pair) where
  keyed h := by obtain ⟨fn₀, _, _, h₀, rfl, -⟩ := get?_link h; exact (he.keyed h₀ :)
  unstarted h := by obtain ⟨fn₀, _, _, h₀, rfl, -⟩ := get?_link h; exact (he.unstarted h₀ :)
  unplaced h := by obtain ⟨fn₀, _, _, h₀, rfl, -⟩ := get?_link h; exact (he.unplaced h₀ :)
  status h := by obtain ⟨fn₀, _, _, h₀, rfl, -⟩ := get?_link h; exact (he.status h₀ :)
  known h p hp := by
    obtain ⟨fn₀, _, _, h₀, rfl, rfl⟩ := get?_link h
    rw [keys_link]
    rcases List.mem_append.1 hp with hp | hp
    · exact he.known h₀ p hp
    · split_ifs at hp
      · rw [List.mem_singleton.1 hp]; exact h1
      · cases hp
  target h hne := by
    obtain ⟨fn₀, _, _, h₀, rfl, rfl⟩ := get?_link h
    split_ifs at hne with hk
    · exact h2 fn₀ (hk ▸ h₀)
    · exact (he.target h₀ (by simpa using hne) :)

theorem mem_sortById {fns : List FunctionSpec} {fn : FunctionSpec} :
    fn ∈ sortById fns ↔ fn ∈ fns := (List.perm_insertionSort _ fns).mem_iff

/-- The ends of an edge's pairs are functions of the edge's stages. -/
theorem mem_edgePairs {job : JobSpec} {funcs : Dict String FunctionSpec} {edge : String × String}
    {pair : FunctionSpec × FunctionSpec} (h : pair ∈ edgePairs job funcs edge) :
    (pair.1 ∈ funcs.values ∧ pair.1.stageId = edge.1) ∧
      (pair.2 ∈ funcs.values ∧ pair.2.stageId = edge.2) := by
  obtain ⟨src, dst⟩ := pair
  simp only [edgePairs] at h
  split_ifs at h with hc
  · obtain ⟨h1, h2⟩ := List.of_mem_zip h
    rw [mem_sortById] at h1 h2
    simpa using And.intro h1 h2
  · simp only [List.mem_flatMap, List.mem_map, Prod.mk.injEq] at h
    obtain ⟨s, hs, d, hd, rfl, rfl⟩ := h
    simpa using And.intro hs hd

theorem Expanded.foldl_link {targets : List String} {funcs : Dict String FunctionSpec}
    (he : Expanded targets funcs) (pairs : List (FunctionSpec × FunctionSpec))
    (h : ∀ pair ∈ pairs, pair.1.functionId ∈ funcs.keys ∧
      ∀ fn, funcs.get? pair.2.functionId = some fn → fn.stageId ∈ targets) :
    Expanded targets (pairs.foldl Marl.link funcs) := by
  induction pairs generalizing funcs with
  | nil => exact he
  | cons pair pairs ih =>
    have hp := h pair List.mem_cons_self
    refine ih (he.link hp.1 hp.2) fun q hq => ?_
    obtain ⟨hk, hs⟩ := h q (List.mem_cons_of_mem _ hq)
    refine ⟨by rwa [keys_link], fun fn hfn => ?_⟩
    obtain ⟨fn₀, _, _, h₀, rfl, -⟩ := get?_link hfn
    exact hs fn₀ h₀

theorem Expanded.linkEdge {targets : List String} {funcs : Dict String FunctionSpec}
    (he : Expanded targets funcs) (job : JobSpec) {edge : String × String}
    (hedge : edge.2 ∈ targets) : Expanded targets (linkEdge job funcs edge) := by
  refine he.foldl_link _ fun pair hpair => ?_
  obtain ⟨⟨h1, -⟩, h2, hs⟩ := mem_edgePairs hpair
  obtain ⟨k1, hk1⟩ := Dict.mem_values_iff.1 h1
  obtain ⟨k2, hk2⟩ := Dict.mem_values_iff.1 h2
  refine ⟨Dict.mem_keys_iff.2 ⟨pair.1, by rwa [he.keyed hk1]⟩, fun fn hfn => ?_⟩
  rw [he.keyed hk2, hk2, Option.some.injEq] at hfn
  rw [← hfn, hs]
  exact hedge

theorem expanded_expandExecutionGraph (job : JobSpec) :
    Expanded (job.edges.map Prod.snd) (expandExecutionGraph job).functions := by
  -- the edges still to be linked all lead to target stages
  have key : ∀ (edges : List (String × String)) (funcs : Dict String FunctionSpec),
      Expanded (job.edges.map Prod.snd) funcs → (∀ e ∈ edges, e.2 ∈ job.edges.map Prod.snd) →
      Expanded (job.edges.map Prod.snd) (edges.foldl (linkEdge job) funcs) := by
    intro edges
    induction edges with
    | nil => exact fun funcs he _ => he
    | cons e edges ih =>
      intro funcs he hmem
      exact ih _ (he.linkEdge job (hmem e List.mem_cons_self))
        fun e' he' => hmem e' (List.mem_cons_of_mem _ he')
  exact key _ _ (expanded_stageFunctions job) fun e he => List.mem_map.2 ⟨e, he, rfl⟩

/-- **Every built job satisfies the guarantees of expansion.** -/
theorem expanded_buildJob (raw : RawProfile) :
    Expanded (raw.edges.map Prod.snd) (buildJob raw).functions :=
  expanded_expandExecutionGraph (profileJob raw)

@[simp] theorem jobId_buildJob (raw : RawProfile) : (buildJob raw).jobId = raw.jobId := rfl

end Demeter.Marl
