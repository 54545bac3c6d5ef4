import Demeter.Marl.Optimizer
import Demeter.Marl.Policy

/-!
# The controller

`MARL/controller.py`: jobs are registered, observed and acted upon.  The source keeps one object
per function and mutates it through several dictionaries; here a function lives in its job, and
`fnById` maps a function id to its place `(job key, function key)`.

* `registerJob`, `observe`, `applyActions`, `runOnce`;
* `getFn` and `modifyFn` read and write through a place, with their lookup lemmas.
-/

namespace Demeter.Marl

/-- The controller: its configuration and the registered jobs. -/
structure DemeterController where
  config : DemeterConfig
  jobs : Dict String JobSpec

namespace DemeterController

/-- No jobs yet. -/
def init (config : DemeterConfig) : DemeterController := ⟨config, .empty⟩

/-- A job replaces the one with the same id. -/
def registerJob (c : DemeterController) (raw : RawProfile) : DemeterController :=
  { c with jobs := c.jobs.set (buildJob raw).jobId (buildJob raw) }

end DemeterController

/-! ### Places of functions -/

/-- The place of a function: the key of its job and its key in that job. -/
abbrev FnRef := String × String

/-- All functions by id; of two functions with one id the later one is found. -/
def fnById (jobs : Dict String JobSpec) : Dict String FnRef :=
  .ofList <| jobs.entries.flatMap fun j =>
    j.2.functions.entries.map fun f => (f.2.functionId, (j.1, f.1))

/-- The function at a place. -/
def getFn (jobs : Dict String JobSpec) (ref : FnRef) : Option FunctionSpec :=
  (jobs.get? ref.1).bind fun job => job.functions.get? ref.2

/-- A change of the function at a place. -/
def modifyFn (jobs : Dict String JobSpec) (ref : FnRef) (f : FunctionSpec → FunctionSpec) :
    Dict String JobSpec :=
  jobs.modify ref.1 fun job => { job with functions := job.functions.modify ref.2 f }

/-- All functions of all jobs, in the order of the dictionaries. -/
def allFunctions (jobs : Dict String JobSpec) : List FunctionSpec :=
  jobs.values.flatMap fun job => job.functions.values

theorem getFn_of_fnById {jobs : Dict String JobSpec} {fid : String} {ref : FnRef}
    (h : (fnById jobs).get? fid = some ref) :
    ∃ fn, getFn jobs ref = some fn ∧ fn.functionId = fid := by
  have hmem := Dict.mem_of_get?_ofList h
  simp only [List.mem_flatMap, List.mem_map] at hmem
  obtain ⟨⟨jk, job⟩, hj, ⟨k, fn⟩, hf, heq⟩ := hmem
  cases heq
  refine ⟨fn, ?_, rfl⟩
  simp only [getFn, Dict.mem_entries_iff.1 hj, Option.bind_some, Dict.mem_entries_iff.1 hf]

theorem getFn_eq_some_iff {jobs : Dict String JobSpec} {ref : FnRef} {fn : FunctionSpec} :
    getFn jobs ref = some fn ↔
      ∃ job, jobs.get? ref.1 = some job ∧ job.functions.get? ref.2 = some fn := by
  simp [getFn, Option.bind_eq_some_iff]

theorem mem_allFunctions_iff {jobs : Dict String JobSpec} {fn : FunctionSpec} :
    fn ∈ allFunctions jobs ↔ ∃ ref, getFn jobs ref = some fn := by
  simp only [allFunctions, List.mem_flatMap, Dict.mem_values_iff, getFn_eq_some_iff]
  constructor
  · rintro ⟨job, ⟨jk, hj⟩, k, hk⟩
    exact ⟨(jk, k), job, hj, hk⟩
  · rintro ⟨⟨jk, k⟩, job, hj, hk⟩
    exact ⟨job, ⟨jk, hj⟩, k, hk⟩

theorem getFn_modifyFn (jobs : Dict String JobSpec) (ref ref' : FnRef)
    (f : FunctionSpec → FunctionSpec) :
    getFn (modifyFn jobs ref f) ref' =
      if ref' = ref then (getFn jobs ref').map f else getFn jobs ref' := by
  obtain ⟨jk, k⟩ := ref
  obtain ⟨jk', k'⟩ := ref'
  simp only [getFn, modifyFn, Dict.get?_modify, Prod.mk.injEq]
  by_cases hj : jk' = jk
  · subst hj
    cases jobs.get? jk' with
    | none => simp
    | some job => by_cases hk : k' = k <;> simp [hk, Dict.get?_modify]
  · simp [hj]

/-- The arrival time of the job of a place. -/
def arrivalAt (jobs : Dict String JobSpec) (ref : FnRef) : Option ℚ :=
  (jobs.get? ref.1).map (·.arrivalTime)

@[simp] theorem arrivalAt_modifyFn (jobs : Dict String JobSpec) (ref ref' : FnRef)
    (f : FunctionSpec → FunctionSpec) :
    arrivalAt (modifyFn jobs ref f) ref' = arrivalAt jobs ref' := by
  simp only [arrivalAt, modifyFn, Dict.get?_modify]
  split_ifs <;> simp [Function.comp_def]

theorem mem_values_modifyFn {jobs : Dict String JobSpec} {ref : FnRef}
    {f : FunctionSpec → FunctionSpec} {job : JobSpec} (h : job ∈ (modifyFn jobs ref f).values) :
    job ∈ jobs.values ∨ ∃ job₀, jobs.get? ref.1 = some job₀ ∧
      job = { job₀ with functions := job₀.functions.modify ref.2 f } :=
  Dict.exists_of_mem_values_modify h

/-- Changing one function changes a sum over all functions at that function only. -/
theorem sum_allFunctions_modifyFn {M : Type*} [AddCommGroup M] (m : FunctionSpec → M)
    {jobs : Dict String JobSpec} {ref : FnRef} {fn : FunctionSpec}
    (f : FunctionSpec → FunctionSpec) (h : getFn jobs ref = some fn) :
    ((allFunctions (modifyFn jobs ref f)).map m).sum + m fn =
      ((allFunctions jobs).map m).sum + m (f fn) := by
  have sum_eq : ∀ l : List JobSpec, ((l.flatMap fun job => job.functions.values).map m).sum =
      (l.map fun job => (job.functions.values.map m).sum).sum := by
    intro l
    induction l with
    | nil => rfl
    | cons job l ih => rw [List.flatMap_cons, List.map_append, List.sum_append, ih, List.map_cons,
        List.sum_cons]
  obtain ⟨job, hjob, hfn⟩ := getFn_eq_some_iff.1 h
  have hin := Dict.sum_map_modify m job.functions f hfn
  have hout := Dict.sum_map_modify (fun job => (job.functions.values.map m).sum) jobs
    (fun job => { job with functions := job.functions.modify ref.2 f }) hjob
  simp only [allFunctions, modifyFn, sum_eq] at hout ⊢
  rw [← add_left_inj (job.functions.values.map m).sum, add_right_comm, hout, add_right_comm,
    add_assoc, add_comm (m fn), hin, add_assoc, add_comm (m (f fn))]

/-- Changing one function changes a count over all functions at that function only. -/
theorem countP_allFunctions_modifyFn (p : FunctionSpec → Bool) {jobs : Dict String JobSpec}
    {ref : FnRef} {fn : FunctionSpec} (f : FunctionSpec → FunctionSpec)
    (h : getFn jobs ref = some fn) :
    (allFunctions (modifyFn jobs ref f)).countP p + (if p fn then 1 else 0) =
      (allFunctions jobs).countP p + if p (f fn) then 1 else 0 := by
  have sum_eq : ∀ l : List FunctionSpec,
      (l.countP p : ℤ) = (l.map fun fn => if p fn then 1 else 0).sum := by
    intro l
    induction l with
    | nil => rfl
    | cons fn l ih =>
      rw [List.countP_cons, List.map_cons, List.sum_cons, ← ih, add_comm]
      push_cast
      rfl
  have hsum := sum_allFunctions_modifyFn (fun fn => if p fn then (1 : ℤ) else 0) f h
  rw [← sum_eq, ← sum_eq] at hsum
  exact_mod_cast hsum

/-! ### Observing -/

/-- The slice `xs[:n]` of a list. -/
def slice {α : Type*} (n : ℤ) (xs : List α) : List α :=
  if 0 ≤ n then xs.take n.toNat else xs.take (xs.length - (-n).toNat)

namespace DemeterController

/-- Run the release pass over every job. -/
def release (c : DemeterController) (now : ℚ) : DemeterController :=
  { c with jobs := c.jobs.mapVals fun _ job => releaseReadyFunctions job now }

theorem getFn_release {c : DemeterController} {now : ℚ} {ref : FnRef} {fn : FunctionSpec}
    (h : getFn (c.release now).jobs ref = some fn) :
    ∃ job fn₀, c.jobs.get? ref.1 = some job ∧ job.functions.get? ref.2 = some fn₀ ∧
      fn = releaseFunction job.functions now fn₀ := by
  obtain ⟨job, hjob, hfn⟩ := getFn_eq_some_iff.1 h
  rw [release, Dict.get?_mapVals, Option.map_eq_some_iff] at hjob
  obtain ⟨job₀, hjob₀, rfl⟩ := hjob
  rw [releaseReadyFunctions, Dict.get?_mapVals, Option.map_eq_some_iff] at hfn
  obtain ⟨fn₀, hfn₀, rfl⟩ := hfn
  exact ⟨job₀, fn₀, hjob₀, hfn₀, rfl⟩

theorem getFn_release_of_eq_some {c : DemeterController} {ref : FnRef} {job : JobSpec}
    {fn : FunctionSpec} (hjob : c.jobs.get? ref.1 = some job)
    (hfn : job.functions.get? ref.2 = some fn) (now : ℚ) :
    getFn (c.release now).jobs ref = some (releaseFunction job.functions now fn) := by
  rw [getFn_eq_some_iff]
  refine ⟨releaseReadyFunctions job now, ?_, ?_⟩
  · rw [release, Dict.get?_mapVals, hjob, Option.map_some]
  · rw [releaseReadyFunctions, Dict.get?_mapVals, hfn, Option.map_some]

@[simp] theorem arrivalAt_release (c : DemeterController) (now : ℚ) (ref : FnRef) :
    arrivalAt (c.release now).jobs ref = arrivalAt c.jobs ref := by
  simp only [arrivalAt, release, Dict.get?_mapVals, Option.map_map]
  rfl

/-- A property that the release pass does not change counts the same functions after it. -/
theorem countP_allFunctions_release {p : FunctionSpec → Bool} {now : ℚ}
    (hp : ∀ funcs fn, p (releaseFunction funcs now fn) = p fn) (c : DemeterController) :
    (allFunctions (c.release now).jobs).countP p = (allFunctions c.jobs).countP p := by
  simp only [allFunctions, release, releaseReadyFunctions, Dict.values_mapVals, List.flatMap_map,
    List.countP_flatMap, Function.comp_def, List.countP_map, hp]

theorem allFunctions_registerJob {c : DemeterController} {raw : RawProfile}
    (h : raw.jobId ∉ c.jobs.keys) :
    allFunctions (c.registerJob raw).jobs =
      allFunctions c.jobs ++ (buildJob raw).functions.values := by
  simp [allFunctions, registerJob, Dict.values, Dict.entries_set_of_notMem h, List.flatMap_append]

theorem getFn_registerJob {c : DemeterController} {raw : RawProfile} {ref : FnRef} :
    getFn (c.registerJob raw).jobs ref =
      if ref.1 = raw.jobId then (buildJob raw).functions.get? ref.2 else getFn c.jobs ref := by
  simp only [getFn, registerJob, Dict.get?_set, jobId_buildJob]
  split_ifs <;> rfl

/-- The pending functions by candidate data center, before they are cut to a wave. -/
def pendingByDc (c : DemeterController) : Dict String (List FunctionSpec) :=
  let base : Dict String (List FunctionSpec) := .ofList (c.config.dataCenters.map (·.name, []))
  base.appendAll <| ((allFunctions c.jobs).filter (·.status = .pending)).flatMap fun fn =>
    (if fn.candidateDcs = [] then base.keys else fn.candidateDcs).map (·, fn)

/-- What a policy sees of the current state. -/
def observation (c : DemeterController) (now : ℚ) : Observation where
  now := now
  jobs := c.jobs.values
  dataCenters := c.config.dataCenters
  pendingByDc := c.pendingByDc.mapVals fun _ fns => slice c.config.runtime.maxWaveSize fns
  running := (allFunctions c.jobs).filter (·.status = .running)

/-- Release the ready functions, then observe. -/
def observe (c : DemeterController) (now : ℚ) : DemeterController × Observation :=
  (c.release now, (c.release now).observation now)

/-! ### Acting -/

/-- What an action refers to, through the dictionaries made before the loop over the actions:
the function with its place and the data center with its position. -/
def resolve (refs : Dict String FnRef) (dcs : Dict String ℕ) (c : DemeterController)
    (action : OrchestrationAction) : Option (FnRef × FunctionSpec × ℕ × DataCenter) := do
  let ref ← refs.get? action.functionId
  let fn ← getFn c.jobs ref
  let i ← dcs.get? action.dcName
  let dc ← c.config.dataCenters[i]?
  return (ref, fn, i, dc)

/-- Change the function at a place and the data center at a position. -/
def update (c : DemeterController) (ref : FnRef) (f : FunctionSpec → FunctionSpec) (i : ℕ)
    (g : DataCenter → DataCenter) : DemeterController where
  config := { c.config with dataCenters := c.config.dataCenters.modify i g }
  jobs := modifyFn c.jobs ref f

/-- What placing a function does to it. -/
def placeFunction (now : ℚ) (action : OrchestrationAction) (fn : FunctionSpec) : FunctionSpec :=
  { fn with
    placement := some action.dcName
    allocation := some action.allocation
    startTime := some now
    status := .running }

/-- What placing a function does to its data center. -/
def takeSlot (dc : DataCenter) : DataCenter :=
  { dc with
    runningFunctions := dc.runningFunctions + 1
    availableExecutors := max 0 (dc.availableExecutors - 1) }

/-- One action; an unknown function id or data center is skipped. -/
def applyAction (refs : Dict String FnRef) (dcs : Dict String ℕ) (now : ℚ)
    (c : DemeterController) (action : OrchestrationAction) : DemeterController :=
  match resolve refs dcs c action with
  | some (ref, _, i, _) => c.update ref (placeFunction now action) i takeSlot
  | none => c

/-- `apply_actions`: the functions are looked up once, before the first action. -/
def applyActions (c : DemeterController) (actions : List OrchestrationAction) (now : ℚ) :
    DemeterController :=
  actions.foldl (applyAction (fnById c.jobs) (dataCenterMap c.config.dataCenters) now) c

/-- One orchestration round: observe, plan and apply the plan. -/
def runOnce {ρ : Type} (policy : Policy ρ) (s : DemeterController × ρ) (now : ℚ) :
    DemeterController × ρ :=
  let observed := s.1.observe now
  let planned := policy s.2 observed.2
  (observed.1.applyActions planned.1 now, planned.2)

theorem resolve_eq_some_iff {refs : Dict String FnRef} {dcs : Dict String ℕ}
    {c : DemeterController} {action : OrchestrationAction} {ref : FnRef} {fn : FunctionSpec}
    {i : ℕ} {dc : DataCenter} :
    resolve refs dcs c action = some (ref, fn, i, dc) ↔
      refs.get? action.functionId = some ref ∧ getFn c.jobs ref = some fn ∧
        dcs.get? action.dcName = some i ∧ c.config.dataCenters[i]? = some dc := by
  simp only [resolve, Option.bind_eq_bind, Option.bind_eq_some_iff, Option.pure_def,
    Option.some.injEq, Prod.mk.injEq]
  constructor
  · rintro ⟨_, h1, _, h2, _, h3, _, h4, rfl, rfl, rfl, rfl⟩
    exact ⟨h1, h2, h3, h4⟩
  · rintro ⟨h1, h2, h3, h4⟩
    exact ⟨_, h1, _, h2, _, h3, _, h4, rfl, rfl, rfl, rfl⟩

/-- An action is skipped, or it places the function it refers to, whatever its status. -/
theorem applyAction_cases (refs : Dict String FnRef) (dcs : Dict String ℕ) (now : ℚ)
    (c : DemeterController) (action : OrchestrationAction) :
    (applyAction refs dcs now c action = c ∧ resolve refs dcs c action = none) ∨
      ∃ ref fn i dc, resolve refs dcs c action = some (ref, fn, i, dc) ∧
        applyAction refs dcs now c action =
          c.update ref (placeFunction now action) i takeSlot := by
  unfold applyAction
  cases hr : resolve refs dcs c action with
  | none => exact Or.inl ⟨rfl, rfl⟩
  | some r =>
    obtain ⟨ref, fn, i, dc⟩ := r
    exact Or.inr ⟨ref, fn, i, dc, rfl, rfl⟩

end DemeterController

end Demeter.Marl
