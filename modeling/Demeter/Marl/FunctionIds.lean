import Demeter.Marl.Expansion
import Demeter.Marl.Lifecycle

/-!
# Function ids across jobs

`apply_actions` of the controller and `step` of the simulator find the function of an action in the
dictionary `fn_by_id`, made of the functions of all jobs.  A function id joins the job id, the stage
id and an index with colons.

* `functionId_eq_iff` says when two ids are equal, and `Ambiguous` when two profiles have one in
  common;
* `places` are the items of `fn_by_id`; nothing but a registration changes them;
* `Addressed` says that the ids are distinct, that `fn_by_id` has every function, and that the
  actions of a plan change exactly the functions they name;
* `addressed_iff` says that this holds throughout all runs exactly when no two profiles are
  ambiguous.
-/

namespace Demeter.Marl

/-! ### Equal ids -/

/-- The id `job'` goes on with a colon and the beginning of `stage`, of which `stage'` is the
rest. -/
def Shifted (job stage job' stage' : String) : Prop :=
  ∃ x : String, job' = job ++ ":" ++ x ∧ stage = x ++ ":" ++ stage'

theorem Shifted.functionId_eq {job stage job' stage' : String} (h : Shifted job stage job' stage')
    (idx : ℕ) : functionId job stage idx = functionId job' stage' idx := by
  obtain ⟨x, rfl, rfl⟩ := h
  simp [functionId, String.append_assoc]

theorem Shifted.length_lt {job stage job' stage' : String} (h : Shifted job stage job' stage') :
    job.toList.length < job'.toList.length := by
  obtain ⟨x, rfl, -⟩ := h
  have hcolon : 0 < ":".toList.length := by decide
  simp only [String.toList_append, List.length_append]
  omega

theorem Shifted.ne {job stage job' stage' : String} (h : Shifted job stage job' stage') :
    job ≠ job' := by
  rintro rfl
  exact lt_irrefl _ h.length_lt

/-- One job id is the beginning of the other one. -/
theorem eq_or_shifted_of_append {job stage job' stage' : String} {rest : List Char}
    (hjob : job'.toList = job.toList ++ rest)
    (hstage : ':' :: stage.toList = rest ++ ':' :: stage'.toList) :
    job = job' ∧ stage = stage' ∨ Shifted job stage job' stage' := by
  cases rest with
  | nil =>
    left
    rw [List.append_nil, String.toList_inj] at hjob
    rw [List.nil_append, List.cons.injEq, String.toList_inj] at hstage
    exact ⟨hjob.symm, hstage.2⟩
  | cons c x =>
    right
    obtain ⟨rfl, htail⟩ := List.cons.inj hstage
    refine ⟨String.ofList x, ?_, ?_⟩
    · apply String.toList_inj.1
      simpa using hjob
    · apply String.toList_inj.1
      simpa using htail

theorem functionId_eq_iff {job stage job' stage' : String} {idx idx' : ℕ} :
    functionId job stage idx = functionId job' stage' idx' ↔
      idx = idx' ∧ (job = job' ∧ stage = stage' ∨ Shifted job stage job' stage' ∨
        Shifted job' stage' job stage) := by
  constructor
  · intro h
    have hlist := congrArg String.toList h
    rw [toList_functionId, toList_functionId] at hlist
    obtain ⟨hbegin, hidx⟩ :=
      append_cons_inj (colon_notMem_toString idx) (colon_notMem_toString idx') hlist
    rw [String.toList_inj, Nat.toString_eq_repr, Nat.toString_eq_repr, Nat.repr_inj] at hidx
    refine ⟨hidx, ?_⟩
    -- one of the job ids is a prefix of the other
    rcases List.append_eq_append_iff.1 hbegin with ⟨rest, hjob, hstage⟩ | ⟨rest, hjob, hstage⟩
    · rcases eq_or_shifted_of_append hjob hstage with hsame | hshift
      · exact Or.inl hsame
      · exact Or.inr (Or.inl hshift)
    · rcases eq_or_shifted_of_append hjob hstage with ⟨hjob, hstage⟩ | hshift
      · exact Or.inl ⟨hjob.symm, hstage.symm⟩
      · exact Or.inr (Or.inr hshift)
  · rintro ⟨rfl, ⟨rfl, rfl⟩ | h | h⟩
    · rfl
    · exact h.functionId_eq idx
    · exact (h.functionId_eq idx).symm

/-- Of two equal ids with different job ids, the one with the longer job id is the shifted one. -/
theorem shifted_iff {job stage job' stage' : String} :
    Shifted job stage job' stage' ↔ job.toList.length < job'.toList.length ∧
      functionId job stage 0 = functionId job' stage' 0 := by
  constructor
  · intro h
    exact ⟨h.length_lt, h.functionId_eq 0⟩
  · rintro ⟨hlt, hid⟩
    obtain ⟨-, ⟨rfl, -⟩ | h | h⟩ := functionId_eq_iff.1 hid
    · exact absurd hlt (lt_irrefl _)
    · exact h
    · exact absurd h.length_lt (lt_asymm hlt)

instance (job stage job' stage' : String) : Decidable (Shifted job stage job' stage') :=
  decidable_of_iff _ shifted_iff.symm

/-- The number of functions of a stage. -/
def RawStage.functions (item : RawStage) : ℕ := (item.parallelism.getD defaultParallelism).toNat

/-- There are stages with functions in two of the profiles, the job id of the one being that of the
other followed by a colon and the beginning of its stage id. -/
def Ambiguous (profiles : List RawProfile) : Prop :=
  ∃ raw ∈ profiles, ∃ raw' ∈ profiles, ∃ item ∈ raw.stages, ∃ item' ∈ raw'.stages,
    0 < item.functions ∧ 0 < item'.functions ∧ Shifted raw.jobId item.id raw'.jobId item'.id

instance : DecidablePred Ambiguous := fun profiles =>
  inferInstanceAs (Decidable (∃ raw ∈ profiles, ∃ raw' ∈ profiles, ∃ item ∈ raw.stages,
    ∃ item' ∈ raw'.stages, 0 < item.functions ∧ 0 < item'.functions ∧
      Shifted raw.jobId item.id raw'.jobId item'.id))

/-! ### Places -/

/-- The items of `fn_by_id` for one job. -/
def jobPlaces (key : String) (job : JobSpec) : List (String × FnRef) :=
  job.functions.entries.map fun f => (f.2.functionId, (key, f.1))

/-- The items of `fn_by_id`. -/
def places (jobs : Dict String JobSpec) : List (String × FnRef) :=
  jobs.entries.flatMap fun j => jobPlaces j.1 j.2

theorem fnById_eq_ofList_places (jobs : Dict String JobSpec) :
    fnById jobs = .ofList (places jobs) := rfl

theorem map_fst_places (jobs : Dict String JobSpec) :
    (places jobs).map Prod.fst = (allFunctions jobs).map (·.functionId) := by
  simp [places, jobPlaces, allFunctions, Dict.values, List.map_flatMap, List.flatMap_map,
    Function.comp_def]

theorem mem_places_iff {jobs : Dict String JobSpec} {fid : String} {ref : FnRef} :
    (fid, ref) ∈ places jobs ↔ ∃ fn, getFn jobs ref = some fn ∧ fn.functionId = fid := by
  simp only [places, jobPlaces, List.mem_flatMap, List.mem_map, getFn_eq_some_iff]
  constructor
  · rintro ⟨⟨key, job⟩, hjob, ⟨k, fn⟩, hfn, heq⟩
    obtain ⟨rfl, rfl⟩ := Prod.mk.inj heq
    exact ⟨fn, ⟨job, Dict.mem_entries_iff.1 hjob, Dict.mem_entries_iff.1 hfn⟩, rfl⟩
  · rintro ⟨fn, ⟨job, hjob, hfn⟩, rfl⟩
    exact ⟨(ref.1, job), Dict.mem_entries_iff.2 hjob, (ref.2, fn), Dict.mem_entries_iff.2 hfn, rfl⟩

/-- `fn_by_id` has every function at its place when no two have the same id. -/
theorem get?_fnById {jobs : Dict String JobSpec}
    (hnodup : ((allFunctions jobs).map (·.functionId)).Nodup) {fid : String} {ref : FnRef} :
    (fnById jobs).get? fid = some ref ↔ ∃ fn, getFn jobs ref = some fn ∧ fn.functionId = fid := by
  rw [← map_fst_places] at hnodup
  rw [← mem_places_iff, ← Dict.mem_entries_iff, fnById_eq_ofList_places, Dict.entries_ofList hnodup]

theorem places_mapVals (jobs : Dict String JobSpec) {g : String → JobSpec → JobSpec}
    (hg : ∀ key job, jobPlaces key (g key job) = jobPlaces key job) :
    places (jobs.mapVals g) = places jobs := by
  simp only [places, Dict.mapVals, List.flatMap_map, hg]

theorem jobPlaces_mapVals (key : String) (job : JobSpec)
    {g : String → FunctionSpec → FunctionSpec} (hg : ∀ k fn, (g k fn).functionId = fn.functionId) :
    jobPlaces key { job with functions := job.functions.mapVals g } = jobPlaces key job := by
  simp only [jobPlaces, Dict.mapVals, List.map_map, Function.comp_def, hg]

theorem places_modifyFn (jobs : Dict String JobSpec) (ref : FnRef)
    {f : FunctionSpec → FunctionSpec} (hf : ∀ fn, (f fn).functionId = fn.functionId) :
    places (modifyFn jobs ref f) = places jobs := by
  apply places_mapVals
  intro key job
  split_ifs
  · apply jobPlaces_mapVals
    intro k fn
    split_ifs
    · exact hf fn
    · rfl
  · rfl

namespace DemeterController

theorem places_release (c : DemeterController) (now : ℚ) :
    places (c.release now).jobs = places c.jobs := by
  apply places_mapVals
  intro key job
  apply jobPlaces_mapVals
  intro k fn
  rcases releaseFunction_cases job.functions now fn with ⟨h, -⟩ | ⟨h, -⟩ <;> rw [h]

theorem places_update (c : DemeterController) (ref : FnRef) {f : FunctionSpec → FunctionSpec}
    (hf : ∀ fn, (f fn).functionId = fn.functionId) (i : ℕ) (g : DataCenter → DataCenter) :
    places (c.update ref f i g).jobs = places c.jobs := places_modifyFn c.jobs ref hf

theorem functionId_placeFunction (now : ℚ) (action : OrchestrationAction) (fn : FunctionSpec) :
    (placeFunction now action fn).functionId = fn.functionId := rfl

theorem places_applyActions (c : DemeterController) (actions : List OrchestrationAction) (now : ℚ) :
    places (c.applyActions actions now).jobs = places c.jobs := by
  unfold applyActions
  apply List.foldlRecOn (motive := fun c' : DemeterController => places c'.jobs = places c.jobs)
  · rfl
  · intro c' hc' action _
    rcases applyAction_cases (fnById c.jobs) (dataCenterMap c.config.dataCenters) now c' action with
      ⟨he, -⟩ | ⟨ref, fn, i, dc, -, he⟩
    · rw [he, hc']
    · rw [he]
      exact (places_update c' ref (functionId_placeFunction now action) i takeSlot).trans hc'

theorem places_registerJob {c : DemeterController} {raw : RawProfile}
    (h : raw.jobId ∉ c.jobs.keys) :
    places (c.registerJob raw).jobs = places c.jobs ++ jobPlaces raw.jobId (buildJob raw) := by
  simp [places, registerJob, Dict.entries_set_of_notMem h, List.flatMap_append]

/-- The profiles that a run registers. -/
def registered (ops : List Operation) : List RawProfile :=
  ops.filterMap fun op =>
    match op with
    | .registerJob raw => some raw
    | .observe _ | .plan _ _ | .applyActions _ _ => none

/-- Every operation but a registration leaves the jobs and the places as they are. -/
theorem operate_eq_or (c : DemeterController) (op : Operation) :
    (∃ raw, op = .registerJob raw ∧ registered [op] = [raw]) ∨
      registered [op] = [] ∧ (c.operate op).jobs.keys = c.jobs.keys ∧
        places (c.operate op).jobs = places c.jobs := by
  have hrelease : ∀ now, (c.release now).jobs.keys = c.jobs.keys := fun now =>
    Dict.keys_mapVals _ _
  cases op with
  | registerJob raw => exact Or.inl ⟨raw, rfl, rfl⟩
  | observe now => exact Or.inr ⟨rfl, hrelease now, places_release c now⟩
  | plan observation now =>
    cases observation with
    | none => exact Or.inr ⟨rfl, hrelease now, places_release c now⟩
    | some observation => exact Or.inr ⟨rfl, rfl, rfl⟩
  | applyActions actions now =>
    refine Or.inr ⟨rfl, ?_, places_applyActions c actions now⟩
    show (c.applyActions actions now).jobs.keys = c.jobs.keys
    unfold applyActions
    apply List.foldlRecOn (motive := fun c' : DemeterController => c'.jobs.keys = c.jobs.keys)
    · rfl
    · intro c' hc' action _
      rcases applyAction_cases (fnById c.jobs) (dataCenterMap c.config.dataCenters) now c' action
        with ⟨he, -⟩ | ⟨ref, fn, i, dc, -, he⟩
      · rw [he, hc']
      · rw [he, update, modifyFn, Dict.keys_modify, hc']

theorem registered_cons (op : Operation) (ops : List Operation) :
    registered (op :: ops) = registered [op] ++ registered ops := by
  cases op <;> rfl

theorem places_foldl_operate {c : DemeterController} {ops : List Operation}
    (h : (c.jobs.keys ++ (registered ops).map (·.jobId)).Nodup) :
    places (ops.foldl operate c).jobs =
      places c.jobs ++ (registered ops).flatMap fun raw => jobPlaces raw.jobId (buildJob raw) := by
  induction ops generalizing c with
  | nil => simp [registered]
  | cons op ops ih =>
    rw [registered_cons] at h ⊢
    rw [List.foldl_cons]
    rcases operate_eq_or c op with ⟨raw, rfl, hone⟩ | ⟨hnone, hkeys, hplaces⟩
    · rw [hone, List.singleton_append] at h ⊢
      have hfresh : raw.jobId ∉ c.jobs.keys := fun hmem =>
        List.disjoint_of_nodup_append h hmem List.mem_cons_self
      have hkeys : (c.registerJob raw).jobs.keys = c.jobs.keys ++ [raw.jobId] := by
        rw [registerJob, jobId_buildJob, Dict.keys_set, if_neg hfresh]
      have hrest : ((c.registerJob raw).jobs.keys ++ (registered ops).map (·.jobId)).Nodup := by
        rw [hkeys, List.append_assoc]
        exact h
      show places (ops.foldl operate (c.registerJob raw)).jobs = _
      rw [ih hrest, places_registerJob hfresh, List.flatMap_cons, List.append_assoc]
    · rw [hnone, List.nil_append] at h ⊢
      rw [← hkeys] at h
      rw [ih h, hplaces]

end DemeterController

/-! ### The ids of registered profiles -/

theorem distinctStages_profileJob {raw : RawProfile} (h : (raw.stages.map (·.id)).Nodup) :
    DistinctStages (profileJob raw) := by
  simpa [DistinctStages, profileJob, buildStage, Function.comp_def] using h

theorem map_fst_jobPlaces {raw : RawProfile} (h : (raw.stages.map (·.id)).Nodup) :
    (jobPlaces raw.jobId (buildJob raw)).map Prod.fst =
      (slots (profileJob raw)).map (slotId (profileJob raw)) := by
  have hids := congrArg (List.map Prod.fst) (distinctStages_profileJob h).exactExpansion.functions
  rw [List.map_map] at hids
  rw [jobPlaces, List.map_map]
  calc (buildJob raw).functions.entries.map (Prod.fst ∘ fun f => (f.2.functionId, (raw.jobId, f.1)))
      = (idStages (buildJob raw).functions).map Prod.fst := by
        simp [idStages, Dict.values, Function.comp_def]
    _ = (slots (profileJob raw)).map (slotId (profileJob raw)) := hids

theorem mem_profileIds {raw : RawProfile} {fid : String} :
    fid ∈ (slots (profileJob raw)).map (slotId (profileJob raw)) ↔
      ∃ item ∈ raw.stages, ∃ idx < item.functions, functionId raw.jobId item.id idx = fid := by
  rw [List.mem_map]
  constructor
  · rintro ⟨slot, hslot, rfl⟩
    obtain ⟨hstage, hidx⟩ := mem_slots.1 hslot
    obtain ⟨item, hitem, hslot'⟩ := List.mem_map.1 hstage
    refine ⟨item, hitem, slot.2, ?_, ?_⟩
    · rw [← hslot'] at hidx
      exact hidx
    · rw [slotId, ← hslot']
      rfl
  · rintro ⟨item, hitem, idx, hidx, rfl⟩
    exact ⟨(buildStage raw item, idx), mem_slots.2 ⟨List.mem_map.2 ⟨item, hitem, rfl⟩, hidx⟩, rfl⟩

/-- The ids of all functions are distinct exactly when no two profiles are ambiguous. -/
theorem nodup_profileIds_iff {profiles : List RawProfile}
    (hjobs : (profiles.map (·.jobId)).Nodup)
    (hstages : ∀ raw ∈ profiles, (raw.stages.map (·.id)).Nodup) :
    (profiles.flatMap fun raw => (slots (profileJob raw)).map (slotId (profileJob raw))).Nodup ↔
      ¬ Ambiguous profiles := by
  have hne : profiles.Pairwise fun raw raw' => raw.jobId ≠ raw'.jobId := List.pairwise_map.1 hjobs
  rw [List.nodup_flatMap]
  constructor
  · rintro ⟨-, hdisjoint⟩ ⟨raw, hraw, raw', hraw', item, hitem, item', hitem', hpos, hpos', hshift⟩
    have hdiff : raw ≠ raw' := fun heq => hshift.ne (congrArg RawProfile.jobId heq)
    have hsymm : Std.Symm (Function.onFun List.Disjoint fun raw : RawProfile =>
        (slots (profileJob raw)).map (slotId (profileJob raw))) := ⟨fun _ _ h => h.symm⟩
    have hapart := hdisjoint.forall hraw hraw' hdiff
    apply hapart (mem_profileIds.2 ⟨item, hitem, 0, hpos, rfl⟩)
    exact mem_profileIds.2 ⟨item', hitem', 0, hpos', (hshift.functionId_eq 0).symm⟩
  · intro hnot
    refine ⟨fun raw hraw => (distinctStages_profileJob (hstages raw hraw)).nodup_slotIds, ?_⟩
    refine hne.imp_of_mem ?_
    intro raw raw' hraw hraw' hdiff fid hmem hmem'
    obtain ⟨item, hitem, idx, hidx, hid⟩ := mem_profileIds.1 hmem
    obtain ⟨item', hitem', idx', hidx', hid'⟩ := mem_profileIds.1 hmem'
    have hpos : 0 < item.functions := Nat.zero_lt_of_lt hidx
    have hpos' : 0 < item'.functions := Nat.zero_lt_of_lt hidx'
    obtain ⟨-, ⟨hsame, -⟩ | hshift | hshift⟩ := functionId_eq_iff.1 (hid.trans hid'.symm)
    · exact hdiff hsame
    · exact hnot ⟨raw, hraw, raw', hraw', item, hitem, item', hitem', hpos, hpos', hshift⟩
    · exact hnot ⟨raw', hraw', raw, hraw, item', hitem', item, hitem, hpos', hpos, hshift⟩

/-! ### Actions -/

namespace DemeterController

/-- The dictionaries of a loop over actions, made before it: `refs` has the functions of the
controller by their ids, and `dcs` has positions of data centers. -/
structure Names (refs : Dict String FnRef) (dcs : Dict String ℕ) (c : DemeterController) :
    Prop where
  refs : ∀ fid ref, refs.get? fid = some ref ↔
    ∃ fn, getFn c.jobs ref = some fn ∧ fn.functionId = fid
  dcs : ∀ name i, dcs.get? name = some i → i < c.config.dataCenters.length

/-- The action is for the function, and names a known data center. -/
def AimedAt (dcs : Dict String ℕ) (fn : FunctionSpec) (action : OrchestrationAction) : Prop :=
  action.functionId = fn.functionId ∧ action.dcName ∈ dcs.keys

instance (dcs : Dict String ℕ) (fn : FunctionSpec) : DecidablePred (AimedAt dcs fn) := fun _ =>
  inferInstanceAs (Decidable (_ ∧ _))

theorem names_of_nodup {c : DemeterController}
    (h : ((allFunctions c.jobs).map (·.functionId)).Nodup) :
    Names (fnById c.jobs) (dataCenterMap c.config.dataCenters) c where
  refs _ _ := get?_fnById h
  dcs name i hi := by
    obtain ⟨dc, hdc, -⟩ := name_of_dataCenterMap hi
    exact (List.getElem?_eq_some_iff.1 hdc).1

namespace Names

variable {refs : Dict String FnRef} {dcs : Dict String ℕ} {c : DemeterController}

theorem update (h : Names refs dcs c) (ref : FnRef) {f : FunctionSpec → FunctionSpec}
    (hf : ∀ fn, (f fn).functionId = fn.functionId) (i : ℕ) (g : DataCenter → DataCenter) :
    Names refs dcs (c.update ref f i g) where
  refs fid ref' := by
    rw [h.refs, ← mem_places_iff, ← mem_places_iff, places_update c ref hf]
  dcs name j hj := by
    show j < (c.config.dataCenters.modify i g).length
    rw [List.length_modify]
    exact h.dcs name j hj

/-- An action is resolved to the function that it is for. -/
theorem resolve (h : Names refs dcs c) {ref : FnRef} {fn : FunctionSpec}
    (hfn : getFn c.jobs ref = some fn) (action : OrchestrationAction) :
    AimedAt dcs fn action ↔ ∃ i dc, c.resolve refs dcs action = some (ref, fn, i, dc) := by
  simp only [resolve_eq_some_iff]
  constructor
  · rintro ⟨hid, hname⟩
    obtain ⟨i, hi⟩ := Dict.mem_keys_iff.1 hname
    exact ⟨i, _, (h.refs _ _).2 ⟨fn, hfn, hid.symm⟩, hfn, hi,
      List.getElem?_eq_getElem (h.dcs _ i hi)⟩
  · rintro ⟨i, dc, href, -, hi, -⟩
    obtain ⟨fn', hfn', hid⟩ := (h.refs _ _).1 href
    obtain rfl := Option.some.inj (hfn.symm.trans hfn')
    exact ⟨hid.symm, Dict.mem_keys_iff.2 ⟨i, hi⟩⟩

/-- One action of `apply_actions` changes the function that it is for, and no other. -/
theorem getFn_applyAction (h : Names refs dcs c) (now : ℚ) (action : OrchestrationAction)
    {ref : FnRef} {fn : FunctionSpec} (hfn : getFn c.jobs ref = some fn) :
    getFn (applyAction refs dcs now c action).jobs ref =
      some (if AimedAt dcs fn action then placeFunction now action fn else fn) := by
  have haim := h.resolve hfn action
  rcases applyAction_cases refs dcs now c action with ⟨he, hr⟩ | ⟨ref', fn', i, dc, hr, he⟩
  · have hnot : ¬ AimedAt dcs fn action := by
      rw [haim, hr]
      rintro ⟨i, dc, hnone⟩
      cases hnone
    rw [he, if_neg hnot, hfn]
  · rw [he, DemeterController.update, getFn_modifyFn]
    by_cases href : ref = ref'
    · subst href
      obtain ⟨-, hfn', -⟩ := resolve_eq_some_iff.1 hr
      obtain rfl := Option.some.inj (hfn.symm.trans hfn')
      rw [if_pos rfl, hfn, if_pos (haim.2 ⟨i, dc, hr⟩)]
      rfl
    · have hnot : ¬ AimedAt dcs fn action := by
        rw [haim, hr]
        rintro ⟨i', dc', heq⟩
        exact href (Prod.mk.inj (Option.some.inj heq)).1.symm
      rw [if_neg href, if_neg hnot, hfn]

theorem applyAction (h : Names refs dcs c) (now : ℚ) (action : OrchestrationAction) :
    Names refs dcs (applyAction refs dcs now c action) := by
  rcases applyAction_cases refs dcs now c action with ⟨he, -⟩ | ⟨ref, fn, i, dc, -, he⟩
  · rw [he]
    exact h
  · rw [he]
    exact h.update ref (functionId_placeFunction now action) i takeSlot

/-- A whole plan: every function is placed by the actions that are for it, in their order. -/
theorem getFn_applyActions (h : Names refs dcs c) (now : ℚ) (actions : List OrchestrationAction)
    {ref : FnRef} {fn : FunctionSpec} (hfn : getFn c.jobs ref = some fn) :
    getFn (actions.foldl (DemeterController.applyAction refs dcs now) c).jobs ref =
      some ((actions.filter (AimedAt dcs fn)).foldl (fun fn action => placeFunction now action fn)
        fn) := by
  induction actions generalizing c fn with
  | nil => exact hfn
  | cons action actions ih =>
    have hfn' := h.getFn_applyAction now action hfn
    rw [List.foldl_cons, ih (h.applyAction now action) hfn']
    by_cases haim : AimedAt dcs fn action
    · -- the id stays, and with it what is for the function
      have hsame : AimedAt dcs (placeFunction now action fn) = AimedAt dcs fn := rfl
      simp only [hsame, List.filter_cons, haim, decide_true, if_true, List.foldl_cons]
    · simp only [List.filter_cons, haim, decide_false, Bool.false_eq_true, if_false]

end Names

end DemeterController

namespace DemeterEnv

open DemeterController (Names AimedAt resolve_eq_some_iff places_update places_release)

variable {σ : Type} (uniform : σ → ℚ × σ) (estimate : Estimator) {refs : Dict String FnRef}
  {dcs : Dict String ℕ}

theorem functionId_executeFunction (now duration : ℚ) (action : OrchestrationAction)
    (fn : FunctionSpec) : (executeFunction now duration action fn).functionId = fn.functionId := rfl

/-- One action of `step` executes the function that it is for if that is pending, and changes no
other. -/
theorem getFn_stepAction {st : StepState σ} (h : Names refs dcs st.env.controller)
    (action : OrchestrationAction) {ref : FnRef} {fn : FunctionSpec}
    (hfn : getFn st.env.controller.jobs ref = some fn) :
    ∃ duration,
      getFn (stepAction uniform estimate refs dcs st action).env.controller.jobs ref =
        some (if fn.status = .pending ∧ AimedAt dcs fn action then
          executeFunction st.env.now duration action fn else fn) := by
  have haim := h.resolve hfn action
  rcases stepAction_cases uniform estimate refs dcs st action with
    ⟨he, hskip⟩ | ⟨ref', fn', i, dc, hr, hpending, he⟩
  · have hnot : ¬ (fn.status = .pending ∧ AimedAt dcs fn action) := by
      rintro ⟨hpending, haimed⟩
      obtain ⟨i, dc, hr⟩ := haim.1 haimed
      exact hskip ref fn i dc hr hpending
    exact ⟨0, by rw [he, if_neg hnot, hfn]⟩
  · obtain ⟨duration, hcontroller⟩ : ∃ duration,
        (execute uniform estimate st action ref' fn' i dc).env.controller =
          st.env.controller.update ref' (executeFunction st.env.now duration action) i returnSlot :=
      ⟨_, rfl⟩
    refine ⟨duration, ?_⟩
    rw [he, hcontroller, DemeterController.update, getFn_modifyFn]
    by_cases href : ref = ref'
    · subst href
      obtain ⟨-, hfn', -⟩ := resolve_eq_some_iff.1 hr
      obtain rfl := Option.some.inj (hfn.symm.trans hfn')
      rw [if_pos rfl, hfn, if_pos ⟨hpending, haim.2 ⟨i, dc, hr⟩⟩]
      rfl
    · have hnot : ¬ (fn.status = .pending ∧ AimedAt dcs fn action) := by
        rintro ⟨-, haimed⟩
        obtain ⟨i', dc', hr'⟩ := haim.1 haimed
        exact href (Prod.mk.inj (Option.some.inj (hr'.symm.trans hr))).1
      rw [if_neg href, if_neg hnot, hfn]

theorem names_stepAction {st : StepState σ} (h : Names refs dcs st.env.controller)
    (action : OrchestrationAction) :
    Names refs dcs (stepAction uniform estimate refs dcs st action).env.controller := by
  rcases stepAction_cases uniform estimate refs dcs st action with
    ⟨he, -⟩ | ⟨ref, fn, i, dc, -, -, he⟩
  · rw [he]
    exact h
  · rw [he]
    exact h.update ref (functionId_executeFunction _ _ action) i returnSlot

/-- The action of a plan that executes a function. -/
def executingAction (dcs : Dict String ℕ) (fn : FunctionSpec) (actions : List OrchestrationAction) :
    Option OrchestrationAction :=
  if fn.status = .pending then actions.find? (AimedAt dcs fn) else none

/-- A whole plan: every pending function is executed by the first action that is for it. -/
theorem getFn_foldl_stepAction {st : StepState σ} (h : Names refs dcs st.env.controller)
    (actions : List OrchestrationAction) {ref : FnRef} {fn : FunctionSpec}
    (hfn : getFn st.env.controller.jobs ref = some fn) :
    ∃ duration,
      getFn (actions.foldl (stepAction uniform estimate refs dcs) st).env.controller.jobs ref =
        some ((executingAction dcs fn actions).elim fn
          (executeFunction st.env.now duration · fn)) := by
  induction actions generalizing st fn with
  | nil =>
    refine ⟨0, hfn.trans ?_⟩
    unfold executingAction
    split_ifs <;> rfl
  | cons action actions ih =>
    obtain ⟨duration, hfn'⟩ := getFn_stepAction uniform estimate h action hfn
    obtain ⟨duration', hrest⟩ := ih (names_stepAction uniform estimate h action) hfn'
    rw [List.foldl_cons, hrest, (stepAction_frame refs dcs st action).1]
    by_cases hexec : fn.status = .pending ∧ AimedAt dcs fn action
    · -- after that the function is finished, and no action executes it again
      refine ⟨duration, ?_⟩
      have hnone : executingAction dcs (executeFunction st.env.now duration action fn) actions =
          none := if_neg nofun
      have hfirst : executingAction dcs fn (action :: actions) = some action := by
        rw [executingAction, if_pos hexec.1, List.find?_cons, decide_eq_true hexec.2]
      rw [if_pos hexec, hnone, hfirst]
      rfl
    · refine ⟨duration', ?_⟩
      have hsame : executingAction dcs fn (action :: actions) = executingAction dcs fn actions := by
        unfold executingAction
        split_ifs with hpending
        · have hnot : ¬ AimedAt dcs fn action := fun haim => hexec ⟨hpending, haim⟩
          rw [List.find?_cons, decide_eq_false hnot]
        · rfl
      rw [if_neg hexec, hsame]

/-! ### Runs of the simulator -/

theorem places_stepActions (env : DemeterEnv σ) (actions : List OrchestrationAction) :
    places (stepActions uniform estimate env actions).env.controller.jobs =
      places env.controller.jobs := by
  unfold stepActions
  apply List.foldlRecOn
    (motive := fun st : StepState σ => places st.env.controller.jobs = places env.controller.jobs)
  · rfl
  · intro st hst action _
    rcases stepAction_cases uniform estimate _ _ st action with
      ⟨he, -⟩ | ⟨ref, fn, i, dc, -, -, he⟩
    · rw [he, hst]
    · rw [he]
      exact (places_update _ ref (functionId_executeFunction _ _ action) i returnSlot).trans hst

theorem places_run (config : DemeterConfig) (profiles : List RawProfile) (random : σ)
    (plans : List (List OrchestrationAction)) :
    places (run uniform estimate config profiles random plans).controller.jobs =
      places (registerAll config profiles).jobs := by
  unfold run
  apply List.foldlRecOn (motive := fun env : DemeterEnv σ =>
    places env.controller.jobs = places (registerAll config profiles).jobs)
  · exact places_release _ 0
  · intro env henv actions _
    show places (DemeterController.release (DemeterController.release _ _) _).jobs = _
    rw [places_release, places_release, places_stepActions, henv]

end DemeterEnv

/-! ### Every action affects its function -/

open DemeterController (AimedAt names_of_nodup registered operate placeFunction Operation
  places_foldl_operate)

section Addressed

variable {σ : Type} (uniform : σ → ℚ × σ) (estimate : Estimator)

/-- The ids of all functions are distinct, `fn_by_id` has every function at its place, and a plan
changes every function by the actions that name it: `apply_actions` by all of them, and `step` by
the first one if the function is pending. -/
structure Addressed (c : DemeterController) : Prop where
  distinct : ((allFunctions c.jobs).map (·.functionId)).Nodup
  found : ∀ ref fn, getFn c.jobs ref = some fn → (fnById c.jobs).get? fn.functionId = some ref
  applied : ∀ actions now ref fn, getFn c.jobs ref = some fn →
    getFn (c.applyActions actions now).jobs ref =
      some ((actions.filter (AimedAt (dataCenterMap c.config.dataCenters) fn)).foldl
        (fun fn action => placeFunction now action fn) fn)
  stepped : ∀ (env : DemeterEnv σ) actions ref fn, env.controller = c →
    getFn c.jobs ref = some fn → ∃ duration,
      getFn (DemeterEnv.stepActions uniform estimate env actions).env.controller.jobs ref =
        some ((DemeterEnv.executingAction (dataCenterMap c.config.dataCenters) fn actions).elim fn
          (DemeterEnv.executeFunction env.now duration · fn))

theorem addressed_iff_nodup (c : DemeterController) :
    Addressed uniform estimate c ↔ ((allFunctions c.jobs).map (·.functionId)).Nodup := by
  constructor
  · exact Addressed.distinct
  · intro hnodup
    have hnames := names_of_nodup hnodup
    constructor
    · exact hnodup
    · intro ref fn hfn
      exact (get?_fnById hnodup).2 ⟨fn, hfn, rfl⟩
    · intro actions now ref fn hfn
      exact hnames.getFn_applyActions now actions hfn
    · rintro env actions ref fn rfl hfn
      let st : StepState σ := ⟨env, 0, env.now⟩
      have hst : DemeterController.Names (fnById env.controller.jobs)
        (dataCenterMap env.controller.config.dataCenters) st.env.controller := hnames
      exact DemeterEnv.getFn_foldl_stepAction uniform estimate hst actions hfn

/-- The places of all jobs decide whether actions reach their functions. -/
theorem addressed_iff_of_places {c : DemeterController} {profiles : List RawProfile}
    (hjobs : (profiles.map (·.jobId)).Nodup)
    (hstages : ∀ raw ∈ profiles, (raw.stages.map (·.id)).Nodup)
    (hplaces : places c.jobs =
      profiles.flatMap fun raw => jobPlaces raw.jobId (buildJob raw)) :
    Addressed uniform estimate c ↔ ¬ Ambiguous profiles := by
  have hids : (allFunctions c.jobs).map (·.functionId) =
      profiles.flatMap fun raw => (slots (profileJob raw)).map (slotId (profileJob raw)) := by
    rw [← map_fst_places, hplaces, List.map_flatMap]
    exact List.flatMap_congr fun raw hraw => map_fst_jobPlaces (hstages raw hraw)
  rw [addressed_iff_nodup, hids, nodup_profileIds_iff hjobs hstages]

theorem places_registerAll (config : DemeterConfig) {profiles : List RawProfile}
    (hjobs : (profiles.map (·.jobId)).Nodup) :
    places (DemeterEnv.registerAll config profiles).jobs =
      profiles.flatMap fun raw => jobPlaces raw.jobId (buildJob raw) := by
  have hregistered : registered (profiles.map Operation.registerJob) = profiles := by
    simp [registered, List.filterMap_map]
  have hfold : (profiles.map Operation.registerJob).foldl operate (.init config) =
      DemeterEnv.registerAll config profiles := List.foldl_map
  rw [← hfold, places_foldl_operate (by rw [hregistered]; exact hjobs), hregistered]
  rfl

/-- **For profiles with distinct job ids and distinct stage ids, actions reach their functions in
every state of every run, of the controller and of the simulator, exactly when no two profiles are
ambiguous.** -/
theorem addressed_iff (config : DemeterConfig) (profiles : List RawProfile)
    (hjobs : (profiles.map (·.jobId)).Nodup)
    (hstages : ∀ raw ∈ profiles, (raw.stages.map (·.id)).Nodup) :
    (∀ ops : List Operation, registered ops = profiles →
      (Addressed uniform estimate (ops.foldl operate (.init config)) ↔ ¬ Ambiguous profiles)) ∧
    ∀ random plans,
      Addressed uniform estimate (DemeterEnv.run uniform estimate config profiles random
        plans).controller ↔ ¬ Ambiguous profiles := by
  constructor
  · rintro ops rfl
    apply addressed_iff_of_places uniform estimate hjobs hstages
    rw [places_foldl_operate (c := .init config) hjobs]
    rfl
  · intro random plans
    apply addressed_iff_of_places uniform estimate hjobs hstages
    rw [DemeterEnv.places_run, places_registerAll config hjobs]

end Addressed

/-- The profiles of two jobs that have one stage each. -/
def twoJobs (job stage job' stage' : String) : List RawProfile :=
  [{ jobId := job, stages := [{ id := stage }] }, { jobId := job', stages := [{ id := stage' }] }]

/-- A plan for the function of the first of two jobs, and one for that of the second one. -/
def twoPlans : List (List OrchestrationAction) :=
  [[{ functionId := "a:b:0", dcName := "paris", allocation := Sample.allocation }],
    [{ functionId := "a:b:c:0", dcName := "paris", allocation := Sample.allocation }]]

/-- The job id of the second job begins with the id of the first one and its stage. -/
theorem addressed_twoJobs :
    Addressed (fun r : Unit => ((1 : ℚ), r)) (estimateMetrics Sample.floatMath)
      (DemeterEnv.run (fun r : Unit => ((1 : ℚ), r)) (estimateMetrics Sample.floatMath)
        Sample.config (twoJobs "a" "b" "a:b" "c") () twoPlans).controller :=
  ((addressed_iff _ _ Sample.config (twoJobs "a" "b" "a:b" "c") (by decide) (by decide)).2 ()
    twoPlans).2 (by decide)

/-- The only function of the one job has the id of the only function of the other one. -/
theorem not_addressed_twoJobs :
    ¬ ∀ profiles : List RawProfile, (profiles.map (·.jobId)).Nodup →
      (∀ raw ∈ profiles, (raw.stages.map (·.id)).Nodup) →
        Addressed (fun r : Unit => ((1 : ℚ), r)) (estimateMetrics Sample.floatMath)
          (DemeterEnv.registerAll Sample.config profiles) := by
  intro h
  have haddressed := h (twoJobs "a" "b:c" "a:b" "c") (by decide) (by decide)
  exact absurd haddressed.distinct (by decide +kernel)

end Demeter.Marl
