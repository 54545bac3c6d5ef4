import Mathlib.Data.List.Sort
import Mathlib.Data.List.Lex
import Mathlib.Data.String.Basic
import Std.Data.String.ToNat
import Demeter.Marl.Optimizer

/-!
# The expanded execution graph

What `expand_execution_graph` computes, for jobs whose stages have distinct ids.

* `slots` are the stages with the indices below their parallelism, `slotId` is the function id of
  one of them;
* `functions_expandExecutionGraph` has the functions in closed form: `idPairs` are the ids that an
  edge links, and the two lists of a function are read off all these pairs;
* `exactExpansion_buildJob`: there is one function for each slot, and a function is as often among
  the successors of another one as there are edges which link the two.
-/

namespace Demeter.Marl

/-! ### Function ids -/

theorem append_cons_inj {α : Type*} {c : α} {l l' m m' : List α} (hm : c ∉ m) (hm' : c ∉ m')
    (h : l ++ c :: m = l' ++ c :: m') : l = l' ∧ m = m' := by
  obtain ⟨as, hl, hcm⟩ | ⟨bs, hl, hcm⟩ := List.append_eq_append_iff.1 h
  · cases as with
    | nil => simp_all
    | cons a as =>
      obtain ⟨-, rfl⟩ := List.cons.inj hcm
      exact absurd (by simp) hm
  · cases bs with
    | nil => simp_all
    | cons b bs =>
      obtain ⟨-, rfl⟩ := List.cons.inj hcm
      exact absurd (by simp) hm'

theorem toList_functionId (jobId stageId : String) (idx : ℕ) :
    (functionId jobId stageId idx).toList =
      (jobId.toList ++ ':' :: stageId.toList) ++ ':' :: (toString idx).toList := by
  simp [functionId]

theorem colon_notMem_toString (n : ℕ) : ':' ∉ (toString n).toList := by
  intro h
  rw [Nat.toString_eq_repr, Nat.toList_repr] at h
  exact absurd (Nat.isDigit_of_mem_toDigits (by decide) (by decide) h) (by decide)

/-- The last delimiter separates the index. -/
theorem functionId_inj {jobId stageId stageId' : String} {idx idx' : ℕ}
    (h : functionId jobId stageId idx = functionId jobId stageId' idx') :
    stageId = stageId' ∧ idx = idx' := by
  have hlist := congrArg String.toList h
  rw [toList_functionId, toList_functionId] at hlist
  obtain ⟨hstage, hidx⟩ :=
    append_cons_inj (colon_notMem_toString idx) (colon_notMem_toString idx') hlist
  rw [List.append_cancel_left_eq, List.cons.injEq, String.toList_inj] at hstage
  rw [String.toList_inj, Nat.toString_eq_repr, Nat.toString_eq_repr, Nat.repr_inj] at hidx
  exact ⟨hstage.2, hidx⟩

theorem append_le_append_iff {α : Type*} [LinearOrder α] (pre l l' : List α) :
    pre ++ l ≤ pre ++ l' ↔ l ≤ l' := by
  have hmono : StrictMono (pre ++ ·) := fun _ _ h => List.Lex.append_left _ h pre
  exact hmono.le_iff_le

/-- Within a stage, function ids are ordered as their indices in decimal notation. -/
theorem functionId_le_iff (jobId stageId : String) (idx idx' : ℕ) :
    functionId jobId stageId idx ≤ functionId jobId stageId idx' ↔
      toString idx ≤ toString idx' := by
  rw [String.le_iff_toList_le, toList_functionId, toList_functionId, append_le_append_iff,
    String.le_iff_toList_le]
  exact append_le_append_iff [':'] _ _

/-! ### Slots -/

/-- The stages of a job, each with the indices of its functions. -/
def slots (job : JobSpec) : List (StageSpec × ℕ) :=
  job.stages.flatMap fun stage => (List.range stage.parallelism.toNat).map (stage, ·)

/-- The id of the function in a slot. -/
def slotId (job : JobSpec) (slot : StageSpec × ℕ) : String :=
  functionId job.jobId slot.1.stageId slot.2

/-- No two stages have the same id. -/
def DistinctStages (job : JobSpec) : Prop := (job.stages.map (·.stageId)).Nodup

theorem mem_slots {job : JobSpec} {slot : StageSpec × ℕ} :
    slot ∈ slots job ↔ slot.1 ∈ job.stages ∧ slot.2 < slot.1.parallelism.toNat := by
  obtain ⟨stage, idx⟩ := slot
  simp only [slots, List.mem_flatMap, List.mem_map, List.mem_range, Prod.mk.injEq]
  constructor
  · rintro ⟨_, hstage, _, hidx, rfl, rfl⟩
    exact ⟨hstage, hidx⟩
  · rintro ⟨hstage, hidx⟩
    exact ⟨stage, hstage, idx, hidx, rfl, rfl⟩

section Distinct

variable {job : JobSpec} (hdistinct : DistinctStages job)
include hdistinct

theorem DistinctStages.slotId_inj {p q : StageSpec × ℕ} (hp : p ∈ slots job) (hq : q ∈ slots job)
    (h : slotId job p = slotId job q) : p = q := by
  obtain ⟨hstage, hidx⟩ := functionId_inj h
  exact Prod.ext
    (List.inj_on_of_nodup_map hdistinct (mem_slots.1 hp).1 (mem_slots.1 hq).1 hstage) hidx

theorem DistinctStages.nodup_slots : (slots job).Nodup := by
  refine List.nodup_flatMap.2 ⟨fun stage _ => ?_, ?_⟩
  · exact List.nodup_range.map fun i j h => congrArg Prod.snd h
  · refine (List.Nodup.of_map _ hdistinct).imp fun hne slot hslot hslot' => ?_
    obtain ⟨_, -, rfl⟩ := List.mem_map.1 hslot
    obtain ⟨_, -, heq⟩ := List.mem_map.1 hslot'
    exact hne (congrArg Prod.fst heq).symm

theorem DistinctStages.nodup_slotIds : ((slots job).map (slotId job)).Nodup :=
  hdistinct.nodup_slots.map_on fun _ hp _ hq h => hdistinct.slotId_inj hp hq h

/-- The functions before any edge is linked. -/
theorem DistinctStages.entries_stageFunctions :
    (stageFunctions job).entries =
      (slots job).map fun slot => (slotId job slot, stageFunction job slot.1 slot.2) := by
  have hlist : (job.stages.flatMap fun stage =>
      (List.range stage.parallelism.toNat).map fun idx =>
        ((stageFunction job stage idx).functionId, stageFunction job stage idx)) =
      (slots job).map fun slot => (slotId job slot, stageFunction job slot.1 slot.2) := by
    simp [slots, List.map_flatMap, Function.comp_def, slotId, stageFunction]
  rw [stageFunctions, hlist]
  refine Dict.entries_ofList ?_
  rw [List.map_map]
  exact hdistinct.nodup_slotIds

end Distinct

/-! ### Linking in closed form -/

/-- The functions with the pairs of ids recorded in their lists. -/
def linkAt (pairs : List (String × String)) (k : String) (fn : FunctionSpec) : FunctionSpec :=
  { fn with
    successors := fn.successors ++ (pairs.filter (·.1 = k)).map Prod.snd
    predecessors := fn.predecessors ++ (pairs.filter (·.2 = k)).map Prod.fst }

/-- The ids of a linked pair. -/
def idsOf (pair : FunctionSpec × FunctionSpec) : String × String :=
  (pair.1.functionId, pair.2.functionId)

theorem linkAt_nil : linkAt [] = fun _ fn => fn := by
  funext k fn
  simp [linkAt]

theorem linkAt_linkAt (pairs pairs' : List (String × String)) (k : String) (fn : FunctionSpec) :
    linkAt pairs' k (linkAt pairs k fn) = linkAt (pairs ++ pairs') k fn := by
  simp [linkAt]

theorem link_eq (funcs : Dict String FunctionSpec) (pair : FunctionSpec × FunctionSpec) :
    link funcs pair = funcs.mapVals (linkAt [idsOf pair]) := by
  rw [link, Dict.modify, Dict.modify, Dict.mapVals_mapVals]
  congr 1
  funext k fn
  have hswap : ∀ id : String, (id = k) = (k = id) := fun id => propext eq_comm
  simp only [linkAt, idsOf, List.filter_cons, List.filter_nil, hswap, decide_eq_true_eq]
  split_ifs <;> simp

theorem foldl_link_eq (pairs : List (FunctionSpec × FunctionSpec))
    (funcs : Dict String FunctionSpec) :
    pairs.foldl link funcs = funcs.mapVals (linkAt (pairs.map idsOf)) := by
  induction pairs generalizing funcs with
  | nil => simp [linkAt_nil, Dict.mapVals_id]
  | cons pair pairs ih =>
    rw [List.foldl_cons, ih, link_eq, Dict.mapVals_mapVals]
    simp [linkAt_linkAt]

/-- The ids of the functions, each with its stage: what linking looks at, and keeps. -/
def idStages (funcs : Dict String FunctionSpec) : List (String × String) :=
  funcs.values.map fun fn => (fn.functionId, fn.stageId)

theorem idStages_mapVals_linkAt (pairs : List (String × String))
    (funcs : Dict String FunctionSpec) :
    idStages (funcs.mapVals (linkAt pairs)) = idStages funcs := by
  simp [idStages, Dict.values, Dict.mapVals, linkAt]

/-- The ids of the functions of a stage. -/
def idsIn (ids : List (String × String)) (stageId : String) : List String :=
  (ids.filter (·.2 = stageId)).map Prod.fst

/-- The pairs of ids that an edge links. -/
def idPairs (job : JobSpec) (ids : List (String × String)) (edge : String × String) :
    List (String × String) :=
  if triggerOf job edge.2 ∈ ["direct", "one_to_one"] ∧
      (idsIn ids edge.1).length = (idsIn ids edge.2).length then
    ((idsIn ids edge.1).insertionSort (· ≤ ·)).zip ((idsIn ids edge.2).insertionSort (· ≤ ·))
  else
    (idsIn ids edge.1).product (idsIn ids edge.2)

theorem idsIn_idStages (funcs : Dict String FunctionSpec) (stageId : String) :
    idsIn (idStages funcs) stageId =
      (funcs.values.filter (·.stageId = stageId)).map (·.functionId) := by
  simp [idsIn, idStages, List.filter_map, Function.comp_def]

theorem map_functionId_sortById (fns : List FunctionSpec) :
    (sortById fns).map (·.functionId) = (fns.map (·.functionId)).insertionSort (· ≤ ·) :=
  List.map_insertionSort _ _ _ _ fun _ _ _ _ => Iff.rfl

theorem map_idsOf_edgePairs (job : JobSpec) (funcs : Dict String FunctionSpec)
    (edge : String × String) :
    (edgePairs job funcs edge).map idsOf = idPairs job (idStages funcs) edge := by
  simp only [edgePairs, idPairs, idsIn_idStages, List.length_map, ← map_functionId_sortById]
  split_ifs
  · rw [List.zip_map]
    rfl
  · simp [List.product, List.map_flatMap, List.flatMap_map, idsOf, Function.comp_def]

/-- All pairs of ids that the edges of a job link. -/
def linkedIds (job : JobSpec) : List (String × String) :=
  job.edges.flatMap (idPairs job (idStages (stageFunctions job)))

theorem foldl_linkEdge_eq (job : JobSpec) (edges : List (String × String))
    (funcs : Dict String FunctionSpec) :
    edges.foldl (linkEdge job) funcs =
      funcs.mapVals (linkAt (edges.flatMap (idPairs job (idStages funcs)))) := by
  induction edges generalizing funcs with
  | nil => simp [linkAt_nil, Dict.mapVals_id]
  | cons edge edges ih =>
    rw [List.foldl_cons, linkEdge, foldl_link_eq, ih, idStages_mapVals_linkAt,
      Dict.mapVals_mapVals, map_idsOf_edgePairs]
    simp [linkAt_linkAt]

/-- The expanded functions in closed form. -/
theorem functions_expandExecutionGraph (job : JobSpec) :
    (expandExecutionGraph job).functions = (stageFunctions job).mapVals (linkAt (linkedIds job)) :=
  foldl_linkEdge_eq job job.edges _

/-! ### Counting links -/

/-- The edge links the two slots. -/
def Links (p q : StageSpec × ℕ) (edge : String × String) : Prop :=
  edge.1 = p.1.stageId ∧ edge.2 = q.1.stageId ∧
    (q.1.trigger ∈ ["direct", "one_to_one"] ∧
      p.1.parallelism.toNat = q.1.parallelism.toNat → p.2 = q.2)

instance (p q : StageSpec × ℕ) : DecidablePred (Links p q) := fun _ =>
  inferInstanceAs (Decidable (_ ∧ _ ∧ (_ → _)))

section Counting

variable {job : JobSpec} (hdistinct : DistinctStages job)
include hdistinct

theorem DistinctStages.triggerOf_eq {stage : StageSpec} (h : stage ∈ job.stages) :
    triggerOf job stage.stageId = stage.trigger := by
  have hentries : (Dict.ofList (job.stages.map fun s => (s.stageId, s))).entries =
      job.stages.map fun s => (s.stageId, s) := by
    refine Dict.entries_ofList ?_
    simpa [DistinctStages, Function.comp_def] using hdistinct
  have hget : (Dict.ofList (job.stages.map fun s => (s.stageId, s))).get? stage.stageId =
      some stage := by
    rw [← Dict.mem_entries_iff, hentries]
    exact List.mem_map.2 ⟨stage, h, rfl⟩
  simp [triggerOf, hget]

theorem DistinctStages.idStages_eq :
    idStages (stageFunctions job) =
      (slots job).map fun slot => (slotId job slot, slot.1.stageId) := by
  simp [idStages, Dict.values, hdistinct.entries_stageFunctions, stageFunction, slotId,
    Function.comp_def]

theorem DistinctStages.mem_idsIn {x stageId : String} :
    x ∈ idsIn (idStages (stageFunctions job)) stageId ↔
      ∃ slot ∈ slots job, slot.1.stageId = stageId ∧ slotId job slot = x := by
  simp only [idsIn, hdistinct.idStages_eq, List.mem_map, List.mem_filter, decide_eq_true_eq]
  constructor
  · rintro ⟨_, ⟨⟨slot, hslot, rfl⟩, hstage⟩, rfl⟩
    exact ⟨slot, hslot, hstage, rfl⟩
  · rintro ⟨slot, hslot, hstage, rfl⟩
    exact ⟨_, ⟨⟨slot, hslot, rfl⟩, hstage⟩, rfl⟩

theorem DistinctStages.slotId_mem_idsIn {slot : StageSpec × ℕ} (h : slot ∈ slots job)
    {stageId : String} :
    slotId job slot ∈ idsIn (idStages (stageFunctions job)) stageId ↔
      stageId = slot.1.stageId := by
  rw [hdistinct.mem_idsIn]
  constructor
  · rintro ⟨slot', h', rfl, hid⟩
    rw [hdistinct.slotId_inj h' h hid]
  · rintro rfl
    exact ⟨slot, h, rfl, rfl⟩

theorem DistinctStages.nodup_idsIn (stageId : String) :
    (idsIn (idStages (stageFunctions job)) stageId).Nodup := by
  have hsub : (idsIn (idStages (stageFunctions job)) stageId).Sublist
      ((idStages (stageFunctions job)).map Prod.fst) := List.filter_sublist.map _
  refine hsub.nodup ?_
  simpa [hdistinct.idStages_eq, Function.comp_def] using hdistinct.nodup_slotIds

/-- The functions of a stage come in the order of their indices. -/
theorem DistinctStages.idsIn_eq {stage : StageSpec} (h : stage ∈ job.stages) :
    idsIn (idStages (stageFunctions job)) stage.stageId =
      (List.range stage.parallelism.toNat).map (functionId job.jobId stage.stageId) := by
  have key : ∀ stages : List StageSpec, (stages.map (·.stageId)).Nodup → stage ∈ stages →
      (stages.flatMap fun s => (List.range s.parallelism.toNat).map (s, ·)).filter
          (fun slot => slot.1.stageId = stage.stageId) =
        (List.range stage.parallelism.toNat).map (stage, ·) := by
    intro stages hnodup hmem
    induction stages with
    | nil => cases hmem
    | cons s stages ih =>
      rw [List.map_cons, List.nodup_cons] at hnodup
      rw [List.flatMap_cons, List.filter_append]
      obtain rfl | hmem := List.mem_cons.1 hmem
      · have hrest : (stages.flatMap fun s => (List.range s.parallelism.toNat).map (s, ·)).filter
            (fun slot => slot.1.stageId = stage.stageId) = [] := by
          refine List.filter_eq_nil_iff.2 fun slot hslot heq => hnodup.1 ?_
          obtain ⟨s, hs, hslot⟩ := List.mem_flatMap.1 hslot
          obtain ⟨_, -, rfl⟩ := List.mem_map.1 hslot
          exact List.mem_map.2 ⟨s, hs, by simpa using heq⟩
        rw [hrest, List.append_nil, List.filter_eq_self]
        simp
      · have hne : s.stageId ≠ stage.stageId := fun heq =>
          hnodup.1 (heq ▸ List.mem_map.2 ⟨stage, hmem, rfl⟩)
        rw [ih hnodup.2 hmem, List.filter_eq_nil_iff.2 (by simp [hne]), List.nil_append]
  rw [idsIn, hdistinct.idStages_eq, List.filter_map, List.map_map]
  have hfilter := key job.stages hdistinct h
  simp only [slots, Function.comp_def]
  rw [hfilter, List.map_map]
  rfl

omit hdistinct in
theorem insertionSort_ids (jobId stageId : String) (n : ℕ) :
    ((List.range n).map (functionId jobId stageId)).insertionSort (· ≤ ·) =
      ((List.range n).insertionSort fun i j => toString i ≤ toString j).map
        (functionId jobId stageId) :=
  (List.map_insertionSort _ _ _ _ fun i _ j _ => (functionId_le_iff jobId stageId i j).symm).symm

/-- In two stages of the same size, the ids stand in the same order of their indices. -/
theorem DistinctStages.mem_zip_iff {p q : StageSpec × ℕ} (hp : p ∈ slots job) (hq : q ∈ slots job)
    (hlength : p.1.parallelism.toNat = q.1.parallelism.toNat) :
    (slotId job p, slotId job q) ∈
        ((idsIn (idStages (stageFunctions job)) p.1.stageId).insertionSort (· ≤ ·)).zip
          ((idsIn (idStages (stageFunctions job)) q.1.stageId).insertionSort (· ≤ ·)) ↔
      p.2 = q.2 := by
  rw [hdistinct.idsIn_eq (mem_slots.1 hp).1, hdistinct.idsIn_eq (mem_slots.1 hq).1,
    insertionSort_ids, insertionSort_ids, hlength, List.zip_map', List.mem_map]
  constructor
  · rintro ⟨i, -, heq⟩
    obtain ⟨hi, hj⟩ := Prod.mk.inj heq
    exact (functionId_inj hi).2.symm.trans (functionId_inj hj).2
  · intro h
    refine ⟨p.2, ?_, by simp [slotId, h]⟩
    rw [List.mem_insertionSort, List.mem_range, ← hlength]
    exact (mem_slots.1 hp).2

theorem DistinctStages.length_idsIn {stage : StageSpec} (h : stage ∈ job.stages) :
    (idsIn (idStages (stageFunctions job)) stage.stageId).length = stage.parallelism.toNat := by
  rw [hdistinct.idsIn_eq h, List.length_map, List.length_range]

theorem DistinctStages.mem_idPairs_iff {p q : StageSpec × ℕ} (hp : p ∈ slots job)
    (hq : q ∈ slots job) (edge : String × String) :
    (slotId job p, slotId job q) ∈ idPairs job (idStages (stageFunctions job)) edge ↔
      Links p q edge := by
  by_cases hends : edge.1 = p.1.stageId ∧ edge.2 = q.1.stageId
  · obtain ⟨hsrc, hdst⟩ := hends
    simp only [Links, idPairs, hsrc, hdst, true_and,
      hdistinct.triggerOf_eq (mem_slots.1 hq).1, hdistinct.length_idsIn (mem_slots.1 hp).1,
      hdistinct.length_idsIn (mem_slots.1 hq).1]
    split_ifs with haligned
    · rw [hdistinct.mem_zip_iff hp hq haligned.2]
      exact ⟨fun h _ => h, fun h => h haligned⟩
    · rw [List.pair_mem_product, hdistinct.slotId_mem_idsIn hp, hdistinct.slotId_mem_idsIn hq]
      exact ⟨fun _ h => absurd h haligned, fun _ => ⟨rfl, rfl⟩⟩
  · refine iff_of_false (fun hmem => hends ?_) fun h => hends ⟨h.1, h.2.1⟩
    rw [← hdistinct.slotId_mem_idsIn hp, ← hdistinct.slotId_mem_idsIn hq]
    rw [idPairs] at hmem
    split_ifs at hmem
    · simpa using List.of_mem_zip hmem
    · exact List.pair_mem_product.1 hmem

theorem DistinctStages.nodup_idPairs (edge : String × String) :
    (idPairs job (idStages (stageFunctions job)) edge).Nodup := by
  rw [idPairs]
  split_ifs with h
  · refine List.Nodup.of_map Prod.fst ?_
    rw [List.map_fst_zip (by simp [h.2])]
    exact (List.perm_insertionSort _ _).nodup_iff.2 (hdistinct.nodup_idsIn edge.1)
  · exact (hdistinct.nodup_idsIn edge.1).product (hdistinct.nodup_idsIn edge.2)

/-- Two functions are linked once for each edge that links them. -/
theorem DistinctStages.count_linkedIds {p q : StageSpec × ℕ} (hp : p ∈ slots job)
    (hq : q ∈ slots job) :
    (linkedIds job).count (slotId job p, slotId job q) = job.edges.countP (Links p q) := by
  rw [linkedIds]
  induction job.edges with
  | nil => rfl
  | cons edge edges ih =>
    rw [List.flatMap_cons, List.count_append, ih, List.countP_cons, add_comm]
    congr 1
    by_cases hlinks : Links p q edge
    · rw [List.count_eq_one_of_mem (hdistinct.nodup_idPairs edge)
        ((hdistinct.mem_idPairs_iff hp hq edge).2 hlinks)]
      simp [hlinks]
    · rw [List.count_eq_zero.2 fun h => hlinks ((hdistinct.mem_idPairs_iff hp hq edge).1 h)]
      simp [hlinks]

end Counting

/-! ### The expanded job -/

/-- The functions of a job are its slots, stored under their ids, and two functions are linked, at
both ends, as often as the edges say. -/
structure ExactExpansion (job : JobSpec) : Prop where
  keyed : ∀ k f, job.functions.get? k = some f → f.functionId = k
  functions : idStages job.functions = (slots job).map fun slot => (slotId job slot, slot.1.stageId)
  distinct : ((slots job).map (slotId job)).Nodup
  links : ∀ p ∈ slots job, ∀ q ∈ slots job, ∀ f g, job.functions.get? (slotId job p) = some f →
    job.functions.get? (slotId job q) = some g →
      f.successors.count g.functionId = job.edges.countP (Links p q) ∧
        g.predecessors.count f.functionId = job.edges.countP (Links p q)

theorem count_map_snd_filter {α β : Type*} [DecidableEq α] [DecidableEq β] (l : List (α × β))
    (a : α) (b : β) : ((l.filter (·.1 = a)).map Prod.snd).count b = l.count (a, b) := by
  simp only [List.count_eq_countP, List.countP_map, List.countP_filter]
  refine List.countP_congr fun p _ => ?_
  simp [Prod.ext_iff, and_comm]

theorem count_map_fst_filter {α β : Type*} [DecidableEq α] [DecidableEq β] (l : List (α × β))
    (a : α) (b : β) : ((l.filter (·.2 = b)).map Prod.fst).count a = l.count (a, b) := by
  simp only [List.count_eq_countP, List.countP_map, List.countP_filter]
  refine List.countP_congr fun p _ => ?_
  simp [Prod.ext_iff]

theorem DistinctStages.get?_functions {job : JobSpec} (hdistinct : DistinctStages job)
    {p : StageSpec × ℕ} (hp : p ∈ slots job) :
    (expandExecutionGraph job).functions.get? (slotId job p) =
      some (linkAt (linkedIds job) (slotId job p) (stageFunction job p.1 p.2)) := by
  have hget : (stageFunctions job).get? (slotId job p) = some (stageFunction job p.1 p.2) := by
    rw [← Dict.mem_entries_iff, hdistinct.entries_stageFunctions]
    exact List.mem_map.2 ⟨p, hp, rfl⟩
  rw [functions_expandExecutionGraph, Dict.get?_mapVals, hget, Option.map_some]

theorem DistinctStages.exactExpansion {job : JobSpec} (hdistinct : DistinctStages job) :
    ExactExpansion (expandExecutionGraph job) where
  keyed k f h := (expanded_expandExecutionGraph job).keyed h
  functions := by
    rw [functions_expandExecutionGraph, idStages_mapVals_linkAt]
    exact hdistinct.idStages_eq
  distinct := hdistinct.nodup_slotIds
  links p hp q hq f g hf hg := by
    obtain rfl := Option.some.inj ((hdistinct.get?_functions hp).symm.trans hf)
    obtain rfl := Option.some.inj ((hdistinct.get?_functions hq).symm.trans hg)
    have hcount := hdistinct.count_linkedIds hp hq
    constructor
    · simp only [linkAt, stageFunction, List.nil_append, count_map_snd_filter]
      exact hcount
    · simp only [linkAt, stageFunction, List.nil_append, count_map_fst_filter]
      exact hcount

/-- **A built job whose stages have distinct ids has exactly the functions of its stages, and
exactly the links of its edges.** -/
theorem exactExpansion_buildJob (raw : RawProfile) (h : (raw.stages.map (·.id)).Nodup) :
    ExactExpansion (buildJob raw) := by
  refine DistinctStages.exactExpansion ?_
  simpa [DistinctStages, profileJob, buildStage, Function.comp_def] using h

/-- A stage with eleven functions, linked one to one to the next, and to itself. -/
theorem exactExpansion_elevenFunctions :
    ExactExpansion (buildJob
      { jobId := "job"
        stages := [
          { id := "map", parallelism := some 11 }, { id := "sort", parallelism := some 11 }]
        edges := [("map", "sort"), ("map", "map"), ("sort", "missing")] }) :=
  exactExpansion_buildJob _ (by decide)

end Demeter.Marl
