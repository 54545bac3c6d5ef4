import Demeter.Lib.Chains
import Demeter.Marl.Expansion

/-!
# Topological batches

`topological_batches` of `MARL/optimizer.py` visits the functions of a job level by level: a
function comes into the next batch when the last of its predecessors, counted as often as they are
linked, has been visited.

* `Linked`: the two lists of the functions are converses of each other and name functions of the
  job, which holds of every built job;
* `Level` is what the state of the loop says after `k` batches: the indegrees count the predecessors
  to which a chain of `k` predecessors leads;
* `batched_buildJob`: the loop ends, and its batches are the functions by the length of the longest
  chain of predecessors.  Functions behind a cycle are in no batch.
-/

namespace Demeter.Marl

open Chains

/-! ### The loop -/

/-- A child of a visited function: its indegree goes down, and at zero it is queued.  There is no
result if the indegree is unknown. -/
def visit (st : Dict String ℤ × List String) (succ : String) :
    Option (Dict String ℤ × List String) :=
  (st.1.get? succ).map fun degree =>
    (st.1.set succ (degree - 1), if degree - 1 = 0 then st.2 ++ [succ] else st.2)

/-- The successors; none for a missing function. -/
def childrenOf (job : JobSpec) (fid : String) : List String :=
  ((job.functions.get? fid).map (·.successors)).getD []

/-- All edges out of a batch. -/
def visitBatch (job : JobSpec) (indegree : Dict String ℤ) (batch : List String) :
    Option (Dict String ℤ × List String) :=
  batch.foldlM (fun st fid => (childrenOf job fid).foldlM visit st) (indegree, [])

/-- The loop `while queue`, of which at most `fuel` rounds are followed. -/
def batchLoop (job : JobSpec) :
    ℕ → Dict String ℤ → List String → List (List String) → Option (List (List String))
  | 0, _, _, _ => none
  | fuel + 1, indegree, queue, batches =>
      if queue = [] then some batches
      else (visitBatch job indegree queue).bind fun st =>
        batchLoop job fuel st.1 st.2 (batches ++ [queue])

/-- The number of predecessors of each function. -/
def indegrees (job : JobSpec) : Dict String ℤ :=
  job.functions.mapVals fun _ fn => fn.predecessors.length

/-- `topological_batches`, cut off after `fuel` batches. -/
def topologicalBatches (fuel : ℕ) (job : JobSpec) : Option (List (List String)) :=
  let queue := ((indegrees job).entries.filter (·.2 = 0)).map Prod.fst
  batchLoop job fuel (indegrees job) (queue.insertionSort (· ≤ ·)) []

/-! ### The graph of a job -/

/-- An edge of the function graph. -/
def IsPredecessor (job : JobSpec) (u v : String) : Prop :=
  ∃ fn, job.functions.get? v = some fn ∧ u ∈ fn.predecessors

/-- The lists of successors and predecessors are converses, with multiplicities. -/
structure Linked (job : JobSpec) : Prop where
  successors : ∀ {k fn}, job.functions.get? k = some fn → ∀ s ∈ fn.successors,
    s ∈ job.functions.keys
  predecessors : ∀ {k fn}, job.functions.get? k = some fn → ∀ p ∈ fn.predecessors,
    p ∈ job.functions.keys
  converse : ∀ {k k' fn fn'}, job.functions.get? k = some fn → job.functions.get? k' = some fn' →
    fn.successors.count k' = fn'.predecessors.count k

theorem mem_idsIn_keys {job : JobSpec} {k stageId : String}
    (h : k ∈ idsIn (idStages (stageFunctions job)) stageId) : k ∈ (stageFunctions job).keys := by
  obtain ⟨e, he, rfl⟩ := List.mem_map.1 h
  obtain ⟨fn, hfn, rfl⟩ := List.mem_map.1 (List.mem_filter.1 he).1
  obtain ⟨k', hk'⟩ := Dict.mem_values_iff.1 hfn
  obtain ⟨_, -, _, rfl, rfl⟩ := mem_stageFunctions hk'
  exact Dict.mem_keys_iff.2 ⟨_, hk'⟩

/-- Linked ids are ids of functions. -/
theorem mem_keys_of_mem_linkedIds {job : JobSpec} {pair : String × String}
    (h : pair ∈ linkedIds job) :
    pair.1 ∈ (stageFunctions job).keys ∧ pair.2 ∈ (stageFunctions job).keys := by
  obtain ⟨edge, -, hpair⟩ := List.mem_flatMap.1 h
  rw [idPairs] at hpair
  split_ifs at hpair
  · have hmem := List.of_mem_zip hpair
    rw [List.mem_insertionSort, List.mem_insertionSort] at hmem
    exact hmem.imp mem_idsIn_keys mem_idsIn_keys
  · have hmem := List.mem_product.1 hpair
    exact hmem.imp mem_idsIn_keys mem_idsIn_keys

theorem get?_expandExecutionGraph {job : JobSpec} {k : String} {fn : FunctionSpec}
    (h : (expandExecutionGraph job).functions.get? k = some fn) :
    fn.successors = ((linkedIds job).filter (·.1 = k)).map Prod.snd ∧
      fn.predecessors = ((linkedIds job).filter (·.2 = k)).map Prod.fst := by
  rw [functions_expandExecutionGraph, Dict.get?_mapVals, Option.map_eq_some_iff] at h
  obtain ⟨fn₀, h₀, rfl⟩ := h
  obtain ⟨_, -, _, rfl, -⟩ := mem_stageFunctions h₀
  simp [linkAt, stageFunction]

theorem linked_expandExecutionGraph (job : JobSpec) : Linked (expandExecutionGraph job) where
  successors h s hs := by
    rw [(get?_expandExecutionGraph h).1, List.mem_map] at hs
    obtain ⟨pair, hpair, rfl⟩ := hs
    rw [functions_expandExecutionGraph, Dict.keys_mapVals]
    exact (mem_keys_of_mem_linkedIds (List.mem_filter.1 hpair).1).2
  predecessors h p hp := by
    rw [(get?_expandExecutionGraph h).2, List.mem_map] at hp
    obtain ⟨pair, hpair, rfl⟩ := hp
    rw [functions_expandExecutionGraph, Dict.keys_mapVals]
    exact (mem_keys_of_mem_linkedIds (List.mem_filter.1 hpair).1).1
  converse h h' := by
    rw [(get?_expandExecutionGraph h).1, (get?_expandExecutionGraph h').2, count_map_snd_filter,
      count_map_fst_filter]

/-! ### One batch -/

/-- What visiting a list of children does to the indegrees, and which of them are queued. -/
theorem foldlM_visit (succs : List String) (indegree : Dict String ℤ) (queue : List String)
    (hknown : ∀ v ∈ succs, v ∈ indegree.keys) :
    ∃ indegree' queued, succs.foldlM visit (indegree, queue) = some (indegree', queue ++ queued) ∧
      (∀ v, indegree'.get? v = (indegree.get? v).map fun n => n - (succs.count v : ℤ)) ∧
        queued.Nodup ∧
          ∀ v, v ∈ queued ↔ ∃ n, indegree.get? v = some n ∧ 1 ≤ n ∧ n ≤ succs.count v := by
  induction succs generalizing indegree queue with
  | nil =>
    refine ⟨indegree, [], by simp, fun v => by simp, List.nodup_nil, fun v => ?_⟩
    refine iff_of_false (by simp) ?_
    rintro ⟨n, -, h1, h2⟩
    rw [List.count_nil] at h2
    omega
  | cons s succs ih =>
    obtain ⟨degree, hdegree⟩ := Dict.mem_keys_iff.1 (hknown s List.mem_cons_self)
    obtain ⟨indegree', queued, hfold, hget, hnodup, hmem⟩ := ih (indegree.set s (degree - 1))
      (if degree - 1 = 0 then queue ++ [s] else queue) fun v hv =>
        Dict.mem_keys_set.2 (.inr (hknown v (List.mem_cons_of_mem s hv)))
    refine ⟨indegree', (if degree - 1 = 0 then [s] else []) ++ queued, ?_, fun v => ?_, ?_,
      fun v => ?_⟩
    · rw [List.foldlM_cons, visit, hdegree, Option.map_some]
      simp only [Option.bind_eq_bind, Option.bind_some, hfold]
      split_ifs <;> simp
    · rw [hget, Dict.get?_set, List.count_cons]
      by_cases hv : v = s
      · subst hv
        simp only [if_true, hdegree, Option.map_some, beq_self_eq_true]
        congr 1
        push_cast
        ring
      · simp [hv, Ne.symm hv]
    · split_ifs with hzero
      · refine List.nodup_append.2 ⟨List.nodup_singleton s, hnodup, ?_⟩
        rintro v hv w hw rfl
        rw [List.mem_singleton.1 hv, hmem, Dict.get?_set, if_pos rfl] at hw
        obtain ⟨n, hn, h1, -⟩ := hw
        cases hn
        omega
      · exact hnodup
    · rw [List.mem_append, hmem, Dict.get?_set, List.count_cons]
      by_cases hv : v = s
      · subst hv
        simp only [if_true, hdegree, beq_self_eq_true, Option.some.injEq, exists_eq_left']
        split_ifs with hzero
        · simp only [List.mem_singleton, true_or, true_iff]
          omega
        · simp only [List.not_mem_nil, false_or]
          push_cast
          omega
      · have hs : (s == v) = false := beq_eq_false_iff_ne.2 (Ne.symm hv)
        simp only [hs, if_neg hv, Bool.false_eq_true, if_false, add_zero]
        split_ifs <;> simp [hv]

theorem foldlM_flatMap {α β γ : Type*} (f : γ → β → Option γ) (g : α → List β) (l : List α)
    (st : γ) : l.foldlM (fun st a => (g a).foldlM f st) st = (l.flatMap g).foldlM f st := by
  induction l generalizing st with
  | nil => rfl
  | cons a l ih =>
    rw [List.flatMap_cons, List.foldlM_append, List.foldlM_cons]
    exact congrArg _ (funext ih)

/-- Counting the members of one list in another. -/
theorem sum_count_eq_countP {α : Type*} [DecidableEq α] {q : List α} (hq : q.Nodup) (l : List α) :
    (q.map l.count).sum = l.countP (· ∈ q) := by
  induction q with
  | nil => simp
  | cons a q ih =>
    rw [List.nodup_cons] at hq
    rw [List.map_cons, List.sum_cons, ih hq.2]
    clear ih
    induction l with
    | nil => simp
    | cons b l ih =>
      simp only [List.count_cons, List.countP_cons]
      by_cases hb : b = a
      · subst hb
        simp [hq.1] at ih ⊢
        omega
      · by_cases hbq : b ∈ q <;> simp [hb, hbq] at ih ⊢ <;> omega

theorem countP_eq_add {α : Type*} {p q s : α → Bool} {l : List α}
    (h : ∀ a ∈ l, (p a = true ↔ q a = true ∨ s a = true) ∧ ¬ (q a = true ∧ s a = true)) :
    l.countP p = l.countP q + l.countP s := by
  induction l with
  | nil => rfl
  | cons a l ih =>
    obtain ⟨hor, hand⟩ := h a List.mem_cons_self
    have hl := ih fun b hb => h b (List.mem_cons_of_mem a hb)
    rw [List.countP_cons, List.countP_cons, List.countP_cons, hl]
    cases hp : p a <;> cases hq : q a <;> cases hs : s a <;> simp_all <;> omega

/-! ### Levels -/

open Classical in
/-- The predecessors, with multiplicity, to which a chain of `k` predecessors leads. -/
noncomputable def remaining (job : JobSpec) (k : ℕ) (fn : FunctionSpec) : ℕ :=
  fn.predecessors.countP fun u => HasChain (IsPredecessor job) k u

/-- The state of the loop after `k` batches. -/
structure Level (job : JobSpec) (k : ℕ) (indegree : Dict String ℤ) (queue : List String) :
    Prop where
  degrees : ∀ v, indegree.get? v = (job.functions.get? v).map fun fn => (remaining job k fn : ℤ)
  nodup : queue.Nodup
  mem : ∀ v, v ∈ queue ↔ v ∈ job.functions.keys ∧ Depth (IsPredecessor job) k v

section Level

variable {job : JobSpec} {k : ℕ} {v : String} {fn : FunctionSpec} {indegree : Dict String ℤ}
  {queue : List String}

theorem hasChain_succ_iff (h : job.functions.get? v = some fn) :
    HasChain (IsPredecessor job) (k + 1) v ↔ 0 < remaining job k fn := by
  rw [remaining, List.countP_pos_iff]
  simp only [decide_eq_true_eq]
  constructor
  · rintro ⟨u, ⟨fn', hfn', hu⟩, hchain⟩
    obtain rfl := Option.some.inj (h.symm.trans hfn')
    exact ⟨u, hu, hchain⟩
  · rintro ⟨u, hu, hchain⟩
    exact ⟨u, ⟨fn, h, hu⟩, hchain⟩

theorem remaining_zero : remaining job 0 fn = fn.predecessors.length := by
  classical
  rw [remaining, List.countP_eq_length]
  exact fun u _ => decide_eq_true (show HasChain (IsPredecessor job) 0 u from trivial)

theorem level_zero (job : JobSpec) :
    Level job 0 (indegrees job)
      ((((indegrees job).entries.filter (·.2 = 0)).map Prod.fst).insertionSort (· ≤ ·)) where
  degrees v := by simp [indegrees, remaining_zero]
  nodup := by
    refine (List.perm_insertionSort _ _).nodup_iff.2 ?_
    exact (indegrees job).nodup.sublist (List.filter_sublist.map _)
  mem v := by
    have hentry : ∀ n, (v, n) ∈ (indegrees job).entries ↔
        ∃ fn, job.functions.get? v = some fn ∧ (fn.predecessors.length : ℤ) = n := by
      intro n
      rw [Dict.mem_entries_iff, indegrees, Dict.get?_mapVals, Option.map_eq_some_iff]
    simp only [List.mem_insertionSort, List.mem_map, List.mem_filter, decide_eq_true_eq,
      Dict.mem_keys_iff]
    constructor
    · rintro ⟨⟨v, n⟩, ⟨hmem, rfl⟩, rfl⟩
      obtain ⟨fn, hfn, hlength⟩ := (hentry 0).1 hmem
      refine ⟨⟨fn, hfn⟩, depth_iff.2 ⟨trivial, ?_⟩⟩
      rw [hasChain_succ_iff hfn, remaining_zero]
      omega
    · rintro ⟨⟨fn, hfn⟩, hdepth⟩
      have hnot := (depth_iff.1 hdepth).2
      rw [hasChain_succ_iff hfn, remaining_zero] at hnot
      exact ⟨(v, 0), ⟨(hentry 0).2 ⟨fn, hfn, by omega⟩, rfl⟩, rfl⟩

/-- A function has as many children in the batch as it has predecessors there. -/
theorem count_children (hlinked : Linked job) (hlevel : Level job k indegree queue)
    (h : job.functions.get? v = some fn) :
    (queue.flatMap (childrenOf job)).count v = fn.predecessors.countP (· ∈ queue) := by
  rw [List.count_flatMap, ← sum_count_eq_countP hlevel.nodup]
  congr 1
  refine List.map_congr_left fun u hu => ?_
  obtain ⟨fnu, hfnu⟩ := Dict.mem_keys_iff.1 ((hlevel.mem u).1 hu).1
  rw [Function.comp_apply, childrenOf, hfnu]
  exact hlinked.converse hfnu h

theorem remaining_succ (hlinked : Linked job) (hlevel : Level job k indegree queue)
    (h : job.functions.get? v = some fn) :
    remaining job k fn = fn.predecessors.countP (· ∈ queue) + remaining job (k + 1) fn := by
  refine countP_eq_add fun u hu => ?_
  have hkey := hlinked.predecessors h u hu
  simp only [decide_eq_true_eq, hlevel.mem, hkey, true_and, depth_iff]
  have hmono : HasChain (IsPredecessor job) (k + 1) u → HasChain (IsPredecessor job) k u :=
    HasChain.of_succ
  tauto

/-- One round of the loop leads to the next level. -/
theorem Level.visitBatch (hlinked : Linked job) (hlevel : Level job k indegree queue) :
    ∃ st, visitBatch job indegree queue = some st ∧ Level job (k + 1) st.1 st.2 := by
  have hkeys : ∀ w, w ∈ indegree.keys ↔ w ∈ job.functions.keys := by
    intro w
    simp only [Dict.mem_keys_iff, hlevel.degrees, Option.map_eq_some_iff]
    constructor
    · rintro ⟨_, fn, hfn, -⟩
      exact ⟨fn, hfn⟩
    · rintro ⟨fn, hfn⟩
      exact ⟨_, fn, hfn, rfl⟩
  have hknown : ∀ w ∈ queue.flatMap (childrenOf job), w ∈ indegree.keys := by
    intro w hw
    obtain ⟨u, hu, hwu⟩ := List.mem_flatMap.1 hw
    obtain ⟨fnu, hfnu⟩ := Dict.mem_keys_iff.1 ((hlevel.mem u).1 hu).1
    rw [childrenOf, hfnu] at hwu
    exact (hkeys w).2 (hlinked.successors hfnu w hwu)
  obtain ⟨indegree', queued, hfold, hget, hnodup, hmem⟩ := foldlM_visit _ indegree [] hknown
  rw [List.nil_append] at hfold
  refine ⟨(indegree', queued), ?_, fun w => ?_, hnodup, fun w => ?_⟩
  · rw [Marl.visitBatch, foldlM_flatMap, hfold]
  · -- the children of a level are those that lose a predecessor
    rw [hget, hlevel.degrees]
    cases hw : job.functions.get? w with
    | none => rfl
    | some fnw =>
      simp only [Option.map_some, Option.some.injEq]
      rw [count_children hlinked hlevel hw, remaining_succ hlinked hlevel hw]
      push_cast
      ring
  · -- a function is queued when the last one is lost
    rw [hmem, hlevel.degrees, Dict.mem_keys_iff]
    cases hw : job.functions.get? w with
    | none => simp
    | some fnw =>
      have hsucc := remaining_succ hlinked hlevel hw
      simp only [Option.map_some, Option.some.injEq, exists_eq_left',
        count_children hlinked hlevel hw, depth_iff, hasChain_succ_iff hw, exists_eq', true_and]
      omega

/-- Only so many levels have functions. -/
theorem Level.le_length (hlinked : Linked job) (hlevel : Level job k indegree queue)
    (hne : queue ≠ []) : k ≤ job.functions.keys.length := by
  classical
  obtain ⟨v, hv⟩ := List.exists_mem_of_ne_nil queue hne
  obtain ⟨hkey, hdepth⟩ := (hlevel.mem v).1 hv
  have hclosed : ∀ u v, v ∈ job.functions.keys.toFinset → IsPredecessor job u v →
      u ∈ job.functions.keys.toFinset := by
    rintro u v - ⟨fn, hfn, hu⟩
    exact List.mem_toFinset.2 (hlinked.predecessors hfn u hu)
  have hmem : v ∈ job.functions.keys.toFinset := List.mem_toFinset.2 hkey
  have hle := hdepth.1.le_card hclosed hmem ((exists_depth_iff hclosed hmem).1 ⟨k, hdepth⟩)
  exact hle.trans ((Finset.card_filter_le _ _).trans (List.toFinset_card_le _))

end Level


/-! ### All batches -/

/-- The batches that are finished hold the functions of the first levels. -/
structure Filled (job : JobSpec) (k : ℕ) (batches : List (List String)) : Prop where
  length : batches.length = k
  nodup : ∀ b ∈ batches, b.Nodup
  mem : ∀ {i b}, batches[i]? = some b →
    ∀ v, v ∈ b ↔ v ∈ job.functions.keys ∧ Depth (IsPredecessor job) i v

section Loop

variable {job : JobSpec} {k : ℕ} {indegree : Dict String ℤ} {queue : List String}
  {batches : List (List String)}

theorem Filled.append (h : Filled job k batches) (hlevel : Level job k indegree queue) :
    Filled job (k + 1) (batches ++ [queue]) where
  length := by simp [h.length]
  nodup b hb := by
    obtain hb | hb := List.mem_append.1 hb
    · exact h.nodup b hb
    · rw [List.mem_singleton.1 hb]
      exact hlevel.nodup
  mem {i b} hb := by
    rw [List.getElem?_append] at hb
    split_ifs at hb with hi
    · exact h.mem hb
    · rw [h.length] at hi hb
      obtain ⟨hindex, rfl⟩ : i = k ∧ queue = b := by
        rw [List.getElem?_singleton] at hb
        split_ifs at hb with hzero
        exact ⟨by omega, Option.some.inj hb⟩
      exact hindex ▸ hlevel.mem

/-- The loop ends, and leaves no level out. -/
theorem batchLoop_spec (hlinked : Linked job) (fuel : ℕ) (hlevel : Level job k indegree queue)
    (hfilled : Filled job k batches) (hk : k ≤ job.functions.keys.length + 1)
    (hfuel : job.functions.keys.length + 2 ≤ fuel + k) :
    ∃ result n, batchLoop job fuel indegree queue batches = some result ∧ Filled job n result ∧
      ∀ v ∈ job.functions.keys, ¬ Depth (IsPredecessor job) n v := by
  induction fuel generalizing k indegree queue batches with
  | zero => omega
  | succ fuel ih =>
    rw [batchLoop]
    split_ifs with hqueue
    · refine ⟨batches, k, rfl, hfilled, fun v hv hdepth => ?_⟩
      have hmem := (hlevel.mem v).2 ⟨hv, hdepth⟩
      simp [hqueue] at hmem
    · obtain ⟨st, hst, hnext⟩ := hlevel.visitBatch hlinked
      have hle := hlevel.le_length hlinked hqueue
      rw [hst, Option.bind_some]
      exact ih hnext (hfilled.append hlevel) (by omega) (by omega)

/-- More rounds make no difference. -/
theorem batchLoop_add {fuel : ℕ} {result : List (List String)}
    (h : batchLoop job fuel indegree queue batches = some result) (extra : ℕ) :
    batchLoop job (fuel + extra) indegree queue batches = some result := by
  induction fuel generalizing indegree queue batches with
  | zero => cases h
  | succ fuel ih =>
    rw [Nat.succ_add, batchLoop]
    rw [batchLoop] at h
    split_ifs at h ⊢
    · exact h
    · obtain ⟨st, hst, hrest⟩ := Option.bind_eq_some_iff.1 h
      rw [hst, Option.bind_some]
      exact ih hrest

end Loop

/-- Every function without a cycle behind it is listed once, in the batch of its depth. -/
structure Batched (job : JobSpec) (batches : List (List String)) : Prop where
  nodup : batches.flatten.Nodup
  depth : ∀ v k, (∃ b, batches[k]? = some b ∧ v ∈ b) ↔
    v ∈ job.functions.keys ∧ Depth (IsPredecessor job) k v
  listed : ∀ v, v ∈ batches.flatten ↔
    v ∈ job.functions.keys ∧ ¬ BehindCycle (IsPredecessor job) v
  partition : (∀ v, ¬ Relation.TransGen (IsPredecessor job) v v) →
    batches.flatten.Perm job.functions.keys
  earlier : ∀ {i j : ℕ} {b b' : List String} {u v : String}, batches[i]? = some b →
    batches[j]? = some b' → u ∈ b → v ∈ b' → IsPredecessor job u v → i < j

section Filled

variable {job : JobSpec} {n : ℕ} {batches : List (List String)}

theorem Linked.closed (hlinked : Linked job) (u v : String) (_ : v ∈ job.functions.keys)
    (huv : IsPredecessor job u v) : u ∈ job.functions.keys := by
  obtain ⟨fn, hfn, hu⟩ := huv
  exact hlinked.predecessors hfn u hu

/-- When no function has the next depth, none is deeper. -/
theorem Filled.exists_iff (hlinked : Linked job) (h : Filled job n batches)
    (hlast : ∀ v ∈ job.functions.keys, ¬ Depth (IsPredecessor job) n v) (v : String) (k : ℕ) :
    (∃ b, batches[k]? = some b ∧ v ∈ b) ↔
      v ∈ job.functions.keys ∧ Depth (IsPredecessor job) k v := by
  constructor
  · rintro ⟨b, hb, hv⟩
    exact (h.mem hb v).1 hv
  · rintro ⟨hkey, hk⟩
    have hlt : k < n := by
      by_contra hle
      obtain ⟨u, hu, hun⟩ := hk.exists_of_le (S := (· ∈ job.functions.keys)) hlinked.closed hkey
        (not_lt.1 hle)
      exact hlast u hu hun
    have hb := List.getElem?_eq_getElem (h.length.symm ▸ hlt)
    exact ⟨_, hb, (h.mem hb v).2 ⟨hkey, hk⟩⟩

theorem Filled.nodup_flatten (h : Filled job n batches) : batches.flatten.Nodup := by
  refine List.nodup_flatten.2 ⟨h.nodup, List.pairwise_iff_getElem.2 fun i j hi hj hij => ?_⟩
  intro v hvi hvj
  have hdi := ((h.mem (List.getElem?_eq_getElem hi) v).1 hvi).2
  have hdj := ((h.mem (List.getElem?_eq_getElem hj) v).1 hvj).2
  exact hij.ne (hdi.unique hdj)

theorem mem_flatten_iff {α : Type*} {ls : List (List α)} {a : α} :
    a ∈ ls.flatten ↔ ∃ (k : ℕ) (l : List α), ls[k]? = some l ∧ a ∈ l := by
  rw [List.mem_flatten]
  constructor
  · rintro ⟨l, hl, ha⟩
    obtain ⟨k, hk⟩ := List.mem_iff_getElem?.1 hl
    exact ⟨k, l, hk, ha⟩
  · rintro ⟨k, l, hk, ha⟩
    exact ⟨l, List.mem_of_getElem? hk, ha⟩

theorem Filled.mem_flatten (hlinked : Linked job) (h : Filled job n batches)
    (hlast : ∀ v ∈ job.functions.keys, ¬ Depth (IsPredecessor job) n v) (v : String) :
    v ∈ batches.flatten ↔ v ∈ job.functions.keys ∧ ¬ BehindCycle (IsPredecessor job) v := by
  rw [mem_flatten_iff]
  simp only [h.exists_iff hlinked hlast]
  rw [exists_and_left]
  refine and_congr_right fun hkey => exists_depth_iff (S := job.functions.keys.toFinset) ?_ ?_
  · intro u v hv huv
    exact List.mem_toFinset.2 (hlinked.closed u v (List.mem_toFinset.1 hv) huv)
  · exact List.mem_toFinset.2 hkey

theorem Filled.batched (hlinked : Linked job) (h : Filled job n batches)
    (hlast : ∀ v ∈ job.functions.keys, ¬ Depth (IsPredecessor job) n v) :
    Batched job batches where
  nodup := h.nodup_flatten
  depth := h.exists_iff hlinked hlast
  listed := h.mem_flatten hlinked hlast
  partition hacyclic := by
    refine (List.perm_ext_iff_of_nodup h.nodup_flatten job.functions.nodup).2 fun v => ?_
    rw [h.mem_flatten hlinked hlast]
    exact ⟨And.left, fun hkey => ⟨hkey, fun hbehind => hbehind.elim fun u hu => hacyclic u hu.2⟩⟩
  earlier hb hb' hu hv huv := ((h.mem hb' _).1 hv).2.lt ((h.mem hb _).1 hu).2 huv

end Filled

/-- **The batches of a built job.** -/
theorem batched_buildJob (raw : RawProfile) :
    ∃ batches, (∀ fuel ≥ (buildJob raw).functions.keys.length + 2,
        topologicalBatches fuel (buildJob raw) = some batches) ∧
      Batched (buildJob raw) batches := by
  have hlinked : Linked (buildJob raw) := linked_expandExecutionGraph _
  have hempty : Filled (buildJob raw) 0 [] := ⟨rfl, by simp, by simp⟩
  obtain ⟨batches, n, hloop, hfilled, hlast⟩ :=
    batchLoop_spec hlinked ((buildJob raw).functions.keys.length + 2)
      (level_zero (buildJob raw)) hempty (by omega) (by omega)
  refine ⟨batches, fun fuel hfuel => ?_, hfilled.batched hlinked hlast⟩
  obtain ⟨extra, rfl⟩ := Nat.exists_eq_add_of_le hfuel
  exact batchLoop_add hloop extra


end Demeter.Marl
