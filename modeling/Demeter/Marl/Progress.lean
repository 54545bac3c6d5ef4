import Mathlib.Logic.Relation
import Mathlib.Data.Fintype.Basic
import Mathlib.Order.WellFounded
import Demeter.Marl.LivePolicy
import Demeter.Marl.Precedence

/-!
# Termination of the simulation loop

Every iteration of `plan` and `step` that starts with unfinished functions finishes one of them:
acyclicity yields a pending function, the cut of the observation to a wave keeps at least one, a
live policy acts on it and the step accepts the action.

* `Workload`: what is assumed of the registered jobs; `SameWorkload` says that a change of state
  keeps it;
* `exists_pending`, `exists_mem_allPendingFunctions`: some pending function is observed;
* `unfinished`: the measure; `unfinished_stepActions_lt` its strict decrease;
* `Episode.Ready.unfinished_iterate_lt`, `Episode.done_loop_start`: the loop with a live policy and
  an estimator that always returns.  `Marl/Raising.lean` adds the exceptions of the source.
-/

namespace Demeter.Marl

open Relation

/-! ### Acyclic relations on finite sets -/

/-- A non-empty part of a list has an element without a smaller one, for an acyclic relation. -/
theorem exists_minimal_of_acyclic {α : Type*} {r : α → α → Prop} (hr : ∀ a, ¬ TransGen r a a)
    {l : List α} {P : α → Prop} {a : α} (ha : a ∈ l) (hPa : P a) :
    ∃ b ∈ l, P b ∧ ∀ c ∈ l, P c → ¬ r c b := by
  let below : {x // x ∈ l} → {x // x ∈ l} → Prop := fun x y => TransGen r x.1 y.1
  have : IsTrans _ below := ⟨fun _ _ _ h h' => h.trans h'⟩
  have : Std.Irrefl below := ⟨fun x => hr x.1⟩
  have : Finite {x // x ∈ l} := l.finite_toSet
  have wf := Finite.wellFounded_of_trans_of_irrefl below
  obtain ⟨b, hPb, hmin⟩ := wf.has_min {x | P x.1} ⟨⟨a, ha⟩, hPa⟩
  exact ⟨b.1, b.2, hPb, fun c hc hPc h => hmin ⟨c, hc⟩ hPc (TransGen.single h)⟩

theorem acyclic_of_rank {α : Type*} {r : α → α → Prop} (rank : α → ℕ)
    (h : ∀ a b, r a b → rank a < rank b) (a : α) : ¬ TransGen r a a := by
  have lt : ∀ {a b}, TransGen r a b → rank a < rank b := by
    intro a b hab
    induction hab with
    | single hab => exact h _ _ hab
    | tail _ hbc ih => exact ih.trans (h _ _ hbc)
  exact fun haa => (lt haa).false

/-- The function-level predecessor relation of a job. -/
def Precedes (funcs : Dict String FunctionSpec) (p k : String) : Prop :=
  ∃ fn, funcs.get? k = some fn ∧ p ∈ fn.predecessors

/-- After a release pass, a job with unfinished functions has a pending one. -/
theorem exists_pending {funcs : Dict String FunctionSpec} (hw : Wired funcs) (hs : Settled funcs)
    (hacyclic : ∀ k, ¬ TransGen (Precedes funcs) k k) {k : String} {fn : FunctionSpec}
    (hfn : funcs.get? k = some fn) (hk : fn.status ≠ .finished) :
    ∃ k' fn', funcs.get? k' = some fn' ∧ fn'.status = .pending := by
  obtain ⟨m, hm, ⟨g, hg, hgs⟩, hmin⟩ := exists_minimal_of_acyclic hacyclic
    (P := fun k => ∃ fn, funcs.get? k = some fn ∧ fn.status ≠ .finished)
    (Dict.mem_keys_iff.2 ⟨fn, hfn⟩) ⟨fn, hfn, hk⟩
  refine ⟨m, g, hg, ?_⟩
  cases hst : g.status with
  | pending => rfl
  | running => exact absurd hst (hw.not_running hg)
  | finished => exact absurd hst hgs
  | waiting =>
    -- a waiting function has an unfinished predecessor, against minimality
    obtain ⟨p, hp, hnf⟩ := hs hg hst
    obtain ⟨h, hh⟩ := Dict.mem_keys_iff.1 (hw.known hg p hp)
    have hhs : h.status ≠ .finished := fun hf => hnf ⟨h, hh, hf⟩
    exact absurd ⟨g, hg, hp⟩ (hmin p (hw.known hg p hp) ⟨h, hh, hhs⟩)

/-! ### Workloads -/

/-- The assumptions on the registered jobs: each has functions, function ids are distinct across
jobs, predecessors are acyclic, and every function has a configured candidate data center and an
allocation that is valid under the given factor. -/
structure Workload (allocations : List AllocationType) (memoryLossFactor : ℚ)
    (c : DemeterController) : Prop where
  wave : 1 ≤ c.config.runtime.maxWaveSize
  nonempty : ∀ job ∈ c.jobs.values, job.functions.values ≠ []
  distinct : ∀ {ref ref' fn fn'}, getFn c.jobs ref = some fn → getFn c.jobs ref' = some fn' →
    fn.functionId = fn'.functionId → ref = ref'
  acyclic : ∀ job ∈ c.jobs.values, ∀ k, ¬ TransGen (Precedes job.functions) k k
  candidate : ∀ {ref fn}, getFn c.jobs ref = some fn → candidates c.config.dataCenters fn ≠ []
  allocation : ∀ {ref fn}, getFn c.jobs ref = some fn →
    ∃ a ∈ allocations, validAllocation fn a memoryLossFactor

/-- The fields of a function that no step changes and that planning and estimates depend on. -/
def FunctionSpec.static (fn : FunctionSpec) :
    String × List String × ℚ × List String × Dict String ℚ :=
  (fn.functionId, fn.candidateDcs, fn.inputMb, fn.predecessors, fn.metadata)

/-- The two controllers have the same jobs, functions and data centers, up to what a run
changes. -/
structure SameWorkload (c c' : DemeterController) : Prop where
  keys : c'.jobs.keys = c.jobs.keys
  functions : ∀ ref, (getFn c'.jobs ref).map FunctionSpec.static =
    (getFn c.jobs ref).map FunctionSpec.static
  names : c'.config.dataCenters.map (·.name) = c.config.dataCenters.map (·.name)
  runtime : c'.config.runtime = c.config.runtime

theorem candidates_ne_nil_iff {dcs : List DataCenter} {fn : FunctionSpec} :
    candidates dcs fn ≠ [] ↔
      ∃ n ∈ dcs.map (·.name), fn.candidateDcs = [] ∨ n ∈ fn.candidateDcs := by
  constructor
  · intro h
    obtain ⟨dc, hdc⟩ := List.exists_mem_of_ne_nil _ h
    obtain ⟨hdc, hcand⟩ := mem_candidates.1 hdc
    exact ⟨dc.name, List.mem_map.2 ⟨dc, hdc, rfl⟩, hcand⟩
  · rintro ⟨n, hn, hcand⟩
    obtain ⟨dc, hdc, rfl⟩ := List.mem_map.1 hn
    exact List.ne_nil_of_mem (mem_candidates.2 ⟨hdc, hcand⟩)

namespace SameWorkload

variable {c c' : DemeterController}

theorem exists_static (h : SameWorkload c c') {ref : FnRef} {fn' : FunctionSpec}
    (hfn : getFn c'.jobs ref = some fn') :
    ∃ fn, getFn c.jobs ref = some fn ∧ fn'.functionId = fn.functionId ∧
      fn'.candidateDcs = fn.candidateDcs ∧ fn'.inputMb = fn.inputMb ∧
      fn'.predecessors = fn.predecessors ∧ fn'.metadata = fn.metadata := by
  have hst := h.functions ref
  rw [hfn, Option.map_some, eq_comm, Option.map_eq_some_iff] at hst
  obtain ⟨fn, hfn, hst⟩ := hst
  refine ⟨fn, hfn, ?_⟩
  simpa only [FunctionSpec.static, Prod.mk.injEq] using hst.symm

theorem refl (c : DemeterController) : SameWorkload c c := ⟨rfl, fun _ => rfl, rfl, rfl⟩

theorem symm (h : SameWorkload c c') : SameWorkload c' c :=
  ⟨h.keys.symm, fun ref => (h.functions ref).symm, h.names.symm, h.runtime.symm⟩

theorem trans {c'' : DemeterController} (h : SameWorkload c c') (h' : SameWorkload c' c'') :
    SameWorkload c c'' :=
  ⟨h'.keys.trans h.keys, fun ref => (h'.functions ref).trans (h.functions ref),
    h'.names.trans h.names, h'.runtime.trans h.runtime⟩

/-- The assumptions survive a change that keeps the workload. -/
theorem workload {allocations : List AllocationType} {memoryLossFactor : ℚ}
    (h : SameWorkload c c') (hw : Workload allocations memoryLossFactor c) :
    Workload allocations memoryLossFactor c' where
  wave := by rw [h.runtime]; exact hw.wave
  nonempty job hjob := by
    obtain ⟨jk, hjk⟩ := Dict.mem_values_iff.1 hjob
    obtain ⟨job₀, hjob₀⟩ := Dict.mem_keys_iff.1 (h.keys ▸ Dict.mem_keys_iff.2 ⟨job, hjk⟩)
    obtain ⟨fn, hfn⟩ := List.exists_mem_of_ne_nil _
      (hw.nonempty job₀ (Dict.mem_values_of_get? hjob₀))
    obtain ⟨k, hk⟩ := Dict.mem_values_iff.1 hfn
    have hfn₀ : getFn c.jobs (jk, k) = some fn := getFn_eq_some_iff.2 ⟨job₀, hjob₀, hk⟩
    obtain ⟨fn', hfn', -⟩ := h.symm.exists_static hfn₀
    obtain ⟨job', hjob', hk'⟩ := getFn_eq_some_iff.1 hfn'
    rw [hjk, Option.some.injEq] at hjob'
    exact List.ne_nil_of_mem (Dict.mem_values_of_get? (hjob' ▸ hk'))
  distinct hfn hfn' hid := by
    obtain ⟨g, hg, e, -⟩ := h.exists_static hfn
    obtain ⟨g', hg', e', -⟩ := h.exists_static hfn'
    exact hw.distinct hg hg' (e.symm.trans (hid.trans e'))
  acyclic job hjob k hk := by
    obtain ⟨jk, hjk⟩ := Dict.mem_values_iff.1 hjob
    obtain ⟨job₀, hjob₀⟩ := Dict.mem_keys_iff.1 (h.keys ▸ Dict.mem_keys_iff.2 ⟨job, hjk⟩)
    -- a cycle of the new job is one of the old job
    have sub : ∀ p q, Precedes job.functions p q → Precedes job₀.functions p q := by
      rintro p q ⟨fn', hfn', hp⟩
      have hfn'' : getFn c'.jobs (jk, q) = some fn' := getFn_eq_some_iff.2 ⟨job, hjk, hfn'⟩
      obtain ⟨fn, hfn, -, -, -, e, -⟩ := h.exists_static hfn''
      obtain ⟨job₁, hjob₁, hfn⟩ := getFn_eq_some_iff.1 hfn
      rw [hjob₀, Option.some.injEq] at hjob₁
      exact ⟨fn, hjob₁ ▸ hfn, e ▸ hp⟩
    exact hw.acyclic job₀ (Dict.mem_values_of_get? hjob₀) k (TransGen.mono sub k k hk)
  candidate hfn := by
    obtain ⟨fn, hfn, -, e, -⟩ := h.exists_static hfn
    rw [candidates_ne_nil_iff, h.names, e]
    exact candidates_ne_nil_iff.1 (hw.candidate hfn)
  allocation hfn := by
    obtain ⟨fn, hfn, -, -, e, -⟩ := h.exists_static hfn
    obtain ⟨a, ha, hv⟩ := hw.allocation hfn
    refine ⟨a, ha, ?_⟩
    rwa [validAllocation, e]

theorem release (c : DemeterController) (now : ℚ) : SameWorkload c (c.release now) where
  keys := Dict.keys_mapVals _ _
  functions ref := by
    cases hfn : getFn c.jobs ref with
    | none =>
      cases hfn' : getFn (c.release now).jobs ref with
      | none => rfl
      | some fn' =>
        obtain ⟨job, fn, hjob, hk, -⟩ := DemeterController.getFn_release hfn'
        rw [getFn_eq_some_iff.2 ⟨job, hjob, hk⟩] at hfn
        cases hfn
    | some fn =>
      obtain ⟨job, hjob, hk⟩ := getFn_eq_some_iff.1 hfn
      rw [DemeterController.getFn_release_of_eq_some hjob hk now, Option.map_some, Option.map_some]
      rcases releaseFunction_cases job.functions now fn with ⟨he, -⟩ | ⟨he, -⟩ <;> rw [he]
      rfl
  names := rfl
  runtime := rfl

/-- Changing one function and one data center keeps the workload when the changes do. -/
theorem update (c : DemeterController) (ref : FnRef) {f : FunctionSpec → FunctionSpec} (i : ℕ)
    {g : DataCenter → DataCenter} (hf : ∀ fn, (f fn).static = fn.static)
    (hg : ∀ dc, (g dc).name = dc.name) : SameWorkload c (c.update ref f i g) where
  keys := by rw [DemeterController.update, modifyFn, Dict.keys_modify]
  functions ref' := by
    rw [DemeterController.update, getFn_modifyFn]
    split_ifs
    · rw [Option.map_map]
      congr 1
      funext fn
      exact hf fn
    · rfl
  names := by
    rw [DemeterController.update]
    refine List.ext_getElem? fun j => ?_
    rw [List.getElem?_map, List.getElem?_map, List.getElem?_modify]
    cases c.config.dataCenters[j]? with
    | none => rfl
    | some dc => by_cases h : i = j <;> simp [h, hg]
  runtime := rfl

end SameWorkload

/-! ### Observing a pending function -/

theorem slice_ne_nil {α : Type*} {n : ℤ} {l : List α} (hn : 1 ≤ n) (hl : l ≠ []) :
    slice n l ≠ [] := by
  rw [slice, if_pos (by omega)]
  have : 0 < n.toNat := by omega
  simp [List.take_eq_nil_iff, hl]
  omega

theorem mem_of_mem_slice {α : Type*} {n : ℤ} {l : List α} {a : α} (h : a ∈ slice n l) : a ∈ l := by
  unfold slice at h
  split_ifs at h <;> exact List.mem_of_mem_take h

section Observe

variable {c : DemeterController}

/-- The list of a data center holds the pending functions that may run there. -/
theorem mem_pendingByDc {n : String} {fns : List FunctionSpec} {fn : FunctionSpec}
    (h : c.pendingByDc.get? n = some fns) (hfn : fn ∈ fns) :
    ∃ ref, getFn c.jobs ref = some fn ∧ fn.status = .pending := by
  rw [DemeterController.pendingByDc, Dict.get?_appendAll, Option.map_eq_some_iff] at h
  obtain ⟨l, hl, rfl⟩ := h
  obtain ⟨dc, -, he⟩ := List.mem_map.1 (Dict.mem_of_get?_ofList hl)
  cases he
  obtain ⟨e, he, rfl⟩ := List.mem_map.1 ((List.mem_append.1 hfn).resolve_left List.not_mem_nil)
  obtain ⟨he, -⟩ := List.mem_filter.1 he
  obtain ⟨g, hg, he⟩ := List.mem_flatMap.1 he
  obtain ⟨_, -, rfl⟩ := List.mem_map.1 he
  obtain ⟨hg, hs⟩ := List.mem_filter.1 hg
  obtain ⟨ref, href⟩ := mem_allFunctions_iff.1 hg
  exact ⟨ref, href, by simpa using hs⟩

theorem exists_pendingByDc {ref : FnRef} {fn : FunctionSpec} (hfn : getFn c.jobs ref = some fn)
    (hs : fn.status = .pending) (hc : candidates c.config.dataCenters fn ≠ []) :
    ∃ n fns, c.pendingByDc.get? n = some fns ∧ fn ∈ fns := by
  obtain ⟨n, hn, hcand⟩ := candidates_ne_nil_iff.1 hc
  have hkey : n ∈ (c.config.dataCenters.map fun dc =>
      (dc.name, ([] : List FunctionSpec))).map Prod.fst := by simpa using hn
  obtain ⟨l, hl⟩ := Dict.exists_get?_ofList hkey
  refine ⟨n, _, by rw [DemeterController.pendingByDc, Dict.get?_appendAll, hl, Option.map_some], ?_⟩
  refine List.mem_append_right _ (List.mem_map.2 ⟨(n, fn), List.mem_filter.2 ⟨?_, by simp⟩, rfl⟩)
  refine List.mem_flatMap.2
    ⟨fn, List.mem_filter.2 ⟨mem_allFunctions_iff.2 ⟨ref, hfn⟩, by simp [hs]⟩,
    List.mem_map.2 ⟨n, ?_, rfl⟩⟩
  split_ifs with he
  · exact Dict.mem_keys_iff.2 ⟨l, hl⟩
  · exact hcand.resolve_left he

/-- The policies go through pending functions of the registered jobs. -/
theorem mem_allPendingFunctions {now : ℚ} {fn : FunctionSpec}
    (h : fn ∈ (c.observation now).allPendingFunctions) :
    ∃ ref, getFn c.jobs ref = some fn ∧ fn.status = .pending := by
  obtain ⟨fns, hfns, hmem⟩ := List.mem_flatten.1 (mem_of_mem_dedupById h)
  obtain ⟨n, hn⟩ := Dict.mem_values_iff.1 hfns
  rw [DemeterController.observation, Dict.get?_mapVals, Option.map_eq_some_iff] at hn
  obtain ⟨l, hl, rfl⟩ := hn
  exact mem_pendingByDc hl (mem_of_mem_slice hmem)

/-- If some function is pending, a pending function is among those the policies go through. -/
theorem exists_mem_allPendingFunctions {allocations : List AllocationType} {memoryLossFactor : ℚ}
    (hw : Workload allocations memoryLossFactor c) {ref : FnRef} {fn : FunctionSpec}
    (hfn : getFn c.jobs ref = some fn) (hs : fn.status = .pending) (now : ℚ) :
    ∃ ref' fn', fn' ∈ (c.observation now).allPendingFunctions ∧
      getFn c.jobs ref' = some fn' ∧ fn'.status = .pending := by
  obtain ⟨n, fns, hget, hmem⟩ := exists_pendingByDc hfn hs (hw.candidate hfn)
  obtain ⟨g, hg⟩ := List.exists_mem_of_ne_nil _ (slice_ne_nil hw.wave (List.ne_nil_of_mem hmem))
  have hval : slice c.config.runtime.maxWaveSize fns ∈
      (c.observation now).pendingByDc.values := by
    refine Dict.mem_values_of_get? (k := n) ?_
    rw [DemeterController.observation, Dict.get?_mapVals, hget, Option.map_some]
  obtain ⟨g', hg', -⟩ := exists_mem_dedupById
    (List.mem_flatten.2 ⟨_, hval, hg⟩) List.not_mem_nil
  obtain ⟨ref', href', hs'⟩ := mem_allPendingFunctions hg'
  exact ⟨ref', g', hg', href', hs'⟩

end Observe

/-! ### The measure -/

/-- The number of functions that have not finished. -/
def DemeterController.unfinished (c : DemeterController) : ℕ :=
  (allFunctions c.jobs).countP fun fn => fn.status ≠ .finished

theorem unfinished_release (c : DemeterController) (now : ℚ) :
    (c.release now).unfinished = c.unfinished := by
  refine DemeterController.countP_allFunctions_release (fun funcs fn => ?_) c
  simp only [ne_eq, status_releaseFunction_eq_finished]

namespace DemeterEnv

open DemeterController

variable {σ : Type} {uniform : σ → ℚ × σ} {estimate : Estimator}

theorem unfinished_execute {st : StepState σ} {action : OrchestrationAction} {ref : FnRef}
    {fn : FunctionSpec} {i : ℕ} {dc : DataCenter}
    (hfn : getFn st.env.controller.jobs ref = some fn) (hs : fn.status = .pending) :
    (execute uniform estimate st action ref fn i dc).env.controller.unfinished <
      st.env.controller.unfinished := by
  have hcount := countP_allFunctions_modifyFn (fun fn => fn.status ≠ .finished)
    (executeFunction st.env.now ((estimate fn dc action.allocation
      st.env.controller.config.dataCenters st.env.now
      st.env.controller.config.model.timeoutSeconds).duration * (uniform st.env.random).1)
      action) hfn
  simp only [hs, executeFunction, ne_eq, reduceCtorEq, not_false_eq_true, decide_true, if_true,
    not_true_eq_false, decide_false, Bool.false_eq_true, if_false, add_zero] at hcount
  simp only [unfinished, execute, update, ne_eq]
  omega

theorem unfinished_stepAction_le (refs : Dict String FnRef) (dcs : Dict String ℕ)
    (st : StepState σ) (action : OrchestrationAction) :
    (stepAction uniform estimate refs dcs st action).env.controller.unfinished ≤
      st.env.controller.unfinished := by
  rcases stepAction_cases uniform estimate refs dcs st action with
    ⟨he, -⟩ | ⟨ref, fn, i, dc, hr, hs, he⟩ <;> rw [he]
  obtain ⟨-, hfn, -⟩ := resolve_eq_some_iff.1 hr
  exact (unfinished_execute hfn hs).le

theorem unfinished_foldl_le (refs : Dict String FnRef) (dcs : Dict String ℕ) (st : StepState σ)
    (actions : List OrchestrationAction) :
    (actions.foldl (stepAction uniform estimate refs dcs) st).env.controller.unfinished ≤
      st.env.controller.unfinished :=
  List.foldlRecOn (motive := fun st' : StepState σ =>
    st'.env.controller.unfinished ≤ st.env.controller.unfinished) actions _ le_rfl
    fun st' h action _ => (unfinished_stepAction_le refs dcs st' action).trans h

/-- Actions of which one refers to a pending function finish a function: up to the first effective
action nothing changes. -/
theorem unfinished_foldl_lt (refs : Dict String FnRef) (dcs : Dict String ℕ) (st : StepState σ)
    {actions : List OrchestrationAction} {action : OrchestrationAction} (ha : action ∈ actions)
    {ref : FnRef} {fn : FunctionSpec} {i : ℕ} {dc : DataCenter}
    (hr : resolve refs dcs st.env.controller action = some (ref, fn, i, dc))
    (hs : fn.status = .pending) :
    (actions.foldl (stepAction uniform estimate refs dcs) st).env.controller.unfinished <
      st.env.controller.unfinished := by
  induction actions with
  | nil => cases ha
  | cons a actions ih =>
    rw [List.foldl_cons]
    rcases stepAction_cases uniform estimate refs dcs st a with
      ⟨he, hskip⟩ | ⟨ref', fn', i', dc', hr', hs', he⟩ <;> rw [he]
    · rcases List.mem_cons.1 ha with rfl | ha
      · exact absurd hs (hskip ref fn i dc hr)
      · exact ih ha
    · obtain ⟨-, hfn', -⟩ := resolve_eq_some_iff.1 hr'
      exact (unfinished_foldl_le refs dcs _ actions).trans_lt (unfinished_execute hfn' hs')

theorem unfinished_step (env : DemeterEnv σ) (actions : List OrchestrationAction) :
    (env.step uniform estimate actions).env.controller.unfinished =
      (stepActions uniform estimate env actions).env.controller.unfinished :=
  (unfinished_release _ _).trans (unfinished_release _ _)

theorem unfinished_step_le (env : DemeterEnv σ) (actions : List OrchestrationAction) :
    (env.step uniform estimate actions).env.controller.unfinished ≤ env.controller.unfinished := by
  rw [unfinished_step]
  exact unfinished_foldl_le _ _ ⟨env, 0, env.now⟩ actions

theorem unfinished_of_done {env : DemeterEnv σ} (h : env.done = true) :
    env.controller.unfinished = 0 := by
  rw [unfinished, List.countP_eq_zero]
  intro fn hfn
  obtain ⟨job, hjob, hfn⟩ := List.mem_flatMap.1 hfn
  have hfin := List.all_eq_true.1 h job hjob
  rw [JobSpec.finished, Bool.and_eq_true, List.all_eq_true] at hfin
  simpa using hfin.2 fn hfn

/-- An action on an observed pending function is accepted by the next step. -/
theorem exists_resolve {allocations : List AllocationType} {memoryLossFactor : ℚ}
    {c : DemeterController} (hw : Workload allocations memoryLossFactor c) {ref : FnRef}
    {fn : FunctionSpec} (hfn : getFn c.jobs ref = some fn) {action : OrchestrationAction}
    (hacts : action.functionId = fn.functionId ∧
      ∃ dc ∈ c.config.dataCenters, dc.name = action.dcName) :
    ∃ i dc, resolve (fnById c.jobs) (dataCenterMap c.config.dataCenters) c action =
      some (ref, fn, i, dc) := by
  obtain ⟨hid, dc, hdc, hname⟩ := hacts
  obtain ⟨ref', href'⟩ : ∃ ref', (fnById c.jobs).get? action.functionId = some ref' := by
    obtain ⟨job, hjob, hk⟩ := getFn_eq_some_iff.1 hfn
    refine Dict.exists_get?_ofList (List.mem_map.2 ⟨(fn.functionId, ref), ?_, hid.symm⟩)
    exact List.mem_flatMap.2 ⟨(ref.1, job), Dict.mem_entries_iff.2 hjob,
      List.mem_map.2 ⟨(ref.2, fn), Dict.mem_entries_iff.2 hk, rfl⟩⟩
  obtain ⟨fn', hfn', hid'⟩ := getFn_of_fnById href'
  have hsame := hw.distinct hfn' hfn (hid'.trans hid)
  obtain ⟨i, hi⟩ := exists_dataCenterMap hdc
  obtain ⟨dc', hdc', -⟩ := name_of_dataCenterMap hi
  exact ⟨i, dc', resolve_eq_some_iff.2 ⟨hsame ▸ href', hfn, hname ▸ hi, hdc'⟩⟩

/-! ### The invariant of the loop -/

/-- The part of the invariant that survives the middle of a step. -/
structure MidStep (allocations : List AllocationType) (memoryLossFactor : ℚ)
    (c : DemeterController) : Prop where
  workload : Workload allocations memoryLossFactor c
  wired : ∀ job ∈ c.jobs.values, Wired job.functions
  counters : ∀ dc ∈ c.config.dataCenters, 0 ≤ dc.runningFunctions

/-- What holds between two iterations. -/
structure LoopReady (allocations : List AllocationType) (memoryLossFactor : ℚ)
    (env : DemeterEnv σ) : Prop extends
    MidStep allocations memoryLossFactor env.controller where
  settled : ∀ job ∈ env.controller.jobs.values, Settled job.functions

variable {allocations : List AllocationType} {memoryLossFactor : ℚ}

theorem sameWorkload_execute (st : StepState σ) (action : OrchestrationAction) (ref : FnRef)
    (fn : FunctionSpec) (i : ℕ) (dc : DataCenter) :
    SameWorkload st.env.controller
      (execute uniform estimate st action ref fn i dc).env.controller :=
  SameWorkload.update _ ref i (fun _ => rfl) fun _ => rfl

theorem sameWorkload_stepAction (refs : Dict String FnRef) (dcs : Dict String ℕ)
    (st : StepState σ) (action : OrchestrationAction) :
    SameWorkload st.env.controller
      (stepAction uniform estimate refs dcs st action).env.controller := by
  rcases stepAction_cases uniform estimate refs dcs st action with
    ⟨he, -⟩ | ⟨ref, fn, i, dc, -, -, he⟩ <;> rw [he]
  · exact SameWorkload.refl _
  · exact sameWorkload_execute st action ref fn i dc

theorem sameWorkload_step (env : DemeterEnv σ) (actions : List OrchestrationAction) :
    SameWorkload env.controller (env.step uniform estimate actions).env.controller := by
  have hloop : SameWorkload env.controller
      (stepActions uniform estimate env actions).env.controller :=
    List.foldlRecOn (motive := fun st : StepState σ =>
      SameWorkload env.controller st.env.controller) actions _ (SameWorkload.refl _)
    fun st h action _ => h.trans (sameWorkload_stepAction _ _ st action)
  exact (hloop.trans (SameWorkload.release _ _)).trans (SameWorkload.release _ _)

theorem MidStep.stepAction {refs : Dict String FnRef} {dcs : Dict String ℕ} {st : StepState σ}
    (h : MidStep allocations memoryLossFactor st.env.controller) (action : OrchestrationAction) :
    MidStep allocations memoryLossFactor
      (stepAction uniform estimate refs dcs st action).env.controller := by
  have same : SameWorkload st.env.controller
      (DemeterEnv.stepAction uniform estimate refs dcs st action).env.controller :=
    sameWorkload_stepAction refs dcs st action
  rcases stepAction_cases uniform estimate refs dcs st action with
    ⟨he, -⟩ | ⟨ref, fn, i, dc, hr, -, he⟩ <;> rw [he] at same ⊢
  · exact h
  obtain ⟨-, hfn, -⟩ := resolve_eq_some_iff.1 hr
  obtain ⟨job, hjob, hk⟩ := getFn_eq_some_iff.1 hfn
  refine ⟨same.workload h.workload, ?_, ?_⟩
  · intro job' hjob'
    rcases mem_values_modifyFn hjob' with hjob' | ⟨job₀, hjob₀, rfl⟩
    · exact h.wired job' hjob'
    · rw [hjob, Option.some.injEq] at hjob₀
      subst hjob₀
      exact (h.wired job (Dict.mem_values_of_get? hjob)).execute hk _ _ action
  · intro dc' hdc'
    obtain ⟨j, hj⟩ := List.mem_iff_getElem?.1 hdc'
    simp only [execute, update, List.getElem?_modify, Option.map_eq_map,
      Option.map_eq_some_iff] at hj
    obtain ⟨dc₀, hdc₀, rfl⟩ := hj
    split_ifs
    · exact le_max_left _ _
    · exact h.counters dc₀ (List.mem_of_getElem? hdc₀)

theorem MidStep.release {c : DemeterController} (h : MidStep allocations memoryLossFactor c)
    (now : ℚ) : MidStep allocations memoryLossFactor (c.release now) := by
  refine ⟨(SameWorkload.release c now).workload h.workload, fun job hjob => ?_, h.counters⟩
  obtain ⟨k, hk⟩ := Dict.mem_values_iff.1 hjob
  rw [DemeterController.release, Dict.get?_mapVals, Option.map_eq_some_iff] at hk
  obtain ⟨job₀, hjob₀, rfl⟩ := hk
  exact (h.wired job₀ (Dict.mem_values_of_get? hjob₀)).release now

theorem loopReady_of_release {env : DemeterEnv σ} {c : DemeterController} {now : ℚ}
    (h : MidStep allocations memoryLossFactor c) (he : env.controller = c.release now) :
    LoopReady allocations memoryLossFactor env := by
  have hr := h.release now
  rw [← he] at hr
  refine ⟨hr, fun job hjob => ?_⟩
  rw [he] at hjob
  obtain ⟨k, hk⟩ := Dict.mem_values_iff.1 hjob
  rw [DemeterController.release, Dict.get?_mapVals, Option.map_eq_some_iff] at hk
  obtain ⟨job₀, -, rfl⟩ := hk
  exact settled_release job₀ now

theorem LoopReady.step {env : DemeterEnv σ} (h : LoopReady allocations memoryLossFactor env)
    (actions : List OrchestrationAction) :
    LoopReady allocations memoryLossFactor (env.step uniform estimate actions).env := by
  have mid : MidStep allocations memoryLossFactor
      (stepActions uniform estimate env actions).env.controller :=
    List.foldlRecOn (motive := fun st : StepState σ =>
      MidStep allocations memoryLossFactor st.env.controller) actions _ h.toMidStep
    fun st hst action _ => hst.stepAction action
  exact loopReady_of_release (mid.release _) rfl

/-- A state that is not done has an unfinished function. -/
theorem LoopReady.exists_unfinished {env : DemeterEnv σ}
    (h : LoopReady allocations memoryLossFactor env) (hd : env.done = false) :
    ∃ job ∈ env.controller.jobs.values, ∃ k fn, job.functions.get? k = some fn ∧
      fn.status ≠ .finished := by
  rw [done, List.all_eq_false] at hd
  obtain ⟨job, hjob, hf⟩ := hd
  have hne := h.workload.nonempty job hjob
  have hall : ¬ ∀ fn ∈ job.functions.values, fn.status = .finished := by
    intro hall
    refine hf ?_
    simp only [JobSpec.finished, Bool.and_eq_true, Bool.not_eq_true', List.isEmpty_eq_false_iff,
      List.all_eq_true, decide_eq_true_eq]
    exact ⟨hne, hall⟩
  push Not at hall
  obtain ⟨fn, hfn, hs⟩ := hall
  obtain ⟨k, hk⟩ := Dict.mem_values_iff.1 hfn
  exact ⟨job, hjob, k, fn, hk, hs⟩

theorem LoopReady.done_of_unfinished_eq_zero {env : DemeterEnv σ}
    (h : LoopReady allocations memoryLossFactor env) (h0 : env.controller.unfinished = 0) :
    env.done = true := by
  by_contra hd
  obtain ⟨job, hjob, k, fn, hk, hs⟩ := h.exists_unfinished (by simpa using hd)
  rw [unfinished, List.countP_eq_zero] at h0
  obtain ⟨jk, hjk⟩ := Dict.mem_values_iff.1 hjob
  have hmem : fn ∈ allFunctions env.controller.jobs :=
    mem_allFunctions_iff.2 ⟨(jk, k), getFn_eq_some_iff.2 ⟨job, hjk, hk⟩⟩
  exact h0 fn hmem (by simpa using hs)

/-- A step on the plan of a live policy for the current observation finishes a function. -/
theorem LoopReady.unfinished_step_lt {ρ : Type} {env : DemeterEnv σ}
    (h : LoopReady allocations memoryLossFactor env) {policy : Policy ρ}
    (hp : Live policy allocations memoryLossFactor) (r : ρ) (hd : env.done = false) :
    (env.step uniform estimate
        (policy r (env.controller.observation env.now)).1).env.controller.unfinished <
      env.controller.unfinished := by
  obtain ⟨job, hjob, k, fn, hk, hs⟩ := h.exists_unfinished hd
  obtain ⟨k, fn, hk, hs⟩ := exists_pending (h.wired job hjob) (h.settled job hjob)
    (h.workload.acyclic job hjob) hk hs
  obtain ⟨jk, hjk⟩ := Dict.mem_values_iff.1 hjob
  have hfn : getFn env.controller.jobs (jk, k) = some fn := getFn_eq_some_iff.2 ⟨job, hjk, hk⟩
  obtain ⟨ref, fn, hmem, hfn, hs⟩ := exists_mem_allPendingFunctions h.workload hfn hs env.now
  obtain ⟨action, haction, hacts⟩ := hp r (env.controller.observation env.now) fn hmem
    (h.workload.candidate hfn) (h.workload.allocation hfn)
  obtain ⟨i, dc, hr⟩ := exists_resolve h.workload hfn hacts
  rw [unfinished_step]
  exact unfinished_foldl_lt _ _ ⟨env, 0, env.now⟩ haction hr hs

/-! ### The loop -/

namespace Episode

variable {ρ : Type}

/-- The invariant of the loop. -/
structure Ready (allocations : List AllocationType) (memoryLossFactor : ℚ)
    (ep : Episode σ ρ) : Prop where
  env : LoopReady allocations memoryLossFactor ep.env
  obs : ep.obs = ep.env.controller.observation ep.env.now

theorem Ready.iterate {ep : Episode σ ρ} (h : Ready allocations memoryLossFactor ep)
    (policy : Policy ρ) :
    Ready allocations memoryLossFactor (iterate uniform estimate policy ep) :=
  ⟨h.env.step _, rfl⟩

theorem ready_iterate (uniform : σ → ℚ × σ) (estimate : Estimator) {ep : Episode σ ρ}
    (h : Ready allocations memoryLossFactor ep) (policy : Policy ρ) (m : ℕ) :
    Ready allocations memoryLossFactor ((iterate uniform estimate policy)^[m] ep) := by
  induction m with
  | zero => exact h
  | succ m ih =>
    rw [Function.iterate_succ_apply']
    exact ih.iterate policy

theorem Ready.unfinished_iterate_lt {ep : Episode σ ρ} (h : Ready allocations memoryLossFactor ep)
    {policy : Policy ρ} (hp : Live policy allocations memoryLossFactor)
    (hd : ep.env.done = false) :
    (Episode.iterate uniform estimate policy ep).env.controller.unfinished <
      ep.env.controller.unfinished := by
  rw [Episode.iterate, h.obs]
  exact h.env.unfinished_step_lt hp _ hd

/-- Enough fuel, once the flag agrees with the state. -/
theorem Ready.done_loop {policy : Policy ρ} (hp : Live policy allocations memoryLossFactor)
    {fuel : ℕ} {ep : Episode σ ρ} (h : Ready allocations memoryLossFactor ep)
    (hd : ep.done = ep.env.done) (hf : ep.env.controller.unfinished ≤ fuel) :
    (loop uniform estimate policy fuel ep).done = true := by
  induction fuel generalizing ep with
  | zero => exact hd.trans (h.env.done_of_unfinished_eq_zero (Nat.le_zero.1 hf))
  | succ fuel ih =>
    rw [loop]
    cases hdone : ep.done with
    | true => simpa using hdone
    | false =>
      have hlt : (Episode.iterate uniform estimate policy ep).env.controller.unfinished <
          ep.env.controller.unfinished := h.unfinished_iterate_lt hp (hd.symm.trans hdone)
      exact ih (h.iterate policy) rfl (by omega)

theorem midStep_registerAll {config : DemeterConfig} {profiles : List RawProfile}
    (hw : Workload allocations memoryLossFactor (registerAll config profiles))
    (hc : ∀ dc ∈ config.dataCenters, 0 ≤ dc.runningFunctions) :
    MidStep allocations memoryLossFactor (registerAll config profiles) := by
  refine ⟨hw, fun job hjob => ?_, by rwa [config_registerAll]⟩
  obtain ⟨raw, -, rfl⟩ := mem_values_registerAll hjob
  exact (expanded_buildJob raw).wired

theorem ready_start {config : DemeterConfig} {profiles : List RawProfile}
    (hw : Workload allocations memoryLossFactor (registerAll config profiles))
    (hc : ∀ dc ∈ config.dataCenters, 0 ≤ dc.runningFunctions) (random : σ) (r : ρ) :
    Ready allocations memoryLossFactor (start config profiles random r) :=
  ⟨loopReady_of_release (midStep_registerAll hw hc) rfl, rfl⟩

/-- With a live policy the loop is done after at most as many iterations as there are functions, or
one if there are none. -/
theorem done_loop_start {policy : Policy ρ} (hp : Live policy allocations memoryLossFactor)
    {config : DemeterConfig} {profiles : List RawProfile} {random : σ} {r : ρ}
    (h : Ready allocations memoryLossFactor (start config profiles random r)) :
    (loop uniform estimate policy
      (max 1 (allFunctions (registerAll config profiles).jobs).length)
      (start config profiles random r)).done = true := by
  -- the first iteration runs whether or not there is something to do
  have hstart : (start config profiles random r).env.controller.unfinished ≤
      (allFunctions (registerAll config profiles).jobs).length :=
    (unfinished_release _ 0).trans_le List.countP_le_length
  obtain ⟨fuel, hfuel⟩ : ∃ fuel, max 1 (allFunctions (registerAll config profiles).jobs).length =
      fuel + 1 := ⟨_, (Nat.succ_pred_eq_of_pos (lt_max_of_lt_left one_pos)).symm⟩
  rw [hfuel, loop, start, if_neg Bool.false_ne_true]
  refine (h.iterate policy).done_loop hp rfl ?_
  cases hd : (start config profiles random r).env.done with
  | false => exact Nat.le_of_lt_succ ((h.unfinished_iterate_lt hp hd).trans_le (by omega))
  | true => exact (unfinished_step_le _ _).trans (by rw [unfinished_of_done hd]; omega)

end Episode

end DemeterEnv

end Demeter.Marl
