import Demeter.Lib.Runs
import Demeter.Marl.Simulator

/-!
# The lifecycle of a function in the controller

`apply_actions` sets a function to running whatever its status was, while the simulator's `step`
executes pending functions only.  Applying a plan twice therefore places a function twice and
counts it twice.

* `Operation`, `operate`: what the users of a controller call;
* `Traced`: a controller together with the log of all placements made so far;
* `Lifecycle`: statuses move forward, functions start running from pending, each is placed at most
  once, and the running counters agree with the statuses;
* `lifecycle_iff`: this holds of a run exactly when every placement found a pending function.
-/

namespace Demeter.Marl.DemeterController

/-- What the users of a controller call.  `now` is the time passed, or the clock when none is;
`plan` observes first when it gets no observation. -/
inductive Operation
  | registerJob (raw : RawProfile)
  | observe (now : ℚ)
  | plan (observation : Option Observation) (now : ℚ)
  | applyActions (actions : List OrchestrationAction) (now : ℚ)

/-- One operation of the controller. -/
def operate (c : DemeterController) : Operation → DemeterController
  | .registerJob raw => c.registerJob raw
  | .observe now => (c.observe now).1
  | .plan (some _) _ => c
  | .plan none now => (c.observe now).1
  | .applyActions actions now => c.applyActions actions now

/-- A registered job has an id of its own. -/
def FreshJob (c : DemeterController) : Operation → Prop
  | .registerJob raw => raw.jobId ∉ c.jobs.keys
  | _ => True

instance (c : DemeterController) : DecidablePred (FreshJob c)
  | .registerJob raw => inferInstanceAs (Decidable (raw.jobId ∉ c.jobs.keys))
  | .observe _ | .plan _ _ | .applyActions _ _ => .isTrue trivial

/-! ### Placements -/

/-- One placement: the place of the function and its status before. -/
structure Placement where
  ref : FnRef
  before : FunctionStatus
  deriving DecidableEq

/-- A controller with the log of its placements. -/
structure Traced where
  controller : DemeterController
  log : List Placement

namespace Traced

/-- An action, with the status that the function had before it. -/
def apply (refs : Dict String FnRef) (dcs : Dict String ℕ) (now : ℚ) (t : Traced)
    (action : OrchestrationAction) : Traced where
  controller := applyAction refs dcs now t.controller action
  log := t.log ++ ((resolve refs dcs t.controller action).map fun r => ⟨r.1, r.2.1.status⟩).toList

/-- An operation, with the log of its actions. -/
def operate (t : Traced) : Operation → Traced
  | .applyActions actions now =>
      actions.foldl (apply (fnById t.controller.jobs)
        (dataCenterMap t.controller.config.dataCenters) now) t
  | op => ⟨t.controller.operate op, t.log⟩

theorem controller_foldl_apply (refs : Dict String FnRef) (dcs : Dict String ℕ) (now : ℚ)
    (t : Traced) (actions : List OrchestrationAction) :
    (actions.foldl (apply refs dcs now) t).controller =
      actions.foldl (applyAction refs dcs now) t.controller := by
  induction actions generalizing t with
  | nil => rfl
  | cons action actions ih => exact ih _

/-- The log is an observer: it does not change what the controller does. -/
theorem controller_operate (t : Traced) (op : Operation) :
    (t.operate op).controller = t.controller.operate op := by
  cases op with
  | applyActions actions now => exact controller_foldl_apply _ _ now t actions
  | _ => rfl

theorem apply_cases (refs : Dict String FnRef) (dcs : Dict String ℕ) (now : ℚ) (t : Traced)
    (action : OrchestrationAction) :
    (t.apply refs dcs now action = t ∧ resolve refs dcs t.controller action = none) ∨
      ∃ ref fn i dc, resolve refs dcs t.controller action = some (ref, fn, i, dc) ∧
        t.apply refs dcs now action =
          ⟨t.controller.update ref (placeFunction now action) i takeSlot,
            t.log ++ [⟨ref, fn.status⟩]⟩ := by
  rcases applyAction_cases refs dcs now t.controller action with
    ⟨he, hr⟩ | ⟨ref, fn, i, dc, hr, he⟩
  · refine Or.inl ⟨?_, hr⟩
    simp [apply, he, hr]
  · refine Or.inr ⟨ref, fn, i, dc, hr, ?_⟩
    simp [apply, he, hr]

end Traced

/-- The controller and its log after a list of operations. -/
def traced (config : DemeterConfig) (ops : List Operation) : Traced :=
  ops.foldl Traced.operate ⟨.init config, []⟩

/-! ### The lifecycle -/

/-- Functions stay, and their statuses only move forward. -/
def Forward (c c' : DemeterController) : Prop :=
  ∀ ref fn, getFn c.jobs ref = some fn →
    ∃ fn', getFn c'.jobs ref = some fn' ∧ fn.status.rank ≤ fn'.status.rank

/-- The function runs at the data center at position `i`. -/
def isRunningAt (dcs : Dict String ℕ) (i : ℕ) (fn : FunctionSpec) : Bool :=
  fn.status = .running ∧ fn.placement.bind dcs.get? = some i

/-- The data centers are those of the configuration, and each counts as running its initial value
and the functions running there. -/
structure Counted (config : DemeterConfig) (c : DemeterController) : Prop where
  names : c.config.dataCenters.map (·.name) = config.dataCenters.map (·.name)
  running : ∀ {i dc dc₀}, c.config.dataCenters[i]? = some dc →
    config.dataCenters[i]? = some dc₀ → dc.runningFunctions = dc₀.runningFunctions +
      ((allFunctions c.jobs).countP (isRunningAt (dataCenterMap config.dataCenters) i) : ℤ)

/-- The lifecycle of the functions in a run. -/
structure Lifecycle (config : DemeterConfig) (ops : List Operation) : Prop where
  forward : ∀ pre post, ops = pre ++ post →
    Forward (traced config pre).controller (traced config ops).controller
  fromPending : ∀ p ∈ (traced config ops).log, p.before ≠ .running → p.before = .pending
  once : ((traced config ops).log.map (·.ref)).Nodup
  counted : Counted config (traced config ops).controller

/-- If the action places a function, that function is pending. -/
def PendingAction (refs : Dict String FnRef) (dcs : Dict String ℕ) (c : DemeterController)
    (action : OrchestrationAction) : Prop :=
  ∀ ref fn i dc, resolve refs dcs c action = some (ref, fn, i, dc) → fn.status = .pending

instance (refs : Dict String FnRef) (dcs : Dict String ℕ) (c : DemeterController)
    (action : OrchestrationAction) : Decidable (PendingAction refs dcs c action) :=
  decidable_of_iff ((resolve refs dcs c action).all fun r => r.2.1.status = .pending) <| by
    unfold PendingAction
    rcases resolve refs dcs c action with _ | ⟨ref, fn, i, dc⟩
    · simp
    · simp only [Option.all_some, decide_eq_true_eq, Option.some.injEq, Prod.mk.injEq]
      exact ⟨fun h _ _ _ _ he => he.2.1 ▸ h, fun h => h ref fn i dc ⟨rfl, rfl, rfl, rfl⟩⟩

/-- Every placement of the operation finds a pending function. -/
def PendingOnly (c : DemeterController) : Operation → Prop
  | .applyActions actions now =>
      Runs.Along (applyAction (fnById c.jobs) (dataCenterMap c.config.dataCenters) now)
        (PendingAction (fnById c.jobs) (dataCenterMap c.config.dataCenters)) c actions
  | _ => True

instance (c : DemeterController) : DecidablePred (PendingOnly c)
  | .applyActions actions now =>
      inferInstanceAs (Decidable (Runs.Along (applyAction (fnById c.jobs)
        (dataCenterMap c.config.dataCenters) now) (PendingAction (fnById c.jobs)
        (dataCenterMap c.config.dataCenters)) c actions))
  | .observe _ | .plan _ _ | .registerJob _ => .isTrue trivial

/-! ### The log -/

/-- The running functions are those of the log. -/
structure LogInv (t : Traced) : Prop where
  running_iff : ∀ {ref fn}, getFn t.controller.jobs ref = some fn →
    (fn.status = .running ↔ ref ∈ t.log.map (·.ref))
  known : ∀ ref ∈ t.log.map (·.ref), ref.1 ∈ t.controller.jobs.keys

/-- Nothing was placed from another status than pending, or twice. -/
def CleanLog (t : Traced) : Prop :=
  (∀ p ∈ t.log, p.before ≠ .running → p.before = .pending) ∧ (t.log.map (·.ref)).Nodup

section Log

variable (refs : Dict String FnRef) (dcs : Dict String ℕ) (now : ℚ) {t : Traced}

theorem mem_keys_of_getFn {jobs : Dict String JobSpec} {ref : FnRef} {fn : FunctionSpec}
    (h : getFn jobs ref = some fn) : ref.1 ∈ jobs.keys := by
  obtain ⟨job, hjob, -⟩ := getFn_eq_some_iff.1 h
  exact Dict.mem_keys_iff.2 ⟨job, hjob⟩

theorem LogInv.apply (h : LogInv t) (action : OrchestrationAction) :
    LogInv (t.apply refs dcs now action) := by
  rcases t.apply_cases refs dcs now action with ⟨he, -⟩ | ⟨ref, fn, i, dc, hr, he⟩ <;> rw [he]
  · exact h
  obtain ⟨-, hfn, -⟩ := resolve_eq_some_iff.1 hr
  constructor
  · intro ref' fn' hfn'
    simp only [update, getFn_modifyFn] at hfn'
    simp only [List.map_append, List.map_cons, List.map_nil, List.mem_append, List.mem_singleton]
    split_ifs at hfn' with hne
    · rw [hne, hfn, Option.map_some, Option.some.injEq] at hfn'
      rw [← hfn']
      exact iff_of_true rfl (Or.inr hne)
    · rw [h.running_iff hfn']
      exact ⟨Or.inl, fun h => h.resolve_right hne⟩
  · intro ref' hmem
    simp only [update, modifyFn, Dict.keys_modify]
    simp only [List.map_append, List.map_cons, List.map_nil, List.mem_append,
      List.mem_singleton] at hmem
    rcases hmem with hmem | rfl
    · exact h.known _ hmem
    · exact mem_keys_of_getFn hfn

/-- A placement keeps the log clean exactly when it finds a pending function: a running function
is in the log already. -/
theorem LogInv.cleanLog_apply_iff (h : LogInv t) (hc : CleanLog t) (action : OrchestrationAction) :
    CleanLog (t.apply refs dcs now action) ↔ PendingAction refs dcs t.controller action := by
  rcases t.apply_cases refs dcs now action with ⟨he, hr⟩ | ⟨ref, fn, i, dc, hr, he⟩ <;> rw [he]
  · exact iff_of_true hc fun ref fn i dc hr' => by rw [hr] at hr'; cases hr'
  obtain ⟨-, hfn, -⟩ := resolve_eq_some_iff.1 hr
  have hmem := h.running_iff hfn
  constructor
  · rintro ⟨hb, hn⟩ ref' fn' i' dc' hr'
    rw [hr] at hr'
    cases hr'
    rw [List.map_append, List.nodup_append] at hn
    refine hb ⟨ref, fn.status⟩ (by simp) fun hs => ?_
    exact hn.2.2 ref (hmem.1 hs) ref (by simp) rfl
  · intro hp
    have hs := hp ref fn i dc hr
    refine ⟨fun p hp' hne => ?_, ?_⟩
    · rcases List.mem_append.1 hp' with hp' | hp'
      · exact hc.1 p hp' hne
      · rw [List.mem_singleton.1 hp', hs]
    · rw [List.map_append, List.nodup_append]
      refine ⟨hc.2, by simp, ?_⟩
      rintro a ha b hb rfl
      rw [List.map_cons, List.map_nil, List.mem_singleton] at hb
      rw [hb, ← hmem, hs] at ha
      cases ha

theorem cleanLog_of_apply (action : OrchestrationAction)
    (h : CleanLog (t.apply refs dcs now action)) : CleanLog t := by
  refine ⟨fun p hp => h.1 p (List.mem_append_left _ hp), ?_⟩
  have hn := h.2
  rw [Traced.apply, List.map_append, List.nodup_append] at hn
  exact hn.1

theorem LogInv.release (h : LogInv t) (now : ℚ) :
    LogInv ⟨t.controller.release now, t.log⟩ := by
  constructor
  · intro ref fn hfn
    obtain ⟨job, fn₀, hjob, hfn₀, rfl⟩ := getFn_release hfn
    rw [← h.running_iff (getFn_eq_some_iff.2 ⟨job, hjob, hfn₀⟩)]
    rcases releaseFunction_cases job.functions now fn₀ with ⟨he, -⟩ | ⟨he, hw, -⟩ <;> rw [he]
    simp [hw]
  · intro ref hmem
    rw [DemeterController.release, Dict.keys_mapVals]
    exact h.known ref hmem

/-- The functions of a fresh job are neither running nor in the log. -/
theorem LogInv.registerJob (h : LogInv t) {raw : RawProfile}
    (hfresh : raw.jobId ∉ t.controller.jobs.keys) :
    LogInv ⟨t.controller.registerJob raw, t.log⟩ := by
  constructor
  · intro ref fn hfn
    rw [getFn_registerJob] at hfn
    split_ifs at hfn with hj
    · refine iff_of_false ?_ fun hmem => hfresh (hj ▸ h.known ref hmem)
      rw [(expanded_buildJob raw).status hfn]
      split_ifs <;> simp
    · exact h.running_iff hfn
  · intro ref hmem
    exact Dict.mem_keys_set.2 (Or.inr (h.known ref hmem))

end Log

theorem LogInv.operate {t : Traced} (op : Operation) (hfresh : FreshJob t.controller op)
    (h : LogInv t) : LogInv (t.operate op) := by
  cases op with
  | registerJob raw => exact h.registerJob hfresh
  | observe now => exact h.release now
  | plan observation now =>
    cases observation with
    | none => exact h.release now
    | some obs => exact h
  | applyActions actions now =>
    exact List.foldlRecOn (motive := LogInv) actions _ h
      fun t ht action _ => ht.apply _ _ now action

theorem cleanLog_of_operate {t : Traced} (op : Operation) (h : CleanLog (t.operate op)) :
    CleanLog t := by
  cases op with
  | applyActions actions now =>
    exact Runs.foldl_lost (I := fun _ : Traced => True) (P := CleanLog) (fun _ _ _ _ => trivial)
      (fun t a _ => cleanLog_of_apply _ _ now a) (Runs.along_true _ actions) trivial h
  | _ => exact h

theorem LogInv.cleanLog_operate_iff {t : Traced} (op : Operation) (h : LogInv t)
    (hc : CleanLog t) : CleanLog (t.operate op) ↔ PendingOnly t.controller op := by
  cases op with
  | applyActions actions now =>
    rw [PendingOnly, ← Runs.along_map (φ := Traced.controller) (s := t) fun t a =>
      (rfl : (t.apply _ _ now a).controller = _)]
    exact Runs.foldl_iff_along (I := LogInv) (P := CleanLog)
      (fun t a _ ht => LogInv.apply _ _ now ht a)
      (fun t a ht hc => ht.cleanLog_apply_iff _ _ now hc a)
      (fun t a _ => cleanLog_of_apply _ _ now a) (Runs.along_true t actions) h hc
  | _ => exact iff_of_true hc trivial

/-- The log of a run is clean exactly when every placement found a pending function. -/
theorem cleanLog_traced_iff {config : DemeterConfig} {ops : List Operation}
    (hfresh : Runs.Along operate FreshJob (.init config) ops) :
    CleanLog (traced config ops) ↔ Runs.Along operate PendingOnly (.init config) ops := by
  have hφ : ∀ (t : Traced) (op : Operation), (t.operate op).controller = t.controller.operate op :=
    Traced.controller_operate
  rw [← Runs.along_map (φ := Traced.controller) (s := ⟨.init config, []⟩) hφ] at hfresh ⊢
  refine Runs.foldl_iff_along (I := LogInv) (P := CleanLog) (fun t op hf h => h.operate op hf)
    (fun t op h hc => h.cleanLog_operate_iff op hc) (fun t op _ => cleanLog_of_operate op) hfresh
    ⟨fun hfn => ?_, by simp⟩ ⟨by simp, by simp⟩
  simp [getFn, init] at hfn

/-! ### Statuses and counters of a run without misplaced functions -/

section Pending

variable {c : DemeterController}

theorem Forward.refl (c : DemeterController) : Forward c c := fun _ fn hfn => ⟨fn, hfn, le_rfl⟩

theorem Forward.trans {c₁ c₂ c₃ : DemeterController} (h : Forward c₁ c₂) (h' : Forward c₂ c₃) :
    Forward c₁ c₃ := by
  intro ref fn hfn
  obtain ⟨fn₂, hfn₂, hle⟩ := h ref fn hfn
  obtain ⟨fn₃, hfn₃, hle'⟩ := h' ref fn₂ hfn₂
  exact ⟨fn₃, hfn₃, hle.trans hle'⟩

theorem forward_applyAction {refs : Dict String FnRef} {dcs : Dict String ℕ}
    {action : OrchestrationAction} (hp : PendingAction refs dcs c action) (now : ℚ) :
    Forward c (applyAction refs dcs now c action) := by
  rcases applyAction_cases refs dcs now c action with ⟨he, -⟩ | ⟨ref, fn, i, dc, hr, he⟩ <;> rw [he]
  · exact .refl c
  obtain ⟨-, hfn, -⟩ := resolve_eq_some_iff.1 hr
  intro ref' fn' hfn'
  simp only [update, getFn_modifyFn]
  split_ifs with hne
  · rw [hne, hfn, Option.some.injEq] at hfn'
    rw [hne, hfn, Option.map_some]
    refine ⟨_, rfl, ?_⟩
    rw [← hfn', hp ref fn i dc hr]
    exact Nat.le_succ 1
  · exact ⟨fn', hfn', le_rfl⟩

theorem forward_release (c : DemeterController) (now : ℚ) : Forward c (c.release now) := by
  intro ref fn hfn
  obtain ⟨job, hjob, hfn⟩ := getFn_eq_some_iff.1 hfn
  refine ⟨_, getFn_release_of_eq_some hjob hfn now, ?_⟩
  rcases releaseFunction_cases job.functions now fn with ⟨he, -⟩ | ⟨he, hw, -⟩ <;> rw [he]
  rw [hw]
  exact Nat.zero_le _

theorem forward_operate (op : Operation) (h : FreshJob c op ∧ PendingOnly c op) :
    Forward c (c.operate op) := by
  cases op with
  | registerJob raw =>
    intro ref fn hfn
    refine ⟨fn, ?_, le_rfl⟩
    have hne : ref.1 ≠ raw.jobId := fun hj => h.1 (hj ▸ mem_keys_of_getFn hfn)
    rwa [operate, getFn_registerJob, if_neg hne]
  | observe now => exact forward_release c now
  | plan observation now =>
    cases observation with
    | none => exact forward_release c now
    | some obs => exact .refl c
  | applyActions actions now =>
    exact Runs.foldl_invariant (P := Forward c)
      (fun c' a hp hc' => hc'.trans (forward_applyAction hp now)) h.2 (.refl c)

theorem map_name_modify_takeSlot (dcs : List DataCenter) (i : ℕ) :
    (dcs.modify i takeSlot).map (·.name) = dcs.map (·.name) := by
  refine List.ext_getElem? fun j => ?_
  rw [List.getElem?_map, List.getElem?_map, List.getElem?_modify]
  cases dcs[j]? with
  | none => rfl
  | some dc => by_cases h : i = j <;> simp [h, takeSlot]

variable {config : DemeterConfig}

/-- Placing a pending function moves one function and one unit of the counter. -/
theorem Counted.applyAction (h : Counted config c) {refs : Dict String FnRef}
    {action : OrchestrationAction}
    (hp : PendingAction refs (dataCenterMap config.dataCenters) c action) (now : ℚ) :
    Counted config
      (applyAction refs (dataCenterMap config.dataCenters) now c action) := by
  rcases applyAction_cases refs (dataCenterMap config.dataCenters) now c action with
    ⟨he, -⟩ | ⟨ref, fn, i, dc, hr, he⟩ <;> rw [he]
  · exact h
  obtain ⟨-, hfn, hi, -⟩ := resolve_eq_some_iff.1 hr
  refine ⟨(map_name_modify_takeSlot _ i).trans h.names, fun {j dc dc₀} hdc hdc₀ => ?_⟩
  have hcount := countP_allFunctions_modifyFn
    (isRunningAt (dataCenterMap config.dataCenters) j) (placeFunction now action) hfn
  have hbefore : isRunningAt (dataCenterMap config.dataCenters) j fn = false := by
    simp [isRunningAt, hp ref fn i _ hr]
  have hafter : isRunningAt (dataCenterMap config.dataCenters) j (placeFunction now action fn) =
      decide (i = j) := by
    simp [isRunningAt, placeFunction, hi]
  rw [hbefore, hafter] at hcount
  simp only [update, List.getElem?_modify, Option.map_eq_map, Option.map_eq_some_iff] at hdc
  obtain ⟨dc', hdc', rfl⟩ := hdc
  have hrun := h.running hdc' hdc₀
  simp only [update]
  by_cases hij : i = j
  · simp only [hij, decide_true, if_true, Bool.false_eq_true, if_false] at hcount ⊢
    simp only [takeSlot]
    omega
  · simp only [hij, decide_false, if_false, Bool.false_eq_true] at hcount ⊢
    omega

theorem Counted.release (h : Counted config c) (now : ℚ) : Counted config (c.release now) := by
  refine ⟨h.names, fun {i dc dc₀} hdc hdc₀ => ?_⟩
  rw [countP_allFunctions_release (fun funcs fn => ?_)]
  · exact h.running hdc hdc₀
  · rcases releaseFunction_cases funcs now fn with ⟨he, -⟩ | ⟨he, hw, -⟩ <;> rw [he]
    simp [isRunningAt, hw]

theorem Counted.registerJob (h : Counted config c) {raw : RawProfile}
    (hfresh : raw.jobId ∉ c.jobs.keys) : Counted config (c.registerJob raw) := by
  refine ⟨h.names, fun {i dc dc₀} hdc hdc₀ => ?_⟩
  have hnew : (buildJob raw).functions.values.countP
      (isRunningAt (dataCenterMap config.dataCenters) i) = 0 := by
    rw [List.countP_eq_zero]
    intro fn hfn
    obtain ⟨k, hk⟩ := Dict.mem_values_iff.1 hfn
    have hs := (expanded_buildJob raw).status hk
    intro hr
    rw [isRunningAt, decide_eq_true_eq, hs] at hr
    split_ifs at hr <;> simp at hr
  rw [allFunctions_registerJob hfresh, List.countP_append, hnew, add_zero]
  exact h.running hdc hdc₀

theorem Counted.operate (op : Operation) (h : FreshJob c op ∧ PendingOnly c op)
    (hc : Counted config c) : Counted config (c.operate op) := by
  cases op with
  | registerJob raw => exact hc.registerJob h.1
  | observe now => exact hc.release now
  | plan observation now =>
    cases observation with
    | none => exact hc.release now
    | some obs => exact hc
  | applyActions actions now =>
    have hp := h.2
    rw [PendingOnly, dataCenterMap_congr hc.names] at hp
    rw [DemeterController.operate, applyActions, dataCenterMap_congr hc.names]
    exact Runs.foldl_invariant (fun c' a hp hc' => hc'.applyAction hp now) hp hc

theorem counted_init (config : DemeterConfig) : Counted config (.init config) := by
  refine ⟨rfl, fun {i dc dc₀} hdc hdc₀ => ?_⟩
  rw [init] at hdc
  rw [hdc, Option.some.injEq] at hdc₀
  simp [hdc₀, allFunctions, init, Dict.values, Dict.empty]

end Pending

theorem controller_traced (config : DemeterConfig) (ops : List Operation) :
    (traced config ops).controller = ops.foldl operate (.init config) :=
  (List.foldl_hom (l := ops) Traced.controller fun t op => (t.controller_operate op).symm).symm

/-- **The lifecycle of a function in the controller.**  In a run that registers jobs under fresh
ids, statuses move forward, functions start running from pending, each is placed at most once and
the running counters agree with the statuses, if and only if every action that places a function
finds it pending. -/
theorem lifecycle_iff (config : DemeterConfig) (ops : List Operation)
    (hfresh : Runs.Along operate FreshJob (.init config) ops) :
    Lifecycle config ops ↔ Runs.Along operate PendingOnly (.init config) ops := by
  rw [← cleanLog_traced_iff hfresh]
  refine ⟨fun h => ⟨h.fromPending, h.once⟩, fun hclean => ?_⟩
  have hgood := hfresh.and ((cleanLog_traced_iff hfresh).1 hclean)
  refine ⟨?_, hclean.1, hclean.2, ?_⟩
  · rintro pre post rfl
    rw [controller_traced, controller_traced, List.foldl_append]
    exact Runs.foldl_invariant (P := Forward _)
      (fun c op h hc => hc.trans (forward_operate op h)) (Runs.along_append.1 hgood).2 (.refl _)
  · rw [controller_traced]
    exact Runs.foldl_invariant (fun c op h hc => hc.operate op h) hgood (counted_init config)

/-- One round of the sample job meets the condition: the scan is pending when it is placed. -/
theorem lifecycle_sample :
    Lifecycle Sample.config [.registerJob (Sample.profile 0), .observe 0,
      .applyActions [Sample.action "scan"] 0] := by
  refine (lifecycle_iff _ _ ?_).2 ?_
  · decide +kernel
  · decide +kernel

/-- Applying the same plan again places the scan twice. -/
theorem not_lifecycle_sample :
    Runs.Along operate FreshJob (.init Sample.config) [.registerJob (Sample.profile 0), .observe 0,
        .applyActions [Sample.action "scan"] 0, .applyActions [Sample.action "scan"] 1] ∧
      ¬ Lifecycle Sample.config [.registerJob (Sample.profile 0), .observe 0,
        .applyActions [Sample.action "scan"] 0, .applyActions [Sample.action "scan"] 1] := by
  refine ⟨by decide +kernel, fun h => ?_⟩
  have twice : ¬ ((traced Sample.config [.registerJob (Sample.profile 0), .observe 0,
      .applyActions [Sample.action "scan"] 0,
      .applyActions [Sample.action "scan"] 1]).log.map (·.ref)).Nodup := by decide +kernel
  exact twice h.once

end Demeter.Marl.DemeterController
