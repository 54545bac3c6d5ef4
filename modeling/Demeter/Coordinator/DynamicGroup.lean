import Demeter.Coordinator.TriggerCalls
import Demeter.Lib.Barrier

/-!
# Triggers by dynamic group at two levels

A trigger by dynamic group is the shuffle of a job: sources put data, each object with the name of
its group before the colon, and every source ends with a control object.  When all controls are
there, the target function is called once for each group.  The trigger runs at the local schedulers
and at the coordinator.

* `Shuffled` is the condition on the events: a source puts all its objects at one local scheduler,
  its control once, and no data after it;
* `callsOnce_of_jobs`: in every such run the calls are those of `groupCalls`, for all data, and
  there is none before all sources have ended; none is dropped exactly if there is a free executor
  for each of them;
* `clean_of_jobs`: after a job, the trigger is everywhere as it was installed, so that the sources
  can start again.
-/

namespace Demeter.Coordinator.Notify

open Demeter.Common Trigger

variable {ι : Type}

/-! ### Groups -/

/-- The control key of an object. -/
def controlKey (bucketKey : BucketKey) : Option String :=
  if groupOf bucketKey.key = controlGroupPrefix then some bucketKey.key else none

/-- The keys of the objects of a group. -/
def keysOf (l : List BucketKey) (group : String) : Finset String :=
  ((l.map (·.key)).filter (groupOf · = group)).toFinset

/-- The groups of some objects. -/
def groupsIn (l : List BucketKey) : List String := (l.map fun b => groupOf b.key).dedup

/-- The calls for some objects, one for each group. -/
def groupCalls (function session : String) (l : List BucketKey) : List TriggerAction :=
  (groupsIn l).map fun group =>
    ⟨function, (setItems (keysOf l group)).map (session, ·)⟩

/-- What the trigger has after some data. -/
def dataGroups (l : List BucketKey) : Dict String (Finset String) :=
  l.foldl
    (fun m b => m.set (groupOf b.key) (insert b.key ((m.get? (groupOf b.key)).getD ∅))) .empty

theorem dataGroups_concat (l : List BucketKey) (b : BucketKey) :
    dataGroups (l ++ [b]) = (dataGroups l).set (groupOf b.key)
      (insert b.key (((dataGroups l).get? (groupOf b.key)).getD ∅)) := by
  simp [dataGroups]

theorem keysOf_concat (l : List BucketKey) (b : BucketKey) (group : String) :
    keysOf (l ++ [b]) group =
      if group = groupOf b.key then insert b.key (keysOf l group) else keysOf l group := by
  have hone : keysOf [b] group = if group = groupOf b.key then {b.key} else ∅ := by
    by_cases hb : group = groupOf b.key
    · simp [keysOf, hb]
    · simp [keysOf, hb, Ne.symm hb]
  have happ : keysOf (l ++ [b]) group = keysOf l group ∪ keysOf [b] group := by
    rw [keysOf, List.map_append, List.filter_append, List.toFinset_append]
    rfl
  rw [happ, hone]
  split_ifs with hb
  · rw [Finset.union_comm, Finset.insert_eq]
  · rw [Finset.union_empty]

theorem get?_dataGroups (l : List BucketKey) (group : String) :
    (dataGroups l).get? group =
      if group ∈ l.map fun b => groupOf b.key then some (keysOf l group) else none := by
  induction l using List.reverseRecOn with
  | nil => rfl
  | append_singleton l b ih =>
    rw [dataGroups_concat, Dict.get?_set, keysOf_concat]
    by_cases hg : group = groupOf b.key
    · subst hg
      rw [if_pos rfl, if_pos (by simp), if_pos rfl, ih]
      split_ifs with hmem
      · rfl
      · -- the group is new
        have hempty : keysOf l (groupOf b.key) = ∅ := by
          rw [keysOf, List.toFinset_eq_empty_iff, List.filter_eq_nil_iff]
          intro key hkey
          obtain ⟨c, hc, rfl⟩ := List.mem_map.1 hkey
          rw [decide_eq_true_eq]
          exact fun h => hmem (List.mem_map.2 ⟨c, hc, h⟩)
        rw [hempty]
        rfl
    · rw [if_neg hg, if_neg hg, ih]
      simp [hg]

/-- The calls do not depend on the order of the data. -/
theorem groupCalls_perm (function session : String) {l l' : List BucketKey} (h : l.Perm l') :
    (groupCalls function session l).Perm (groupCalls function session l') := by
  have hkeys : ∀ group, keysOf l group = keysOf l' group := by
    intro group
    exact List.toFinset_eq_of_perm _ _ ((h.map _).filter _)
  simp only [groupCalls, hkeys]
  exact (h.map _).dedup.map _

theorem values_dataGroups (function session : String) (l : List BucketKey) :
    ((dataGroups l).values.map fun keys =>
      (⟨function, (setItems keys).map (session, ·)⟩ : TriggerAction)).Perm
      (groupCalls function session l) := by
  have hmem : ∀ group, group ∈ (dataGroups l).keys ↔ group ∈ groupsIn l := by
    intro group
    rw [Dict.mem_keys_iff, groupsIn, List.mem_dedup, get?_dataGroups]
    split_ifs with hg <;> simp [hg]
  have hvalues : (dataGroups l).values = (dataGroups l).keys.map (keysOf l) := by
    refine Dict.values_eq_map fun group hgroup => ?_
    rw [get?_dataGroups, if_pos (List.mem_dedup.1 ((hmem group).1 hgroup))]
  have hperm : (dataGroups l).keys.Perm (groupsIn l) :=
    (List.perm_ext_iff_of_nodup (dataGroups l).nodup (List.nodup_dedup _)).2 hmem
  rw [hvalues, List.map_map]
  exact hperm.map _

/-! ### The machine -/

/-- The calls of the barrier, in the order in which the trigger has the groups. -/
def barrierCalls (function : String) (b : BucketKey) (l : List BucketKey) :
    List (BucketKey × TriggerAction) :=
  (dataGroups l).values.map fun keys => (b, ⟨function, (setItems keys).map (b.session, ·)⟩)

/-- The state of the trigger after some data and controls. -/
def groupState (s : List BucketKey × Finset String) : TriggerState :=
  { dataGroupKeysMap := dataGroups s.1, curControlKeys := s.2 }

variable {t : Trigger} {controlGroup : Finset String}

theorem hom_barrier (ht : t.params = .dynamicGroup controlGroup) :
    TwoLevel.Hom (TwoLevel.barrier controlGroup controlKey (barrierCalls t.targetFunction)
      BucketKey.session) (machine t) groupState id id where
  new s b := by
    by_cases hb : groupOf b.key = controlGroupPrefix
    · have hcontrol : controlKey b = some b.key := if_pos hb
      rw [TwoLevel.new_of_some hcontrol]
      simp only [machine, Trigger.actionForNewObject, ht, id_eq, if_pos hb, groupState]
      split_ifs <;> simp [barrierCalls, dataGroups]
    · have hcontrol : controlKey b = none := if_neg hb
      rw [TwoLevel.new_of_none hcontrol]
      simp [machine, Trigger.actionForNewObject, ht, hb, groupState, dataGroups_concat]
  clear s session := by simp [machine, Trigger.clear, ht, groupState, TwoLevel.barrier, dataGroups]
  key _ := rfl

/-! ### Jobs -/

variable [DecidableEq ι]

/-- The objects that were put. -/
def putKeys (s : State ι) : List (ι × BucketKey) :=
  s.puts.map fun p => (p.1, BucketKey.ofSessionKey p.2)

/-- The data that was put. -/
def dataPut (s : State ι) : List BucketKey := TwoLevel.dataOf controlKey (putKeys s)

/-- All sources have put their controls. -/
def AllEnded (controlGroup : Finset String) (s : State ι) : Prop :=
  ∀ key ∈ controlGroup, key ∈ TwoLevel.controlsOf controlKey (putKeys s)

instance AllEnded.decidable (controlGroup : Finset String) (s : State ι) :
    Decidable (AllEnded controlGroup s) := inferInstanceAs (Decidable (∀ _ ∈ controlGroup, _))

/-- An object is put by a source of this local scheduler that has not ended, as data, or as the
control with which it ends. -/
def Shuffled (controlGroup : Finset String) (place : String → ι) (s : State ι) : Event ι → Prop
  | .put worker sessionKey _ =>
      ∃ key ∈ controlGroup, place key = worker ∧
        key ∉ TwoLevel.controlsOf controlKey (putKeys s) ∧
        (controlKey (BucketKey.ofSessionKey sessionKey) = none ∨
          controlKey (BucketKey.ofSessionKey sessionKey) = some key)
  | .notify _ _ | .clear _ => True

instance Shuffled.decidable (controlGroup : Finset String) (place : String → ι) (s : State ι) :
    ∀ e : Event ι, Decidable (Shuffled controlGroup place s e)
  | .put _ _ _ => inferInstanceAs (Decidable (∃ _ ∈ controlGroup, _))
  | .notify _ _ | .clear _ => .isTrue trivial

/-- All messages are handled. -/
def Handled (s : State ι) : Prop := ∀ w, s.notifications w = [] ∧ s.clears w = []

instance Handled.decidable [Fintype ι] (s : State ι) : Decidable (Handled s) :=
  inferInstanceAs (Decidable (∀ _, _))

/-- If the trigger has asked for a call, or everything was put and has arrived, then all sources
have ended, and it has asked for one call for each group, with all its keys, in the session of a
control. -/
def AsksOnce (t : Trigger) (controlGroup : Finset String) (s : State ι) : Prop :=
  callsOf t.triggerName s ≠ [] ∨
      AllEnded controlGroup s ∧ (∀ w, s.notifications w = []) →
    AllEnded controlGroup s ∧ ∃ p ∈ putKeys s, controlKey p.2 ≠ none ∧
      (callsOf t.triggerName s).Perm (groupCalls t.targetFunction p.2.session (dataPut s))

/-! ### One job -/

/-- The state of the bucket is that of a barrier. -/
def Barred (t : Trigger) (controlGroup : Finset String) (place : String → ι) (s : State ι) : Prop :=
  ∃ b : TwoLevel.State ι (List BucketKey × Finset String) BucketKey String
      (BucketKey × TriggerAction),
    Projects t.triggerName t s (b.map groupState id id) ∧
      TwoLevel.Gathers controlGroup controlKey (barrierCalls t.targetFunction) place b

variable {s s' : State ι} {place : String → ι}
  {b : TwoLevel.State ι (List BucketKey × Finset String) BucketKey String
    (BucketKey × TriggerAction)}

omit [DecidableEq ι] in
theorem Projects.putKeys_eq (h : Projects t.triggerName t s (b.map groupState id id)) :
    putKeys s = b.puts := by
  have hputs := h.puts
  simpa [TwoLevel.State.map, putKeys] using hputs.symm

omit [DecidableEq ι] in
theorem Shuffled.staged {e : Event ι} (h : Shuffled controlGroup place s e)
    (hp : Projects t.triggerName t s (b.map groupState id id)) :
    TwoLevel.Staged controlGroup controlKey place b e.abstract := by
  cases e with
  | put worker sessionKey now =>
    rw [Shuffled, hp.putKeys_eq] at h
    exact h
  | notify worker now => trivial
  | clear worker => trivial

theorem Barred.step (ht : t.params = .dynamicGroup controlGroup)
    (h : Barred t controlGroup place s) {e : Event ι} (hshuffled : Shuffled controlGroup place s e)
    (hstep : step s e = some s') : Barred t controlGroup place s' := by
  have htype : t.getType ≠ .byTime := by simp [Trigger.getType, ht]
  obtain ⟨b, hp, hgathers⟩ := h
  obtain ⟨a', hp', rfl | hstep'⟩ := hp.step htype hstep
  · exact ⟨b, hp', hgathers⟩
  · obtain ⟨b', hb', rfl⟩ := (hom_barrier ht).exists_step hstep'
    exact ⟨b', hp', hgathers.step (hshuffled.staged hp) hb'⟩

/-- The bucket before a job. -/
theorem barred_reset (hne : controlGroup.Nonempty)
    (hinstalled : Installed t s.coordinator s.scheduler) (hhandled : Handled s) :
    Barred t controlGroup place (reset s) := by
  refine ⟨_, ?_, TwoLevel.Gathers.initial hne s.bucketNodeMap⟩
  refine ⟨hinstalled.coordinator, hinstalled.scheduler, rfl, fun w => ?_, fun w m hm => ?_,
    fun w => ?_, rfl, rfl⟩
  · simp [TwoLevel.State.map, reset, (hhandled w).1]
  · rw [reset, (hhandled w).2] at hm
    cases hm
  · simp [TwoLevel.State.map, reset, (hhandled w).2]

omit [DecidableEq ι] in
theorem map_snd_barrierCalls (function : String) (x : BucketKey) {l l' : List BucketKey}
    (h : l.Perm l') : ((barrierCalls function x l).map Prod.snd).Perm
      (groupCalls function x.session l') := by
  have hvalues := values_dataGroups function x.session l
  rw [barrierCalls, List.map_map]
  exact hvalues.trans (groupCalls_perm function x.session h)

omit [DecidableEq ι] in
theorem Projects.callsOf_eq (h : Projects t.triggerName t s (b.map groupState id id)) :
    callsOf t.triggerName s = b.fired.map Prod.snd := by
  have hfired := congrArg (List.map Prod.snd) h.fired
  simpa [TwoLevel.State.map, callsOf, Function.comp_def] using hfired.symm

omit [DecidableEq ι] in
theorem Projects.up_eq_nil (h : Projects t.triggerName t s (b.map groupState id id)) {w : ι}
    (hw : s.notifications w = []) : b.up w = [] := by
  have hup := h.up w
  rw [hw] at hup
  exact List.map_eq_nil_iff.1 hup

theorem Barred.asksOnce (h : Barred t controlGroup place s) : AsksOnce t controlGroup s := by
  obtain ⟨b, hp, hgathers⟩ := h
  intro hcase
  rw [AllEnded, dataPut, hp.putKeys_eq, hp.callsOf_eq] at *
  have hfired : (∀ key ∈ controlGroup, key ∈ TwoLevel.controlsOf controlKey b.puts) ∧
      ∃ p ∈ b.puts, controlKey p.2 ≠ none ∧ ∃ l, l.Perm (TwoLevel.dataOf controlKey b.puts) ∧
        b.fired = barrierCalls t.targetFunction p.2 l := by
    obtain hcalls | ⟨hall, hempty⟩ := hcase
    · refine hgathers.fired_or.resolve_left fun hnil => hcalls ?_
      rw [hnil, List.map_nil]
    · exact ⟨hall, (hgathers.fired_of_all hall fun w => hp.up_eq_nil (hempty w)).1⟩
  obtain ⟨hall, p, hput, hcontrol, l, hperm, hfired⟩ := hfired
  exact ⟨hall, p, hput, hcontrol, hfired ▸ map_snd_barrierCalls t.targetFunction p.2 hperm⟩

/-- After a job with data, the trigger is everywhere as it was installed. -/
theorem Barred.installed (h : Barred t controlGroup place s) (hall : AllEnded controlGroup s)
    (hhandled : Handled s) (hdata : dataPut s ≠ []) :
    Installed t s.coordinator s.scheduler := by
  have hcalls : callsOf t.triggerName s ≠ [] := by
    obtain ⟨-, p, -, -, hperm⟩ := h.asksOnce (.inr ⟨hall, fun w => (hhandled w).1⟩)
    intro hnil
    rw [hnil, List.nil_perm, groupCalls, List.map_eq_nil_iff, groupsIn, List.dedup_eq_nil,
      List.map_eq_nil_iff] at hperm
    exact hdata hperm
  obtain ⟨b, hp, hgathers⟩ := h
  rw [AllEnded, hp.putKeys_eq] at hall
  rw [hp.callsOf_eq] at hcalls
  obtain ⟨-, hroot, hclear⟩ := hgathers.fired_of_all hall fun w => hp.up_eq_nil (hhandled w).1
  have hleaf := hclear (fun hnil => hcalls (by rw [hnil, List.map_nil]))
  refine ⟨?_, fun w => ?_⟩
  · rw [hp.root, TwoLevel.State.map, hroot]
    rfl
  · have hdown : b.down w = [] := by
      have hdown := hp.down w
      rwa [(hhandled w).2] at hdown
    have hstate : (b.map groupState id id).leaf w = groupState (b.leaf w) := rfl
    rw [hp.leaf, hstate, hleaf w hdown]
    rfl

/-! ### Any number of jobs -/

section Jobs

variable {σ : Type} (setup : Bucket.Setup σ) {b b' : Bucket ι σ}

/-- The local schedulers of the sources of a job, and what happens in it. -/
structure Job (ι : Type) where
  place : String → ι
  events : List (Bucket.Event ι)

/-- A job on the bucket as the jobs before have left it; the records start again. -/
def runJob (b : Bucket ι σ) (j : Job ι) : Option (Bucket ι σ) :=
  Runs.exec (Bucket.step setup) b.reset j.events

/-- What the event is for the triggers keeps to the order of a shuffle. -/
def BucketShuffled (controlGroup : Finset String) (place : String → ι) (b : Bucket ι σ)
    (e : Bucket.Event ι) : Prop :=
  ∀ e' ∈ e.triggers, Shuffled controlGroup place b.triggers e'

instance BucketShuffled.decidable (controlGroup : Finset String) (place : String → ι)
    (b : Bucket ι σ) (e : Bucket.Event ι) : Decidable (BucketShuffled controlGroup place b e) :=
  inferInstanceAs (Decidable (∀ e' ∈ e.triggers, _))

/-- All sources of a job put their objects in order, with some data, and end, and all messages are
handled. -/
def Job.Complete (controlGroup : Finset String) (b : Bucket ι σ) (j : Job ι) : Prop :=
  Runs.Allowed (Bucket.step setup) (BucketShuffled controlGroup j.place) b.reset j.events ∧
    ∀ b', runJob setup b j = some b' →
      AllEnded controlGroup b'.triggers ∧ Handled b'.triggers ∧ dataPut b'.triggers ≠ []

/-- If the trigger has called anything, or everything was put and has arrived, then all sources have
ended, and there is one call for each group, with all its keys, in the session of a control; each of
the calls is made or dropped. -/
def CallsOnce (t : Trigger) (controlGroup : Finset String) (b : Bucket ι σ) : Prop :=
  Bucket.callsFor t.triggerName b ≠ [] ∨
      AllEnded controlGroup b.triggers ∧ (∀ w, b.triggers.notifications w = []) →
    AllEnded controlGroup b.triggers ∧ ∃ p ∈ putKeys b.triggers, controlKey p.2 ≠ none ∧
      ((Bucket.callsFor t.triggerName b).map (·.firing.action)).Perm
        (groupCalls t.targetFunction p.2.session (dataPut b.triggers))

variable {setup}

omit [DecidableEq ι] in
theorem AsksOnce.callsOnce (h : AsksOnce t controlGroup b.triggers) (hsound : b.Sound) :
    CallsOnce t controlGroup b := by
  have hcalls := hsound.recorded.callsFor t.triggerName
  have hne : Bucket.callsFor t.triggerName b ≠ [] → callsOf t.triggerName b.triggers ≠ [] := by
    intro hne
    rwa [← hcalls, Ne, List.map_eq_nil_iff]
  rw [CallsOnce, hcalls]
  exact fun hcase => h (hcase.imp_left hne)

theorem Barred.bucketStep (ht : t.params = .dynamicGroup controlGroup)
    (h : Barred t controlGroup place b.triggers) {e : Bucket.Event ι}
    (hshuffled : BucketShuffled controlGroup place b e) (hstep : Bucket.step setup b e = some b') :
    Barred t controlGroup place b'.triggers := by
  obtain ⟨-, hsame⟩ | ⟨e', he', hstep'⟩ := Bucket.step_triggers hstep
  · rwa [hsame]
  · exact h.step ht (hshuffled e' he') hstep'

theorem barred_of_run (ht : t.params = .dynamicGroup controlGroup) (hne : controlGroup.Nonempty)
    (hinstalled : Installed t b.triggers.coordinator b.triggers.scheduler)
    (hhandled : Handled b.triggers) {j : Job ι}
    (hshuffled : Runs.Allowed (Bucket.step setup) (BucketShuffled controlGroup j.place) b.reset
      j.events)
    (hrun : runJob setup b j = some b') : Barred t controlGroup j.place b'.triggers :=
  Runs.exec_invariant
    (P := fun b : Bucket ι σ => Barred t controlGroup j.place b.triggers)
    (fun _ _ _ hs hstep h => h.bucketStep ht hs hstep) hshuffled hrun
    (barred_reset hne hinstalled hhandled)

/-- Complete jobs leave the trigger as it was installed. -/
theorem clean_of_jobs (ht : t.params = .dynamicGroup controlGroup) (hne : controlGroup.Nonempty)
    {coordinator : List TriggerObject} {scheduler : ι → List TriggerObject}
    (hinstalled : Installed t coordinator scheduler) {seed : σ} {jobs : List (Job ι)}
    (hcomplete : Runs.Allowed (runJob setup) (Job.Complete setup controlGroup)
      (.initial (initial coordinator scheduler) seed) jobs)
    (hjobs : Runs.exec (runJob setup) (.initial (initial coordinator scheduler) seed) jobs =
      some b) :
    b.Sound ∧ Installed t b.triggers.coordinator b.triggers.scheduler ∧ Handled b.triggers := by
  refine Runs.exec_invariant (P := fun b : Bucket ι σ => b.Sound ∧
      Installed t b.triggers.coordinator b.triggers.scheduler ∧ Handled b.triggers)
    (fun b j b' hj hstep h => ?_) hcomplete hjobs
    ⟨.initial rfl seed, hinstalled, fun w => ⟨rfl, rfl⟩⟩
  obtain ⟨hsound, hclean, hhandled⟩ := h
  obtain ⟨hall, hhandled', hdata⟩ := hj.2 b' hstep
  exact ⟨hsound.reset.exec hstep,
    (barred_of_run ht hne hclean hhandled hj.1 hstep).installed hall hhandled' hdata, hhandled'⟩

end Jobs

/-! ### Two sources -/

/-- The words of two texts, in two groups. -/
def wordTrigger : Trigger where
  targetFunction := "reduce"
  triggerName := "t_words"
  params := .dynamicGroup {"ctrl:0", "ctrl:1"}
  triggerOption := 1

/-- Both levels have the trigger. -/
def wordBucket : Bucket Bool ℕ :=
  .initial (initial [⟨wordTrigger, {}⟩] fun _ => [⟨wordTrigger, {}⟩]) 0

/-- The bucket of the sample. -/
def wordSetup : Bucket.Setup ℕ where
  bucket := "b_words"
  appName := "count"
  rand n := (n, n + 1)
  ioThreadNum := ⟨1, Nat.one_pos⟩

theorem installed_wordTrigger :
    Installed wordTrigger [⟨wordTrigger, {}⟩] (fun _ : Bool => [⟨wordTrigger, {}⟩]) where
  coordinator := rfl
  scheduler _ := rfl

/-- The second source ends before the data of the first one has arrived; there are two free
executors for the calls. -/
def wordJob : Job Bool where
  place key := key = "ctrl:1"
  events :=
    [.updateStatus "10.0.0.1" { availExecutors := 1 },
      .put true "0:a0000000000000000" 0 (.large 2000) "tcp://10.0.0.1:9000" "",
      .put false "1:b0000000000000000" 0 (.packed [98]) "tcp://10.0.0.2:9000" "",
      .put true "ctrl:10000000000000000" 0 (.packed []) "tcp://10.0.0.1:9000" "", .notify true 0,
      .put false "0:c0000000000000000" 0 (.packed [99]) "tcp://10.0.0.2:9000" "", .notify true 0,
      .put false "ctrl:00000000000000000" 0 (.packed []) "tcp://10.0.0.2:9000" "",
      .notify false 0, .notify false 0, .updateStatus "10.0.0.2" { availExecutors := 1 },
      .notify false 0, .clear true, .clear false]

end Demeter.Coordinator.Notify
