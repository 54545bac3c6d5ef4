import Demeter.Coordinator.Notify
import Demeter.Lib.Collect

/-!
# Triggers by set at two levels

A trigger by set waits, in every session, for the objects of a set of keys, at every local scheduler
for those that are put there, and at the coordinator for all of them.

* `FiresOnce`: no session has more than one firing, and it has one when all objects were put and
  their notifications were handled;
* `fires_once_iff`: this holds in every run in which no object is put twice, unless the empty key is
  in the set.  The name of an object with the empty key has 16 characters, which `BucketKey` reads
  as no key and no session.
-/

namespace Demeter.Coordinator.Notify

open Demeter.Common

variable {ι : Type}

/-- The firings of the triggers of the given name for a session. -/
def firingsFor (n session : String) (s : State ι) : List Firing :=
  s.firings.filter fun f => f.triggerName = n ∧ f.bucketKey.session = session

/-- How often an object was put into the bucket. -/
def putCount (key session : String) (s : State ι) : ℕ :=
  (s.puts.map Prod.snd).count (key ++ session)

/-- No object of the set was put twice. -/
def PutAtMostOnce (keySet : Finset String) (s : State ι) : Prop :=
  ∀ session : String, session.length = 16 → ∀ key ∈ keySet, putCount key session s ≤ 1

/-- At most one call for each session, and exactly one when every key was put once and has arrived.
-/
def FiresOnce (n : String) (keySet : Finset String) (s : State ι) : Prop :=
  ∀ session : String, session.length = 16 →
    (firingsFor n session s).length ≤ 1 ∧
      ((∀ key ∈ keySet, putCount key session s = 1) →
        (∀ worker, ∀ m ∈ s.notifications worker, m.bucketKey.session ≠ session) →
          (firingsFor n session s).length = 1)

/-! ### The machine -/

/-- The keys that a trigger has in each session. -/
def prepared (st : TriggerState) (session : String) : Finset String :=
  (st.sessionPreparedKeysMap.get? session).getD ∅

theorem prepared_set (st : TriggerState) (session : String) (keys : Finset String) :
    prepared { st with sessionPreparedKeysMap := st.sessionPreparedKeysMap.set session keys } =
      Function.update (prepared st) session keys := by
  funext session'
  simp only [Function.update_apply, prepared, Dict.get?_set]
  split_ifs <;> rfl

theorem prepared_erase (st : TriggerState) (session : String) :
    prepared { st with sessionPreparedKeysMap := st.sessionPreparedKeysMap.erase session } =
      Function.update (prepared st) session ∅ := by
  funext session'
  simp only [Function.update_apply, prepared, Dict.get?_erase]
  split_ifs <;> rfl

variable {t : Trigger} {keySet : Finset String}

theorem hom_collect (ht : t.params = .bySet keySet) :
    TwoLevel.Hom (machine t) (TwoLevel.collect keySet BucketKey.key BucketKey.session) prepared id
      Prod.fst where
  new st bucketKey := by
    simp only [machine, Trigger.actionForNewObject, ht, TwoLevel.collect, id_eq]
    rw [← prepared]
    split_ifs
    · simp [prepared_erase]
    · simp [prepared_set]
    · rfl
  clear st session := by
    simp only [machine, Trigger.clear, ht, TwoLevel.collect, prepared_erase]
  key _ := rfl

/-- The state of the bucket, seen as the keys that the trigger collects. -/
def collected (a : TwoLevel.State ι TriggerState BucketKey String (BucketKey × TriggerAction)) :
    TwoLevel.State ι (String → Finset String) BucketKey String BucketKey :=
  a.map prepared id Prod.fst

/-- What it says about a session. -/
def sessionView (keySet : Finset String) (session : String)
    (a : TwoLevel.State ι TriggerState BucketKey String (BucketKey × TriggerAction)) :
    TwoLevel.View ι BucketKey String :=
  TwoLevel.view keySet BucketKey.key BucketKey.session session (collected a)

variable {n session : String} {s s' : State ι}
  {a a' : TwoLevel.State ι TriggerState BucketKey String (BucketKey × TriggerAction)}

theorem count_sessionView (keySet : Finset String) (h : Projects n t s a) :
    (sessionView keySet session a).count = (firingsFor n session s).length := by
  simp [sessionView, TwoLevel.view, collected, TwoLevel.State.map, h.fired, firingsFor,
    List.filter_map, List.filter_filter, Function.comp_def, Bool.and_comm]

theorem mem_puts_sessionView (h : Projects n t s a) (hsession : session.length = 16) {worker : ι}
    {bucketKey : BucketKey} :
    (worker, bucketKey) ∈ (sessionView keySet session a).puts ↔
      bucketKey.session = session ∧ bucketKey.key ∈ keySet ∧ bucketKey.key ≠ "" ∧
        (worker, bucketKey.key ++ session) ∈ s.puts := by
  simp only [sessionView, TwoLevel.view, collected, TwoLevel.State.map, h.puts, List.mem_filter,
    List.mem_map, decide_eq_true_eq]
  constructor
  · rintro ⟨⟨_, ⟨p, hp, rfl⟩, heq⟩, hs, hkey⟩
    obtain ⟨rfl, hparse⟩ := Prod.mk.inj heq
    subst hs
    obtain ⟨hne, happend⟩ := BucketKey.eq_append_of_ofSessionKey hparse hsession
    exact ⟨rfl, hkey, hne, happend ▸ hp⟩
  · rintro ⟨rfl, hkey, hne, hp⟩
    refine ⟨⟨_, ⟨_, hp, rfl⟩, ?_⟩, rfl, hkey⟩
    simp [BucketKey.ofSessionKey_append hne hsession]

/-- Objects that are put once have keys that are put once. -/
theorem nodup_sessionView (h : Projects n t s a) (hsession : session.length = 16)
    (honce : PutAtMostOnce keySet s) :
    ((sessionView keySet session a).puts.map fun p => p.2.key).Nodup := by
  refine List.nodup_iff_count_le_one.2 fun key => ?_
  by_cases hkey : key ∈ keySet
  · refine le_trans ?_ (honce session hsession key hkey)
    simp only [sessionView, TwoLevel.view, collected, TwoLevel.State.map, h.puts, putCount,
      List.filter_map, List.map_map, List.count_eq_countP, List.countP_map, List.countP_filter]
    refine List.countP_mono_left fun p _ hp => ?_
    simp only [Function.comp_apply, Prod.map_apply, id_eq, Bool.and_eq_true, beq_iff_eq,
      decide_eq_true_eq] at hp ⊢
    obtain ⟨rfl, rfl, -⟩ := hp
    exact (BucketKey.eq_append_of_ofSessionKey rfl hsession).2
  · refine (List.count_eq_zero.2 fun hmem => ?_).trans_le zero_le_one
    obtain ⟨p, hp, rfl⟩ := List.mem_map.1 hmem
    exact hkey ((mem_puts_sessionView h hsession).1 hp).2.1

theorem putAtMostOnce_of_nodup (keySet : Finset String) (h : (s.puts.map Prod.snd).Nodup) :
    PutAtMostOnce keySet s := fun _ _ _ _ => List.nodup_iff_count_le_one.1 h _

theorem PutAtMostOnce.of_prefix (h : PutAtMostOnce keySet s') (hputs : s.puts <+: s'.puts) :
    PutAtMostOnce keySet s := fun session hsession key hkey =>
  ((hputs.map Prod.snd).sublist.count_le _).trans (h session hsession key hkey)

/-- Without the empty key, all keys of the set are recognised. -/
theorem firesOnce_of_once (hempty : "" ∉ keySet) (hp : Projects n t s a)
    (honce : ∀ session : String, session.length = 16 →
      TwoLevel.Once keySet BucketKey.key (sessionView keySet session a)) :
    FiresOnce n keySet s := by
  intro session hsession
  have hsessionOnce := honce session hsession
  rw [← count_sessionView keySet hp]
  refine ⟨hsessionOnce.le_one, fun hputs hhandled => hsessionOnce.eq_one ?_ ?_⟩
  · intro key hkey
    have hmem : key ++ session ∈ s.puts.map Prod.snd := by
      rw [← List.count_pos_iff]
      exact (hputs key hkey).ge
    obtain ⟨p, hpput, hname⟩ := List.mem_map.1 hmem
    have hkeyne : key ≠ "" := fun h => hempty (h ▸ hkey)
    refine ⟨p.1, ⟨key, session⟩, (mem_puts_sessionView hp hsession).2 ?_, rfl⟩
    exact ⟨rfl, hkey, hkeyne, hname ▸ hpput⟩
  · intro worker
    refine List.filter_eq_nil_iff.2 fun q hq => ?_
    simp only [collected, TwoLevel.State.map, hp.up, List.map_map, List.mem_map] at hq
    obtain ⟨m, hm, rfl⟩ := hq
    simpa using fun hrelevant => hhandled worker m hm hrelevant.1

/-- A session in which the empty key is missing is never fired. -/
theorem length_firingsFor_eq_zero (hempty : "" ∈ keySet) (hp : Projects n t s a)
    (hsession : session.length = 16)
    (honce : TwoLevel.Once keySet BucketKey.key (sessionView keySet session a)) :
    (firingsFor n session s).length = 0 := by
  rw [← count_sessionView keySet hp]
  refine honce.eq_zero hempty ?_
  rintro worker ⟨bucketKey, hput, hkey⟩
  exact ((mem_puts_sessionView hp hsession).1 hput).2.2.1 hkey

/-! ### Runs -/

variable [DecidableEq ι]

/-- What a step does to the names of the objects that were put. -/
theorem puts_step {e : Event ι} (hstep : step s e = some s') : s.puts <+: s'.puts := by
  cases e with
  | put worker sessionKey now =>
    obtain rfl := Option.some.inj hstep
    exact List.prefix_append _ _
  | notify worker now =>
    rw [step] at hstep
    split at hstep
    · cases hstep
    · obtain rfl := Option.some.inj hstep
      exact List.prefix_rfl
  | clear worker =>
    rw [step] at hstep
    split at hstep
    · cases hstep
    · obtain rfl := Option.some.inj hstep
      exact List.prefix_rfl

/-- The invariant: as long as no object is put twice, every session is done once. -/
def SessionsOnce (n : String) (t : Trigger) (keySet : Finset String) (s : State ι) : Prop :=
  PutAtMostOnce keySet s → ∃ a, Projects n t s a ∧ ∀ session : String, session.length = 16 →
    TwoLevel.Once keySet BucketKey.key (sessionView keySet session a)

theorem SessionsOnce.step (ht : t.params = .bySet keySet) (h : SessionsOnce n t keySet s)
    {e : Event ι} (hstep : step s e = some s') : SessionsOnce n t keySet s' := by
  intro honce
  have htype : t.getType ≠ .byTime := by simp [Trigger.getType, ht]
  obtain ⟨a, hp, hsessions⟩ := h (honce.of_prefix (puts_step hstep))
  obtain ⟨a', hp', rfl | hstep'⟩ := hp.step htype hstep
  · exact ⟨a', hp', hsessions⟩
  · refine ⟨a', hp', fun session hsession => ?_⟩
    exact (hsessions session hsession).step ((hom_collect ht).step hstep')
      (nodup_sessionView hp' hsession honce)

variable {coordinator : List TriggerObject} {scheduler : ι → List TriggerObject}

theorem sessionsOnce_run (ht : t.params = .bySet keySet) (hne : keySet.Nonempty)
    (hinstalled : Installed t coordinator scheduler) {events : List (Event ι)}
    (hrun : Runs.exec Notify.step (initial coordinator scheduler) events = some s) :
    SessionsOnce t.triggerName t keySet s :=
  Runs.exec_invariant (fun _ _ _ _ hstep h => h.step ht hstep) (Runs.allowed_true _ _) hrun
    fun _ => ⟨_, hinstalled.projects, fun _ _ => TwoLevel.Once.init hne⟩

/-! ### Putting all keys at one local scheduler -/

/-- The objects of a list of names are put at one local scheduler. -/
theorem exec_puts (worker : ι) (names : List String) (s : State ι) :
    ∃ s', Runs.exec step s (names.map (.put worker · 0)) = some s' ∧
      s'.puts = s.puts ++ names.map (worker, ·) ∧
        ∀ w ≠ worker, s'.notifications w = s.notifications w := by
  induction names generalizing s with
  | nil => exact ⟨s, rfl, by simp, fun _ _ => rfl⟩
  | cons name names ih =>
    obtain ⟨s', hs', hputs, hothers⟩ := ih (checkTrigger s worker name 0)
    refine ⟨s', hs', by simp [hputs, checkTrigger], fun w hw => ?_⟩
    rw [hothers w hw]
    exact Function.update_of_ne hw _ _

/-- All notifications of a local scheduler are handled. -/
theorem exec_notifies (worker : ι) (s : State ι) :
    ∃ l s', Runs.exec step s l = some s' ∧ s'.puts = s.puts ∧ s'.notifications worker = [] ∧
      ∀ w ≠ worker, s'.notifications w = s.notifications w := by
  cases hn : s.notifications worker with
  | nil => exact ⟨[], s, rfl, rfl, hn, fun _ _ => rfl⟩
  | cons request rest =>
    let s₁ := notifyHandler s worker request rest 0
    have hrest : s₁.notifications worker = rest := Function.update_self _ _ _
    obtain ⟨l, s', hs', hputs, hempty, hothers⟩ := exec_notifies worker s₁
    refine ⟨.notify worker 0 :: l, s', by simpa [Runs.exec, step, hn] using hs', hputs, hempty,
      fun w hw => ?_⟩
    rw [hothers w hw]
    exact Function.update_of_ne hw _ _
termination_by (s.notifications worker).length
decreasing_by simp [hn, notifyHandler]

/-- The names of the objects of a session. -/
def sessionNames (keySet : Finset String) (session : String) : List String :=
  (setItems keySet).map (· ++ session)

theorem nodup_sessionNames (keySet : Finset String) (session : String) :
    (sessionNames keySet session).Nodup := by
  refine (nodup_setItems keySet).map fun key key' h => ?_
  simpa [← String.toList_inj] using h

/-- A run in which all objects of a session are put, and all notifications are handled. -/
theorem exists_session_run [Nonempty ι] (coordinator : List TriggerObject)
    (scheduler : ι → List TriggerObject) (keySet : Finset String) (session : String) :
    ∃ events s, Runs.exec step (initial coordinator scheduler) events = some s ∧
      s.puts.map Prod.snd = sessionNames keySet session ∧
      ∀ worker, s.notifications worker = [] := by
  let worker := Classical.arbitrary ι
  obtain ⟨s, hs, hputs, hothers⟩ :=
    exec_puts worker (sessionNames keySet session) (initial coordinator scheduler)
  obtain ⟨l, s', hs', hputs', hempty, hothers'⟩ := exec_notifies worker s
  refine ⟨_ ++ l, s', by rw [Runs.exec_append, hs, Option.bind_some, hs'], ?_, fun w => ?_⟩
  · simp [hputs', hputs, initial, Function.comp_def]
  · by_cases hw : w = worker
    · rw [hw, hempty]
    · rw [hothers' w hw, hothers w hw, initial]

/-- **A trigger by set fires exactly once in every session of every run in which no object is put
twice, unless the empty key is in its set.** -/
theorem fires_once_iff [Nonempty ι] (ht : t.params = .bySet keySet) (hne : keySet.Nonempty)
    (hinstalled : Installed t coordinator scheduler) :
    (∀ events s, Runs.exec step (initial coordinator scheduler) events = some s →
      PutAtMostOnce keySet s → FiresOnce t.triggerName keySet s) ↔ "" ∉ keySet := by
  constructor
  · intro hall hempty
    let session := "0000000000000000"
    have hsession : session.length = 16 := by decide
    obtain ⟨events, s, hrun, hputs, hhandled⟩ :=
      exists_session_run coordinator scheduler keySet session
    have honce : PutAtMostOnce keySet s :=
      putAtMostOnce_of_nodup keySet (hputs ▸ nodup_sessionNames keySet session)
    obtain ⟨a, hp, hsessions⟩ := sessionsOnce_run ht hne hinstalled hrun honce
    have hzero := length_firingsFor_eq_zero hempty hp hsession (hsessions session hsession)
    have hone := (hall events s hrun honce session hsession).2 ?_ ?_
    · omega
    · intro key hkey
      rw [putCount, hputs]
      refine List.count_eq_one_of_mem (nodup_sessionNames keySet session) ?_
      exact List.mem_map.2 ⟨key, (mem_setItems keySet).2 hkey, rfl⟩
    · simp [hhandled]
  · intro hempty events s hrun honce
    obtain ⟨a, hp, hsessions⟩ := sessionsOnce_run ht hne hinstalled hrun honce
    exact firesOnce_of_once hempty hp hsessions

/-! ### Two local schedulers -/

/-- The function is called when both objects are there. -/
def bothTrigger (first second : String) : Trigger where
  targetFunction := "join"
  triggerName := "t_both"
  params := .bySet {first, second}

/-- Both levels have the trigger. -/
def bothBucket (first second : String) : State Bool :=
  initial [⟨bothTrigger first second, {}⟩] fun _ => [⟨bothTrigger first second, {}⟩]

theorem installed_bothTrigger (first second : String) :
    Installed (bothTrigger first second) [⟨bothTrigger first second, {}⟩]
      (fun _ : Bool => [⟨bothTrigger first second, {}⟩]) where
  coordinator := by simp [named, TriggerObject.name]
  scheduler _ := by simp [named, TriggerObject.name]

theorem firesOnce_bothBucket :
    ∃ s, Runs.exec step (bothBucket "left" "right")
        [.put false "left0123456789abcdef" 0, .put true "right0123456789abcdef" 0,
          .notify false 0, .notify true 0] = some s ∧
      FiresOnce "t_both" {"left", "right"} s := by
  have hrun : (Runs.exec step (bothBucket "left" "right")
      [.put false "left0123456789abcdef" 0, .put true "right0123456789abcdef" 0,
        .notify false 0, .notify true 0]).map (fun s => s.puts.map Prod.snd) =
      some ["left0123456789abcdef", "right0123456789abcdef"] := by
    decide +kernel
  obtain ⟨s, hs, hputs⟩ := Option.map_eq_some_iff.1 hrun
  have honce : PutAtMostOnce {"left", "right"} s := putAtMostOnce_of_nodup _ (hputs ▸ by decide)
  exact ⟨s, hs, (fires_once_iff rfl (by decide) (installed_bothTrigger "left" "right")).2
    (by decide) _ s hs honce⟩

/-- The object with the empty key is taken for one without a session. -/
theorem not_firesOnce_emptyKey :
    ¬ ∀ events s, Runs.exec step (bothBucket "" "right") events = some s →
      PutAtMostOnce {"", "right"} s → FiresOnce "t_both" {"", "right"} s := by
  intro h
  have hrun : (Runs.exec step (bothBucket "" "right")
      [.put false "0123456789abcdef" 0, .put true "right0123456789abcdef" 0, .notify false 0,
        .notify true 0]).map (fun s => (s.puts.map Prod.snd, s.notifications false,
          s.notifications true, (firingsFor "t_both" "0123456789abcdef" s).length)) =
      some (["0123456789abcdef", "right0123456789abcdef"], [], [], 0) := by
    decide +kernel
  obtain ⟨s, hs, hvalues⟩ := Option.map_eq_some_iff.1 hrun
  simp only [Prod.mk.injEq] at hvalues
  obtain ⟨hputs, hfalse, htrue, hzero⟩ := hvalues
  have honce : PutAtMostOnce {"", "right"} s :=
    putAtMostOnce_of_nodup _ (hputs ▸ by decide)
  have hone := (h _ s hs honce "0123456789abcdef" (by decide)).2 ?_ ?_
  · omega
  · simp only [putCount, hputs]
    decide
  · simp [hfalse, htrue]

end Demeter.Coordinator.Notify
