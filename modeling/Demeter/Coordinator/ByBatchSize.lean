import Demeter.Coordinator.Notify
import Demeter.Lib.Batches

/-!
# Triggers by batch size at two levels

A trigger by batch size collects the objects of a bucket, at every local scheduler those that are
put there, and at the coordinator all of them.

* `InOrder` is the condition on the events under which the two levels do not get into each other's
  way;
* `count_consumed_le`: then no object is in more firings than it was put;
* `consumed_twice` is a run in which an object is fired at its local scheduler after the
  coordinator has fired with it.
-/

namespace Demeter.Coordinator.Notify

open Demeter.Common

variable {ι : Type} [DecidableEq ι]

/-- The objects collected by the triggers of the given name. -/
def bufferOf (n : String) (ts : List TriggerObject) : List (String × String) :=
  (named n ts).flatMap (·.state.buffer)

/-- The objects in the firings of the triggers of the given name. -/
def consumed (n : String) (s : State ι) : List (String × String) :=
  (s.firings.filter (·.triggerName = n)).flatMap (·.action.sessionKeys)

/-- The objects that were put. -/
def putObjects (s : State ι) : List (String × String) :=
  s.puts.map fun p => (BucketKey.ofSessionKey p.2).sessionKey

/-- A local scheduler completes a batch only when no request to clear the trigger is on its way to
it; the coordinator completes a batch of its own only when no local scheduler that put one of its
objects has a notification on its way which says that the trigger was employed. -/
def InOrder (n : String) (c : ℕ) (s : State ι) : Event ι → Prop
  | .put worker _ _ =>
      c ≤ (bufferOf n (s.scheduler worker)).length + 1 →
        ∀ msg ∈ s.clears worker, n ∉ msg.triggerNames
  | .notify worker _ =>
      ∀ request ∈ (s.notifications worker).head?,
        n ∉ request.activeTriggerNames → c ≤ (bufferOf n s.coordinator).length + 1 →
          ∀ p ∈ s.puts, (BucketKey.ofSessionKey p.2).sessionKey ∈
              bufferOf n s.coordinator ++ [request.bucketKey.sessionKey] →
            ∀ m ∈ s.notifications p.1, n ∉ m.activeTriggerNames
  | .clear _ => True

instance InOrder.decidable (n : String) (c : ℕ) (s : State ι) :
    ∀ e : Event ι, Decidable (InOrder n c s e)
  | .put _ _ _ => inferInstanceAs (Decidable (_ → ∀ _ ∈ _, _))
  | .notify _ _ => Option.decidableForallMem _
  | .clear _ => .isTrue trivial

/-! ### The machine -/

variable {t : Trigger} {count : Int32}

omit [DecidableEq ι] in
theorem hom_batch (ht : t.params = .byBatchSize count) :
    TwoLevel.Hom (machine t) (TwoLevel.batch (Trigger.toSize count) Prod.fst) TriggerState.buffer
      BucketKey.sessionKey (fun f => f.2.sessionKeys) where
  new st bucketKey := by
    simp only [machine, Trigger.actionForNewObject, ht, TwoLevel.batch, List.length_append,
      List.length_singleton]
    split_ifs <;> rfl
  clear st session := by simp [machine, Trigger.clear, ht, TwoLevel.batch]
  key _ := rfl

/-- The state of the bucket, seen as batches of the trigger. -/
def batches (a : TwoLevel.State ι TriggerState BucketKey String (BucketKey × TriggerAction)) :
    TwoLevel.State ι (List (String × String)) (String × String) String (List (String × String)) :=
  a.map TriggerState.buffer BucketKey.sessionKey (fun f => f.2.sessionKeys)

variable {n : String} {s s' : State ι}
  {a : TwoLevel.State ι TriggerState BucketKey String (BucketKey × TriggerAction)}

omit [DecidableEq ι] in
theorem bufferOf_eq {ts : List TriggerObject} {st : TriggerState} (h : named n ts = [⟨t, st⟩]) :
    bufferOf n ts = st.buffer := by
  simp [bufferOf, h]

omit [DecidableEq ι] in
theorem consumed_eq (h : Projects n t s a) : consumed n s = (batches a).fired.flatten := by
  simp [consumed, batches, TwoLevel.State.map, h.fired, List.flatMap_def, Function.comp_def]

omit [DecidableEq ι] in
theorem putObjects_eq (h : Projects n t s a) : putObjects s = (batches a).puts.map Prod.snd := by
  simp [putObjects, batches, TwoLevel.State.map, h.puts, Function.comp_def]

omit [DecidableEq ι] in
/-- The condition on the bucket is the condition on the batches. -/
theorem InOrder.ordered {c : ℕ} {e : Event ι} (h : InOrder n c s e) (hp : Projects n t s a) :
    TwoLevel.Ordered c (batches a) (e.abstract.map BucketKey.sessionKey) := by
  cases e with
  | put worker sessionKey now =>
    intro hge
    have hclears := h (by rwa [bufferOf_eq (hp.leaf worker)])
    have hdown : a.down worker = [] := by
      rw [hp.down, List.map_eq_nil_iff, List.filter_eq_nil_iff]
      simpa using hclears
    exact hdown
  | notify worker now =>
    intro x rest hup hge v y hy hv q hq
    cases hnotifications : s.notifications worker with
    | nil => simp [batches, TwoLevel.State.map, hp.up, hnotifications] at hup
    | cons request rest' =>
      simp only [batches, TwoLevel.State.map, hp.up, hnotifications, List.map_cons,
        Prod.map_apply, id_eq, List.cons.injEq, Prod.mk.injEq, decide_eq_false_iff_not] at hup
      obtain ⟨⟨rfl, hn⟩, -⟩ := hup
      have hroot : (batches a).root = bufferOf n s.coordinator := (bufferOf_eq hp.root).symm
      obtain ⟨p, hpuv, hpv⟩ : ∃ p ∈ s.puts,
          (p.1, (BucketKey.ofSessionKey p.2).sessionKey) = (v, y) := by
        simpa [batches, TwoLevel.State.map, hp.puts] using hv
      obtain ⟨rfl, rfl⟩ := Prod.mk.inj hpv
      have hactive := h request (by simp [hnotifications]) hn (hroot ▸ hge) p hpuv (hroot ▸ hy)
      obtain ⟨m, hm, rfl⟩ : ∃ m ∈ s.notifications p.1,
          (m.bucketKey.sessionKey, decide (n ∈ m.activeTriggerNames)) = q := by
        simpa [batches, TwoLevel.State.map, hp.up] using hq
      exact decide_eq_false (hactive m hm)
  | clear worker => trivial

/-- The invariant: the batches of the trigger are consumed at most once. -/
def BatchesConsumed (n : String) (t : Trigger) (c : ℕ) (s : State ι) : Prop :=
  ∃ a, Projects n t s a ∧ TwoLevel.Consumed c (batches a)

theorem BatchesConsumed.step (ht : t.params = .byBatchSize count)
    (h : BatchesConsumed n t (Trigger.toSize count) s) {e : Event ι}
    (horder : InOrder n (Trigger.toSize count) s e) (hstep : step s e = some s') :
    BatchesConsumed n t (Trigger.toSize count) s' := by
  have htype : t.getType ≠ .byTime := by simp [Trigger.getType, ht]
  obtain ⟨a, hp, hconsumed⟩ := h
  obtain ⟨a', hp', rfl | hstep'⟩ := hp.step htype hstep
  · exact ⟨a', hp', hconsumed⟩
  · exact ⟨a', hp', hconsumed.step (horder.ordered hp) ((hom_batch ht).step hstep')⟩

theorem one_le_toSize (hcount : 1 ≤ count.toInt) : 1 ≤ Trigger.toSize count := by
  have hlt := count.toInt_lt
  rw [Trigger.toSize, Int.emod_eq_of_lt (by omega) (by omega)]
  omega

/-- **In a run in which every event is in order, no object is in more firings of the trigger, at
the local schedulers and at the coordinator, than it was put into the bucket.** -/
theorem count_consumed_le (ht : t.params = .byBatchSize count) (hcount : 1 ≤ count.toInt)
    {coordinator : List TriggerObject} {scheduler : ι → List TriggerObject}
    (hinstalled : Installed t coordinator scheduler) {events : List (Event ι)}
    (horder : Runs.Allowed step (InOrder t.triggerName (Trigger.toSize count))
      (initial coordinator scheduler) events)
    (hrun : Runs.exec step (initial coordinator scheduler) events = some s)
    (x : String × String) : (consumed t.triggerName s).count x ≤ (putObjects s).count x := by
  have hinit : BatchesConsumed t.triggerName t (Trigger.toSize count)
      (initial coordinator scheduler) :=
    ⟨_, hinstalled.projects, TwoLevel.Consumed.init (one_le_toSize hcount)⟩
  obtain ⟨a, hp, hconsumed⟩ := Runs.exec_invariant
    (fun _ _ _ horder hstep h => BatchesConsumed.step ht h horder hstep) horder hrun hinit
  rw [consumed_eq hp, putObjects_eq hp]
  exact hconsumed.count_le x

/-! ### Two local schedulers -/

/-- Every two objects are handed to the function. -/
def pairTrigger : Trigger where
  targetFunction := "aggregate"
  triggerName := "t_pair"
  params := .byBatchSize 2

/-- Both levels have the trigger. -/
def pairBucket : State Bool :=
  initial [⟨pairTrigger, {}⟩] fun _ => [⟨pairTrigger, {}⟩]

theorem installed_pairTrigger :
    Installed pairTrigger [⟨pairTrigger, {}⟩] (fun _ : Bool => [⟨pairTrigger, {}⟩]) where
  coordinator := rfl
  scheduler _ := rfl

/-- One object at each local scheduler. -/
def pairEvents : List (Event Bool) :=
  [.put false "a0000000000000000" 0, .notify false 0, .put true "b0000000000000000" 0,
    .notify true 0]

/-- When the request to clear has arrived, a further object stays alone. -/
theorem count_consumed_pairEvents :
    ∃ s, Runs.exec step pairBucket
        (pairEvents ++ [.clear false, .put false "c0000000000000000" 0, .notify false 0]) =
          some s ∧
      ∀ x, (consumed "t_pair" s).count x ≤ (putObjects s).count x := by
  have hsome : (Runs.exec step pairBucket (pairEvents ++
      [.clear false, .put false "c0000000000000000" 0, .notify false 0])).isSome := by
    decide +kernel
  obtain ⟨s, hs⟩ := Option.isSome_iff_exists.1 hsome
  have hcount : (1 : ℤ) ≤ (2 : Int32).toInt := by decide
  exact ⟨s, hs, count_consumed_le rfl hcount installed_pairTrigger (by decide +kernel) hs⟩

/-- When it has not, the first object is fired with it once more. -/
theorem consumed_twice :
    ¬ ∀ events s, Runs.exec step pairBucket events = some s →
      ∀ x, (consumed "t_pair" s).count x ≤ (putObjects s).count x := by
  intro h
  have hrun : (Runs.exec step pairBucket (pairEvents ++ [.put false "c0000000000000000" 0])).map
      (fun s => ((consumed "t_pair" s).count ("0000000000000000", "a"),
        (putObjects s).count ("0000000000000000", "a"))) = some (2, 1) := by
    decide +kernel
  obtain ⟨s, hs, hcounts⟩ := Option.map_eq_some_iff.1 hrun
  obtain ⟨htwo, hone⟩ := Prod.mk.inj hcounts
  have hle := h _ s hs ("0000000000000000", "a")
  omega

end Demeter.Coordinator.Notify
