import Demeter.Coordinator.TriggerCalls
import Demeter.Executor.Objects

/-!
# The arguments of trigger calls

An object of at most `msgDataPackingThreshold` bytes is packed into the messages about it.  A call
whose objects are all packed gets their values, without their names; any other call gets its objects
by the flag of the trigger.

* `Sized` is the condition that the messages are about the stored objects;
* `PacksSmall` is the invariant that only small objects are known by their values;
* `Gives.exec`: if every call of a trigger has a large object, all of them get their objects by the
  flag.  One call without a large object is enough for the others to lose it.
-/

namespace Demeter.Coordinator.Notify.Bucket

open Demeter.Common
open Demeter.Executor (msgDataPackingThreshold)
open Demeter.Scheduler (Bytes)

variable {ι σ : Type} {setup : Setup σ} (store : String → Bytes)

/-! ### Packed objects -/

/-- What `send_object` says of an object. -/
def bodyOf (content : Bytes) : ObjectBody :=
  if content.length ≤ msgDataPackingThreshold then .packed content else .large content.length

/-- A put object is the one in the store. -/
def Sized : Event ι → Prop
  | .put _ sessionKey _ body _ _ => body = bodyOf (store sessionKey)
  | .notify _ _ | .clear _ | .updateStatus _ _ => True

instance Sized.decidable : ∀ e : Event ι, Decidable (Sized store e)
  | .put _ sessionKey _ body _ _ => inferInstanceAs (Decidable (body = bodyOf (store sessionKey)))
  | .notify _ _ | .clear _ | .updateStatus _ _ => .isTrue trivial

/-- A name that is too short has no key and no session. -/
def SmallAt (name : String) : Prop :=
  name = "" ∨ (store name).length ≤ msgDataPackingThreshold

/-- Only small objects are known by their values. -/
structure PacksSmall (b : Bucket ι σ) : Prop where
  scheduler : ∀ w, ∀ name ∈ (b.keyValMap w).keys, SmallAt store name
  coordinator : ∀ name ∈ b.bucketKeyValMap.keys, SmallAt store name
  details : ∀ w, List.Forall₂
    (fun request d => d.payload ≠ [] → SmallAt store (keySessionName request.bucketKey.sessionKey))
    (b.triggers.notifications w) (b.details w)

/-- The call has an object that is too large for a message. -/
def Large (action : TriggerAction) : Prop :=
  ∃ k ∈ action.sessionKeys, ¬ SmallAt store (keySessionName k)

variable {store}

theorem isSome_of_mapM {α β : Type} {f : α → Option β} {l : List α} {r : List β}
    (h : l.mapM f = some r) : ∀ a ∈ l, (f a).isSome := by
  induction l generalizing r with
  | nil => simp
  | cons a l ih =>
    rw [List.mapM_cons] at h
    obtain ⟨x, hx, h⟩ := Option.bind_eq_some_iff.1 h
    obtain ⟨xs, hxs, -⟩ := Option.bind_eq_some_iff.1 h
    exact List.forall_mem_cons.2 ⟨Option.isSome_iff_exists.2 ⟨x, hx⟩, ih hxs⟩

theorem realData_eq_none {keyVal : Dict String Bytes}
    (h : ∀ name ∈ keyVal.keys, SmallAt store name) {action : TriggerAction}
    (hlarge : Large store action) : realData keyVal action = none := by
  obtain ⟨k, hk, hlarge⟩ := hlarge
  rw [← Option.not_isSome_iff_eq_none]
  intro hsome
  obtain ⟨vs, hvs⟩ := Option.isSome_iff_exists.1 hsome
  obtain ⟨v, hv⟩ := Option.isSome_iff_exists.1 (isSome_of_mapM hvs k hk)
  exact hlarge (h _ (Dict.mem_keys_iff.2 ⟨v, hv⟩))

theorem smallAt_of_packed {name : String} {v : Bytes}
    (h : ObjectBody.packed v = bodyOf (store name)) : SmallAt store name := by
  rw [bodyOf] at h
  split_ifs at h with hsmall
  exact .inr hsmall

/-- The coordinator has the value of a put object under its name, or under the empty name. -/
theorem smallAt_ofSessionKey {sessionKey : String} (h : SmallAt store sessionKey) :
    SmallAt store (keySessionName (BucketKey.ofSessionKey sessionKey).sessionKey) := by
  rw [BucketKey.ofSessionKey]
  split_ifs
  · rw [BucketKey.sessionKey, keySessionName, ← String.ofList_append, List.take_append_drop,
      String.ofList_toList]
    exact h
  · exact .inl rfl

variable [DecidableEq ι] {b b' : Bucket ι σ}

theorem PacksSmall.put (h : PacksSmall store b) {worker : ι} {sessionKey : String} {now : ℕ}
    {body : ObjectBody} {address respAddress : Address}
    (hbody : body = bodyOf (store sessionKey)) :
    PacksSmall store (b.put setup worker sessionKey now body address respAddress) := by
  refine ⟨fun w name hname => ?_, h.coordinator, fun w => ?_⟩
  · simp only [Bucket.put.eq_def, Function.update_apply] at hname
    split_ifs at hname with hw
    · cases body with
      | packed v =>
        obtain rfl | hname := Dict.mem_keys_set.1 hname
        · exact smallAt_of_packed hbody
        · exact h.scheduler worker name hname
      | large size => exact h.scheduler worker name hname
    · exact h.scheduler w name hname
  · simp only [Bucket.put.eq_def, checkTrigger, Function.update_apply]
    split_ifs with hw
    · refine List.rel_append (h.details worker) (List.Forall₂.cons (fun hpayload => ?_) .nil)
      cases body with
      | packed v => exact smallAt_ofSessionKey (smallAt_of_packed hbody)
      | large size => exact absurd rfl hpayload
    · exact h.details w

theorem PacksSmall.arrived (h : PacksSmall store b) {worker : ι} {request : KeyNotifyRequest}
    {rest : List KeyNotifyRequest} {d : Details} {ds : List Details}
    (hn : b.triggers.notifications worker = request :: rest) (hd : b.details worker = d :: ds)
    (now : ℕ) : PacksSmall store (b.arrived worker request rest d ds now) := by
  have hdetails := h.details worker
  rw [hn, hd, List.forall₂_cons] at hdetails
  refine ⟨h.scheduler, fun name hname => ?_, fun w => ?_⟩
  · simp only [Bucket.arrived] at hname
    split_ifs at hname with hpayload
    · exact h.coordinator name hname
    · obtain rfl | hname := Dict.mem_keys_set.1 hname
      · exact hdetails.1 hpayload
      · exact h.coordinator name hname
  · simp only [Bucket.arrived, notifyHandler, Function.update_apply]
    split_ifs with hw
    · exact hdetails.2
    · exact h.details w

/-! ### Flags -/

/-- The triggers of this name have this flag. -/
def Flagged (n : String) (argFlag : ℕ) (ts : List TriggerObject) : Prop :=
  ∀ t ∈ ts, t.name = n → argFlagOf t.trigger = argFlag

variable {n : String} {argFlag : ℕ}

omit [DecidableEq ι] in
theorem Flagged.of_mem_newObject {ts : List TriggerObject} (h : Flagged n argFlag ts) {now : ℕ}
    {bucketKey : BucketKey} {r : TriggerObject × List TriggerAction}
    (hr : r ∈ Notify.newObject now bucketKey ts) (hn : r.1.name = n) :
    argFlagOf r.1.trigger = argFlag := by
  obtain ⟨t, ht, rfl⟩ := List.mem_map.1 hr
  exact h t ht hn

omit [DecidableEq ι] in
theorem Flagged.newObject {ts : List TriggerObject} (h : Flagged n argFlag ts) (now : ℕ)
    (bucketKey : BucketKey) :
    Flagged n argFlag ((Notify.newObject now bucketKey ts).map (·.1)) := by
  intro t ht hn
  obtain ⟨r, hr, rfl⟩ := List.mem_map.1 ht
  exact h.of_mem_newObject hr hn

omit [DecidableEq ι] in
theorem Flagged.clearTriggers {ts : List TriggerObject} (h : Flagged n argFlag ts)
    (msg : ClearMsg) : Flagged n argFlag (clearTriggers msg ts) :=
  List.foldlRecOn (motive := fun ts => Flagged n argFlag ts) msg.triggerNames _ h
    fun ts hts name _ t ht hn => by
      obtain ⟨t, hmem, rfl⟩ := List.mem_map.1 ht
      split_ifs at hn ⊢
      · exact hts t hmem hn
      · exact hts t hmem hn

/-! ### What the functions are given -/

omit [DecidableEq ι] in
theorem arrivalArgs_of_large {bucket : String} {keyVal : Dict String Bytes} {keyLen : Dict String ℕ}
    (hflag : argFlag ≠ 0) {actions : List TriggerAction}
    (h : ∀ action ∈ actions, realData keyVal action = none) :
    arrivalArgs bucket keyVal keyLen argFlag actions =
      actions.map fun action => .objects argFlag action.sessionKeys := by
  induction actions with
  | nil => rfl
  | cons action actions ih =>
    obtain ⟨hone, hrest⟩ := List.forall_mem_cons.1 h
    simp only [arrivalArgs, hone, if_neg hflag, List.map_cons, ih hrest]

/-- The invariant for a trigger of this name and flag: if all its calls have large objects, they are
given their objects. -/
structure Gives (store : String → Bytes) (n : String) (argFlag : ℕ) (b : Bucket ι σ) : Prop where
  packs : PacksSmall store b
  coordinator : Flagged n argFlag b.triggers.coordinator
  scheduler : ∀ w, Flagged n argFlag (b.triggers.scheduler w)
  given : (∀ c ∈ callsFor n b, Large store c.firing.action) →
    ∀ c ∈ callsFor n b, c.args = .objects argFlag c.firing.action.sessionKeys

omit [DecidableEq ι] in
theorem mem_callsFor {c : TriggerCall ι} :
    c ∈ callsFor n b ↔ c ∈ b.calls ∧ c.firing.triggerName = n := by
  rw [callsFor, List.mem_filter, decide_eq_true_iff]

omit [DecidableEq ι] in
/-- The calls that a step adds have to be given their objects. -/
theorem Gives.given_append (h : Gives store n argFlag b) {cs : List (TriggerCall ι)}
    (hcalls : b'.calls = b.calls ++ cs)
    (hnew : (∀ c ∈ cs, c.firing.triggerName = n → Large store c.firing.action) →
      ∀ c ∈ cs, c.firing.triggerName = n → c.args = .objects argFlag c.firing.action.sessionKeys)
    (hlarge : ∀ c ∈ callsFor n b', Large store c.firing.action) :
    ∀ c ∈ callsFor n b', c.args = .objects argFlag c.firing.action.sessionKeys := by
  simp only [mem_callsFor, hcalls, List.mem_append] at hlarge ⊢
  rintro c ⟨hc | hc, hn⟩
  · refine h.given (fun c hc => ?_) c (mem_callsFor.2 ⟨hc, hn⟩)
    obtain ⟨hc, hn⟩ := mem_callsFor.1 hc
    exact hlarge c ⟨.inl hc, hn⟩
  · exact hnew (fun c hc hn => hlarge c ⟨.inr hc, hn⟩) c hc hn

omit [DecidableEq ι] in
/-- The calls of a local scheduler. -/
theorem given_scheduledCalls {keyVal : Dict String Bytes} {keyLen : Dict String ℕ} {worker : ι}
    {bucketKey : BucketKey} {rs : List (TriggerObject × List TriggerAction)} (hflag : argFlag ≠ 0)
    (hsmall : ∀ name ∈ keyVal.keys, SmallAt store name)
    (hflagged : ∀ r ∈ rs, r.1.name = n → argFlagOf r.1.trigger = argFlag)
    (hlarge : ∀ c ∈ rs.flatMap (scheduledCalls setup keyVal keyLen worker bucketKey),
      c.firing.triggerName = n → Large store c.firing.action) :
    ∀ c ∈ rs.flatMap (scheduledCalls setup keyVal keyLen worker bucketKey),
      c.firing.triggerName = n → c.args = .objects argFlag c.firing.action.sessionKeys := by
  intro c hc hn
  obtain ⟨r, hr, hc⟩ := List.mem_flatMap.1 hc
  have hname : r.1.name = n := by
    obtain ⟨a, -, rfl⟩ := List.mem_map.1 hc
    exact hn
  -- every action of the trigger is one of the calls
  have hactions : ∀ action ∈ r.2, realData keyVal action = none := by
    intro action haction
    have hfiring : (⟨r.1.name, bucketKey, action⟩ : Firing) ∈
        (rs.flatMap (scheduledCalls setup keyVal keyLen worker bucketKey)).map (·.firing) := by
      rw [map_firing_scheduledCalls]
      exact List.mem_flatMap.2 ⟨r, hr, List.mem_map.2 ⟨action, haction, rfl⟩⟩
    obtain ⟨c', hc', heq⟩ := List.mem_map.1 hfiring
    have haction' := hlarge c' hc' (by rw [heq, hname])
    rw [heq] at haction'
    exact realData_eq_none hsmall haction'
  rw [scheduledCalls, hflagged r hr hname, arrivalArgs_of_large hflag hactions,
    List.zip_map_right, List.zip_eq_zipWith, List.zipWith_self] at hc
  simp only [List.map_map, List.mem_map] at hc
  obtain ⟨action, -, rfl⟩ := hc
  rfl

theorem Gives.put (h : Gives store n argFlag b) (hflag : argFlag ≠ 0) {worker : ι}
    {sessionKey : String} {now : ℕ} {body : ObjectBody} {address respAddress : Address}
    (hsized : Sized store (.put worker sessionKey now body address respAddress)) :
    Gives store n argFlag (b.put setup worker sessionKey now body address respAddress) := by
  have hpacks : PacksSmall store (b.put setup worker sessionKey now body address respAddress) :=
    h.packs.put hsized
  refine ⟨hpacks, h.coordinator, fun w => ?_, h.given_append rfl fun hlarge => ?_⟩
  · simp only [Bucket.put.eq_def, checkTrigger, Function.update_apply]
    split_ifs
    · exact (h.scheduler worker).newObject now _
    · exact h.scheduler w
  · have hsmall := hpacks.scheduler worker
    simp only [Bucket.put.eq_def, Function.update_self] at hsmall
    exact given_scheduledCalls hflag hsmall (fun r hr => (h.scheduler worker).of_mem_newObject hr)
      hlarge

theorem Gives.notified (h : Gives store n argFlag b) {worker : ι} {request : KeyNotifyRequest}
    {rest : List KeyNotifyRequest} {d : Details} {ds : List Details}
    (hn : b.triggers.notifications worker = request :: rest) (hd : b.details worker = d :: ds)
    (now : ℕ) : Gives store n argFlag (b.notified setup worker request rest d ds now) := by
  have harrived := h.packs.arrived hn hd now
  obtain ⟨nodes, seed, cs, hfold, hgiven⟩ := callActions_frame request.bucketKey d.respAddress
    (asked b.triggers request now) (b.arrived worker request rest d ds now)
  rw [Bucket.notified, hfold]
  refine ⟨⟨harrived.scheduler, harrived.coordinator, harrived.details⟩,
    h.coordinator.newObject now _, h.scheduler, h.given_append rfl fun hlarge c hc hname => ?_⟩
  obtain ⟨a, ha, hpair⟩ := List.mem_map.1 (hgiven ▸ List.mem_map.2 ⟨c, hc, rfl⟩)
  obtain ⟨hfiring, hargs⟩ := Prod.mk.inj hpair
  obtain ⟨r, hr, ha⟩ := List.mem_flatMap.1 ha
  obtain ⟨action, haction, rfl⟩ := List.mem_map.1 ha
  rw [← hfiring] at hname
  have hc := hlarge c hc (by rw [← hfiring]; exact hname)
  rw [← hfiring] at hc
  rw [← hargs, ← hfiring, notifyArgs, realData_eq_none harrived.coordinator hc,
    h.coordinator.of_mem_newObject (List.mem_of_mem_filter hr) hname]

/-- What a step gives, if the puts are about the stored objects. -/
theorem Gives.step (h : Gives store n argFlag b) (hflag : argFlag ≠ 0) {e : Event ι}
    (hsized : Sized store e) (hstep : Bucket.step setup b e = some b') :
    Gives store n argFlag b' := by
  cases e with
  | put worker sessionKey now body address respAddress =>
    obtain rfl := Option.some.inj hstep
    exact h.put hflag hsized
  | notify worker now =>
    rw [Bucket.step] at hstep
    split at hstep
    · next request rest d ds hn hd =>
      obtain rfl := Option.some.inj hstep
      exact h.notified hn hd now
    · cases hstep
  | clear worker =>
    obtain ⟨s, hs, rfl⟩ := Option.map_eq_some_iff.1 hstep
    rw [Notify.step] at hs
    cases hc : b.triggers.clears worker with
    | nil => simp [hc] at hs
    | cons msg rest =>
      simp only [hc, Option.some.injEq] at hs
      subst hs
      refine ⟨⟨h.packs.scheduler, h.packs.coordinator, h.packs.details⟩, h.coordinator,
        fun w => ?_, h.given⟩
      simp only [Function.update_apply]
      split_ifs
      · exact (h.scheduler worker).clearTriggers msg
      · exact h.scheduler w
  | updateStatus ip status =>
    rw [Bucket.step] at hstep
    split_ifs at hstep
    obtain rfl := Option.some.inj hstep
    exact ⟨⟨h.packs.scheduler, h.packs.coordinator, h.packs.details⟩, h.coordinator, h.scheduler,
      h.given⟩

omit [DecidableEq ι] in
theorem Gives.initial {triggers : State ι} (hnotifications : ∀ w, triggers.notifications w = [])
    (hcoordinator : Flagged n argFlag triggers.coordinator)
    (hscheduler : ∀ w, Flagged n argFlag (triggers.scheduler w)) (seed : σ) :
    Gives store n argFlag (.initial triggers seed) := by
  refine ⟨⟨fun w name hname => ?_, fun name hname => ?_, fun w => ?_⟩, hcoordinator, hscheduler,
    fun _ c hc => ?_⟩
  · cases hname
  · cases hname
  · rw [Bucket.initial, hnotifications]
    exact .nil
  · cases hc

omit [DecidableEq ι] in
theorem Gives.reset (h : Gives store n argFlag b) : Gives store n argFlag b.reset where
  packs := ⟨h.packs.scheduler, h.packs.coordinator, h.packs.details⟩
  coordinator := h.coordinator
  scheduler := h.scheduler
  given _ _ hc := by cases hc

/-- **In every run, if every call of a trigger has an object that is too large for a message, all of
them get the names and sessions of their objects, by the flag of the trigger.** -/
theorem Gives.exec (h : Gives store n argFlag b) (hflag : argFlag ≠ 0) {events : List (Event ι)}
    (hsized : ∀ e ∈ events, Sized store e)
    (hrun : Runs.exec (Bucket.step setup) b events = some b') : Gives store n argFlag b' :=
  Runs.exec_invariant (fun _ _ _ hs hstep hP => hP.step hflag hs hstep)
    (Runs.allowed_of_forall hsized b) hrun h

end Demeter.Coordinator.Notify.Bucket
