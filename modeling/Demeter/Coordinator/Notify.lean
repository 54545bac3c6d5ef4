import Demeter.Common.TriggerObject
import Demeter.Lib.TwoLevel

/-!
# Objects of a bucket at the local schedulers and at the coordinator

A put object is checked against the triggers of its bucket at the local scheduler
(`check_trigger` in `scheduler_server.cpp`, `check_object_arrival` in `object_handlers.cpp`), which
then notifies the coordinator with the names of the triggers that were employed.  `notify_handler`
in `notify_handler.cpp` checks the object again, skips these triggers, and tells the local
schedulers of the bucket which triggers it has employed itself, so that `try_recv_msg` in
`comm_helper.hpp` clears them.

* `step` is one put, one notification or one request to clear, for one bucket that is registered;
* a `Firing` is a function call that a trigger asks for, at a local scheduler, or at the coordinator
  if it is not skipped.  Where the coordinator sends the call is not followed;
* `Projects` relates the bucket to one trigger of it, as a machine at two levels, and
  `Projects.step` says that steps correspond.
-/

namespace Demeter.Coordinator.Notify

open Demeter.Common

/-! ### The bucket -/

/-- The notification about an object, with the triggers that are active at its local scheduler. -/
structure KeyNotifyRequest where
  bucketKey : BucketKey
  activeTriggerNames : List String
  deriving DecidableEq

/-- A request to clear triggers, one entry for each trigger. -/
structure ClearMsg where
  triggerNames : List String
  session : String
  deriving DecidableEq

/-- A call that a trigger asks for, with the object that made it do so. -/
structure Firing where
  triggerName : String
  bucketKey : BucketKey
  action : TriggerAction
  deriving DecidableEq

/-- The triggers of a bucket at the coordinator and at the local schedulers, the local schedulers
that the coordinator has heard of (`bucket_node_map`), and the messages on their way.  All firings
and the names of all objects that were put are recorded. -/
structure State (ι : Type) where
  coordinator : List TriggerObject
  scheduler : ι → List TriggerObject
  bucketNodeMap : Finset ι := ∅
  notifications : ι → List KeyNotifyRequest := fun _ => []
  clears : ι → List ClearMsg := fun _ => []
  firings : List Firing := []
  puts : List (ι × String) := []

/-- The events; the clock is read in nanoseconds. -/
inductive Event (ι : Type) where
  | put (worker : ι) (sessionKey : String) (now : ℕ)
  | notify (worker : ι) (now : ℕ)
  | clear (worker : ι)

/-- The triggers with an object, each with the actions it takes. -/
def newObject (now : ℕ) (bucketKey : BucketKey) (ts : List TriggerObject) :
    List (TriggerObject × List TriggerAction) :=
  ts.map (·.newObject now bucketKey)

/-- The firings of the triggers. -/
def firingsOf (bucketKey : BucketKey) (rs : List (TriggerObject × List TriggerAction)) :
    List Firing :=
  rs.flatMap fun r => r.2.map (⟨r.1.name, bucketKey, ·⟩)

/-- The triggers that the coordinator does not skip: a skipped one has already taken effect in the
local scheduler. -/
def effective (request : KeyNotifyRequest) (rs : List (TriggerObject × List TriggerAction)) :
    List (TriggerObject × List TriggerAction) :=
  rs.filter (·.1.name ∉ request.activeTriggerNames)

/-- The names of the triggers that the local schedulers are to clear. -/
def triggeredNames (rs : List (TriggerObject × List TriggerAction)) : List String :=
  (rs.filter fun r => r.2 ≠ [] ∧ r.1.trigger.getType ≠ .byTime).map (·.1.name)

variable {ι : Type} [DecidableEq ι]

/-- The check at a local scheduler, which returns the names of the triggers employed. -/
def checkTrigger (s : State ι) (worker : ι) (sessionKey : String) (now : ℕ) : State ι :=
  let bucketKey := BucketKey.ofSessionKey sessionKey
  let rs := newObject now bucketKey (s.scheduler worker)
  let activeTriggers := (rs.filter (·.2 ≠ [])).map (·.1.name)
  { s with
    scheduler := Function.update s.scheduler worker (rs.map (·.1))
    notifications :=
      Function.update s.notifications worker
        (s.notifications worker ++ [⟨bucketKey, activeTriggers⟩])
    firings := s.firings ++ firingsOf bucketKey rs
    puts := s.puts ++ [(worker, sessionKey)] }

/-- A notification at the coordinator. -/
def notifyHandler (s : State ι) (worker : ι) (request : KeyNotifyRequest)
    (rest : List KeyNotifyRequest) (now : ℕ) : State ι :=
  let bucketNodeMap := insert worker s.bucketNodeMap
  let rs := newObject now request.bucketKey s.coordinator
  let triggered := triggeredNames (effective request rs)
  { s with
    coordinator := rs.map (·.1)
    bucketNodeMap := bucketNodeMap
    notifications := Function.update s.notifications worker rest
    clears := fun w =>
      if triggered ≠ [] ∧ w ∈ bucketNodeMap then
        s.clears w ++ [⟨triggered, request.bucketKey.session⟩]
      else s.clears w
    firings := s.firings ++ firingsOf request.bucketKey (effective request rs) }

/-- The triggers of the given names are cleared, in the order of the names. -/
def clearTriggers (msg : ClearMsg) (ts : List TriggerObject) : List TriggerObject :=
  msg.triggerNames.foldl
    (fun ts name => ts.map fun t => if t.name = name then t.clear msg.session else t) ts

/-- One event; a notification and a request to clear need a message that is on its way. -/
def step (s : State ι) : Event ι → Option (State ι)
  | .put worker sessionKey now => some (checkTrigger s worker sessionKey now)
  | .notify worker now =>
      match s.notifications worker with
      | [] => none
      | request :: rest => some (notifyHandler s worker request rest now)
  | .clear worker =>
      match s.clears worker with
      | [] => none
      | msg :: rest =>
          some
            { s with
              scheduler :=
                Function.update s.scheduler worker (clearTriggers msg (s.scheduler worker))
              clears := Function.update s.clears worker rest }

/-- The calls of the triggers of the given name. -/
def callsOf (n : String) (s : State ι) : List TriggerAction :=
  (s.firings.filter (·.triggerName = n)).map (·.action)

/-! ### One trigger -/

/-- The trigger as a machine; its firings come with the object that made it fire. -/
def machine (t : Trigger) :
    TwoLevel.Machine TriggerState BucketKey String (BucketKey × TriggerAction) where
  new st bucketKey :=
    let r := t.actionForNewObject 0 st bucketKey
    (r.1, r.2.map (bucketKey, ·))
  clear st session := t.clear st session
  key := BucketKey.session

/-- The triggers of a list that have the given name. -/
def named (n : String) (ts : List TriggerObject) : List TriggerObject := ts.filter (·.name = n)

/-- The bucket has one trigger of the name `n`, and it is `t` in the state `a`. -/
structure Projects (n : String) (t : Trigger) (s : State ι)
    (a : TwoLevel.State ι TriggerState BucketKey String (BucketKey × TriggerAction)) : Prop where
  root : named n s.coordinator = [⟨t, a.root⟩]
  leaf : ∀ w, named n (s.scheduler w) = [⟨t, a.leaf w⟩]
  known : a.known = s.bucketNodeMap
  up : ∀ w, a.up w =
    (s.notifications w).map fun m => (m.bucketKey, decide (n ∈ m.activeTriggerNames))
  once : ∀ w, ∀ m ∈ s.clears w, m.triggerNames.count n ≤ 1
  down : ∀ w, a.down w =
    ((s.clears w).filter fun m => n ∈ m.triggerNames).map (·.session)
  fired : a.fired =
    (s.firings.filter fun f => f.triggerName = n).map fun f => (f.bucketKey, f.action)
  puts : a.puts = s.puts.map fun p => (p.1, BucketKey.ofSessionKey p.2)

/-- What an event is for one trigger. -/
def Event.abstract : Event ι → TwoLevel.Event ι BucketKey
  | .put worker sessionKey _ => .put worker (BucketKey.ofSessionKey sessionKey)
  | .notify worker _ => .up worker
  | .clear worker => .down worker

section Projection

variable {n : String} {t : Trigger}

omit [DecidableEq ι] in
/-- The entry of the trigger among all triggers with an object. -/
theorem filter_newObject (ht : t.getType ≠ .byTime) {ts : List TriggerObject} {st : TriggerState}
    (h : named n ts = [⟨t, st⟩]) (now : ℕ) (bucketKey : BucketKey) :
    (newObject now bucketKey ts).filter (fun r => r.1.name = n) =
      [(⟨t, (t.actionForNewObject 0 st bucketKey).1⟩,
        (t.actionForNewObject 0 st bucketKey).2)] := by
  rw [newObject, List.filter_map]
  have hfilter : ts.filter ((fun r => decide (r.1.name = n)) ∘ (·.newObject now bucketKey)) =
      named n ts := rfl
  rw [hfilter, h, List.map_singleton, TriggerObject.newObject,
    Trigger.actionForNewObject_now ht now 0]

omit [DecidableEq ι] in
theorem named_map_fst (rs : List (TriggerObject × List TriggerAction)) :
    named n (rs.map (·.1)) = (rs.filter fun r => r.1.name = n).map (·.1) := by
  rw [named, List.filter_map]
  rfl

omit [DecidableEq ι] in
theorem filter_firingsOf (bucketKey : BucketKey) (rs : List (TriggerObject × List TriggerAction)) :
    (firingsOf bucketKey rs).filter (fun f => f.triggerName = n) =
      firingsOf bucketKey (rs.filter fun r => r.1.name = n) := by
  induction rs with
  | nil => rfl
  | cons r rs ih =>
    rw [firingsOf, List.flatMap_cons, List.filter_append, ← firingsOf, ih]
    by_cases hr : r.1.name = n
    · simp [firingsOf, hr]
    · simp [firingsOf, hr]

omit [DecidableEq ι] in
/-- Whether a name occurs among some of the triggers is up to the triggers of that name. -/
theorem decide_mem_map_name (rs : List (TriggerObject × List TriggerAction))
    (p : TriggerObject × List TriggerAction → Bool) :
    decide (n ∈ (rs.filter p).map (·.1.name)) = (rs.filter fun r => r.1.name = n).any p := by
  rw [Bool.eq_iff_iff, decide_eq_true_iff, List.any_eq_true]
  simp only [List.mem_map, List.mem_filter, decide_eq_true_eq]
  constructor
  · rintro ⟨r, ⟨hr, hp⟩, rfl⟩
    exact ⟨r, ⟨hr, rfl⟩, hp⟩
  · rintro ⟨r, ⟨hr, hn⟩, hp⟩
    exact ⟨r, ⟨hr, hp⟩, hn⟩

omit [DecidableEq ι] in
theorem decide_eq_nil (actions : List TriggerAction) :
    decide (actions = []) = actions.isEmpty := by
  cases actions <;> rfl

variable {s s' : State ι}
  {a : TwoLevel.State ι TriggerState BucketKey String (BucketKey × TriggerAction)}

theorem Projects.checkTrigger (h : Projects n t s a) (ht : t.getType ≠ .byTime) (worker : ι)
    (sessionKey : String) (now : ℕ) :
    Projects n t (checkTrigger s worker sessionKey now)
      (TwoLevel.put (machine t) a worker (BucketKey.ofSessionKey sessionKey)) := by
  have hrs := filter_newObject ht (h.leaf worker) now (BucketKey.ofSessionKey sessionKey)
  refine ⟨h.root, fun w => ?_, h.known, fun w => ?_, h.once, h.down, ?_, ?_⟩
  · by_cases hw : w = worker
    · subst hw
      simp [Notify.checkTrigger, TwoLevel.put, machine, named_map_fst, hrs]
    · simp [Notify.checkTrigger, TwoLevel.put, hw, h.leaf]
  · by_cases hw : w = worker
    · subst hw
      simp only [Notify.checkTrigger, TwoLevel.put, machine, Function.update_self, List.map_append,
        h.up, List.map_singleton, decide_mem_map_name, hrs]
      simp [decide_eq_nil]
    · simp [Notify.checkTrigger, TwoLevel.put, hw, h.up]
  · simp only [Notify.checkTrigger, TwoLevel.put, machine, List.filter_append, List.map_append,
      h.fired, filter_firingsOf, hrs]
    simp [firingsOf, Function.comp_def]
  · simp [Notify.checkTrigger, TwoLevel.put, h.puts]

omit [DecidableEq ι] in
/-- Of the triggers that are not skipped, those of the name `n`. -/
theorem filter_effective (request : KeyNotifyRequest)
    (rs : List (TriggerObject × List TriggerAction)) :
    (effective request rs).filter (fun r => r.1.name = n) =
      if n ∈ request.activeTriggerNames then [] else rs.filter fun r => r.1.name = n := by
  rw [effective, List.filter_filter]
  split_ifs with hn
  · refine List.filter_eq_nil_iff.2 fun r _ => ?_
    simp only [Bool.and_eq_true, decide_eq_true_eq, not_and]
    rintro rfl
    simpa using hn
  · refine List.filter_congr fun r _ => ?_
    by_cases hr : r.1.name = n
    · simp [hr, hn]
    · simp [hr]

omit [DecidableEq ι] in
theorem decide_mem_triggeredNames (ht : t.getType ≠ .byTime) (request : KeyNotifyRequest)
    {rs : List (TriggerObject × List TriggerAction)} {st : TriggerState}
    {actions : List TriggerAction}
    (hrs : rs.filter (fun r => r.1.name = n) = [(⟨t, st⟩, actions)]) :
    decide (n ∈ triggeredNames (effective request rs)) =
      (!decide (n ∈ request.activeTriggerNames) && !actions.isEmpty) := by
  rw [triggeredNames, decide_mem_map_name, filter_effective, hrs]
  by_cases hn : n ∈ request.activeTriggerNames
  · simp [hn]
  · simp [hn, ht, decide_eq_nil]

omit [DecidableEq ι] in
theorem count_triggeredNames_le {request : KeyNotifyRequest}
    {rs : List (TriggerObject × List TriggerAction)} {r : TriggerObject × List TriggerAction}
    (hrs : rs.filter (fun r => r.1.name = n) = [r]) :
    (triggeredNames (effective request rs)).count n ≤ 1 := by
  have hle : (rs.filter fun r => r.1.name = n).length ≤ 1 := by simp [hrs]
  rw [triggeredNames, List.count_eq_countP, List.countP_map, effective]
  refine le_trans ?_ hle
  rw [← List.countP_eq_length_filter]
  refine le_trans List.filter_sublist.countP_le
    (List.filter_sublist.countP_le.trans (le_of_eq ?_))
  exact List.countP_congr fun r _ => by simp

theorem Projects.notifyHandler (h : Projects n t s a) (ht : t.getType ≠ .byTime) (worker : ι)
    (request : KeyNotifyRequest) (rest : List KeyNotifyRequest) (now : ℕ) :
    Projects n t (notifyHandler s worker request rest now)
      (TwoLevel.notify (machine t) a worker request.bucketKey
        (decide (n ∈ request.activeTriggerNames))
        (rest.map fun m => (m.bucketKey, decide (n ∈ m.activeTriggerNames)))) := by
  have hrs := filter_newObject ht h.root now request.bucketKey
  have hmem := decide_mem_triggeredNames ht request hrs
  refine ⟨?_, h.leaf, ?_, fun w => ?_, fun w m hm => ?_, fun w => ?_, ?_, h.puts⟩
  · simp [Notify.notifyHandler, TwoLevel.notify, machine, named_map_fst, hrs]
  · simp [Notify.notifyHandler, TwoLevel.notify, h.known]
  · by_cases hw : w = worker
    · subst hw
      simp [Notify.notifyHandler, TwoLevel.notify]
    · simp [Notify.notifyHandler, TwoLevel.notify, hw, h.up]
  · simp only [Notify.notifyHandler] at hm
    split_ifs at hm
    · -- the new message lists the names that this object has triggered
      obtain hm | hm := List.mem_append.1 hm
      · exact h.once w m hm
      · rw [List.mem_singleton.1 hm]
        exact count_triggeredNames_le hrs
    · exact h.once w m hm
  · simp only [Notify.notifyHandler, TwoLevel.notify, machine, List.isEmpty_map, ← hmem, h.known,
      decide_eq_true_eq]
    by_cases hn : n ∈ triggeredNames
        (effective request (newObject now request.bucketKey s.coordinator))
    · simp only [hn, List.ne_nil_of_mem hn, true_and, ne_eq, not_false_eq_true]
      split_ifs <;> simp [h.down, hn]
    · rw [if_neg fun hw => hn hw.1, h.down]
      split_ifs <;> simp [hn]
  · simp only [Notify.notifyHandler, TwoLevel.notify, machine, List.isEmpty_map, List.filter_append,
      List.map_append, h.fired, filter_firingsOf, filter_effective, hrs]
    by_cases hn : n ∈ request.activeTriggerNames
    · simp [hn, firingsOf]
    · cases hactions : (t.actionForNewObject 0 a.root request.bucketKey).2 with
      | nil => simp [firingsOf]
      | cons action actions => simp [hn, firingsOf, Function.comp_def]

omit [DecidableEq ι] in
/-- The trigger is cleared as often as its name is listed. -/
theorem named_clearTriggers (msg : ClearMsg) (ts : List TriggerObject) :
    named n (clearTriggers msg ts) =
      (named n ts).map (TriggerObject.clear msg.session)^[msg.triggerNames.count n] := by
  obtain ⟨names, session⟩ := msg
  rw [clearTriggers]
  induction names generalizing ts with
  | nil => simp
  | cons name names ih =>
    have hone : named n (ts.map fun t => if t.name = name then t.clear session else t) =
        (named n ts).map (TriggerObject.clear session)^[if name = n then 1 else 0] := by
      have hname : ∀ t : TriggerObject,
          (if t.name = name then t.clear session else t).name = t.name := by
        intro t
        split_ifs <;> rfl
      simp only [named, List.filter_map, Function.comp_def, hname]
      refine List.map_congr_left fun t ht => ?_
      obtain rfl : t.name = n := by simpa using (List.mem_filter.1 ht).2
      by_cases h : t.name = name
      · simp [h]
      · simp [h, Ne.symm h]
    rw [List.foldl_cons, ih, hone, List.map_map, ← Function.iterate_add, List.count_cons]
    simp only [beq_iff_eq]

theorem Projects.clearTriggers (h : Projects n t s a) {worker : ι} {msg : ClearMsg}
    {rest : List ClearMsg} (hmsg : s.clears worker = msg :: rest)
    (hs' : s' = { s with
      scheduler := Function.update s.scheduler worker (clearTriggers msg (s.scheduler worker))
      clears := Function.update s.clears worker rest }) :
    Projects n t s' a ∨ ∃ rest', a.down worker = msg.session :: rest' ∧
      Projects n t s' (TwoLevel.clear (machine t) a worker msg.session rest') := by
  have honce : msg.triggerNames.count n ≤ 1 := h.once worker msg (by simp [hmsg])
  have hdown := h.down worker
  rw [hmsg] at hdown
  have hrest : ∀ w, ∀ m ∈ Function.update s.clears worker rest w, m ∈ s.clears w := by
    intro w m hm
    rw [Function.update_apply] at hm
    split_ifs at hm with hw
    · rw [hw, hmsg]
      exact List.mem_cons_of_mem _ hm
    · exact hm
  subst hs'
  by_cases hn : n ∈ msg.triggerNames
  · -- the message lists the name once, so one clear is taken
    right
    have hcount : msg.triggerNames.count n = 1 :=
      le_antisymm honce (List.count_pos_iff.2 hn)
    refine ⟨(rest.filter fun m => n ∈ m.triggerNames).map (·.session), by simpa [hn] using hdown,
      h.root, fun w => ?_, h.known, h.up, fun w m hm => h.once w m (hrest w m hm), fun w => ?_,
      h.fired, h.puts⟩
    · by_cases hw : w = worker
      · subst hw
        simp [TwoLevel.clear, machine, named_clearTriggers, hcount, h.leaf, TriggerObject.clear]
      · simp [TwoLevel.clear, hw, h.leaf]
    · by_cases hw : w = worker
      · subst hw
        simp [TwoLevel.clear]
      · simp [TwoLevel.clear, hw, h.down]
  · left
    have hcount : msg.triggerNames.count n = 0 := List.count_eq_zero.2 hn
    refine ⟨h.root, fun w => ?_, h.known, h.up, fun w m hm => h.once w m (hrest w m hm),
      fun w => ?_, h.fired, h.puts⟩
    · by_cases hw : w = worker
      · subst hw
        simp [named_clearTriggers, hcount, h.leaf]
      · simp [hw, h.leaf]
    · by_cases hw : w = worker
      · subst hw
        simpa [hn] using hdown
      · simp [hw, h.down]

/-- **A step of the bucket is a step of the trigger, or does not concern it.** -/
theorem Projects.step (h : Projects n t s a) (ht : t.getType ≠ .byTime) {e : Event ι}
    (hstep : step s e = some s') :
    ∃ a', Projects n t s' a' ∧
      (a' = a ∨ TwoLevel.step (machine t) a e.abstract = some a') := by
  cases e with
  | put worker sessionKey now =>
    obtain rfl := Option.some.inj hstep
    exact ⟨_, h.checkTrigger ht worker sessionKey now, .inr rfl⟩
  | notify worker now =>
    rw [Notify.step] at hstep
    cases hn : s.notifications worker with
    | nil => simp [hn] at hstep
    | cons request rest =>
      simp only [hn, Option.some.injEq] at hstep
      obtain rfl := hstep
      refine ⟨_, h.notifyHandler ht worker request rest now, .inr (TwoLevel.step_up ?_)⟩
      rw [h.up, hn]
      rfl
  | clear worker =>
    rw [Notify.step] at hstep
    cases hc : s.clears worker with
    | nil => simp [hc] at hstep
    | cons msg rest =>
      simp only [hc, Option.some.injEq] at hstep
      obtain hsame | ⟨rest', hdown, hclear⟩ := h.clearTriggers hc hstep.symm
      · exact ⟨a, hsame, .inl rfl⟩
      · exact ⟨_, hclear, .inr (TwoLevel.step_down hdown)⟩

/-! ### Installed triggers -/

/-- The bucket in which nothing has happened yet. -/
def initial (coordinator : List TriggerObject) (scheduler : ι → List TriggerObject) : State ι where
  coordinator := coordinator
  scheduler := scheduler

/-- The records start again. -/
def reset (s : State ι) : State ι := { s with firings := [], puts := [] }

/-- The trigger `t` is installed everywhere, and no other trigger of the bucket has its name. -/
structure Installed (t : Trigger) (coordinator : List TriggerObject)
    (scheduler : ι → List TriggerObject) : Prop where
  coordinator : named t.triggerName coordinator = [⟨t, {}⟩]
  scheduler : ∀ w, named t.triggerName (scheduler w) = [⟨t, {}⟩]

omit [DecidableEq ι] in
theorem Installed.projects {coordinator : List TriggerObject} {scheduler : ι → List TriggerObject}
    (h : Installed t coordinator scheduler) :
    Projects t.triggerName t (initial coordinator scheduler)
      ⟨{}, fun _ => {}, ∅, fun _ => [], fun _ => [], [], []⟩ where
  root := h.coordinator
  leaf := h.scheduler
  known := rfl
  up _ := rfl
  once _ _ hm := by simp [initial] at hm
  down _ := rfl
  fired := rfl
  puts := rfl

end Projection

end Demeter.Coordinator.Notify
