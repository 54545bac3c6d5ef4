import Demeter.Scheduler.Conservation

/-!
# The functions that a node has

What a node has of a requested function keeps the name of the function: the calls in its delay
queue, what its triggers keep, and the messages that leave it.

* `Named` is the invariant, for any property of ids and names that the scheduled calls have;
* `heldNames` are the names of the requested functions that a node still has, `forwardedNames` those
  that it has passed on;
* `functions_le_held` and `held_le_functions` compare them with the functions that it was asked for.
-/

namespace Demeter.Scheduler

open Demeter.Coordinator (FunctionCall)
open Demeter.Executor (encodeCall)

/-- A message is for a function of this name. -/
def Outgoing.IsFor {n : ℕ} (env : Env) (name : String) : Outgoing n → Prop
  | .executor _ msg => ∃ clientAddr cpuCores memoryMb sessionId args argFlag,
      msg = encodeCall env.toStringDouble clientAddr cpuCores memoryMb sessionId (utf8 name) args
        argFlag
  | .coordinator call => call.requests.map (·.name) = [name]

namespace Node

variable {n : ℕ} {cfg : Config} {env : Env} {s s' : Node n}

/-! ### The invariant -/

/-- What is for a requested function has a name that the function has. -/
def For (P : ℕ → String → Prop) (origin : Option ℕ) (name : String) : Prop :=
  ∀ c, origin = some c → P c name

/-- Everything that the node has of a requested function has a name of the function. -/
structure Named (env : Env) (P : ℕ → String → Prop) (s : Node n) : Prop where
  delayed : ∀ d ∈ s.delayCallQueue, For P d.call.origin d.call.funcName
  kept : ∀ t ∈ s.triggers, t.Caches fun m => For P m.origin m.funcName
  sent : ∀ m ∈ s.sent, ∀ c, m.origin = some c → ∃ name, P c name ∧ m.message.IsFor env name

variable {P : ℕ → String → Prop}

theorem Named.mono (h : Named env P s) {Q : ℕ → String → Prop}
    (hPQ : ∀ c name, P c name → Q c name) : Named env Q s where
  delayed d hd c hc := hPQ _ _ (h.delayed d hd c hc)
  kept t ht k m hm c hc := hPQ _ _ (h.kept t ht k m hm c hc)
  sent m hm c hc := by
    obtain ⟨name, hname, hfor⟩ := h.sent m hm c hc
    exact ⟨name, hPQ _ _ hname, hfor⟩

/-- A step that changes neither the queue nor the triggers nor the messages. -/
theorem Named.of_eq (h : Named env P s) (hqueue : s'.delayCallQueue = s.delayCallQueue)
    (htriggers : s'.triggers = s.triggers) (hsent : s'.sent = s.sent) : Named env P s' where
  delayed := hqueue ▸ h.delayed
  kept := htriggers ▸ h.kept
  sent := hsent ▸ h.sent

theorem Named.modify_triggers (h : Named env P s) {f : RerunTrigger → RerunTrigger}
    (hf : ∀ t : RerunTrigger, t.Caches (fun m => For P m.origin m.funcName) →
      (f t).Caches fun m => For P m.origin m.funcName) (i : ℕ) (queue : List RerunCheckQueueItem) :
    Named env P { s with triggers := s.triggers.modify i f, rerunCheckQueue := queue } where
  delayed := h.delayed
  kept := forall_mem_modify h.kept hf i
  sent := h.sent

theorem Named.send (h : Named env P s) {m : Sent n} {name : String} (hm : For P m.origin name)
    (hfor : m.message.IsFor env name) (warm : String → Finset (Fin n))
    (status : Fin n → ExecutorStatus) :
    Named env P { s with
      functionExecutorMap := warm, status := status, sent := s.sent ++ [m] } where
  delayed := h.delayed
  kept := h.kept
  sent := by
    intro m' hm' c hc
    obtain hm' | hm' := List.mem_append.1 hm'
    · exact h.sent m' hm' c hc
    · obtain rfl := List.mem_singleton.1 hm'
      exact ⟨name, hm c hc, hfor⟩

theorem Named.dispatch (h : Named env P s) (now : ℕ) {c : ScheduledCall}
    (hc : For P c.origin c.funcName) (e : Fin n) : Named env P (s.dispatch env now c e) := by
  have hsent := h.send (m := ⟨c.origin, .executor e (encodeCall env.toStringDouble
    (s.clientAddr c.sessionId) c.cpuCores c.memoryMb (utf8 c.sessionId) (utf8 c.funcName)
    c.funcArgs c.argFlag)⟩) hc ⟨_, _, _, _, _, _, rfl⟩
    (Function.update s.functionExecutorMap c.funcName (insert e (s.functionExecutorMap c.funcName)))
    (Function.update s.status e .await)
  unfold Node.dispatch notifySources
  exact Runs.foldl_invariant (P := Named env P)
    (fun s' rerunMeta _ hs' => hs'.modify_triggers
      (fun t ht => RerunTrigger.Caches.notifySourceFunc ht c.sessionId hc) _ _)
    (Runs.along_true _ _) hsent

theorem Named.forward (h : Named env P s) {keyLenMap : Dict Bytes ℕ} {origin : Option ℕ}
    {sessionId appName name : String} {args : List Bytes} {argFlag : ℕ}
    (horigin : For P origin name)
    (hs' : s.forward cfg env keyLenMap origin sessionId appName [(name, args)] argFlag = some s') :
    Named env P s' := by
  obtain ⟨call, -, hnames, rfl⟩ := exists_of_forward hs'
  exact h.send (m := ⟨origin, .coordinator call⟩) horigin hnames _ _

theorem Named.scheduleFuncCall (h : Named env P s) {now : ℕ} {keyLenMap : Dict Bytes ℕ}
    {c : ScheduledCall} (hc : For P c.origin c.funcName)
    (hs' : s.scheduleFuncCall cfg env now keyLenMap c = some s') : Named env P s' := by
  unfold Node.scheduleFuncCall at hs'
  split at hs'
  · obtain rfl := Option.some.inj hs'
    exact h.dispatch now hc _
  · split_ifs at hs' with hpos hreject
    · obtain rfl := Option.some.inj hs'
      refine ⟨fun d hd => ?_, h.kept, h.sent⟩
      obtain hd | hd := List.mem_append.1 hd
      · exact h.delayed d hd
      · obtain rfl := List.mem_singleton.1 hd
        exact hc
    · obtain rfl := Option.some.inj hs'
      exact h
    · obtain ⟨args, -, hs'⟩ := Option.bind_eq_some_iff.1 hs'
      exact h.forward hc hs'

theorem Named.withQueue (h : Named env P s) {queue : List DelayFunctionCall}
    (hqueue : ∀ d ∈ queue, For P d.call.origin d.call.funcName) :
    Named env P { s with delayCallQueue := queue } :=
  ⟨hqueue, h.kept, h.sent⟩

theorem Named.delayDispatch (h : Named env P s) {now k : ℕ}
    (hs' : s.delayDispatch cfg env now k = some s') : Named env P s' := by
  induction k generalizing s with
  | zero =>
    obtain rfl := Option.some.inj hs'
    exact h
  | succ k ih =>
    cases hq : s.delayCallQueue with
    | nil =>
      simp only [Node.delayDispatch, hq, Option.some.injEq] at hs'
      exact hs' ▸ h
    | cons d rest =>
      simp only [Node.delayDispatch, hq] at hs'
      obtain ⟨mid, hmid, hs'⟩ := Option.bind_eq_some_iff.1 hs'
      have hnamed := h.scheduleFuncCall (h.delayed d (hq ▸ List.mem_cons_self)) hmid
      exact ih (hnamed.withQueue fun d' hd' => hnamed.delayed d' (List.mem_of_mem_tail hd')) hs'

theorem Named.delayForward {now : ℕ} {queue : List DelayFunctionCall} (h : Named env P s)
    (hqueue : ∀ d ∈ queue, For P d.call.origin d.call.funcName)
    (hs' : s.delayForward cfg env now queue = some s') : Named env P s' := by
  induction queue generalizing s with
  | nil =>
    obtain rfl := Option.some.inj hs'
    exact h.withQueue hqueue
  | cons d ds ih =>
    obtain ⟨hd, hds⟩ := List.forall_mem_cons.1 hqueue
    rw [Node.delayForward] at hs'
    split_ifs at hs'
    · exact ih h hds hs'
    · obtain ⟨mid, hmid, hs'⟩ := Option.bind_eq_some_iff.1 hs'
      exact ih (h.forward hd hmid) hds hs'
    · obtain rfl := Option.some.inj hs'
      exact h.withQueue hqueue

theorem Named.rerun (h : Named env P s) {now : ℕ} {sessionId : String}
    {m : TriggerFunctionMetadata} (hm : For P m.origin m.funcName)
    (hs' : s.rerun cfg env now sessionId m = some s') : Named env P s' := by
  have htouched : Named env P { s with
      table := { s.table with funcAppMap := s.table.funcAppMap.touch m.funcName "" } } :=
    h.of_eq rfl rfl rfl
  exact htouched.scheduleFuncCall hm hs'

theorem Named.rerunCheck (h : Named env P s) {now i j : ℕ}
    (hs' : s.rerunCheck cfg env now i j = some s') : Named env P s' := by
  obtain ⟨item, hitem, hs'⟩ := Option.bind_eq_some_iff.1 hs'
  obtain ⟨u, -, hs'⟩ := Option.bind_eq_some_iff.1 hs'
  obtain ⟨mid, hmid, hs'⟩ := Option.bind_eq_some_iff.1 hs'
  obtain ⟨popped, -, hs'⟩ := Option.bind_eq_some_iff.1 hs'
  obtain ⟨u', -, hs'⟩ := Option.bind_eq_some_iff.1 hs'
  obtain rfl := Option.some.inj hs'
  have hfuncs : ∀ m ∈ s.rerunFuncs i, For P m.origin m.funcName := by
    intro m hm
    simp only [rerunFuncs, hitem] at hm
    split at hm
    · cases hm
    · next t ht => exact RerunTrigger.Caches.actionForRerun (h.kept t (List.mem_of_getElem? ht)) hm
  have hmid' := Runs.exec_invariant (P := Named env P)
    (fun s₁ m s₂ hm hs₂ hs₁ => hs₁.rerun hm hs₂)
    (Runs.allowed_of_forall hfuncs s) hmid h
  exact hmid'.of_eq rfl rfl rfl

/-- The function with this id was handed over under this name. -/
def HandedAs (s : Node n) (c : ℕ) (name : String) : Prop :=
  ∃ h ∈ s.table.handOffs, h.callId = c ∧ h.funcName = name

theorem Named.step (h : Named env (HandedAs s) s) {event : Event n}
    (hs : Counted s.requested s.table) (hs' : s.step cfg env event = some s') :
    Named env (HandedAs s') s' := by
  obtain ⟨ids, hadvance⟩ := exists_advance hs hs'
  have hmono : ∀ c name, HandedAs s c name → HandedAs s' c name := by
    rintro c name ⟨h, hh, hc, hname⟩
    exact ⟨h, hadvance.handOffs.subset hh, hc, hname⟩
  have hnone : ∀ {Q : ℕ → String → Prop} {name : String}, For Q none name := by
    intro Q name c hc
    cases hc
  have hold := h.mono hmono
  cases event with
  | message now event =>
    have hplacing := placing_exec (fun s (h : HandOff) s'
      (hs' : s.scheduleHandOff cfg env now h = some s') => (placing_scheduleFuncCall hs').1) hs'
    obtain ⟨apps, htable⟩ := hplacing.table
    have hhanded : ∀ h ∈ s.handedOver env event, HandedAs s' h.callId h.funcName := by
      intro h hh
      have hmem : h ∈ (s.received env event).table.handOffs := List.mem_of_mem_drop hh
      exact ⟨h, by rw [htable]; exact hmem, rfl, rfl⟩
    have hreceived : Named env (HandedAs s') (s.received env event) := hold.of_eq rfl rfl rfl
    exact Runs.exec_invariant (P := Named env (HandedAs s'))
      (fun s₁ h s₂ hh hs₂ hs₁ => hs₁.scheduleFuncCall
        (fun c hc => Option.some.inj hc ▸ hh) hs₂)
      (Runs.allowed_of_forall hhanded _) hs' hreceived
  | invoke now sessionId appName funcName funcArgs argFlag =>
    exact hold.scheduleFuncCall hnone hs'
  | forwardBatch sessionId appName funcs argFlag =>
    rw [Node.step] at hs'
    split_ifs at hs'
    · obtain rfl := Option.some.inj hs'
      exact h
    · obtain ⟨call, -, -, rfl⟩ := exists_of_forward hs'
      refine ⟨hold.delayed, hold.kept, fun m hm c hc => ?_⟩
      obtain hm | hm := List.mem_append.1 hm
      · exact hold.sent m hm c hc
      · obtain rfl := List.mem_singleton.1 hm
        cases hc
  | executorStatus e status =>
    obtain rfl := Option.some.inj hs'
    exact hold.of_eq rfl rfl rfl
  | addTrigger trigger hints =>
    obtain rfl := Option.some.inj hs'
    refine ⟨hold.delayed, fun t ht => ?_, hold.sent⟩
    obtain ht | ht := List.mem_append.1 ht
    · exact hold.kept t ht
    · obtain rfl := List.mem_singleton.1 ht
      exact RerunTrigger.caches_init _ _
  | newObject trigger sessionId key =>
    obtain rfl := Option.some.inj hs'
    exact hold.modify_triggers (fun t ht => ht.newObject sessionId key) trigger s.rerunCheckQueue
  | clear trigger sessionId =>
    obtain rfl := Option.some.inj hs'
    exact hold.modify_triggers (fun t ht => ht.clear sessionId) trigger s.rerunCheckQueue
  | delayDispatch now => exact hold.delayDispatch hs'
  | delayForward now => exact hold.delayForward hold.delayed hs'
  | rerunCheck now i j => exact hold.rerunCheck hs'

/-! ### The names -/

theorem named_init : Named env P ({} : Node n) where
  delayed d hd := by cases hd
  kept t ht := by cases ht
  sent m hm := by cases hm

theorem named_run {events : List (Event n)}
    (hrun : Runs.exec (step cfg env) {} events = some s) : Named env (HandedAs s) s := by
  obtain ⟨-, hnamed⟩ := Runs.exec_invariant
    (P := fun s => Counted s.requested s.table ∧ Named env (HandedAs s) s)
    (fun s e s' _ hs' hs => by
      obtain ⟨ids, hadvance⟩ := exists_advance hs.1 hs'
      exact ⟨hadvance.counted, hs.2.step hs.1 hs'⟩)
    (Runs.allowed_true _ _) hrun
    ⟨counted_init, named_init⟩
  exact hnamed

/-- The functions that wait for data. -/
def waitingNames (s : Node n) : Multiset String :=
  (s.table.callIdInflightArgsMap.entries.map (·.2.funcName) : List String)

/-- The requested functions in the delay queue. -/
def delayedNames (s : Node n) : Multiset String :=
  ((s.delayCallQueue.filter (·.call.origin.isSome)).map (·.call.funcName) : List String)

/-- The name under which a function was handed over. -/
def nameOf (s : Node n) (c : ℕ) : String :=
  ((s.table.handOffs.find? (·.callId = c)).map (·.funcName)).getD ""

/-- The function that a message starts. -/
def startedName (s : Node n) (m : Sent n) : List String :=
  match m.message, m.origin with
  | .executor _ _, some c => [s.nameOf c]
  | _, _ => []

/-- The functions of a message to the coordinator: one requested function, or some that a put
started. -/
def Sent.names (requested : Bool) (m : Sent n) : List String :=
  match m.message with
  | .executor _ _ => []
  | .coordinator call => if m.origin.isSome = requested then call.requests.map (·.name) else []

/-- The requested functions that executors were told to execute. -/
def startedNames (s : Node n) : Multiset String := (s.sent.flatMap s.startedName : List String)

/-- The functions of the messages to the coordinator. -/
def forwardedNames (requested : Bool) (s : Node n) : Multiset String :=
  (s.sent.flatMap (Sent.names requested) : List String)

theorem Counted.nodup_handOffs {req : Dict ℕ (Float × ℕ)} {st : State} (h : Counted req st) :
    (st.handOffs.map (·.callId)).Nodup := by
  have hnodup := h.nodup
  rw [State.functions, Multiset.map_add, Multiset.map_coe, Multiset.map_coe, List.map_map,
    List.map_map, Multiset.coe_add, Multiset.coe_nodup] at hnodup
  exact (List.nodup_append.1 hnodup).2.1

theorem find?_callId {l : List HandOff} (hl : (l.map (·.callId)).Nodup) {h : HandOff}
    (hh : h ∈ l) : l.find? (·.callId = h.callId) = some h := by
  induction l with
  | nil => cases hh
  | cons x l ih =>
    obtain ⟨hx, hl⟩ := List.nodup_cons.1 hl
    obtain rfl | hh := List.mem_cons.1 hh
    · exact List.find?_cons_of_pos (by simp)
    · have hne : x.callId ≠ h.callId := fun heq => hx (List.mem_map.2 ⟨h, hh, heq.symm⟩)
      rw [List.find?_cons_of_neg (by simpa using hne)]
      exact ih hl hh

theorem nameOf_eq (hs : Counted s.requested s.table) {c : ℕ} {name : String}
    (h : HandedAs s c name) : s.nameOf c = name := by
  obtain ⟨x, hx, rfl, rfl⟩ := h
  rw [nameOf, find?_callId (Counted.nodup_handOffs hs) hx]
  rfl

theorem map_nameOf_handedIds (hs : Counted s.requested s.table) :
    s.handedIds.map s.nameOf = (s.table.handOffs.map (·.funcName) : List String) := by
  rw [handedIds, Multiset.map_coe, List.map_map]
  refine congrArg _ (List.map_congr_left fun h hh => ?_)
  exact nameOf_eq hs ⟨h, hh, rfl, rfl⟩

theorem map_nameOf_delayed (hs : Counted s.requested s.table) {queue : List DelayFunctionCall}
    (hqueue : ∀ d ∈ queue, For (HandedAs s) d.call.origin d.call.funcName) :
    (queue.filterMap (·.call.origin)).map s.nameOf =
      (queue.filter (·.call.origin.isSome)).map (·.call.funcName) := by
  induction queue with
  | nil => rfl
  | cons d queue ih =>
    obtain ⟨hd, hqueue⟩ := List.forall_mem_cons.1 hqueue
    cases ho : d.call.origin with
    | none => simpa [ho] using ih hqueue
    | some c => simpa [ho, nameOf_eq hs (hd c ho)] using ih hqueue

/-- A message about a requested function starts it or passes it on. -/
theorem map_nameOf_sent (hs : Counted s.requested s.table) {l : List (Sent n)}
    (hl : ∀ m ∈ l, ∀ c, m.origin = some c → ∃ name, HandedAs s c name ∧ m.message.IsFor env name) :
    (((l.filterMap (·.origin)).map s.nameOf : List String) : Multiset String) =
      (l.flatMap s.startedName : List String) + (l.flatMap (Sent.names true) : List String) := by
  induction l with
  | nil => rfl
  | cons m l ih =>
    obtain ⟨hm, hl⟩ := List.forall_mem_cons.1 hl
    have hhead : ((m.origin.toList.map s.nameOf : List String) : Multiset String) =
        (s.startedName m : List String) + (Sent.names true m : List String) := by
      obtain ⟨origin, message⟩ := m
      cases origin with
      | none => cases message <;> rfl
      | some c =>
        obtain ⟨name, hname, hfor⟩ := hm c rfl
        cases message with
        | executor e msg => rfl
        | coordinator call =>
          have hcall : call.requests.map (·.name) = [name] := hfor
          show (([s.nameOf c] : List String) : Multiset String) =
            0 + ((call.requests.map (·.name) : List String) : Multiset String)
          rw [hcall, nameOf_eq hs hname, zero_add]
    have hcons : (m :: l).filterMap (·.origin) = m.origin.toList ++ l.filterMap (·.origin) := by
      cases ho : m.origin <;> simp [ho]
    rw [hcons, List.map_append, List.flatMap_cons, List.flatMap_cons, ← Multiset.coe_add,
      ← Multiset.coe_add, ← Multiset.coe_add, hhead, ih hl, add_add_add_comm]

theorem map_nameOf_placedIds (hs : Counted s.requested s.table)
    (hnamed : Named env (HandedAs s) s) :
    s.placedIds.map s.nameOf = s.delayedNames + s.startedNames + s.forwardedNames true := by
  rw [placedIds, placed, Multiset.filterMap_add, Multiset.map_add, Multiset.filterMap_coe,
    Multiset.filterMap_coe, Multiset.map_coe, Multiset.map_coe, List.filterMap_map,
    List.filterMap_map, add_assoc]
  exact congrArg₂ _ (congrArg _ (map_nameOf_delayed hs hnamed.delayed))
    (map_nameOf_sent hs hnamed.sent)

/-- The requested functions that a node still has: they wait, or executors were told to execute
them. -/
def heldNames (s : Node n) : Multiset String := s.waitingNames + s.delayedNames + s.startedNames

theorem map_snd_functions (s : Node n) :
    s.table.functions.map Prod.snd =
      s.waitingNames + (s.table.handOffs.map (·.funcName) : List String) := by
  rw [State.functions, Multiset.map_add, Multiset.map_coe, Multiset.map_coe, List.map_map,
    List.map_map]
  rfl

theorem functions_le_held (hr : cfg.rejectExtraReq = false) {events : List (Event n)}
    (hrun : Runs.exec (step cfg env) {} events = some s) :
    s.table.functions.map Prod.snd ≤ s.heldNames + s.forwardedNames true := by
  have hs := counted_run hrun
  have hle := Multiset.map_le_map (f := s.nameOf) (handedIds_le_placedIds hr hrun)
  rw [map_nameOf_handedIds hs, map_nameOf_placedIds hs (named_run hrun)] at hle
  rw [map_snd_functions, heldNames, add_assoc, add_assoc, ← add_assoc s.delayedNames]
  exact add_le_add_right hle _

theorem held_le_functions {events : List (Event n)} (he : ∀ e ∈ events, ¬ e.IsRerun)
    (hrun : Runs.exec (step cfg env) {} events = some s) :
    s.heldNames + s.forwardedNames true ≤ s.table.functions.map Prod.snd := by
  have hs := counted_run hrun
  have hle := Multiset.map_le_map (f := s.nameOf) (placedIds_le_handedIds he hrun)
  rw [map_nameOf_handedIds hs, map_nameOf_placedIds hs (named_run hrun)] at hle
  rw [map_snd_functions, heldNames, add_assoc, add_assoc, ← add_assoc s.delayedNames]
  exact add_le_add_right hle _

end Node

end Demeter.Scheduler
