import Demeter.Coordinator.Messages
import Demeter.Coordinator.Notify
import Demeter.Scheduler.Messages
import Demeter.Lib.Runs
import Demeter.Lib.Split

/-!
# The calls that triggers make

What becomes of the functions that the triggers of a bucket ask for.  `check_object_arrival` in
`object_handlers.cpp` collects the arguments of a call at a local scheduler, which schedules it
itself.  `notify_handler` in `notify_handler.cpp` builds the message for a node: one that has data
of the call and a free executor, or any node with a free executor.  If there is none, the call is
dropped, although the trigger has given up its objects.

* `Bucket.step` is a put, a notification, a request to clear or the report of a node;
  `Bucket.step_triggers` says that the triggers do what they do in `Notify`;
* every firing has become a call (`Recorded`), and `callActions_spec` says how many calls are
  dropped: those for which there are not enough free executors;
* `made_iff_served` says when no call is dropped in a run.

The order in which a `set` is iterated is that of the insertions; no result depends on it.
-/

namespace Demeter.Coordinator.Notify

open Demeter.Common
open Demeter.Scheduler (Bytes utf8 toStringNat)

/-! ### Arguments -/

/-- What a put message has of its object: the value if it is packed, else the size. -/
inductive ObjectBody where
  | packed (value : Bytes)
  | large (size : ℕ)
  deriving DecidableEq

/-- The arguments of a call, as plain values (`arg_flag` 0) or as the objects of these sessions and
keys. -/
inductive CallArgs where
  | values (vs : List Bytes)
  | objects (argFlag : ℕ) (sessionKeys : List (String × String))
  deriving DecidableEq

/-- The key and the session together. -/
def keySessionName (k : String × String) : String := k.2 ++ k.1

/-- The values of all objects of an action, if all are known. -/
def realData (keyVal : Dict String Bytes) (action : TriggerAction) : Option (List Bytes) :=
  action.sessionKeys.mapM fun k => keyVal.get? (keySessionName k)

/-- `arg_flag` of a trigger. -/
def argFlagOf (t : Trigger) : ℕ := ((t.triggerOption.toInt + 1) % 2 ^ 32).toNat

/-- The arguments at the coordinator. -/
def notifyArgs (keyVal : Dict String Bytes) (argFlag : ℕ) (action : TriggerAction) : CallArgs :=
  match realData keyVal action with
  | some vs => .values vs
  | none => .objects argFlag action.sessionKeys

section Arrival

variable (bucket : String) (keyVal : Dict String Bytes) (keyLen : Dict String ℕ)

/-- The arguments of the actions of one trigger at a local scheduler.  The flag is shared by all of
them: after an action with real data, the names and sizes of the others count as values. -/
def arrivalArgs : ℕ → List TriggerAction → List CallArgs
  | _, [] => []
  | argFlag, action :: actions =>
      match realData keyVal action with
      | some vs => .values vs :: arrivalArgs 0 actions
      | none =>
          let args :=
            if argFlag = 0 then
              .values (action.sessionKeys.flatMap fun k =>
                [utf8 (bucket ++ "|" ++ keySessionName k),
                  toStringNat ((keyLen.get? (keySessionName k)).getD 0)])
            else .objects argFlag action.sessionKeys
          args :: arrivalArgs argFlag actions

end Arrival

/-! ### Nodes -/

/-- Keep the node with the most free executors so far. -/
def pickWorker (best : ℤ × Address) (node : Address × ℤ) : ℤ × Address :=
  if node.2 > best.1 then (node.2, node.1) else best

/-- The node for a call, empty if no executor is free; looking for the nodes with data enters them
into the table. -/
def routedWorker (dataNode : List Address) (nodes : Dict Address NodeStatus) :
    Dict Address NodeStatus × Address :=
  let nodes := dataNode.foldl (fun d ip => d.touch ip { availExecutors := 0 }) nodes
  let near := (dataNode.map fun ip => (ip, (nodes.get? ip).elim 0 (·.availExecutors))).foldl
    pickWorker (0, "")
  if near.2 = "" then
    (nodes, ((nodes.entries.map fun e => (e.1, e.2.availExecutors)).foldl pickWorker near).2)
  else (nodes, near.2)

/-- The address of a node in the address of one of its data servers, `tcp://ip:port`. -/
def ipOf (address : Address) : Address :=
  String.ofList ((address.toList.drop 6).takeWhile (· ≠ ':'))

/-- The free executors of all nodes. -/
def freeExecutors (nodes : Dict Address NodeStatus) : ℕ :=
  (nodes.values.map (·.availExecutors.toNat)).sum

/-- There is no free executor without an address. -/
def Named (nodes : Dict Address NodeStatus) : Prop :=
  ∀ st ∈ nodes.get? "", st.availExecutors ≤ 0

section Nodes

variable {nodes : Dict Address NodeStatus}

theorem freeExecutors_touch (nodes : Dict Address NodeStatus) (ip : Address) :
    freeExecutors (nodes.touch ip { availExecutors := 0 }) = freeExecutors nodes := by
  unfold Dict.touch
  split_ifs with hip
  · rfl
  · simp [freeExecutors, Dict.values, Dict.entries_set_of_notMem hip]

theorem Named.touch (h : Named nodes) (ip : Address) :
    Named (nodes.touch ip { availExecutors := 0 }) := by
  unfold Dict.touch
  split_ifs with hip
  · exact h
  · intro st hst
    rw [Option.mem_def, Dict.get?_set] at hst
    split_ifs at hst
    · obtain rfl := Option.some.inj hst
      exact le_rfl
    · exact h st hst

theorem freeExecutors_modify {ip : Address} {st : NodeStatus} (h : nodes.get? ip = some st)
    (hpos : 0 < st.availExecutors) :
    freeExecutors (nodes.modify ip fun st => { st with availExecutors := st.availExecutors - 1 }) +
      1 = freeExecutors nodes := by
  have hsum := Dict.sum_map_modify (fun st : NodeStatus => st.availExecutors.toNat) nodes
    (fun st => { st with availExecutors := st.availExecutors - 1 }) h
  simp only [freeExecutors] at hsum ⊢
  omega

theorem Named.modify (h : Named nodes) (ip : Address) :
    Named (nodes.modify ip fun st => { st with availExecutors := st.availExecutors - 1 }) := by
  intro st hst
  rw [Option.mem_def, Dict.get?_modify] at hst
  split_ifs at hst
  · obtain ⟨st₀, hst₀, rfl⟩ := Option.map_eq_some_iff.1 hst
    have hle := h st₀ hst₀
    simp only
    omega
  · exact h st hst

theorem freeExecutors_eq_zero (h : ∀ ip st, nodes.get? ip = some st → st.availExecutors ≤ 0) :
    freeExecutors nodes = 0 := by
  rw [freeExecutors, List.sum_eq_zero_iff]
  intro n hn
  obtain ⟨st, hst, rfl⟩ := List.mem_map.1 hn
  obtain ⟨ip, hip⟩ := Dict.mem_values_iff.1 hst
  exact Int.toNat_eq_zero.2 (h ip st hip)

/-- The loop ends with the node it has started with, or with one that has more free executors, and
no node has more than the last one. -/
theorem foldl_pickWorker (l : List (Address × ℤ)) (best : ℤ × Address) :
    (l.foldl pickWorker best = best ∨
        ∃ e ∈ l, best.1 < e.2 ∧ l.foldl pickWorker best = (e.2, e.1)) ∧
      best.1 ≤ (l.foldl pickWorker best).1 ∧ ∀ e ∈ l, e.2 ≤ (l.foldl pickWorker best).1 := by
  induction l generalizing best with
  | nil => simp
  | cons e l ih =>
    obtain ⟨hcase, hle, hmax⟩ := ih (pickWorker best e)
    have hstep : best.1 < e.2 ∧ pickWorker best e = (e.2, e.1) ∨
        e.2 ≤ best.1 ∧ pickWorker best e = best := by
      unfold pickWorker
      split_ifs with hlt
      · exact .inl ⟨hlt, rfl⟩
      · exact .inr ⟨not_lt.1 hlt, rfl⟩
    rw [List.foldl_cons]
    obtain ⟨hlt, hpick⟩ | ⟨hge, hpick⟩ := hstep
    · rw [hpick] at hcase hle hmax ⊢
      refine ⟨.inr ?_, hlt.le.trans hle, ?_⟩
      · obtain hsame | ⟨e', he', hlt', heq⟩ := hcase
        · exact ⟨e, List.mem_cons_self, hlt, hsame⟩
        · exact ⟨e', List.mem_cons_of_mem e he', hlt.trans hlt', heq⟩
      · exact List.forall_mem_cons.2 ⟨hle, hmax⟩
    · rw [hpick] at hcase hle hmax ⊢
      refine ⟨?_, hle, List.forall_mem_cons.2 ⟨hge.trans hle, hmax⟩⟩
      obtain hsame | ⟨e', he', hlt', heq⟩ := hcase
      · exact .inl hsame
      · exact .inr ⟨e', List.mem_cons_of_mem e he', hlt', heq⟩

theorem Named.foldl_touch (h : Named nodes) (dataNode : List Address) :
    Named (dataNode.foldl (fun d ip => d.touch ip { availExecutors := 0 }) nodes) :=
  List.foldlRecOn (motive := fun d : Dict Address NodeStatus => Named d) dataNode _ h
    fun _ hd ip _ => hd.touch ip

theorem freeExecutors_foldl_touch (nodes : Dict Address NodeStatus) (dataNode : List Address) :
    freeExecutors (dataNode.foldl (fun d ip => d.touch ip { availExecutors := 0 }) nodes) =
      freeExecutors nodes :=
  List.foldlRecOn (motive := fun d : Dict Address NodeStatus =>
    freeExecutors d = freeExecutors nodes) dataNode _ rfl
    fun d hd ip _ => (freeExecutors_touch d ip).trans hd

/-- The call goes to a node with a free executor, if there is one. -/
theorem routedWorker_spec (h : Named nodes) (dataNode : List Address) :
    (routedWorker dataNode nodes).2 = "" ∧ freeExecutors nodes = 0 ∨
      (routedWorker dataNode nodes).2 ≠ "" ∧
        ∃ st, (routedWorker dataNode nodes).1.get? (routedWorker dataNode nodes).2 = some st ∧
          0 < st.availExecutors := by
  set touched := dataNode.foldl (fun d ip => d.touch ip { availExecutors := 0 }) nodes with htouched
  have hnamed : Named touched := h.foldl_touch dataNode
  have hfree : freeExecutors touched = freeExecutors nodes :=
    freeExecutors_foldl_touch nodes dataNode
  have hne : ∀ ip st, touched.get? ip = some st → 0 < st.availExecutors → ip ≠ "" := by
    rintro ip st hst hpos rfl
    exact absurd (hnamed st hst) (not_le.2 hpos)
  obtain ⟨hnear, -, -⟩ := foldl_pickWorker
    (dataNode.map fun ip => (ip, (touched.get? ip).elim 0 (·.availExecutors))) (0, "")
  obtain ⟨hany, -, hmax⟩ := foldl_pickWorker
    (touched.entries.map fun e => (e.1, e.2.availExecutors)) (0, "")
  rw [routedWorker]
  simp only [← htouched]
  obtain hnear | ⟨e, he, hlt, hnear⟩ := hnear
  · rw [hnear, if_pos rfl]
    obtain hany | ⟨e, he, hlt, hany⟩ := hany
    · refine .inl ⟨by rw [hany], ?_⟩
      rw [← hfree]
      refine freeExecutors_eq_zero fun ip st hst => ?_
      rw [hany] at hmax
      exact hmax (ip, st.availExecutors)
        (List.mem_map.2 ⟨(ip, st), Dict.mem_entries_iff.2 hst, rfl⟩)
    · obtain ⟨⟨ip, st⟩, hst, rfl⟩ := List.mem_map.1 he
      rw [hany]
      exact .inr ⟨hne ip st (Dict.mem_entries_iff.1 hst) hlt, st, Dict.mem_entries_iff.1 hst, hlt⟩
  · obtain ⟨ip, -, rfl⟩ := List.mem_map.1 he
    rw [hnear]
    cases hst : touched.get? ip with
    | none => simp [hst] at hlt
    | some st =>
      rw [hst] at hlt
      rw [if_neg (hne ip st hst hlt)]
      exact .inr ⟨hne ip st hst hlt, st, hst, hlt⟩

theorem routedWorker_fst (dataNode : List Address) (nodes : Dict Address NodeStatus) :
    (routedWorker dataNode nodes).1 =
      dataNode.foldl (fun d ip => d.touch ip { availExecutors := 0 }) nodes := by
  unfold routedWorker
  simp only
  split_ifs <;> rfl

end Nodes

/-! ### The bucket -/

/-- What a notification has of its object besides the name: the address of its data server and the
value if it is packed; and where the client of the session waits. -/
structure Details where
  address : Address
  payload : Bytes := []
  respAddress : Address := ""

/-- Where a call goes. -/
inductive Place (ι : Type) where
  | scheduler (worker : ι)
  | node (address : Address) (call : FunctionCall)
  | dropped

/-- The call has gone somewhere. -/
def Place.Made {ι : Type} : Place ι → Prop
  | .scheduler _ | .node _ _ => True
  | .dropped => False

instance Place.Made.decidable {ι : Type} : DecidablePred (Place.Made (ι := ι))
  | .scheduler _ | .node _ _ => .isTrue trivial
  | .dropped => .isFalse id

/-- A call that was asked for, with its arguments and what became of it. -/
structure TriggerCall (ι : Type) where
  firing : Firing
  args : CallArgs
  place : Place ι

/-- The triggers and their messages, and what the calls depend on: the values and sizes that the
local schedulers and the coordinator keep of the objects, the addresses of the objects, and the
nodes.  All calls are recorded. -/
structure Bucket (ι σ : Type) where
  triggers : State ι
  keyValMap : ι → Dict String Bytes := fun _ => .empty
  keyLenMap : ι → Dict String ℕ := fun _ => .empty
  details : ι → List Details := fun _ => []
  bucketKeyValMap : Dict String Bytes := .empty
  bucketKeyAddressMap : Dict String (List Address) := .empty
  nodeStatusMap : Dict Address NodeStatus := .empty
  seed : σ
  calls : List (TriggerCall ι) := []

namespace Bucket

/-- The events.  A put comes with what the local scheduler tells the coordinator of the place of the
object. -/
inductive Event (ι : Type) where
  | put (worker : ι) (sessionKey : String) (now : ℕ) (body : ObjectBody)
      (address respAddress : Address)
  | notify (worker : ι) (now : ℕ)
  | clear (worker : ι)
  | updateStatus (ip : Address) (status : NodeStatus)

/-- The names of the bucket and of its application, and the number of I/O threads of a node. -/
structure Setup (σ : Type) where
  bucket : String
  appName : String
  rand : σ → ℕ × σ
  ioThreadNum : ℕ+

variable {ι σ : Type} (setup : Setup σ)

/-! ### Local schedulers -/

/-- The calls of one trigger at a local scheduler. -/
def scheduledCalls (keyVal : Dict String Bytes) (keyLen : Dict String ℕ) (worker : ι)
    (bucketKey : BucketKey) (r : TriggerObject × List TriggerAction) : List (TriggerCall ι) :=
  (r.2.zip (arrivalArgs setup.bucket keyVal keyLen (argFlagOf r.1.trigger) r.2)).map fun a =>
    ⟨⟨r.1.name, bucketKey, a.1⟩, a.2, .scheduler worker⟩

variable [DecidableEq ι]

/-- An object is put: its value or its size is kept, and the triggers are checked. -/
def put (b : Bucket ι σ) (worker : ι) (sessionKey : String) (now : ℕ) (body : ObjectBody)
    (address respAddress : Address) : Bucket ι σ :=
  let bucketKey := BucketKey.ofSessionKey sessionKey
  let keyVal :=
    match body with
    | .packed value => (b.keyValMap worker).set sessionKey value
    | .large _ => b.keyValMap worker
  let keyLen := (b.keyLenMap worker).set sessionKey
    (match body with
    | .packed value => value.length
    | .large size => size)
  let payload :=
    match body with
    | .packed value => value
    | .large _ => []
  let rs := newObject now bucketKey (b.triggers.scheduler worker)
  { b with
    triggers := checkTrigger b.triggers worker sessionKey now
    keyValMap := Function.update b.keyValMap worker keyVal
    keyLenMap := Function.update b.keyLenMap worker keyLen
    details := Function.update b.details worker
      (b.details worker ++ [⟨address, payload, respAddress⟩])
    calls := b.calls ++ rs.flatMap (scheduledCalls setup keyVal keyLen worker bucketKey) }

/-! ### The coordinator -/

/-- The addresses of the objects of an action. -/
def dataAddress (addresses : Dict String (List Address)) (k : String × String) : Address :=
  ((addresses.get? k.2).bind List.head?).getD ""

/-- The arguments in the message; real data is one argument, with a delimiter behind each value. -/
def arguments (addresses : Dict String (List Address)) : CallArgs → List Argument
  | .values vs => [{ body := vs.flatMap (· ++ [124]), argFlag := 0 }]
  | .objects argFlag sessionKeys =>
      sessionKeys.map fun k =>
        { body := utf8 (setup.bucket ++ "|" ++ keySessionName k)
          argFlag := argFlag
          dataAddress := dataAddress addresses k }

/-- The nodes that have objects of the call. -/
def dataNode (addresses : Dict String (List Address)) : CallArgs → List Address
  | .values _ => []
  | .objects _ sessionKeys => (sessionKeys.map fun k => ipOf (dataAddress addresses k)).dedup

/-- The message for the call of an action. -/
def internalCall (addresses : Dict String (List Address)) (respAddress : Address)
    (firing : Firing) (args : CallArgs) : FunctionCall where
  appName := setup.appName
  respAddress := respAddress
  syncDataStatus := true
  sessionId := firing.bucketKey.session
  requests := [{ name := firing.action.function, arguments := arguments setup addresses args }]

/-- Call the function of one action, if there is a node for it. -/
def callAction (bucketKey : BucketKey) (respAddress : Address) (b : Bucket ι σ)
    (a : Trigger × TriggerAction) : Bucket ι σ :=
  let firing : Firing := ⟨a.1.triggerName, bucketKey, a.2⟩
  let args := notifyArgs b.bucketKeyValMap (argFlagOf a.1) a.2
  let routed := routedWorker (dataNode b.bucketKeyAddressMap args) b.nodeStatusMap
  if routed.2 = "" then
    { b with nodeStatusMap := routed.1, calls := b.calls ++ [⟨firing, args, .dropped⟩] }
  else
    let r := setup.rand b.seed
    { b with
      nodeStatusMap := routed.1.modify routed.2 fun st =>
        { st with availExecutors := st.availExecutors - 1 }
      seed := r.2
      calls := b.calls ++
        [⟨firing, args, .node (getFuncExecAddress routed.2 (r.1 % setup.ioThreadNum))
          (internalCall setup b.bucketKeyAddressMap respAddress firing args)⟩] }

/-- The actions that the coordinator takes. -/
def asked (triggers : State ι) (request : KeyNotifyRequest) (now : ℕ) :
    List (Trigger × TriggerAction) :=
  (effective request (newObject now request.bucketKey triggers.coordinator)).flatMap fun r =>
    r.2.map (r.1.trigger, ·)

/-- What a notification changes before any call: the place of the object and, if it is packed, its
value become known, and the triggers take it. -/
def arrived (b : Bucket ι σ) (worker : ι) (request : KeyNotifyRequest)
    (rest : List KeyNotifyRequest) (d : Details) (ds : List Details) (now : ℕ) : Bucket ι σ :=
  let bucketKey := request.bucketKey
  let addresses := (b.bucketKeyAddressMap.get? bucketKey.key).getD []
  { b with
    triggers := notifyHandler b.triggers worker request rest now
    details := Function.update b.details worker ds
    bucketKeyAddressMap := b.bucketKeyAddressMap.set bucketKey.key
      (if d.address ∈ addresses then addresses else addresses ++ [d.address])
    bucketKeyValMap :=
      if d.payload = [] then b.bucketKeyValMap
      else b.bucketKeyValMap.set (keySessionName bucketKey.sessionKey) d.payload }

/-- A notification arrives. -/
def notified (b : Bucket ι σ) (worker : ι) (request : KeyNotifyRequest)
    (rest : List KeyNotifyRequest) (d : Details) (ds : List Details) (now : ℕ) : Bucket ι σ :=
  (asked b.triggers request now).foldl (callAction setup request.bucketKey d.respAddress)
    (b.arrived worker request rest d ds now)

/-- One event at the local schedulers or the coordinator. -/
def step (b : Bucket ι σ) : Event ι → Option (Bucket ι σ)
  | .put worker sessionKey now body address respAddress =>
      some (b.put setup worker sessionKey now body address respAddress)
  | .notify worker now =>
      match b.triggers.notifications worker, b.details worker with
      | request :: rest, d :: ds => some (b.notified setup worker request rest d ds now)
      | _, _ => none
  | .clear worker => (Notify.step b.triggers (.clear worker)).map ({ b with triggers := · })
  | .updateStatus ip status =>
      -- a node has an address
      if ip = "" then none else some { b with nodeStatusMap := b.nodeStatusMap.set ip status }

/-! ### The triggers of the bucket -/

/-- What an event is for the triggers. -/
def Event.triggers : Event ι → Option (Notify.Event ι)
  | .put worker sessionKey now _ _ _ => some (.put worker sessionKey now)
  | .notify worker now => some (.notify worker now)
  | .clear worker => some (.clear worker)
  | .updateStatus _ _ => none

variable {setup} {b b' : Bucket ι σ}

omit [DecidableEq ι] in
/-- The actions change the table of the nodes and the random number, and each is recorded as a call
with the arguments that the values in the bucket give it. -/
theorem callActions_frame (bucketKey : BucketKey) (respAddress : Address)
    (l : List (Trigger × TriggerAction)) (b : Bucket ι σ) :
    ∃ nodes seed cs, l.foldl (callAction setup bucketKey respAddress) b =
        { b with nodeStatusMap := nodes, seed := seed, calls := b.calls ++ cs } ∧
      cs.map (fun c => (c.firing, c.args)) = l.map fun a =>
        (⟨a.1.triggerName, bucketKey, a.2⟩, notifyArgs b.bucketKeyValMap (argFlagOf a.1) a.2) := by
  induction l generalizing b with
  | nil => exact ⟨b.nodeStatusMap, b.seed, [], by simp⟩
  | cons a l ih =>
    have hone : ∃ nodes seed c, callAction setup bucketKey respAddress b a =
        { b with nodeStatusMap := nodes, seed := seed, calls := b.calls ++ [c] } ∧
          (c.firing, c.args) = (⟨a.1.triggerName, bucketKey, a.2⟩,
            notifyArgs b.bucketKeyValMap (argFlagOf a.1) a.2) := by
      unfold callAction
      simp only
      split_ifs
      · exact ⟨_, b.seed, _, rfl, rfl⟩
      · exact ⟨_, _, _, rfl, rfl⟩
    obtain ⟨nodes, seed, c, hc, hgiven⟩ := hone
    obtain ⟨nodes', seed', cs, hcs, hgiven'⟩ := ih (callAction setup bucketKey respAddress b a)
    refine ⟨nodes', seed', c :: cs, ?_, ?_⟩
    · rw [List.foldl_cons, hcs, hc]
      simp
    · rw [List.map_cons, List.map_cons, hgiven, hgiven', hc]

/-- The triggers do what they do in a bucket whose calls are not followed. -/
theorem step_triggers {e : Event ι} (h : step setup b e = some b') :
    e.triggers = none ∧ b'.triggers = b.triggers ∨
      ∃ e', e.triggers = some e' ∧ Notify.step b.triggers e' = some b'.triggers := by
  cases e with
  | put worker sessionKey now body address respAddress =>
    obtain rfl := Option.some.inj h
    exact .inr ⟨_, rfl, rfl⟩
  | notify worker now =>
    rw [step] at h
    split at h
    · next request rest d ds hn hd =>
      obtain rfl := Option.some.inj h
      obtain ⟨nodes, seed, cs, hfold, -⟩ := callActions_frame request.bucketKey
        d.respAddress (asked b.triggers request now) (b.arrived worker request rest d ds now)
      refine .inr ⟨_, rfl, ?_⟩
      rw [Notify.step, hn, notified, hfold]
      rfl
    · cases h
  | clear worker =>
    obtain ⟨s, hs, rfl⟩ := Option.map_eq_some_iff.1 h
    exact .inr ⟨_, rfl, hs⟩
  | updateStatus ip status =>
    rw [step] at h
    split_ifs at h
    obtain rfl := Option.some.inj h
    exact .inl ⟨rfl, rfl⟩

/-- A run of the bucket is a run of the triggers. -/
theorem exec_triggers {events : List (Event ι)} (h : Runs.exec (step setup) b events = some b') :
    Runs.exec Notify.step b.triggers (events.filterMap Event.triggers) = some b'.triggers := by
  induction events generalizing b with
  | nil => exact congrArg (Option.map Bucket.triggers) h
  | cons e events ih =>
    obtain ⟨b₁, hb₁, h⟩ := Option.bind_eq_some_iff.1 h
    obtain ⟨hnone, hsame⟩ | ⟨e', he', hstep⟩ := step_triggers hb₁
    · rw [List.filterMap_cons_none hnone, ← hsame, ih h]
    · rw [List.filterMap_cons_some he', Runs.exec, hstep, Option.bind_some, ih h]

/-! ### Every firing becomes a call -/

/-- The calls are those that the triggers ask for. -/
def Recorded (b : Bucket ι σ) : Prop := b.calls.map (·.firing) = b.triggers.firings

omit [DecidableEq ι] in
theorem length_arrivalArgs (bucket : String) (keyVal : Dict String Bytes) (keyLen : Dict String ℕ)
    (argFlag : ℕ) (actions : List TriggerAction) :
    (arrivalArgs bucket keyVal keyLen argFlag actions).length = actions.length := by
  induction actions generalizing argFlag with
  | nil => rfl
  | cons action actions ih =>
    rw [arrivalArgs]
    split <;> simp [ih]

omit [DecidableEq ι] in
theorem map_firing_scheduledCalls (keyVal : Dict String Bytes) (keyLen : Dict String ℕ) (worker : ι)
    (bucketKey : BucketKey) (rs : List (TriggerObject × List TriggerAction)) :
    (rs.flatMap (scheduledCalls setup keyVal keyLen worker bucketKey)).map (·.firing) =
      firingsOf bucketKey rs := by
  rw [firingsOf, List.map_flatMap]
  congr 1
  funext r
  have hzip := List.map_fst_zip
    (length_arrivalArgs setup.bucket keyVal keyLen (argFlagOf r.1.trigger) r.2).ge
  conv_rhs => rw [← hzip]
  rw [scheduledCalls, List.map_map, List.map_map]
  rfl

omit [DecidableEq ι] in
theorem map_asked (triggers : State ι) (request : KeyNotifyRequest) (now : ℕ) :
    (asked triggers request now).map
        (fun a => (⟨a.1.triggerName, request.bucketKey, a.2⟩ : Firing)) =
      firingsOf request.bucketKey
        (effective request (newObject now request.bucketKey triggers.coordinator)) := by
  rw [asked, firingsOf, List.map_flatMap]
  congr 1
  funext r
  rw [List.map_map]
  rfl

theorem Recorded.step {e : Event ι} (h : b.Recorded) (hstep : step setup b e = some b') :
    b'.Recorded := by
  cases e with
  | put worker sessionKey now body address respAddress =>
    obtain rfl := Option.some.inj hstep
    rw [Recorded, Bucket.put.eq_def, List.map_append, h, map_firing_scheduledCalls]
    rfl
  | notify worker now =>
    rw [Bucket.step] at hstep
    split at hstep
    · next request rest d ds hn hd =>
      obtain rfl := Option.some.inj hstep
      obtain ⟨nodes, seed, cs, hfold, hgiven⟩ := callActions_frame
        request.bucketKey d.respAddress (asked b.triggers request now)
        (b.arrived worker request rest d ds now)
      have hfirings : cs.map (·.firing) = firingsOf request.bucketKey
          (effective request (newObject now request.bucketKey b.triggers.coordinator)) := by
        rw [← map_asked]
        simpa [Function.comp_def] using congrArg (List.map Prod.fst) hgiven
      rw [Recorded, notified, hfold]
      show (b.calls ++ cs).map (·.firing) = _
      rw [List.map_append, hfirings, show b.calls.map (·.firing) = _ from h]
      rfl
    · cases hstep
  | clear worker =>
    obtain ⟨s, hs, rfl⟩ := Option.map_eq_some_iff.1 hstep
    rw [Notify.step] at hs
    cases hc : b.triggers.clears worker with
    | nil => simp [hc] at hs
    | cons msg rest =>
      simp only [hc, Option.some.injEq] at hs
      subst hs
      exact h
  | updateStatus ip status =>
    rw [Bucket.step] at hstep
    split_ifs at hstep
    obtain rfl := Option.some.inj hstep
    exact h

/-! ### Dropped calls -/

omit [DecidableEq ι] in
/-- A call is dropped if and only if there is no free executor; else it takes one. -/
theorem callAction_cases (h : Named b.nodeStatusMap) (bucketKey : BucketKey)
    (respAddress : Address) (a : Trigger × TriggerAction) :
    Named (callAction setup bucketKey respAddress b a).nodeStatusMap ∧
      ∃ c, (callAction setup bucketKey respAddress b a).calls = b.calls ++ [c] ∧
        (¬ c.place.Made ∧ freeExecutors b.nodeStatusMap = 0 ∧
            freeExecutors (callAction setup bucketKey respAddress b a).nodeStatusMap = 0 ∨
          c.place.Made ∧
            freeExecutors (callAction setup bucketKey respAddress b a).nodeStatusMap + 1 =
              freeExecutors b.nodeStatusMap) := by
  set dataNode := dataNode b.bucketKeyAddressMap
    (notifyArgs b.bucketKeyValMap (argFlagOf a.1) a.2) with hdata
  have hnamed : Named (routedWorker dataNode b.nodeStatusMap).1 := by
    rw [routedWorker_fst]
    exact h.foldl_touch dataNode
  have hfree : freeExecutors (routedWorker dataNode b.nodeStatusMap).1 =
      freeExecutors b.nodeStatusMap := by
    rw [routedWorker_fst, freeExecutors_foldl_touch]
  unfold callAction
  simp only [← hdata]
  obtain ⟨hnone, hzero⟩ | ⟨hsome, st, hst, hpos⟩ := routedWorker_spec h dataNode
  · rw [if_pos hnone]
    exact ⟨hnamed, _, rfl, .inl ⟨id, hzero, hfree.trans hzero⟩⟩
  · rw [if_neg hsome]
    exact ⟨hnamed.modify _, _, rfl, .inr ⟨trivial, (freeExecutors_modify hst hpos).trans hfree⟩⟩

omit [DecidableEq ι] in
/-- **Of the calls for an object at the coordinator, as many are made as there are free executors,
and the others are dropped.** -/
theorem callActions_spec (h : Named b.nodeStatusMap) (bucketKey : BucketKey)
    (respAddress : Address) (l : List (Trigger × TriggerAction)) :
    Named (l.foldl (callAction setup bucketKey respAddress) b).nodeStatusMap ∧
      ∃ made dropped, (l.foldl (callAction setup bucketKey respAddress) b).calls =
          b.calls ++ made ++ dropped ∧
        (∀ c ∈ made, c.place.Made) ∧ (∀ c ∈ dropped, ¬ c.place.Made) ∧
        made.length = min l.length (freeExecutors b.nodeStatusMap) ∧
        dropped.length = l.length - freeExecutors b.nodeStatusMap := by
  induction l generalizing b with
  | nil => exact ⟨h, [], [], by simp⟩
  | cons a l ih =>
    obtain ⟨hnamed, c, hcalls, hcase⟩ := callAction_cases h bucketKey respAddress a
    obtain ⟨hnamed', made, dropped, hcalls', hmade, hdropped, hlength, hrest⟩ := ih hnamed
    refine ⟨hnamed', ?_⟩
    rw [List.foldl_cons, hcalls', hcalls]
    obtain ⟨hc, hzero, hzero'⟩ | ⟨hc, hone⟩ := hcase
    · -- nothing is made any more
      obtain rfl : made = [] := by
        rw [hzero', Nat.min_zero] at hlength
        exact List.eq_nil_of_length_eq_zero hlength
      exact ⟨[], c :: dropped, by simp, by simp, List.forall_mem_cons.2 ⟨hc, hdropped⟩,
        by simp [hzero], by simp [hrest, hzero, hzero']⟩
    · refine ⟨c :: made, dropped, by simp, List.forall_mem_cons.2 ⟨hc, hmade⟩, hdropped, ?_, ?_⟩
      · rw [List.length_cons, List.length_cons, hlength]
        omega
      · rw [List.length_cons, hrest]
        omega

/-- A notification finds a free executor for each of its calls. -/
def Served (b : Bucket ι σ) : Event ι → Prop
  | .notify worker now => ∀ request ∈ (b.triggers.notifications worker).head?,
      (asked b.triggers request now).length ≤ freeExecutors b.nodeStatusMap
  | .put _ _ _ _ _ _ | .clear _ | .updateStatus _ _ => True

instance Served.decidable (b : Bucket ι σ) : ∀ e : Event ι, Decidable (Served b e)
  | .notify worker _ => inferInstanceAs
      (Decidable (∀ request ∈ (b.triggers.notifications worker).head?, _))
  | .put _ _ _ _ _ _ | .clear _ | .updateStatus _ _ => .isTrue trivial

omit [DecidableEq ι] in
theorem made_of_mem_scheduledCalls {keyVal : Dict String Bytes} {keyLen : Dict String ℕ}
    {worker : ι} {bucketKey : BucketKey} {r : TriggerObject × List TriggerAction}
    {c : TriggerCall ι} (hc : c ∈ scheduledCalls setup keyVal keyLen worker bucketKey r) :
    c.place.Made := by
  obtain ⟨a, -, rfl⟩ := List.mem_map.1 hc
  trivial

/-- What a step adds to the calls; none of it is dropped exactly if the step is served. -/
theorem exists_calls_step (h : Named b.nodeStatusMap) {e : Event ι}
    (hstep : step setup b e = some b') :
    Named b'.nodeStatusMap ∧ ∃ cs, b'.calls = b.calls ++ cs ∧
      ((∀ c ∈ cs, c.place.Made) ↔ Served b e) := by
  cases e with
  | put worker sessionKey now body address respAddress =>
    obtain rfl := Option.some.inj hstep
    refine ⟨h, _, rfl, iff_of_true (fun c hc => ?_) trivial⟩
    obtain ⟨r, -, hc⟩ := List.mem_flatMap.1 hc
    exact made_of_mem_scheduledCalls hc
  | notify worker now =>
    rw [Bucket.step] at hstep
    split at hstep
    · next request rest d ds hn hd =>
      obtain rfl := Option.some.inj hstep
      have harrived : Named (b.arrived worker request rest d ds now).nodeStatusMap := h
      obtain ⟨hnamed, made, dropped, hcalls, hmade, hdropped, -, hlength⟩ := callActions_spec
        harrived request.bucketKey d.respAddress (asked b.triggers request now)
      have hserved : Served b (.notify worker now) ↔ dropped = [] := by
        rw [← List.length_eq_zero_iff, hlength, Nat.sub_eq_zero_iff_le, Served, hn]
        simp [arrived]
      refine ⟨hnamed, made ++ dropped, hcalls.trans (List.append_assoc _ _ _), ?_⟩
      rw [hserved, List.forall_mem_append]
      constructor
      · rintro ⟨-, hall⟩
        exact List.eq_nil_iff_forall_not_mem.2 fun c hc => hdropped c hc (hall c hc)
      · rintro rfl
        exact ⟨hmade, by simp⟩
    · cases hstep
  | clear worker =>
    obtain ⟨s, hs, rfl⟩ := Option.map_eq_some_iff.1 hstep
    exact ⟨h, [], (List.append_nil _).symm, iff_of_true (by simp) trivial⟩
  | updateStatus ip status =>
    rw [Bucket.step] at hstep
    split_ifs at hstep with hip
    obtain rfl := Option.some.inj hstep
    refine ⟨fun st hst => ?_, [], (List.append_nil _).symm, iff_of_true (by simp) trivial⟩
    rw [Option.mem_def, Dict.get?_set, if_neg (Ne.symm hip)] at hst
    exact h st hst

/-! ### Runs -/

/-- The calls of the triggers of the given name, made or dropped. -/
def callsFor (n : String) (b : Bucket ι σ) : List (TriggerCall ι) :=
  b.calls.filter (·.firing.triggerName = n)

omit [DecidableEq ι] in
theorem Recorded.callsFor (h : b.Recorded) (n : String) :
    (callsFor n b).map (·.firing.action) = callsOf n b.triggers := by
  rw [callsOf, ← h, List.filter_map, List.map_map]
  rfl

/-- The records of calls and nodes are sound. -/
structure Sound (b : Bucket ι σ) : Prop where
  recorded : b.Recorded
  named : Named b.nodeStatusMap

theorem Sound.step {e : Event ι} (h : b.Sound) (hstep : Bucket.step setup b e = some b') :
    b'.Sound :=
  ⟨h.recorded.step hstep, (exists_calls_step h.named hstep).1⟩

/-- The bucket when nothing has happened yet. -/
def initial (triggers : State ι) (seed : σ) : Bucket ι σ where
  triggers := triggers
  seed := seed

/-- The records start again. -/
def reset (b : Bucket ι σ) : Bucket ι σ :=
  { b with triggers := Notify.reset b.triggers, calls := [] }

omit [DecidableEq ι] in
theorem Sound.initial {triggers : State ι} (h : triggers.firings = []) (seed : σ) :
    (initial triggers seed).Sound where
  recorded := h.symm
  named _ hst := by cases hst

omit [DecidableEq ι] in
theorem Sound.reset (h : b.Sound) : b.reset.Sound := ⟨rfl, h.named⟩

theorem Sound.exec (h : b.Sound) {events : List (Event ι)}
    (hrun : Runs.exec (Bucket.step setup) b events = some b') : b'.Sound :=
  Runs.exec_invariant (fun _ _ _ _ hstep hP => hP.step hstep) (Runs.allowed_true b events) hrun h

/-- **No call is dropped in a run exactly if every notification finds a free executor for each of
its calls.** -/
theorem made_iff_served (h : b.Sound) {events : List (Event ι)}
    (hrun : Runs.exec (step setup) b events = some b') (hnil : b.calls = []) :
    (∀ c ∈ b'.calls, c.place.Made) ↔ Runs.Allowed (step setup) Served b events := by
  have hmade := Runs.exec_iff_allowed (G := Served) (I := Sound)
    (P := fun b : Bucket ι σ => ∀ c ∈ b.calls, c.place.Made)
    (fun b e b' hstep hb => hb.step hstep) (fun b e b' hstep hb => ?_) hrun h
  · rw [hmade, hnil]
    simp
  · obtain ⟨-, cs, hcalls, hcs⟩ := exists_calls_step hb.named hstep
    rw [hcalls, List.forall_mem_append, hcs]

end Bucket

end Demeter.Coordinator.Notify
