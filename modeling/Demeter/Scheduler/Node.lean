import Demeter.Common.Trigger
import Demeter.Scheduler.Dispatch
import Demeter.Scheduler.Inflight
import Demeter.Scheduler.Forward

/-!
# The local scheduler of a node

The rest of `schedule_func_call` in `src/scheduler/scheduler_server.cpp` behind the choice of an
executor, and the parts of `run` that call it: the function calls that arrive, wait for data, wait
for a free executor, are forwarded to the coordinator, or are executed again.

* `scheduleFuncCall` sends a call to an executor, puts it into `delay_call_queue` or forwards it;
* `delayDispatch` and `delayForward` are the two loops over `delay_call_queue`, `rerunCheck` is one
  turn of the loop over `rerun_check_queue`;
* `step` is one event of the loop of the scheduler.  It reads the clock once, in microseconds.

The calls that arrive and wait for data are those of `CallTable`.  The calls that one of its events
hands over are scheduled in their order after the event: scheduling a call changes nothing of the
call table but `key_len_map`, which is the business of `lookups`.

Some things are recorded that the source does not have.  `origin` follows the id of a requested
function through the structures of the source, and is `none` for a function that a put starts;
`requested` has the hints of all requests, and `sent` all messages.
-/

namespace Demeter.Scheduler

open Demeter.Common (Trigger setItems)
open Demeter.Coordinator (Address FunctionCall)
open Demeter.Executor (kDelimiterChar encodeCall)

/-! ### Data -/

/-- The arguments of `schedule_func_call`. -/
structure ScheduledCall where
  origin : Option ℕ
  sessionId : String
  appName : String
  funcName : String
  funcArgs : List Bytes
  argFlag : ℕ
  cpuCores : Float := 0
  memoryMb : ℕ := 0

/-- The call that is handed over. -/
def HandOff.call (h : HandOff) : ScheduledCall where
  origin := some h.callId
  sessionId := h.sessionId
  appName := h.appName
  funcName := h.funcName
  funcArgs := h.funcArgs
  argFlag := h.argFlag
  cpuCores := h.cpuCores
  memoryMb := h.memoryMb

/-- A call that waits for an executor, since when. -/
structure DelayFunctionCall where
  call : ScheduledCall
  triggerTime : ℕ

/-- What a trigger keeps of a dispatched function, to execute it again. -/
structure TriggerFunctionMetadata where
  origin : Option ℕ
  funcName : String
  funcArgs : List Bytes
  argFlag : ℕ

/-- A message that leaves the scheduler. -/
inductive Outgoing (n : ℕ) where
  | executor (e : Fin n) (msg : Bytes)
  | coordinator (call : FunctionCall)

/-- A message with the request that it is for. -/
structure Sent (n : ℕ) where
  origin : Option ℕ
  message : Outgoing n

/-! ### Triggers that execute their source functions again -/

/-- A trigger of a bucket with the part of its state that reruns need. -/
structure RerunTrigger where
  trigger : Trigger
  funcKeyMap : Dict String String := Dict.empty
  sessionStatusCache : Dict String TriggerFunctionMetadata := Dict.empty

namespace RerunTrigger

/-- A function that the trigger may have to execute again has started. -/
def notifySourceFunc (t : RerunTrigger) (sessionId : String) (m : TriggerFunctionMetadata) :
    RerunTrigger :=
  match t.trigger.params with
  | .immediate | .byName _ | .byBatchSize _ =>
      { t with sessionStatusCache := t.sessionStatusCache.set sessionId m }
  | .bySet _ =>
      if t.funcKeyMap.keys ≠ [] then
        { t with
          funcKeyMap := t.funcKeyMap.touch m.funcName ""
          sessionStatusCache := t.sessionStatusCache.set
            ((t.funcKeyMap.get? m.funcName).getD "" ++ sessionId) m }
      else t
  | _ => t

/-- The functions whose objects are missing. -/
def actionForRerun (t : RerunTrigger) (sessionId : String) : List TriggerFunctionMetadata :=
  match t.trigger.params with
  | .immediate | .byName _ | .byBatchSize _ => (t.sessionStatusCache.get? sessionId).toList
  | .bySet keySet =>
      if t.funcKeyMap.keys ≠ [] then
        (setItems keySet).filterMap fun key => t.sessionStatusCache.get? (key ++ sessionId)
      else []
  | _ => []

/-- What `action_for_new_object` does to the cache. -/
def newObject (t : RerunTrigger) (sessionId key : String) : RerunTrigger :=
  match t.trigger.params with
  | .immediate | .byName _ | .byBatchSize _ =>
      { t with sessionStatusCache := t.sessionStatusCache.erase sessionId }
  | .bySet keySet =>
      if key ∈ keySet then
        { t with sessionStatusCache := t.sessionStatusCache.erase (key ++ sessionId) }
      else t
  | _ => t

/-- `clear`, as far as it concerns reruns. -/
def clear (t : RerunTrigger) (sessionId : String) : RerunTrigger :=
  match t.trigger.params with
  | .byBatchSize _ => { t with sessionStatusCache := Dict.empty }
  | .bySet _ => { t with sessionStatusCache := t.sessionStatusCache.erase sessionId }
  | _ => t

end RerunTrigger

/-- The trigger is named by its position in the list of all triggers. -/
structure RerunCheckQueueItem where
  checkTime : ℕ
  session : String
  trigger : ℕ

/-- A hint for re-execution: the function and the key that it puts, with the timeout in
milliseconds. -/
structure RerunHint where
  sourceFunction : String
  sourceKey : String
  timeout : ℕ

/-! ### The scheduler -/

/-- The settings of a node. -/
structure Config where
  ip : Address := ""
  sharedExecutor : Bool := false
  schedDelayTime : ℕ := 0
  rejectExtraReq : Bool := false

/-- What the scheduler does not compute itself.  The random number and the shared memory are those
at the moment when as many messages as given have been sent; `lookups` is as in `CallTable`. -/
structure Env where
  toStringDouble : Float → Bytes
  dataServerAddr : Bytes → Address
  rand : ℕ → ℕ
  mem : ℕ → Bytes → Bytes
  lookups : ℕ → List Bytes

/-- The state of a node: its maps and queues, and what it has sent. -/
structure Node (n : ℕ) where
  table : State := {}
  status : Fin n → ExecutorStatus := fun _ => .await
  functionExecutorMap : String → Finset (Fin n) := fun _ => ∅
  sessionClientAddrMap : Dict String Address := Dict.empty
  delayCallQueue : List DelayFunctionCall := []
  triggers : List RerunTrigger := []
  funcTriggerTimeoutMap : Dict String (List (ℕ × ℕ)) := Dict.empty
  rerunCheckQueue : List RerunCheckQueueItem := []
  requested : Dict ℕ (Float × ℕ) := Dict.empty
  sent : List (Sent n) := []

namespace Node

variable {n : ℕ}

/-- The address of the client of a session. -/
def clientAddr (s : Node n) (sessionId : String) : Address :=
  (s.sessionClientAddrMap.get? sessionId).getD ""

/-- `get_avail_executor_num`. -/
def getAvailExecutorNum (s : Node n) : ℕ :=
  ((List.finRange n).filter fun e => (s.status e).Eligible).length

/-- Tell the triggers of the function that it was dispatched, and when to look after it. -/
def notifySources (now : ℕ) (s : Node n) (c : ScheduledCall) : Node n :=
  ((s.funcTriggerTimeoutMap.get? c.funcName).getD []).foldl
    (fun s rerunMeta =>
      { s with
        triggers := s.triggers.modify rerunMeta.1 fun t =>
          t.notifySourceFunc c.sessionId ⟨c.origin, c.funcName, c.funcArgs, c.argFlag⟩
        rerunCheckQueue :=
          s.rerunCheckQueue ++ [⟨now + 1000 * rerunMeta.2, c.sessionId, rerunMeta.1⟩] })
    s

/-- The objects of a forwarded call as bucket, key and size; `none` is a read of the first argument
where there is none. -/
def flattenArgs (argFlag : ℕ) (args : List Bytes) : Option (List Bytes) :=
  if argFlag > 0 then
    match args with
    | [] => none
    | first :: _ =>
        if kDelimiterChar ∈ first then
          some (args.flatMap fun arg =>
            if kDelimiterChar ∈ arg then GetLine.split kDelimiterChar arg else [arg])
        else some args
  else some args

section Step

variable (cfg : Config) (env : Env)

/-- Send the call to an executor.  A warm executor is in `function_executor_map` already. -/
def dispatch (now : ℕ) (s : Node n) (c : ScheduledCall) (e : Fin n) : Node n :=
  notifySources now
    { s with
      functionExecutorMap := Function.update s.functionExecutorMap c.funcName
        (insert e (s.functionExecutorMap c.funcName))
      status := Function.update s.status e .await
      sent := s.sent ++ [⟨c.origin, .executor e (encodeCall env.toStringDouble
        (s.clientAddr c.sessionId) c.cpuCores c.memoryMb (utf8 c.sessionId) (utf8 c.funcName)
        c.funcArgs c.argFlag)⟩] }
    c

/-- Send functions to the coordinator. -/
def forward (keyLenMap : Dict Bytes ℕ) (s : Node n) (origin : Option ℕ)
    (sessionId appName : String) (funcs : List (String × List Bytes)) (argFlag : ℕ) :
    Option (Node n) := do
  let call ← forwardCallViaHelper (env.mem s.sent.length) keyLenMap cfg.ip env.dataServerAddr
    (s.clientAddr sessionId) sessionId appName funcs argFlag
  return { s with sent := s.sent ++ [⟨origin, .coordinator call⟩] }

/-- `schedule_func_call`. -/
def scheduleFuncCall (now : ℕ) (keyLenMap : Dict Bytes ℕ) (s : Node n) (c : ScheduledCall) :
    Option (Node n) :=
  match selectExecutor cfg.sharedExecutor s.status (s.functionExecutorMap c.funcName)
      (env.rand s.sent.length) with
  | some e => some (s.dispatch env now c e)
  | none =>
      if cfg.schedDelayTime > 0 then
        some { s with delayCallQueue := s.delayCallQueue ++ [⟨c, now⟩] }
      else if cfg.rejectExtraReq then some s
      else do
        let args ← flattenArgs c.argFlag c.funcArgs
        s.forward cfg env keyLenMap c.origin c.sessionId c.appName [(c.funcName, args)] c.argFlag

/-! ### The delay queue -/

/-- The first loop: as many calls as executors were available are scheduled.  A call for which
there is no executor goes to the end of the queue before it is popped at the front. -/
def delayDispatch (now : ℕ) : ℕ → Node n → Option (Node n)
  | 0, s => some s
  | k + 1, s =>
      match s.delayCallQueue with
      | [] => some s
      | d :: _ => do
          let s' ← s.scheduleFuncCall cfg env now s.table.keyLenMap d.call
          delayDispatch now k { s' with delayCallQueue := s'.delayCallQueue.tail }

/-- The second loop: calls that have waited too long are forwarded, unless they are dropped. -/
def delayForward (now : ℕ) : List DelayFunctionCall → Node n → Option (Node n)
  | [], s => some { s with delayCallQueue := [] }
  | d :: ds, s =>
      if now - d.triggerTime > cfg.schedDelayTime then do
        let s' ←
          if cfg.rejectExtraReq then some s
          else
            s.forward cfg env s.table.keyLenMap d.call.origin d.call.sessionId d.call.appName
              [(d.call.funcName, d.call.funcArgs)] d.call.argFlag
        delayForward now ds s'
      else some { s with delayCallQueue := d :: ds }

/-! ### Re-execution -/

/-- The item is one that `rerun_check_queue` may have on its top. -/
def IsTop (queue : List RerunCheckQueueItem) (item : RerunCheckQueueItem) : Prop :=
  ∀ item' ∈ queue, item.checkTime ≤ item'.checkTime

instance (queue : List RerunCheckQueueItem) (item : RerunCheckQueueItem) :
    Decidable (IsTop queue item) :=
  inferInstanceAs (Decidable (∀ item' ∈ queue, _))

/-- The functions that the item with number `i` wants to be executed again. -/
def rerunFuncs (s : Node n) (i : ℕ) : List TriggerFunctionMetadata :=
  match s.rerunCheckQueue[i]? with
  | none => []
  | some item =>
      match s.triggers[item.trigger]? with
      | none => []
      | some t => t.actionForRerun item.session

/-- The call is made with the default hints. -/
def rerunCall (sessionId appName : String) (m : TriggerFunctionMetadata) : ScheduledCall where
  origin := m.origin
  sessionId := sessionId
  appName := appName
  funcName := m.funcName
  funcArgs := m.funcArgs
  argFlag := m.argFlag

/-- A function is executed again, for the application that it is registered for. -/
def rerun (now : ℕ) (sessionId : String) (s : Node n) (m : TriggerFunctionMetadata) :
    Option (Node n) :=
  let appName := (s.table.funcAppMap.get? m.funcName).getD ""
  let s := { s with
    table := { s.table with funcAppMap := s.table.funcAppMap.touch m.funcName "" } }
  s.scheduleFuncCall cfg env now s.table.keyLenMap (rerunCall sessionId appName m)

/-- One turn of the loop: the item with number `i` is due and on top, and the one with number `j`
is on top when the turn ends with `pop`. -/
def rerunCheck (now i j : ℕ) (s : Node n) : Option (Node n) := do
  let item ← s.rerunCheckQueue[i]?
  guard (IsTop s.rerunCheckQueue item ∧ item.checkTime ≤ now)
  let s' ← Runs.exec (rerun cfg env now item.session) s (s.rerunFuncs i)
  let popped ← s'.rerunCheckQueue[j]?
  guard (IsTop s'.rerunCheckQueue popped)
  return { s' with rerunCheckQueue := s'.rerunCheckQueue.eraseIdx j }

/-! ### Events -/

/-- `message` is an event of the call table, and schedules the calls that it hands over; `invoke`
is a function that a put starts, `forwardBatch` those that a put cannot start here. -/
inductive Event (n : ℕ) where
  | message (now : ℕ) (event : Scheduler.Event)
  | invoke (now : ℕ) (sessionId appName funcName : String) (funcArgs : List Bytes) (argFlag : ℕ)
  | forwardBatch (sessionId appName : String) (funcs : List (String × List Bytes)) (argFlag : ℕ)
  | executorStatus (e : Fin n) (status : ExecutorStatus)
  | addTrigger (trigger : Trigger) (hints : List RerunHint)
  | newObject (trigger : ℕ) (sessionId key : String)
  | clear (trigger : ℕ) (sessionId : String)
  | delayDispatch (now : ℕ)
  | delayForward (now : ℕ)
  | rerunCheck (now i j : ℕ)

/-- A requested function arrives; its hints are recorded under its id. -/
def receiveFunc (recv : RecvCall) (acc : State × Dict ℕ (Float × ℕ)) (f : RecvFunc) :
    State × Dict ℕ (Float × ℕ) :=
  (handleFunc env.lookups recv acc.1 f, acc.2.set acc.1.callId (f.cpuCores, f.memoryMb))

/-- The call table and the recorded requests after an event. -/
def receive (acc : State × Dict ℕ (Float × ℕ)) : Scheduler.Event → State × Dict ℕ (Float × ℕ)
  | .call call =>
      let recv := handleFunctionCall call
      recv.funcs.foldl (receiveFunc env recv) acc
  | event => (Scheduler.step env.lookups acc.1 event, acc.2)

/-- The state in which the calls that an event hands over are scheduled. -/
def received (s : Node n) (event : Scheduler.Event) : Node n :=
  let acc := receive env (s.table, s.requested) event
  { s with
    table := acc.1
    requested := acc.2
    sessionClientAddrMap :=
      match event with
      | .call call => s.sessionClientAddrMap.set call.sessionId call.respAddress
      | _ => s.sessionClientAddrMap }

/-- The calls that an event hands over. -/
def handedOver (s : Node n) (event : Scheduler.Event) : List HandOff :=
  (s.received env event).table.handOffs.drop s.table.handOffs.length

/-- A call whose arguments are all there is scheduled. -/
def scheduleHandOff (now : ℕ) (s : Node n) (h : HandOff) : Option (Node n) :=
  s.scheduleFuncCall cfg env now h.keyLenMap h.call

/-- A trigger with its hints for reruns. -/
def addTrigger (s : Node n) (trigger : Trigger) (hints : List RerunHint) : Node n :=
  { s with
    triggers := s.triggers ++
      [{ trigger
         funcKeyMap :=
          match trigger.params with
          | .bySet _ => hints.foldl (fun d h => d.set h.sourceFunction h.sourceKey) Dict.empty
          | _ => Dict.empty }]
    funcTriggerTimeoutMap := hints.foldl
      (fun d h => d.push h.sourceFunction (s.triggers.length, h.timeout))
      s.funcTriggerTimeoutMap }

/-- One event; `none` is an exception. -/
def step (s : Node n) : Event n → Option (Node n)
  | .message now event =>
      Runs.exec (scheduleHandOff cfg env now) (s.received env event) (s.handedOver env event)
  | .invoke now sessionId appName funcName funcArgs argFlag =>
      s.scheduleFuncCall cfg env now s.table.keyLenMap
        { origin := none, sessionId, appName, funcName, funcArgs, argFlag }
  | .forwardBatch sessionId appName funcs argFlag =>
      if cfg.rejectExtraReq then some s
      else s.forward cfg env s.table.keyLenMap none sessionId appName funcs argFlag
  | .executorStatus e status => some { s with status := Function.update s.status e status }
  | .addTrigger trigger hints => some (s.addTrigger trigger hints)
  | .newObject trigger sessionId key =>
      some { s with triggers := s.triggers.modify trigger (·.newObject sessionId key) }
  | .clear trigger sessionId =>
      some { s with triggers := s.triggers.modify trigger (·.clear sessionId) }
  | .delayDispatch now => s.delayDispatch cfg env now s.getAvailExecutorNum
  | .delayForward now => s.delayForward cfg env now s.delayCallQueue
  | .rerunCheck now i j => s.rerunCheck cfg env now i j

end Step

end Node

end Demeter.Scheduler
