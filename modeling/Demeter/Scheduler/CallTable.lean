import Demeter.Lib.Runs
import Demeter.Scheduler.Messages

/-!
# Calls that wait for their arguments

The part of `run` in `src/scheduler/scheduler_server.cpp` that decides when a requested function is
handed to `schedule_func_call`: the branches `Call` and `DataResp` of the message loop, and what
the other branches do to the same maps.

* `handleFunc` is one turn of the loop over the functions of a call, `queryArg` one turn of the
  loop over its key arguments;
* `respond` is one turn of the loop of `DataResp` over the calls that wait for the key;
* `step` handles one message, `run` a sequence of messages from the start of the scheduler.

A call handed to `schedule_func_call` is recorded together with the `key_len_map` its arguments
were read from.  When no executor is free, `schedule_func_call` may forward the call and then looks
up the lengths of some keys with `operator[]`; `lookups n` are the keys that the `n`-th hand-off
looks up, for an arbitrary function `lookups`.
-/

namespace Demeter.Scheduler

open Demeter.Coordinator (FunctionCall)

/-- A requested function some of whose key arguments are not here yet. -/
structure InflightFuncArgs where
  funcName : String := ""
  sessionId : String := ""
  keyArgs : List Bytes := []
  inflightArgs : Finset Bytes := ∅
  argFlag : ℕ := 0
  cpuCores : Float := 0
  memoryMb : ℕ := 0

/-- The arguments of one call of `schedule_func_call`, the id of the requested function, and the
`key_len_map` of that moment. -/
structure HandOff where
  callId : ℕ
  sessionId : String
  appName : String
  funcName : String
  funcArgs : List Bytes
  argFlag : ℕ
  cpuCores : Float
  memoryMb : ℕ
  keyLenMap : Dict Bytes ℕ

/-- The maps of the scheduler that calls go through, and what it has asked for and handed over. -/
structure State where
  callId : ℕ := 0
  callIdInflightArgsMap : Dict ℕ InflightFuncArgs := Dict.empty
  keyCallIdMap : Dict Bytes (List ℕ) := Dict.empty
  keyLenMap : Dict Bytes ℕ := Dict.empty
  funcAppMap : Dict String String := Dict.empty
  dataReqs : List Bytes := []
  handOffs : List HandOff := []

/-- Insert into a `set`, a hash table in the source.  It is listed in increasing order, but no
result depends on the order. -/
def insertId (c : ℕ) (ids : List ℕ) : List ℕ :=
  if c ∈ ids then ids else ids.orderedInsert (· ≤ ·) c

/-- The keys and their lengths, `key_len_map[key]` being read with `operator[]`. -/
def fullArgs : Dict Bytes ℕ → List Bytes → Dict Bytes ℕ × List Bytes
  | lens, [] => (lens, [])
  | lens, key :: keys =>
      let touched := lens.touch key 0
      let rest := fullArgs touched keys
      (rest.1, key :: toStringNat ((touched.get? key).getD 0) :: rest.2)

/-! ### Handling a message -/

section Handlers

variable (lookups : ℕ → List Bytes)

/-- Hand a call to `schedule_func_call`. -/
def scheduleFuncCall (st : State) (h : HandOff) : State :=
  { st with
    keyLenMap := (lookups st.handOffs.length).foldl (fun d k => d.touch k 0) st.keyLenMap
    handOffs := st.handOffs ++ [h] }

/-- Hand a call to `schedule_func_call` with the lengths of its key arguments. -/
def scheduleWithKeys (st : State) (c : ℕ) (appName : String) (fa : InflightFuncArgs) : State :=
  let full := fullArgs st.keyLenMap fa.keyArgs
  scheduleFuncCall lookups { st with keyLenMap := full.1 }
    { callId := c, sessionId := fa.sessionId, appName := appName, funcName := fa.funcName
      funcArgs := full.2, argFlag := fa.argFlag, cpuCores := fa.cpuCores
      memoryMb := fa.memoryMb, keyLenMap := st.keyLenMap }

/-- Look for one key argument of the current call. -/
def queryArg (acc : State × InflightFuncArgs) (arg : Bytes) : State × InflightFuncArgs :=
  let st := acc.1
  let fa := { acc.2 with keyArgs := acc.2.keyArgs ++ [arg] }
  if arg ∈ st.keyLenMap.keys then (st, fa)
  else
    ({ st with
        -- the data query is sent only if there is none in flight
        dataReqs := if arg ∈ st.keyCallIdMap.keys then st.dataReqs else st.dataReqs ++ [arg]
        keyCallIdMap := st.keyCallIdMap.set arg
          (insertId st.callId ((st.keyCallIdMap.get? arg).getD [])) },
      { fa with inflightArgs := insert arg fa.inflightArgs })

/-- The record of a requested function before its arguments are looked for. -/
def newInflight (call : RecvCall) (f : RecvFunc) : InflightFuncArgs where
  funcName := f.funcName
  sessionId := call.sessionId
  argFlag := f.isFuncArgKey
  cpuCores := f.cpuCores
  memoryMb := f.memoryMb

/-- A function whose arguments are values is handed over as it is. -/
def plainCall (call : RecvCall) (st : State) (f : RecvFunc) : HandOff where
  callId := st.callId
  sessionId := call.sessionId
  appName := call.appName
  funcName := f.funcName
  funcArgs := f.funcArgs
  argFlag := 0
  cpuCores := f.cpuCores
  memoryMb := f.memoryMb
  keyLenMap := st.keyLenMap

/-- One function of a received call. -/
def handleFunc (call : RecvCall) (st : State) (f : RecvFunc) : State :=
  let handled :=
    if f.isFuncArgKey > 0 then
      let queried := f.funcArgs.foldl queryArg (st, newInflight call f)
      if queried.2.inflightArgs = ∅ then
        scheduleWithKeys lookups queried.1 st.callId call.appName queried.2
      else
        { queried.1 with
          callIdInflightArgsMap := queried.1.callIdInflightArgsMap.set st.callId queried.2 }
    else
      scheduleFuncCall lookups st (plainCall call st f)
  { handled with callId := handled.callId + 1 }

/-- The response for `key` is passed on to one of the calls that wait for it. -/
def respond (key : Bytes) (st : State) (cid : ℕ) : State :=
  let old := (st.callIdInflightArgsMap.get? cid).getD {}
  let fa := { old with inflightArgs := old.inflightArgs.erase key }
  let erased := { st with callIdInflightArgsMap := st.callIdInflightArgsMap.set cid fa }
  if fa.inflightArgs = ∅ then
    let app := (erased.funcAppMap.get? fa.funcName).getD ""
    let handed := scheduleWithKeys lookups
      { erased with funcAppMap := erased.funcAppMap.touch fa.funcName "" } cid app fa
    { handed with callIdInflightArgsMap := handed.callIdInflightArgsMap.erase cid }
  else erased

/-- An object has arrived: its size is kept, and every call that waits for it is looked at. -/
def handleDataResp (st : State) (key : Bytes) (size : ℕ) : State :=
  let st := { st with keyLenMap := st.keyLenMap.set key size }
  match st.keyCallIdMap.get? key with
  | none => st
  | some cids =>
      let responded := cids.foldl (respond lookups key) st
      { responded with keyCallIdMap := responded.keyCallIdMap.erase key }

/-- What the scheduler handles in its loop.  A put stores the length of the object unless its
packing flag is neither 1 nor 2, may look up keys for the functions that it triggers, and skips an
id for every active trigger; `other` are the delayed and the rerun calls, which may be forwarded. -/
inductive Event where
  | call (call : FunctionCall)
  | dataResp (key : Bytes) (size : ℕ)
  | kvsGetResp (objName : Bytes) (size : ℕ)
  | put (objName : Bytes) (size : Option ℕ) (looked : List Bytes) (activeTriggers : ℕ)
  | registerApp (appName : String) (functions : List String)
  | other (looked : List Bytes)

/-- One message. -/
def step (st : State) : Event → State
  | .call call =>
      let recv := handleFunctionCall call
      recv.funcs.foldl (handleFunc lookups recv) st
  | .dataResp key size => handleDataResp lookups st key size
  | .kvsGetResp objName size => { st with keyLenMap := st.keyLenMap.set objName size }
  | .put objName size looked activeTriggers =>
      let stored := match size with
        | none => st.keyLenMap
        | some n => st.keyLenMap.set objName n
      { st with
        keyLenMap := looked.foldl (fun d k => d.touch k 0) stored
        callId := st.callId + activeTriggers }
  | .registerApp appName functions =>
      { st with funcAppMap := functions.foldl (fun d f => d.set f appName) st.funcAppMap }
  | .other looked => { st with keyLenMap := looked.foldl (fun d k => d.touch k 0) st.keyLenMap }

/-- The state after some messages. -/
def run (events : List Event) : State := events.foldl (step lookups) {}

end Handlers

end Demeter.Scheduler
