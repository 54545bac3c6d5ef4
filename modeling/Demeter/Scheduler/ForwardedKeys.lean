import Demeter.Scheduler.Hints
import Demeter.Scheduler.DelayQueue

/-!
# Key arguments of forwarded calls

Which key arguments `forward_call_via_helper` gets, in any run of the loop of the scheduler.

* `PutObject` is an object that the send object handler has read, `putEvents` are the calls that
  the handler makes for it: direct dependencies, their batch forwarding, or triggers;
* `ServerInput` is a put or another event of the node, `serverStep` one turn of the loop;
* `Invocation` has the arguments of `forward_call_via_helper` beside those that its caller keeps,
  `Node.invocations` are the invocations that an event makes (`exists_invocation`: no others);
* `InPairs` is the invariant: calls are kept with their key arguments as name and size;
* `wellFormed_run` is the result about every run.
-/

namespace Demeter.Scheduler

open Demeter.Coordinator (FunctionCall)
open Demeter.Executor (stoi kDelimiterChar)

variable {n : ℕ}

/-! ### Puts -/

/-- An object as the handler reads it.  Its fields were between delimiters. -/
structure PutObject where
  sessionId : String
  srcFunction : String
  tgtFunction : String
  bucket : Bytes
  sessionKey : Bytes
  isDataPacking : ℕ
  info : Bytes
  bucket_clean : kDelimiterChar ∉ bucket
  sessionKey_clean : kDelimiterChar ∉ sessionKey
  info_clean : kDelimiterChar ∉ info

namespace PutObject

/-- The name of the object in the store of the node. -/
def objName (o : PutObject) : Bytes := o.bucket ++ kDelimiterChar :: o.sessionKey

/-- The length that is stored for the object; the outer `none` is an exception of `stoi`. -/
def storedLength (o : PutObject) : Option (Option ℕ) :=
  if o.isDataPacking = 1 then some (some o.info.length)
  else if o.isDataPacking = 2 then (stoi o.info).map fun size => some (size % 2 ^ 32).toNat
  else some none

/-- The arguments of a function that is invoked directly, with their flag. -/
def directArgs (o : PutObject) : List Bytes × ℕ :=
  if o.isDataPacking = 1 then ([o.info], 0)
  else if o.isDataPacking = 2 then ([o.objName, o.info], 1)
  else ([], 1)

end PutObject

/-- The bucket of direct invocations, which has no triggers. -/
def bucketNameDirectInvoc : Bytes := ascii "direct_invoc"

/-- The name of an object that a trigger has kept by session and key. -/
def getLocalObjectName (bucket : Bytes) (sessionKey : Bytes × Bytes) : Bytes :=
  bucket ++ kDelimiterChar :: (sessionKey.2 ++ sessionKey.1)

/-- A trigger with its actions for the new object: functions, and the objects for them. -/
structure FiredTrigger where
  triggerOption : ℕ
  actions : List (String × List (Bytes × Bytes))

/-- What the handler finds in the rest of the state. -/
structure Arrival where
  appName : String := ""
  keyValMap : Bytes → Option Bytes := fun _ => none
  fired : List FiredTrigger := []

/-- The functions for the actions of a trigger, in `check_object_arrival`: an action whose objects
all have cached values resets the flag for the rest. -/
def actionCalls (keyValMap : Bytes → Option Bytes) (keyLen : Bytes → ℕ) (bucket : Bytes) :
    ℕ → List (String × List (Bytes × Bytes)) → List (String × List Bytes × ℕ)
  | _, [] => []
  | argFlag, a :: actions =>
      let names := a.2.map (getLocalObjectName bucket)
      if ∀ name ∈ names, (keyValMap name).isSome then
        (a.1, names.map fun name => (keyValMap name).getD [], 0) ::
          actionCalls keyValMap keyLen bucket 0 actions
      else
        (a.1, names.flatMap fun name => [name, toStringNat (keyLen name)], argFlag) ::
          actionCalls keyValMap keyLen bucket argFlag actions

/-- The functions that direct dependencies invoke: those for which there is no executor are
forwarded together. -/
def directEvents (now : ℕ) (o : PutObject) (appName : String) (availExecutors : ℕ)
    (targets : List String) : List (Node.Event n) :=
  let invoke (func : String) : Node.Event n :=
    .invoke now o.sessionId appName func o.directArgs.1 o.directArgs.2
  if o.tgtFunction = "" then
    if targets.length > availExecutors then
      (targets.take availExecutors).map invoke ++
        [.forwardBatch o.sessionId appName
          ((targets.drop availExecutors).map fun func => (func, o.directArgs.1)) o.directArgs.2]
    else targets.map invoke
  else if o.tgtFunction ∈ targets then [invoke o.tgtFunction]
  else []

/-- The events of a put of ephemeral data; `none` is an exception of `stoi`. -/
def putEvents (s : Node n) (now : ℕ) (o : PutObject) (looked : List Bytes)
    (directDeps : Option (List String)) (arrival : Arrival) : Option (List (Node.Event n)) := do
  let size ← o.storedLength
  let appName := (s.table.funcAppMap.get? o.srcFunction).getD ""
  let lens := match size with
    | none => s.table.keyLenMap
    | some size => s.table.keyLenMap.set o.objName size
  let stored : Node.Event n := .message now (.put o.objName size looked arrival.fired.length)
  match directDeps with
  | some targets => return stored :: directEvents now o appName s.getAvailExecutorNum targets
  | none =>
      if o.bucket = bucketNameDirectInvoc then return [stored]
      else
        let calls := arrival.fired.flatMap fun t =>
          actionCalls arrival.keyValMap (fun name => (lens.get? name).getD 0) o.bucket
            (t.triggerOption + 1) t.actions
        return stored :: calls.map fun c =>
          .invoke now o.sessionId arrival.appName c.1 c.2.1 c.2.2

/-! ### The loop -/

/-- `directDeps` are the target functions of the source function of the object, in the order of
their hash table, and `none` if it has no dependencies; `looked` are the keys that are looked up
for triggers. -/
inductive ServerInput (n : ℕ) where
  | put (now : ℕ) (o : PutObject) (looked : List Bytes) (directDeps : Option (List String))
      (arrival : Arrival)
  | other (event : Node.Event n)

/-- Only puts invoke functions and forward batches. -/
def serverEvents (s : Node n) : ServerInput n → Option (List (Node.Event n))
  | .put now o looked directDeps arrival => putEvents s now o looked directDeps arrival
  | .other (.invoke ..) | .other (.forwardBatch ..) => none
  | .other event => some [event]

section Loop

variable (cfg : Config) (env : Env)

/-- A turn of the loop. -/
def serverStep (s : Node n) (input : ServerInput n) : Option (Node n) :=
  (serverEvents s input).bind (Runs.exec (Node.step cfg env) s)

/-! ### Invocations -/

/-- An invocation of `forward_call_via_helper`: the arguments of every function as its caller keeps
them and as they are passed. -/
structure Invocation where
  argFlag : ℕ
  funcs : List (List Bytes × List Bytes)
  deriving DecidableEq

/-- The passed arguments are bucket, key and size of the objects whose names and sizes are kept, so
that they come in threes and the names put together again are the kept ones. -/
def Invocation.WellFormed (inv : Invocation) : Prop :=
  inv.argFlag > 0 → ∀ f ∈ inv.funcs, 3 ∣ f.2.length ∧ keyNames f.2 = objectNames f.1 ∧
    ∃ objects : List KeyArg, f.1 = objects.flatMap KeyArg.pair ∧
      f.2 = objects.flatMap KeyArg.fields

/-- `schedule_func_call` forwards a call for which there is no executor. -/
def ScheduledCall.invocations (c : ScheduledCall) : List Invocation :=
  if cfg.schedDelayTime > 0 ∨ cfg.rejectExtraReq then []
  else (Node.flattenArgs c.argFlag c.funcArgs).toList.map fun args =>
    ⟨c.argFlag, [(c.funcArgs, args)]⟩

/-- The invocations of an event, if there is no executor for its calls. -/
def Node.invocations (s : Node n) : Node.Event n → List Invocation
  | .message _ event => (s.handedOver env event).flatMap fun h => h.call.invocations cfg
  | .invoke _ sessionId appName funcName funcArgs argFlag =>
      { origin := none, sessionId, appName, funcName, funcArgs, argFlag
        : ScheduledCall }.invocations cfg
  | .forwardBatch _ _ funcs argFlag =>
      if cfg.rejectExtraReq then [] else [⟨argFlag, funcs.map fun f => (f.2, f.2)⟩]
  | .delayDispatch _ => s.delayCallQueue.flatMap fun d => d.call.invocations cfg
  | .delayForward now =>
      if cfg.rejectExtraReq then []
      else (Node.expired cfg now s.delayCallQueue).map fun d =>
        ⟨d.call.argFlag, [(d.call.funcArgs, d.call.funcArgs)]⟩
  | .rerunCheck _ i _ => (s.rerunFuncs i).flatMap fun m => (Node.rerunCall "" "" m).invocations cfg
  | _ => []

/-- The invocations of a turn of the loop. -/
def ServerInput.invocations (s : Node n) (input : ServerInput n) : List Invocation :=
  ((serverEvents s input).getD []).flatMap (s.invocations cfg env)

/-! ### Inputs without malformed arguments -/

/-- The name of an object: a bucket and a key, which is not empty, with one delimiter. -/
def ProperName (name : Bytes) : Prop :=
  ∃ bucket key, name = bucket ++ kDelimiterChar :: key ∧ kDelimiterChar ∉ bucket ∧
    kDelimiterChar ∉ key ∧ key ≠ []

/-- The names of objects are proper, no batch of functions with key arguments is forwarded, and no
delayed call with key arguments expires. -/
def Node.Sound (s : Node n) : ServerInput n → Prop
  | .put _ o _ (some targets) _ => o.isDataPacking = 2 → o.sessionKey ≠ [] ∧
      (o.tgtFunction = "" → s.getAvailExecutorNum < targets.length → cfg.rejectExtraReq = true)
  | .put _ o _ none arrival => o.bucket ≠ bucketNameDirectInvoc → ∀ t ∈ arrival.fired,
      ∀ a ∈ t.actions, ∀ sessionKey ∈ a.2, ProperName (getLocalObjectName o.bucket sessionKey)
  | .other (.message _ (.call call)) => ∀ req ∈ call.requests, argFlag req.arguments > 0 →
      ∀ arg ∈ req.arguments, ProperName arg.body
  | .other (.delayForward now) => cfg.rejectExtraReq = true ∨
      ∀ d ∈ Node.expired cfg now s.delayCallQueue, d.call.argFlag = 0
  | _ => True

end Loop

/-! ### Calls are kept in pairs -/

/-- Key arguments that are kept as names and sizes of objects. -/
def KeptArgs (argFlag : ℕ) (args : List Bytes) : Prop :=
  argFlag > 0 → ∃ objects : List KeyArg, (∀ o ∈ objects, o.Proper) ∧
    args = objects.flatMap KeyArg.pair

theorem exists_objects {l : List (Bytes × ℕ)} (h : ∀ e ∈ l, ProperName e.1) :
    ∃ objects : List KeyArg, (∀ o ∈ objects, o.Proper) ∧
      (l.flatMap fun e => [e.1, toStringNat e.2]) = objects.flatMap KeyArg.pair := by
  induction l with
  | nil => exact ⟨[], by simp, rfl⟩
  | cons e l ih =>
    obtain ⟨objects, hproper, heq⟩ := ih fun e' he' => h e' (List.mem_cons_of_mem e he')
    obtain ⟨bucket, key, hname, hbucket, hkey, hne⟩ := h e List.mem_cons_self
    refine ⟨⟨bucket, key, toStringNat e.2⟩ :: objects, List.forall_mem_cons.2
      ⟨⟨hbucket, hkey, hne, (Executor.clean_toStringNat e.2).1⟩, hproper⟩, ?_⟩
    rw [List.flatMap_cons, List.flatMap_cons, heq, hname]
    rfl

theorem exists_lengths_fullArgs (lens : Dict Bytes ℕ) (keys : List Bytes) :
    ∃ l : List (Bytes × ℕ), l.map Prod.fst = keys ∧
      (fullArgs lens keys).2 = l.flatMap fun e => [e.1, toStringNat e.2] := by
  induction keys generalizing lens with
  | nil => exact ⟨[], rfl, rfl⟩
  | cons key keys ih =>
    obtain ⟨l, hl, heq⟩ := ih (lens.touch key 0)
    refine ⟨(key, ((lens.touch key 0).get? key).getD 0) :: l, by rw [List.map_cons, hl], ?_⟩
    rw [fullArgs, List.flatMap_cons, ← heq]
    rfl

theorem keptArgs_fullArgs {argFlag : ℕ} {keys : List Bytes}
    (h : argFlag > 0 → ∀ key ∈ keys, ProperName key) (lens : Dict Bytes ℕ) :
    KeptArgs argFlag (fullArgs lens keys).2 := by
  intro hflag
  obtain ⟨l, rfl, heq⟩ := exists_lengths_fullArgs lens keys
  rw [heq]
  exact exists_objects fun e he => h hflag e.1 (List.mem_map_of_mem he)

/-- The calls of the call table have proper names, and are handed over in pairs. -/
structure TableInPairs (st : State) : Prop where
  stored : ∀ c fa, st.callIdInflightArgsMap.get? c = some fa → fa.argFlag > 0 →
    ∀ key ∈ fa.keyArgs, ProperName key
  handed : ∀ h ∈ st.handOffs, KeptArgs h.argFlag h.funcArgs

section Table

variable {st : State} (lookups : ℕ → List Bytes)

theorem TableInPairs.scheduleFuncCall (ht : TableInPairs st) {h : HandOff}
    (hh : KeptArgs h.argFlag h.funcArgs) : TableInPairs (scheduleFuncCall lookups st h) where
  stored := ht.stored
  handed := List.forall_mem_append.2 ⟨ht.handed, List.forall_mem_singleton.2 hh⟩

theorem TableInPairs.scheduleWithKeys (ht : TableInPairs st) (c : ℕ) (appName : String)
    {fa : InflightFuncArgs} (hfa : fa.argFlag > 0 → ∀ key ∈ fa.keyArgs, ProperName key) :
    TableInPairs (scheduleWithKeys lookups st c appName fa) := by
  have ht' : TableInPairs { st with keyLenMap := (fullArgs st.keyLenMap fa.keyArgs).1 } :=
    ⟨ht.stored, ht.handed⟩
  exact ht'.scheduleFuncCall lookups (keptArgs_fullArgs hfa st.keyLenMap)

theorem TableInPairs.handleFunc (ht : TableInPairs st) {call : RecvCall} {f : RecvFunc}
    (hf : f.isFuncArgKey > 0 → ∀ arg ∈ f.funcArgs, ProperName arg) :
    TableInPairs (handleFunc lookups call st f) := by
  unfold Scheduler.handleFunc
  by_cases hkey : f.isFuncArgKey > 0
  · have hq := queried_foldl f.funcArgs (st, newInflight call f)
    set q := f.funcArgs.foldl queryArg (st, newInflight call f)
    obtain ⟨reqs, ids, hst⟩ := hq.eq_state
    have hfa : q.2.argFlag > 0 → ∀ key ∈ q.2.keyArgs, ProperName key := by
      rw [hq.eq_inflight]
      exact fun _ => hf hkey
    have hq1 : TableInPairs q.1 := by
      rw [hst]
      exact ⟨ht.stored, ht.handed⟩
    simp only [if_pos hkey]
    split_ifs
    · have h := hq1.scheduleWithKeys lookups st.callId call.appName hfa
      exact ⟨h.stored, h.handed⟩
    · refine ⟨fun c fa hc => ?_, hq1.handed⟩
      rw [Dict.get?_set] at hc
      split_ifs at hc
      · obtain rfl := Option.some.inj hc
        exact hfa
      · exact hq1.stored c fa hc
  · simp only [if_neg hkey]
    have h := ht.scheduleFuncCall lookups (h := plainCall call st f) fun hflag =>
      absurd hflag (lt_irrefl 0)
    exact ⟨h.stored, h.handed⟩

theorem TableInPairs.respond (ht : TableInPairs st) (key : Bytes) (cid : ℕ) :
    TableInPairs (respond lookups key st cid) := by
  unfold Scheduler.respond
  set fa : InflightFuncArgs := { (st.callIdInflightArgsMap.get? cid).getD {} with
    inflightArgs := ((st.callIdInflightArgsMap.get? cid).getD {}).inflightArgs.erase key }
    with hfadef
  have hfa : fa.argFlag > 0 → ∀ key ∈ fa.keyArgs, ProperName key := by
    rw [hfadef]
    cases hget : st.callIdInflightArgsMap.get? cid with
    | none => exact fun hflag => absurd hflag (lt_irrefl 0)
    | some old => exact ht.stored cid old hget
  have herased : TableInPairs { st with
      callIdInflightArgsMap := st.callIdInflightArgsMap.set cid fa } := by
    refine ⟨fun c fa' hc => ?_, ht.handed⟩
    rw [Dict.get?_set] at hc
    split_ifs at hc
    · obtain rfl := Option.some.inj hc
      exact hfa
    · exact ht.stored c fa' hc
  simp only
  split_ifs
  · have htouched : TableInPairs { st with
        callIdInflightArgsMap := st.callIdInflightArgsMap.set cid fa
        funcAppMap := st.funcAppMap.touch fa.funcName "" } := ⟨herased.stored, herased.handed⟩
    have h := htouched.scheduleWithKeys lookups cid ((st.funcAppMap.get? fa.funcName).getD "") hfa
    refine ⟨fun c fa' hc => ?_, h.handed⟩
    rw [Dict.get?_erase] at hc
    split_ifs at hc
    exact h.stored c fa' hc
  · exact herased

theorem TableInPairs.step (ht : TableInPairs st) {event : Event}
    (hcall : ∀ call, event = .call call → ∀ req ∈ call.requests, argFlag req.arguments > 0 →
      ∀ arg ∈ req.arguments, ProperName arg.body) : TableInPairs (step lookups st event) := by
  cases event with
  | call call =>
    refine List.foldlRecOn (motive := TableInPairs) _ _ ht fun st hst f hf => ?_
    obtain ⟨req, hreq, rfl⟩ := List.mem_map.1 hf
    refine hst.handleFunc lookups fun hflag arg harg => ?_
    obtain ⟨a, ha, rfl⟩ := List.mem_map.1 harg
    exact hcall call rfl req hreq hflag a ha
  | dataResp key size =>
    have hlen : TableInPairs { st with keyLenMap := st.keyLenMap.set key size } :=
      ⟨ht.stored, ht.handed⟩
    rw [Scheduler.step, handleDataResp]
    simp only
    split
    · exact hlen
    · next cids _ =>
      have h : TableInPairs (cids.foldl (Scheduler.respond lookups key)
          { st with keyLenMap := st.keyLenMap.set key size }) :=
        List.foldlRecOn (motive := TableInPairs) _ _ hlen fun st hst cid _ =>
          hst.respond lookups key cid
      exact ⟨h.stored, h.handed⟩
  | _ => exact ⟨ht.stored, ht.handed⟩

end Table

namespace Node

/-- Everything that a node keeps of its calls has its key arguments in pairs. -/
structure InPairs (s : Node n) : Prop where
  table : TableInPairs s.table
  delayed : ∀ d ∈ s.delayCallQueue, KeptArgs d.call.argFlag d.call.funcArgs
  cached : ∀ t ∈ s.triggers, t.Caches fun m => KeptArgs m.argFlag m.funcArgs

/-- The key arguments of an event are proper. -/
def Event.Kept : Event n → Prop
  | .message _ (.call call) => ∀ req ∈ call.requests, argFlag req.arguments > 0 →
      ∀ arg ∈ req.arguments, ProperName arg.body
  | .invoke _ _ _ _ funcArgs argFlag => KeptArgs argFlag funcArgs
  | _ => True

section Steps

variable {cfg : Config} {env : Env} {s s' : Node n} {now : ℕ}

theorem InPairs.notifySources (hs : s.InPairs) {c : ScheduledCall}
    (hc : KeptArgs c.argFlag c.funcArgs) : (notifySources now s c).InPairs :=
  List.foldlRecOn (motive := fun s : Node n => s.InPairs) _ _ hs fun _ hs _ _ =>
    ⟨hs.table, hs.delayed, forall_mem_modify hs.cached
      (fun _ ht => ht.notifySourceFunc c.sessionId hc) _⟩

theorem InPairs.scheduleFuncCall (hs : s.InPairs) {keyLenMap : Dict Bytes ℕ} {c : ScheduledCall}
    (hc : KeptArgs c.argFlag c.funcArgs)
    (h : s.scheduleFuncCall cfg env now keyLenMap c = some s') : s'.InPairs := by
  unfold Node.scheduleFuncCall at h
  split at h
  · obtain rfl := Option.some.inj h
    refine InPairs.notifySources ?_ hc
    exact ⟨hs.table, hs.delayed, hs.cached⟩
  · split_ifs at h
    · obtain rfl := Option.some.inj h
      exact ⟨hs.table, List.forall_mem_append.2 ⟨hs.delayed, List.forall_mem_singleton.2 hc⟩,
        hs.cached⟩
    · exact Option.some.inj h ▸ hs
    · obtain ⟨args, -, h⟩ := Option.bind_eq_some_iff.1 h
      obtain ⟨call, rfl, -⟩ := forward_spec h
      exact ⟨hs.table, hs.delayed, hs.cached⟩

theorem InPairs.delayDispatch (hs : s.InPairs) {k : ℕ}
    (h : s.delayDispatch cfg env now k = some s') : s'.InPairs := by
  induction k generalizing s with
  | zero => exact Option.some.inj h ▸ hs
  | succ k ih =>
    rw [Node.delayDispatch] at h
    split at h
    · exact Option.some.inj h ▸ hs
    · next d ds hqueue =>
      obtain ⟨mid, hmid, h⟩ := Option.bind_eq_some_iff.1 h
      have hd := hs.delayed d (by rw [hqueue]; exact List.mem_cons_self)
      have hpairs := hs.scheduleFuncCall hd hmid
      have hpopped : InPairs { mid with delayCallQueue := mid.delayCallQueue.tail } :=
        ⟨hpairs.table, fun d' hd' => hpairs.delayed d' (List.mem_of_mem_tail hd'), hpairs.cached⟩
      exact ih hpopped h

theorem InPairs.delayForward {queue : List DelayFunctionCall} (hs : s.InPairs)
    (hqueue : ∀ d ∈ queue, KeptArgs d.call.argFlag d.call.funcArgs)
    (h : s.delayForward cfg env now queue = some s') : s'.InPairs := by
  induction queue generalizing s with
  | nil =>
    obtain rfl := Option.some.inj h
    exact ⟨hs.table, hqueue, hs.cached⟩
  | cons d ds ih =>
    rw [Node.delayForward] at h
    split_ifs at h
    · exact ih hs (fun d' hd' => hqueue d' (List.mem_cons_of_mem d hd')) h
    · obtain ⟨mid, hmid, h⟩ := Option.bind_eq_some_iff.1 h
      obtain ⟨call, rfl, -⟩ := forward_spec hmid
      have hsent : InPairs { s with sent := s.sent ++ [⟨d.call.origin, .coordinator call⟩] } :=
        ⟨hs.table, hs.delayed, hs.cached⟩
      exact ih hsent (fun d' hd' => hqueue d' (List.mem_cons_of_mem d hd')) h
    · obtain rfl := Option.some.inj h
      exact ⟨hs.table, hqueue, hs.cached⟩

/-- What is executed again was kept. -/
theorem InPairs.keptArgs_rerunFuncs (hs : s.InPairs) {i : ℕ} {m : TriggerFunctionMetadata}
    (hm : m ∈ s.rerunFuncs i) : KeptArgs m.argFlag m.funcArgs := by
  unfold rerunFuncs at hm
  split at hm
  · cases hm
  · split at hm
    · cases hm
    · next t ht => exact (hs.cached t (List.mem_of_getElem? ht)).actionForRerun hm

theorem InPairs.rerunCheck (hs : s.InPairs) {i j : ℕ}
    (h : s.rerunCheck cfg env now i j = some s') : s'.InPairs := by
  obtain ⟨item, -, h⟩ := Option.bind_eq_some_iff.1 h
  obtain ⟨_, -, h⟩ := Option.bind_eq_some_iff.1 h
  obtain ⟨mid, hmid, h⟩ := Option.bind_eq_some_iff.1 h
  obtain ⟨popped, -, h⟩ := Option.bind_eq_some_iff.1 h
  obtain ⟨_, -, h⟩ := Option.bind_eq_some_iff.1 h
  obtain rfl := Option.some.inj h
  have hmid' : mid.InPairs := Runs.exec_invariant (P := fun s : Node n => s.InPairs)
    (fun s m s' hm hstep hs => InPairs.scheduleFuncCall (s := { s with
      table := { s.table with funcAppMap := s.table.funcAppMap.touch m.funcName "" } })
      ⟨⟨hs.table.stored, hs.table.handed⟩, hs.delayed, hs.cached⟩ hm hstep)
    (Runs.allowed_of_forall (fun m hm => hs.keptArgs_rerunFuncs hm) s) hmid hs
  exact ⟨hmid'.table, hmid'.delayed, hmid'.cached⟩

/-- The call table after an event, without the recorded requests. -/
theorem fst_receive (env : Env) (acc : State × Dict ℕ (Float × ℕ)) (event : Scheduler.Event) :
    (receive env acc event).1 = Scheduler.step env.lookups acc.1 event := by
  cases event with
  | call call =>
    show ((handleFunctionCall call).funcs.foldl (receiveFunc env (handleFunctionCall call)) acc).1 =
      (handleFunctionCall call).funcs.foldl
        (handleFunc env.lookups (handleFunctionCall call)) acc.1
    generalize (handleFunctionCall call).funcs = funcs
    induction funcs generalizing acc with
    | nil => rfl
    | cons f funcs ih =>
      rw [List.foldl_cons, List.foldl_cons, ih]
      rfl
  | _ => rfl

theorem InPairs.received (hs : s.InPairs) {event : Scheduler.Event}
    (hevent : (Event.message now event : Event n).Kept) :
    (s.received env event).InPairs ∧
      ∀ h ∈ s.handedOver env event, KeptArgs h.argFlag h.funcArgs := by
  have htable : TableInPairs (receive env (s.table, s.requested) event).1 := by
    rw [fst_receive]
    refine hs.table.step env.lookups ?_
    rintro call rfl
    exact hevent
  exact ⟨⟨htable, hs.delayed, hs.cached⟩, fun h hh => htable.handed h (List.mem_of_mem_drop hh)⟩

theorem InPairs.step (hs : s.InPairs) {event : Event n} (hevent : event.Kept)
    (h : s.step cfg env event = some s') : s'.InPairs := by
  cases event with
  | message now event =>
    obtain ⟨hreceived, hhanded⟩ := hs.received hevent
    exact Runs.exec_invariant (P := fun s : Node n => s.InPairs)
      (fun _ _ _ hc hstep hs => hs.scheduleFuncCall hc hstep)
      (Runs.allowed_of_forall hhanded _) h hreceived
  | invoke now sessionId appName funcName funcArgs argFlag =>
    exact InPairs.scheduleFuncCall
      (c := { origin := none, sessionId, appName, funcName, funcArgs, argFlag }) hs hevent h
  | forwardBatch sessionId appName funcs argFlag =>
    rw [Node.step] at h
    split_ifs at h
    · exact Option.some.inj h ▸ hs
    · obtain ⟨call, rfl, -⟩ := forward_spec h
      exact ⟨hs.table, hs.delayed, hs.cached⟩
  | executorStatus e status =>
    obtain rfl := Option.some.inj h
    exact ⟨hs.table, hs.delayed, hs.cached⟩
  | addTrigger trigger hints =>
    obtain rfl := Option.some.inj h
    exact ⟨hs.table, hs.delayed, List.forall_mem_append.2
      ⟨hs.cached, List.forall_mem_singleton.2 (RerunTrigger.caches_init trigger _)⟩⟩
  | newObject trigger sessionId key =>
    obtain rfl := Option.some.inj h
    exact ⟨hs.table, hs.delayed,
      forall_mem_modify hs.cached (fun _ ht => ht.newObject sessionId key) trigger⟩
  | clear trigger sessionId =>
    obtain rfl := Option.some.inj h
    exact ⟨hs.table, hs.delayed,
      forall_mem_modify hs.cached (fun _ ht => ht.clear sessionId) trigger⟩
  | delayDispatch now => exact hs.delayDispatch h
  | delayForward now => exact hs.delayForward hs.delayed h
  | rerunCheck now i j => exact hs.rerunCheck h

theorem inPairs_init : ({} : Node n).InPairs where
  table := ⟨fun c fa h => by simp at h, fun h hh => by simp at hh⟩
  delayed d hd := by simp at hd
  cached t ht := by simp at ht

end Steps

end Node

/-! ### Invocations -/

section Invocations

variable {cfg : Config} {env : Env} {s s' : Node n}

/-- Objects in both forms. -/
theorem wellFormed_objects (argFlag : ℕ) (objects : List KeyArg) :
    Invocation.WellFormed
      ⟨argFlag, [(objects.flatMap KeyArg.pair, objects.flatMap KeyArg.fields)]⟩ := by
  refine fun _ => List.forall_mem_singleton.2 ⟨?_, ?_, objects, rfl, rfl⟩
  · exact ⟨objects.length, length_fields objects⟩
  · rw [keyNames_fields, objectNames_pairs]

theorem wellFormed_invocations {c : ScheduledCall} (hc : KeptArgs c.argFlag c.funcArgs)
    {inv : Invocation} (hinv : inv ∈ c.invocations cfg) : inv.WellFormed := by
  unfold ScheduledCall.invocations at hinv
  split_ifs at hinv
  · cases hinv
  · obtain ⟨args, hargs, rfl⟩ := List.mem_map.1 hinv
    intro hflag
    obtain ⟨objects, hproper, heq⟩ := hc hflag
    rw [Option.mem_toList, heq] at hargs
    have hne : objects ≠ [] := by
      rintro rfl
      rw [List.flatMap_nil, Node.flattenArgs, if_pos hflag] at hargs
      cases hargs
    rw [flattenArgs_pairs hflag hne hproper] at hargs
    obtain rfl := Option.some.inj hargs
    rw [heq]
    exact wellFormed_objects c.argFlag objects hflag

/-- Arguments that are passed as they are kept are well formed if there are none, or no keys. -/
theorem wellFormed_unchanged {argFlag : ℕ} (kept : List (List Bytes))
    (h : argFlag = 0 ∨ ∀ args ∈ kept, args = []) :
    Invocation.WellFormed ⟨argFlag, kept.map fun args => (args, args)⟩ := by
  rintro hflag f hf
  obtain ⟨args, hargs, rfl⟩ := List.mem_map.1 hf
  obtain rfl := h.resolve_left hflag.ne' args hargs
  exact wellFormed_objects argFlag [] hflag _ List.mem_cons_self

/-- An event from which no malformed arguments come: it keeps its key arguments in pairs, and
passes none on as they are kept. -/
structure Node.Harmless (cfg : Config) (s : Node n) (event : Node.Event n) : Prop where
  kept : event.Kept
  batch : ∀ sessionId appName funcs argFlag,
    event = .forwardBatch sessionId appName funcs argFlag → cfg.rejectExtraReq = true ∨
      argFlag = 0 ∨ ∀ f ∈ funcs, f.2 = []
  expired : ∀ now, event = .delayForward now → cfg.rejectExtraReq = true ∨
    ∀ d ∈ Node.expired cfg now s.delayCallQueue, d.call.argFlag = 0

theorem Node.InPairs.wellFormed (hs : s.InPairs) {event : Node.Event n}
    (hevent : s.Harmless cfg event) {inv : Invocation}
    (hinv : inv ∈ s.invocations cfg env event) : inv.WellFormed := by
  cases event with
  | message now event =>
    obtain ⟨h, hh, hinv⟩ := List.mem_flatMap.1 hinv
    exact wellFormed_invocations ((hs.received hevent.kept).2 h hh) hinv
  | invoke now sessionId appName funcName funcArgs argFlag =>
    exact wellFormed_invocations
      (c := { origin := none, sessionId, appName, funcName, funcArgs, argFlag }) hevent.kept hinv
  | forwardBatch sessionId appName funcs argFlag =>
    -- the batch is forwarded as it is, without the lengths of its keys
    rw [Node.invocations] at hinv
    split_ifs at hinv with hreject
    · cases hinv
    · obtain rfl := List.mem_singleton.1 hinv
      have h := (hevent.batch _ _ _ _ rfl).resolve_left hreject
      have hmap : (funcs.map fun f => (f.2, f.2)) =
          (funcs.map Prod.snd).map fun args => (args, args) := by rw [List.map_map]; rfl
      rw [hmap]
      refine wellFormed_unchanged _ (h.imp_right fun hall args hargs => ?_)
      obtain ⟨f, hf, rfl⟩ := List.mem_map.1 hargs
      exact hall f hf
  | delayDispatch now =>
    obtain ⟨d, hd, hinv⟩ := List.mem_flatMap.1 hinv
    exact wellFormed_invocations (hs.delayed d hd) hinv
  | delayForward now =>
    rw [Node.invocations] at hinv
    split_ifs at hinv with hreject
    · cases hinv
    · obtain ⟨d, hd, rfl⟩ := List.mem_map.1 hinv
      have h := (hevent.expired now rfl).resolve_left hreject d hd
      exact wellFormed_unchanged [d.call.funcArgs] (.inl h)
  | rerunCheck now i j =>
    obtain ⟨m, hm, hinv⟩ := List.mem_flatMap.1 hinv
    exact wellFormed_invocations (c := Node.rerunCall "" "" m) (hs.keptArgs_rerunFuncs hm) hinv
  | _ => cases hinv

/-! ### There are no other invocations -/

/-- The invocation makes this call to the coordinator. -/
def Invocation.Makes (cfg : Config) (env : Env) (inv : Invocation) (call : FunctionCall) : Prop :=
  ∃ mem keyLenMap respAddress sessionId appName funcs,
    funcs.map Prod.snd = inv.funcs.map Prod.snd ∧
      forwardCallViaHelper mem keyLenMap cfg.ip env.dataServerAddr respAddress sessionId appName
        funcs inv.argFlag = some call

/-- Every new message to the coordinator is made by one of the invocations. -/
def MadeBy (cfg : Config) (env : Env) (invs : List Invocation) (s s' : Node n) : Prop :=
  ∀ m ∈ s'.sent, ∀ call, m.message = .coordinator call →
    m ∈ s.sent ∨ ∃ inv ∈ invs, inv.Makes cfg env call

theorem madeBy_of_eq {invs : List Invocation} (h : s'.sent = s.sent) : MadeBy cfg env invs s s' :=
  fun _ hm _ _ => .inl (h ▸ hm)

theorem MadeBy.trans {invs : List Invocation} {s'' : Node n} (h : MadeBy cfg env invs s s')
    (h' : MadeBy cfg env invs s' s'') : MadeBy cfg env invs s s'' := fun m hm call hcall =>
  (h' m hm call hcall).elim (fun hmem => h m hmem call hcall) .inr

theorem MadeBy.mono {invs invs' : List Invocation} (h : MadeBy cfg env invs s s')
    (hsub : invs ⊆ invs') : MadeBy cfg env invs' s s' := fun m hm call hcall =>
  (h m hm call hcall).imp_right fun hmade => by
    obtain ⟨inv, hinv, hmakes⟩ := hmade
    exact ⟨inv, hsub hinv, hmakes⟩

theorem madeBy_forward {keyLenMap : Dict Bytes ℕ} {origin : Option ℕ}
    {sessionId appName : String} {funcs : List (String × List Bytes)} {argFlag : ℕ}
    (h : s.forward cfg env keyLenMap origin sessionId appName funcs argFlag = some s')
    {inv : Invocation} (hfuncs : funcs.map Prod.snd = inv.funcs.map Prod.snd)
    (hflag : inv.argFlag = argFlag) : MadeBy cfg env [inv] s s' := by
  obtain ⟨call, hcall, h⟩ := Option.bind_eq_some_iff.1 h
  obtain rfl := Option.some.inj h
  intro m hm call' hcall'
  rcases List.mem_append.1 hm with hm | hm
  · exact .inl hm
  · obtain rfl := List.mem_singleton.1 hm
    obtain rfl := Outgoing.coordinator.inj hcall'
    exact .inr ⟨inv, List.mem_singleton_self inv, _, _, _, _, _, funcs, hfuncs, hflag ▸ hcall⟩

theorem madeBy_scheduleFuncCall {now : ℕ} {keyLenMap : Dict Bytes ℕ} {c : ScheduledCall}
    (h : s.scheduleFuncCall cfg env now keyLenMap c = some s') :
    MadeBy cfg env (c.invocations cfg) s s' := by
  unfold Node.scheduleFuncCall at h
  split at h
  · next e _ =>
    obtain rfl := Option.some.inj h
    have hsent : (s.dispatch env now c e).sent = _ := (Node.notifySources_eq now _ c).2.2.1
    intro m hm call hcall
    rw [hsent] at hm
    rcases List.mem_append.1 hm with hm | hm
    · exact .inl hm
    · obtain rfl := List.mem_singleton.1 hm
      cases hcall
  · split_ifs at h with hdelay hreject
    · obtain rfl := Option.some.inj h
      exact madeBy_of_eq rfl
    · obtain rfl := Option.some.inj h
      exact madeBy_of_eq rfl
    · obtain ⟨args, hargs, h⟩ := Option.bind_eq_some_iff.1 h
      have hmade : MadeBy cfg env [⟨c.argFlag, [(c.funcArgs, args)]⟩] s s' :=
        madeBy_forward h rfl rfl
      refine hmade.mono ?_
      rw [ScheduledCall.invocations, if_neg (by simp [hdelay, hreject]), hargs]
      exact List.Subset.refl _

theorem madeBy_exec {α : Type*} {step : Node n → α → Option (Node n)} {invs : α → List Invocation}
    (hstep : ∀ s a s', step s a = some s' → MadeBy cfg env (invs a) s s') {l : List α}
    (h : Runs.exec step s l = some s') : MadeBy cfg env (l.flatMap invs) s s' :=
  Runs.exec_invariant (P := MadeBy cfg env (l.flatMap invs) s)
    (fun s₁ a s₂ ha hs hmade => hmade.trans ((hstep s₁ a s₂ hs).mono
      fun _ hinv => List.mem_flatMap.2 ⟨a, ha, hinv⟩))
    (Runs.allowed_of_forall (fun _ ha => ha) s) h (madeBy_of_eq rfl)

/-- The arguments do not depend on the session and the application. -/
theorem madeBy_rerun {now : ℕ} {sessionId : String} {m : TriggerFunctionMetadata}
    (h : s.rerun cfg env now sessionId m = some s') :
    MadeBy cfg env ((Node.rerunCall "" "" m).invocations cfg) s s' := by
  have hscheduled := madeBy_scheduleFuncCall h
  exact fun m' hm' => hscheduled m' hm'

/-- A call that is scheduled may be queued again. -/
theorem mem_delayCallQueue_scheduleFuncCall {now : ℕ} {keyLenMap : Dict Bytes ℕ}
    {c : ScheduledCall} (h : s.scheduleFuncCall cfg env now keyLenMap c = some s')
    {d : DelayFunctionCall} (hd : d ∈ s'.delayCallQueue) : d ∈ s.delayCallQueue ∨ d.call = c := by
  obtain ⟨e, -, hsent, -⟩ | ⟨-, haside⟩ := Node.scheduleFuncCall_cases h
  · exact .inl (hsent.delayCallQueue ▸ hd)
  · rcases Nat.eq_zero_or_pos cfg.schedDelayTime with hzero | hpos
    · cases hreject : cfg.rejectExtraReq with
      | true => exact .inl ((haside.rejected hzero hreject).1 ▸ hd)
      | false => exact .inl ((haside.forwarded hzero hreject).1 ▸ hd)
    · rw [(haside.queued hpos).1] at hd
      rcases List.mem_append.1 hd with hd | hd
      · exact .inl hd
      · exact .inr (congrArg DelayFunctionCall.call (List.mem_singleton.1 hd))

theorem madeBy_delayDispatch {now k : ℕ} {calls : List ScheduledCall}
    (hcalls : ∀ d ∈ s.delayCallQueue, d.call ∈ calls)
    (h : s.delayDispatch cfg env now k = some s') :
    MadeBy cfg env (calls.flatMap fun c => c.invocations cfg) s s' := by
  induction k generalizing s with
  | zero =>
    obtain rfl := Option.some.inj h
    exact madeBy_of_eq rfl
  | succ k ih =>
    rw [Node.delayDispatch] at h
    split at h
    · obtain rfl := Option.some.inj h
      exact madeBy_of_eq rfl
    · next d ds hqueue =>
      obtain ⟨mid, hmid, h⟩ := Option.bind_eq_some_iff.1 h
      have hd : d.call ∈ calls := hcalls d (by rw [hqueue]; exact List.mem_cons_self)
      have hfirst : MadeBy cfg env (calls.flatMap fun c => c.invocations cfg) s mid :=
        (madeBy_scheduleFuncCall hmid).mono fun _ hinv => List.mem_flatMap.2 ⟨d.call, hd, hinv⟩
      have hrest : ∀ d' ∈ mid.delayCallQueue.tail, d'.call ∈ calls := by
        intro d' hd'
        rcases mem_delayCallQueue_scheduleFuncCall hmid (List.mem_of_mem_tail hd') with hd' | heq
        · exact hcalls d' hd'
        · rw [heq]
          exact hd
      have hpopped : MadeBy cfg env (calls.flatMap fun c => c.invocations cfg) mid
          { mid with delayCallQueue := mid.delayCallQueue.tail } := madeBy_of_eq rfl
      exact hfirst.trans (hpopped.trans (ih hrest h))

theorem madeBy_delayForward {now : ℕ} {queue : List DelayFunctionCall}
    (h : s.delayForward cfg env now queue = some s') :
    MadeBy cfg env (if cfg.rejectExtraReq then []
      else (Node.expired cfg now queue).map fun d =>
        ⟨d.call.argFlag, [(d.call.funcArgs, d.call.funcArgs)]⟩) s s' := by
  induction queue generalizing s with
  | nil =>
    obtain rfl := Option.some.inj h
    exact madeBy_of_eq rfl
  | cons d ds ih =>
    rw [Node.delayForward] at h
    by_cases hlate : now - d.triggerTime > cfg.schedDelayTime
    · rw [if_pos hlate] at h
      by_cases hreject : cfg.rejectExtraReq = true
      · rw [if_pos hreject] at h ih ⊢
        exact ih h
      · rw [if_neg hreject] at h ih ⊢
        obtain ⟨mid, hmid, h⟩ := Option.bind_eq_some_iff.1 h
        have hexpired : Node.expired cfg now (d :: ds) = d :: Node.expired cfg now ds := by
          simp [Node.expired, hlate]
        have hfirst : MadeBy cfg env
            [⟨d.call.argFlag, [(d.call.funcArgs, d.call.funcArgs)]⟩] s mid :=
          madeBy_forward hmid rfl rfl
        rw [hexpired, List.map_cons]
        refine (hfirst.mono ?_).trans ((ih h).mono (List.subset_cons_self _ _))
        exact List.cons_subset_cons _ (List.nil_subset _)
    · rw [if_neg hlate] at h
      obtain rfl := Option.some.inj h
      exact madeBy_of_eq rfl

/-- Every call that an event sends to the coordinator is made by one of the invocations. -/
theorem exists_invocation {event : Node.Event n} (h : s.step cfg env event = some s') :
    MadeBy cfg env (s.invocations cfg env event) s s' := by
  cases event with
  | message now event =>
    have hreceived : MadeBy cfg env (s.invocations cfg env (.message now event)) s
        (s.received env event) := madeBy_of_eq rfl
    exact hreceived.trans (madeBy_exec (fun _ _ _ hs => madeBy_scheduleFuncCall hs) h)
  | invoke now sessionId appName funcName funcArgs argFlag => exact madeBy_scheduleFuncCall h
  | forwardBatch sessionId appName funcs argFlag =>
    rw [Node.step] at h
    rw [Node.invocations]
    split_ifs at h ⊢
    · obtain rfl := Option.some.inj h
      exact madeBy_of_eq rfl
    · exact madeBy_forward h (by rw [List.map_map]; rfl) rfl
  | delayDispatch now =>
    have hmade : MadeBy cfg env ((s.delayCallQueue.map DelayFunctionCall.call).flatMap
        fun c => c.invocations cfg) s s' :=
      madeBy_delayDispatch (fun d hd => List.mem_map_of_mem hd) h
    rwa [List.flatMap_map] at hmade
  | delayForward now => exact madeBy_delayForward h
  | rerunCheck now i j =>
    obtain ⟨item, -, h⟩ := Option.bind_eq_some_iff.1 h
    obtain ⟨_, -, h⟩ := Option.bind_eq_some_iff.1 h
    obtain ⟨mid, hmid, h⟩ := Option.bind_eq_some_iff.1 h
    obtain ⟨popped, -, h⟩ := Option.bind_eq_some_iff.1 h
    obtain ⟨_, -, h⟩ := Option.bind_eq_some_iff.1 h
    obtain rfl := Option.some.inj h
    have hmade : MadeBy cfg env ((s.rerunFuncs i).flatMap fun m =>
        (Node.rerunCall "" "" m).invocations cfg) s mid :=
      madeBy_exec (fun _ _ _ hs => madeBy_rerun hs) hmid
    exact hmade.trans (madeBy_of_eq rfl)
  | _ =>
    obtain rfl := Option.some.inj h
    exact madeBy_of_eq rfl

end Invocations

/-! ### The events of a put -/

section Puts

variable {cfg : Config} {env : Env} {s s' : Node n}

theorem PutObject.keptArgs_directArgs {o : PutObject}
    (h : o.isDataPacking = 2 → o.sessionKey ≠ []) : KeptArgs o.directArgs.2 o.directArgs.1 := by
  unfold PutObject.directArgs
  split_ifs with hvalue hsize
  · exact fun hflag => absurd hflag (lt_irrefl 0)
  · exact fun _ => ⟨[⟨o.bucket, o.sessionKey, o.info⟩], List.forall_mem_singleton.2
      ⟨o.bucket_clean, o.sessionKey_clean, h hsize, o.info_clean⟩, rfl⟩
  · exact fun _ => ⟨[], by simp, rfl⟩

theorem keptArgs_actionCalls {keyValMap : Bytes → Option Bytes} {keyLen : Bytes → ℕ}
    {bucket : Bytes} {actions : List (String × List (Bytes × Bytes))}
    (h : ∀ a ∈ actions, ∀ sessionKey ∈ a.2, ProperName (getLocalObjectName bucket sessionKey))
    (argFlag : ℕ) :
    ∀ c ∈ actionCalls keyValMap keyLen bucket argFlag actions, KeptArgs c.2.2 c.2.1 := by
  induction actions generalizing argFlag with
  | nil => simp [actionCalls]
  | cons a actions ih =>
    rw [List.forall_mem_cons] at h
    rw [actionCalls]
    split_ifs
    · exact List.forall_mem_cons.2 ⟨fun hflag => absurd hflag (lt_irrefl 0), ih h.2 0⟩
    · refine List.forall_mem_cons.2 ⟨fun _ => ?_, ih h.2 argFlag⟩
      have hnames : ∀ e ∈ (a.2.map (getLocalObjectName bucket)).map fun name =>
          (name, keyLen name), ProperName e.1 := by
        intro e he
        simp only [List.map_map, List.mem_map, Function.comp_apply] at he
        obtain ⟨sessionKey, hmem, rfl⟩ := he
        exact h.1 sessionKey hmem
      obtain ⟨objects, hproper, heq⟩ := exists_objects hnames
      rw [List.flatMap_map] at heq
      exact ⟨objects, hproper, heq⟩

/-- Invoking a function passes nothing on as it is kept. -/
theorem harmless_invoke {now : ℕ} {sessionId appName funcName : String} {funcArgs : List Bytes}
    {argFlag : ℕ} (h : KeptArgs argFlag funcArgs) (s : Node n) :
    s.Harmless cfg (.invoke now sessionId appName funcName funcArgs argFlag) :=
  ⟨h, nofun, nofun⟩

theorem harmless_directEvents {now : ℕ} {o : PutObject} {appName : String} {availExecutors : ℕ}
    {targets : List String} (hkey : o.isDataPacking = 2 → o.sessionKey ≠ [])
    (hbatch : o.isDataPacking = 2 → o.tgtFunction = "" → availExecutors < targets.length →
      cfg.rejectExtraReq = true) (s : Node n) :
    ∀ event ∈ directEvents now o appName availExecutors targets, s.Harmless cfg event := by
  have hinvoke : ∀ func, s.Harmless cfg
      (.invoke now o.sessionId appName func o.directArgs.1 o.directArgs.2) := fun func =>
    harmless_invoke (PutObject.keptArgs_directArgs hkey) s
  intro event hevent
  unfold directEvents at hevent
  simp only at hevent
  split_ifs at hevent with htgt hmore
  · rcases List.mem_append.1 hevent with hevent | hevent
    · obtain ⟨func, -, rfl⟩ := List.mem_map.1 hevent
      exact hinvoke func
    · -- the targets for which there is no executor
      obtain rfl := List.mem_singleton.1 hevent
      refine ⟨trivial, fun _ _ funcs argFlag he => ?_, nofun⟩
      obtain ⟨-, -, rfl, rfl⟩ := Node.Event.forwardBatch.inj he
      by_cases hsize : o.isDataPacking = 2
      · exact .inl (hbatch hsize htgt hmore)
      · refine .inr ?_
        by_cases hvalue : o.isDataPacking = 1
        · exact .inl (by rw [PutObject.directArgs, if_pos hvalue])
        · refine .inr fun f hf => ?_
          obtain ⟨func, -, rfl⟩ := List.mem_map.1 hf
          rw [PutObject.directArgs, if_neg hvalue, if_neg hsize]
  · obtain ⟨func, -, rfl⟩ := List.mem_map.1 hevent
    exact hinvoke func
  · obtain rfl := List.mem_singleton.1 hevent
    exact hinvoke _
  · cases hevent

/-- All events of a sound input are harmless. -/
theorem harmless_serverEvents {input : ServerInput n} (hsound : s.Sound cfg input)
    {events : List (Node.Event n)} (h : serverEvents s input = some events) :
    ∀ event ∈ events, s.Harmless cfg event := by
  cases input with
  | put now o looked directDeps arrival =>
    obtain ⟨size, -, h⟩ := Option.bind_eq_some_iff.1 h
    -- the object is stored first, whatever is invoked with it
    have hstored : s.Harmless cfg
        (.message now (.put o.objName size looked arrival.fired.length)) :=
      ⟨trivial, nofun, nofun⟩
    cases directDeps with
    | some targets =>
      obtain rfl := Option.some.inj h
      exact List.forall_mem_cons.2 ⟨hstored, harmless_directEvents (fun hsize => (hsound hsize).1)
        (fun hsize htgt hmore => (hsound hsize).2 htgt hmore) s⟩
    | none =>
      simp only at h
      split_ifs at h with hdirect
      · obtain rfl := Option.some.inj h
        exact List.forall_mem_singleton.2 hstored
      · obtain rfl := Option.some.inj h
        refine List.forall_mem_cons.2 ⟨hstored, fun event hevent => ?_⟩
        obtain ⟨c, hc, rfl⟩ := List.mem_map.1 hevent
        obtain ⟨t, ht, hc⟩ := List.mem_flatMap.1 hc
        exact harmless_invoke (keptArgs_actionCalls (hsound hdirect t ht) _ c hc) s
  | other event =>
    cases event with
    | invoke => cases h
    | forwardBatch => cases h
    | message now event =>
      obtain rfl := Option.some.inj h
      refine List.forall_mem_singleton.2 ⟨?_, nofun, nofun⟩
      cases event with
      | call call => exact hsound
      | _ => trivial
    | delayForward now =>
      obtain rfl := Option.some.inj h
      refine List.forall_mem_singleton.2 ⟨trivial, nofun, fun now' he => ?_⟩
      obtain rfl := Node.Event.delayForward.inj he
      exact hsound
    | _ =>
      obtain rfl := Option.some.inj h
      exact List.forall_mem_singleton.2 ⟨trivial, nofun, nofun⟩

/-! ### A turn of the loop -/

/-- What a put invokes after the object is stored, the node passes on as it gets it. -/
theorem invocations_directEvents {now : ℕ} {o : PutObject} {appName : String}
    {availExecutors : ℕ} {targets : List String} (s' : Node n) :
    ∀ event ∈ directEvents now o appName availExecutors targets,
      s.invocations cfg env event = s'.invocations cfg env event := by
  intro event hevent
  unfold directEvents at hevent
  simp only at hevent
  split_ifs at hevent
  · rcases List.mem_append.1 hevent with hevent | hevent
    · obtain ⟨func, -, rfl⟩ := List.mem_map.1 hevent
      rfl
    · obtain rfl := List.mem_singleton.1 hevent
      rfl
  · obtain ⟨func, -, rfl⟩ := List.mem_map.1 hevent
    rfl
  · obtain rfl := List.mem_singleton.1 hevent
    rfl
  · cases hevent

/-- Only the first event of a turn depends on the state of the node. -/
theorem exists_eq_cons_serverEvents (cfg : Config) (env : Env) {input : ServerInput n}
    {events : List (Node.Event n)} (h : serverEvents s input = some events) :
    ∃ first rest, events = first :: rest ∧ ∀ s' : Node n, ∀ event ∈ rest,
      s.invocations cfg env event = s'.invocations cfg env event := by
  cases input with
  | put now o looked directDeps arrival =>
    obtain ⟨size, -, h⟩ := Option.bind_eq_some_iff.1 h
    cases directDeps with
    | some targets =>
      obtain rfl := Option.some.inj h
      exact ⟨_, _, rfl, invocations_directEvents⟩
    | none =>
      simp only at h
      split_ifs at h
      · obtain rfl := Option.some.inj h
        exact ⟨_, [], rfl, fun _ => by simp⟩
      · obtain rfl := Option.some.inj h
        refine ⟨_, _, rfl, fun s' event hevent => ?_⟩
        obtain ⟨c, -, rfl⟩ := List.mem_map.1 hevent
        rfl
  | other event =>
    cases event with
    | invoke => cases h
    | forwardBatch => cases h
    | _ =>
      obtain rfl := Option.some.inj h
      exact ⟨_, [], rfl, fun _ => by simp⟩

/-- Every call that a turn of the loop sends to the coordinator is made by one of its invocations,
those that `wellFormed_run` is about. -/
theorem exists_invocation_serverStep {input : ServerInput n}
    (h : serverStep cfg env s input = some s') :
    MadeBy cfg env (input.invocations cfg env s) s s' := by
  obtain ⟨events, hevents, hexec⟩ := Option.bind_eq_some_iff.1 h
  obtain ⟨first, rest, rfl, hrest⟩ := exists_eq_cons_serverEvents cfg env hevents
  obtain ⟨mid, hmid, hexec⟩ := Option.bind_eq_some_iff.1 hexec
  rw [ServerInput.invocations, hevents, Option.getD_some, List.flatMap_cons]
  have hfirst : MadeBy cfg env (s.invocations cfg env first) s mid := exists_invocation hmid
  have hcalls : MadeBy cfg env (rest.flatMap (s.invocations cfg env)) mid s' := by
    refine Runs.exec_invariant (fun s₁ event s₂ hevent hstep hmade => hmade.trans ?_)
      (Runs.allowed_of_forall (fun _ hevent => hevent) mid) hexec (madeBy_of_eq rfl)
    refine (exists_invocation hstep).mono fun inv hinv => List.mem_flatMap.2 ⟨event, hevent, ?_⟩
    rw [hrest s₁ event hevent]
    exact hinv
  exact (hfirst.mono (List.subset_append_left _ _)).trans
    (hcalls.mono (List.subset_append_right _ _))

/-- **Forwarded key arguments.**  In every run of sound inputs, every invocation of
`forward_call_via_helper` gets well-formed key arguments. -/
theorem wellFormed_run {cfg : Config} {env : Env} {inputs : List (ServerInput n)}
    {input : ServerInput n} {s : Node n}
    (hsound : Runs.Allowed (serverStep cfg env) (Node.Sound cfg) {} (inputs ++ [input]))
    (hrun : Runs.exec (serverStep cfg env) {} inputs = some s) {inv : Invocation}
    (hinv : inv ∈ input.invocations cfg env s) : inv.WellFormed := by
  obtain ⟨hinputs, hlast⟩ := Runs.allowed_append.1 hsound
  have hs : s.InPairs := by
    refine Runs.exec_invariant (P := fun s : Node n => s.InPairs) (fun s input s' hsound h hs => ?_)
      hinputs hrun Node.inPairs_init
    obtain ⟨events, hevents, hexec⟩ := Option.bind_eq_some_iff.1 h
    exact Runs.exec_invariant (P := fun s : Node n => s.InPairs)
      (fun _ _ _ hkept hstep hs => hs.step hkept hstep)
      (Runs.allowed_of_forall (fun event he => (harmless_serverEvents hsound hevents event he).kept)
        s) hexec hs
  have hinput := (hlast s hrun).1
  unfold ServerInput.invocations at hinv
  cases hevents : serverEvents s input with
  | none =>
    rw [hevents] at hinv
    cases hinv
  | some events =>
    rw [hevents, Option.getD_some] at hinv
    obtain ⟨event, hevent, hinv⟩ := List.mem_flatMap.1 hinv
    exact hs.wellFormed (harmless_serverEvents hinput hevents event hevent) hinv

end Puts

/-! ### A put of one object -/

/-- An object of which only the size is sent, for one function or for all dependent ones. -/
def wordsObject (tgtFunction : String) : PutObject where
  sessionId := "session-7"
  srcFunction := "split"
  tgtFunction := tgtFunction
  bucket := ascii "words"
  sessionKey := ascii "key"
  isDataPacking := 2
  info := ascii "5"
  bucket_clean := by decide
  sessionKey_clean := by decide
  info_clean := by decide

/-- The put of the object. -/
def wordsInput (tgtFunction : String) : ServerInput 1 :=
  .put 0 (wordsObject tgtFunction) [] (some ["map"]) {}

/-- The invocation for one function. -/
def mapInvocation : Invocation :=
  ⟨1, [([ascii "words|key", ascii "5"], [ascii "words", ascii "key", ascii "5"])]⟩

/-- The invocation for all dependent functions, none of which has an executor. -/
def batchInvocation : Invocation :=
  ⟨1, [([ascii "words|key", ascii "5"], [ascii "words|key", ascii "5"])]⟩

theorem wellFormed_mapInvocation :
    mapInvocation ∈ (wordsInput "map").invocations {} Node.selectionEnv {} ∧
      mapInvocation.WellFormed := by
  have hmem : mapInvocation ∈ (wordsInput "map").invocations {} Node.selectionEnv {} := by
    decide +kernel
  have hsound : Runs.Allowed (serverStep {} Node.selectionEnv) (Node.Sound {}) ({} : Node 1)
      ([] ++ [wordsInput "map"]) :=
    ⟨fun _ => ⟨List.cons_ne_nil _ _, fun htgt => absurd htgt (by decide)⟩, fun _ _ => trivial⟩
  exact ⟨hmem, wellFormed_run hsound rfl hmem⟩

/-- The arguments of a batch are two, and the third one is read. -/
theorem not_wellFormed_batchInvocation :
    Runs.exec (serverStep {} Node.selectionEnv) ({} : Node 1) [] = some {} ∧
      batchInvocation ∈ (wordsInput "").invocations {} Node.selectionEnv {} ∧
      ¬ batchInvocation.WellFormed ∧
      (serverStep {} Node.selectionEnv {} (wordsInput "")).isNone = true := by
  refine ⟨rfl, by decide +kernel, fun h => ?_, by decide +kernel⟩
  have hlength := (h (by decide) _ (List.mem_singleton_self _)).1
  exact absurd hlength (by decide)

end Demeter.Scheduler
