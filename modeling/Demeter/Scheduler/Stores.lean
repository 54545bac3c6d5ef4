import Demeter.Lib.Runs
import Demeter.Lib.Waiting
import Demeter.Executor.Objects

/-!
# Requests to the data stores

How `run` in `src/scheduler/scheduler_server.cpp` answers the get and the persist requests of its
executors: the objects it has, the requests that wait for another node or for the key-value store
in `key_remote_get_map` and `key_ksv_put_map`, and the responses of the key-value store on their
way through `CommHelper::get_kvs_responses` in `include/scheduler/comm_helper.hpp`.

* `IoState.step` handles one message; `IoState.kvsResponse` is one response of the key-value store;
* `accounted_run` says that every get request either waits or was answered exactly once;
* `resolved_iff` says which responses settle all the get requests that wait for their key;
* `StoreSystem` is a scheduler together with the key-value store, and `ackAfterPut_run` says when a
  persist request is acknowledged only after its own put.

Requests are numbered in the order in which they come; the code does not keep these numbers.
-/

namespace Demeter.Scheduler

open Demeter.Executor (kDelimiterChar kvsName getRequest GetPath getResponse sendString)

/-- A request that waits for a response. -/
structure InflightIORequest where
  executorId : UInt8
  reqId : UInt8
  number : ℕ
  deriving DecidableEq

/-- The error codes of the key-value store. -/
inductive AnnaError where
  | noError
  | keyDne
  | wrongThread
  | timeout
  | lattice
  | noServers
  deriving DecidableEq

/-- The kinds of requests in a response. -/
inductive RequestType where
  | unspecified
  | get
  | put
  deriving DecidableEq

/-- A response of the key-value store: the error of the request, and key, error and value of its
first tuple. -/
structure KeyResponse where
  type : RequestType
  error : AnnaError := .noError
  key : Bytes
  tupleError : AnnaError := .noError
  value : Bytes := []

/-- The maps for gets and persist requests, and what was sent for them. -/
structure IoState where
  keyLenMap : Dict Bytes ℕ := Dict.empty
  keyRemoteGetMap : Dict Bytes (List InflightIORequest) := Dict.empty
  keyKsvPutMap : Dict Bytes (List InflightIORequest) := Dict.empty
  /-- The keys asked for at other nodes, and at the key-value store. -/
  dataReqs : List Bytes := []
  kvsGets : List Bytes := []
  /-- The keys of the puts. -/
  kvsPuts : List Bytes := []
  /-- The number of get requests so far. -/
  gets : ℕ := 0
  getReplies : List (InflightIORequest × Bytes) := []
  putReplies : List (InflightIORequest × Bytes) := []

namespace IoState

/-! ### Handling a message -/

/-- A get request; `none` for a name of the durable store without a key. -/
def onGet (s : IoState) (executorId : UInt8) (fromEpheStore : Bool) (reqId : UInt8)
    (keyName : Bytes) : Option IoState :=
  let getReq : InflightIORequest := ⟨executorId, reqId, s.gets⟩
  if fromEpheStore then
    match s.keyLenMap.get? keyName with
    | some size =>
        some { s with
          gets := s.gets + 1
          getReplies := s.getReplies ++ [(getReq, getResponse .here reqId size)] }
    | none =>
        some { s with
          gets := s.gets + 1
          dataReqs := s.dataReqs ++ [keyName]
          keyRemoteGetMap := s.keyRemoteGetMap.push keyName getReq }
  else
    match GetLine.split kDelimiterChar keyName with
    | _ :: key :: _ =>
        some { s with
          gets := s.gets + 1
          kvsGets := s.kvsGets ++ [key]
          keyRemoteGetMap := s.keyRemoteGetMap.push keyName getReq }
    | _ => none

/-- Read a message of type 1. -/
def receiveGet (s : IoState) (str : Bytes) : Option IoState := do
  let executorId := (← str[0]?) - 1
  let fromEpheStore := decide ((← str[2]?) = 1)
  let reqId ← str[3]?
  let metaDataLen := (← str[4]?).toNat
  guard (5 + metaDataLen ≤ str.length)
  s.onGet executorId fromEpheStore reqId ((str.drop 5).take metaDataLen)

/-- An object that is to be persisted. -/
def persist (s : IoState) (executorId reqId : UInt8) (sessionKey : Bytes) : IoState :=
  { s with
    kvsPuts := s.kvsPuts ++ [sessionKey]
    keyKsvPutMap := s.keyKsvPutMap.push sessionKey ⟨executorId, reqId, s.kvsPuts.length⟩ }

/-- Answer the get requests that wait for an object. -/
def answerGets (s : IoState) (path : GetPath) (keyName : Bytes) (size : ℕ) : IoState :=
  let s := { s with keyLenMap := s.keyLenMap.set keyName size }
  match s.keyRemoteGetMap.get? keyName with
  | none => s
  | some reqs =>
      { s with
        getReplies := s.getReplies ++ reqs.map fun q => (q, getResponse path q.reqId size)
        keyRemoteGetMap := s.keyRemoteGetMap.erase keyName }

/-- Answer the persist requests that wait for a key. -/
def answerPuts (s : IoState) (key : Bytes) : IoState :=
  match s.keyKsvPutMap.get? key with
  | none => s
  | some reqs =>
      { s with
        putReplies := s.putReplies ++ reqs.map fun q => (q, [3, q.reqId, 1])
        keyKsvPutMap := s.keyKsvPutMap.erase key }

/-- A response of the key-value store, through `get_kvs_responses` and the branches `KvsGetResp` and
`KvsPutResp`. -/
def kvsResponse (s : IoState) (r : KeyResponse) : IoState :=
  if r.error = .timeout then
    -- a get is issued again, a put is not
    if r.type = .get then { s with kvsGets := s.kvsGets ++ [r.key] } else s
  else if r.type = .get ∧ r.tupleError ≠ .keyDne then
    s.answerGets .kvsGetResp (kvsName r.key) (r.value.length % 2 ^ 32)
  else if r.type = .put then s.answerPuts r.key
  else s

end IoState

/-- The messages: from executors, from other nodes, and from the key-value store. -/
inductive IoEvent where
  | get (str : Bytes)
  /-- An ephemeral object of an executor. -/
  | put (objName : Bytes) (size : ℕ)
  | persist (executorId reqId : UInt8) (sessionKey : Bytes)
  | dataResp (key : Bytes) (size : ℕ)
  | kvs (response : KeyResponse)

/-- One event. -/
def IoState.step (s : IoState) : IoEvent → Option IoState
  | .get str => s.receiveGet str
  | .put objName size => some { s with keyLenMap := s.keyLenMap.set objName size }
  | .persist executorId reqId sessionKey => some (s.persist executorId reqId sessionKey)
  | .dataResp key size => some (s.answerGets .dataResp key size)
  | .kvs r => some (s.kvsResponse r)

namespace IoState

/-- A get request is answered at once, or it waits. -/
theorem onGet_cases {s s' : IoState} {executorId : UInt8} {fromEpheStore : Bool} {reqId : UInt8}
    {keyName : Bytes} (h : s.onGet executorId fromEpheStore reqId keyName = some s') :
    (∃ reply, s' = { s with
      gets := s.gets + 1
      getReplies := s.getReplies ++ [(⟨executorId, reqId, s.gets⟩, reply)] }) ∨
    ∃ dataReqs kvsGets, s' = { s with
      gets := s.gets + 1
      dataReqs := dataReqs
      kvsGets := kvsGets
      keyRemoteGetMap := s.keyRemoteGetMap.push keyName ⟨executorId, reqId, s.gets⟩ } := by
  unfold onGet at h
  simp only at h
  split_ifs at h
  · cases hlen : s.keyLenMap.get? keyName with
    | some size =>
      rw [hlen] at h
      exact .inl ⟨_, (Option.some.inj h).symm⟩
    | none =>
      rw [hlen] at h
      exact .inr ⟨_, _, (Option.some.inj h).symm⟩
  · match hsplit : GetLine.split kDelimiterChar keyName with
    | [] => simp [hsplit] at h
    | [_] => simp [hsplit] at h
    | _ :: key :: _ =>
      rw [hsplit] at h
      exact .inr ⟨_, _, (Option.some.inj h).symm⟩

/-- What a message of type 1 does. -/
theorem receiveGet_cases {s s' : IoState} {str : Bytes} (h : s.receiveGet str = some s') :
    ∃ q : InflightIORequest, q.number = s.gets ∧
      ((∃ reply, s' = { s with gets := s.gets + 1, getReplies := s.getReplies ++ [(q, reply)] }) ∨
      ∃ keyName dataReqs kvsGets, s' = { s with
        gets := s.gets + 1
        dataReqs := dataReqs
        kvsGets := kvsGets
        keyRemoteGetMap := s.keyRemoteGetMap.push keyName q }) := by
  simp only [receiveGet, Option.bind_eq_bind, Option.bind_eq_some_iff] at h
  obtain ⟨chan, -, store, -, reqId, -, len, -, -, -, h⟩ := h
  exact ⟨⟨chan - 1, reqId, s.gets⟩, rfl, (onGet_cases h).imp id fun h => ⟨_, h⟩⟩

/-! ### Get requests are answered once -/

/-- Every get request either waits or was answered exactly once, and no empty list is kept. -/
structure Accounted (s : IoState) : Prop where
  perm : ((Waiting.all s.keyRemoteGetMap).map InflightIORequest.number ++
    s.getReplies.map fun reply => reply.1.number).Perm (List.range s.gets)
  nonempty : ∀ k reqs, s.keyRemoteGetMap.get? k = some reqs → reqs ≠ []

/-- A state that differs in other parts only. -/
theorem Accounted.congr {s s' : IoState} (h : s.Accounted)
    (hmap : s'.keyRemoteGetMap = s.keyRemoteGetMap) (hreplies : s'.getReplies = s.getReplies)
    (hgets : s'.gets = s.gets) : s'.Accounted where
  perm := by
    rw [hmap, hreplies, hgets]
    exact h.perm
  nonempty := by
    rw [hmap]
    exact h.nonempty

/-- A new get request waits. -/
theorem Accounted.push {s s' : IoState} (h : s.Accounted) {keyName : Bytes}
    {q : InflightIORequest} (hq : q.number = s.gets)
    (hmap : s'.keyRemoteGetMap = s.keyRemoteGetMap.push keyName q)
    (hreplies : s'.getReplies = s.getReplies) (hgets : s'.gets = s.gets + 1) : s'.Accounted where
  perm := by
    rw [hmap, hreplies, hgets, List.range_succ]
    refine ((((Waiting.all_push _ _ _).map _).append_right _).trans ?_).trans
      (h.perm.append_right [s.gets])
    rw [List.map_cons, hq, List.cons_append]
    exact List.perm_append_singleton _ _ |>.symm
  nonempty := by
    intro k reqs hk
    rw [hmap, Dict.get?_push] at hk
    split_ifs at hk
    · cases hk
      simp
    · exact h.nonempty k reqs hk

/-- A new get request is answered at once. -/
theorem Accounted.reply {s s' : IoState} (h : s.Accounted) {q : InflightIORequest} {reply : Bytes}
    (hq : q.number = s.gets) (hmap : s'.keyRemoteGetMap = s.keyRemoteGetMap)
    (hreplies : s'.getReplies = s.getReplies ++ [(q, reply)]) (hgets : s'.gets = s.gets + 1) :
    s'.Accounted where
  perm := by
    rw [hmap, hreplies, hgets, List.range_succ, List.map_append, ← List.append_assoc, List.map_cons,
      List.map_nil, hq]
    exact h.perm.append_right _
  nonempty := by
    rw [hmap]
    exact h.nonempty

theorem accounted_answerGets {s : IoState} (h : s.Accounted) (path : GetPath) (keyName : Bytes)
    (size : ℕ) : (s.answerGets path keyName size).Accounted := by
  unfold answerGets
  simp only
  cases hreqs : s.keyRemoteGetMap.get? keyName with
  | none => exact h.congr rfl rfl rfl
  | some reqs =>
    have hwait : Waiting.waiting s.keyRemoteGetMap keyName = reqs := by
      rw [Waiting.waiting, hreqs]
      rfl
    constructor
    · have hall := (Waiting.all_erase s.keyRemoteGetMap keyName).map InflightIORequest.number
      rw [hwait, List.map_append] at hall
      simp only [List.map_append, List.map_map, Function.comp_def]
      rw [← List.append_assoc]
      refine List.perm_append_comm.trans ?_
      rw [← List.append_assoc]
      exact (hall.append_right _).trans h.perm
    · intro k reqs' hk
      simp only [Dict.get?_erase] at hk
      split_ifs at hk
      exact h.nonempty k reqs' hk

theorem accounted_step {s s' : IoState} {e : IoEvent} (h : s.Accounted)
    (hstep : s.step e = some s') : s'.Accounted := by
  cases e with
  | get str =>
    obtain ⟨q, hq, ⟨reply, rfl⟩ | ⟨keyName, dataReqs, kvsGets, rfl⟩⟩ := receiveGet_cases hstep
    · exact h.reply hq rfl rfl rfl
    · exact h.push hq rfl rfl rfl
  | put objName size =>
    cases hstep
    exact h.congr rfl rfl rfl
  | persist executorId reqId sessionKey =>
    cases hstep
    exact h.congr rfl rfl rfl
  | dataResp key size =>
    cases hstep
    exact accounted_answerGets h .dataResp key size
  | kvs r =>
    cases hstep
    unfold kvsResponse answerPuts
    split_ifs
    · exact h.congr rfl rfl rfl
    · exact h
    · exact accounted_answerGets h .kvsGetResp _ _
    · cases s.keyKsvPutMap.get? r.key with
      | none => exact h
      | some reqs => exact h.congr rfl rfl rfl
    · exact h

theorem accounted_run {events : List IoEvent} {s : IoState}
    (h : Runs.exec step {} events = some s) : s.Accounted :=
  Runs.exec_invariant (fun _ _ _ _ hstep hs => accounted_step hs hstep)
    (Runs.allowed_true {} events) h ⟨List.Perm.refl _, by simp⟩

/-! ### Responses to get requests of the durable store -/

/-- Each request that waited for the key got exactly one reply, with its own id and a flag that
tells whether a value was found, and the key is gone from the table. -/
def Resolved (s s' : IoState) (r : KeyResponse) : Prop :=
  (∀ q ∈ Waiting.waiting s.keyRemoteGetMap (kvsName r.key), ∃ reply,
    (s'.getReplies.filter fun sent => sent.1.number = q.number) = [(q, reply)] ∧
      reply[0]? = some 3 ∧ reply[1]? = some q.reqId ∧
      (reply[2]? = some 1 ↔ r.tupleError = .noError)) ∧
  kvsName r.key ∉ s'.keyRemoteGetMap.keys

/-- In an accounted state a reply is the only one to its request. -/
theorem Accounted.filter_reply {s : IoState} (h : s.Accounted) {q : InflightIORequest}
    {reply : Bytes} (hmem : (q, reply) ∈ s.getReplies) :
    (s.getReplies.filter fun sent => sent.1.number = q.number) = [(q, reply)] := by
  have hnodup : (s.getReplies.map fun sent => sent.1.number).Nodup :=
    (h.perm.nodup_iff.2 List.nodup_range).sublist (List.sublist_append_right _ _)
  exact Waiting.filter_label_eq hnodup hmem

/-- Nobody waits for the key. -/
theorem resolved_of_notMem {s s' : IoState} {r : KeyResponse}
    (h : kvsName r.key ∉ s.keyRemoteGetMap.keys) (h' : kvsName r.key ∉ s'.keyRemoteGetMap.keys) :
    Resolved s s' r := by
  refine ⟨?_, h'⟩
  rw [Waiting.waiting_eq_nil_of_notMem h]
  simp

/-- Those who wait are answered, with a flag that says that the value was found. -/
theorem resolved_answerGets_iff {s : IoState} {r : KeyResponse} (hacc : s.Accounted) {size : ℕ}
    (hkey : kvsName r.key ∈ s.keyRemoteGetMap.keys) :
    Resolved s (s.answerGets .kvsGetResp (kvsName r.key) size) r ↔ r.tupleError = .noError := by
  have hacc' := accounted_answerGets hacc .kvsGetResp (kvsName r.key) size
  obtain ⟨reqs, hreqs⟩ := Dict.mem_keys_iff.1 hkey
  have hwait : Waiting.waiting s.keyRemoteGetMap (kvsName r.key) = reqs := by
    rw [Waiting.waiting, hreqs]
    rfl
  have hreply : ∀ q ∈ reqs, (q, getResponse .kvsGetResp q.reqId size) ∈
      (s.answerGets .kvsGetResp (kvsName r.key) size).getReplies := by
    intro q hq
    simp only [answerGets, hreqs]
    exact List.mem_append_right _ (List.mem_map.2 ⟨q, hq, rfl⟩)
  simp only [Resolved, hwait]
  constructor
  · rintro ⟨hall, -⟩
    obtain ⟨q, hq⟩ := List.exists_mem_of_ne_nil reqs (hacc.nonempty _ reqs hreqs)
    obtain ⟨reply, hfilter, -, -, hflag⟩ := hall q hq
    rw [hacc'.filter_reply (hreply q hq)] at hfilter
    obtain rfl := (Prod.mk.inj (List.singleton_inj.1 hfilter)).2
    exact hflag.1 rfl
  · intro hfound
    refine ⟨fun q hq => ?_, ?_⟩
    · exact ⟨_, hacc'.filter_reply (hreply q hq), rfl, rfl, iff_of_true rfl hfound⟩
    · simp only [answerGets, hreqs]
      rw [← Dict.get?_eq_none_iff, Dict.get?_erase, if_pos rfl]

/-- **Gets of the durable store.**  After any run, a response to a get that is not a timeout settles
all the requests that wait for its key exactly when there are none or the value was found: the
response for a missing key is dropped. -/
theorem resolved_iff {events : List IoEvent} {s : IoState}
    (hrun : Runs.exec step {} events = some s) {r : KeyResponse} (hget : r.type = .get)
    (htime : r.error ≠ .timeout) :
    Resolved s (s.kvsResponse r) r ↔
      kvsName r.key ∉ s.keyRemoteGetMap.keys ∨ r.tupleError = .noError := by
  by_cases hdne : r.tupleError = .keyDne
  · -- the response is dropped
    have hsame : s.kvsResponse r = s := by
      simp [kvsResponse, htime, hget, hdne]
    rw [hsame]
    simp only [hdne, reduceCtorEq, or_false]
    exact ⟨fun h => h.2, fun hkey => resolved_of_notMem hkey hkey⟩
  · have hstep : s.kvsResponse r =
        s.answerGets .kvsGetResp (kvsName r.key) (r.value.length % 2 ^ 32) := by
      simp [kvsResponse, htime, hget, hdne]
    rw [hstep]
    by_cases hkey : kvsName r.key ∈ s.keyRemoteGetMap.keys
    · rw [resolved_answerGets_iff (accounted_run hrun) hkey]
      simp only [hkey, not_true_eq_false, false_or]
    · refine iff_of_true (resolved_of_notMem hkey ?_) (.inl hkey)
      simpa [answerGets, Dict.get?_eq_none_iff.2 hkey] using hkey

/-- Executor 0 asks for the object `model` of the durable store. -/
def sampleGets : List IoEvent :=
  [.get (sendString (getRequest 1 false 5 (kvsName (ascii "model"))))]

theorem resolved_sample :
    ∃ s, Runs.exec step {} sampleGets = some s ∧
      Resolved s (s.kvsResponse ⟨.get, .noError, ascii "model", .noError, ascii "weights"⟩)
        ⟨.get, .noError, ascii "model", .noError, ascii "weights"⟩ := by
  have hrun : (Runs.exec step {} sampleGets).isSome := by decide +kernel
  obtain ⟨s, hs⟩ := Option.isSome_iff_exists.1 hrun
  exact ⟨s, hs, (resolved_iff hs rfl (by decide)).2 (.inr rfl)⟩

/-- The key does not exist, and nothing is sent. -/
theorem not_resolved_sample :
    ∃ s, Runs.exec step {} sampleGets = some s ∧
      ¬ Resolved s (s.kvsResponse ⟨.get, .noError, ascii "model", .keyDne, []⟩)
        ⟨.get, .noError, ascii "model", .keyDne, []⟩ := by
  have hkeys : (Runs.exec step {} sampleGets).map (fun s => s.keyRemoteGetMap.keys) =
      some [kvsName (ascii "model")] := by
    decide +kernel
  obtain ⟨s, hs, hkeys⟩ := Option.map_eq_some_iff.1 hkeys
  refine ⟨s, hs, fun h => h.2 ?_⟩
  show kvsName (ascii "model") ∈ s.keyRemoteGetMap.keys
  rw [hkeys]
  exact List.mem_singleton_self _

end IoState

/-! ### Persist requests -/

/-- The puts, the requests that wait for them and the acknowledgements are the same. -/
structure IoState.SamePuts (s s' : IoState) : Prop where
  map : s'.keyKsvPutMap = s.keyKsvPutMap
  puts : s'.kvsPuts = s.kvsPuts
  replies : s'.putReplies = s.putReplies

theorem IoState.samePuts_answerGets (s : IoState) (path : GetPath) (keyName : Bytes) (size : ℕ) :
    s.SamePuts (s.answerGets path keyName size) := by
  unfold IoState.answerGets
  simp only
  cases s.keyRemoteGetMap.get? keyName <;> exact ⟨rfl, rfl, rfl⟩

theorem IoState.samePuts_receiveGet {s s' : IoState} {str : Bytes}
    (h : s.receiveGet str = some s') : s.SamePuts s' := by
  obtain ⟨q, -, ⟨reply, rfl⟩ | ⟨keyName, dataReqs, kvsGets, rfl⟩⟩ := IoState.receiveGet_cases h
  · exact ⟨rfl, rfl, rfl⟩
  · exact ⟨rfl, rfl, rfl⟩

/-- A response that is not the completion of a put. -/
theorem IoState.samePuts_kvsResponse {s : IoState} {r : KeyResponse}
    (h : ¬ (r.type = .put ∧ r.error ≠ .timeout)) : s.SamePuts (s.kvsResponse r) := by
  unfold IoState.kvsResponse
  split_ifs with htime hget hget hput
  · exact ⟨rfl, rfl, rfl⟩
  · exact ⟨rfl, rfl, rfl⟩
  · exact s.samePuts_answerGets _ _ _
  · exact (h ⟨hput, htime⟩).elim
  · exact ⟨rfl, rfl, rfl⟩

/-- A scheduler and the key-value store: the puts that the store has completed, and those whose
response has been handled. -/
structure StoreSystem where
  sched : IoState := {}
  completed : List ℕ := []
  reported : List ℕ := []

/-- A message to the scheduler, the completion of a put in the store, or its response. -/
inductive StoreEvent where
  | io (e : IoEvent)
  | complete (n : ℕ)
  | putResponse (n : ℕ) (tupleError : AnnaError)

namespace StoreSystem

/-- The store reports a put once, after it has completed it.  Any other response to a put is a
timeout. -/
def step (s : StoreSystem) : StoreEvent → Option StoreSystem
  | .io (.kvs r) =>
      if r.type = .put ∧ r.error ≠ .timeout then none
      else (s.sched.step (.kvs r)).map fun sched => { s with sched := sched }
  | .io e => (s.sched.step e).map fun sched => { s with sched := sched }
  | .complete n =>
      if n < s.sched.kvsPuts.length ∧ n ∉ s.completed then
        some { s with completed := s.completed ++ [n] }
      else none
  | .putResponse n tupleError => do
      let key ← s.sched.kvsPuts[n]?
      guard (n ∈ s.completed ∧ n ∉ s.reported)
      some { s with
        sched := s.sched.kvsResponse
          { type := .put, key := key, tupleError := tupleError }
        reported := s.reported ++ [n] }

/-- A persist request is acknowledged only after the store has completed its put. -/
def AckAfterPut (s : StoreSystem) : Prop :=
  ∀ sent ∈ s.sched.putReplies, sent.1.number ∈ s.completed

/-- No put to the key of a persist request is pending when the request comes. -/
def NoOverlap (s : StoreSystem) : StoreEvent → Prop
  | .io (.persist _ _ sessionKey) => sessionKey ∉ s.sched.keyKsvPutMap.keys
  | _ => True

instance (s : StoreSystem) : ∀ e, Decidable (s.NoOverlap e)
  | .io (.persist _ _ sessionKey) =>
      inferInstanceAs (Decidable (sessionKey ∉ s.sched.keyKsvPutMap.keys))
  | .io (.get _) | .io (.put _ _) | .io (.dataResp _ _) | .io (.kvs _) | .complete _
  | .putResponse _ _ => .isTrue trivial

/-- A put whose response is still to come is the only one that waits under its key. -/
structure Single (s : StoreSystem) : Prop where
  waits : ∀ n key, s.sched.kvsPuts[n]? = some key → n ∉ s.reported →
    ∃ q : InflightIORequest, s.sched.keyKsvPutMap.get? key = some [q] ∧ q.number = n
  acked : s.AckAfterPut

/-- The scheduler's other work does not touch the puts. -/
theorem Single.congr {s s' : StoreSystem} (h : s.Single) (hputs : s.sched.SamePuts s'.sched)
    (hdone : s.completed ⊆ s'.completed) (hreported : s'.reported = s.reported) : s'.Single where
  waits := by
    rw [hputs.map, hputs.puts, hreported]
    exact h.waits
  acked := by
    intro sent hsent
    rw [hputs.replies] at hsent
    exact hdone (h.acked sent hsent)

/-- A new put is the only one under its key. -/
theorem single_persist {s : StoreSystem} (h : s.Single) (executorId reqId : UInt8)
    {sessionKey : Bytes} (hkey : sessionKey ∉ s.sched.keyKsvPutMap.keys) :
    Single { s with sched := s.sched.persist executorId reqId sessionKey } where
  waits := by
    intro n key hn hreported
    simp only [IoState.persist] at hn ⊢
    rw [Dict.get?_push]
    by_cases hlt : n < s.sched.kvsPuts.length
    · rw [List.getElem?_append_left hlt] at hn
      obtain ⟨q, hq, hnum⟩ := h.waits n key hn hreported
      have hne : key ≠ sessionKey := by
        rintro rfl
        exact hkey (Dict.mem_keys_iff.2 ⟨_, hq⟩)
      exact ⟨q, by rw [if_neg hne, hq], hnum⟩
    · rw [List.getElem?_append_right (by omega)] at hn
      obtain ⟨hzero, rfl⟩ : n - s.sched.kvsPuts.length = 0 ∧ sessionKey = key := by
        simpa [List.getElem?_singleton] using hn
      exact ⟨⟨executorId, reqId, s.sched.kvsPuts.length⟩,
        by rw [if_pos rfl, Dict.get?_eq_none_iff.2 hkey]; rfl, by simp only; omega⟩
  acked := h.acked

/-- The response to a put acknowledges that put alone. -/
theorem single_putResponse {s : StoreSystem} (h : s.Single) {n : ℕ} {key : Bytes}
    (hn : s.sched.kvsPuts[n]? = some key) (hdone : n ∈ s.completed) (hreported : n ∉ s.reported)
    (tupleError : AnnaError) :
    Single { s with
      sched := s.sched.kvsResponse { type := .put, key := key, tupleError := tupleError }
      reported := s.reported ++ [n] } := by
  obtain ⟨q, hq, rfl⟩ := h.waits n key hn hreported
  have hresp : s.sched.kvsResponse { type := .put, key := key, tupleError := tupleError } =
      { s.sched with
        putReplies := s.sched.putReplies ++ [(q, [3, q.reqId, 1])]
        keyKsvPutMap := s.sched.keyKsvPutMap.erase key } := by
    simp [IoState.kvsResponse, IoState.answerPuts, hq]
  rw [hresp]
  constructor
  · intro m key' hm hnot
    simp only [List.mem_append, List.mem_singleton, not_or] at hm hnot ⊢
    obtain ⟨q', hq', rfl⟩ := h.waits m key' hm hnot.1
    have hne : key' ≠ key := by
      rintro rfl
      rw [hq] at hq'
      obtain rfl := (List.singleton_inj.1 (Option.some.inj hq'))
      exact hnot.2 rfl
    exact ⟨q', by rw [Dict.get?_erase, if_neg hne, hq'], rfl⟩
  · intro sent hsent
    rcases List.mem_append.1 hsent with hsent | hsent
    · exact h.acked sent hsent
    · rw [List.mem_singleton.1 hsent]
      exact hdone

theorem single_step {s s' : StoreSystem} {e : StoreEvent} (hover : s.NoOverlap e)
    (hstep : s.step e = some s') (h : s.Single) : s'.Single := by
  match e with
  | .io (.get str) =>
    obtain ⟨sched, hsched, rfl⟩ := Option.map_eq_some_iff.1 hstep
    exact h.congr (IoState.samePuts_receiveGet hsched) (List.Subset.refl _) rfl
  | .io (.put objName size) =>
    cases hstep
    exact h.congr ⟨rfl, rfl, rfl⟩ (List.Subset.refl _) rfl
  | .io (.persist executorId reqId sessionKey) =>
    cases hstep
    exact single_persist h executorId reqId hover
  | .io (.dataResp key size) =>
    cases hstep
    exact h.congr (s.sched.samePuts_answerGets _ _ _) (List.Subset.refl _) rfl
  | .io (.kvs r) =>
    simp only [step] at hstep
    split_ifs at hstep with hput
    cases hstep
    exact h.congr (IoState.samePuts_kvsResponse hput) (List.Subset.refl _) rfl
  | .complete n =>
    simp only [step] at hstep
    split_ifs at hstep
    cases hstep
    exact h.congr ⟨rfl, rfl, rfl⟩ (List.subset_append_left _ _) rfl
  | .putResponse n tupleError =>
    simp only [step, Option.bind_eq_bind, Option.bind_eq_some_iff] at hstep
    obtain ⟨key, hn, u, hguard, hstep⟩ := hstep
    cases hstep
    obtain ⟨hdone, hreported⟩ := (Option.guard_eq_some' _).1 hguard
    exact single_putResponse h hn hdone hreported tupleError

/-- **Durable puts.**  In every run in which no persist request finds a pending put to its key, a
persist request is acknowledged only after the store has completed its own put. -/
theorem ackAfterPut_run {events : List StoreEvent} {s : StoreSystem}
    (hover : Runs.Allowed step NoOverlap {} events) (hrun : Runs.exec step {} events = some s) :
    s.AckAfterPut :=
  have hstart : Single {} := ⟨by simp, by simp [AckAfterPut]⟩
  (Runs.exec_invariant (fun _ _ _ => single_step) hover hrun hstart).acked

/-- Two persist requests to one key that the first one is still waiting for. -/
def overlappingPuts : List StoreEvent :=
  [.io (.persist 0 7 (ascii "s1_k")), .io (.persist 1 9 (ascii "s1_k")), .complete 0,
    .putResponse 0 .noError]

/-- Two persist requests to different keys, answered in the other order. -/
def separatePuts : List StoreEvent :=
  [.io (.persist 0 7 (ascii "s1_k")), .io (.persist 1 9 (ascii "s2_k")), .complete 1,
    .putResponse 1 .noError]

theorem ackAfterPut_sample :
    ∃ s, Runs.exec step {} separatePuts = some s ∧ s.AckAfterPut := by
  have hrun : (Runs.exec step {} separatePuts).isSome := by decide +kernel
  obtain ⟨s, hs⟩ := Option.isSome_iff_exists.1 hrun
  exact ⟨s, hs, ackAfterPut_run (by decide +kernel) hs⟩

/-- The response to the first put acknowledges the second one, too. -/
theorem not_ackAfterPut_sample :
    ∃ s, Runs.exec step {} overlappingPuts = some s ∧ ¬ s.AckAfterPut := by
  have hrun : (Runs.exec step {} overlappingPuts).map (fun s =>
      (s.sched.putReplies.map fun sent => sent.1.number, s.completed)) = some ([0, 1], [0]) := by
    decide +kernel
  obtain ⟨s, hs, hsent⟩ := Option.map_eq_some_iff.1 hrun
  obtain ⟨hreplies, hcompleted⟩ := Prod.mk.inj hsent
  refine ⟨s, hs, fun h => ?_⟩
  obtain ⟨sent, hmem, hnum⟩ := List.mem_map.1
    (hreplies ▸ (by decide) : 1 ∈ s.sched.putReplies.map fun sent => sent.1.number)
  have hdone := h sent hmem
  rw [hnum, hcompleted] at hdone
  exact absurd hdone (by decide)

end StoreSystem

end Demeter.Scheduler
