import Demeter.Common.Trigger
import Demeter.Lib.Dict
import Demeter.Lib.Split
import Demeter.Lib.Runs

/-!
# The client of the key-value store

`KvsClient` of `common/include/anna_client/kvs_client.hpp`, through which a local scheduler puts
objects into the durable store and gets them back, and `get_kvs_responses` of `comm_helper.hpp`,
which asks it for responses.

* a request whose key has no cached address waits in `pendingRequest` for the routing tier; a
  request that was sent waits in `pendingGetResponse`, one for each key, or in `pendingPutResponse`,
  one for each key and request id (the source has a map of maps);
* `receiveAsync` handles a response of the routing tier and one of a worker, and then drops what has
  waited too long;
* a step that is undefined is `none`: a request that goes back into the vector that is being
  iterated, and an address without a colon.

The clock, in nanoseconds, is read once in each call.  `rand` is `rand_r` with its seed; the number
in a request id stands for the id.
-/

namespace Demeter.Scheduler.Kvs

open GetLine (split)

/-- The two kinds of requests. -/
inductive RequestType
  | get
  | put
  deriving DecidableEq

/-- The errors of the store. -/
inductive AnnaError
  | noError
  | keyDne
  | wrongThread
  | timeout
  | lattice
  | noServers
  deriving DecidableEq

/-- A request for one key. -/
structure KeyRequest where
  requestId : ℕ
  type : RequestType
  key : String
  payload : List UInt8 := []
  addressCacheSize : ℕ := 0
  deriving DecidableEq

/-- A response of a worker, with the error of the response and that of its only tuple. -/
structure KeyResponse where
  type : RequestType
  responseId : ℕ
  key : String
  error : AnnaError := .noError
  tupleError : AnnaError := .noError
  payload : List UInt8 := []
  invalidate : Bool := false
  deriving DecidableEq

/-- A response of the routing tier. -/
structure KeyAddressResponse where
  key : String
  ips : List String
  error : AnnaError := .noError
  deriving DecidableEq

/-- A request that waits for a response, since when and from which worker. -/
structure PendingRequest where
  tp : ℕ
  workerAddr : String
  request : KeyRequest
  deriving DecidableEq

/-- A message to the routing tier or to a worker. -/
inductive Message
  | routing (thread : String) (requestId : ℕ) (key : String)
  | worker (address : String) (request : KeyRequest)
  deriving DecidableEq

/-- The client; all messages are recorded, and how many request ids were handed out. -/
structure Client (σ : Type) where
  seed : σ
  rid : ℕ := 0
  keyAddressCache : Dict String (Finset String) := .empty
  pendingRequest : Dict String (ℕ × List KeyRequest) := .empty
  pendingGetResponse : Dict String PendingRequest := .empty
  pendingPutResponse : Dict (String × ℕ) PendingRequest := .empty
  sent : List Message := []
  requestIds : ℕ := 0

section Client

variable {σ : Type}

/-- The counter is an `unsigned`. -/
def getRequestId (c : Client σ) : Client σ × ℕ :=
  let rid := (c.rid + 1) % 2 ^ 32
  let rid := if rid % 10000 = 0 then 0 else rid
  ({ c with rid := (rid + 1) % 2 ^ 32, requestIds := c.requestIds + 1 }, rid)

variable (rand : σ → σ × ℕ) (routingThreads : List String) (timeout : ℕ)

/-- `query_routing_async`: a random routing thread is asked for the addresses of a key. -/
def queryRoutingAsync (c : Client σ) (key : String) : Client σ :=
  let (c, requestId) := getRequestId c
  let (seed, r) := rand c.seed
  let thread := routingThreads.getD (r % routingThreads.length) ""
  { c with seed := seed, sent := c.sent ++ [.routing thread requestId key] }

/-- The cached addresses of a key. -/
def cached (c : Client σ) (key : String) : Finset String := (c.keyAddressCache.get? key).getD ∅

/-- If there are no cached addresses, the routing tier is asked, once for all waiting requests. -/
def getAllWorkerThreads (c : Client σ) (key : String) : Client σ × Finset String :=
  if cached c key = ∅ then
    (if key ∈ c.pendingRequest.keys then c else queryRoutingAsync rand routingThreads c key, ∅)
  else (c, cached c key)

/-- One of the addresses at random, or the empty one. -/
def getWorkerThread (c : Client σ) (key : String) : Client σ × String :=
  let (c, localCache) := getAllWorkerThreads rand routingThreads c key
  if localCache = ∅ then (c, "")
  else
    let (seed, r) := rand c.seed
    ({ c with seed := seed }, (Common.setItems localCache).getD (r % localCache.card) "")

/-- The request waits for the addresses of its key. -/
def enqueue (now : ℕ) (c : Client σ) (request : KeyRequest) : Client σ :=
  let pending := (c.pendingRequest.get? request.key).getD (now, [])
  { c with
    pendingRequest := c.pendingRequest.set request.key (pending.1, pending.2 ++ [request]) }

/-- The request is sent and waits for its response; one that waited already keeps its stamp. -/
def dispatch (now : ℕ) (c : Client σ) (worker : String) (request : KeyRequest) : Client σ :=
  let request := { request with addressCacheSize := (cached c request.key).card }
  let c := { c with sent := c.sent ++ [Message.worker worker request] }
  match request.type with
  | .get =>
      let pending := (c.pendingGetResponse.get? request.key).getD ⟨now, worker, request⟩
      { c with
        pendingGetResponse :=
          c.pendingGetResponse.set request.key { pending with workerAddr := worker } }
  | .put =>
      let pending := (c.pendingPutResponse.get? (request.key, request.requestId)).getD
        ⟨now, worker, request⟩
      { c with
        pendingPutResponse := c.pendingPutResponse.set (request.key, request.requestId)
          { pending with workerAddr := worker } }

/-- `try_request`: without an address the request waits for the routing tier. -/
def tryRequest (now : ℕ) (c : Client σ) (request : KeyRequest) : Client σ :=
  let (c, worker) := getWorkerThread rand routingThreads c request.key
  if worker = "" then enqueue now c request else dispatch now c worker request

/-- A put request; its id is returned. -/
def putAsync (now : ℕ) (c : Client σ) (key : String) (payload : List UInt8) : Client σ × ℕ :=
  let (c, requestId) := getRequestId c
  (tryRequest rand routingThreads now c
    { requestId := requestId, type := .put, key := key, payload := payload }, requestId)

/-- A get request, unless one was sent and waits for its response. -/
def getAsync (now : ℕ) (c : Client σ) (key : String) : Client σ :=
  if key ∈ c.pendingGetResponse.keys then c
  else
    let (c, requestId) := getRequestId c
    tryRequest rand routingThreads now c { requestId := requestId, type := .get, key := key }

/-! ### Responses -/

/-- The waiting requests are tried again, while their vector is iterated. -/
def tryAll (now : ℕ) (key : String) (c : Client σ) (requests : List KeyRequest) :
    Option (Client σ) :=
  requests.foldlM
    (fun c request =>
      let c' := tryRequest rand routingThreads now c request
      if c'.pendingRequest.get? key = c.pendingRequest.get? key then some c' else none) c

/-- The answer of the routing tier; the requests that waited for it are tried again. -/
def handleAddress (now : ℕ) (c : Client σ) (response : KeyAddressResponse) : Option (Client σ) :=
  match c.pendingRequest.get? response.key with
  | none => some c
  | some pending =>
      if response.error = .noServers then
        some (queryRoutingAsync rand routingThreads
          { c with pendingRequest := c.pendingRequest.set response.key (now, pending.2) }
          response.key)
      else
        let cache := response.ips.foldl
          (fun m ip => m.set response.key (insert ip ((m.get? response.key).getD ∅)))
          c.keyAddressCache
        (tryAll rand routingThreads now response.key { c with keyAddressCache := cache }
          pending.2).map fun c => { c with pendingRequest := c.pendingRequest.erase response.key }

/-- Whether the request is to be issued again; the cached addresses may be out of date. -/
def checkTuple (c : Client σ) (response : KeyResponse) : Client σ × Bool :=
  if response.tupleError = .wrongThread then
    ({ c with keyAddressCache := c.keyAddressCache.erase response.key }, true)
  else if response.invalidate then
    ({ c with keyAddressCache := c.keyAddressCache.erase response.key }, false)
  else (c, false)

/-- The response of a worker: answered, or tried again if the worker is the wrong one. -/
def handleResponse (now : ℕ) (c : Client σ) (response : KeyResponse) :
    Client σ × List KeyResponse :=
  match response.type with
  | .get =>
      match c.pendingGetResponse.get? response.key with
      | none => (c, [])
      | some pending =>
          let (c, again) := checkTuple c response
          if again then
            let c := { c with
              pendingGetResponse :=
                c.pendingGetResponse.set response.key { pending with tp := now } }
            (tryRequest rand routingThreads now c pending.request, [])
          else
            ({ c with pendingGetResponse := c.pendingGetResponse.erase response.key }, [response])
  | .put =>
      match c.pendingPutResponse.get? (response.key, response.responseId) with
      | none => (c, [])
      | some pending =>
          let (c, again) := checkTuple c response
          if again then
            let c := { c with
              pendingPutResponse := c.pendingPutResponse.set (response.key, response.responseId)
                { pending with tp := now } }
            (tryRequest rand routingThreads now c pending.request, [])
          else
            ({ c with
                pendingPutResponse :=
                  c.pendingPutResponse.erase (response.key, response.responseId) }, [response])

/-! ### What has waited too long -/

/-- The time since a stamp, in whole milliseconds, is over the limit. -/
def Expired (now tp : ℕ) : Prop := (timeout : ℤ) < ((now : ℤ) - tp).tdiv 1000000

instance Expired.decidable (now tp : ℕ) : Decidable (Expired timeout now tp) :=
  inferInstanceAs (Decidable (_ < _))

/-- The answer to a request that has timed out. -/
def generateBadResponse (request : KeyRequest) : KeyResponse where
  type := request.type
  responseId := request.requestId
  key := request.key
  error := .timeout
  payload := if request.type = .put then request.payload else []

/-- The part of an address between the first two colons; an address without a colon has none. -/
def signature (address : String) : Option (List Char) := (split ':' address.toList)[1]?

/-- All keys that have an address on the node of the worker are removed. -/
def invalidateCacheForWorker (c : Client σ) (worker : String) : Option (Client σ) :=
  if signature worker = none ∨
      (c.keyAddressCache.entries.any fun e => decide (∃ a ∈ e.2, signature a = none)) then none
  else
    some { c with
      keyAddressCache := c.keyAddressCache.filter fun _ addresses =>
        decide (∀ a ∈ addresses, signature a ≠ signature worker) }

/-- Requests that have waited too long for addresses. -/
def expireRequests (now : ℕ) (c : Client σ) : Client σ × List KeyResponse :=
  let expired := c.pendingRequest.entries.filter fun e => Expired timeout now e.2.1
  ({ c with
      pendingRequest := c.pendingRequest.filter fun _ p => ¬ Expired timeout now p.1 },
    expired.flatMap fun e => e.2.2.map generateBadResponse)

/-- Gets without a response; what is known of their workers is forgotten. -/
def expireGets (now : ℕ) (c : Client σ) : Option (Client σ × List KeyResponse) :=
  let expired := c.pendingGetResponse.entries.filter fun e => Expired timeout now e.2.tp
  (expired.foldlM (fun c e => invalidateCacheForWorker c e.2.workerAddr) c).map fun c =>
    ({ c with
        pendingGetResponse := c.pendingGetResponse.filter fun _ p => ¬ Expired timeout now p.tp },
      expired.map fun e => generateBadResponse e.2.request)

/-- Puts without a response; what is known of their workers is forgotten. -/
def expirePuts (now : ℕ) (c : Client σ) : Option (Client σ × List KeyResponse) :=
  let expired := c.pendingPutResponse.entries.filter fun e => Expired timeout now e.2.tp
  (expired.foldlM (fun c e => invalidateCacheForWorker c e.2.workerAddr) c).map fun c =>
    ({ c with
        pendingPutResponse := c.pendingPutResponse.filter fun _ p => ¬ Expired timeout now p.tp },
      expired.map fun e => generateBadResponse e.2.request)

/-- `receive_async`: at most one message of either kind, then the timeouts. -/
def receiveAsync (now : ℕ) (c : Client σ) (addresses : Option KeyAddressResponse)
    (response : Option KeyResponse) : Option (Client σ × List KeyResponse) := do
  let c ← addresses.elim (some c) (handleAddress rand routingThreads now c)
  let (c, answer) := response.elim (c, []) (handleResponse rand routingThreads now c)
  let (c, badRequests) := expireRequests timeout now c
  let (c, badGets) ← expireGets timeout now c
  let (c, badPuts) ← expirePuts timeout now c
  some (c, answer ++ badRequests ++ badGets ++ badPuts)

end Client

/-! ### The scheduler -/

/-- What the scheduler gets. -/
inductive RecvMsg
  | kvsGetResp (key : String) (payload : List UInt8)
  | kvsPutResp (key : String)
  deriving DecidableEq

/-- What the scheduler does with a response of the client: a get that timed out is issued again, a
put that timed out is dropped, and so is a get of a key that does not exist. -/
def handleKvsResponse {σ : Type} (rand : σ → σ × ℕ) (routingThreads : List String) (now : ℕ)
    (s : Client σ × List RecvMsg) (response : KeyResponse) : Client σ × List RecvMsg :=
  if response.error = .timeout then
    match response.type with
    | .get => (getAsync rand routingThreads now s.1 response.key, s.2)
    | .put => s
  else
    match response.type with
    | .get =>
        if response.tupleError ≠ .keyDne then
          (s.1, s.2 ++ [.kvsGetResp response.key response.payload])
        else s
    | .put => (s.1, s.2 ++ [.kvsPutResp response.key])

/-- The client of an I/O thread, with records: the keys and ids of all puts, all responses that the
client has returned, the ids of the puts that a worker has refused because it is the wrong thread,
the addresses that the routing tier has told, and the messages for the scheduler. -/
structure State (σ : Type) where
  client : Client σ
  puts : List (String × ℕ) := []
  answers : List KeyResponse := []
  refused : List (String × ℕ) := []
  told : List (String × String) := []
  msgs : List RecvMsg := []

/-- A call of the client. -/
inductive Event
  | put (now : ℕ) (key : String) (payload : List UInt8)
  | get (now : ℕ) (key : String)
  | poll (now : ℕ) (addresses : Option KeyAddressResponse) (response : Option KeyResponse)

/-- A put waits for its response. -/
def Awaits {σ : Type} (c : Client σ) (key : String) (id : ℕ) : Prop :=
  (key, id) ∈ c.pendingPutResponse.keys

instance Awaits.decidable {σ : Type} (c : Client σ) (key : String) (id : ℕ) :
    Decidable (Awaits c key id) :=
  inferInstanceAs (Decidable (_ ∈ _))

/-- The put that a worker refuses, if it waits for the response. -/
def refusedPut {σ : Type} (c : Client σ) (response : KeyResponse) : List (String × ℕ) :=
  if response.type = .put ∧ response.tupleError = .wrongThread ∧
      Awaits c response.key response.responseId then
    [(response.key, response.responseId)]
  else []

section Step

variable {σ : Type} (rand : σ → σ × ℕ) (routingThreads : List String) (timeout : ℕ)

/-- `get_kvs_responses`. -/
def getKvsResponses (now : ℕ) (s : State σ) (addresses : Option KeyAddressResponse)
    (response : Option KeyResponse) : Option (State σ) := do
  let c₁ ← addresses.elim (some s.client) (handleAddress rand routingThreads now s.client)
  let (c, responses) ← receiveAsync rand routingThreads timeout now s.client addresses response
  let (c, msgs) := responses.foldl (handleKvsResponse rand routingThreads now) (c, [])
  some
    { client := c
      puts := s.puts
      answers := s.answers ++ responses
      refused := s.refused ++ response.elim [] (refusedPut c₁)
      told := s.told ++ addresses.elim [] fun a => a.ips.map (a.key, ·)
      msgs := s.msgs ++ msgs }

/-- One call; the puts are recorded. -/
def step (s : State σ) : Event → Option (State σ)
  | .put now key payload =>
      let (c, requestId) := putAsync rand routingThreads now s.client key payload
      some { s with client := c, puts := s.puts ++ [(key, requestId)] }
  | .get now key => some { s with client := getAsync rand routingThreads now s.client key }
  | .poll now addresses response =>
      getKvsResponses rand routingThreads timeout now s addresses response

end Step

/-! ### Request ids -/

section Ids

variable {σ : Type}

/-- The counter is always even, so that it is never reset. -/
theorem getRequestId_eq {c : Client σ} (h : c.rid = 2 * c.requestIds % 2 ^ 32) :
    (getRequestId c).2 = 2 * c.requestIds % 2 ^ 32 + 1 ∧
      (getRequestId c).1.rid = 2 * (getRequestId c).1.requestIds % 2 ^ 32 := by
  have hodd : (c.rid + 1) % 2 ^ 32 = c.rid + 1 := by omega
  have hreset : ¬ (c.rid + 1) % 10000 = 0 := by omega
  simp only [getRequestId, hodd, if_neg hreset]
  constructor <;> omega

end Ids

end Demeter.Scheduler.Kvs
