import Mathlib.Data.PNat.Notation
import Demeter.Coordinator.DemeterScheduler

/-!
# The handler of function calls

`src/coordinator/func_call_handler.cpp`: a call gets a session id if it has none, is routed by the
Demeter scheduler, as a whole batch, as a split batch or as a single request, and the messages are
sent to the chosen nodes; if no node was chosen, the client gets an error response.

The counters are machine integers: sums of executors wrap around.  `none` stands for a run that
does not come back: a search for a free node that never ends, or an index outside a vector.
-/

namespace Demeter.Coordinator

/-- The value of a 32-bit `int` after an overflow. -/
def wrapInt (x : ℤ) : ℤ := x.bmod (2 ^ 32)

/-! ### The free executors of the nodes -/

/-- The local variables of the loop over the nodes. -/
structure NodeScan where
  totalExecutors : ℤ := 0
  availNodes : List (Address × ℤ) := []
  maxExecutors : ℤ := 0
  nodeWithMaxExecutors : Address := ""
  deriving DecidableEq

/-- One node of the scan; the source of the call is left out. -/
def scanNode (source : Address) (scan : NodeScan) (e : Address × NodeStatus) : NodeScan :=
  if isSource source e.1 then scan
  else
    let avail := e.2.availExecutors
    let counted :=
      if avail > 0 then
        { scan with
          totalExecutors := wrapInt (scan.totalExecutors + avail)
          availNodes := scan.availNodes ++ [(e.1, avail)] }
      else scan
    if avail > counted.maxExecutors then
      { counted with maxExecutors := avail, nodeWithMaxExecutors := e.1 }
    else counted

/-- What is counted before a node is chosen. -/
def scanNodes (source : Address) (nodes : Dict Address NodeStatus) : NodeScan :=
  nodes.entries.foldl (scanNode source) {}

/-! ### Batches -/

/-- The search for a node with free executors, from `idx` on and around. -/
def nextFree (avail : List (Address × ℤ)) : ℕ → ℕ → Option ℕ
  | 0, _ => none
  | fuel + 1, idx => do
      let node ← avail[idx]?
      if node.2 ≤ 0 then nextFree avail fuel ((idx + 1) % avail.length) else some idx

/-- Give `n` requests to the nodes, one at a time and in turns.  A search that has seen every node
without success would go round for ever. -/
def assignLoads : ℕ → ℕ → List (Address × ℤ) → List ℕ → Option (List ℕ)
  | 0, _, _, loads => some loads
  | n + 1, idx, avail, loads => do
      let idx ← nextFree avail avail.length idx
      assignLoads n ((idx + 1) % avail.length)
        (avail.modify idx fun node => (node.1, node.2 - 1)) (loads.modify idx (· + 1))

/-- The local variables of the loop that cuts a batch into messages. -/
structure SplitState where
  requests : List FunctionRequest := []
  curLoad : ℕ := 0
  availNodeIndex : ℕ := 0
  scheduled : Dict Address FunctionCall := .empty

/-- The message for one part of a batch. -/
def partCall (call : FunctionCall) (requests : List FunctionRequest) : FunctionCall where
  appName := call.appName
  respAddress := call.respAddress
  syncDataStatus := true
  requests := requests

/-- One request of a split batch: it fills the current node, and the call is sent when the load is
reached. -/
def splitRequest (call : FunctionCall) (loads : List ℕ) (availNodes : List (Address × ℤ))
    (st : SplitState) (req : FunctionRequest) : Option SplitState := do
  let requests := st.requests ++ [req]
  let curLoad := st.curLoad + 1
  let load ← loads[st.availNodeIndex]?
  if curLoad = load then
    let node ← availNodes[st.availNodeIndex]?
    return {
      requests := []
      curLoad := 0
      availNodeIndex := st.availNodeIndex + 1
      scheduled := st.scheduled.set node.1 (partCall call requests) }
  else return { st with requests := requests, curLoad := curLoad }

/-- The calls of a batch that no single node can take. -/
def splitBatch (call : FunctionCall) (scan : NodeScan) : Option (Dict Address FunctionCall) := do
  let loads ← assignLoads call.requests.length 0 scan.availNodes
    (List.replicate scan.availNodes.length 0)
  let st ← call.requests.foldlM (splitRequest call loads scan.availNodes) {}
  return st.scheduled

/-- More than one request: one node for all of them, or several nodes, or none. -/
def scheduleBatch (call : FunctionCall) (nodes : Dict Address NodeStatus) :
    Option (Dict Address FunctionCall) :=
  let scan := scanNodes call.source nodes
  if scan.maxExecutors ≥ call.requests.length then
    some (Dict.empty.set scan.nodeWithMaxExecutors call)
  else if scan.totalExecutors ≥ call.requests.length then splitBatch call scan
  else some .empty

/-! ### The handler -/

/-- What the handler sends, and the state it leaves behind. -/
structure Outcome (σ : Type) where
  messages : List (Address × FunctionCall)
  responses : List (Address × FunctionCallResponse)
  nodes : Dict Address NodeStatus
  seed : σ

variable {σ : Type} (rand : σ → ℕ × σ) (ioThreadNum : ℕ+)

/-- One request: the node with most free executors, or a random one. -/
def scheduleSingle (call : FunctionCall) (nodes : Dict Address NodeStatus) (seed : σ) :
    Dict Address FunctionCall × σ :=
  let scan := scanNodes call.source nodes
  if scan.maxExecutors > 0 then (Dict.empty.set scan.nodeWithMaxExecutors call, seed)
  else if nodes.entries ≠ [] then
    let r := rand seed
    (Dict.empty.set (nodeAt nodes r.1) call, r.2)
  else (.empty, seed)

/-- The call with a session id. -/
def withSession (call : FunctionCall) (seed : σ) : FunctionCall × σ :=
  if call.sessionId = "" then
    let r := genRandom rand seed 16
    ({ call with sessionId := r.1 }, r.2)
  else (call, seed)

/-- The messages by node, the nodes and the seed after the routing of a call with a session. -/
def route (call : FunctionCall) (nodes : Dict Address NodeStatus)
    (config : DemeterSchedulerConfig) (seed : σ) :
    Option (Dict Address FunctionCall × Dict Address NodeStatus × σ) := do
  let routed :=
    if config.enabled then demeterScheduleFunctionCall rand call call.source nodes config seed
    else (.empty, nodes, seed)
  if routed.1.entries ≠ [] then return routed
  else if call.requests.length > 1 then
    let scheduled ← scheduleBatch call routed.2.1
    return (scheduled, routed.2)
  else
    let scheduled := scheduleSingle rand call routed.2.1 routed.2.2
    return (scheduled.1, routed.2.1, scheduled.2)

/-- Send the messages, each to a random I/O thread of its node. -/
def sendMessages : List (Address × FunctionCall) → σ → List (Address × FunctionCall) × σ
  | [], seed => ([], seed)
  | e :: l, seed =>
      let r := rand seed
      let rest := sendMessages l r.2
      ((getFuncExecAddress e.1 (r.1 % ioThreadNum), e.2) :: rest.1, rest.2)

/-- The error response for a call without a worker, if the client left an address. -/
def errorResponses (call : FunctionCall) : List (Address × FunctionCallResponse) :=
  if call.respAddress ≠ "" then
    [(call.respAddress, { appName := call.appName, requestId := call.requestId, errorNo := 1 })]
  else []

/-- `func_call_handler`. -/
def funcCallHandler (call : FunctionCall) (nodes : Dict Address NodeStatus)
    (config : DemeterSchedulerConfig) (seed : σ) : Option (Outcome σ) := do
  let session := withSession rand call seed
  let routed ← route rand session.1 nodes config session.2
  if routed.1.entries = [] then
    return {
      messages := []
      responses := errorResponses call
      nodes := routed.2.1
      seed := routed.2.2 }
  else
    let sent := sendMessages rand ioThreadNum routed.1.entries routed.2.2
    return { messages := sent.1, responses := [], nodes := routed.2.1, seed := sent.2 }

/-! ### A small cluster

Two nodes with one free executor each and a call of two requests, used to evaluate the model. -/

namespace Sample

/-- Two nodes with one executor each. -/
def nodes : Dict Address NodeStatus :=
  .ofList [("10.0.0.11", { availExecutors := 1 }), ("10.0.0.12", { availExecutors := 1 })]

/-- A call that no single node can take. -/
def call : FunctionCall where
  appName := "wordcount"
  requests := [{ name := "map", arguments := [] }, { name := "map", arguments := [] }]
  requestId := "request-7"
  sessionId := "session-7"

end Sample

end Demeter.Coordinator
