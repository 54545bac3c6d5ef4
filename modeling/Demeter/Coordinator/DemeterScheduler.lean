import Demeter.Coordinator.Messages
import Demeter.Lib.Partition

/-!
# The Demeter scheduler of the coordinator

`src/coordinator/demeter_scheduler.cpp`: every request of a call goes to the free node of largest
affinity, or to a random node when no node is free, and the requests of one node travel in one
message.

* `demeterScheduleFunctionCall`: the routing;
* `scheduleRequests_spec`: every request is pushed to the list of exactly one node;
* `demeterScheduleFunctionCall_spec`: what follows for the routed messages.
-/

namespace Demeter.Coordinator

/-- An allocation of the configuration. -/
structure DemeterAllocation where
  name : String
  cpuCores : Float
  memoryMb : ℕ

/-- The weights of a node. -/
structure DemeterNodeProfile where
  dc : String
  warmWeight : Float
  loadWeight : Float
  localityWeight : Float

/-- The configuration of the scheduler. -/
structure DemeterSchedulerConfig where
  enabled : Bool := false
  memoryLossFactor : Float := 0.8
  allocations : List DemeterAllocation := []
  nodeProfiles : Dict Address DemeterNodeProfile := .empty

/-! ### Scores -/

/-- `clamp_positive`. -/
def clampPositive (value fallback : Float) : Float := if value > 0 then value else fallback

/-- The size of the arguments in MB, at least 1. -/
def estimateRequestInputMb (req : FunctionRequest) : Float :=
  let totalBytes := req.arguments.foldl (fun total arg =>
    if arg.body = [] then total else total + Float.ofNat arg.body.length) 0
  let mb := totalBytes / (1024.0 * 1024.0)
  if mb < 1.0 then 1.0 else mb

/-- The smallest allocation that holds the input, or the last one if none does. -/
def chooseAllocation (req : FunctionRequest) (config : DemeterSchedulerConfig) :
    DemeterAllocation :=
  match config.allocations with
  | [] => { name := "default", cpuCores := 1.0, memoryMb := 128 }
  | front :: rest =>
      let requiredMb := estimateRequestInputMb req / clampPositive config.memoryLossFactor 0.8
      let best : DemeterAllocation × Bool := (front :: rest).foldl (fun best alloc =>
        if Float.ofNat alloc.memoryMb ≥ requiredMb ∧
            (best.2 = false ∨ alloc.memoryMb < best.1.memoryMb ∨
              (alloc.memoryMb = best.1.memoryMb ∧ alloc.cpuCores < best.1.cpuCores)) then
          (alloc, true)
        else best) (front, false)
      if best.2 then best.1 else (front :: rest).getLast (List.cons_ne_nil _ _)

/-- `node_affinity`: what speaks for a node. -/
def nodeAffinity (addr : Address) (status : NodeStatus) (req : FunctionRequest)
    (alloc : DemeterAllocation) (config : DemeterSchedulerConfig) : Float :=
  let profile := (config.nodeProfiles.get? addr).getD
    { dc := addr, warmWeight := 0.15, loadWeight := 0.35, localityWeight := 1.0 }
  let warmBonus := if req.name ∈ status.functions then profile.warmWeight else 0.0
  let loadScore := profile.loadWeight * Float.ofInt status.availExecutors
  let resourceScore := 0.01 * alloc.cpuCores + 0.00001 * Float.ofNat alloc.memoryMb
  loadScore + warmBonus + resourceScore + profile.localityWeight

/-! ### Routing -/

/-- Calls are not sent back to the worker they came from. -/
def isSource (source addr : Address) : Bool := source ≠ "" ∧ source = addr

/-- The affinity that every node beats. -/
def negInfinity : Float := -(1.0 / 0.0)

/-- The free node of largest affinity; empty when there is none. -/
def bestNode (source : Address) (nodes : Dict Address NodeStatus) (req : FunctionRequest)
    (config : DemeterSchedulerConfig) : Address :=
  let alloc := chooseAllocation req config
  (nodes.entries.foldl (fun best e =>
    if isSource source e.1 ∨ e.2.availExecutors ≤ 0 then best
    else
      let score := nodeAffinity e.1 e.2 req alloc config
      if score > best.1 then (score, e.1) else best) (negInfinity, "")).2

/-- The node at a random position of the map. -/
def nodeAt (nodes : Dict Address NodeStatus) (r : ℕ) : Address :=
  ((nodes.entries[r % nodes.entries.length]?).map Prod.fst).getD ""

variable {σ : Type} (rand : σ → ℕ × σ)

/-- The local variables of the loop over the requests. -/
structure ScheduleState (σ : Type) where
  nodeReqs : Dict Address (List FunctionRequest)
  nodes : Dict Address NodeStatus
  seed : σ

/-- Take one executor of a node, if it has a free one. -/
def takeExecutor (status : NodeStatus) : NodeStatus :=
  if status.availExecutors > 0 then { status with availExecutors := status.availExecutors - 1 }
  else status

/-- The node chosen for a request, with the seed after the choice. -/
def chooseNode (source : Address) (config : DemeterSchedulerConfig) (st : ScheduleState σ)
    (req : FunctionRequest) : Address × σ :=
  let best := bestNode source st.nodes req config
  if best = "" ∧ st.nodes.entries ≠ [] then
    let r := rand st.seed
    (nodeAt st.nodes r.1, r.2)
  else (best, st.seed)

/-- One request: it goes to the chosen node, which has one executor less. -/
def scheduleRequest (source : Address) (config : DemeterSchedulerConfig) (st : ScheduleState σ)
    (req : FunctionRequest) : ScheduleState σ :=
  let chosen := chooseNode rand source config st req
  if chosen.1 = "" then { st with seed := chosen.2 }
  else
    { nodeReqs := st.nodeReqs.push chosen.1 req
      nodes := st.nodes.modify chosen.1 takeExecutor
      seed := chosen.2 }

/-- The message for the requests of one node. -/
def routedCall (call : FunctionCall) (config : DemeterSchedulerConfig)
    (reqs : List FunctionRequest) : FunctionCall where
  appName := call.appName
  source := call.source
  requestId := call.requestId
  respAddress := call.respAddress
  sessionId := call.sessionId
  syncDataStatus := true
  requests := reqs.map fun req =>
    let alloc := chooseAllocation req config
    { req with cpuCores := alloc.cpuCores, memoryMb := alloc.memoryMb }

/-- The messages by node, the nodes with the executors taken, and the seed. -/
def demeterScheduleFunctionCall (call : FunctionCall) (source : Address)
    (nodes : Dict Address NodeStatus) (config : DemeterSchedulerConfig) (seed : σ) :
    Dict Address FunctionCall × Dict Address NodeStatus × σ :=
  if config.enabled = false ∨ nodes.entries = [] then (.empty, nodes, seed)
  else
    let st := call.requests.foldl (scheduleRequest rand source config) ⟨.empty, nodes, seed⟩
    (st.nodeReqs.mapVals fun _ reqs => routedCall call config reqs, st.nodes, st.seed)

/-! ### Where the requests go -/

variable {rand}

theorem nodeAt_mem {nodes : Dict Address NodeStatus} (h : nodes.entries ≠ []) (r : ℕ) :
    nodeAt nodes r ∈ nodes.keys := by
  have hlt : r % nodes.entries.length < nodes.entries.length :=
    Nat.mod_lt r (List.length_pos_of_ne_nil h)
  rw [nodeAt, List.getElem?_eq_getElem hlt, Option.map_some, Option.getD_some]
  exact List.mem_map.2 ⟨_, List.getElem_mem hlt, rfl⟩

theorem bestNode_mem {source : Address} {nodes : Dict Address NodeStatus} {req : FunctionRequest}
    {config : DemeterSchedulerConfig} (h : bestNode source nodes req config ≠ "") :
    bestNode source nodes req config ∈ nodes.keys := by
  have key : ∀ best : Float × Address, best = (nodes.entries.foldl (fun best e =>
      if isSource source e.1 ∨ e.2.availExecutors ≤ 0 then best
      else
        let score := nodeAffinity e.1 e.2 req (chooseAllocation req config) config
        if score > best.1 then (score, e.1) else best) (negInfinity, "")) →
      best.2 = "" ∨ best.2 ∈ nodes.keys := by
    rintro _ rfl
    refine List.foldlRecOn (motive := fun best : Float × Address =>
      best.2 = "" ∨ best.2 ∈ nodes.keys) _ _ (Or.inl rfl) fun best hbest e he => ?_
    have hkey : e.1 ∈ nodes.keys := List.mem_map.2 ⟨e, he, rfl⟩
    simp only
    split_ifs
    · exact hbest
    · exact Or.inr hkey
    · exact hbest
  exact (key _ rfl).resolve_left h

/-- The node chosen for a request is a node of the map. -/
theorem chooseNode_mem (rand : σ → ℕ × σ) (source : Address) (config : DemeterSchedulerConfig)
    {st : ScheduleState σ} (hne : st.nodes.entries ≠ []) (req : FunctionRequest) :
    (chooseNode rand source config st req).1 ∈ st.nodes.keys := by
  unfold chooseNode
  simp only
  split_ifs with h
  · exact nodeAt_mem hne _
  · exact bestNode_mem fun he => h ⟨he, hne⟩

/-- The lists of the loop: the requests seen so far, each with the node chosen for it. -/
structure Grouped (nodes : Dict Address NodeStatus) (reqs : List FunctionRequest)
    (targets : List Address) (st : ScheduleState σ) : Prop where
  length : targets.length = reqs.length
  nodeKeys : st.nodes.keys = nodes.keys
  mem_keys : ∀ k, k ∈ st.nodeReqs.keys ↔ k ∈ targets
  lists : ∀ {k l}, st.nodeReqs.get? k = some l → l = labelled reqs targets k

theorem Grouped.scheduleRequest (rand : σ → ℕ × σ) {nodes : Dict Address NodeStatus}
    {reqs : List FunctionRequest} {targets : List Address} {st : ScheduleState σ}
    (h : Grouped nodes reqs targets st) (hne : nodes.entries ≠ [])
    (haddr : ∀ addr ∈ nodes.keys, addr ≠ "") (source : Address) (config : DemeterSchedulerConfig)
    (req : FunctionRequest) :
    Grouped nodes (reqs ++ [req]) (targets ++ [(chooseNode rand source config st req).1])
      (scheduleRequest rand source config st req) := by
  have hne' : st.nodes.entries ≠ [] := by
    intro he
    have hk := h.nodeKeys
    rw [Dict.keys, he, List.map_nil, Dict.keys, eq_comm, List.map_eq_nil_iff] at hk
    exact hne hk
  have hmem := chooseNode_mem rand source config hne' req
  rw [h.nodeKeys] at hmem
  rw [Coordinator.scheduleRequest, if_neg (haddr _ hmem)]
  refine ⟨by simp [h.length], by simpa using h.nodeKeys, fun k => ?_, fun {k l} hk => ?_⟩
  · rw [Dict.push, Dict.mem_keys_set, h.mem_keys, List.mem_append, List.mem_singleton, or_comm]
  · rw [labelled_append h.length.symm, labelled_cons, labelled_nil]
    rw [Dict.get?_push] at hk
    split_ifs at hk with hkt
    · rw [Option.some.injEq] at hk
      subst hkt
      rw [← hk, if_pos rfl]
      congr 1
      cases hget : st.nodeReqs.get? (chooseNode rand source config st req).1 with
      | some l => exact h.lists hget
      | none =>
        rw [Dict.get?_eq_none_iff, h.mem_keys] at hget
        exact (labelled_eq_nil hget).symm
    · rw [if_neg (Ne.symm hkt), List.append_nil]
      exact h.lists hk

theorem grouped_nil (nodes : Dict Address NodeStatus) (seed : σ) :
    Grouped nodes [] [] ⟨.empty, nodes, seed⟩ :=
  ⟨rfl, rfl, by simp [Dict.keys, Dict.empty], fun hk => by cases hk⟩

theorem exists_grouped (rand : σ → ℕ × σ) {nodes : Dict Address NodeStatus}
    (hne : nodes.entries ≠ []) (haddr : ∀ addr ∈ nodes.keys, addr ≠ "") (source : Address)
    (config : DemeterSchedulerConfig) (reqs : List FunctionRequest) (seed : σ) :
    ∃ targets, Grouped nodes reqs targets
      (reqs.foldl (scheduleRequest rand source config) ⟨.empty, nodes, seed⟩) := by
  induction reqs using List.reverseRecOn with
  | nil => exact ⟨[], grouped_nil nodes seed⟩
  | append_singleton reqs req ih =>
    obtain ⟨targets, h⟩ := ih
    refine ⟨targets ++ [(chooseNode rand source config (reqs.foldl
      (scheduleRequest rand source config) ⟨.empty, nodes, seed⟩) req).1], ?_⟩
    rw [List.foldl_append]
    exact h.scheduleRequest rand hne haddr source config req

@[simp] theorem content_requests_routedCall (call : FunctionCall)
    (config : DemeterSchedulerConfig) (reqs : List FunctionRequest) :
    (routedCall call config reqs).requests.map (·.content) = reqs.map (·.content) := by
  simp [routedCall, FunctionRequest.content, Function.comp_def]

/-- The messages made of the lists divide the requests among the nodes. -/
theorem Grouped.partitions {nodes : Dict Address NodeStatus} {reqs : List FunctionRequest}
    {targets : List Address} {st : ScheduleState σ} (h : Grouped nodes reqs targets st)
    (call : FunctionCall) (config : DemeterSchedulerConfig) {msgs : List (Address × FunctionCall)}
    (hperm : msgs.Perm (st.nodeReqs.mapVals fun _ reqs => routedCall call config reqs).entries) :
    Partitions (reqs.map (·.content)) (msgs.map (·.2.requests.map (·.content))) := by
  have hfst : ∀ k, k ∈ msgs.map Prod.fst ↔ k ∈ targets := by
    intro k
    rw [(hperm.map Prod.fst).mem_iff, ← h.mem_keys, ← Dict.keys, Dict.keys_mapVals]
  have parts : Partitions (reqs.map (·.content))
      ((msgs.map fun e => (e.1, e.2.requests.map (·.content))).map Prod.snd) := by
    refine .of_keys targets ?_ ?_ ?_ ?_
    · rw [List.map_map]
      exact (hperm.map Prod.fst).nodup_iff.2 (Dict.nodup _)
    · rw [List.length_map]
      exact h.length
    · intro k hk
      rw [List.map_map]
      exact (hfst k).2 hk
    · intro e he
      obtain ⟨⟨k, msg⟩, hmsg, rfl⟩ := List.mem_map.1 he
      have hget := Dict.mem_entries_iff.1 (hperm.mem_iff.1 hmsg)
      rw [Dict.get?_mapVals, Option.map_eq_some_iff] at hget
      obtain ⟨l, hl, rfl⟩ := hget
      rw [content_requests_routedCall, h.lists hl, map_labelled]
  rwa [List.map_map] at parts

section Enabled

variable {nodes : Dict Address NodeStatus} {config : DemeterSchedulerConfig}
  (he : config.enabled = true) (hne : nodes.entries ≠ [])
  (rand : σ → ℕ × σ) (call : FunctionCall) (source : Address) (seed : σ)
include he hne

theorem fst_demeterScheduleFunctionCall :
    (demeterScheduleFunctionCall rand call source nodes config seed).1 =
      (call.requests.foldl (scheduleRequest rand source config)
        ⟨.empty, nodes, seed⟩).nodeReqs.mapVals fun _ reqs => routedCall call config reqs := by
  rw [demeterScheduleFunctionCall, if_neg (by simp [he, hne])]

variable (haddr : ∀ addr ∈ nodes.keys, addr ≠ "")
include haddr

theorem demeterScheduleFunctionCall_partitions {msgs : List (Address × FunctionCall)}
    (hperm : msgs.Perm (demeterScheduleFunctionCall rand call source nodes config seed).1.entries) :
    Partitions (call.requests.map (·.content)) (msgs.map (·.2.requests.map (·.content))) := by
  obtain ⟨targets, h⟩ := exists_grouped rand hne haddr source config call.requests seed
  rw [fst_demeterScheduleFunctionCall he hne] at hperm
  exact h.partitions call config hperm

theorem demeterScheduleFunctionCall_ne_nil (hreq : call.requests ≠ []) :
    (demeterScheduleFunctionCall rand call source nodes config seed).1.entries ≠ [] := by
  obtain ⟨targets, h⟩ := exists_grouped rand hne haddr source config call.requests seed
  rw [fst_demeterScheduleFunctionCall he hne]
  obtain ⟨target, htarget⟩ := List.exists_mem_of_ne_nil targets fun ht =>
    hreq (List.length_eq_zero_iff.1 (by rw [← h.length, ht, List.length_nil]))
  have hmem := (h.mem_keys target).2 htarget
  rw [Dict.keys, List.mem_map] at hmem
  obtain ⟨e, hmem, -⟩ := hmem
  exact List.ne_nil_of_mem (List.mem_map.2 ⟨e, hmem, rfl⟩)

end Enabled

/-- As long as no request has a node, no executor has been taken. -/
theorem nodes_of_nodeReqs_eq_nil (rand : σ → ℕ × σ) (source : Address)
    (config : DemeterSchedulerConfig) (nodes : Dict Address NodeStatus)
    (reqs : List FunctionRequest) (seed : σ)
    (h : (reqs.foldl (scheduleRequest rand source config)
      ⟨.empty, nodes, seed⟩).nodeReqs.entries = []) :
    (reqs.foldl (scheduleRequest rand source config) ⟨.empty, nodes, seed⟩).nodes = nodes := by
  revert h
  refine List.foldlRecOn (motive := fun st : ScheduleState σ =>
    st.nodeReqs.entries = [] → st.nodes = nodes) reqs _ (fun _ => rfl) fun st hst req _ => ?_
  unfold scheduleRequest
  simp only
  split_ifs with hempty
  · exact hst
  · intro hnil
    have hmem : (chooseNode rand source config st req).1 ∈
        (st.nodeReqs.push (chooseNode rand source config st req).1 req).keys :=
      Dict.mem_keys_set.2 (Or.inl rfl)
    simp only at hnil
    simp [Dict.keys, hnil] at hmem

theorem nodes_demeterScheduleFunctionCall {call : FunctionCall} {source : Address}
    {nodes : Dict Address NodeStatus} {config : DemeterSchedulerConfig} {seed : σ}
    (h : (demeterScheduleFunctionCall rand call source nodes config seed).1.entries = []) :
    (demeterScheduleFunctionCall rand call source nodes config seed).2.1 = nodes := by
  unfold demeterScheduleFunctionCall at h ⊢
  split_ifs at h ⊢
  · rfl
  · exact nodes_of_nodeReqs_eq_nil rand source config nodes call.requests seed
      (List.map_eq_nil_iff.1 h)

/-- A routed message carries the identity of the call. -/
theorem exists_of_mem_demeterScheduleFunctionCall {call : FunctionCall} {source : Address}
    {nodes : Dict Address NodeStatus} {config : DemeterSchedulerConfig} {seed : σ}
    {e : Address × FunctionCall}
    (h : e ∈ (demeterScheduleFunctionCall rand call source nodes config seed).1.entries) :
    ∃ reqs, e.2 = routedCall call config reqs := by
  unfold demeterScheduleFunctionCall at h
  split_ifs at h
  · cases h
  · obtain ⟨e', -, rfl⟩ := List.mem_map.1 h
    exact ⟨e'.2, rfl⟩

end Demeter.Coordinator
