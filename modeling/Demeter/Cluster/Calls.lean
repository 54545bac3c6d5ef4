import Demeter.Coordinator.Routing
import Demeter.Scheduler.HeldFunctions

/-!
# Function calls in a cluster

Coordinator threads, worker nodes, and the function calls between them.  A call goes from a client
or a trigger to a coordinator or a node; a coordinator routes it to nodes with `funcCallHandler`; a
node handles it with `Node.step`, and may pass it on to the coordinator of its application.

* `State` has the nodes, the coordinators and the calls that are on their way, `step` is one event.
  Calls that are on their way may arrive in any order;
* `network_run` says that the network itself loses and duplicates nothing;
* `calls_conserved` adds what the nodes do: in every interleaving, the functions that were asked for
  are on their way, held by a node, refused for lack of a node, or were sent without a coordinator.
-/

namespace Demeter.Cluster

open Demeter.Coordinator (Address NodeStatus FunctionCall FunctionRequest DemeterSchedulerConfig
  funcCallHandler getFuncExecAddress)
open Demeter.Scheduler (Node Sent Config Env)

/-- A coordinator thread: what it knows of the nodes, and its random seed. -/
structure CoordinatorState (σ : Type) where
  nodeStatusMap : Dict Address NodeStatus := Dict.empty
  seed : σ

/-- What does not change in a run. -/
structure Setup (ι σ : Type) where
  executors : ι → ℕ
  address : ι → Address
  config : ι → Config
  env : ι → Env
  rand : σ → ℕ × σ
  ioThreadNum : ℕ+
  demeterConfig : DemeterSchedulerConfig

variable {ι κ σ : Type}

/-- `toCoordinator`, `toNode` are the calls on their way, with the coordinator or the socket address
that they were sent to.  `refused` are the calls for which a coordinator found no node, a client's
call to route or a trigger's own, and `astray` those that a node sent for an application whose
coordinator it did not know.  `issued` are the functions that clients, triggers and direct
invocations asked for, by name. -/
structure State (ι κ σ : Type) (executors : ι → ℕ) where
  nodes : ∀ w, Node (executors w)
  coordinators : κ → CoordinatorState σ
  appCoordMap : ι → Dict String κ
  toCoordinator : List (κ × FunctionCall) := []
  toNode : List (Address × FunctionCall) := []
  refused : List FunctionCall := []
  astray : List FunctionCall := []
  issued : List String := []

/-- `call` comes from a client; `trigger` is a call that a coordinator makes for a trigger, and
`dropTrigger` one that it drops, because no node that it knows has a free executor; `updateStatus`
is the report of a node; `handle` and `deliver` take the `i`-th call that is on its way to a
coordinator or to a node; `node` is everything else that happens at a node. -/
inductive Event (ι κ : Type) (executors : ι → ℕ) where
  | call (k : κ) (call : FunctionCall)
  | trigger (address : Address) (call : FunctionCall)
  | dropTrigger (call : FunctionCall)
  | updateStatus (k : κ) (address : Address) (status : NodeStatus)
  | registerApp (w : ι) (appName : String) (k : κ)
  | handle (i : ℕ)
  | deliver (i : ℕ) (w : ι) (ioThread now : ℕ)
  | node (w : ι) (event : Node.Event (executors w))

/-- The functions that a call asks for. -/
def names (call : FunctionCall) : List String := call.requests.map (·.name)

/-- A function call reaches a node by `deliver` only. -/
def isCall {n : ℕ} : Node.Event n → Bool
  | .message _ (.call _) => true
  | _ => false

/-- The nodes report under their addresses, which are not empty. -/
def Proper {executors : ι → ℕ} : Event ι κ executors → Prop
  | .updateStatus _ address _ => address ≠ ""
  | _ => True

/-- A node executes functions again. -/
def IsRerun {executors : ι → ℕ} : Event ι κ executors → Prop
  | .node _ event => event.IsRerun
  | _ => False

section Step

variable [DecidableEq ι] [DecidableEq κ] (setup : Setup ι σ)

/-- A call that leaves a node, with the coordinator of its application. -/
def routed {n : ℕ} (apps : Dict String κ) (m : Sent n) : Option (κ × FunctionCall) :=
  match m.message with
  | .executor _ _ => none
  | .coordinator call => (apps.get? call.appName).map (·, call)

/-- A call that leaves a node for an application without a coordinator. -/
def unrouted {n : ℕ} (apps : Dict String κ) (m : Sent n) : Option FunctionCall :=
  match m.message with
  | .executor _ _ => none
  | .coordinator call => if (apps.get? call.appName).isSome then none else some call

/-- A node takes a step, and its new messages go on their way. -/
def stepNode (s : State ι κ σ setup.executors) (w : ι) (event : Node.Event (setup.executors w)) :
    Option (State ι κ σ setup.executors) := do
  let s' ← (s.nodes w).step (setup.config w) (setup.env w) event
  let sent := s'.sent.drop (s.nodes w).sent.length
  return { s with
    nodes := Function.update s.nodes w s'
    toCoordinator := s.toCoordinator ++ sent.filterMap (routed (s.appCoordMap w))
    astray := s.astray ++ sent.filterMap (unrouted (s.appCoordMap w))
    issued := s.issued ++ sent.flatMap (Node.Sent.names false) }

/-- A coordinator handles a call. -/
def handleCall (s : State ι κ σ setup.executors) (k : κ) (call : FunctionCall) :
    Option (State ι κ σ setup.executors) := do
  let out ← funcCallHandler setup.rand setup.ioThreadNum call (s.coordinators k).nodeStatusMap
    setup.demeterConfig (s.coordinators k).seed
  return { s with
    coordinators := Function.update s.coordinators k ⟨out.nodes, out.seed⟩
    toNode := s.toNode ++ out.messages
    refused := if out.messages.isEmpty then s.refused ++ [call] else s.refused }

/-- One event; what is not on its way cannot be handled or delivered. -/
def step (s : State ι κ σ setup.executors) :
    Event ι κ setup.executors → Option (State ι κ σ setup.executors)
  | .call k call => some { s with
      toCoordinator := s.toCoordinator ++ [(k, call)], issued := s.issued ++ names call }
  | .trigger address call => some { s with
      toNode := s.toNode ++ [(address, call)], issued := s.issued ++ names call }
  | .dropTrigger call => some { s with
      refused := s.refused ++ [call], issued := s.issued ++ names call }
  | .updateStatus k address status => some { s with
      coordinators := Function.update s.coordinators k
        { s.coordinators k with
          nodeStatusMap := (s.coordinators k).nodeStatusMap.set address status } }
  | .registerApp w appName k => some { s with
      appCoordMap := Function.update s.appCoordMap w ((s.appCoordMap w).set appName k) }
  | .handle i => do
      let m ← s.toCoordinator[i]?
      handleCall setup { s with toCoordinator := s.toCoordinator.eraseIdx i } m.1 m.2
  | .deliver i w ioThread now => do
      let m ← s.toNode[i]?
      if m.1 = getFuncExecAddress (setup.address w) ioThread then
        stepNode setup { s with toNode := s.toNode.eraseIdx i } w (.message now (.call m.2))
      else none
  | .node w event => if isCall event then none else stepNode setup s w event

end Step

/-- The start: nothing was asked for. -/
def initial (executors : ι → ℕ) (seed : κ → σ) : State ι κ σ executors where
  nodes _ := {}
  coordinators k := { seed := seed k }
  appCoordMap _ := Dict.empty

/-! ### Routing -/

section Routing

open Demeter.Coordinator (withSession Scheduled exists_funcCallHandler demeterScheduleFunctionCall
  requests_withSession scheduleRequest route RoutedByDemeter
  route_of_not_routedByDemeter)

variable {rand : σ → ℕ × σ} {ioThreadNum : ℕ+} {call : FunctionCall}
  {nodes : Dict Address NodeStatus} {config : DemeterSchedulerConfig} {seed : σ}

/-- The messages of a coordinator ask for the functions of the call. -/
theorem names_funcCallHandler (haddr : ∀ addr ∈ nodes.keys, addr ≠ "")
    {out : Coordinator.Outcome σ}
    (h : funcCallHandler rand ioThreadNum call nodes config seed = some out)
    (hne : out.messages ≠ []) : (out.messages.flatMap fun m => names m.2).Perm (names call) := by
  obtain ⟨out', scheduled, hout, hs, ⟨-, hnil, -⟩ | ⟨hsome, hmsgs, -⟩⟩ :=
    exists_funcCallHandler rand ioThreadNum call nodes config seed
  · obtain rfl := Option.some.inj (h.symm.trans hout)
    exact absurd hnil hne
  · obtain rfl := Option.some.inj (h.symm.trans hout)
    have hperm := ((hs.partitions haddr hsome).perm_flatten).map Prod.fst
    rw [requests_withSession] at hperm
    have hnames : ∀ l : List FunctionCall,
        ((l.map fun m => m.requests.map (·.content)).flatten).map Prod.fst = l.flatMap names := by
      intro l
      rw [List.map_flatten, List.map_map, List.flatMap]
      congr 1
      refine List.map_congr_left fun m _ => ?_
      simp [names, FunctionRequest.content, Function.comp_def]
    have hcall : (call.requests.map (·.content)).map Prod.fst = names call := by
      simp [names, FunctionRequest.content, Function.comp_def]
    have hleft : (out.messages.map Prod.snd).flatMap names =
        ((scheduled.entries.map (·.2.requests.map (·.content))).flatten).map Prod.fst := by
      rw [hmsgs, ← hnames, List.map_map]
      rfl
    rw [hcall, ← hleft, List.flatMap_map] at hperm
    exact hperm

theorem keys_demeterScheduleFunctionCall (source : Address) :
    (demeterScheduleFunctionCall rand call source nodes config seed).2.1.keys = nodes.keys := by
  unfold demeterScheduleFunctionCall
  split_ifs
  · rfl
  · refine Runs.foldl_invariant
      (P := fun st : Coordinator.ScheduleState σ => st.nodes.keys = nodes.keys)
      (fun st req _ hst => ?_) (Runs.along_true _ _) rfl
    unfold scheduleRequest
    simp only
    split_ifs
    · exact hst
    · exact (Dict.keys_mapVals _ _).trans hst

theorem keys_route {routed : Dict Address FunctionCall × Dict Address NodeStatus × σ}
    (h : route rand call nodes config seed = some routed) : routed.2.1.keys = nodes.keys := by
  by_cases hd : RoutedByDemeter rand call nodes config seed
  · unfold route at h
    simp only [hd.1, if_true, ne_eq, hd.2, not_false_eq_true] at h
    obtain rfl := Option.some.inj h
    exact keys_demeterScheduleFunctionCall call.source
  · obtain ⟨seed', hroute⟩ := route_of_not_routedByDemeter hd
    rw [hroute] at h
    split_ifs at h
    · obtain ⟨scheduled, -, rfl⟩ := Option.map_eq_some_iff.1 h
      rfl
    · obtain rfl := Option.some.inj h
      rfl

theorem keys_funcCallHandler {out : Coordinator.Outcome σ}
    (h : funcCallHandler rand ioThreadNum call nodes config seed = some out) :
    out.nodes.keys = nodes.keys := by
  obtain ⟨routed, hrouted, h⟩ := Option.bind_eq_some_iff.1 h
  have hkeys := keys_route hrouted
  split_ifs at h
  · obtain rfl := Option.some.inj h
    exact hkeys
  · obtain rfl := Option.some.inj h
    exact hkeys

end Routing

/-! ### The network -/

/-- The functions of the calls that are on their way. -/
def transitNames {executors : ι → ℕ} (s : State ι κ σ executors) : Multiset String :=
  (s.toCoordinator.flatMap fun m => names m.2 : List String) +
    (s.toNode.flatMap fun m => names m.2 : List String)

/-- The functions of the calls that were refused, or sent without a coordinator. -/
def droppedNames {executors : ι → ℕ} (s : State ι κ σ executors) : Multiset String :=
  (s.refused.flatMap names : List String) + (s.astray.flatMap names : List String)

/-- The functions that a node was asked for. -/
def receivedNames {n : ℕ} (s : Node n) : Multiset String := s.table.functions.map Prod.snd

theorem flatMap_filterMap_cons {α β : Type} (g : α → Option β) (f : β → List String) (a : α)
    (l : List α) :
    ((a :: l).filterMap g).flatMap f = (g a).toList.flatMap f ++ (l.filterMap g).flatMap f := by
  cases h : g a <;> simp [h]

/-- A message to a coordinator goes to the one of its application, or astray. -/
theorem names_routed {n : ℕ} (apps : Dict String κ) (m : Sent n) :
    (((routed apps m).toList.flatMap fun m => names m.2 : List String) : Multiset String) +
        ((unrouted apps m).toList.flatMap names : List String) =
      (Node.Sent.names true m : List String) + (Node.Sent.names false m : List String) := by
  obtain ⟨origin, message⟩ := m
  cases message with
  | executor e msg => rfl
  | coordinator call =>
    cases hget : apps.get? call.appName <;> cases origin <;>
      simp [routed, unrouted, hget, Node.Sent.names, names]

theorem names_filterMap_routed {n : ℕ} (apps : Dict String κ) (sent : List (Sent n)) :
    (((sent.filterMap (routed apps)).flatMap fun m => names m.2 : List String) : Multiset String) +
        ((sent.filterMap (unrouted apps)).flatMap names : List String) =
      (sent.flatMap (Node.Sent.names true) : List String) +
        (sent.flatMap (Node.Sent.names false) : List String) := by
  induction sent with
  | nil => rfl
  | cons m sent ih =>
    rw [flatMap_filterMap_cons, flatMap_filterMap_cons, List.flatMap_cons, List.flatMap_cons,
      ← Multiset.coe_add, ← Multiset.coe_add, ← Multiset.coe_add, ← Multiset.coe_add,
      add_add_add_comm, names_routed, ih, add_add_add_comm]

/-- A call that is taken out of those that are on their way. -/
theorem flatMap_eraseIdx {α : Type} {l : List α} {i : ℕ} {a : α} (h : l[i]? = some a)
    (f : α → List String) :
    ((l.flatMap f : List String) : Multiset String) =
      (f a : List String) + ((l.eraseIdx i).flatMap f : List String) := by
  obtain ⟨hi, rfl⟩ := List.getElem?_eq_some_iff.1 h
  have hperm := (List.getElem_cons_eraseIdx_perm hi).flatMap_right f
  rw [List.flatMap_cons] at hperm
  rw [Multiset.coe_add]
  exact Multiset.coe_eq_coe.2 hperm.symm

/-- One summand of a sum over the nodes is changed. -/
theorem exists_sum_update [Fintype ι] [DecidableEq ι] {M : Type} [AddCommMonoid M] {α : ι → Type}
    (f : ∀ w, α w → M) (g : ∀ w, α w) (w : ι) (x : α w) :
    ∃ rest, ∑ w, f w (g w) = f w (g w) + rest ∧
      ∑ w', f w' (Function.update g w x w') = f w x + rest := by
  refine ⟨∑ w' ∈ Finset.univ.erase w, f w' (g w'), ?_, ?_⟩
  · exact (Finset.add_sum_erase _ (fun w => f w (g w)) (Finset.mem_univ w)).symm
  · rw [← Finset.add_sum_erase _ _ (Finset.mem_univ w), Function.update_self]
    refine congrArg _ (Finset.sum_congr rfl fun w' hw' => ?_)
    rw [Function.update_of_ne (Finset.ne_of_mem_erase hw')]

/-! ### Runs -/

section Runs

variable [Fintype ι] [DecidableEq ι] [DecidableEq κ] {setup : Setup ι σ}
  {s s' : State ι κ σ setup.executors}

/-- The invariant of a cluster.  The nodes are in states of runs of their own, which execute
functions again only if `again` holds; and what was asked for, together with what the nodes have
passed on, is what is on its way, was dropped, or was received by a node. -/
structure Balanced (setup : Setup ι σ) (again : Prop) (s : State ι κ σ setup.executors) : Prop where
  addresses : ∀ k, ∀ addr ∈ (s.coordinators k).nodeStatusMap.keys, addr ≠ ""
  reached : ∀ w, ∃ events, Runs.exec (Node.step (setup.config w) (setup.env w)) {} events =
    some (s.nodes w) ∧ ∀ e ∈ events, e.IsRerun → again
  balance : (s.issued : Multiset String) + ∑ w, (s.nodes w).forwardedNames true =
    transitNames s + droppedNames s + ∑ w, receivedNames (s.nodes w)

/-- The functions of the new messages of a node. -/
theorem forwardedNames_append {n : ℕ} {s s' : Node n} {sent : List (Sent n)}
    (h : s'.sent = s.sent ++ sent) (requested : Bool) :
    s'.forwardedNames requested =
      s.forwardedNames requested + (sent.flatMap (Node.Sent.names requested) : List String) := by
  rw [Node.forwardedNames, Node.forwardedNames, h, List.flatMap_append, ← Multiset.coe_add]

omit [Fintype ι] [DecidableEq κ] in
theorem reached_stepNode {again : Prop} {w : ι} {event : Node.Event (setup.executors w)}
    (hreached : ∀ w, ∃ events, Runs.exec (Node.step (setup.config w) (setup.env w)) {} events =
      some (s.nodes w) ∧ ∀ e ∈ events, e.IsRerun → again)
    (hevent : event.IsRerun → again) (h : stepNode setup s w event = some s') :
    ∀ w, ∃ events, Runs.exec (Node.step (setup.config w) (setup.env w)) {} events =
      some (s'.nodes w) ∧ ∀ e ∈ events, e.IsRerun → again := by
  obtain ⟨x, hx, h⟩ := Option.bind_eq_some_iff.1 h
  obtain rfl := Option.some.inj h
  intro w'
  by_cases hw : w' = w
  · subst hw
    obtain ⟨events, hrun, hagain⟩ := hreached w'
    refine ⟨events ++ [event], ?_, fun e he => ?_⟩
    · rw [Runs.exec_append, hrun, Option.bind_some, Runs.exec, hx]
      show some x = some (Function.update s.nodes w' x w')
      rw [Function.update_self]
    · obtain he | he := List.mem_append.1 he
      · exact hagain e he
      · obtain rfl := List.mem_singleton.1 he
        exact hevent
  · show ∃ events, _ = some (Function.update s.nodes w x w') ∧ _
    rw [Function.update_of_ne hw]
    exact hreached w'

omit [DecidableEq κ] in
/-- A step of a node, which takes the functions of its event out of the network. -/
theorem balance_stepNode {w : ι} {event : Node.Event (setup.executors w)}
    (hreached : ∃ events, Runs.exec (Node.step (setup.config w) (setup.env w)) {} events =
      some (s.nodes w))
    (hbalance : (s.issued : Multiset String) + ∑ w, (s.nodes w).forwardedNames true =
      event.names + transitNames s + droppedNames s + ∑ w, receivedNames (s.nodes w))
    (h : stepNode setup s w event = some s') :
    (s'.issued : Multiset String) + ∑ w, (s'.nodes w).forwardedNames true =
      transitNames s' + droppedNames s' + ∑ w, receivedNames (s'.nodes w) := by
  obtain ⟨x, hx, h⟩ := Option.bind_eq_some_iff.1 h
  obtain ⟨events, hrun⟩ := hreached
  obtain ⟨ids, hadvance⟩ := Node.exists_advance (Node.counted_run hrun) hx
  obtain ⟨sent, hsent⟩ := hadvance.sent
  rw [← hsent, List.drop_left] at h
  obtain rfl := Option.some.inj h
  obtain ⟨restF, hF, hF'⟩ := exists_sum_update
    (fun w (x : Node (setup.executors w)) => x.forwardedNames true) s.nodes w x
  obtain ⟨restR, hR, hR'⟩ := exists_sum_update
    (fun w (x : Node (setup.executors w)) => receivedNames x) s.nodes w x
  have hforwarded := forwardedNames_append hsent.symm true
  have hreceived : receivedNames x = event.names + receivedNames (s.nodes w) := hadvance.functions
  have hrouted := names_filterMap_routed (s.appCoordMap w) sent
  simp only [transitNames, droppedNames, List.flatMap_append, ← Multiset.coe_add] at hbalance ⊢
  rw [hF, hR] at hbalance
  rw [hF', hR', hforwarded, hreceived]
  -- what the node received and what it sent
  have hsum := congrArg₂ (· + ·) hbalance hrouted.symm
  refine Eq.trans ?_ (hsum.trans ?_)
  · abel
  · abel

omit [Fintype ι] [DecidableEq ι] in
/-- A coordinator takes a call, and sends it on or refuses it. -/
theorem balance_handleCall {k : κ} {call : FunctionCall}
    (h : handleCall setup s k call = some s')
    (haddr : ∀ addr ∈ (s.coordinators k).nodeStatusMap.keys, addr ≠ "") :
    transitNames s' + droppedNames s' =
      (names call : List String) + (transitNames s + droppedNames s) := by
  obtain ⟨out, hout, h⟩ := Option.bind_eq_some_iff.1 h
  obtain rfl := Option.some.inj h
  by_cases hnil : out.messages = []
  · simp only [transitNames, droppedNames, hnil, List.append_nil, List.isEmpty_nil, if_true,
      List.flatMap_append, List.flatMap_singleton, ← Multiset.coe_add]
    abel
  · have hmsgs := Multiset.coe_eq_coe.2 (names_funcCallHandler haddr hout hnil)
    have hempty : out.messages.isEmpty = false := by simpa using hnil
    simp only [transitNames, droppedNames, hempty, Bool.false_eq_true, if_false,
      List.flatMap_append, ← Multiset.coe_add, hmsgs]
    abel

omit [DecidableEq κ] in
theorem Balanced.stepNode {again : Prop} {w : ι} {event : Node.Event (setup.executors w)}
    (h : stepNode setup s w event = some s')
    (haddr : ∀ k, ∀ addr ∈ (s.coordinators k).nodeStatusMap.keys, addr ≠ "")
    (hreached : ∀ w, ∃ events, Runs.exec (Node.step (setup.config w) (setup.env w)) {} events =
      some (s.nodes w) ∧ ∀ e ∈ events, e.IsRerun → again)
    (hevent : event.IsRerun → again)
    (hbalance : (s.issued : Multiset String) + ∑ w, (s.nodes w).forwardedNames true =
      event.names + transitNames s + droppedNames s + ∑ w, receivedNames (s.nodes w)) :
    Balanced setup again s' := by
  obtain ⟨events, hrun, -⟩ := hreached w
  refine ⟨?_, reached_stepNode hreached hevent h, balance_stepNode ⟨events, hrun⟩ hbalance h⟩
  obtain ⟨x, -, h⟩ := Option.bind_eq_some_iff.1 h
  obtain rfl := Option.some.inj h
  exact haddr

theorem Balanced.step {again : Prop} (h : Balanced setup again s)
    {e : Event ι κ setup.executors} (he : Proper e) (hagain : IsRerun e → again)
    (hs' : step setup s e = some s') : Balanced setup again s' := by
  have hbalance := h.balance
  cases e with
  | call k call =>
    obtain rfl := Option.some.inj hs'
    refine ⟨h.addresses, h.reached, ?_⟩
    simp only [transitNames, droppedNames, List.flatMap_append, List.flatMap_singleton,
      ← Multiset.coe_add] at hbalance ⊢
    rw [add_right_comm, hbalance]
    abel
  | trigger address call =>
    obtain rfl := Option.some.inj hs'
    refine ⟨h.addresses, h.reached, ?_⟩
    simp only [transitNames, droppedNames, List.flatMap_append, List.flatMap_singleton,
      ← Multiset.coe_add] at hbalance ⊢
    rw [add_right_comm, hbalance]
    abel
  | dropTrigger call =>
    obtain rfl := Option.some.inj hs'
    refine ⟨h.addresses, h.reached, ?_⟩
    simp only [transitNames, droppedNames, List.flatMap_append, List.flatMap_singleton,
      ← Multiset.coe_add] at hbalance ⊢
    rw [add_right_comm, hbalance]
    abel
  | updateStatus k address status =>
    obtain rfl := Option.some.inj hs'
    refine ⟨fun k' addr haddr => ?_, h.reached, hbalance⟩
    simp only [Function.update_apply] at haddr
    split_ifs at haddr
    · obtain rfl | haddr := Dict.mem_keys_set.1 haddr
      · exact he
      · exact h.addresses k addr haddr
    · exact h.addresses k' addr haddr
  | registerApp w appName k =>
    obtain rfl := Option.some.inj hs'
    exact ⟨h.addresses, h.reached, hbalance⟩
  | handle i =>
    obtain ⟨m, hm, hs'⟩ := Option.bind_eq_some_iff.1 hs'
    have hcall := balance_handleCall hs' (h.addresses m.1)
    have htransit : transitNames s = (names m.2 : List String) +
        transitNames { s with toCoordinator := s.toCoordinator.eraseIdx i } := by
      rw [transitNames, flatMap_eraseIdx hm, add_assoc]
      rfl
    obtain ⟨out, hout, hs'⟩ := Option.bind_eq_some_iff.1 hs'
    obtain rfl := Option.some.inj hs'
    refine ⟨fun k' addr haddr => ?_, h.reached, ?_⟩
    · simp only [Function.update_apply] at haddr
      split_ifs at haddr
      · exact h.addresses m.1 addr (keys_funcCallHandler hout ▸ haddr)
      · exact h.addresses k' addr haddr
    · rw [hcall]
      refine hbalance.trans ?_
      rw [htransit, add_assoc _ _ (droppedNames s)]
      rfl
  | deliver i w ioThread now =>
    obtain ⟨m, hm, hs'⟩ := Option.bind_eq_some_iff.1 hs'
    split_ifs at hs'
    have htransit : transitNames s = (names m.2 : List String) +
        transitNames { s with toNode := s.toNode.eraseIdx i } := by
      rw [transitNames, flatMap_eraseIdx hm, add_left_comm]
      rfl
    rw [htransit] at hbalance
    exact Balanced.stepNode hs' h.addresses h.reached (fun hrerun => by cases hrerun) hbalance
  | node w event =>
    rw [Cluster.step] at hs'
    split_ifs at hs' with hcall
    have hnames : event.names = 0 := by
      cases event with
      | message now event =>
        cases event with
        | call call => exact absurd rfl hcall
        | _ => rfl
      | _ => rfl
    exact Balanced.stepNode hs' h.addresses h.reached hagain
      (by rw [hnames, zero_add]; exact hbalance)

/-- **The network loses and duplicates nothing.** -/
theorem balanced_run {again : Prop} {seed : κ → σ} {events : List (Event ι κ setup.executors)}
    (hevents : ∀ e ∈ events, Proper e ∧ (IsRerun e → again))
    (hrun : Runs.exec (step setup) (initial setup.executors seed) events = some s) :
    Balanced setup again s := by
  refine Runs.exec_invariant (P := Balanced setup again)
    (fun s e s' he hs' hs => hs.step he.1 he.2 hs') (Runs.allowed_of_forall hevents _) hrun ?_
  refine ⟨fun k addr haddr => ?_, fun w => ⟨[], rfl, fun e he => by cases he⟩, ?_⟩
  · cases haddr
  · show (0 : Multiset String) + ∑ _w : ι, (0 : Multiset String) =
      0 + 0 + (0 + 0) + ∑ _w : ι, (0 : Multiset String)
    simp

end Runs

/-! ### Two nodes -/

/-- Two nodes with one executor each. -/
def pairSetup : Setup Bool ℕ where
  executors _ := 1
  address w := if w then "10.0.0.12" else "10.0.0.11"
  config w := { ip := if w then "10.0.0.12" else "10.0.0.11" }
  env _ := Node.sampleEnv
  rand seed := (seed, seed + 1)
  ioThreadNum := ⟨1, Nat.one_pos⟩
  demeterConfig := {}

/-- The executor of the first node is not free any more when the call arrives: the node forwards the
call, and the second node starts the function. -/
def pairEvents : List (Event Bool Unit pairSetup.executors) :=
  [.registerApp false "app" (), .updateStatus () "10.0.0.11" { availExecutors := 1 },
    .updateStatus () "10.0.0.12" { availExecutors := 1 }, .call () Node.hintedCall, .handle 0,
    .deliver 0 false 0 0, .node true (.executorStatus ⟨0, Nat.one_pos⟩ .empty), .handle 0,
    .deliver 0 true 0 10]

end Demeter.Cluster
