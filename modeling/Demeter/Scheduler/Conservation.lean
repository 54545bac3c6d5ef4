import Demeter.Scheduler.Hints

/-!
# No requested function is lost or duplicated by a node

A requested function waits for its data, waits in `delay_call_queue`, or has left the node in a
message to an executor or to the coordinator.

* `State.functions` are the functions that the call table has seen, and `Counted` says that their
  ids are those of the requests, each once;
* `Placing` says what scheduling some calls does: nothing is duplicated, and nothing is lost unless
  the node rejects calls;
* `requested_places` is the result about every run: a node that does not reject calls loses no
  requested function, and one that executes none again has each at one place only.
-/

namespace Demeter.Scheduler

open Demeter.Coordinator (FunctionCall)

/-! ### The call table -/

/-- The requested functions, with their ids: those that wait for data, and those that were handed
over. -/
def State.functions (st : State) : Multiset (ℕ × String) :=
  (st.callIdInflightArgsMap.entries.map fun e => (e.1, e.2.funcName) : List (ℕ × String)) +
    (st.handOffs.map fun h => (h.callId, h.funcName) : List (ℕ × String))

section Table

variable (lookups : ℕ → List Bytes) {st : State}

theorem functions_scheduleFuncCall (st : State) (h : HandOff) :
    (scheduleFuncCall lookups st h).functions = (h.callId, h.funcName) ::ₘ st.functions := by
  unfold State.functions
  show _ + (((st.handOffs ++ [h]).map _ : List (ℕ × String)) : Multiset (ℕ × String)) = _
  rw [List.map_append, ← Multiset.coe_add, ← add_assoc, add_comm]
  rfl

theorem functions_scheduleWithKeys (st : State) (c : ℕ) (app : String) (fa : InflightFuncArgs) :
    (scheduleWithKeys lookups st c app fa).functions = (c, fa.funcName) ::ₘ st.functions :=
  functions_scheduleFuncCall lookups _ _

theorem functions_of_store {st' : State} {c : ℕ} {fa : InflightFuncArgs}
    (hc : c ∉ st.callIdInflightArgsMap.keys)
    (hmap : st'.callIdInflightArgsMap = st.callIdInflightArgsMap.set c fa)
    (hoff : st'.handOffs = st.handOffs) : st'.functions = (c, fa.funcName) ::ₘ st.functions := by
  rw [State.functions, State.functions, hmap, hoff, Dict.entries_set_of_notMem hc, List.map_append,
    ← Multiset.coe_add, add_right_comm, add_comm]
  rfl

theorem functions_of_get? {c : ℕ} {fa : InflightFuncArgs}
    (h : st.callIdInflightArgsMap.get? c = some fa) :
    st.functions = (c, fa.funcName) ::ₘ
      State.functions { st with callIdInflightArgsMap := st.callIdInflightArgsMap.erase c } := by
  have hperm := (Dict.perm_cons_erase h).map fun e => (e.1, e.2.funcName)
  rw [State.functions, Multiset.coe_eq_coe.2 hperm, List.map_cons, ← Multiset.cons_coe,
    Multiset.cons_add]
  rfl

/-- A response changes neither the functions nor their ids. -/
theorem functions_respond (key : Bytes) {c : ℕ} (hc : c ∈ st.callIdInflightArgsMap.keys) :
    (respond lookups key st c).functions = st.functions := by
  obtain ⟨fa, hfa⟩ := Dict.mem_keys_iff.1 hc
  rw [functions_of_get? hfa]
  unfold respond
  simp only [hfa, Option.getD_some]
  set fa' := { fa with inflightArgs := fa.inflightArgs.erase key }
  have hget : (st.callIdInflightArgsMap.set c fa').get? c = some fa' := by
    rw [Dict.get?_set, if_pos rfl]
  split_ifs
  · -- the call moves from the stored ones to those that were handed over
    have hmoved := functions_scheduleWithKeys lookups
      { st with
        callIdInflightArgsMap := st.callIdInflightArgsMap.erase c
        funcAppMap := st.funcAppMap.touch fa'.funcName "" } c
      ((st.funcAppMap.get? fa'.funcName).getD "") fa'
    refine Eq.trans ?_ hmoved
    simp only [State.functions, scheduleWithKeys, scheduleFuncCall, Dict.erase_set]
    rfl
  · refine Eq.trans (functions_of_get? hget) ?_
    simp only [Dict.erase_set]
    rfl

theorem functions_handleDataResp (hi : Inv st) (key : Bytes) (size : ℕ) :
    (handleDataResp lookups st key size).functions = st.functions := by
  obtain ⟨-, halong⟩ :=
    responded_foldl lookups (hi.nodup_callIds key) (ready_withLen hi key size)
  have hfold : ((st.callIds key).foldl (respond lookups key) (st.withLen key size)).functions =
      st.functions :=
    Runs.foldl_invariant (P := fun st' => st'.functions = st.functions)
      (fun st' c hc h => (functions_respond lookups key hc).trans h) halong rfl
  unfold handleDataResp
  cases hget : st.keyCallIdMap.get? key with
  | none =>
    simp only [hget]
    rfl
  | some cids =>
    rw [State.callIds, hget, Option.getD_some] at hfold
    simp only [hget]
    exact hfold

theorem functions_handleFunc (hi : Inv st) (call : RecvCall) (f : RecvFunc) :
    (handleFunc lookups call st f).functions = (st.callId, f.funcName) ::ₘ st.functions := by
  unfold handleFunc
  split_ifs with hkey
  · have hq := queried_foldl f.funcArgs (st, newInflight call f)
    obtain ⟨reqs, ids, hst⟩ := hq.eq_state
    have hname : (f.funcArgs.foldl queryArg (st, newInflight call f)).2.funcName = f.funcName := by
      rw [hq.eq_inflight]
      rfl
    simp only [hst]
    split_ifs
    · refine (functions_scheduleWithKeys lookups _ _ _ _).trans ?_
      rw [hname]
      rfl
    · have hfresh := Dict.get?_eq_none_iff.1 hi.get?_callId
      refine Eq.trans (functions_of_store hfresh rfl rfl) ?_
      rw [hname]
  · exact functions_scheduleFuncCall lookups st (plainCall call st f)

/-- The ids of the functions are those of the requests. -/
structure Counted (req : Dict ℕ (Float × ℕ)) (st : State) : Prop where
  inv : Inv st
  nodup : (st.functions.map Prod.fst).Nodup
  mem_iff : ∀ c, c ∈ st.functions.map Prod.fst ↔ c ∈ req.keys

theorem counted_init : Counted Dict.empty {} where
  inv := inv_init
  nodup := Multiset.nodup_zero
  mem_iff _ := Iff.rfl

theorem Inv.lt_of_mem_functions (hi : Inv st) {c : ℕ} (hc : c ∈ st.functions.map Prod.fst) :
    c < st.callId := by
  obtain ⟨⟨c', name⟩, hmem, rfl⟩ := Multiset.mem_map.1 hc
  obtain hmem | hmem := Multiset.mem_add.1 hmem
  · obtain ⟨e, he, heq⟩ := List.mem_map.1 (Multiset.mem_coe.1 hmem)
    obtain rfl := congrArg Prod.fst heq
    exact hi.lt_callId e.1 e.2 (Dict.mem_entries_iff.1 he)
  · obtain ⟨h, hh, heq⟩ := List.mem_map.1 (Multiset.mem_coe.1 hmem)
    obtain rfl := congrArg Prod.fst heq
    exact hi.handOff_lt_callId h hh

theorem Counted.handleFunc {req : Dict ℕ (Float × ℕ)} (h : Counted req st) (call : RecvCall)
    (f : RecvFunc) (hints : Float × ℕ) :
    Counted (req.set st.callId hints) (handleFunc lookups call st f) := by
  have heq := functions_handleFunc lookups h.inv call f
  refine ⟨inv_handleFunc lookups call f h.inv, ?_, fun c => ?_⟩
  · rw [heq, Multiset.map_cons, Multiset.nodup_cons]
    exact ⟨fun hmem => lt_irrefl _ (h.inv.lt_of_mem_functions hmem), h.nodup⟩
  · rw [heq, Multiset.map_cons, Multiset.mem_cons, h.mem_iff, Dict.mem_keys_set]

theorem prefix_respond (key : Bytes) (st : State) (c : ℕ) :
    st.handOffs <+: (respond lookups key st c).handOffs := by
  unfold respond
  simp only
  split_ifs
  · exact List.prefix_append _ _
  · exact List.prefix_refl _

theorem prefix_handleDataResp (st : State) (key : Bytes) (size : ℕ) :
    st.handOffs <+: (handleDataResp lookups st key size).handOffs := by
  unfold handleDataResp
  cases hget : st.keyCallIdMap.get? key with
  | none =>
    simp only [hget]
    exact List.prefix_refl _
  | some cids =>
    simp only [hget]
    exact Runs.foldl_invariant (P := fun st' => st.handOffs <+: st'.handOffs)
      (fun st' c _ h => h.trans (prefix_respond lookups key st' c))
      (Runs.along_true (st.withLen key size) cids) (List.prefix_refl _)

theorem prefix_handleFunc (call : RecvCall) (st : State) (f : RecvFunc) :
    st.handOffs <+: (handleFunc lookups call st f).handOffs := by
  obtain ⟨h, -, -, -, heq⟩ | ⟨reqs, ids, -, -, -, heq⟩ := handleFunc_cases lookups call st f
  · rw [heq]
    exact List.prefix_append _ _
  · rw [heq]

/-- The functions that a message asks for. -/
def namesOf : Event → Multiset String
  | .call call => call.requests.map (·.name)
  | _ => 0

/-- What receiving a message adds to the call table. -/
structure Received (req : Dict ℕ (Float × ℕ)) (st st' : State) (names : Multiset String) :
    Prop where
  counted : Counted req st'
  handOffs : st.handOffs <+: st'.handOffs
  functions : st'.functions.map Prod.snd = names + st.functions.map Prod.snd

theorem Counted.foldl_receiveFunc {req : Dict ℕ (Float × ℕ)} (h : Counted req st) (env : Env)
    (recv : RecvCall) (fs : List RecvFunc) :
    let acc := fs.foldl (Node.receiveFunc env recv) (st, req)
    Received acc.2 st acc.1 (fs.map (·.funcName)) := by
  induction fs generalizing st req with
  | nil => exact ⟨h, List.prefix_refl _, (zero_add _).symm⟩
  | cons f fs ih =>
    obtain ⟨hcounted, hprefix, hfunctions⟩ :=
      ih (h.handleFunc env.lookups recv f (f.cpuCores, f.memoryMb))
    refine ⟨hcounted, (prefix_handleFunc env.lookups recv st f).trans hprefix, ?_⟩
    refine hfunctions.trans ?_
    rw [functions_handleFunc env.lookups h.inv recv f, Multiset.map_cons, List.map_cons,
      ← Multiset.cons_coe, Multiset.cons_add, Multiset.add_cons]

theorem Counted.receive {req : Dict ℕ (Float × ℕ)} (h : Counted req st) (env : Env)
    (event : Event) :
    let acc := Node.receive env (st, req) event
    Received acc.2 st acc.1 (namesOf event) := by
  have hinv := inv_step env.lookups h.inv event
  cases event with
  | call call =>
    have hreceived := h.foldl_receiveFunc env (handleFunctionCall call)
      (handleFunctionCall call).funcs
    have hnames : (handleFunctionCall call).funcs.map (·.funcName) =
        call.requests.map (·.name) := by
      simp [handleFunctionCall, recvFunc, Function.comp_def]
    rw [hnames] at hreceived
    exact hreceived
  | dataResp key size =>
    have heq := functions_handleDataResp env.lookups h.inv key size
    refine ⟨⟨hinv, ?_, fun c => ?_⟩, prefix_handleDataResp env.lookups st key size, ?_⟩
    · exact heq.symm ▸ h.nodup
    · exact heq.symm ▸ h.mem_iff c
    · exact (congrArg _ heq).trans (zero_add _).symm
  | _ => exact ⟨⟨hinv, h.nodup, h.mem_iff⟩, List.prefix_refl _, (zero_add _).symm⟩

theorem Counted.count_add_count {req : Dict ℕ (Float × ℕ)} (h : Counted req st)
    {c : ℕ} (hc : c ∈ req.keys) :
    st.callIdInflightArgsMap.keys.count c + (st.handOffs.map (·.callId)).count c = 1 := by
  have hone := Multiset.count_eq_one_of_mem h.nodup ((h.mem_iff c).2 hc)
  rw [State.functions, Multiset.map_add, Multiset.count_add, Multiset.map_coe, Multiset.map_coe,
    List.map_map, List.map_map, Multiset.coe_count, Multiset.coe_count] at hone
  exact hone

end Table

/-! ### Scheduling calls -/

namespace Node

variable {n : ℕ} {cfg : Config} {env : Env} {s s' s'' : Node n}

/-- The calls of `schedule_func_call` that wait in the delay queue or have left the node, by the
functions that they are for. -/
def placed (s : Node n) : Multiset (Option ℕ) :=
  (s.delayCallQueue.map (·.call.origin) : List (Option ℕ)) +
    (s.sent.map (·.origin) : List (Option ℕ))

/-- What scheduling the calls `l` does. -/
structure Placing (cfg : Config) (l : Multiset (Option ℕ)) (s s' : Node n) : Prop where
  table : ∃ apps, s'.table = { s.table with funcAppMap := apps }
  requested : s'.requested = s.requested
  sent : s.sent <+: s'.sent
  le : s'.placed ≤ l + s.placed
  ge : cfg.rejectExtraReq = false → l + s.placed ≤ s'.placed

theorem Placing.refl (s : Node n) : Placing cfg 0 s s where
  table := ⟨_, rfl⟩
  requested := rfl
  sent := List.prefix_refl _
  le := (zero_add _).ge
  ge _ := (zero_add _).le

theorem Placing.trans {l l' : Multiset (Option ℕ)} (h : Placing cfg l s s')
    (h' : Placing cfg l' s' s'') : Placing cfg (l' + l) s s'' where
  table := by
    obtain ⟨apps, htable⟩ := h.table
    obtain ⟨apps', htable'⟩ := h'.table
    exact ⟨apps', by rw [htable', htable]⟩
  requested := h'.requested.trans h.requested
  sent := h.sent.trans h'.sent
  le := h'.le.trans (by rw [add_assoc]; exact add_le_add_right h.le l')
  ge hr := le_trans (by rw [add_assoc]; exact add_le_add_right (h.ge hr) l') (h'.ge hr)

/-- A step that changes neither the queue nor the messages. -/
theorem Placing.of_eq (htable : ∃ apps, s'.table = { s.table with funcAppMap := apps })
    (hrequested : s'.requested = s.requested) (hqueue : s'.delayCallQueue = s.delayCallQueue)
    (hsent : s'.sent = s.sent) : Placing cfg 0 s s' := by
  have hplaced : s'.placed = s.placed := by rw [placed, placed, hqueue, hsent]
  exact ⟨htable, hrequested, hsent ▸ List.prefix_refl _, by rw [hplaced, zero_add],
    fun _ => by rw [hplaced, zero_add]⟩

/-- A message leaves the node. -/
theorem placed_send (s : Node n) (m : Sent n) :
    placed { s with sent := s.sent ++ [m] } = m.origin ::ₘ s.placed := by
  show _ + (((s.sent ++ [m]).map _ : List (Option ℕ)) : Multiset (Option ℕ)) = _
  rw [List.map_append, ← Multiset.coe_add, ← add_assoc, add_comm]
  rfl

theorem placed_delay (s : Node n) (d : DelayFunctionCall) :
    placed { s with delayCallQueue := s.delayCallQueue ++ [d] } = d.call.origin ::ₘ s.placed := by
  show (((s.delayCallQueue ++ [d]).map _ : List (Option ℕ)) : Multiset (Option ℕ)) + _ = _
  rw [List.map_append, ← Multiset.coe_add, add_right_comm, add_comm]
  rfl

theorem Placing.of_cons {o : Option ℕ}
    (htable : s'.table = s.table) (hrequested : s'.requested = s.requested)
    (hsent : s.sent <+: s'.sent) (hplaced : s'.placed = o ::ₘ s.placed) :
    Placing cfg {o} s s' := by
  rw [← Multiset.singleton_add] at hplaced
  exact ⟨⟨_, htable⟩, hrequested, hsent, hplaced.le, fun _ => hplaced.ge⟩

theorem exists_notifySources (now : ℕ) (s : Node n) (c : ScheduledCall) :
    ∃ triggers queue, notifySources now s c =
      { s with triggers := triggers, rerunCheckQueue := queue } :=
  Runs.foldl_invariant
    (P := fun s' => ∃ triggers queue, s' =
      { s with triggers := triggers, rerunCheckQueue := queue })
    (fun s' rerunMeta _ hs' => by
      obtain ⟨triggers, queue, rfl⟩ := hs'
      exact ⟨_, _, rfl⟩)
    (Runs.along_true s _) ⟨_, _, rfl⟩

theorem placing_dispatch (cfg : Config) (env : Env) (now : ℕ) (s : Node n) (c : ScheduledCall)
    (e : Fin n) : Placing cfg {c.origin} s (s.dispatch env now c e) ∧
      (s.dispatch env now c e).delayCallQueue = s.delayCallQueue := by
  unfold dispatch
  obtain ⟨triggers, queue, heq⟩ := exists_notifySources now _ c
  rw [heq]
  exact ⟨.of_cons rfl rfl (List.prefix_append _ _) (placed_send s _), rfl⟩

theorem exists_of_forward {keyLenMap : Dict Bytes ℕ} {origin : Option ℕ}
    {sessionId appName : String} {funcs : List (String × List Bytes)} {argFlag : ℕ}
    (h : s.forward cfg env keyLenMap origin sessionId appName funcs argFlag = some s') :
    ∃ call : FunctionCall, call.appName = appName ∧
      call.requests.map (·.name) = funcs.map Prod.fst ∧
      s' = { s with sent := s.sent ++ [⟨origin, .coordinator call⟩] } := by
  obtain ⟨call, hcall, hs'⟩ := Option.bind_eq_some_iff.1 h
  have hname : call.appName = appName ∧ call.requests.map (·.name) = funcs.map Prod.fst := by
    unfold forwardCallViaHelper at hcall
    split_ifs at hcall
    · obtain ⟨totals, -, hcall⟩ := Option.bind_eq_some_iff.1 hcall
      split_ifs at hcall
      · obtain rfl := Option.some.inj hcall
        simp [forwardFuncCall, Function.comp_def]
      · obtain rfl := Option.some.inj hcall
        simp [forwardFuncCall, Function.comp_def]
    · obtain rfl := Option.some.inj hcall
      simp [forwardFuncCall, Function.comp_def]
  exact ⟨call, hname.1, hname.2, (Option.some.inj hs').symm⟩

theorem placing_forward {keyLenMap : Dict Bytes ℕ} {origin : Option ℕ} {sessionId appName : String}
    {funcs : List (String × List Bytes)} {argFlag : ℕ}
    (h : s.forward cfg env keyLenMap origin sessionId appName funcs argFlag = some s') :
    Placing cfg {origin} s s' ∧ s'.delayCallQueue = s.delayCallQueue := by
  obtain ⟨call, -, -, rfl⟩ := exists_of_forward h
  exact ⟨.of_cons rfl rfl (List.prefix_append _ _) (placed_send s _), rfl⟩

/-- A call that is not scheduled, although the node does not reject calls, does not exist. -/
theorem Placing.reject (h : cfg.rejectExtraReq) (l : Multiset (Option ℕ)) (s : Node n) :
    Placing cfg l s s where
  table := ⟨_, rfl⟩
  requested := rfl
  sent := List.prefix_refl _
  le := le_add_self
  ge hr := absurd h (by simp [hr])

theorem placing_scheduleFuncCall {now : ℕ} {keyLenMap : Dict Bytes ℕ} {c : ScheduledCall}
    (h : s.scheduleFuncCall cfg env now keyLenMap c = some s') :
    Placing cfg {c.origin} s s' ∧ s.delayCallQueue <+: s'.delayCallQueue := by
  unfold scheduleFuncCall at h
  split at h
  · next e _ =>
    obtain rfl := Option.some.inj h
    obtain ⟨hplacing, hqueue⟩ := placing_dispatch cfg env now s c e
    exact ⟨hplacing, hqueue ▸ List.prefix_refl _⟩
  · split_ifs at h with hpos hreject
    · obtain rfl := Option.some.inj h
      exact ⟨.of_cons rfl rfl (List.prefix_refl _) (placed_delay s _), List.prefix_append _ _⟩
    · obtain rfl := Option.some.inj h
      exact ⟨.reject hreject _ s, List.prefix_refl _⟩
    · obtain ⟨args, -, h⟩ := Option.bind_eq_some_iff.1 h
      obtain ⟨hplacing, hqueue⟩ := placing_forward h
      exact ⟨hplacing, hqueue ▸ List.prefix_refl _⟩

/-- The first call of the queue is scheduled, and popped. -/
theorem placing_pop {now : ℕ} {keyLenMap : Dict Bytes ℕ} {d : DelayFunctionCall}
    {rest : List DelayFunctionCall} (hq : s.delayCallQueue = d :: rest)
    (h : s.scheduleFuncCall cfg env now keyLenMap d.call = some s') :
    Placing cfg 0 s { s' with delayCallQueue := s'.delayCallQueue.tail } := by
  obtain ⟨hplacing, extra, hqueue⟩ := placing_scheduleFuncCall h
  have hpopped : s'.placed =
      d.call.origin ::ₘ placed { s' with delayCallQueue := s'.delayCallQueue.tail } := by
    rw [placed, placed, ← hqueue, hq, List.cons_append, List.map_cons, ← Multiset.cons_coe,
      Multiset.cons_add]
    rfl
  have hle := hplacing.le
  rw [hpopped, Multiset.singleton_add, Multiset.cons_le_cons_iff] at hle
  refine ⟨hplacing.table, hplacing.requested, hplacing.sent, ?_, fun hr => ?_⟩
  · rwa [zero_add]
  · have hge := hplacing.ge hr
    rw [hpopped, Multiset.singleton_add, Multiset.cons_le_cons_iff] at hge
    rwa [zero_add]

theorem placing_delayDispatch {now k : ℕ} (h : s.delayDispatch cfg env now k = some s') :
    Placing cfg 0 s s' := by
  induction k generalizing s with
  | zero =>
    obtain rfl := Option.some.inj h
    exact .refl s
  | succ k ih =>
    cases hq : s.delayCallQueue with
    | nil =>
      simp only [delayDispatch, hq, Option.some.injEq] at h
      exact h ▸ .refl s
    | cons d rest =>
      simp only [delayDispatch, hq] at h
      obtain ⟨mid, hmid, h⟩ := Option.bind_eq_some_iff.1 h
      exact (placing_pop hq hmid).trans (ih h)

/-- A queue with one call more. -/
theorem placed_cons (s : Node n) (d : DelayFunctionCall) (ds : List DelayFunctionCall) :
    placed { s with delayCallQueue := d :: ds } =
      d.call.origin ::ₘ placed { s with delayCallQueue := ds } := by
  show (((d :: ds).map _ : List (Option ℕ)) : Multiset (Option ℕ)) + _ = _
  rw [List.map_cons, ← Multiset.cons_coe, Multiset.cons_add]
  rfl

/-- The loop over the rest of the queue: its calls stay, are forwarded, or are rejected. -/
theorem placing_delayForward {now : ℕ} {queue : List DelayFunctionCall}
    (h : s.delayForward cfg env now queue = some s') :
    Placing cfg 0 { s with delayCallQueue := queue } s' := by
  induction queue generalizing s with
  | nil =>
    obtain rfl := Option.some.inj h
    exact .refl _
  | cons d ds ih =>
    have hcons := placed_cons s d ds
    rw [delayForward] at h
    split_ifs at h with hlate hreject
    · -- the call is dropped
      have hdrop : Placing cfg 0 { s with delayCallQueue := d :: ds }
          { s with delayCallQueue := ds } :=
        ⟨⟨_, rfl⟩, rfl, List.prefix_refl _,
          by rw [hcons, zero_add]; exact Multiset.le_cons_self _ _,
          fun hr => absurd hreject (by simp [hr])⟩
      exact hdrop.trans (ih h)
    · obtain ⟨mid, hmid, h⟩ := Option.bind_eq_some_iff.1 h
      obtain ⟨call, -, -, rfl⟩ := exists_of_forward hmid
      have hsend := placed_send { s with delayCallQueue := ds } ⟨d.call.origin, .coordinator call⟩
      have heq : placed { s with
            sent := s.sent ++ [⟨d.call.origin, .coordinator call⟩], delayCallQueue := ds } =
          placed { s with delayCallQueue := d :: ds } := hsend.trans hcons.symm
      have hforward : Placing cfg 0 { s with delayCallQueue := d :: ds }
          { s with
            sent := s.sent ++ [⟨d.call.origin, .coordinator call⟩], delayCallQueue := ds } :=
        ⟨⟨_, rfl⟩, rfl, List.prefix_append _ _, by rw [heq, zero_add],
          fun _ => by rw [heq, zero_add]⟩
      exact hforward.trans (ih h)
    · obtain rfl := Option.some.inj h
      exact .refl _

/-- The loop over some calls, each of which is scheduled. -/
theorem placing_exec {α : Type} {f : Node n → α → Option (Node n)} {origin : α → Option ℕ}
    (hf : ∀ s a s', f s a = some s' → Placing cfg {origin a} s s') {l : List α}
    (h : Runs.exec f s l = some s') : Placing cfg (l.map origin : List (Option ℕ)) s s' := by
  induction l generalizing s with
  | nil =>
    obtain rfl := Option.some.inj h
    exact .refl s
  | cons a l ih =>
    obtain ⟨mid, hmid, h⟩ := Option.bind_eq_some_iff.1 h
    have hplacing := (hf s a mid hmid).trans (ih h)
    rwa [add_comm, Multiset.singleton_add, Multiset.cons_coe, ← List.map_cons] at hplacing

theorem placing_rerun {now : ℕ} {sessionId : String} {m : TriggerFunctionMetadata}
    (h : s.rerun cfg env now sessionId m = some s') : Placing cfg {m.origin} s s' := by
  obtain ⟨hplacing, -⟩ := placing_scheduleFuncCall h
  obtain ⟨apps, htable⟩ := hplacing.table
  exact ⟨⟨apps, htable⟩, hplacing.requested, hplacing.sent, hplacing.le, hplacing.ge⟩

/-- Some functions are executed again. -/
theorem placing_rerunCheck {now i j : ℕ} (h : s.rerunCheck cfg env now i j = some s') :
    Placing cfg ((s.rerunFuncs i).map (·.origin) : List (Option ℕ)) s s' := by
  obtain ⟨item, -, h⟩ := Option.bind_eq_some_iff.1 h
  obtain ⟨u, -, h⟩ := Option.bind_eq_some_iff.1 h
  obtain ⟨mid, hmid, h⟩ := Option.bind_eq_some_iff.1 h
  obtain ⟨popped, -, h⟩ := Option.bind_eq_some_iff.1 h
  obtain ⟨u', -, h⟩ := Option.bind_eq_some_iff.1 h
  obtain rfl := Option.some.inj h
  obtain ⟨htable, hrequested, hsent, hle, hge⟩ :=
    placing_exec (fun s m s' hs' => placing_rerun hs') hmid
  exact ⟨htable, hrequested, hsent, hle, hge⟩

/-! ### Events -/

/-- The functions that an event asks the node for. -/
def Event.names : Event n → Multiset String
  | .message _ event => namesOf event
  | _ => 0

/-- The event executes functions again. -/
def Event.IsRerun : Event n → Prop
  | .rerunCheck _ _ _ => True
  | _ => False

/-- The functions that were handed to `schedule_func_call`. -/
def handedIds (s : Node n) : Multiset ℕ := (s.table.handOffs.map (·.callId) : List ℕ)

/-- The requested functions that wait in the delay queue or have left the node. -/
def placedIds (s : Node n) : Multiset ℕ := s.placed.filterMap id

/-- What an event does: the functions `ids` are handed over and placed. -/
structure Advance (cfg : Config) (event : Event n) (s s' : Node n) (ids : Multiset ℕ) : Prop where
  counted : Counted s'.requested s'.table
  functions : s'.table.functions.map Prod.snd = event.names + s.table.functions.map Prod.snd
  handOffs : s.table.handOffs <+: s'.table.handOffs
  handed : s'.handedIds = ids + s.handedIds
  sent : s.sent <+: s'.sent
  le : ¬ event.IsRerun → s'.placedIds ≤ ids + s.placedIds
  ge : cfg.rejectExtraReq = false → ids + s.placedIds ≤ s'.placedIds

/-- An event that schedules calls without handing over a requested function. -/
theorem Placing.advance {event : Event n} {l : Multiset (Option ℕ)} (h : Placing cfg l s s')
    (hs : Counted s.requested s.table) (hnames : event.names = 0)
    (hl : ¬ event.IsRerun → l.filterMap id = 0) : Advance cfg event s s' 0 := by
  obtain ⟨apps, htable⟩ := h.table
  refine ⟨?_, ?_, ?_, ?_, h.sent, fun he => ?_, fun hr => ?_⟩
  · rw [htable, h.requested]
    exact ⟨hs.inv.grow le_rfl fun k hk => hk, hs.nodup, hs.mem_iff⟩
  · rw [htable, hnames, zero_add]
    rfl
  · rw [htable]
  · rw [handedIds, handedIds, htable, zero_add]
  · have hle := Multiset.filterMap_le_filterMap id h.le
    rwa [Multiset.filterMap_add, hl he] at hle
  · rw [zero_add]
    exact (Multiset.filterMap_le_filterMap id (le_add_self.trans (h.ge hr)))

theorem advance_of_eq {event : Event n} (hs : Counted s.requested s.table)
    (hnames : event.names = 0) (htable : s'.table = s.table)
    (hrequested : s'.requested = s.requested) (hqueue : s'.delayCallQueue = s.delayCallQueue)
    (hsent : s'.sent = s.sent) : Advance cfg event s s' 0 :=
  (Placing.of_eq ⟨_, htable⟩ hrequested hqueue hsent).advance hs hnames fun _ => rfl

/-- A message is received, and the calls that it hands over are scheduled. -/
theorem advance_message {now : ℕ} {event : Scheduler.Event} (hs : Counted s.requested s.table)
    (h : s.step cfg env (.message now event) = some s') :
    ∃ ids, Advance cfg (.message now event) s s' ids := by
  have hreceived := hs.receive env event
  obtain ⟨added, hadded⟩ := hreceived.handOffs
  have hdrop : s.handedOver env event = added := by
    show List.drop _ (Node.receive env (s.table, s.requested) event).1.handOffs = added
    rw [← hadded, List.drop_left]
  have hplacing : Placing cfg
      ((s.handedOver env event).map fun h => some h.callId : List (Option ℕ))
      (s.received env event) s' :=
    placing_exec (fun s (h : HandOff) s' (hs' : s.scheduleHandOff cfg env now h = some s') =>
      (placing_scheduleFuncCall hs').1) h
  obtain ⟨apps, htable⟩ := hplacing.table
  have hids : Multiset.filterMap id
      ((s.handedOver env event).map fun h => some h.callId : List (Option ℕ)) =
      ((added.map (·.callId) : List ℕ) : Multiset ℕ) := by
    rw [hdrop, Multiset.filterMap_coe, List.filterMap_map]
    simp
  have hplaced : (s.received env event).placed = s.placed := rfl
  refine ⟨(added.map (·.callId) : List ℕ), ?_, ?_, ?_, ?_, hplacing.sent, fun _ => ?_, fun hr => ?_⟩
  · rw [htable, hplacing.requested]
    exact ⟨hreceived.counted.inv.grow le_rfl fun k hk => hk, hreceived.counted.nodup,
      hreceived.counted.mem_iff⟩
  · rw [htable]
    exact hreceived.functions
  · rw [htable]
    exact hreceived.handOffs
  · rw [handedIds, handedIds, htable]
    show (((Node.receive env (s.table, s.requested) event).1.handOffs.map _ : List ℕ) :
      Multiset ℕ) = _
    rw [← hadded, List.map_append, ← Multiset.coe_add, add_comm]
  · have hle := Multiset.filterMap_le_filterMap id hplacing.le
    rwa [Multiset.filterMap_add, hids, hplaced] at hle
  · have hge := Multiset.filterMap_le_filterMap id (hplacing.ge hr)
    rwa [Multiset.filterMap_add, hids, hplaced] at hge

theorem exists_advance {event : Event n} (hs : Counted s.requested s.table)
    (h : s.step cfg env event = some s') : ∃ ids, Advance cfg event s s' ids := by
  have hnone : Multiset.filterMap id ({none} : Multiset (Option ℕ)) = 0 := rfl
  cases event with
  | message now event => exact advance_message hs h
  | invoke now sessionId appName funcName funcArgs argFlag =>
    obtain ⟨hplacing, -⟩ := placing_scheduleFuncCall h
    exact ⟨0, hplacing.advance hs rfl fun _ => hnone⟩
  | forwardBatch sessionId appName funcs argFlag =>
    rw [step] at h
    split_ifs at h
    · obtain rfl := Option.some.inj h
      exact ⟨0, (Placing.refl s).advance hs rfl fun _ => rfl⟩
    · exact ⟨0, (placing_forward h).1.advance hs rfl fun _ => hnone⟩
  | executorStatus e status =>
    obtain rfl := Option.some.inj h
    exact ⟨0, advance_of_eq hs rfl rfl rfl rfl rfl⟩
  | addTrigger trigger hints =>
    obtain rfl := Option.some.inj h
    exact ⟨0, advance_of_eq hs rfl rfl rfl rfl rfl⟩
  | newObject trigger sessionId key =>
    obtain rfl := Option.some.inj h
    exact ⟨0, advance_of_eq hs rfl rfl rfl rfl rfl⟩
  | clear trigger sessionId =>
    obtain rfl := Option.some.inj h
    exact ⟨0, advance_of_eq hs rfl rfl rfl rfl rfl⟩
  | delayDispatch now =>
    exact ⟨0, (placing_delayDispatch h).advance hs rfl fun _ => rfl⟩
  | delayForward now =>
    exact ⟨0, (placing_delayForward h).advance hs rfl fun _ => rfl⟩
  | rerunCheck now i j =>
    exact ⟨0, (placing_rerunCheck h).advance hs rfl fun he => absurd trivial he⟩

/-! ### Runs -/

theorem counted_run {events : List (Event n)}
    (hrun : Runs.exec (step cfg env) {} events = some s) : Counted s.requested s.table :=
  Runs.exec_invariant (P := fun s => Counted s.requested s.table)
    (fun s e s' _ hs' hs => by
      obtain ⟨ids, hadvance⟩ := exists_advance hs hs'
      exact hadvance.counted)
    (Runs.allowed_true _ _) hrun counted_init

/-- A node that does not reject calls places every function that was handed over. -/
theorem handedIds_le_placedIds (hr : cfg.rejectExtraReq = false) {events : List (Event n)}
    (hrun : Runs.exec (step cfg env) {} events = some s) : s.handedIds ≤ s.placedIds := by
  obtain ⟨-, hle⟩ := Runs.exec_invariant
    (P := fun s => Counted s.requested s.table ∧ s.handedIds ≤ s.placedIds)
    (fun s e s' _ hs' hs => by
      obtain ⟨ids, hadvance⟩ := exists_advance hs.1 hs'
      refine ⟨hadvance.counted, ?_⟩
      rw [hadvance.handed]
      exact (add_le_add_right hs.2 ids).trans (hadvance.ge hr))
    (Runs.allowed_true _ _) hrun ⟨counted_init, le_rfl⟩
  exact hle

/-- Without reruns, a function that was handed over is placed at most once. -/
theorem placedIds_le_handedIds {events : List (Event n)} (he : ∀ e ∈ events, ¬ e.IsRerun)
    (hrun : Runs.exec (step cfg env) {} events = some s) : s.placedIds ≤ s.handedIds := by
  obtain ⟨-, hle⟩ := Runs.exec_invariant
    (P := fun s => Counted s.requested s.table ∧ s.placedIds ≤ s.handedIds)
    (fun s e s' he hs' hs => by
      obtain ⟨ids, hadvance⟩ := exists_advance hs.1 hs'
      refine ⟨hadvance.counted, ?_⟩
      rw [hadvance.handed]
      exact (hadvance.le he).trans (add_le_add_right hs.2 ids))
    (Runs.allowed_of_forall he _) hrun ⟨counted_init, le_rfl⟩
  exact hle

/-- The number of places where a requested function is: it waits for data, waits in the delay
queue, or has left the node. -/
def places (s : Node n) (c : ℕ) : ℕ :=
  s.table.callIdInflightArgsMap.keys.count c +
    ((s.delayCallQueue.map (·.call.origin)).count (some c) + (s.sent.map (·.origin)).count (some c))

theorem count_placedIds (s : Node n) (c : ℕ) :
    s.placedIds.count c =
      (s.delayCallQueue.map (·.call.origin)).count (some c) +
        (s.sent.map (·.origin)).count (some c) := by
  rw [placedIds, placed, Multiset.coe_add, Multiset.filterMap_coe, Multiset.coe_count,
    List.count_filterMap, List.countP_append]
  rfl

end Node

end Demeter.Scheduler
