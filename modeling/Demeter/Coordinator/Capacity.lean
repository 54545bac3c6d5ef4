import Demeter.Coordinator.SplitBatch
import Demeter.Lib.Best
import Demeter.Lib.FloatOrder
import Demeter.Lib.Slots

/-!
# Capacity accounting of the Demeter scheduler

What the loop of `demeter_schedule_function_call` takes from which node.

* `BestFree` is a node of largest affinity among the free ones, and `bestNode_spec` says that the
  loop finds one;
* `withTaken` is the table after some requests, `snd_demeterScheduleFunctionCall` says that it is
  the table after the call;
* `WithinCapacity` is what holds when there is room for the call: `capacityAccounting`.
-/

namespace Demeter.Coordinator

/-- The affinity by which the nodes are ranked for a request. -/
def nodeScore (addr : Address) (status : NodeStatus) (req : FunctionRequest)
    (config : DemeterSchedulerConfig) : Float :=
  nodeAffinity addr status req (chooseAllocation req config) config

/-! ### The best node -/

/-- The target is a free node other than the source, of largest affinity among these. -/
def BestFree (source : Address) (config : DemeterSchedulerConfig) (nodes : Dict Address NodeStatus)
    (req : FunctionRequest) (target : Address) : Prop :=
  ∃ status, nodes.get? target = some status ∧ isSource source target = false ∧
    0 < status.availExecutors ∧ ∀ addr status', nodes.get? addr = some status' →
      isSource source addr = false → 0 < status'.availExecutors →
        nodeScore addr status' req config ≤ nodeScore target status req config

section Best

variable (source : Address) (config : DemeterSchedulerConfig) (req : FunctionRequest)

/-- The entries that the loop can choose. -/
def choosable (e : Address × NodeStatus) : Bool :=
  !isSource source e.1 && decide (0 < e.2.availExecutors) &&
    decide (negInfinity < nodeScore e.1 e.2 req config)

/-- The place of a node in the order of affinities. -/
def scoreRank (e : Address × NodeStatus) : FloatOrder.Rank :=
  (FloatOrder.rank (nodeScore e.1 e.2 req config)).getD (toLex (0, toLex (0, 0)))

variable {source config req} in
theorem choosable_iff {e : Address × NodeStatus} : choosable source config req e = true ↔
    isSource source e.1 = false ∧ 0 < e.2.availExecutors ∧
      negInfinity < nodeScore e.1 e.2 req config := by
  simp [choosable, and_assoc]

variable {config req} in
/-- Above minus infinity, the comparison of affinities is that of their places. -/
theorem scoreRank_spec {e : Address × NodeStatus}
    (h : negInfinity < nodeScore e.1 e.2 req config) :
    FloatOrder.rank (nodeScore e.1 e.2 req config) = some (scoreRank config req e) := by
  obtain ⟨-, -, y, hy, -⟩ := FloatOrder.lt_iff.1 h
  rw [scoreRank, Option.mem_def.1 hy, Option.getD_some]

/-- A node replaces the best one so far if it can be chosen and has a higher place. -/
theorem nodeScore_lt_iff {b e : Address × NodeStatus} (hb : choosable source config req b = true)
    (hsource : isSource source e.1 = false) (hpos : 0 < e.2.availExecutors) :
    nodeScore b.1 b.2 req config < nodeScore e.1 e.2 req config ↔
      choosable source config req e = true ∧ scoreRank config req b < scoreRank config req e := by
  have hbrank := scoreRank_spec (choosable_iff.1 hb).2.2
  constructor
  · intro h
    have he := FloatOrder.negInf_lt_of_lt h
    obtain ⟨x, hx, y, hy, hxy⟩ := FloatOrder.lt_iff.1 h
    obtain rfl := Option.some.inj (hbrank.symm.trans hx)
    obtain rfl := Option.some.inj ((scoreRank_spec he).symm.trans hy)
    exact ⟨choosable_iff.2 ⟨hsource, hpos, he⟩, hxy⟩
  · rintro ⟨he, hxy⟩
    exact FloatOrder.lt_iff.2 ⟨_, hbrank, _, scoreRank_spec (choosable_iff.1 he).2.2, hxy⟩

variable {source config req} in
theorem nodeScore_le {b e : Address × NodeStatus} (he : choosable source config req e = true)
    (hb : choosable source config req b = true)
    (hle : scoreRank config req e ≤ scoreRank config req b) :
    nodeScore e.1 e.2 req config ≤ nodeScore b.1 b.2 req config :=
  FloatOrder.le_iff.2 ⟨_, scoreRank_spec (choosable_iff.1 he).2.2, _,
    scoreRank_spec (choosable_iff.1 hb).2.2, hle⟩

/-- One round of the loop over the nodes. -/
def keepNode (best : Float × Address) (e : Address × NodeStatus) : Float × Address :=
  if isSource source e.1 ∨ e.2.availExecutors ≤ 0 then best
  else if nodeScore e.1 e.2 req config > best.1 then (nodeScore e.1 e.2 req config, e.1)
  else best

theorem bestNode_eq_keepNode (nodes : Dict Address NodeStatus) :
    bestNode source nodes req config =
      (nodes.entries.foldl (keepNode source config req) (negInfinity, "")).2 :=
  rfl

/-- The loop over the nodes keeps the best entry. -/
theorem foldl_keepNode (l : List (Address × NodeStatus)) :
    l.foldl (keepNode source config req) (negInfinity, "") =
      ((l.foldl (Best.keepBest (choosable source config req) (scoreRank config req)) none).map
        fun b => (nodeScore b.2.1 b.2.2 req config, b.2.1)).getD (negInfinity, "") := by
  induction l using List.reverseRecOn with
  | nil => rfl
  | append_singleton l e ih =>
    rw [List.foldl_append, List.foldl_append, ih]
    simp only [List.foldl_cons, List.foldl_nil]
    by_cases hskip : isSource source e.1 ∨ e.2.availExecutors ≤ 0
    · have hnot : choosable source config req e = false := by
        rw [← Bool.not_eq_true, choosable_iff]
        rintro ⟨hsource, hpos, -⟩
        rcases hskip with hs | hle
        · rw [hsource] at hs
          cases hs
        · exact absurd hpos hle.not_gt
      rw [keepNode, if_pos hskip, Best.keepBest_of_not _ hnot]
    · rw [keepNode, if_neg hskip]
      push Not at hskip
      have hsource : isSource source e.1 = false := Bool.eq_false_iff.2 hskip.1
      -- the best score so far is that of the best choosable node so far
      cases hbest : l.foldl (Best.keepBest (choosable source config req)
        (scoreRank config req)) none with
      | none =>
        by_cases hlt : negInfinity < nodeScore e.1 e.2 req config
        · rw [Best.keepBest_none _ (choosable_iff.2 ⟨hsource, hskip.2, hlt⟩)]
          exact if_pos hlt
        · have hnot : choosable source config req e = false :=
            Bool.eq_false_iff.2 fun h => hlt (choosable_iff.1 h).2.2
          rw [Best.keepBest_of_not _ hnot]
          exact if_neg hlt
      | some b =>
        obtain ⟨-, hb, hkey, -⟩ := Best.foldl_keepBest_eq_some hbest
        have hlt := nodeScore_lt_iff source config req hb hsource hskip.2
        rw [← hkey] at hlt
        cases he : choosable source config req e with
        | true =>
          rw [Best.keepBest_some _ he]
          by_cases hrank : b.1 < scoreRank config req e
          · rw [if_pos hrank]
            exact if_pos (hlt.2 ⟨he, hrank⟩)
          · rw [if_neg hrank]
            exact if_neg fun h => hrank (hlt.1 h).2
        | false =>
          rw [Best.keepBest_of_not _ he]
          exact if_neg fun h => Bool.eq_false_iff.1 he (hlt.1 h).1

variable {source config req}

/-- With a free node whose affinity is above minus infinity, a best one is found. -/
theorem bestNode_spec {nodes : Dict Address NodeStatus}
    (habove : ∀ addr status, nodes.get? addr = some status → isSource source addr = false →
      0 < status.availExecutors → negInfinity < nodeScore addr status req config)
    (hfree : ∃ addr status, nodes.get? addr = some status ∧ isSource source addr = false ∧
      0 < status.availExecutors) :
    BestFree source config nodes req (bestNode source nodes req config) := by
  obtain ⟨addr, status, hget, hsource, hpos⟩ := hfree
  have hsome : ∃ e ∈ nodes.entries, choosable source config req e = true :=
    ⟨(addr, status), Dict.mem_entries_iff.2 hget,
      choosable_iff.2 ⟨hsource, hpos, habove addr status hget hsource hpos⟩⟩
  obtain ⟨best, hbest⟩ := Option.isSome_iff_exists.1 ((Best.isSome_foldl_keepBest
    (choosable source config req) (scoreRank config req)).2 hsome)
  obtain ⟨hmem, hchoosable, hkey, hmax⟩ := Best.foldl_keepBest_eq_some hbest
  obtain ⟨hbsource, hbpos, hbabove⟩ := choosable_iff.1 hchoosable
  have hnode : bestNode source nodes req config = best.2.1 := by
    rw [bestNode_eq_keepNode, foldl_keepNode, hbest, Option.map_some, Option.getD_some]
  rw [hnode]
  refine ⟨best.2.2, Dict.mem_entries_iff.1 hmem, hbsource, hbpos, ?_⟩
  intro addr' status' hget' hs hp
  have hchoosable' : choosable source config req (addr', status') = true :=
    choosable_iff.2 ⟨hs, hp, habove addr' status' hget' hs hp⟩
  have hle := hmax (addr', status') (Dict.mem_entries_iff.2 hget') hchoosable'
  rw [hkey] at hle
  have hscore := nodeScore_le hchoosable' hchoosable hle
  exact hscore

end Best

/-! ### The table -/

/-- The table after some requests: every request has taken an executor, as long as there was one. -/
def withTaken (nodes : Dict Address NodeStatus) (taken : Address → ℕ) : Dict Address NodeStatus :=
  nodes.mapVals fun addr status => { status with
    availExecutors := status.availExecutors - min (taken addr : ℤ) (max status.availExecutors 0) }

theorem withTaken_zero (nodes : Dict Address NodeStatus) :
    withTaken nodes (fun _ => 0) = nodes := by
  unfold withTaken
  rw [← Dict.mapVals_id nodes]
  simp only [Dict.mapVals_mapVals]
  congr 1
  funext addr status
  exact congrArg (fun avail => { status with availExecutors := avail })
    (Slots.left_zero status.availExecutors)

theorem takeExecutor_left (status : NodeStatus) (k : ℕ) :
    takeExecutor { status with availExecutors := Slots.left status.availExecutors k } =
      { status with availExecutors := Slots.left status.availExecutors (k + 1) } := by
  rw [takeExecutor, Slots.left_succ]
  split_ifs <;> rfl

theorem modify_withTaken (nodes : Dict Address NodeStatus) (taken : Address → ℕ)
    (target : Address) : (withTaken nodes taken).modify target takeExecutor =
      withTaken nodes fun addr => if addr = target then taken addr + 1 else taken addr := by
  unfold withTaken Dict.modify
  rw [Dict.mapVals_mapVals]
  congr 1
  funext addr status
  by_cases h : addr = target
  · simp only [if_pos h]
    exact takeExecutor_left status (taken addr)
  · simp only [if_neg h]

/-- The number of requests of a node. -/
def pushed (nodeReqs : Dict Address (List FunctionRequest)) (addr : Address) : ℕ :=
  ((nodeReqs.get? addr).getD []).length

theorem pushed_push (nodeReqs : Dict Address (List FunctionRequest)) (target : Address)
    (req : FunctionRequest) : pushed (nodeReqs.push target req) =
      fun addr => if addr = target then pushed nodeReqs addr + 1 else pushed nodeReqs addr := by
  funext addr
  rw [pushed, Dict.get?_push]
  split_ifs with h
  · rw [h, Option.getD_some, List.length_append, List.length_singleton, pushed]
  · rfl

section Loop

variable {σ : Type} (rand : σ → ℕ × σ) (source : Address) (config : DemeterSchedulerConfig)
  (nodes : Dict Address NodeStatus)

/-- A request takes an executor of its node. -/
theorem nodes_scheduleRequest {st : ScheduleState σ}
    (h : st.nodes = withTaken nodes (pushed st.nodeReqs)) (req : FunctionRequest) :
    (scheduleRequest rand source config st req).nodes =
      withTaken nodes (pushed (scheduleRequest rand source config st req).nodeReqs) := by
  unfold scheduleRequest
  simp only
  split_ifs
  · exact h
  · rw [h, modify_withTaken, pushed_push]

theorem nodes_scheduleRequests (reqs : List FunctionRequest) (seed : σ) :
    (reqs.foldl (scheduleRequest rand source config) ⟨.empty, nodes, seed⟩).nodes =
      withTaken nodes (pushed
        (reqs.foldl (scheduleRequest rand source config) ⟨.empty, nodes, seed⟩).nodeReqs) :=
  List.foldlRecOn (motive := fun st : ScheduleState σ =>
    st.nodes = withTaken nodes (pushed st.nodeReqs)) reqs _ (withTaken_zero nodes).symm
    fun _ hst req _ => nodes_scheduleRequest rand source config nodes hst req

/-- The number of requests in the message for a node. -/
def assigned (scheduled : Dict Address FunctionCall) (addr : Address) : ℕ :=
  ((scheduled.get? addr).map fun call => call.requests.length).getD 0

theorem assigned_mapVals (call : FunctionCall) (nodeReqs : Dict Address (List FunctionRequest)) :
    assigned (nodeReqs.mapVals fun _ reqs => routedCall call config reqs) = pushed nodeReqs := by
  funext addr
  rw [assigned, pushed, Dict.get?_mapVals]
  cases nodeReqs.get? addr with
  | none => rfl
  | some reqs => exact List.length_map _

/-- The table after the call. -/
theorem snd_demeterScheduleFunctionCall (call : FunctionCall) (seed : σ) :
    (demeterScheduleFunctionCall rand call source nodes config seed).2.1 =
      withTaken nodes (assigned
        (demeterScheduleFunctionCall rand call source nodes config seed).1) := by
  unfold demeterScheduleFunctionCall
  split_ifs
  · exact (withTaken_zero nodes).symm
  · rw [assigned_mapVals]
    exact nodes_scheduleRequests rand source config nodes call.requests seed

end Loop

/-! ### Room for the call -/

/-- The requests that the scheduler distributes. -/
def served (config : DemeterSchedulerConfig) (call : FunctionCall) : List FunctionRequest :=
  if config.enabled then call.requests else []

/-- The affinities of the nodes other than the source are above minus infinity, with any number of
their executors free. -/
def AboveNegInfinity (source : Address) (config : DemeterSchedulerConfig)
    (nodes : Dict Address NodeStatus) (reqs : List FunctionRequest) : Prop :=
  ∀ addr status, nodes.get? addr = some status → isSource source addr = false →
    ∀ req ∈ reqs, ∀ avail : ℤ, 0 < avail → avail ≤ status.availExecutors →
      negInfinity < nodeScore addr { status with availExecutors := avail } req config

/-- Every request goes to the best node of those that are free at its turn. -/
def BestFirst (source : Address) (config : DemeterSchedulerConfig) (nodes : Dict Address NodeStatus)
    (reqs : List FunctionRequest) (targets : List Address) : Prop :=
  ∀ k req target, reqs[k]? = some req → targets[k]? = some target →
    BestFree source config (withTaken nodes fun addr => (targets.take k).count addr) req target

/-- No request is assigned to the source, no node gets more requests than it had free executors,
and every request goes to the best node of those that are free at its turn. -/
structure WithinCapacity (source : Address) (config : DemeterSchedulerConfig)
    (nodes : Dict Address NodeStatus) (call : FunctionCall)
    (scheduled : Dict Address FunctionCall) : Prop where
  avoids : ∀ addr ∈ scheduled.keys, isSource source addr = false
  bounded : ∀ addr ∈ scheduled.keys, ∃ status, nodes.get? addr = some status ∧
    assigned scheduled addr ≤ status.availExecutors
  best : ∃ targets : List Address, targets.length = (served config call).length ∧
    (∀ addr, scheduled.get? addr =
      if addr ∈ targets then
        some (routedCall call config (labelled (served config call) targets addr))
      else none) ∧
    BestFirst source config nodes (served config call) targets

section Room

variable {source : Address} {config : DemeterSchedulerConfig} {nodes : Dict Address NodeStatus}

theorem get?_withTaken (taken : Address → ℕ) (addr : Address) :
    (withTaken nodes taken).get? addr = (nodes.get? addr).map fun status =>
      { status with availExecutors := Slots.left status.availExecutors (taken addr) } := by
  rw [withTaken, Dict.get?_mapVals]
  rfl

/-- The free executors of a node. -/
def capacity (nodes : Dict Address NodeStatus) (addr : Address) : ℤ :=
  ((nodes.get? addr).map NodeStatus.availExecutors).getD 0

theorem exists_freeNode {targets : List Address}
    (h : (targets.length : ℤ) < totalFree source nodes) :
    ∃ addr status, (withTaken nodes fun addr => targets.count addr).get? addr = some status ∧
      isSource source addr = false ∧ 0 < status.availExecutors := by
  have hfree : ∀ e ∈ freeNodes source nodes, ∃ status, nodes.get? e.1 = some status ∧
      isSource source e.1 = false ∧ 0 < status.availExecutors ∧ e.2 = status.availExecutors := by
    intro e he
    obtain ⟨⟨addr, status⟩, hmem, rfl⟩ := List.mem_map.1 he
    obtain ⟨hmem, hp⟩ := List.mem_filter.1 hmem
    simp only [Bool.and_eq_true, Bool.not_eq_true', decide_eq_true_eq] at hp
    exact ⟨status, Dict.mem_entries_iff.1 hmem, hp.1, hp.2, rfl⟩
  have hsum : totalFree source nodes =
      (((freeNodes source nodes).map Prod.fst).map
        fun addr => max (capacity nodes addr) 0).sum := by
    rw [totalFree, List.map_map]
    congr 1
    refine List.map_congr_left fun e he => ?_
    obtain ⟨status, hget, -, hpos, heq⟩ := hfree e he
    rw [Function.comp_apply, capacity, hget, Option.map_some, Option.getD_some, heq,
      max_eq_left hpos.le]
  have hnodup : ((freeNodes source nodes).map Prod.fst).Nodup := by
    rw [← (scanNodes_eq source nodes).1]
    exact nodup_availNodes source nodes
  rw [hsum] at h
  obtain ⟨addr, haddr, hpos⟩ := Slots.exists_left_pos hnodup h
  obtain ⟨e, he, rfl⟩ := List.mem_map.1 haddr
  obtain ⟨status, hget, hsource, -, -⟩ := hfree e he
  rw [capacity, hget, Option.map_some, Option.getD_some] at hpos
  exact ⟨e.1, _, by rw [get?_withTaken, hget, Option.map_some], hsource, hpos⟩

/-- The table before the next request has affinities above minus infinity, too. -/
theorem AboveNegInfinity.withTaken {reqs : List FunctionRequest}
    (habove : AboveNegInfinity source config nodes reqs) (taken : Address → ℕ)
    {req : FunctionRequest} (hreq : req ∈ reqs) {addr : Address} {status : NodeStatus}
    (hget : (withTaken nodes taken).get? addr = some status)
    (hsource : isSource source addr = false) (hpos : 0 < status.availExecutors) :
    negInfinity < nodeScore addr status req config := by
  rw [get?_withTaken, Option.map_eq_some_iff] at hget
  obtain ⟨old, hold, rfl⟩ := hget
  exact habove addr old hold hsource req hreq _ hpos (Slots.left_le _ _)

theorem Grouped.pushed_eq {σ : Type} {reqs : List FunctionRequest} {targets : List Address}
    {st : ScheduleState σ} (h : Grouped nodes reqs targets st) :
    pushed st.nodeReqs = fun addr => targets.count addr := by
  funext addr
  rw [pushed]
  cases hget : st.nodeReqs.get? addr with
  | none =>
    rw [Dict.get?_eq_none_iff, h.mem_keys] at hget
    exact (List.count_eq_zero.2 hget).symm
  | some l =>
    rw [Option.getD_some, h.lists hget, length_labelled h.length.symm]

variable {σ : Type} (rand : σ → ℕ × σ)

/-- The best node is chosen, and no random one. -/
theorem chooseNode_of_bestFree {st : ScheduleState σ} (haddr : ∀ addr ∈ st.nodes.keys, addr ≠ "")
    {req : FunctionRequest}
    (h : BestFree source config st.nodes req (bestNode source st.nodes req config)) :
    (chooseNode rand source config st req).1 = bestNode source st.nodes req config := by
  obtain ⟨status, hget, -⟩ := h
  have hne : bestNode source st.nodes req config ≠ "" :=
    haddr _ (Dict.mem_keys_iff.2 ⟨status, hget⟩)
  rw [chooseNode]
  simp only
  rw [if_neg fun h => hne h.1]

theorem BestFirst.concat {reqs : List FunctionRequest} {targets : List Address}
    (h : BestFirst source config nodes reqs targets) (hlength : targets.length = reqs.length)
    {req : FunctionRequest} {target : Address}
    (hbest : BestFree source config (withTaken nodes fun addr => targets.count addr) req target) :
    BestFirst source config nodes (reqs ++ [req]) (targets ++ [target]) := by
  intro k r t hr ht
  rcases lt_or_ge k reqs.length with hk | hk
  · rw [List.getElem?_append_left hk] at hr
    rw [List.getElem?_append_left (hlength ▸ hk)] at ht
    rw [List.take_append_of_le_length (hlength ▸ hk.le)]
    exact h k r t hr ht
  · have hlast : k = reqs.length := by
      have hlt := (List.getElem?_eq_some_iff.1 hr).1
      rw [List.length_append, List.length_singleton] at hlt
      omega
    rw [hlast, List.getElem?_concat_length] at hr
    rw [hlast, ← hlength, List.getElem?_concat_length] at ht
    obtain rfl := Option.some.inj hr
    obtain rfl := Option.some.inj ht
    rw [hlast, ← hlength, List.take_left]
    exact hbest

/-- While there is room, every request goes to the best free node at its turn. -/
theorem exists_targets (haddr : ∀ addr ∈ nodes.keys, addr ≠ "") {reqs : List FunctionRequest}
    (habove : AboveNegInfinity source config nodes reqs)
    (hroom : (reqs.length : ℤ) ≤ totalFree source nodes) (seed : σ) :
    ∃ targets, Grouped nodes reqs targets
        (reqs.foldl (scheduleRequest rand source config) ⟨.empty, nodes, seed⟩) ∧
      BestFirst source config nodes reqs targets := by
  induction reqs using List.reverseRecOn with
  | nil => exact ⟨[], grouped_nil nodes seed, by simp [BestFirst]⟩
  | append_singleton reqs req ih =>
    rw [List.length_append, List.length_singleton] at hroom
    obtain ⟨targets, hgrouped, hbest⟩ := ih
      (fun addr status hget hsource r hr => habove addr status hget hsource r
        (List.mem_append_left _ hr)) (by omega)
    set st := reqs.foldl (scheduleRequest rand source config) ⟨.empty, nodes, seed⟩ with hst
    have hnodes : st.nodes = withTaken nodes fun addr => targets.count addr := by
      rw [hst, nodes_scheduleRequests, ← hst, hgrouped.pushed_eq]
    have hless : (targets.length : ℤ) < totalFree source nodes := by
      rw [hgrouped.length]
      omega
    have hfree := exists_freeNode hless
    -- some node still has a free executor, so the scan finds a best one
    have hbestNode : BestFree source config st.nodes req (bestNode source st.nodes req config) := by
      rw [hnodes]
      exact bestNode_spec (fun addr status hget hsource hpos => habove.withTaken _
        (List.mem_append_right _ (List.mem_singleton_self req)) hget hsource hpos) hfree
    have hchosen := chooseNode_of_bestFree rand (by rw [hgrouped.nodeKeys]; exact haddr) hbestNode
    have hne : nodes.entries ≠ [] := by
      obtain ⟨addr, status, hget, -⟩ := hfree
      rw [get?_withTaken, Option.map_eq_some_iff] at hget
      obtain ⟨old, hold, -⟩ := hget
      exact List.ne_nil_of_mem (Dict.mem_entries_iff.2 hold)
    refine ⟨targets ++ [(chooseNode rand source config st req).1], ?_, ?_⟩
    · rw [List.foldl_append]
      exact hgrouped.scheduleRequest rand hne haddr source config req
    · refine hbest.concat hgrouped.length ?_
      rw [hchosen, ← hnodes]
      exact hbestNode

theorem BestFirst.exists_req {reqs : List FunctionRequest} {targets : List Address}
    (h : BestFirst source config nodes reqs targets) (hlength : targets.length = reqs.length)
    {k : ℕ} {target : Address} (htarget : targets[k]? = some target) :
    ∃ req ∈ reqs, BestFree source config
      (withTaken nodes fun addr => (targets.take k).count addr) req target := by
  have hlt := (List.getElem?_eq_some_iff.1 htarget).1
  rw [hlength] at hlt
  exact ⟨reqs[k], List.getElem_mem hlt, h k _ target (List.getElem?_eq_getElem hlt) htarget⟩

theorem BestFirst.available {reqs : List FunctionRequest} {targets : List Address}
    (h : BestFirst source config nodes reqs targets) (hlength : targets.length = reqs.length) :
    Slots.Available (capacity nodes) targets := by
  intro k target htarget
  obtain ⟨req, -, status, hget, -, hpos, -⟩ := h.exists_req hlength htarget
  rw [get?_withTaken, Option.map_eq_some_iff] at hget
  obtain ⟨old, hold, rfl⟩ := hget
  rwa [capacity, hold, Option.map_some, Option.getD_some]

end Room

section Call

variable {σ : Type} (rand : σ → ℕ × σ) (call : FunctionCall) (source : Address)
  (nodes : Dict Address NodeStatus) (config : DemeterSchedulerConfig) (seed : σ)

/-- The nodes to which the requests of a call go when there is room for it. -/
theorem exists_targets_call (haddr : ∀ addr ∈ nodes.keys, addr ≠ "")
    (habove : AboveNegInfinity source config nodes call.requests)
    (hroom : (call.requests.length : ℤ) ≤ totalFree source nodes) :
    ∃ targets : List Address, targets.length = (served config call).length ∧
      (∀ addr, (demeterScheduleFunctionCall rand call source nodes config seed).1.get? addr =
        if addr ∈ targets then
          some (routedCall call config (labelled (served config call) targets addr))
        else none) ∧
      BestFirst source config nodes (served config call) targets := by
  unfold demeterScheduleFunctionCall
  by_cases hnone : config.enabled = false ∨ nodes.entries = []
  · have hserved : served config call = [] := by
      unfold served
      rcases hnone with henabled | hentries
      · rw [henabled]
        rfl
      · -- without nodes there is room for the empty call only
        have hzero : totalFree source nodes = 0 := by
          rw [totalFree, freeNodes, hentries]
          rfl
        have hlength : call.requests.length = 0 := by omega
        rw [List.length_eq_zero_iff.1 hlength, ite_self]
    rw [if_pos hnone, hserved]
    exact ⟨[], rfl, fun addr => rfl, by simp [BestFirst]⟩
  · have henabled : config.enabled = true := by
      rw [not_or, Bool.not_eq_false] at hnone
      exact hnone.1
    rw [if_neg hnone]
    have hserved : served config call = call.requests := if_pos henabled
    obtain ⟨targets, hgrouped, hbest⟩ := exists_targets rand haddr habove hroom seed
    rw [hserved]
    refine ⟨targets, hgrouped.length, fun addr => ?_, hbest⟩
    simp only [Dict.get?_mapVals]
    split_ifs with hmem
    · obtain ⟨l, hl⟩ := Dict.mem_keys_iff.1 ((hgrouped.mem_keys addr).2 hmem)
      rw [hl, hgrouped.lists hl, Option.map_some]
    · rw [Dict.get?_eq_none_iff.2 fun h => hmem ((hgrouped.mem_keys addr).1 h), Option.map_none]

variable {call config} in
theorem assigned_eq_count {scheduled : Dict Address FunctionCall} {targets : List Address}
    (hlength : targets.length = (served config call).length)
    (h : ∀ addr, scheduled.get? addr =
      if addr ∈ targets then
        some (routedCall call config (labelled (served config call) targets addr))
      else none) (addr : Address) : assigned scheduled addr = targets.count addr := by
  rw [assigned, h]
  split_ifs with hmem
  · rw [Option.map_some, Option.getD_some, ← length_labelled hlength.symm]
    exact List.length_map _
  · exact (List.count_eq_zero.2 hmem).symm

theorem served_subset (config : DemeterSchedulerConfig) (call : FunctionCall) :
    served config call ⊆ call.requests := by
  unfold served
  split_ifs
  · exact List.Subset.refl _
  · exact List.nil_subset _

/-- **Capacity accounting.**  When there is room for a call, and no affinity overflows, every
request goes to the best free node; and in any case the table shows what was taken from it. -/
theorem capacityAccounting :
    (demeterScheduleFunctionCall rand call source nodes config seed).2.1 =
        withTaken nodes (assigned
          (demeterScheduleFunctionCall rand call source nodes config seed).1) ∧
      ((∀ addr ∈ nodes.keys, addr ≠ "") →
        AboveNegInfinity source config nodes call.requests →
        (call.requests.length : ℤ) ≤ totalFree source nodes →
        WithinCapacity source config nodes call
          (demeterScheduleFunctionCall rand call source nodes config seed).1) := by
  refine ⟨snd_demeterScheduleFunctionCall rand source config nodes call seed,
    fun haddr habove hroom => ?_⟩
  obtain ⟨targets, hlength, hscheduled, hbest⟩ :=
    exists_targets_call rand call source nodes config seed haddr habove hroom
  have hmem : ∀ addr ∈ (demeterScheduleFunctionCall rand call source nodes config seed).1.keys,
      addr ∈ targets := by
    intro addr haddr
    obtain ⟨msg, hmsg⟩ := Dict.mem_keys_iff.1 haddr
    rw [hscheduled] at hmsg
    by_contra hnot
    rw [if_neg hnot] at hmsg
    cases hmsg
  refine ⟨fun addr haddr => ?_, fun addr haddr => ?_, targets, hlength, hscheduled, hbest⟩
  · obtain ⟨k, hk⟩ := List.mem_iff_getElem?.1 (hmem addr haddr)
    obtain ⟨req, -, status, -, hsource, -⟩ := hbest.exists_req hlength hk
    exact hsource
  · obtain ⟨k, hk⟩ := List.mem_iff_getElem?.1 (hmem addr haddr)
    obtain ⟨req, -, status, hget, -⟩ := hbest.exists_req hlength hk
    rw [get?_withTaken, Option.map_eq_some_iff] at hget
    obtain ⟨old, hold, -⟩ := hget
    have hcount := (hbest.available hlength).count_le (hmem addr haddr)
    rw [capacity, hold, Option.map_some, Option.getD_some] at hcount
    exact ⟨old, hold, by rwa [assigned_eq_count hlength hscheduled]⟩

end Call

/-! ### A source and a node -/

/-- The weights and the other numbers of the configuration are finite. -/
def FiniteWeights (config : DemeterSchedulerConfig) : Prop :=
  config.memoryLossFactor.isFinite = true ∧
    (∀ alloc ∈ config.allocations, alloc.cpuCores.isFinite = true) ∧
    ∀ profile ∈ config.nodeProfiles.values, profile.warmWeight.isFinite = true ∧
      profile.loadWeight.isFinite = true ∧ profile.localityWeight.isFinite = true

namespace Sample

/-- The source, without a free executor, and a node with two. -/
def sourceAndNode : Dict Address NodeStatus :=
  .ofList [("10.0.0.11", { availExecutors := 0 }), ("10.0.0.12", { availExecutors := 2 })]

/-- The weight is finite, but twice the weight is not. -/
def hugeWeight : DemeterSchedulerConfig where
  enabled := true
  nodeProfiles := .ofList [("10.0.0.12",
    { dc := "east", warmWeight := 0.15, loadWeight := -1e308, localityWeight := 1.0 })]

end Sample

theorem withinCapacity_sourceAndNode :
    WithinCapacity "10.0.0.11" { enabled := true } Sample.sourceAndNode Sample.call
      (demeterScheduleFunctionCall (fun n : ℕ => (n, n + 1)) Sample.call "10.0.0.11"
        Sample.sourceAndNode { enabled := true } 0).1 := by
  refine (capacityAccounting (fun n : ℕ => (n, n + 1)) Sample.call "10.0.0.11"
    Sample.sourceAndNode { enabled := true } 0).2 (by decide +kernel) ?_ (by decide +kernel)
  intro addr status hget hsource req hreq avail hpos hle
  have hmem : (addr, status) ∈ ([("10.0.0.11", { availExecutors := 0 }),
      ("10.0.0.12", { availExecutors := 2 })] : List (Address × NodeStatus)) :=
    Dict.mem_entries_iff.2 hget
  simp only [List.mem_cons, Prod.mk.injEq, List.not_mem_nil, or_false] at hmem
  obtain ⟨rfl, rfl⟩ | ⟨rfl, rfl⟩ := hmem
  · exact absurd hsource (by decide)
  · have hreq' : req = { name := "map", arguments := [] } := by simpa [Sample.call] using hreq
    subst hreq'
    interval_cases avail <;> decide +kernel

/-- The affinity of the node is minus infinity, so that no best node is found, and the node that is
picked at random is the source. -/
theorem not_withinCapacity_hugeWeight :
    FiniteWeights Sample.hugeWeight ∧ (∀ addr ∈ Sample.sourceAndNode.keys, addr ≠ "") ∧
      (Sample.call.requests.length : ℤ) ≤ totalFree "10.0.0.11" Sample.sourceAndNode ∧
      ¬ WithinCapacity "10.0.0.11" Sample.hugeWeight Sample.sourceAndNode Sample.call
        (demeterScheduleFunctionCall (fun n : ℕ => (n, n + 1)) Sample.call "10.0.0.11"
          Sample.sourceAndNode Sample.hugeWeight 0).1 := by
  have hfinite : FiniteWeights Sample.hugeWeight :=
    ⟨by decide +kernel, by simp [Sample.hugeWeight], by decide +kernel⟩
  refine ⟨hfinite, by decide +kernel, by decide +kernel, fun h => ?_⟩
  have hsource := h.avoids "10.0.0.11" (by decide +kernel)
  exact absurd hsource (by decide)

end Demeter.Coordinator
