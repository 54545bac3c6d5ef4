import Std.Data.String.ToNat
import Demeter.Coordinator.Routing

/-!
# Split batches

The round-robin loop of `func_call_handler` gives the requests of a batch to the nodes with free
executors, one at a time and in turns.

* `freeNodes` are these nodes, `scanNodes_eq` finds them in the scan of the handler;
* `Turns` is the invariant of the loop: all nodes with free executors have the same load, up to the
  turn that is being made, and the others are full;
* `FairLoads` is what follows for the loads, and `BalancedSplit` for the messages;
* `balancedSplit_iff` says when a batch is distributed in this way: the sum of the free executors is
  an `int`, which must not overflow; `balancedSplit_route` and `totalFree_lt` say when it does not.
-/

namespace Demeter.Coordinator

/-! ### The scan -/

/-- The nodes other than the source that have free executors. -/
def freeNodes (source : Address) (nodes : Dict Address NodeStatus) : List (Address × ℤ) :=
  (nodes.entries.filter fun e => !isSource source e.1 && decide (0 < e.2.availExecutors)).map
    fun e => (e.1, e.2.availExecutors)

/-- The free executors of all nodes but the source. -/
def totalFree (source : Address) (nodes : Dict Address NodeStatus) : ℤ :=
  ((freeNodes source nodes).map Prod.snd).sum

theorem wrapInt_add (x y : ℤ) : wrapInt (wrapInt x + y) = wrapInt (x + y) :=
  Int.bmod_add_bmod

theorem scanNode_of_free {source : Address} (scan : NodeScan) {e : Address × NodeStatus}
    (hsrc : ¬ isSource source e.1) (hpos : 0 < e.2.availExecutors) :
    scanNode source scan e =
      { totalExecutors := wrapInt (scan.totalExecutors + e.2.availExecutors)
        availNodes := scan.availNodes ++ [(e.1, e.2.availExecutors)]
        maxExecutors := max scan.maxExecutors e.2.availExecutors
        nodeWithMaxExecutors :=
          if e.2.availExecutors > scan.maxExecutors then e.1 else scan.nodeWithMaxExecutors } := by
  simp only [scanNode, if_neg hsrc, if_pos hpos]
  split_ifs with hmore
  · rw [max_eq_right (le_of_lt hmore)]
  · rw [max_eq_left (not_lt.1 hmore)]

/-- The source and the nodes without free executors add nothing to the scan. -/
theorem scanNode_of_not_free {source : Address} (scan : NodeScan) {e : Address × NodeStatus}
    (h : ¬ (¬ isSource source e.1 ∧ 0 < e.2.availExecutors)) :
    (scanNode source scan e).availNodes = scan.availNodes ∧
      (scanNode source scan e).totalExecutors = scan.totalExecutors ∧
        ∀ n : ℤ, 0 < n → ((scanNode source scan e).maxExecutors < n ↔ scan.maxExecutors < n) := by
  by_cases hsrc : isSource source e.1
  · have hskip : scanNode source scan e = scan := if_pos hsrc
    rw [hskip]
    exact ⟨rfl, rfl, fun _ _ => Iff.rfl⟩
  · have hpos : ¬ 0 < e.2.availExecutors := fun hpos => h ⟨hsrc, hpos⟩
    simp only [scanNode, if_neg hsrc, if_neg hpos]
    split_ifs with hmore
    · -- the maximum changes only while it is negative
      refine ⟨rfl, rfl, fun n hn => iff_of_true ?_ ?_⟩
      · show e.2.availExecutors < n
        omega
      · omega
    · exact ⟨rfl, rfl, fun _ _ => Iff.rfl⟩

/-- What the scan computes. -/
theorem scanNodes_eq (source : Address) (nodes : Dict Address NodeStatus) :
    (scanNodes source nodes).availNodes = freeNodes source nodes ∧
      (scanNodes source nodes).totalExecutors = wrapInt (totalFree source nodes) ∧
        ∀ n : ℤ, 0 < n →
          ((scanNodes source nodes).maxExecutors < n ↔
            ∀ node ∈ freeNodes source nodes, node.2 < n) := by
  unfold totalFree freeNodes scanNodes
  generalize nodes.entries = l
  induction l using List.reverseRecOn with
  | nil => exact ⟨rfl, rfl, fun n hn => by simpa using hn⟩
  | append_singleton l e ih =>
    obtain ⟨havail, htotal, hmax⟩ := ih
    rw [List.foldl_append, List.foldl_cons, List.foldl_nil, List.filter_append, List.map_append]
    set scan := l.foldl (scanNode source) {}
    by_cases hfree : ¬ isSource source e.1 ∧ 0 < e.2.availExecutors
    · rw [scanNode_of_free scan hfree.1 hfree.2, List.filter_cons_of_pos (by simp [hfree]),
        List.filter_nil, List.map_singleton, List.map_append, List.sum_append, List.map_singleton,
        List.sum_singleton, htotal, wrapInt_add]
      refine ⟨by rw [havail], rfl, fun n hn => ?_⟩
      rw [max_lt_iff, hmax n hn, List.forall_mem_append, List.forall_mem_singleton]
    · obtain ⟨havail', htotal', hmax'⟩ := scanNode_of_not_free scan hfree
      rw [List.filter_cons_of_neg (by simpa using hfree), List.filter_nil, List.map_nil,
        List.append_nil]
      exact ⟨havail'.trans havail, htotal'.trans htotal, fun n hn =>
        (hmax' n hn).trans (hmax n hn)⟩

/-! ### The loop over the requests -/

/-- The nodes that the loop selects, with the executors they have left. -/
def selected : ℕ → ℕ → List (Address × ℤ) → Option (List (Address × ℤ))
  | 0, _, _ => some []
  | n + 1, idx, avail => do
      let idx ← nextFree avail avail.length idx
      let node ← avail[idx]?
      let rest ← selected n ((idx + 1) % avail.length)
        (avail.modify idx fun node => (node.1, node.2 - 1))
      return node :: rest

section Rounds

variable {avail : List (Address × ℤ)}

theorem nextFree_spec {fuel idx k : ℕ} (h : nextFree avail fuel idx = some k) :
    ∃ node, avail[k]? = some node ∧ 0 < node.2 := by
  induction fuel generalizing idx with
  | zero => cases h
  | succ fuel ih =>
    simp only [nextFree, Option.bind_eq_bind, Option.bind_eq_some_iff] at h
    obtain ⟨node, hnode, h⟩ := h
    split_ifs at h with hpos
    · exact ih h
    · cases h
      exact ⟨node, hnode, not_le.1 hpos⟩

/-- The loop selects as many nodes as there are requests, and no exhausted one. -/
theorem exists_selected {n idx : ℕ} {loads loads' : List ℕ}
    (h : assignLoads n idx avail loads = some loads') :
    ∃ nodes, selected n idx avail = some nodes ∧ nodes.length = n ∧ ∀ node ∈ nodes, 0 < node.2 := by
  induction n generalizing idx avail loads with
  | zero => exact ⟨[], rfl, rfl, by simp⟩
  | succ n ih =>
    simp only [assignLoads, Option.bind_eq_bind, Option.bind_eq_some_iff] at h
    obtain ⟨k, hk, h⟩ := h
    obtain ⟨node, hnode, hpos⟩ := nextFree_spec hk
    obtain ⟨nodes, hsel, hlen, hall⟩ := ih h
    refine ⟨node :: nodes, ?_, by rw [List.length_cons, hlen], ?_⟩
    · simp only [selected, hk, hnode, hsel, Option.bind_eq_bind, Option.bind_some, Option.pure_def]
    · exact List.forall_mem_cons.2 ⟨hpos, hall⟩

/-- In the turn after `r` turns, the load of a node at `i` counts its visits, while it has something
left; then the load stays behind. -/
def Visited (r idx i : ℕ) (node : Address × ℤ) (load : ℕ) : Prop :=
  load ≤ r + (if i < idx then 1 else 0) ∧ (0 < node.2 → load = r + if i < idx then 1 else 0)

/-- The nodes before `idx` have been visited `r + 1` times and the others `r` times.  What a node
has left and its load add up to its capacity. -/
structure Turns (capacity avail : List (Address × ℤ)) (loads : List ℕ) (r idx : ℕ) : Prop where
  length_avail : avail.length = capacity.length
  length_loads : loads.length = capacity.length
  split : ∀ (i : ℕ) (node total : Address × ℤ) (load : ℕ), avail[i]? = some node →
    loads[i]? = some load → capacity[i]? = some total → 0 ≤ node.2 ∧ node.2 + load = total.2
  visits : ∀ (i : ℕ) (node : Address × ℤ) (load : ℕ), avail[i]? = some node →
    loads[i]? = some load → Visited r idx i node load

variable {capacity : List (Address × ℤ)} {loads : List ℕ} {r idx : ℕ}

/-- After the visit at `idx` the turn goes on, or the next one begins. -/
theorem exists_turns (hidx : idx < avail.length) (hlen : avail.length = capacity.length)
    (hloads : loads.length = capacity.length)
    (hsplit : ∀ (i : ℕ) (node total : Address × ℤ) (load : ℕ), avail[i]? = some node →
      loads[i]? = some load → capacity[i]? = some total → 0 ≤ node.2 ∧ node.2 + load = total.2)
    (hvisits : ∀ (i : ℕ) (node : Address × ℤ) (load : ℕ), avail[i]? = some node →
      loads[i]? = some load → Visited r (idx + 1) i node load) :
    ∃ r', Turns capacity avail loads r' ((idx + 1) % avail.length) := by
  by_cases hlast : idx + 1 = avail.length
  · refine ⟨r + 1, hlen, hloads, hsplit, fun i node load hnode hload => ?_⟩
    obtain ⟨hi, -⟩ := List.getElem?_eq_some_iff.1 hnode
    have hvisited := hvisits i node load hnode hload
    rw [Visited, if_pos (by omega)] at hvisited
    rw [Visited, hlast, Nat.mod_self, if_neg (Nat.not_lt_zero i)]
    exact hvisited
  · refine ⟨r, hlen, hloads, hsplit, ?_⟩
    rw [Nat.mod_eq_of_lt (by omega)]
    exact hvisits

theorem visited_succ {i : ℕ} (hi : i ≠ idx) (node : Address × ℤ) (load : ℕ) :
    Visited r (idx + 1) i node load ↔ Visited r idx i node load := by
  have hiff : i < idx + 1 ↔ i < idx := by omega
  simp only [Visited, hiff]

/-- The search passes over exhausted nodes only. -/
theorem Turns.nextFree {fuel k : ℕ} (h : Turns capacity avail loads r idx)
    (hk : nextFree avail fuel idx = some k) : ∃ r', Turns capacity avail loads r' k := by
  induction fuel generalizing r idx with
  | zero => cases hk
  | succ fuel ih =>
    simp only [Coordinator.nextFree, Option.bind_eq_bind, Option.bind_eq_some_iff] at hk
    obtain ⟨node, hnode, hk⟩ := hk
    obtain ⟨hidx, -⟩ := List.getElem?_eq_some_iff.1 hnode
    split_ifs at hk with hpos
    · obtain ⟨r', h'⟩ := exists_turns (r := r) hidx h.length_avail h.length_loads h.split
        fun i node' load hnode' hload => by
          have hvisited := h.visits i node' load hnode' hload
          by_cases hi : i = idx
          · subst hi
            rw [hnode, Option.some.injEq] at hnode'
            subst hnode'
            rw [Visited, if_neg (lt_irrefl i)] at hvisited
            exact ⟨by omega, fun hpos' => absurd hpos' (not_lt.2 hpos)⟩
          · exact (visited_succ hi node' load).2 hvisited
      exact ih h' hk
    · cases hk
      exact ⟨r, h⟩

/-- Giving a request to the node of the turn. -/
theorem Turns.give {node : Address × ℤ} (h : Turns capacity avail loads r idx)
    (hnode : avail[idx]? = some node) (hpos : 0 < node.2) :
    ∃ r', Turns capacity (takeOne avail idx) (loads.modify idx (· + 1)) r'
      ((idx + 1) % avail.length) := by
  obtain ⟨hidx, -⟩ := List.getElem?_eq_some_iff.1 hnode
  have hlen : (takeOne avail idx).length = avail.length := by rw [takeOne, List.length_modify]
  rw [← hlen]
  refine exists_turns (r := r) (by omega) (hlen.trans h.length_avail)
    ((List.length_modify ..).trans h.length_loads) ?_ ?_
  · intro i node' total load hnode' hload htotal
    obtain ⟨node₀, hnode₀, rfl⟩ := exists_of_getElem?_modify hnode'
    obtain ⟨load₀, hload₀, rfl⟩ := exists_of_getElem?_modify hload
    have hsplit := h.split i node₀ total load₀ hnode₀ hload₀ htotal
    split_ifs with hi
    · subst hi
      rw [hnode, Option.some.injEq] at hnode₀
      subst hnode₀
      push_cast
      exact ⟨by omega, by omega⟩
    · exact hsplit
  · intro i node' load hnode' hload
    obtain ⟨node₀, hnode₀, rfl⟩ := exists_of_getElem?_modify hnode'
    obtain ⟨load₀, hload₀, rfl⟩ := exists_of_getElem?_modify hload
    have hvisited := h.visits i node₀ load₀ hnode₀ hload₀
    by_cases hi : idx = i
    · -- the node of the turn has been given `r` requests before
      subst hi
      rw [hnode, Option.some.injEq] at hnode₀
      subst hnode₀
      have hload : load₀ = r := by simpa using hvisited.2 hpos
      rw [Visited, if_pos rfl, if_pos (Nat.lt_succ_self idx), hload]
      exact ⟨le_rfl, fun _ => rfl⟩
    · rw [if_neg hi, if_neg hi, visited_succ (Ne.symm hi)]
      exact hvisited

theorem Turns.assignLoads {n : ℕ} {loads' : List ℕ} (h : Turns capacity avail loads r idx)
    (hassign : assignLoads n idx avail loads = some loads') :
    ∃ avail' r' idx', Turns capacity avail' loads' r' idx' := by
  induction n generalizing avail loads r idx with
  | zero =>
    cases hassign
    exact ⟨avail, r, idx, h⟩
  | succ n ih =>
    simp only [Coordinator.assignLoads, Option.bind_eq_bind, Option.bind_eq_some_iff] at hassign
    obtain ⟨k, hk, hassign⟩ := hassign
    obtain ⟨node, hnode, hpos⟩ := nextFree_spec hk
    obtain ⟨r₁, h₁⟩ := h.nextFree hk
    obtain ⟨r₂, h₂⟩ := h₁.give hnode hpos
    exact ih h₂ hassign

/-- Before the first turn. -/
theorem turns_replicate (hcapacity : ∀ node ∈ capacity, 0 < node.2) :
    Turns capacity capacity (List.replicate capacity.length 0) 0 0 where
  length_avail := rfl
  length_loads := List.length_replicate
  split i node total load hnode hload htotal := by
    obtain rfl := List.eq_of_mem_replicate (List.mem_of_getElem? hload)
    rw [hnode, Option.some.injEq] at htotal
    subst htotal
    exact ⟨(hcapacity node (List.mem_of_getElem? hnode)).le, by simp⟩
  visits i node load hnode hload := by
    obtain rfl := List.eq_of_mem_replicate (List.mem_of_getElem? hload)
    exact ⟨Nat.zero_le _, fun _ => by simp⟩

/-- A load stays within the capacity, and is behind another by more than one only if it is the
capacity. -/
theorem Turns.load_le (h : Turns capacity avail loads r idx) {i load : ℕ} {total : Address × ℤ}
    (hload : loads[i]? = some load) (htotal : capacity[i]? = some total) :
    (load : ℤ) ≤ total.2 ∧ ∀ (j : ℕ) (load' : ℕ), loads[j]? = some load' → load + 1 < load' →
      (load : ℤ) = total.2 := by
  have hget : ∀ {j : ℕ} {x : ℕ}, loads[j]? = some x → ∃ node, avail[j]? = some node := by
    intro j x hj
    obtain ⟨hlt, -⟩ := List.getElem?_eq_some_iff.1 hj
    rw [h.length_loads, ← h.length_avail] at hlt
    exact ⟨_, List.getElem?_eq_getElem hlt⟩
  obtain ⟨node, hnode⟩ := hget hload
  obtain ⟨hnonneg, hsum⟩ := h.split i node total load hnode hload htotal
  refine ⟨by omega, fun j load' hload' hlt => ?_⟩
  obtain ⟨node', hnode'⟩ := hget hload'
  have hle := (h.visits j node' load' hnode' hload').1
  have hvisits := (h.visits i node load hnode hload).2
  by_cases hpos : 0 < node.2
  · have := hvisits hpos
    split_ifs at this hle <;> omega
  · omega

end Rounds

/-! ### The loads -/

/-- The loads that the loop ends with: it comes back and has selected no exhausted node; the loads
stay within the capacities, add up to `n`, are behind one another by more than one only at full
capacity, and are zero only at the end. -/
structure FairLoads (free : List (Address × ℤ)) (n : ℕ) (loads : List ℕ) : Prop where
  terminates : assignLoads n 0 free (List.replicate free.length 0) = some loads
  selects : ∃ nodes, selected n 0 free = some nodes ∧ nodes.length = n ∧ ∀ node ∈ nodes, 0 < node.2
  length : loads.length = free.length
  within : ∀ (i load : ℕ) (node : Address × ℤ), loads[i]? = some load → free[i]? = some node →
    (load : ℤ) ≤ node.2
  sum : loads.sum = n
  balanced : ∀ (i j x y : ℕ) (node : Address × ℤ), loads[i]? = some x → loads[j]? = some y →
    free[i]? = some node → x + 1 < y → (x : ℤ) = node.2
  zerosLast : ZerosLast loads

theorem exists_fairLoads {free : List (Address × ℤ)} {n : ℕ} (hpos : ∀ node ∈ free, 0 < node.2)
    (hn : 0 < n) (henough : (n : ℤ) ≤ (free.map Prod.snd).sum) :
    ∃ loads, FairLoads free n loads := by
  obtain ⟨loads, hassign, hlen, hsum, hzeros⟩ :=
    exists_assignLoads (loadInv_replicate hpos hn henough)
  obtain ⟨avail, r, idx, hturns⟩ := (turns_replicate hpos).assignLoads hassign
  refine ⟨loads, hassign, exists_selected hassign, hlen, ?_, ?_, ?_, hzeros⟩
  · intro i load node hload hnode
    exact (hturns.load_le hload hnode).1
  · rw [hsum, List.sum_replicate, smul_zero, zero_add]
  · intro i j x y node hx hy hnode hlt
    exact (hturns.load_le hx hnode).2 j y hy hlt

/-! ### The messages -/

/-- A batch that is distributed fairly: each free node with a load gets the block of its load of
consecutive requests, and no other node gets a message. -/
def BalancedSplit (call : FunctionCall) (nodes : Dict Address NodeStatus)
    (scheduled : Dict Address FunctionCall) : Prop :=
  ∃ (loads : List ℕ) (blocks : List (List FunctionRequest)),
    FairLoads (freeNodes call.source nodes) call.requests.length loads ∧
      blocks.flatten = call.requests ∧ blocks.map List.length = loads ∧
        scheduled.entries =
          ((((freeNodes call.source nodes).map Prod.fst).zip blocks).filter (·.2 ≠ [])).map
            fun e => (e.1, partCall call e.2)

/-- Nodes without a load get no message. -/
theorem filter_zip_append_replicate {α β : Type*} (l : List α)
    {blocks : List (List β)} (hblocks : ∀ block ∈ blocks, block ≠ []) (zeros : ℕ) :
    (l.zip (blocks ++ List.replicate zeros [])).filter (·.2 ≠ []) = l.zip blocks := by
  induction blocks generalizing l with
  | nil =>
    rw [List.nil_append, List.zip_nil_right, List.filter_eq_nil_iff]
    intro e he
    simpa using List.eq_of_mem_replicate (List.of_mem_zip he).2
  | cons block blocks ih =>
    cases l with
    | nil => rfl
    | cons a l =>
      rw [List.cons_append, List.zip_cons_cons, List.zip_cons_cons,
        List.filter_cons_of_pos (by simpa using hblocks block List.mem_cons_self),
        ih l fun b hb => hblocks b (List.mem_cons_of_mem _ hb)]

/-- A fair distribution of some requests has a message. -/
theorem BalancedSplit.entries_ne_nil {call : FunctionCall} {nodes : Dict Address NodeStatus}
    {scheduled : Dict Address FunctionCall} (h : BalancedSplit call nodes scheduled)
    (hreq : call.requests ≠ []) : scheduled.entries ≠ [] := by
  obtain ⟨loads, blocks, hfair, hflat, hblocks, hentries⟩ := h
  have hlen : blocks.length = (freeNodes call.source nodes).length := by
    rw [← hfair.length, ← hblocks, List.length_map]
  have hsnd : (((freeNodes call.source nodes).map Prod.fst).zip blocks).map Prod.snd = blocks :=
    List.map_snd_zip (by rw [List.length_map, hlen])
  intro hnil
  rw [hentries, List.map_eq_nil_iff, List.filter_eq_nil_iff] at hnil
  refine hreq (hflat ▸ List.flatten_eq_nil_iff.2 fun block hblock => ?_)
  rw [← hsnd] at hblock
  obtain ⟨e, he, rfl⟩ := List.mem_map.1 hblock
  simpa using hnil e he

/-- A split batch is distributed fairly. -/
theorem balancedSplit_splitBatch {call : FunctionCall} {nodes : Dict Address NodeStatus}
    (hreq : 0 < call.requests.length)
    (henough : (call.requests.length : ℤ) ≤ totalFree call.source nodes) :
    ∃ scheduled, splitBatch call (scanNodes call.source nodes) = some scheduled ∧
      BalancedSplit call nodes scheduled := by
  have havail := (scanNodes_eq call.source nodes).1
  have hpos := (scanNodes_spec call.source nodes).pos
  have hkeys := nodup_availNodes call.source nodes
  rw [havail] at hpos hkeys
  obtain ⟨loads, hfair⟩ := exists_fairLoads hpos hreq henough
  -- the nodes that are served come first, so the loop over the requests never skips one
  obtain ⟨served, zeros, hloads, hserved⟩ := hfair.zerosLast
  have hlen := hfair.length
  have hsum := hfair.sum
  rw [hloads, List.length_append] at hlen
  rw [hloads, List.sum_append, List.sum_replicate, smul_zero, add_zero] at hsum
  have hserves : ∀ j x, served[j]? = some x → loads[0 + j]? = some x := by
    intro j x hj
    rw [hloads, zero_add, List.getElem?_append_left (List.getElem?_eq_some_iff.1 hj).1, hj]
  have hroom : 0 + served.length ≤ (freeNodes call.source nodes).length := by omega
  obtain ⟨blocks, hflat, hblocks, hfold⟩ :=
    @exists_blocks call loads _ _ hserved 0 .empty _ hserves hroom hsum.symm
  rw [List.drop_zero] at hfold
  have hne : ∀ block ∈ blocks, block ≠ [] := by
    intro block hblock hnil
    have := hserved _ (hblocks ▸ List.mem_map_of_mem (f := List.length) hblock)
    rw [hnil] at this
    exact absurd this (by simp)
  have hfst : ((((freeNodes call.source nodes).map Prod.fst).zip blocks).map Prod.fst).Nodup := by
    rw [List.zip_eq_zip_take_min, List.map_fst_zip (by simp)]
    exact hkeys.sublist (List.take_sublist _ _)
  refine ⟨Dict.ofList ((((freeNodes call.source nodes).map Prod.fst).zip blocks).map
    fun e => (e.1, partCall call e.2)), ?_, loads, blocks ++ List.replicate zeros [], hfair, ?_, ?_,
    ?_⟩
  · rw [splitBatch, havail, hfair.terminates, Option.bind_eq_bind, Option.bind_some, hfold,
      Option.bind_eq_bind, Option.bind_some, Option.pure_def, Dict.ofList, List.foldl_map]
  · rw [List.flatten_append, List.flatten_replicate_nil, List.append_nil, hflat]
  · rw [List.map_append, hblocks, List.map_replicate, List.length_nil, hloads]
  · rw [filter_zip_append_replicate _ hne]
    exact Dict.entries_ofList (by simpa [Function.comp_def] using hfst)

section Handler

variable {σ : Type}

/-- A batch that no single free node can take, but all of them together can, is distributed fairly
if and only if the sum of the free executors does not fall below the number of requests when it is
stored in an `int`. -/
theorem balancedSplit_iff (rand : σ → ℕ × σ) (call : FunctionCall)
    (nodes : Dict Address NodeStatus) (config : DemeterSchedulerConfig) (seed : σ)
    (hd : ¬ RoutedByDemeter rand call nodes config seed) (hreq : 1 < call.requests.length)
    (hnone : ∀ node ∈ freeNodes call.source nodes, node.2 < call.requests.length)
    (henough : call.requests.length ≤ totalFree call.source nodes) :
    (∃ routed, route rand call nodes config seed = some routed ∧
        BalancedSplit call nodes routed.1) ↔
      call.requests.length ≤ wrapInt (totalFree call.source nodes) := by
  obtain ⟨-, htotal, hmax⟩ := scanNodes_eq call.source nodes
  have hlt := (hmax call.requests.length (by omega)).2 hnone
  obtain ⟨seed', hroute⟩ := route_of_not_routedByDemeter hd
  rw [hroute, if_pos hreq, scheduleBatch, if_neg (not_le.2 hlt), htotal]
  constructor
  · rintro ⟨routed, hrouted, hbalanced⟩
    by_contra hfew
    -- an overflow leaves the batch without any message
    rw [if_neg hfew, Option.map_some, Option.some.injEq] at hrouted
    subst hrouted
    exact hbalanced.entries_ne_nil (List.length_pos_iff.1 (by omega)) rfl
  · intro hfits
    obtain ⟨scheduled, hsplit, hbalanced⟩ := balancedSplit_splitBatch (by omega) henough
    rw [if_pos hfits, hsplit]
    exact ⟨_, rfl, hbalanced⟩

/-- **Split batches.**  A batch that no single free node can take, but all of them together can, is
distributed fairly, as long as an `int` can count the free executors. -/
theorem balancedSplit_route (rand : σ → ℕ × σ) (call : FunctionCall)
    (nodes : Dict Address NodeStatus) (config : DemeterSchedulerConfig) (seed : σ)
    (hd : ¬ RoutedByDemeter rand call nodes config seed) (hreq : 1 < call.requests.length)
    (hnone : ∀ node ∈ freeNodes call.source nodes, node.2 < call.requests.length)
    (henough : call.requests.length ≤ totalFree call.source nodes)
    (hcount : totalFree call.source nodes < 2 ^ 31) :
    ∃ routed, route rand call nodes config seed = some routed ∧
      BalancedSplit call nodes routed.1 := by
  have hwrap : wrapInt (totalFree call.source nodes) = totalFree call.source nodes :=
    Int.bmod_eq_of_le (by omega) (by omega)
  exact (balancedSplit_iff rand call nodes config seed hd hreq hnone henough).2 (by rwa [hwrap])

/-- A scheduler numbers its executors with a byte, so that a node has at most 256 of them, and fewer
than `2 ^ 23` such nodes can be counted. -/
theorem totalFree_lt {nodes : Dict Address NodeStatus} (source : Address)
    (h : ∀ status ∈ nodes.values, status.availExecutors ≤ 256)
    (hnodes : nodes.entries.length < 2 ^ 23) : totalFree source nodes < 2 ^ 31 := by
  have hsum := List.sum_le_card_nsmul ((freeNodes source nodes).map Prod.snd) 256 fun x hx => by
    obtain ⟨node, hnode, rfl⟩ := List.mem_map.1 hx
    obtain ⟨e, he, rfl⟩ := List.mem_map.1 hnode
    exact h e.2 (List.mem_map.2 ⟨e, (List.mem_filter.1 he).1, rfl⟩)
  have hlen : ((freeNodes source nodes).map Prod.snd).length ≤ nodes.entries.length := by
    rw [List.length_map, freeNodes, List.length_map]
    exact List.length_filter_le _ _
  rw [nsmul_eq_mul] at hsum
  rw [totalFree]
  omega

end Handler

theorem balancedSplit_sample :
    ∃ routed, route (fun n : ℕ => (n, n + 1)) Sample.call Sample.nodes {} 0 = some routed ∧
      BalancedSplit Sample.call Sample.nodes routed.1 :=
  balancedSplit_route (fun n : ℕ => (n, n + 1)) Sample.call Sample.nodes {} 0
    (fun h => absurd h.1 (by decide)) (by decide) (by decide +kernel) (by decide +kernel)
    (totalFree_lt _ (by decide +kernel) (by decide))

namespace Sample

/-- A number of nodes whose executors are all free. -/
def freshNodes (n : ℕ) : Dict Address NodeStatus :=
  .ofList ((List.range n).map fun i => (Nat.repr i, { availExecutors := 256 }))

theorem freeNodes_freshNodes (n : ℕ) :
    freeNodes "" (freshNodes n) = (List.range n).map fun i => (Nat.repr i, 256) := by
  have hnodup : (((List.range n).map fun i =>
      (Nat.repr i, ({ availExecutors := 256 } : NodeStatus))).map Prod.fst).Nodup := by
    rw [List.map_map]
    exact List.nodup_range.map fun _ _ h => Nat.repr_inj.1 h
  rw [freeNodes, freshNodes, Dict.entries_ofList hnodup, List.filter_eq_self.2, List.map_map]
  · rfl
  · intro e he
    obtain ⟨i, -, rfl⟩ := List.mem_map.1 he
    rfl

theorem totalFree_freshNodes (n : ℕ) : totalFree "" (freshNodes n) = n * 256 := by
  rw [totalFree, freeNodes_freshNodes, List.map_map]
  have hconst : (Prod.snd ∘ fun i => (Nat.repr i, (256 : ℤ))) = fun _ => 256 := rfl
  rw [hconst, List.map_const', List.sum_replicate, List.length_range, nsmul_eq_mul]

/-- A call of 300 requests, more than a single node can take. -/
def largeCall : FunctionCall :=
  { call with requests := List.replicate 300 { name := "map", arguments := [] } }

end Sample

/-- With `2 ^ 23` nodes of 256 free executors their sum wraps around to a negative number, and the
batch is not scheduled although there is room for it. -/
theorem not_balancedSplit_freshNodes :
    ¬ RoutedByDemeter (fun n : ℕ => (n, n + 1)) Sample.largeCall (Sample.freshNodes (2 ^ 23)) {} 0 ∧
      1 < Sample.largeCall.requests.length ∧
      (∀ node ∈ freeNodes Sample.largeCall.source (Sample.freshNodes (2 ^ 23)),
        node.2 < Sample.largeCall.requests.length) ∧
      Sample.largeCall.requests.length ≤
        totalFree Sample.largeCall.source (Sample.freshNodes (2 ^ 23)) ∧
      ¬ ∃ routed, route (fun n : ℕ => (n, n + 1)) Sample.largeCall (Sample.freshNodes (2 ^ 23)) {}
            0 = some routed ∧
          BalancedSplit Sample.largeCall (Sample.freshNodes (2 ^ 23)) routed.1 := by
  have hd : ¬ RoutedByDemeter (fun n : ℕ => (n, n + 1)) Sample.largeCall
      (Sample.freshNodes (2 ^ 23)) {} 0 := fun h => absurd h.1 (by decide)
  have hlen : Sample.largeCall.requests.length = 300 := List.length_replicate
  have hsource : Sample.largeCall.source = "" := rfl
  have hfree : ∀ node ∈ freeNodes "" (Sample.freshNodes (2 ^ 23)), node.2 < (300 : ℕ) := by
    intro node hnode
    rw [Sample.freeNodes_freshNodes] at hnode
    obtain ⟨i, -, rfl⟩ := List.mem_map.1 hnode
    norm_num
  have htotal := Sample.totalFree_freshNodes (2 ^ 23)
  rw [hsource, hlen, htotal]
  refine ⟨hd, by norm_num, hfree, by norm_num, ?_⟩
  rw [balancedSplit_iff _ _ _ _ _ hd (by rw [hlen]; norm_num) (by rwa [hsource, hlen])
    (by rw [hsource, hlen, htotal]; norm_num), hsource, hlen, htotal]
  decide

end Demeter.Coordinator
