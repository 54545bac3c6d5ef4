import Demeter.Coordinator.FuncCallHandler

/-!
# Routing of function calls

What `funcCallHandler` does with the requests and with the identity of a call.

* `scanNodes_spec`: the free nodes found by the scan;
* `exists_assignLoads`: the loads of a split batch add up to the number of requests and are zero
  only at the end;
* `splitBatch_spec`: a split batch consists of consecutive blocks of requests;
* `funcCallHandler_conserves`: requests are conserved, on every path;
* `funcCallHandler_identity_iff`: the identity of the call is kept exactly off the split path.
-/

namespace Demeter.Coordinator

/-! ### Machine integers -/

theorem wrapInt_le {x : ℤ} (h : -2 ^ 31 ≤ x) : wrapInt x ≤ x := by
  unfold wrapInt
  by_cases hlt : x < 2 ^ 31
  · rw [Int.bmod_eq_of_le] <;> omega
  · have := Int.bmod_lt (x := x) (m := 2 ^ 32) (by norm_num)
    omega

theorem le_wrapInt (x : ℤ) : -2 ^ 31 ≤ wrapInt x := by
  have := Int.le_bmod (x := x) (m := 2 ^ 32) (by norm_num)
  unfold wrapInt
  omega

/-! ### The scan -/

/-- What the scan has found after the nodes `seen`. -/
structure Scanned (seen : List (Address × NodeStatus)) (scan : NodeScan) : Prop where
  sub : (scan.availNodes.map Prod.fst).Sublist (seen.map Prod.fst)
  pos : ∀ node ∈ scan.availNodes, 0 < node.2
  total_ge : -2 ^ 31 ≤ scan.totalExecutors
  total_le : scan.totalExecutors ≤ (scan.availNodes.map Prod.snd).sum

theorem Scanned.scanNode {seen : List (Address × NodeStatus)} {scan : NodeScan}
    (h : Scanned seen scan) (source : Address) (e : Address × NodeStatus) :
    Scanned (seen ++ [e]) (scanNode source scan e) := by
  have skip : Scanned (seen ++ [e]) scan :=
    ⟨by simpa using h.sub.trans (List.sublist_append_left _ _), h.pos, h.total_ge, h.total_le⟩
  have counted : 0 < e.2.availExecutors → Scanned (seen ++ [e])
      { scan with
        totalExecutors := wrapInt (scan.totalExecutors + e.2.availExecutors)
        availNodes := scan.availNodes ++ [(e.1, e.2.availExecutors)] } := by
    intro hpos
    have hge := h.total_ge
    have hle := h.total_le
    refine ⟨?_, ?_, le_wrapInt _, ?_⟩
    · simpa using h.sub.append (List.Sublist.refl [e.1])
    · intro node hnode
      rcases List.mem_append.1 hnode with hnode | hnode
      · exact h.pos node hnode
      · rw [List.mem_singleton.1 hnode]
        exact hpos
    · refine (wrapInt_le (by omega)).trans ?_
      simpa using hle
  unfold Coordinator.scanNode
  simp only
  split_ifs with hsrc hpos hmax hmax
  · exact skip
  · exact ⟨(counted hpos).sub, (counted hpos).pos, (counted hpos).total_ge, (counted hpos).total_le⟩
  · exact counted hpos
  · exact ⟨skip.sub, skip.pos, skip.total_ge, skip.total_le⟩
  · exact skip

theorem scanNodes_spec (source : Address) (nodes : Dict Address NodeStatus) :
    Scanned nodes.entries (scanNodes source nodes) := by
  unfold scanNodes
  generalize nodes.entries = l
  induction l using List.reverseRecOn with
  | nil => exact ⟨List.Sublist.refl _, by simp, by norm_num, le_rfl⟩
  | append_singleton l e ih =>
    rw [List.foldl_append]
    exact ih.scanNode source e

theorem nodup_availNodes (source : Address) (nodes : Dict Address NodeStatus) :
    ((scanNodes source nodes).availNodes.map Prod.fst).Nodup :=
  nodes.nodup.sublist (scanNodes_spec source nodes).sub

/-! ### The loads of a split batch -/

section Loads

variable {avail : List (Address × ℤ)}

/-- The search finds the free node at distance `d`, or one before it. -/
theorem exists_nextFree {d : ℕ} {fuel idx : ℕ} (hd : d < fuel) (hidx : idx < avail.length)
    (hfree : ∃ node, avail[(idx + d) % avail.length]? = some node ∧ 0 < node.2) :
    ∃ k node, nextFree avail fuel idx = some k ∧ avail[k]? = some node ∧ 0 < node.2 := by
  induction d generalizing fuel idx with
  | zero =>
    obtain ⟨fuel, rfl⟩ : ∃ m, fuel = m + 1 := ⟨fuel - 1, by omega⟩
    obtain ⟨node, hnode, hpos⟩ := hfree
    rw [Nat.add_zero, Nat.mod_eq_of_lt hidx] at hnode
    refine ⟨idx, node, ?_, hnode, hpos⟩
    simp [nextFree, hnode, hpos]
  | succ d ih =>
    obtain ⟨fuel, rfl⟩ : ∃ m, fuel = m + 1 := ⟨fuel - 1, by omega⟩
    have hget := List.getElem?_eq_getElem hidx
    by_cases hpos : 0 < (avail[idx]).2
    · exact ⟨idx, avail[idx], by simp [nextFree, hget, hpos], hget, hpos⟩
    · -- move on by one, around the end if necessary
      have hmod : (idx + 1) % avail.length < avail.length := Nat.mod_lt _ (by omega)
      have hshift : ((idx + 1) % avail.length + d) % avail.length =
          (idx + (d + 1)) % avail.length := by
        rw [Nat.mod_add_mod]
        congr 1
        omega
      obtain ⟨k, node, hk, hrest⟩ := ih (show d < fuel by omega) hmod (by rwa [hshift])
      refine ⟨k, node, ?_, hrest⟩
      simpa [nextFree, hget, not_lt.1 hpos] using hk

theorem nextFree_self {idx : ℕ} {node : Address × ℤ} (h : avail[idx]? = some node)
    (hpos : 0 < node.2) : nextFree avail avail.length idx = some idx := by
  obtain ⟨hlt, -⟩ := List.getElem?_eq_some_iff.1 h
  obtain ⟨m, hm⟩ : ∃ m, avail.length = m + 1 := ⟨avail.length - 1, by omega⟩
  rw [hm]
  simp [nextFree, h, hpos]

/-- If some node is free, the search finds one. -/
theorem exists_nextFree_of_mem {idx : ℕ} (hidx : idx < avail.length) {node : Address × ℤ}
    (hmem : node ∈ avail) (hpos : 0 < node.2) :
    ∃ k node, nextFree avail avail.length idx = some k ∧ avail[k]? = some node ∧ 0 < node.2 := by
  obtain ⟨j, hj⟩ := List.mem_iff_getElem?.1 hmem
  obtain ⟨hlt, -⟩ := List.getElem?_eq_some_iff.1 hj
  refine exists_nextFree (d := (j + avail.length - idx) % avail.length) (Nat.mod_lt _ (by omega))
    hidx ⟨node, ?_, hpos⟩
  rw [Nat.add_mod_mod, show idx + (j + avail.length - idx) = j + avail.length by omega,
    Nat.add_mod_right, Nat.mod_eq_of_lt hlt, hj]

theorem sum_modify_add {M : Type*} [AddCommMonoid M] {l : List M} {i : ℕ} (h : i < l.length)
    (d : M) : (l.modify i (· + d)).sum = l.sum + d := by
  induction l generalizing i with
  | nil => cases h
  | cons a l ih =>
    cases i with
    | zero =>
      rw [List.modify_zero_cons, List.sum_cons, List.sum_cons]
      abel
    | succ i =>
      rw [List.modify_succ_cons, List.sum_cons, List.sum_cons, ih (by simpa using h)]
      abel

/-- While the first turn lasts, the loads are ones up to the next node and zeros from there on;
after it, every node has a load. -/
def FirstTurn (avail : List (Address × ℤ)) (loads : List ℕ) (idx : ℕ) : Prop :=
  (∀ j x, loads[j]? = some x → x = if j < idx then 1 else 0) ∧
    ∀ j node, idx ≤ j → avail[j]? = some node → 0 < node.2

/-- The loads are positive up to some node and zero from there on. -/
def ZerosLast (loads : List ℕ) : Prop :=
  ∃ served zeros, loads = served ++ List.replicate zeros 0 ∧ ∀ x ∈ served, 1 ≤ x

theorem FirstTurn.zerosLast {loads : List ℕ} {idx : ℕ} (h : FirstTurn avail loads idx) :
    ZerosLast loads := by
  refine ⟨loads.take idx, (loads.drop idx).length, ?_, fun x hx => ?_⟩
  · conv_lhs => rw [← List.take_append_drop idx loads]
    congr 1
    rw [List.eq_replicate_iff]
    refine ⟨rfl, fun x hx => ?_⟩
    obtain ⟨j, hj⟩ := List.mem_iff_getElem?.1 hx
    rw [List.getElem?_drop] at hj
    simpa using h.1 _ x hj
  · obtain ⟨j, hj⟩ := List.mem_iff_getElem?.1 hx
    rw [List.getElem?_take] at hj
    split_ifs at hj with hlt
    rw [h.1 j x hj, if_pos hlt]

/-- The state of the loop that gives the requests to the nodes. -/
structure LoadInv (n idx : ℕ) (avail : List (Address × ℤ)) (loads : List ℕ) : Prop where
  idx_lt : idx < avail.length
  length : loads.length = avail.length
  nonneg : ∀ node ∈ avail, 0 ≤ node.2
  enough : (n : ℤ) ≤ (avail.map Prod.snd).sum
  turn : FirstTurn avail loads idx ∨ ∀ x ∈ loads, 1 ≤ x

theorem LoadInv.exists_free {n idx : ℕ} {loads : List ℕ} (h : LoadInv (n + 1) idx avail loads) :
    ∃ node ∈ avail, 0 < node.2 := by
  by_contra hno
  push Not at hno
  have hsum : (avail.map Prod.snd).sum ≤ 0 := by
    have := List.sum_le_card_nsmul (avail.map Prod.snd) 0 fun x hx => by
      obtain ⟨node, hnode, rfl⟩ := List.mem_map.1 hx
      exact hno node hnode
    simpa using this
  have := h.enough
  omega

/-- The node at `k` with one executor less. -/
def takeOne (avail : List (Address × ℤ)) (k : ℕ) : List (Address × ℤ) :=
  avail.modify k fun node => (node.1, node.2 - 1)

theorem exists_of_getElem?_modify {α : Type*} {l : List α} {k j : ℕ} {f : α → α} {x : α}
    (h : (l.modify k f)[j]? = some x) : ∃ y, l[j]? = some y ∧ x = if k = j then f y else y := by
  rw [List.getElem?_modify] at h
  obtain ⟨y, hy, rfl⟩ := Option.map_eq_some_iff.1 h
  exact ⟨y, hy, rfl⟩

theorem exists_of_mem_modify {α : Type*} {l : List α} {k : ℕ} {f : α → α} {x : α}
    (h : x ∈ l.modify k f) : ∃ j y, l[j]? = some y ∧ x = if k = j then f y else y := by
  obtain ⟨j, hj⟩ := List.mem_iff_getElem?.1 h
  exact ⟨j, exists_of_getElem?_modify hj⟩

theorem sum_takeOne {k : ℕ} (hk : k < avail.length) :
    ((takeOne avail k).map Prod.snd).sum = (avail.map Prod.snd).sum - 1 := by
  have hmap : (takeOne avail k).map Prod.snd = (avail.map Prod.snd).modify k (· + -1) := by
    refine List.ext_getElem? fun j => ?_
    rw [takeOne, List.getElem?_map, List.getElem?_modify, List.getElem?_modify, List.getElem?_map]
    cases avail[j]? with
    | none => rfl
    | some y => by_cases hjk : k = j <;> simp [hjk, sub_eq_add_neg]
  rw [hmap, sum_modify_add (by simpa using hk), sub_eq_add_neg]

/-- The first turn goes on to the next node. -/
theorem FirstTurn.give {loads : List ℕ} {k : ℕ} (h : FirstTurn avail loads k) :
    FirstTurn (takeOne avail k) (loads.modify k (· + 1)) (k + 1) := by
  refine ⟨fun j x hj => ?_, fun j x hjk hj => ?_⟩
  · obtain ⟨y, hy, rfl⟩ := exists_of_getElem?_modify hj
    rw [h.1 j y hy]
    by_cases hkj : k = j
    · simp [hkj]
    · have : j < k ↔ j < k + 1 := by omega
      simp [hkj, this]
  · obtain ⟨y, hy, rfl⟩ := exists_of_getElem?_modify hj
    rw [if_neg (by omega)]
    exact h.2 j y (by omega) hy

/-- After the last node of the first turn every node has a load. -/
theorem FirstTurn.give_last {loads : List ℕ} {k : ℕ} (h : FirstTurn avail loads k)
    (hlast : loads.length ≤ k + 1) : ∀ x ∈ loads.modify k (· + 1), 1 ≤ x := by
  intro x hx
  obtain ⟨j, y, hy, rfl⟩ := exists_of_mem_modify hx
  obtain ⟨hj, -⟩ := List.getElem?_eq_some_iff.1 hy
  split_ifs with hkj
  · omega
  · rw [h.1 j y hy, if_pos (by omega)]

/-- One request given to the node at `k` keeps the invariant. -/
theorem LoadInv.give {n idx k : ℕ} {loads : List ℕ} {node : Address × ℤ}
    (h : LoadInv (n + 1) idx avail loads) (hk : avail[k]? = some node) (hpos : 0 < node.2)
    (hfirst : FirstTurn avail loads idx → k = idx) :
    LoadInv n ((k + 1) % avail.length) (takeOne avail k) (loads.modify k (· + 1)) := by
  obtain ⟨hlt, -⟩ := List.getElem?_eq_some_iff.1 hk
  refine ⟨?_, ?_, fun x hx => ?_, ?_, ?_⟩
  · rw [takeOne, List.length_modify]
    exact Nat.mod_lt _ (by omega)
  · rw [takeOne, List.length_modify, List.length_modify, h.length]
  · obtain ⟨j, y, hy, rfl⟩ := exists_of_mem_modify hx
    split_ifs with hjk
    · obtain rfl : node = y := Option.some.inj (hk.symm.trans (hjk ▸ hy))
      show 0 ≤ node.2 - 1
      omega
    · exact h.nonneg y (List.mem_of_getElem? hy)
  · have henough := h.enough
    rw [sum_takeOne hlt]
    push_cast at henough
    omega
  · rcases h.turn with hturn | hall
    · -- in the first turn the nodes are taken in order
      obtain rfl := hfirst hturn
      by_cases hlast : k + 1 = avail.length
      · exact .inr (hturn.give_last (by rw [h.length]; omega))
      · rw [Nat.mod_eq_of_lt (by omega)]
        exact .inl hturn.give
    · right
      intro x hx
      obtain ⟨j, y, hy, rfl⟩ := exists_of_mem_modify hx
      have hy1 := hall y (List.mem_of_getElem? hy)
      split_ifs
      · omega
      · exact hy1

/-- The loads add up to the number of requests and are zero only at the end; the search for a free
node always comes back. -/
theorem exists_assignLoads {n idx : ℕ} {loads : List ℕ} (h : LoadInv n idx avail loads) :
    ∃ loads', assignLoads n idx avail loads = some loads' ∧ loads'.length = avail.length ∧
      loads'.sum = loads.sum + n ∧ ZerosLast loads' := by
  induction n generalizing idx avail loads with
  | zero =>
    refine ⟨loads, rfl, h.length, rfl, ?_⟩
    rcases h.turn with hturn | hall
    · exact hturn.zerosLast
    · exact ⟨loads, 0, by simp, hall⟩
  | succ n ih =>
    obtain ⟨k, node, hnext, hk, hpos, hfirst⟩ : ∃ k node,
        nextFree avail avail.length idx = some k ∧ avail[k]? = some node ∧ 0 < node.2 ∧
          (FirstTurn avail loads idx → k = idx) := by
      by_cases hturn : FirstTurn avail loads idx
      · have hget := List.getElem?_eq_getElem h.idx_lt
        have hpos := hturn.2 idx _ le_rfl hget
        exact ⟨idx, _, nextFree_self hget hpos, hget, hpos, fun _ => rfl⟩
      · obtain ⟨node, hmem, hpos⟩ := h.exists_free
        obtain ⟨k, node, hnext, hk, hpos⟩ := exists_nextFree_of_mem h.idx_lt hmem hpos
        exact ⟨k, node, hnext, hk, hpos, fun ht => absurd ht hturn⟩
    obtain ⟨loads', hassign, hlen, hsum, hzeros⟩ := ih (h.give hk hpos hfirst)
    refine ⟨loads', ?_, by simpa [takeOne] using hlen, ?_, hzeros⟩
    · rw [assignLoads, hnext, Option.bind_eq_bind, Option.bind_some]
      simpa [takeOne] using hassign
    · obtain ⟨hlt, -⟩ := List.getElem?_eq_some_iff.1 hk
      rw [hsum, sum_modify_add (by rw [h.length]; exact hlt)]
      omega

end Loads

/-! ### Cutting a batch -/

section Split

variable {call : FunctionCall} {loads : List ℕ} {availNodes : List (Address × ℤ)}

/-- The rest of a block fills the message of its node, which is then closed. -/
theorem foldlM_splitRequest_block {block : List FunctionRequest} {st : SplitState}
    {node : Address × ℤ} (hnode : availNodes[st.availNodeIndex]? = some node)
    (hload : loads[st.availNodeIndex]? = some (st.requests.length + block.length))
    (hcur : st.curLoad = st.requests.length) (hne : block ≠ []) :
    block.foldlM (splitRequest call loads availNodes) st =
      some { requests := [], curLoad := 0, availNodeIndex := st.availNodeIndex + 1,
             scheduled := st.scheduled.set node.1 (partCall call (st.requests ++ block)) } := by
  induction block generalizing st with
  | nil => exact absurd rfl hne
  | cons req block ih =>
    rw [List.foldlM_cons]
    cases block with
    | nil =>
      simp [splitRequest, hload, hcur, hnode]
    | cons req' block =>
      set st' : SplitState :=
        { st with requests := st.requests ++ [req], curLoad := st.curLoad + 1 } with hst'
      have hstep : splitRequest call loads availNodes st req = some st' := by
        simp [splitRequest, hload, hcur, hst']
      have hnode' : availNodes[st'.availNodeIndex]? = some node := hnode
      have hload' : loads[st'.availNodeIndex]? =
          some (st'.requests.length + (req' :: block).length) := by
        simpa [hst', add_assoc, add_comm 1] using hload
      rw [hstep, Option.bind_eq_bind, Option.bind_some, ih hnode' hload' (by simp [hst', hcur])
        (by simp)]
      simp [hst']

/-- The whole loop: as many blocks as nodes are served, one after the other. -/
theorem exists_blocks {served : List ℕ} (hserved : ∀ x ∈ served, 1 ≤ x) {i : ℕ}
    (scheduled : Dict Address FunctionCall) {reqs : List FunctionRequest}
    (hloads : ∀ j x, served[j]? = some x → loads[i + j]? = some x)
    (hlen : i + served.length ≤ availNodes.length) (hsum : reqs.length = served.sum) :
    ∃ blocks : List (List FunctionRequest), blocks.flatten = reqs ∧
      blocks.map List.length = served ∧
      reqs.foldlM (splitRequest call loads availNodes) ⟨[], 0, i, scheduled⟩ =
        some ⟨[], 0, i + served.length,
          (((availNodes.drop i).map Prod.fst).zip blocks).foldl
            (fun d e => d.set e.1 (partCall call e.2)) scheduled⟩ := by
  induction served generalizing i scheduled reqs with
  | nil =>
    rw [List.sum_nil, List.length_eq_zero_iff] at hsum
    subst hsum
    exact ⟨[], rfl, rfl, by simp⟩
  | cons x served ih =>
    have hx := hserved x List.mem_cons_self
    rw [List.sum_cons] at hsum
    rw [List.length_cons] at hlen
    have hi : i < availNodes.length := by omega
    -- the next `x` requests make up the block of the node at `i`
    have htake : (reqs.take x).length = x := by rw [List.length_take]; omega
    have hne : reqs.take x ≠ [] := by rw [← List.length_pos_iff, htake]; omega
    have hload : loads[i]? = some (0 + (reqs.take x).length) := by
      simpa [htake] using hloads 0 x rfl
    have hblock : (reqs.take x).foldlM (splitRequest call loads availNodes)
        ⟨[], 0, i, scheduled⟩ = some ⟨[], 0, i + 1,
          scheduled.set (availNodes[i]).1 (partCall call (reqs.take x))⟩ :=
      foldlM_splitRequest_block (List.getElem?_eq_getElem hi) hload rfl hne
    have hloads' : ∀ j y, served[j]? = some y → loads[i + 1 + j]? = some y := by
      intro j y hj
      simpa [add_assoc, add_comm 1] using hloads (j + 1) y hj
    have hsum' : (reqs.drop x).length = served.sum := by rw [List.length_drop]; omega
    obtain ⟨blocks, hflat, hblocks, hfold⟩ := ih (fun y hy => hserved y (List.mem_cons_of_mem _ hy))
      (scheduled.set (availNodes[i]).1 (partCall call (reqs.take x))) hloads' (by omega) hsum'
    refine ⟨reqs.take x :: blocks, ?_, by rw [List.map_cons, htake, hblocks], ?_⟩
    · rw [List.flatten_cons, hflat, List.take_append_drop]
    · conv_lhs => rw [← List.take_append_drop x reqs]
      rw [List.foldlM_append, hblock, Option.bind_eq_bind, Option.bind_some, hfold,
        List.drop_eq_getElem_cons hi, List.map_cons, List.zip_cons_cons, List.foldl_cons,
        List.length_cons, add_assoc, add_comm 1]

/-- The loads before the first round. -/
theorem loadInv_replicate {m : ℕ} {nodes : List (Address × ℤ)} (hpos : ∀ node ∈ nodes, 0 < node.2)
    (hm : 0 < m) (henough : (m : ℤ) ≤ (nodes.map Prod.snd).sum) :
    LoadInv m 0 nodes (List.replicate nodes.length 0) := by
  have hne : 0 < nodes.length := by
    rw [List.length_pos_iff]
    rintro rfl
    rw [List.map_nil, List.sum_nil] at henough
    omega
  refine ⟨hne, by simp, fun node hnode => (hpos node hnode).le, henough, Or.inl ⟨?_, ?_⟩⟩
  · intro j x hj
    rw [if_neg (Nat.not_lt_zero j)]
    exact List.eq_of_mem_replicate (List.mem_of_getElem? hj)
  · exact fun j node _ hj => hpos node (List.mem_of_getElem? hj)

/-- A split batch consists of consecutive blocks of the requests, each for another node. -/
theorem splitBatch_spec {scan : NodeScan} (hkeys : (scan.availNodes.map Prod.fst).Nodup)
    (hpos : ∀ node ∈ scan.availNodes, 0 < node.2) (hreq : call.requests ≠ [])
    (henough : (call.requests.length : ℤ) ≤ (scan.availNodes.map Prod.snd).sum) :
    ∃ parts : List (Address × List FunctionRequest), (parts.map Prod.fst).Nodup ∧
      parts.flatMap Prod.snd = call.requests ∧
      ∃ scheduled, splitBatch call scan = some scheduled ∧
        scheduled.entries = parts.map fun e => (e.1, partCall call e.2) := by
  obtain ⟨loads, hassign, hlen, hsum, served, zeros, rfl, hserved⟩ :=
    exists_assignLoads (loadInv_replicate hpos (List.length_pos_iff.2 hreq) henough)
  rw [List.sum_append, List.sum_replicate, List.sum_replicate, smul_zero, smul_zero, add_zero,
    zero_add] at hsum
  rw [List.length_append, List.length_replicate] at hlen
  have hloads : ∀ j x, served[j]? = some x →
      (served ++ List.replicate zeros 0)[0 + j]? = some x := by
    intro j x hj
    rw [zero_add, List.getElem?_append_left (List.getElem?_eq_some_iff.1 hj).1, hj]
  have hroom : 0 + served.length ≤ scan.availNodes.length := by omega
  obtain ⟨blocks, hflat, hblocks, hfold⟩ := exists_blocks hserved .empty hloads hroom hsum.symm
  have hblen : blocks.length = served.length := by rw [← hblocks, List.length_map]
  rw [List.drop_zero] at hfold
  have hsnd : ((scan.availNodes.map Prod.fst).zip blocks).map Prod.snd = blocks :=
    List.map_snd_zip (by rw [List.length_map]; omega)
  have hfst : (((scan.availNodes.map Prod.fst).zip blocks).map Prod.fst).Nodup := by
    rw [List.zip_eq_zip_take_min, List.map_fst_zip (by simp)]
    exact hkeys.sublist (List.take_sublist _ _)
  refine ⟨(scan.availNodes.map Prod.fst).zip blocks, hfst, ?_, _, ?_, Dict.entries_ofList ?_⟩
  · rw [← hflat, List.flatMap_def, hsnd]
  · rw [splitBatch, hassign, Option.bind_eq_bind, Option.bind_some]
    rw [hfold, Option.bind_eq_bind, Option.bind_some, Option.pure_def, Dict.ofList, List.foldl_map]
  · simpa [Function.comp_def] using hfst

end Split

/-! ### The paths of the handler -/

variable {σ : Type} (rand : σ → ℕ × σ)

/-- The Demeter scheduler finds nodes for the call. -/
def RoutedByDemeter (call : FunctionCall) (nodes : Dict Address NodeStatus)
    (config : DemeterSchedulerConfig) (seed : σ) : Prop :=
  config.enabled = true ∧
    (demeterScheduleFunctionCall rand call call.source nodes config seed).1.entries ≠ []

/-- The call is split: several requests, no node with enough free executors for all of them, but
enough free executors on all nodes together. -/
def SplitsBatch (call : FunctionCall) (nodes : Dict Address NodeStatus)
    (config : DemeterSchedulerConfig) (seed : σ) : Prop :=
  ¬ RoutedByDemeter rand call nodes config seed ∧ 1 < call.requests.length ∧
    (scanNodes call.source nodes).maxExecutors < call.requests.length ∧
    call.requests.length ≤ (scanNodes call.source nodes).totalExecutors

/-- What a path of the handler schedules. -/
inductive Scheduled (call : FunctionCall) (nodes : Dict Address NodeStatus)
    (config : DemeterSchedulerConfig) (seed : σ) (scheduled : Dict Address FunctionCall) : Prop
  | demeter (h : RoutedByDemeter rand call nodes config seed)
      (he : scheduled = (demeterScheduleFunctionCall rand call call.source nodes config seed).1)
  | nothing (h : ¬ SplitsBatch rand call nodes config seed) (he : scheduled.entries = [])
  | whole (h : ¬ SplitsBatch rand call nodes config seed) (addr : Address)
      (he : scheduled.entries = [(addr, call)])
  | split (h : SplitsBatch rand call nodes config seed)
      (parts : List (Address × List FunctionRequest)) (hkeys : (parts.map Prod.fst).Nodup)
      (hflat : parts.flatMap Prod.snd = call.requests)
      (he : scheduled.entries = parts.map fun e => (e.1, partCall call e.2))

variable {rand}

theorem entries_empty_set (addr : Address) (call : FunctionCall) :
    (Dict.empty.set addr call).entries = [(addr, call)] := by
  rw [Dict.entries_set_of_notMem (by simp [Dict.keys, Dict.empty])]
  rfl

theorem exists_scheduleBatch {call : FunctionCall} {nodes : Dict Address NodeStatus}
    {config : DemeterSchedulerConfig} {seed : σ}
    (hd : ¬ RoutedByDemeter rand call nodes config seed) (hreq : 1 < call.requests.length) :
    ∃ scheduled, scheduleBatch call nodes = some scheduled ∧
      Scheduled rand call nodes config seed scheduled := by
  unfold scheduleBatch
  simp only
  split_ifs with hmax htotal
  · exact ⟨_, rfl, .whole (fun h => by have := h.2.2.1; omega) _ (entries_empty_set _ _)⟩
  · have hscan := scanNodes_spec call.source nodes
    have hne : call.requests ≠ [] := List.length_pos_iff.1 (by omega)
    obtain ⟨parts, hkeys, hflat, scheduled, hsplit, hentries⟩ :=
      splitBatch_spec (nodup_availNodes call.source nodes) hscan.pos hne
        (htotal.le.trans hscan.total_le)
    exact ⟨scheduled, hsplit, .split ⟨hd, hreq, not_le.1 hmax, htotal⟩ parts hkeys hflat hentries⟩
  · exact ⟨_, rfl, .nothing (fun h => htotal h.2.2.2) rfl⟩

theorem scheduled_scheduleSingle {call : FunctionCall} {nodes : Dict Address NodeStatus}
    {config : DemeterSchedulerConfig} {seed : σ} (hreq : ¬ 1 < call.requests.length) (seed' : σ) :
    Scheduled rand call nodes config seed (scheduleSingle rand call nodes seed').1 := by
  have hsplit : ¬ SplitsBatch rand call nodes config seed := fun h => hreq h.2.1
  unfold scheduleSingle
  simp only
  split_ifs
  · exact .whole hsplit _ (entries_empty_set _ _)
  · exact .whole hsplit _ (entries_empty_set _ _)
  · exact .nothing hsplit rfl

/-- What the Demeter scheduler leaves alone is routed as a batch or as a single request, with the
nodes that the call came with. -/
theorem route_of_not_routedByDemeter {call : FunctionCall} {nodes : Dict Address NodeStatus}
    {config : DemeterSchedulerConfig} {seed : σ}
    (hd : ¬ RoutedByDemeter rand call nodes config seed) :
    ∃ seed', route rand call nodes config seed =
      if call.requests.length > 1 then
        (scheduleBatch call nodes).map fun scheduled => (scheduled, nodes, seed')
      else
        some ((scheduleSingle rand call nodes seed').1, nodes,
          (scheduleSingle rand call nodes seed').2) := by
  unfold route
  set routed := if config.enabled then
    demeterScheduleFunctionCall rand call call.source nodes config seed
    else (.empty, nodes, seed) with hrouted
  have hnone : routed.1.entries = [] ∧ routed.2.1 = nodes := by
    rw [hrouted]
    split_ifs with he
    · have hnil := not_not.1 fun hne => hd ⟨he, hne⟩
      exact ⟨hnil, nodes_demeterScheduleFunctionCall hnil⟩
    · exact ⟨rfl, rfl⟩
  have hsnd : routed.2 = (nodes, routed.2.2) := Prod.ext hnone.2 rfl
  refine ⟨routed.2.2, ?_⟩
  simp only [hnone.1, ne_eq, not_true_eq_false, if_false]
  rw [hsnd]
  split_ifs
  · cases scheduleBatch call nodes <;> rfl
  · rfl

/-- Every call is routed, on one of the paths. -/
theorem exists_route (rand : σ → ℕ × σ) (call : FunctionCall) (nodes : Dict Address NodeStatus)
    (config : DemeterSchedulerConfig) (seed : σ) :
    ∃ routed, route rand call nodes config seed = some routed ∧
      Scheduled rand call nodes config seed routed.1 := by
  by_cases hd : RoutedByDemeter rand call nodes config seed
  · unfold route
    simp only [hd.1, if_true, ne_eq, hd.2, not_false_eq_true]
    exact ⟨_, rfl, .demeter hd rfl⟩
  obtain ⟨seed', hroute⟩ := route_of_not_routedByDemeter hd
  rw [hroute]
  split_ifs with hreq
  · obtain ⟨scheduled, hbatch, hs⟩ := exists_scheduleBatch hd hreq
    rw [hbatch]
    exact ⟨_, rfl, hs⟩
  · exact ⟨_, rfl, scheduled_scheduleSingle hreq seed'⟩

theorem map_snd_sendMessages (ioThreadNum : ℕ+) (l : List (Address × FunctionCall)) (seed : σ) :
    (sendMessages rand ioThreadNum l seed).1.map Prod.snd = l.map Prod.snd := by
  induction l generalizing seed with
  | nil => rfl
  | cons e l ih => rw [sendMessages, List.map_cons, List.map_cons, ih]

/-- The handler comes back with the scheduled messages sent, or with the error response. -/
theorem exists_funcCallHandler (rand : σ → ℕ × σ) (ioThreadNum : ℕ+) (call : FunctionCall)
    (nodes : Dict Address NodeStatus) (config : DemeterSchedulerConfig) (seed : σ) :
    ∃ out scheduled, funcCallHandler rand ioThreadNum call nodes config seed = some out ∧
      Scheduled rand (withSession rand call seed).1 nodes config (withSession rand call seed).2
        scheduled ∧
      ((scheduled.entries = [] ∧ out.messages = [] ∧ out.responses = errorResponses call) ∨
        (scheduled.entries ≠ [] ∧ out.messages.map Prod.snd = scheduled.entries.map Prod.snd ∧
          out.responses = [])) := by
  obtain ⟨routed, hroute, hs⟩ := exists_route rand (withSession rand call seed).1 nodes config
    (withSession rand call seed).2
  rw [funcCallHandler, hroute, Option.bind_eq_bind, Option.bind_some]
  split_ifs with hnil
  · exact ⟨_, routed.1, rfl, hs, Or.inl ⟨hnil, rfl, rfl⟩⟩
  · exact ⟨_, routed.1, rfl, hs, Or.inr ⟨hnil, map_snd_sendMessages _ _ _, rfl⟩⟩

/-! ### Conservation of requests -/

/-- Consecutive blocks of requests, sent in any order. -/
theorem partitions_of_blocks {parts : List (Address × List FunctionRequest)}
    (hkeys : (parts.map Prod.fst).Nodup) {f : List FunctionRequest → FunctionCall}
    (hf : ∀ reqs, (f reqs).requests = reqs) {msgs : List (Address × FunctionCall)}
    (hperm : msgs.Perm (parts.map fun e => (e.1, f e.2))) :
    Partitions ((parts.flatMap Prod.snd).map (·.content))
      (msgs.map (·.2.requests.map (·.content))) := by
  have hkeys' : ((parts.map fun e => (e.1, e.2.map (·.content))).map Prod.fst).Nodup := by
    simpa [Function.comp_def] using hkeys
  have hperm' : (msgs.map fun e => (e.1, e.2.requests.map (·.content))).Perm
      (parts.map fun e => (e.1, e.2.map (·.content))) := by
    simpa [Function.comp_def, hf] using hperm.map fun e => (e.1, e.2.requests.map (·.content))
  simpa [Function.comp_def, List.flatMap_map, List.map_flatMap] using
    Partitions.of_flatten hkeys' hperm'

/-- Scheduled messages divide the requests of the call. -/
theorem Scheduled.partitions {call : FunctionCall} {nodes : Dict Address NodeStatus}
    {config : DemeterSchedulerConfig} {seed : σ} {scheduled : Dict Address FunctionCall}
    (h : Scheduled rand call nodes config seed scheduled)
    (haddr : ∀ addr ∈ nodes.keys, addr ≠ "") (hne : scheduled.entries ≠ []) :
    Partitions (call.requests.map (·.content))
      (scheduled.entries.map (·.2.requests.map (·.content))) := by
  cases h with
  | demeter h he =>
    have hnodes : nodes.entries ≠ [] := by
      intro hnil
      refine h.2 ?_
      rw [demeterScheduleFunctionCall, if_pos (Or.inr hnil)]
      rfl
    refine demeterScheduleFunctionCall_partitions h.1 hnodes rand call call.source seed haddr ?_
    rw [← he]
  | nothing h he => exact absurd he hne
  | whole h addr he =>
    have hperm : scheduled.entries.Perm ([(addr, call.requests)].map fun e =>
        (e.1, { call with requests := e.2 })) := .of_eq he
    have hkeys : ([(addr, call.requests)].map Prod.fst).Nodup := List.nodup_singleton addr
    simpa using partitions_of_blocks (f := fun reqs => { call with requests := reqs }) hkeys
      (fun _ => rfl) hperm
  | split h parts hkeys hflat he =>
    rw [← hflat]
    exact partitions_of_blocks hkeys (fun _ => rfl) (.of_eq he)

theorem source_withSession (call : FunctionCall) (seed : σ) :
    (withSession rand call seed).1.source = call.source := by
  unfold withSession
  split_ifs <;> rfl

theorem requests_withSession (call : FunctionCall) (seed : σ) :
    (withSession rand call seed).1.requests = call.requests := by
  unfold withSession
  split_ifs <;> rfl

/-- **Conservation of requests.**  The handler always comes back.  Either it dispatches nothing,
and the client gets exactly one error response if it left an address, or the dispatched messages
divide the requests of the call among them, in order and with their names and arguments. -/
theorem funcCallHandler_conserves (rand : σ → ℕ × σ) (ioThreadNum : ℕ+) (call : FunctionCall)
    (nodes : Dict Address NodeStatus) (config : DemeterSchedulerConfig) (seed : σ)
    (haddr : ∀ addr ∈ nodes.keys, addr ≠ "") :
    ∃ out, funcCallHandler rand ioThreadNum call nodes config seed = some out ∧
      ((out.messages = [] ∧ out.responses = errorResponses call) ∨
        (out.messages ≠ [] ∧ out.responses = [] ∧
          Partitions (call.requests.map (·.content))
            (out.messages.map (·.2.requests.map (·.content))))) := by
  obtain ⟨out, scheduled, hout, hs, ⟨-, hmsgs, hresp⟩ | ⟨hne, hmsgs, hresp⟩⟩ :=
    exists_funcCallHandler rand ioThreadNum call nodes config seed
  · exact ⟨out, hout, Or.inl ⟨hmsgs, hresp⟩⟩
  · refine ⟨out, hout, Or.inr ⟨?_, hresp, ?_⟩⟩
    · rintro hnil
      rw [hnil, List.map_nil, eq_comm, List.map_eq_nil_iff] at hmsgs
      exact hne hmsgs
    · have hparts := hs.partitions haddr hne
      have hcontent :=
        congrArg (List.map fun msg : FunctionCall => msg.requests.map (·.content)) hmsgs
      rw [List.map_map, List.map_map] at hcontent
      rw [requests_withSession] at hparts
      exact hcontent ▸ hparts

/-- Two nodes with one free executor each share the two requests of a call. -/
theorem funcCallHandler_conserves_sample :
    ∃ out, funcCallHandler (fun n : ℕ => (n, n + 1)) 1 Sample.call Sample.nodes {} 0 = some out ∧
      out.messages ≠ [] ∧ Partitions (Sample.call.requests.map (·.content))
        (out.messages.map (·.2.requests.map (·.content))) := by
  obtain ⟨out, hout, ⟨hnil, -⟩ | ⟨hne, -, hparts⟩⟩ := funcCallHandler_conserves
    (fun n : ℕ => (n, n + 1)) 1 Sample.call Sample.nodes {} 0 (by decide +kernel)
  · have : (funcCallHandler (fun n : ℕ => (n, n + 1)) 1 Sample.call Sample.nodes {}
        0).map (·.messages.length) = some 2 := by decide +kernel
    rw [hout, Option.map_some, hnil] at this
    cases this
  · exact ⟨out, hout, hne, hparts⟩

/-! ### Identity of calls -/

/-- The session of a call: its own, or a fresh one of 16 characters. -/
def sessionOf (rand : σ → ℕ × σ) (call : FunctionCall) (seed : σ) : String :=
  if call.sessionId = "" then (genRandom rand seed 16).1 else call.sessionId

theorem sessionOf_ne_empty (rand : σ → ℕ × σ) (call : FunctionCall) (seed : σ) :
    sessionOf rand call seed ≠ "" := by
  unfold sessionOf
  split_ifs with h
  · intro he
    have := length_genRandom rand seed 16
    rw [he] at this
    cases this
  · exact h

/-- The message carries the names and addresses of the call and the given session, which is not
empty. -/
structure SameIdentity (call : FunctionCall) (session : String) (msg : FunctionCall) : Prop where
  appName : msg.appName = call.appName
  respAddress : msg.respAddress = call.respAddress
  requestId : msg.requestId = call.requestId
  sessionId : msg.sessionId = session
  session_ne : session ≠ ""

theorem sameIdentity_withSession (rand : σ → ℕ × σ) (call : FunctionCall) (seed : σ) :
    SameIdentity call (sessionOf rand call seed) (withSession rand call seed).1 := by
  have hne := sessionOf_ne_empty rand call seed
  unfold withSession
  split_ifs with h
  · exact ⟨rfl, rfl, rfl, by rw [sessionOf, if_pos h], hne⟩
  · exact ⟨rfl, rfl, rfl, by rw [sessionOf, if_neg h], hne⟩

/-- Off the split path every scheduled message has the identity of the call it was made from; on
it, no message has a session. -/
theorem Scheduled.identity_iff {call : FunctionCall} {nodes : Dict Address NodeStatus}
    {config : DemeterSchedulerConfig} {seed : σ} {scheduled : Dict Address FunctionCall}
    (h : Scheduled rand call nodes config seed scheduled) {original : FunctionCall}
    {session : String} (hcall : SameIdentity original session call) :
    (∀ e ∈ scheduled.entries, SameIdentity original session e.2) ↔
      ¬ SplitsBatch rand call nodes config seed := by
  cases h with
  | demeter h he =>
    refine iff_of_true (fun e hmem => ?_) fun hs => hs.1 h
    obtain ⟨reqs, hreqs⟩ := exists_of_mem_demeterScheduleFunctionCall (he ▸ hmem)
    rw [hreqs]
    exact ⟨hcall.appName, hcall.respAddress, hcall.requestId, hcall.sessionId, hcall.session_ne⟩
  | nothing h he => exact iff_of_true (by simp [he]) h
  | whole h addr he =>
    refine iff_of_true (fun e hmem => ?_) h
    rw [he, List.mem_singleton] at hmem
    rw [hmem]
    exact hcall
  | split h parts hkeys hflat he =>
    refine iff_of_false (fun hall => ?_) (not_not.2 h)
    have hparts : parts ≠ [] := by
      rintro rfl
      have := h.2.1
      rw [← hflat] at this
      simp at this
    obtain ⟨part, hpart⟩ := List.exists_mem_of_ne_nil _ hparts
    have hid := hall (part.1, partCall call part.2)
      (by rw [he]; exact List.mem_map.2 ⟨part, hpart, rfl⟩)
    exact hid.session_ne hid.sessionId.symm

/-- With proper node addresses the Demeter scheduler never leaves a call to the split path. -/
theorem splitsBatch_iff {call : FunctionCall} {nodes : Dict Address NodeStatus}
    {config : DemeterSchedulerConfig} {seed : σ} (haddr : ∀ addr ∈ nodes.keys, addr ≠ "") :
    SplitsBatch rand call nodes config seed ↔
      config.enabled = false ∧ 1 < call.requests.length ∧
        (scanNodes call.source nodes).maxExecutors < call.requests.length ∧
        call.requests.length ≤ (scanNodes call.source nodes).totalExecutors := by
  constructor
  · rintro ⟨hd, hreq, hmax, htotal⟩
    refine ⟨?_, hreq, hmax, htotal⟩
    by_contra he
    rw [Bool.not_eq_false] at he
    have hnodes : nodes.entries ≠ [] := by
      intro hnil
      have hzero : scanNodes call.source nodes = {} := by
        rw [scanNodes, hnil]
        rfl
      rw [hzero] at htotal
      simp only at htotal
      omega
    refine hd ⟨he, demeterScheduleFunctionCall_ne_nil he hnodes rand call call.source seed haddr ?_⟩
    exact List.length_pos_iff.1 (by omega)
  · rintro ⟨he, hreq, hmax, htotal⟩
    exact ⟨fun hd => absurd hd.1 (by simp [he]), hreq, hmax, htotal⟩

/-- **Identity of calls.**  All dispatched messages carry the identity of the call, with one
non-empty session, if and only if the call is not split; with proper node addresses it is split
when the Demeter scheduler is off, no other node has enough free executors for all requests, and
all of them together have. -/
theorem funcCallHandler_identity_iff (rand : σ → ℕ × σ) (ioThreadNum : ℕ+) (call : FunctionCall)
    (nodes : Dict Address NodeStatus) (config : DemeterSchedulerConfig) (seed : σ) :
    ((∃ out, funcCallHandler rand ioThreadNum call nodes config seed = some out ∧
        ∀ msg ∈ out.messages, SameIdentity call (sessionOf rand call seed) msg.2) ↔
      ¬ SplitsBatch rand (withSession rand call seed).1 nodes config
        (withSession rand call seed).2) ∧
    ((∀ addr ∈ nodes.keys, addr ≠ "") →
      (SplitsBatch rand (withSession rand call seed).1 nodes config (withSession rand call seed).2 ↔
        config.enabled = false ∧ 1 < call.requests.length ∧
          (scanNodes call.source nodes).maxExecutors < call.requests.length ∧
          call.requests.length ≤ (scanNodes call.source nodes).totalExecutors)) := by
  constructor
  · obtain ⟨out, scheduled, hout, hs, hsent⟩ :=
      exists_funcCallHandler rand ioThreadNum call nodes config seed
    rw [← hs.identity_iff (sameIdentity_withSession rand call seed)]
    have hsame : out.messages.map Prod.snd = scheduled.entries.map Prod.snd := by
      rcases hsent with ⟨hnil, hmsgs, -⟩ | ⟨-, hmsgs, -⟩
      · rw [hmsgs, hnil]
      · exact hmsgs
    have hmem : ∀ msg, msg ∈ out.messages.map Prod.snd ↔ msg ∈ scheduled.entries.map Prod.snd := by
      intro msg
      rw [hsame]
    simp only [List.mem_map, Prod.exists, exists_eq_right] at hmem
    constructor
    · rintro ⟨out', hout', hall⟩ ⟨addr, msg⟩ he
      rw [hout, Option.some.injEq] at hout'
      obtain ⟨addr', he'⟩ := (hmem msg).2 ⟨addr, he⟩
      exact hall (addr', msg) (hout' ▸ he')
    · refine fun hall => ⟨out, hout, ?_⟩
      rintro ⟨addr, msg⟩ he
      obtain ⟨addr', he'⟩ := (hmem msg).1 ⟨addr, he⟩
      exact hall (addr', msg) he'
  · intro haddr
    rw [splitsBatch_iff haddr, requests_withSession, source_withSession]

/-- The two messages of the split sample call have neither its session nor its request id. -/
theorem not_identity_sample :
    ¬ ∃ out, funcCallHandler (fun n : ℕ => (n, n + 1)) 1 Sample.call Sample.nodes {} 0 = some out ∧
      ∀ msg ∈ out.messages,
        SameIdentity Sample.call (sessionOf (fun n : ℕ => (n, n + 1)) Sample.call 0) msg.2 := by
  have hlost : (funcCallHandler (fun n : ℕ => (n, n + 1)) 1 Sample.call Sample.nodes {} 0).map
      (·.messages.map fun msg => (msg.2.sessionId, msg.2.requestId)) =
        some [("", ""), ("", "")] := by
    decide +kernel
  rintro ⟨out, hout, hall⟩
  rw [hout, Option.map_some, Option.some.injEq] at hlost
  obtain ⟨msg, hmsg, heq⟩ := List.mem_map.1 (hlost ▸ List.mem_cons_self)
  have hid := (hall msg hmsg).requestId
  rw [(Prod.mk.inj heq).2] at hid
  exact absurd hid (by decide)

end Demeter.Coordinator
