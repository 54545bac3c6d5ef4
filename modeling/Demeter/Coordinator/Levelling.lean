import Demeter.Coordinator.Capacity

/-!
# Load balancing of the Demeter scheduler

When the nodes differ in their free executors only, and every executor raises the affinity as it is
computed, the freest nodes are levelled down first.

* `nodeScore_eq`: the affinity depends on the weights, on the executors and on whether the function
  is warm;
* `Levelled` is what holds after the call: `levelled_demeterScheduleFunctionCall`.
-/

namespace Demeter.Coordinator

/-- The profile of a node, or the default one. -/
def profileOf (addr : Address) (config : DemeterSchedulerConfig) : DemeterNodeProfile :=
  (config.nodeProfiles.get? addr).getD
    { dc := addr, warmWeight := 0.15, loadWeight := 0.35, localityWeight := 1.0 }

/-- All nodes have the same weights. -/
def SameWeights (config : DemeterSchedulerConfig) (nodes : Dict Address NodeStatus) : Prop :=
  ∀ addr ∈ nodes.keys, ∀ addr' ∈ nodes.keys,
    (profileOf addr config).warmWeight = (profileOf addr' config).warmWeight ∧
      (profileOf addr config).loadWeight = (profileOf addr' config).loadWeight ∧
      (profileOf addr config).localityWeight = (profileOf addr' config).localityWeight

/-- The requested functions are warm on all nodes, or on none. -/
def SameWarmth (nodes : Dict Address NodeStatus) (reqs : List FunctionRequest) : Prop :=
  ∀ req ∈ reqs, (∀ e ∈ nodes.entries, req.name ∈ e.2.functions) ∨
    ∀ e ∈ nodes.entries, req.name ∉ e.2.functions

/-- Every further executor raises the affinity of a node. -/
def RaisedByExecutors (source : Address) (config : DemeterSchedulerConfig)
    (nodes : Dict Address NodeStatus) (reqs : List FunctionRequest) : Prop :=
  ∀ addr status, nodes.get? addr = some status → isSource source addr = false →
    ∀ req ∈ reqs, ∀ avail : ℤ, 0 ≤ avail → avail < status.availExecutors →
      nodeScore addr { status with availExecutors := avail } req config <
        nodeScore addr { status with availExecutors := avail + 1 } req config

/-- No node other than the source has more than one more free executor than another one that has
received a request. -/
def Levelled (source : Address) (scheduled : Dict Address FunctionCall)
    (nodes : Dict Address NodeStatus) : Prop :=
  ∀ m n status status', isSource source m = false → isSource source n = false →
    0 < assigned scheduled m → nodes.get? m = some status → nodes.get? n = some status' →
      status'.availExecutors ≤ status.availExecutors + 1

theorem not_levelled {source : Address} {scheduled : Dict Address FunctionCall}
    {nodes : Dict Address NodeStatus} {m n : Address} {avail avail' : ℤ}
    (hm : isSource source m = false) (hn : isSource source n = false)
    (hreceived : 0 < assigned scheduled m)
    (hget : (nodes.get? m).map NodeStatus.availExecutors = some avail)
    (hget' : (nodes.get? n).map NodeStatus.availExecutors = some avail')
    (hlt : avail + 1 < avail') : ¬ Levelled source scheduled nodes := by
  intro h
  obtain ⟨status, hstatus, rfl⟩ := Option.map_eq_some_iff.1 hget
  obtain ⟨status', hstatus', rfl⟩ := Option.map_eq_some_iff.1 hget'
  have hle := h m n status status' hm hn hreceived hstatus hstatus'
  omega

section Scores

variable {source : Address} {config : DemeterSchedulerConfig} {nodes : Dict Address NodeStatus}
  {reqs : List FunctionRequest}

/-- Nodes with the same weights, the same warmth and as many executors have the same affinity. -/
theorem nodeScore_eq (hweights : SameWeights config nodes) (hwarm : SameWarmth nodes reqs)
    {req : FunctionRequest} (hreq : req ∈ reqs) {addr addr' : Address} {status status' : NodeStatus}
    (hget : nodes.get? addr = some status) (hget' : nodes.get? addr' = some status') (avail : ℤ) :
    nodeScore addr { status with availExecutors := avail } req config =
      nodeScore addr' { status' with availExecutors := avail } req config := by
  obtain ⟨hw, hl, hloc⟩ := hweights addr (Dict.mem_keys_iff.2 ⟨status, hget⟩) addr'
    (Dict.mem_keys_iff.2 ⟨status', hget'⟩)
  have hfunctions : req.name ∈ status.functions ↔ req.name ∈ status'.functions := by
    rcases hwarm req hreq with hall | hnone
    · exact iff_of_true (hall _ (Dict.mem_entries_iff.2 hget))
        (hall _ (Dict.mem_entries_iff.2 hget'))
    · exact iff_of_false (hnone _ (Dict.mem_entries_iff.2 hget))
        (hnone _ (Dict.mem_entries_iff.2 hget'))
  unfold profileOf at hw hl hloc
  unfold nodeScore nodeAffinity
  simp only [hw, hl, hloc, hfunctions]

theorem RaisedByExecutors.lt (h : RaisedByExecutors source config nodes reqs) {addr : Address}
    {status : NodeStatus} (hget : nodes.get? addr = some status)
    (hsource : isSource source addr = false) {req : FunctionRequest} (hreq : req ∈ reqs)
    {avail avail' : ℤ} (hpos : 0 ≤ avail) (hlt : avail < avail')
    (hle : avail' ≤ status.availExecutors) :
    nodeScore addr { status with availExecutors := avail } req config <
      nodeScore addr { status with availExecutors := avail' } req config := by
  obtain ⟨k, rfl⟩ := Int.le.dest hlt
  induction k with
  | zero => simpa using h addr status hget hsource req hreq avail hpos (by omega)
  | succ k ih =>
    have hstep := h addr status hget hsource req hreq (avail + 1 + k) (by omega) (by omega)
    rw [Nat.cast_succ, ← add_assoc]
    exact FloatOrder.lt_trans (ih (by omega) (by omega)) hstep

theorem RaisedByExecutors.above (h : RaisedByExecutors source config nodes reqs) :
    AboveNegInfinity source config nodes reqs := by
  intro addr status hget hsource req hreq avail hpos hle
  exact FloatOrder.negInf_lt_of_lt
    (h.lt hget hsource hreq (le_refl 0) hpos hle)

/-- Best first is fullest first. -/
theorem BestFirst.fullestFirst {distributed : List FunctionRequest} {targets : List Address}
    (h : BestFirst source config nodes distributed targets)
    (hlength : targets.length = distributed.length) (hsub : distributed ⊆ reqs)
    (hweights : SameWeights config nodes) (hwarm : SameWarmth nodes reqs)
    (hraised : RaisedByExecutors source config nodes reqs) :
    Slots.FullestFirst (fun addr => isSource source addr = false ∧ addr ∈ nodes.keys)
      (capacity nodes) targets := by
  intro k target htarget
  rintro addr ⟨hsource, hkey⟩
  obtain ⟨status, hget⟩ := Dict.mem_keys_iff.1 hkey
  obtain ⟨req, hreq, status', hget', hsource', hpos', hbest⟩ := h.exists_req hlength htarget
  replace hreq := hsub hreq
  rw [get?_withTaken, Option.map_eq_some_iff] at hget'
  obtain ⟨old, hold, rfl⟩ := hget'
  rw [capacity, capacity, hget, hold, Option.map_some, Option.map_some, Option.getD_some,
    Option.getD_some]
  by_contra hlt
  rw [not_le] at hlt
  have hbest' := hbest addr _ (by rw [get?_withTaken, hget, Option.map_some]) hsource
    (hpos'.trans hlt)
  have hscore := hraised.lt hget hsource hreq hpos'.le hlt (Slots.left_le _ _)
  rw [nodeScore_eq hweights hwarm hreq hget hold] at hscore
  exact FloatOrder.not_lt_of_le hbest' hscore

end Scores

section Call

variable {σ : Type} (rand : σ → ℕ × σ) (call : FunctionCall) {source : Address}
  {nodes : Dict Address NodeStatus} {config : DemeterSchedulerConfig} (seed : σ)

/-- **Load balancing.**  When there is room for a call, the freest nodes are levelled down first. -/
theorem levelled_demeterScheduleFunctionCall (haddr : ∀ addr ∈ nodes.keys, addr ≠ "")
    (hweights : SameWeights config nodes) (hwarm : SameWarmth nodes call.requests)
    (hraised : RaisedByExecutors source config nodes call.requests)
    (hroom : (call.requests.length : ℤ) ≤ totalFree source nodes) :
    Levelled source (demeterScheduleFunctionCall rand call source nodes config seed).1
      (demeterScheduleFunctionCall rand call source nodes config seed).2.1 := by
  obtain ⟨targets, hlength, hscheduled, hbest⟩ :=
    exists_targets_call rand call source nodes config seed haddr hraised.above hroom
  rw [snd_demeterScheduleFunctionCall]
  have hcount := assigned_eq_count hlength hscheduled
  intro m n status status' hm hn hreceived hget hget'
  rw [get?_withTaken, Option.map_eq_some_iff] at hget hget'
  obtain ⟨old, hold, rfl⟩ := hget
  obtain ⟨old', hold', rfl⟩ := hget'
  rw [hcount, List.count_pos_iff] at hreceived
  have hlevelled := (hbest.fullestFirst hlength (served_subset config call) hweights hwarm
    hraised).levelled (hbest.available hlength) hreceived
    ⟨hn, Dict.mem_keys_iff.2 ⟨old', hold'⟩⟩
  rwa [capacity, capacity, hold, hold', Option.map_some, Option.map_some, Option.getD_some,
    Option.getD_some, ← hcount, ← hcount] at hlevelled

end Call

/-! ### Two nodes -/

namespace Sample

/-- One node has more free executors than the other. -/
def twoAndFive : Dict Address NodeStatus :=
  .ofList [("10.0.0.12", { availExecutors := 2 }), ("10.0.0.13", { availExecutors := 5 })]

/-- A load weight that is lost when the locality weight is added. -/
def tinyWeight : DemeterSchedulerConfig where
  enabled := true
  nodeProfiles := .ofList [
    ("10.0.0.12",
      { dc := "east", warmWeight := 0.15, loadWeight := 1e-18, localityWeight := 1.0 }),
    ("10.0.0.13",
      { dc := "east", warmWeight := 0.15, loadWeight := 1e-18, localityWeight := 1.0 })]

/-- A node without an address. -/
def nameless : Dict Address NodeStatus :=
  .ofList [("", { availExecutors := 5 }), ("10.0.0.12", { availExecutors := 1 })]

end Sample

theorem levelled_twoAndFive :
    Levelled "" (demeterScheduleFunctionCall (fun n : ℕ => (n, n + 1)) Sample.call ""
        Sample.twoAndFive { enabled := true } 0).1
      (demeterScheduleFunctionCall (fun n : ℕ => (n, n + 1)) Sample.call ""
        Sample.twoAndFive { enabled := true } 0).2.1 := by
  refine levelled_demeterScheduleFunctionCall (fun n : ℕ => (n, n + 1)) Sample.call 0
    (by decide +kernel) ?_ ?_ ?_ (by decide +kernel)
  · unfold SameWeights
    decide +kernel
  · unfold SameWarmth
    decide +kernel
  · intro addr status hget hsource req hreq avail hpos hlt
    have hmem : (addr, status) ∈ ([("10.0.0.12", { availExecutors := 2 }),
        ("10.0.0.13", { availExecutors := 5 })] : List (Address × NodeStatus)) :=
      Dict.mem_entries_iff.2 hget
    have hreq' : req = { name := "map", arguments := [] } := by simpa [Sample.call] using hreq
    subst hreq'
    simp only [List.mem_cons, Prod.mk.injEq, List.not_mem_nil, or_false] at hmem
    obtain ⟨rfl, rfl⟩ | ⟨rfl, rfl⟩ := hmem <;> interval_cases avail <;> decide +kernel

/-- With the tiny weight all affinities are equal, and the first node gets all requests.  The best
node without an address counts as none, and the request goes to a random one. -/
theorem not_levelled_tinyWeight :
    (SameWeights Sample.tinyWeight Sample.twoAndFive ∧
      (∀ addr ∈ Sample.twoAndFive.keys, (profileOf addr Sample.tinyWeight).loadWeight > 0) ∧
      SameWarmth Sample.twoAndFive Sample.call.requests ∧
      (Sample.call.requests.length : ℤ) ≤ totalFree "" Sample.twoAndFive ∧
      ¬ Levelled "" (demeterScheduleFunctionCall (fun n : ℕ => (n, n + 1)) Sample.call ""
          Sample.twoAndFive Sample.tinyWeight 0).1
        (demeterScheduleFunctionCall (fun n : ℕ => (n, n + 1)) Sample.call ""
          Sample.twoAndFive Sample.tinyWeight 0).2.1) ∧
    (SameWeights { enabled := true } Sample.nameless ∧
      (∀ addr ∈ Sample.nameless.keys, (profileOf addr { enabled := true }).loadWeight > 0) ∧
      SameWarmth Sample.nameless Sample.call.requests ∧
      (Sample.call.requests.length : ℤ) ≤ totalFree "" Sample.nameless ∧
      ¬ Levelled "" (demeterScheduleFunctionCall (fun n : ℕ => (1, n)) Sample.call ""
          Sample.nameless { enabled := true } 0).1
        (demeterScheduleFunctionCall (fun n : ℕ => (1, n)) Sample.call ""
          Sample.nameless { enabled := true } 0).2.1) := by
  refine ⟨⟨?_, by decide +kernel, ?_, by decide +kernel, ?_⟩,
    ⟨?_, by decide +kernel, ?_, by decide +kernel, ?_⟩⟩
  · unfold SameWeights
    decide +kernel
  · unfold SameWarmth
    decide +kernel
  · exact @not_levelled "" _ _ "10.0.0.12" "10.0.0.13" 0 5 (by decide) (by decide)
      (by decide +kernel) (by decide +kernel) (by decide +kernel) (by decide)
  · unfold SameWeights
    decide +kernel
  · unfold SameWarmth
    decide +kernel
  · exact @not_levelled "" _ _ "10.0.0.12" "" 0 5 (by decide) (by decide)
      (by decide +kernel) (by decide +kernel) (by decide +kernel) (by decide)

end Demeter.Coordinator
