import Demeter.Scheduler.CallTable

/-!
# Waiting calls are scheduled once, when they are complete

The maps `call_id_inflight_args_map` and `key_call_id_map` refer to each other: the first says for
which keys a call waits, the second which calls wait for a key.

* `Consistent` is the two-way agreement of the maps, and `Inv` the invariant that every event keeps;
* `Tracks st c fa` follows one requested function through a run: either it is stored with the keys
  it still waits for, or it has been handed to `schedule_func_call`, once;
* `lengthsAt_of_mem_handOffs`: a hand-off has the lengths of the state in which it is made;
* `waiting_calls_scheduled_once` is the result about every run.
-/

namespace Demeter.Scheduler

open Demeter.Coordinator (FunctionCall)

/-! ### What a state knows about a call -/

namespace State

/-- The calls that wait for a key. -/
def callIds (st : State) (key : Bytes) : List ℕ := (st.keyCallIdMap.get? key).getD []

/-- The keys among `args` whose length is not known. -/
def missing (st : State) (args : List Bytes) : Finset Bytes :=
  args.toFinset \ st.keyLenMap.keys.toFinset

/-- The calls of `schedule_func_call` for one requested function. -/
def handOffsOf (st : State) (c : ℕ) : List HandOff := st.handOffs.filter (·.callId = c)

theorem mem_missing {st : State} {args : List Bytes} {k : Bytes} :
    k ∈ st.missing args ↔ k ∈ args ∧ k ∉ st.keyLenMap.keys := by
  simp [missing]

end State

/-- A hand-off passes on a requested function, with every key argument followed by the length that
`key_len_map` has for it. -/
structure HandOff.Passes (h : HandOff) (fa : InflightFuncArgs) : Prop where
  funcName : h.funcName = fa.funcName
  sessionId : h.sessionId = fa.sessionId
  argFlag : h.argFlag = fa.argFlag
  cpuCores : h.cpuCores = fa.cpuCores
  memoryMb : h.memoryMb = fa.memoryMb
  exists_lengths : ∃ len : Bytes → ℕ, (∀ k ∈ fa.keyArgs, h.keyLenMap.get? k = some (len k)) ∧
    h.funcArgs = fa.keyArgs.flatMap fun k => [k, toStringNat (len k)]

/-- The two maps agree, and no stored call has all its arguments. -/
structure Consistent (st : State) : Prop where
  mem_callIds_iff : ∀ k c, c ∈ st.callIds k ↔
    ∃ fa, st.callIdInflightArgsMap.get? c = some fa ∧ k ∈ fa.inflightArgs
  inflightArgs_nonempty : ∀ c fa, st.callIdInflightArgsMap.get? c = some fa →
    fa.inflightArgs.Nonempty

/-- The invariant of the scheduler loop. -/
structure Inv (st : State) : Prop extends Consistent st where
  nodup_callIds : ∀ k, (st.callIds k).Nodup
  lt_callId : ∀ c fa, st.callIdInflightArgsMap.get? c = some fa → c < st.callId
  handOff_lt_callId : ∀ h ∈ st.handOffs, h.callId < st.callId
  known : ∀ c fa, st.callIdInflightArgsMap.get? c = some fa → ∀ k ∈ fa.keyArgs,
    k ∈ fa.inflightArgs ∨ k ∈ st.keyLenMap.keys

/-! ### Handing a call over -/

theorem fullArgs_of_known {lens : Dict Bytes ℕ} {keys : List Bytes}
    (h : ∀ k ∈ keys, k ∈ lens.keys) :
    fullArgs lens keys =
      (lens, keys.flatMap fun k => [k, toStringNat ((lens.get? k).getD 0)]) := by
  induction keys with
  | nil => rfl
  | cons k keys ih =>
    rw [fullArgs, Dict.touch_of_mem (h k (by simp)), ih fun k' hk' => h k' (by simp [hk'])]
    rfl

section Handlers

variable (lookups : ℕ → List Bytes)

theorem sub_scheduleFuncCall (st : State) (h : HandOff) :
    st.keyLenMap.Sub (scheduleFuncCall lookups st h).keyLenMap :=
  Dict.sub_foldl_touch _ _ _

/-- If all lengths are known, the hand-off passes the call on and only extends `key_len_map`. -/
theorem scheduleWithKeys_spec (st : State) (c : ℕ) (app : String) (fa : InflightFuncArgs)
    (hk : ∀ k ∈ fa.keyArgs, k ∈ st.keyLenMap.keys) :
    ∃ h : HandOff, h.callId = c ∧ h.Passes fa ∧
      scheduleWithKeys lookups st c app fa = scheduleFuncCall lookups st h := by
  unfold scheduleWithKeys
  simp only [fullArgs_of_known hk]
  refine ⟨_, rfl, ⟨rfl, rfl, rfl, rfl, rfl, ?_⟩, rfl⟩
  refine ⟨fun k => (st.keyLenMap.get? k).getD 0, fun k hmem => ?_, rfl⟩
  obtain ⟨n, hn⟩ := Dict.mem_keys_iff.1 (hk k hmem)
  simp [hn]

theorem handOffsOf_append {st st' : State} {h : HandOff}
    (hst : st'.handOffs = st.handOffs ++ [h]) (c : ℕ) :
    st'.handOffsOf c = st.handOffsOf c ++ if h.callId = c then [h] else [] := by
  unfold State.handOffsOf
  rw [hst, List.filter_append]
  by_cases hc : h.callId = c <;> simp [hc]

theorem handOffsOf_eq_nil {st : State} (hi : Inv st) : st.handOffsOf st.callId = [] := by
  refine List.filter_eq_nil_iff.2 fun h hh => ?_
  have hlt := hi.handOff_lt_callId h hh
  simp only [decide_eq_true_eq]
  omega

/-! ### A function with key arguments arrives -/

theorem mem_insertId {c c' : ℕ} {ids : List ℕ} : c' ∈ insertId c ids ↔ c' = c ∨ c' ∈ ids := by
  unfold insertId
  split_ifs with h
  · constructor
    · exact Or.inr
    · rintro (rfl | h')
      · exact h
      · exact h'
  · exact List.mem_orderedInsert _

theorem nodup_insertId {c : ℕ} {ids : List ℕ} (h : ids.Nodup) : (insertId c ids).Nodup := by
  unfold insertId
  split_ifs with hc
  · exact h
  · exact (List.perm_orderedInsert _ c ids).nodup_iff.2 (List.nodup_cons.2 ⟨hc, h⟩)

/-- What the loop over the key arguments does: it collects the keys, and enters the current call id
under every missing key. -/
structure Queried (args : List Bytes) (acc acc' : State × InflightFuncArgs) : Prop where
  eq_state : ∃ reqs ids, acc'.1 = { acc.1 with dataReqs := reqs, keyCallIdMap := ids }
  eq_inflight : acc'.2 = { acc.2 with
    keyArgs := acc.2.keyArgs ++ args
    inflightArgs := acc.2.inflightArgs ∪ acc.1.missing args }
  mem_callIds_iff : ∀ k c, c ∈ acc'.1.callIds k ↔
    c ∈ acc.1.callIds k ∨ c = acc.1.callId ∧ k ∈ acc.1.missing args
  nodup_callIds : (∀ k, (acc.1.callIds k).Nodup) → ∀ k, (acc'.1.callIds k).Nodup
  eq_of_missing : acc.1.missing args = ∅ → acc'.1 = acc.1

theorem queried_queryArg (acc : State × InflightFuncArgs) (arg : Bytes) :
    Queried [arg] acc (queryArg acc arg) := by
  obtain ⟨st, fa⟩ := acc
  unfold queryArg
  by_cases h : arg ∈ st.keyLenMap.keys
  · have hm : st.missing [arg] = ∅ := by
      simpa [State.missing] using h
    simp only [if_pos h]
    exact ⟨⟨st.dataReqs, st.keyCallIdMap, rfl⟩, by simp [hm], by simp [hm], fun hn => hn,
      fun _ => rfl⟩
  · have hm : st.missing [arg] = {arg} := by
      simpa [State.missing] using h
    simp only [if_neg h]
    refine ⟨⟨_, _, rfl⟩, ?_, fun k c => ?_, fun hn k => ?_, fun he => ?_⟩
    · simp [hm]
    · simp only [State.callIds, Dict.get?_set, hm, Finset.mem_singleton]
      by_cases hk : k = arg
      · subst hk
        simp [mem_insertId, or_comm]
      · simp [hk]
    · have hk := hn k
      simp only [State.callIds, Dict.get?_set] at hk ⊢
      by_cases hka : k = arg
      · subst hka
        simpa using nodup_insertId hk
      · simpa [hka] using hk
    · exact absurd (hm.symm.trans he) (Finset.singleton_ne_empty arg)

theorem Queried.trans {a b : List Bytes} {x y z : State × InflightFuncArgs}
    (hxy : Queried a x y) (hyz : Queried b y z) : Queried (a ++ b) x z := by
  obtain ⟨r, ids, hy⟩ := hxy.eq_state
  obtain ⟨r', ids', hz⟩ := hyz.eq_state
  have hmiss : ∀ args, y.1.missing args = x.1.missing args := fun args => by rw [hy]; rfl
  have hid : y.1.callId = x.1.callId := by rw [hy]
  have happ : x.1.missing (a ++ b) = x.1.missing a ∪ x.1.missing b := by
    simp [State.missing, Finset.union_sdiff_distrib]
  refine ⟨⟨r', ids', by rw [hz, hy]⟩, ?_, fun k c => ?_, fun hn => ?_, fun he => ?_⟩
  · rw [hyz.eq_inflight, hxy.eq_inflight, hmiss, happ]
    simp [Finset.union_assoc]
  · rw [hyz.mem_callIds_iff, hxy.mem_callIds_iff, hmiss, hid, happ, Finset.mem_union, or_assoc,
      and_or_left]
  · exact hyz.nodup_callIds (hxy.nodup_callIds hn)
  · obtain ⟨ha, hb⟩ := Finset.union_eq_empty.1 (happ.symm.trans he)
    rw [hyz.eq_of_missing ((hmiss b).trans hb), hxy.eq_of_missing ha]

theorem queried_foldl (args : List Bytes) (acc : State × InflightFuncArgs) :
    Queried args acc (args.foldl queryArg acc) := by
  induction args generalizing acc with
  | nil =>
    exact ⟨⟨_, _, rfl⟩, by simp [State.missing], by simp [State.missing], fun hn => hn,
      fun _ => rfl⟩
  | cons arg args ih => exact (queried_queryArg acc arg).trans (ih _)

/-- The record of a function with key arguments when it arrives. -/
def arrival (st : State) (call : RecvCall) (f : RecvFunc) : InflightFuncArgs :=
  { newInflight call f with keyArgs := f.funcArgs, inflightArgs := st.missing f.funcArgs }

/-- A function that arrives is handed over at once, or is stored because a key is missing. -/
theorem handleFunc_cases (call : RecvCall) (st : State) (f : RecvFunc) :
    (∃ h : HandOff, h.callId = st.callId ∧
      (h.cpuCores = f.cpuCores ∧ h.memoryMb = f.memoryMb) ∧
      (0 < f.isFuncArgKey → st.missing f.funcArgs = ∅ ∧ h.Passes (arrival st call f)) ∧
      handleFunc lookups call st f =
        { scheduleFuncCall lookups st h with callId := st.callId + 1 }) ∨
    ∃ reqs ids, 0 < f.isFuncArgKey ∧ (st.missing f.funcArgs).Nonempty ∧
      Queried f.funcArgs (st, newInflight call f)
        ({ st with dataReqs := reqs, keyCallIdMap := ids }, arrival st call f) ∧
      handleFunc lookups call st f =
        { st with
          dataReqs := reqs
          keyCallIdMap := ids
          callIdInflightArgsMap := st.callIdInflightArgsMap.set st.callId (arrival st call f)
          callId := st.callId + 1 } := by
  by_cases hkey : f.isFuncArgKey > 0
  · have hq := queried_foldl f.funcArgs (st, newInflight call f)
    set q := f.funcArgs.foldl queryArg (st, newInflight call f) with hqdef
    have hfa : q.2 = arrival st call f := by
      rw [hq.eq_inflight]
      simp [arrival, newInflight]
    by_cases hm : st.missing f.funcArgs = ∅
    · -- no key was asked for, so the table is the old one
      left
      have hst : q.1 = st := hq.eq_of_missing hm
      have hk : ∀ k ∈ (arrival st call f).keyArgs, k ∈ st.keyLenMap.keys := fun k hk => by
        by_contra hn
        exact Finset.notMem_empty k (hm ▸ State.mem_missing.2 ⟨hk, hn⟩)
      obtain ⟨h, hid, hpass, heq⟩ :=
        scheduleWithKeys_spec lookups st st.callId call.appName _ hk
      refine ⟨h, hid, ⟨hpass.cpuCores, hpass.memoryMb⟩, fun _ => ⟨hm, hpass⟩, ?_⟩
      have hempty : (arrival st call f).inflightArgs = ∅ := hm
      unfold handleFunc
      simp only [if_pos hkey, ← hqdef, if_pos hempty, hst, hfa, heq]
      rfl
    · right
      obtain ⟨reqs, ids, hst⟩ := hq.eq_state
      have hne : (arrival st call f).inflightArgs ≠ ∅ := hm
      refine ⟨reqs, ids, hkey, Finset.nonempty_iff_ne_empty.2 hm, ?_, ?_⟩
      · rw [← hfa, ← hst]
        exact hq
      · unfold handleFunc
        simp only [if_pos hkey, ← hqdef, if_neg hne, hst, hfa]
  · left
    refine ⟨plainCall call st f, rfl, ⟨rfl, rfl⟩, fun h => absurd h hkey, ?_⟩
    unfold handleFunc
    simp only [if_neg hkey]
    rfl

theorem Inv.get?_callId {st : State} (hi : Inv st) :
    st.callIdInflightArgsMap.get? st.callId = none := by
  by_contra hne
  obtain ⟨fa, hfa⟩ := Option.ne_none_iff_exists'.1 hne
  exact lt_irrefl _ (hi.lt_callId _ fa hfa)

/-- The new id is larger than every stored one, so its entry overwrites nothing. -/
theorem Inv.get?_set_callId {st : State} (hi : Inv st) (new : InflightFuncArgs) (c : ℕ)
    (fa : InflightFuncArgs) :
    (st.callIdInflightArgsMap.set st.callId new).get? c = some fa ↔
      c = st.callId ∧ fa = new ∨ st.callIdInflightArgsMap.get? c = some fa := by
  rw [Dict.get?_set]
  by_cases hc : c = st.callId
  · simp [hc, hi.get?_callId, eq_comm]
  · simp [hc]

/-- A call is handed over at once. -/
theorem Inv.handOver {st : State} (hi : Inv st) {h : HandOff} (hid : h.callId = st.callId) :
    Inv { scheduleFuncCall lookups st h with callId := st.callId + 1 } := by
  refine ⟨⟨hi.mem_callIds_iff, hi.inflightArgs_nonempty⟩, hi.nodup_callIds, fun c fa hc => ?_,
    fun h' hh' => ?_, fun c fa hc k hk => ?_⟩
  · exact Nat.lt_succ_of_lt (hi.lt_callId c fa hc)
  · obtain hh' | hh' := List.mem_append.1 hh'
    · exact Nat.lt_succ_of_lt (hi.handOff_lt_callId h' hh')
    · obtain rfl := List.mem_singleton.1 hh'
      exact hid ▸ Nat.lt_succ_self _
  · exact (hi.known c fa hc k hk).imp_right (sub_scheduleFuncCall lookups st h).mem_keys

/-- A call is stored until its missing keys have come. -/
theorem Inv.store {st : State} (hi : Inv st) {call : RecvCall} {f : RecvFunc}
    {reqs : List Bytes} {ids : Dict Bytes (List ℕ)}
    (hm : (st.missing f.funcArgs).Nonempty)
    (hq : Queried f.funcArgs (st, newInflight call f)
      ({ st with dataReqs := reqs, keyCallIdMap := ids }, arrival st call f)) :
    Inv { st with
      dataReqs := reqs
      keyCallIdMap := ids
      callIdInflightArgsMap := st.callIdInflightArgsMap.set st.callId (arrival st call f)
      callId := st.callId + 1 } := by
  have hget := fun c fa => hi.get?_set_callId (arrival st call f) c fa
  refine ⟨⟨fun k c => ?_, fun c fa hc => ?_⟩, hq.nodup_callIds hi.nodup_callIds,
    fun c fa hc => ?_, fun h' hh' => Nat.lt_succ_of_lt (hi.handOff_lt_callId h' hh'),
    fun c fa hc k hk => ?_⟩
  · refine (hq.mem_callIds_iff k c).trans ?_
    simp only [hget, hi.mem_callIds_iff k c]
    constructor
    · rintro (⟨fa, hfa, hk⟩ | ⟨rfl, hk⟩)
      · exact ⟨fa, .inr hfa, hk⟩
      · exact ⟨_, .inl ⟨rfl, rfl⟩, hk⟩
    · rintro ⟨fa, ⟨rfl, rfl⟩ | hfa, hk⟩
      · exact .inr ⟨rfl, hk⟩
      · exact .inl ⟨fa, hfa, hk⟩
  · obtain ⟨-, rfl⟩ | hc := (hget c fa).1 hc
    · exact hm
    · exact hi.inflightArgs_nonempty c fa hc
  · obtain ⟨rfl, -⟩ | hc := (hget c fa).1 hc
    · exact Nat.lt_succ_self _
    · exact Nat.lt_succ_of_lt (hi.lt_callId c fa hc)
  · obtain ⟨-, rfl⟩ | hc := (hget c fa).1 hc
    · by_cases hlen : k ∈ st.keyLenMap.keys
      · exact .inr hlen
      · exact .inl (State.mem_missing.2 ⟨hk, hlen⟩)
    · exact hi.known c fa hc k hk

theorem inv_handleFunc (call : RecvCall) {st : State} (f : RecvFunc) (hi : Inv st) :
    Inv (handleFunc lookups call st f) := by
  obtain ⟨h, hid, -, -, heq⟩ | ⟨reqs, ids, -, hm, hq, heq⟩ := handleFunc_cases lookups call st f
  · exact heq ▸ hi.handOver lookups hid
  · exact heq ▸ hi.store hm hq

/-! ### A response arrives -/

/-- A stored call after a response; `none` when it has all its arguments. -/
def InflightFuncArgs.drop (key : Bytes) (fa : InflightFuncArgs) : Option InflightFuncArgs :=
  if fa.inflightArgs.erase key = ∅ then none
  else some { fa with inflightArgs := fa.inflightArgs.erase key }

/-- What passing a response on to the calls `cids` does. -/
structure Responded (key : Bytes) (cids : List ℕ) (st st' : State) : Prop where
  callId : st'.callId = st.callId
  keyCallIdMap : st'.keyCallIdMap = st.keyCallIdMap
  sub : st.keyLenMap.Sub st'.keyLenMap
  get? : ∀ c, st'.callIdInflightArgsMap.get? c =
    if c ∈ cids then (st.callIdInflightArgsMap.get? c).bind (·.drop key)
    else st.callIdInflightArgsMap.get? c
  callId_mem : ∀ h ∈ st'.handOffs, h ∈ st.handOffs ∨ h.callId ∈ cids
  handOffsOf : ∀ c, c ∉ cids ∨ (st.callIdInflightArgsMap.get? c).bind (·.drop key) ≠ none →
    st'.handOffsOf c = st.handOffsOf c
  handOffsOf_complete : ∀ c ∈ cids, ∀ fa, st.callIdInflightArgsMap.get? c = some fa →
    fa.drop key = none → ∃ h : HandOff, h.Passes fa ∧ st'.handOffsOf c = st.handOffsOf c ++ [h]

/-- The calls `cids` are stored, and the lengths of the keys that they do not wait for, apart from
`key`, are known. -/
def Ready (key : Bytes) (cids : List ℕ) (st : State) : Prop :=
  ∀ c ∈ cids, ∃ fa, st.callIdInflightArgsMap.get? c = some fa ∧
    ∀ k ∈ fa.keyArgs, k ∈ fa.inflightArgs.erase key ∨ k ∈ st.keyLenMap.keys

theorem HandOff.Passes.congr {h : HandOff} {fa fa' : InflightFuncArgs} {s : Finset Bytes}
    (hp : h.Passes fa) (hfa : fa' = { fa with inflightArgs := s }) : h.Passes fa' := by
  subst hfa
  exact ⟨hp.funcName, hp.sessionId, hp.argFlag, hp.cpuCores, hp.memoryMb, hp.exists_lengths⟩

/-- The last missing key of a call: the call is handed over and forgotten. -/
theorem responded_of_last {key : Bytes} {st : State} {cid : ℕ} {fa : InflightFuncArgs}
    (hfa : st.callIdInflightArgsMap.get? cid = some fa)
    (hk : ∀ k ∈ fa.keyArgs, k ∈ st.keyLenMap.keys) (he : fa.inflightArgs.erase key = ∅) :
    Responded key [cid] st (respond lookups key st cid) := by
  have hdrop : fa.drop key = none := if_pos he
  unfold respond
  simp only [hfa, Option.getD_some]
  set app := (st.funcAppMap.get? fa.funcName).getD ""
  set fa' := { fa with inflightArgs := fa.inflightArgs.erase key } with hfa'
  set mid : State := { st with
    callIdInflightArgsMap := st.callIdInflightArgsMap.set cid fa'
    funcAppMap := st.funcAppMap.touch fa.funcName "" }
  obtain ⟨h, hid, hpass, heq⟩ := scheduleWithKeys_spec lookups mid cid app fa' hk
  rw [if_pos he, heq]
  have happ := handOffsOf_append
    (show (scheduleFuncCall lookups mid h).handOffs = st.handOffs ++ [h] from rfl)
  refine ⟨rfl, rfl, sub_scheduleFuncCall lookups mid h, fun c => ?_, fun h' hh' => ?_,
    fun c hc => ?_, fun c hc fa₁ hfa₁ _ => ?_⟩
  · show ((st.callIdInflightArgsMap.set cid fa').erase cid).get? c = _
    rw [Dict.get?_erase, Dict.get?_set]
    by_cases hc : c = cid
    · simp [hc, hfa, hdrop]
    · simp [hc]
  · obtain hh' | hh' := List.mem_append.1 hh'
    · exact .inl hh'
    · obtain rfl := List.mem_singleton.1 hh'
      exact .inr (List.mem_singleton.2 hid)
  · have hne : h.callId ≠ c := by
      rintro rfl
      obtain hc | hc := hc
      · exact hc (List.mem_singleton.2 hid)
      · exact hc (by rw [hid, hfa]; exact hdrop)
    exact (happ c).trans (by rw [if_neg hne, List.append_nil])
  · obtain rfl := List.mem_singleton.1 hc
    obtain rfl := Option.some.inj (hfa.symm.trans hfa₁)
    exact ⟨h, hpass.congr (s := fa.inflightArgs) rfl, (happ c).trans (by rw [if_pos hid])⟩

/-- A call that waits for another key, too, stays stored. -/
theorem responded_of_waiting {key : Bytes} {st : State} {cid : ℕ} {fa : InflightFuncArgs}
    (hfa : st.callIdInflightArgsMap.get? cid = some fa) (he : fa.inflightArgs.erase key ≠ ∅) :
    Responded key [cid] st (respond lookups key st cid) := by
  have hdrop : fa.drop key = some { fa with inflightArgs := fa.inflightArgs.erase key } :=
    if_neg he
  unfold respond
  simp only [hfa, Option.getD_some]
  rw [if_neg he]
  refine ⟨rfl, rfl, Dict.Sub.refl _, fun c => ?_, fun h' hh' => .inl hh', fun c _ => rfl,
    fun c hc fa₁ hfa₁ hd => ?_⟩
  · show (st.callIdInflightArgsMap.set cid _).get? c = _
    rw [Dict.get?_set]
    by_cases hc : c = cid
    · simp [hc, hfa, hdrop]
    · simp [hc]
  · obtain rfl := List.mem_singleton.1 hc
    obtain rfl := Option.some.inj (hfa.symm.trans hfa₁)
    exact absurd (hdrop.symm.trans hd) (by simp)

theorem responded_respond {key : Bytes} {st : State} {cid : ℕ} (hr : Ready key [cid] st) :
    Responded key [cid] st (respond lookups key st cid) := by
  obtain ⟨fa, hfa, hk⟩ := hr cid (List.mem_singleton.2 rfl)
  by_cases he : fa.inflightArgs.erase key = ∅
  · have hk' : ∀ k ∈ fa.keyArgs, k ∈ st.keyLenMap.keys := fun k hm =>
      (hk k hm).resolve_left (by simp [he])
    exact responded_of_last lookups hfa hk' he
  · exact responded_of_waiting lookups hfa he

theorem Responded.trans {key : Bytes} {a b : List ℕ} {x y z : State} (hd : a.Disjoint b)
    (hxy : Responded key a x y) (hyz : Responded key b y z) : Responded key (a ++ b) x z := by
  have hleft : ∀ c ∈ a, c ∉ b := fun c ha hb => hd ha hb
  refine ⟨hyz.callId.trans hxy.callId, hyz.keyCallIdMap.trans hxy.keyCallIdMap,
    hxy.sub.trans hyz.sub, fun c => ?_, fun h hh => ?_, fun c hc => ?_, fun c hc fa hfa hdrop => ?_⟩
  · rw [hyz.get?, hxy.get?]
    by_cases ha : c ∈ a
    · simp [ha, hleft c ha]
    · simp [ha]
  · obtain hh | hh := hyz.callId_mem h hh
    · obtain hh | hh := hxy.callId_mem h hh
      · exact .inl hh
      · exact .inr (List.mem_append_left b hh)
    · exact .inr (List.mem_append_right a hh)
  · rw [hyz.handOffsOf c, hxy.handOffsOf c]
    · exact hc.imp_left fun h ha => h (List.mem_append_left b ha)
    · by_cases ha : c ∈ a
      · exact .inl (hleft c ha)
      · rw [hxy.get?, if_neg ha]
        exact hc.imp_left fun h hb => h (List.mem_append_right a hb)
  · by_cases ha : c ∈ a
    · obtain ⟨h, hp, heq⟩ := hxy.handOffsOf_complete c ha fa hfa hdrop
      exact ⟨h, hp, by rw [hyz.handOffsOf c (.inl (hleft c ha)), heq]⟩
    · have hb : c ∈ b := (List.mem_append.1 hc).resolve_left ha
      obtain ⟨h, hp, heq⟩ := hyz.handOffsOf_complete c hb fa
        (by rw [hxy.get?, if_neg ha, hfa]) hdrop
      exact ⟨h, hp, by rw [heq, hxy.handOffsOf c (.inl ha)]⟩

/-- A response passed on to other calls leaves a call ready. -/
theorem Ready.of_responded {key : Bytes} {a b : List ℕ} {st st' : State} (hr : Ready key b st)
    (hd : a.Disjoint b) (h : Responded key a st st') : Ready key b st' := by
  intro c hc
  obtain ⟨fa, hfa, hk⟩ := hr c hc
  refine ⟨fa, ?_, fun k hm => (hk k hm).imp_right h.sub.mem_keys⟩
  rw [h.get?, if_neg fun ha => hd ha hc, hfa]

/-- The whole loop; every id that it looks up is stored at that moment. -/
theorem responded_foldl {key : Bytes} {st : State} {cids : List ℕ} (hn : cids.Nodup)
    (hr : Ready key cids st) : Responded key cids st (cids.foldl (respond lookups key) st) ∧
      Runs.Along (respond lookups key) (fun st c => c ∈ st.callIdInflightArgsMap.keys) st cids := by
  induction cids generalizing st with
  | nil =>
    refine ⟨⟨rfl, rfl, Dict.Sub.refl _, by simp, fun h hh => .inl hh, fun _ _ => rfl, ?_⟩, trivial⟩
    simp
  | cons c cids ih =>
    have hc : Ready key [c] st := fun c' hc' => hr c' (by simp_all)
    have hd : [c].Disjoint cids := by simpa using (List.nodup_cons.1 hn).1
    have h1 := responded_respond lookups hc
    have hr' : Ready key cids st := fun c' hc' => hr c' (List.mem_cons_of_mem c hc')
    obtain ⟨h2, halong⟩ := ih (List.nodup_cons.1 hn).2 (hr'.of_responded hd h1)
    obtain ⟨fa, hfa, -⟩ := hc c (List.mem_singleton.2 rfl)
    exact ⟨h1.trans hd h2, Dict.mem_keys_iff.2 ⟨fa, hfa⟩, halong⟩

/-- The state in which the loop over the waiting calls starts. -/
def State.withLen (st : State) (key : Bytes) (size : ℕ) : State :=
  { st with keyLenMap := st.keyLenMap.set key size }

theorem ready_withLen {st : State} (hi : Inv st) (key : Bytes) (size : ℕ) :
    Ready key (st.callIds key) (st.withLen key size) := by
  intro c hc
  obtain ⟨fa, hfa, -⟩ := (hi.mem_callIds_iff key c).1 hc
  refine ⟨fa, hfa, fun k hk => ?_⟩
  show _ ∨ k ∈ (st.keyLenMap.set key size).keys
  rw [Finset.mem_erase, Dict.mem_keys_set]
  by_cases hkey : k = key
  · exact .inr (.inl hkey)
  · exact (hi.known c fa hfa k hk).imp (fun h => ⟨hkey, h⟩) .inr

theorem handleDataResp_spec {st : State} (hi : Inv st) (key : Bytes) (size : ℕ) :
    ∃ mid, Responded key (st.callIds key) (st.withLen key size) mid ∧
      handleDataResp lookups st key size =
        { mid with keyCallIdMap := st.keyCallIdMap.erase key } := by
  obtain ⟨h, -⟩ :=
    responded_foldl lookups (hi.nodup_callIds key) (ready_withLen hi key size)
  unfold handleDataResp
  cases hget : st.keyCallIdMap.get? key with
  | none =>
    have hids : st.callIds key = [] := by simp [State.callIds, hget]
    rw [hids] at h ⊢
    refine ⟨_, h, ?_⟩
    rw [Dict.erase_of_notMem (Dict.get?_eq_none_iff.1 hget)]
    simp only [hget]
    rfl
  | some cids =>
    have hids : st.callIds key = cids := by simp [State.callIds, hget]
    rw [hids] at h ⊢
    refine ⟨_, h, ?_⟩
    have hmap := h.keyCallIdMap
    simp only [State.withLen] at hmap
    simp only [hget, hmap]
    rfl

section Responded

variable {st mid : State} {key : Bytes} {size : ℕ}

/-- A call stored after the loop is an old one without the key. -/
theorem Responded.exists_old (h : Responded key (st.callIds key) (st.withLen key size) mid)
    (hi : Inv st) {c : ℕ} {fa' : InflightFuncArgs}
    (hc : mid.callIdInflightArgsMap.get? c = some fa') :
    ∃ fa, st.callIdInflightArgsMap.get? c = some fa ∧
      fa' = { fa with inflightArgs := fa.inflightArgs.erase key } ∧ fa'.inflightArgs.Nonempty := by
  rw [h.get?] at hc
  split_ifs at hc with hmem
  · obtain ⟨fa, hfa, hdrop⟩ := Option.bind_eq_some_iff.1 hc
    unfold InflightFuncArgs.drop at hdrop
    split_ifs at hdrop with he
    obtain rfl := Option.some.inj hdrop
    exact ⟨fa, hfa, rfl, Finset.nonempty_iff_ne_empty.2 he⟩
  · have hn : key ∉ fa'.inflightArgs := fun hk =>
      hmem ((hi.mem_callIds_iff key c).2 ⟨fa', hc, hk⟩)
    refine ⟨fa', hc, ?_, hi.inflightArgs_nonempty c fa' hc⟩
    rw [Finset.erase_eq_of_notMem hn]

/-- An old call that waits for another key is still stored. -/
theorem Responded.exists_new (h : Responded key (st.callIds key) (st.withLen key size) mid)
    {c : ℕ} {fa : InflightFuncArgs} (hfa : st.callIdInflightArgsMap.get? c = some fa) {k : Bytes}
    (hk : k ∈ fa.inflightArgs) (hne : k ≠ key) :
    ∃ fa', mid.callIdInflightArgsMap.get? c = some fa' ∧ k ∈ fa'.inflightArgs := by
  rw [h.get?]
  split_ifs
  · have hk' : k ∈ fa.inflightArgs.erase key := Finset.mem_erase.2 ⟨hne, hk⟩
    have hdrop : fa.drop key = some { fa with inflightArgs := fa.inflightArgs.erase key } :=
      if_neg (Finset.ne_empty_of_mem hk')
    exact ⟨_, by rw [State.withLen, hfa]; exact hdrop, hk'⟩
  · exact ⟨fa, hfa, hk⟩

theorem callIds_eraseKey (k : Bytes) :
    State.callIds { mid with keyCallIdMap := st.keyCallIdMap.erase key } k =
      if k = key then [] else st.callIds k := by
  simp only [State.callIds, Dict.get?_erase]
  split_ifs <;> rfl

end Responded

theorem inv_handleDataResp {st : State} (hi : Inv st) (key : Bytes) (size : ℕ) :
    Inv (handleDataResp lookups st key size) := by
  obtain ⟨mid, h, heq⟩ := handleDataResp_spec lookups hi key size
  rw [heq]
  refine ⟨⟨fun k c => ?_, fun c fa' hc => ?_⟩, fun k => ?_, fun c fa' hc => ?_, fun h' hh' => ?_,
    fun c fa' hc k hk => ?_⟩
  · rw [callIds_eraseKey]
    split_ifs with hk
    · -- nobody waits for the key any more
      subst hk
      simp only [List.not_mem_nil, false_iff, not_exists, not_and]
      intro fa' hc
      obtain ⟨fa, -, rfl, -⟩ := h.exists_old hi hc
      simp
    · rw [hi.mem_callIds_iff]
      constructor
      · rintro ⟨fa, hfa, hkfa⟩
        exact h.exists_new hfa hkfa hk
      · rintro ⟨fa', hc, hkfa⟩
        obtain ⟨fa, hfa, rfl, -⟩ := h.exists_old hi hc
        exact ⟨fa, hfa, (Finset.mem_erase.1 hkfa).2⟩
  · obtain ⟨-, -, -, hne⟩ := h.exists_old hi hc
    exact hne
  · rw [callIds_eraseKey]
    split_ifs
    · exact List.nodup_nil
    · exact hi.nodup_callIds k
  · obtain ⟨fa, hfa, -⟩ := h.exists_old hi hc
    exact lt_of_lt_of_eq (hi.lt_callId c fa hfa) h.callId.symm
  · refine lt_of_lt_of_eq ?_ h.callId.symm
    obtain hh' | hh' := h.callId_mem h' hh'
    · exact hi.handOff_lt_callId h' hh'
    · obtain ⟨fa, hfa, -⟩ := (hi.mem_callIds_iff key _).1 hh'
      exact hi.lt_callId _ fa hfa
  · obtain ⟨fa, hfa, rfl, -⟩ := h.exists_old hi hc
    have hset : k ∈ (st.keyLenMap.set key size).keys → k ∈ mid.keyLenMap.keys := h.sub.mem_keys
    rw [Dict.mem_keys_set] at hset
    by_cases hkey : k = key
    · exact .inr (hset (.inl hkey))
    · exact (hi.known c fa hfa k hk).imp
        (fun hk => Finset.mem_erase.2 ⟨hkey, hk⟩) (fun hk => hset (.inr hk))

/-! ### The invariant of the loop -/

/-- The invariant survives what only stores lengths and skips ids. -/
theorem Inv.grow {st : State} (hi : Inv st) {n : ℕ} {lens : Dict Bytes ℕ}
    {apps : Dict String String} (hn : st.callId ≤ n)
    (hl : ∀ k ∈ st.keyLenMap.keys, k ∈ lens.keys) :
    Inv { st with callId := n, keyLenMap := lens, funcAppMap := apps } where
  mem_callIds_iff := hi.mem_callIds_iff
  inflightArgs_nonempty := hi.inflightArgs_nonempty
  nodup_callIds := hi.nodup_callIds
  lt_callId c fa hc := (hi.lt_callId c fa hc).trans_le hn
  handOff_lt_callId h hh := (hi.handOff_lt_callId h hh).trans_le hn
  known c fa hc k hk := (hi.known c fa hc k hk).imp_right (hl k)

theorem inv_init : Inv {} where
  mem_callIds_iff k c := by simp [State.callIds]
  inflightArgs_nonempty c fa h := by simp at h
  nodup_callIds k := List.nodup_nil
  lt_callId c fa h := by simp at h
  handOff_lt_callId h hh := by simp at hh
  known c fa h := by simp at h

theorem inv_foldl_handleFunc (call : RecvCall) {st : State} (hi : Inv st) (fs : List RecvFunc) :
    Inv (fs.foldl (handleFunc lookups call) st) :=
  Runs.foldl_invariant (fun _ f _ h => inv_handleFunc lookups call f h) (Runs.along_true st fs) hi

/-- The lengths that the event stores without a response. -/
theorem keys_put_subset (lens : Dict Bytes ℕ) (objName : Bytes) (size : Option ℕ) {k : Bytes}
    (hk : k ∈ lens.keys) :
    k ∈ (match size with | none => lens | some n => lens.set objName n).keys := by
  cases size with
  | none => exact hk
  | some n => exact Dict.mem_keys_set.2 (.inr hk)

theorem inv_step {st : State} (hi : Inv st) (e : Event) : Inv (step lookups st e) := by
  cases e with
  | call call => exact inv_foldl_handleFunc lookups _ hi _
  | dataResp key size => exact inv_handleDataResp lookups hi key size
  | kvsGetResp objName size => exact hi.grow le_rfl fun k hk => Dict.mem_keys_set.2 (.inr hk)
  | put objName size looked activeTriggers =>
    exact hi.grow (Nat.le_add_right _ _) fun k hk =>
      (Dict.sub_foldl_touch _ looked 0).mem_keys (keys_put_subset _ objName size hk)
  | registerApp appName functions => exact hi.grow le_rfl fun k hk => hk
  | other looked => exact hi.grow le_rfl fun k hk => (Dict.sub_foldl_touch _ looked 0).mem_keys hk

theorem inv_run (events : List Event) : Inv (run lookups events) :=
  Runs.foldl_invariant (P := Inv) (fun _ e _ h => inv_step lookups h e)
    (Runs.along_true _ events) inv_init

/-! ### One requested function through a run -/

/-- The function with id `c` waits for the keys `fa.inflightArgs`, or has been handed over. -/
structure Tracks (st : State) (c : ℕ) (fa : InflightFuncArgs) : Prop where
  lt_callId : c < st.callId
  complete : fa.inflightArgs = ∅ → st.callIdInflightArgsMap.get? c = none ∧
    ∃ h : HandOff, h.Passes fa ∧ st.handOffsOf c = [h]
  waiting : fa.inflightArgs ≠ ∅ → st.callIdInflightArgsMap.get? c = some fa ∧
    st.handOffsOf c = []

theorem Tracks.frame {st st' : State} {c : ℕ} {fa : InflightFuncArgs} (ht : Tracks st c fa)
    (hid : st.callId ≤ st'.callId)
    (hget : st'.callIdInflightArgsMap.get? c = st.callIdInflightArgsMap.get? c)
    (hoff : st'.handOffsOf c = st.handOffsOf c) : Tracks st' c fa where
  lt_callId := ht.lt_callId.trans_le hid
  complete he := by rw [hget, hoff]; exact ht.complete he
  waiting he := by rw [hget, hoff]; exact ht.waiting he

theorem tracks_arrival (call : RecvCall) {st : State} (hi : Inv st) {f : RecvFunc}
    (hf : 0 < f.isFuncArgKey) :
    Tracks (handleFunc lookups call st f) st.callId (arrival st call f) := by
  have hnil := handOffsOf_eq_nil hi
  obtain ⟨h, hid, -, hpass, heq⟩ | ⟨reqs, ids, -, hm, -, heq⟩ := handleFunc_cases lookups call st f
  · obtain ⟨hm, hpass⟩ := hpass hf
    have happ := handOffsOf_append
      (show (scheduleFuncCall lookups st h).handOffs = st.handOffs ++ [h] from rfl) st.callId
    rw [heq]
    refine ⟨Nat.lt_succ_self _, fun _ => ⟨hi.get?_callId, h, hpass, ?_⟩, fun he => absurd hm he⟩
    exact happ.trans (by rw [hnil, if_pos hid, List.nil_append])
  · rw [heq]
    refine ⟨Nat.lt_succ_self _, fun he => absurd he hm.ne_empty, fun _ => ⟨?_, hnil⟩⟩
    show (st.callIdInflightArgsMap.set st.callId _).get? st.callId = _
    rw [Dict.get?_set, if_pos rfl]

theorem Tracks.handleFunc (call : RecvCall) {st : State} {c : ℕ} {fa : InflightFuncArgs}
    (ht : Tracks st c fa) (f : RecvFunc) : Tracks (handleFunc lookups call st f) c fa := by
  have hne : st.callId ≠ c := ht.lt_callId.ne'
  obtain ⟨h, hid, -, -, heq⟩ | ⟨reqs, ids, -, -, -, heq⟩ := handleFunc_cases lookups call st f
  · have happ := handOffsOf_append
      (show (scheduleFuncCall lookups st h).handOffs = st.handOffs ++ [h] from rfl) c
    rw [heq]
    refine ht.frame (Nat.le_succ _) rfl (happ.trans ?_)
    rw [if_neg (hid ▸ hne), List.append_nil]
  · rw [heq]
    refine ht.frame (Nat.le_succ _) ?_ rfl
    show (st.callIdInflightArgsMap.set st.callId _).get? c = _
    rw [Dict.get?_set, if_neg hne.symm]

theorem Tracks.handleDataResp {st : State} (hi : Inv st) {c : ℕ} {fa : InflightFuncArgs}
    (ht : Tracks st c fa) (key : Bytes) (size : ℕ) :
    Tracks (handleDataResp lookups st key size) c
      { fa with inflightArgs := fa.inflightArgs.erase key } := by
  obtain ⟨mid, h, heq⟩ := handleDataResp_spec lookups hi key size
  rw [heq]
  by_cases hk : key ∈ fa.inflightArgs
  · -- the call is waiting for this key
    obtain ⟨hget, hoff⟩ := ht.waiting (Finset.ne_empty_of_mem hk)
    have hmem : c ∈ st.callIds key := (hi.mem_callIds_iff key c).2 ⟨fa, hget, hk⟩
    have hmid := h.get? c
    rw [if_pos hmem, State.withLen, hget, Option.bind_some] at hmid
    refine ⟨ht.lt_callId.trans_eq h.callId.symm, fun he => ?_, fun he => ?_⟩
    · have hdrop : fa.drop key = none := if_pos he
      obtain ⟨x, hp, hx⟩ := h.handOffsOf_complete c hmem fa hget hdrop
      refine ⟨hmid.trans hdrop, x, hp.congr rfl, hx.trans ?_⟩
      show st.handOffsOf c ++ [x] = [x]
      rw [hoff, List.nil_append]
    · have hdrop : fa.drop key = some { fa with inflightArgs := fa.inflightArgs.erase key } :=
        if_neg he
      refine ⟨hmid.trans hdrop, (h.handOffsOf c (.inr ?_)).trans hoff⟩
      simp [State.withLen, hget, hdrop]
  · -- the response does not concern the call, whether it waits or has been handed over
    have hnot : c ∉ st.callIds key := fun hmem => by
      obtain ⟨fa', hfa', hk'⟩ := (hi.mem_callIds_iff key c).1 hmem
      by_cases he : fa.inflightArgs = ∅
      · rw [(ht.complete he).1] at hfa'
        cases hfa'
      · obtain rfl := Option.some.inj ((ht.waiting he).1.symm.trans hfa')
        exact hk hk'
    rw [Finset.erase_eq_of_notMem hk]
    refine ht.frame h.callId.ge ?_ (h.handOffsOf c (.inl hnot))
    exact (h.get? c).trans (if_neg hnot)

/-- The keys of the responses among some events. -/
def responses (events : List Event) : Finset Bytes :=
  (events.filterMap fun | .dataResp key _ => some key | _ => none).toFinset

theorem mem_responses {events : List Event} {k : Bytes} :
    k ∈ responses events ↔ ∃ size, .dataResp k size ∈ events := by
  simp only [responses, List.mem_toFinset, List.mem_filterMap]
  constructor
  · rintro ⟨e, he, hk⟩
    cases e with
    | dataResp key size =>
      obtain rfl := Option.some.inj hk
      exact ⟨size, he⟩
    | _ => cases hk
  · rintro ⟨size, h⟩
    exact ⟨_, h, rfl⟩

theorem Tracks.step {st : State} (hi : Inv st) {c : ℕ} {fa : InflightFuncArgs}
    (ht : Tracks st c fa) (e : Event) :
    Tracks (step lookups st e) c
      { fa with inflightArgs := fa.inflightArgs \ responses [e] } := by
  cases e with
  | dataResp key size =>
    have he : fa.inflightArgs \ responses [.dataResp key size] = fa.inflightArgs.erase key := by
      simp [responses, Finset.sdiff_singleton_eq_erase]
    rw [he]
    exact ht.handleDataResp lookups hi key size
  | call call =>
    rw [show responses [.call call] = ∅ from rfl, Finset.sdiff_empty]
    exact Runs.foldl_invariant (P := (Tracks · c fa)) (fun _ f _ h => h.handleFunc lookups _ f)
      (Runs.along_true _ _) ht
  | kvsGetResp objName size =>
    rw [show responses [.kvsGetResp objName size] = ∅ from rfl, Finset.sdiff_empty]
    exact ht.frame le_rfl rfl rfl
  | put objName size looked activeTriggers =>
    rw [show responses [.put objName size looked activeTriggers] = ∅ from rfl, Finset.sdiff_empty]
    exact ht.frame (Nat.le_add_right _ _) rfl rfl
  | registerApp appName functions =>
    rw [show responses [.registerApp appName functions] = ∅ from rfl, Finset.sdiff_empty]
    exact ht.frame le_rfl rfl rfl
  | other looked =>
    rw [show responses [.other looked] = ∅ from rfl, Finset.sdiff_empty]
    exact ht.frame le_rfl rfl rfl

theorem Tracks.foldl {st : State} (hi : Inv st) {c : ℕ} {fa : InflightFuncArgs}
    (ht : Tracks st c fa) (events : List Event) :
    Tracks (events.foldl (Scheduler.step lookups) st) c
      { fa with inflightArgs := fa.inflightArgs \ responses events } := by
  induction events generalizing st fa with
  | nil =>
    rw [show responses [] = ∅ from rfl, Finset.sdiff_empty]
    exact ht
  | cons e events ih =>
    have happ : responses (e :: events) = responses [e] ∪ responses events := by
      ext k
      simp only [Finset.mem_union, mem_responses, List.mem_cons, List.not_mem_nil, or_false]
      constructor
      · rintro ⟨size, h | h⟩
        · exact .inl ⟨size, h⟩
        · exact .inr ⟨size, h⟩
      · rintro (⟨size, h⟩ | ⟨size, h⟩)
        · exact ⟨size, .inl h⟩
        · exact ⟨size, .inr h⟩
    rw [happ, show fa.inflightArgs \ (responses [e] ∪ responses events) =
      (fa.inflightArgs \ responses [e]) \ responses events from sdiff_sdiff_left.symm]
    exact ih (inv_step lookups hi e) (ht.step lookups hi e)

/-- The state in which the `i`-th function of a call is handled, after the events `before`. -/
def reach (before : List Event) (call : FunctionCall) (i : ℕ) : State :=
  ((handleFunctionCall call).funcs.take i).foldl (handleFunc lookups (handleFunctionCall call))
    (run lookups before)

/-! ### The lengths at a hand-off -/

/-- The state in which the `i`-th waiting call gets a response, after the events `before`. -/
def reachResp (before : List Event) (key : Bytes) (size i : ℕ) : State :=
  (((run lookups before).callIds key).take i).foldl (respond lookups key)
    ((run lookups before).withLen key size)

/-- At most one call is handed over, with the lengths of the state in which this is done. -/
def HandsOver (st st' : State) : Prop :=
  st'.handOffs = st.handOffs ∨
    ∃ h, st'.handOffs = st.handOffs ++ [h] ∧ h.keyLenMap = st.keyLenMap

theorem handsOver_handleFunc (call : RecvCall) (st : State) (f : RecvFunc) :
    HandsOver st (handleFunc lookups call st f) := by
  unfold handleFunc
  split_ifs with hkey
  · obtain ⟨reqs, ids, hst⟩ := (queried_foldl f.funcArgs (st, newInflight call f)).eq_state
    simp only
    split_ifs
    · -- the queries leave the lengths as they were
      rw [hst]
      exact .inr ⟨_, rfl, rfl⟩
    · rw [hst]
      exact .inl rfl
  · exact .inr ⟨_, rfl, rfl⟩

theorem handsOver_respond (key : Bytes) (st : State) (cid : ℕ) :
    HandsOver st (respond lookups key st cid) := by
  unfold respond
  simp only
  split_ifs
  · exact .inr ⟨_, rfl, rfl⟩
  · exact .inl rfl

theorem mem_handOffs_foldl {α : Type} {f : State → α → State} (hf : ∀ st a, HandsOver st (f st a))
    (l : List α) (st : State) {h : HandOff} (hh : h ∈ (l.foldl f st).handOffs) :
    h ∈ st.handOffs ∨ ∃ i < l.length, h.keyLenMap = ((l.take i).foldl f st).keyLenMap := by
  induction l generalizing st with
  | nil => exact .inl hh
  | cons a l ih =>
    obtain hh | ⟨i, hi, hlens⟩ := ih (f st a) hh
    · obtain hsame | ⟨h', happ, hlens⟩ := hf st a
      · exact .inl (hsame ▸ hh)
      · rw [happ] at hh
        obtain hh | hh := List.mem_append.1 hh
        · exact .inl hh
        · rw [List.mem_singleton.1 hh]
          exact .inr ⟨0, Nat.succ_pos _, hlens⟩
    · exact .inr ⟨i + 1, Nat.succ_lt_succ hi, hlens⟩

/-- The `key_len_map` of a state in which a call can be handed over: while a function of a call is
handled, or while a response is passed on to a waiting call. -/
def LengthsAt (events : List Event) (lens : Dict Bytes ℕ) : Prop :=
  (∃ before call after i, events = before ++ .call call :: after ∧
      i < (handleFunctionCall call).funcs.length ∧
      lens = (reach lookups before call i).keyLenMap) ∨
    ∃ before key size after i, events = before ++ .dataResp key size :: after ∧
      i < ((run lookups before).callIds key).length ∧
      lens = (reachResp lookups before key size i).keyLenMap

theorem LengthsAt.concat {lookups : ℕ → List Bytes} {events : List Event} {lens : Dict Bytes ℕ}
    (h : LengthsAt lookups events lens) (e : Event) : LengthsAt lookups (events ++ [e]) lens := by
  obtain ⟨before, call, after, i, rfl, hrest⟩ | ⟨before, key, size, after, i, rfl, hrest⟩ := h
  · exact .inl ⟨before, call, after ++ [e], i, by simp, hrest⟩
  · exact .inr ⟨before, key, size, after ++ [e], i, by simp, hrest⟩

/-- Every hand-off of a run has the `key_len_map` of the state in which it was made. -/
theorem lengthsAt_of_mem_handOffs {events : List Event} {h : HandOff}
    (hh : h ∈ (run lookups events).handOffs) : LengthsAt lookups events h.keyLenMap := by
  induction events using List.reverseRecOn with
  | nil => cases hh
  | append_singleton events e ih =>
    rw [run, List.foldl_append, List.foldl_cons, List.foldl_nil] at hh
    cases e with
    | call call =>
      obtain hh | ⟨i, hi, hlens⟩ :=
        mem_handOffs_foldl (handsOver_handleFunc lookups (handleFunctionCall call)) _ _ hh
      · exact (ih hh).concat _
      · exact .inl ⟨events, call, [], i, rfl, hi, hlens⟩
    | dataResp key size =>
      have hloop : h ∈ (((run lookups events).callIds key).foldl (respond lookups key)
          ((run lookups events).withLen key size)).handOffs := by
        rw [step, handleDataResp] at hh
        simp only at hh
        rw [State.callIds]
        split at hh
        · next hnone =>
          rw [run, hnone]
          exact hh
        · next cids hsome =>
          rw [run, hsome]
          exact hh
      obtain hh | ⟨i, hi, hlens⟩ := mem_handOffs_foldl (handsOver_respond lookups key) _ _ hloop
      · exact (ih hh).concat _
      · exact .inr ⟨events, key, size, [], i, rfl, hi, hlens⟩
    | _ => exact (ih hh).concat _

/-- Every key argument was known when the function arrived in the state `s`, or has had a response
in the events since. -/
def Complete (s : State) (f : RecvFunc) (after : List Event) : Prop :=
  ∀ k ∈ f.funcArgs, k ∈ s.keyLenMap.keys ∨ ∃ size, .dataResp k size ∈ after

theorem complete_iff {s : State} {f : RecvFunc} {after : List Event} :
    Complete s f after ↔ s.missing f.funcArgs \ responses after = ∅ := by
  simp only [Finset.sdiff_eq_empty_iff_subset, Finset.subset_iff, State.mem_missing,
    mem_responses, Complete, and_imp, ← or_iff_not_imp_left]

/-- A requested function with key arguments, from its arrival to the end of the run. -/
theorem tracks_run (before after : List Event) {call : FunctionCall} {i : ℕ} {f : RecvFunc}
    (hf : (handleFunctionCall call).funcs[i]? = some f) (hkey : 0 < f.isFuncArgKey) :
    Tracks (run lookups (before ++ .call call :: after)) (reach lookups before call i).callId
      { arrival (reach lookups before call i) (handleFunctionCall call) f with
        inflightArgs := (reach lookups before call i).missing f.funcArgs \ responses after } := by
  set recv := handleFunctionCall call
  obtain ⟨hi, rfl⟩ := List.getElem?_eq_some_iff.1 hf
  have hreach : Inv (reach lookups before call i) :=
    inv_foldl_handleFunc lookups recv (inv_run lookups before) _
  have hsplit : recv.funcs = recv.funcs.take i ++ recv.funcs[i] :: recv.funcs.drop (i + 1) := by
    rw [← List.drop_eq_getElem_cons hi, List.take_append_drop]
  have hstep : step lookups (run lookups before) (.call call) =
      (recv.funcs.drop (i + 1)).foldl (handleFunc lookups recv)
        (handleFunc lookups recv (reach lookups before call i) recv.funcs[i]) := by
    show recv.funcs.foldl (handleFunc lookups recv) (run lookups before) = _
    conv_lhs => rw [hsplit, List.foldl_append, List.foldl_cons]
    rfl
  have hcall : Tracks (step lookups (run lookups before) (.call call))
      (reach lookups before call i).callId (arrival (reach lookups before call i) recv
        recv.funcs[i]) := by
    rw [hstep]
    exact Runs.foldl_invariant (P := (Tracks · _ _)) (fun _ g _ h => h.handleFunc lookups recv g)
      (Runs.along_true _ _) (tracks_arrival lookups recv hreach hkey)
  have hinv := inv_step lookups (inv_run lookups before) (.call call)
  rw [run, List.foldl_append, List.foldl_cons]
  exact hcall.foldl lookups hinv after

/-- **Waiting calls are scheduled exactly once and only when complete.**  After every sequence of
events the two maps agree, every stored call waits for some key, and a response looks up no id that
is not stored.  A requested function with key arguments gets a new id; it has been handed over
once, with the lengths of its keys in the order of its arguments, if every key was known when it
arrived or has had a response since, and otherwise it has not been handed over. -/
theorem waiting_calls_scheduled_once (events : List Event) :
    Consistent (run lookups events) ∧
    (∀ key size, Runs.Along (respond lookups key) (fun st c => c ∈ st.callIdInflightArgsMap.keys)
      ((run lookups events).withLen key size) ((run lookups events).callIds key)) ∧
    ∀ before call after i f, events = before ++ .call call :: after →
      (handleFunctionCall call).funcs[i]? = some f → 0 < f.isFuncArgKey →
      let s := reach lookups before call i
      s.handOffsOf s.callId = [] ∧ s.callId < (run lookups events).callId ∧
      (Complete s f after → ∃ h : HandOff, h.Passes (arrival s (handleFunctionCall call) f) ∧
        (run lookups events).handOffsOf s.callId = [h]) ∧
      (¬ Complete s f after → (run lookups events).handOffsOf s.callId = []) := by
  have hi := inv_run lookups events
  refine ⟨hi.toConsistent, fun key size => ?_, ?_⟩
  · exact (responded_foldl lookups (hi.nodup_callIds key) (ready_withLen hi key size)).2
  · rintro before call after i f rfl hf hkey
    have ht := tracks_run lookups before after hf hkey
    have hreach : Inv (reach lookups before call i) :=
      inv_foldl_handleFunc lookups _ (inv_run lookups before) _
    refine ⟨handOffsOf_eq_nil hreach, ht.lt_callId, fun hc => ?_, fun hc => ?_⟩
    · obtain ⟨-, h, hp, heq⟩ := ht.complete (complete_iff.1 hc)
      exact ⟨h, hp.congr rfl, heq⟩
    · exact (ht.waiting fun he => hc (complete_iff.2 he)).2

end Handlers

/-- One function with the key arguments `k`, `l`, `k`. -/
def sampleCall : FunctionCall where
  appName := "app"
  sessionId := "session"
  requests := [{
    name := "reduce"
    arguments := [{ body := ascii "k", argFlag := 1 }, { body := ascii "l", argFlag := 1 },
      { body := ascii "k", argFlag := 1 }] }]

/-- A put of `k` does not complete the call; the response for `k` does. -/
theorem waiting_calls_scheduled_once_sample :
    (run (fun _ => []) [.call sampleCall, .dataResp (ascii "l") 5,
      .put (ascii "k") (some 3) [] 1]).handOffsOf 0 = [] ∧
    ∃ h : HandOff, h.Passes (arrival {} (handleFunctionCall sampleCall)
        (recvFunc (sampleCall.requests.head (by decide)))) ∧
      (run (fun _ => []) [.call sampleCall, .dataResp (ascii "l") 5,
        .put (ascii "k") (some 3) [] 1, .dataResp (ascii "k") 3]).handOffsOf 0 = [h] := by
  have h1 := (waiting_calls_scheduled_once (fun _ => []) _).2.2 [] sampleCall
    [.dataResp (ascii "l") 5, .put (ascii "k") (some 3) [] 1] 0 _ rfl rfl (by decide)
  have h2 := (waiting_calls_scheduled_once (fun _ => []) _).2.2 [] sampleCall
    [.dataResp (ascii "l") 5, .put (ascii "k") (some 3) [] 1, .dataResp (ascii "k") 3] 0 _ rfl rfl
    (by decide)
  refine ⟨h1.2.2.2 fun hc => ?_, h2.2.2.1 fun k hk => ?_⟩
  · obtain hk | ⟨size, hk⟩ := hc (ascii "k") (by decide)
    · exact absurd hk (by decide)
    · simp only [List.mem_cons, Event.dataResp.injEq, reduceCtorEq, List.not_mem_nil,
        or_false] at hk
      exact absurd hk.1 (by decide)
  · right
    have hk' : k = ascii "k" ∨ k = ascii "l" := by
      simpa [recvFunc, sampleCall, or_comm, or_assoc] using hk
    obtain rfl | rfl := hk'
    · exact ⟨3, by simp⟩
    · exact ⟨5, by simp⟩

end Demeter.Scheduler
