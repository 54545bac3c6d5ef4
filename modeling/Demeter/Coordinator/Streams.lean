import Demeter.Coordinator.ByBatchSize
import Demeter.Coordinator.DynamicGroup
import Demeter.Lib.Mirror

/-!
# Triggers for streams of objects

Triggers that call for each object, triggers by `k` of `n` redundant objects, and triggers by time.

* `calls_each`: an immediate trigger and a trigger by name call once for each object, at its local
  scheduler, whatever the interleaving;
* `calls_redundant`: if all objects come from one local scheduler, a redundant trigger calls it with
  the first `k` objects of each round.  A round has `n` objects, but at least `k + 1`: the object
  that ends a round is never one that is called with;
* a trigger by time is installed at the coordinator only.  `byTime_conserves` says that its calls
  split the objects in the order of their arrival, and when none of the calls is dropped,
  `byTime_rate` that it calls at most once in each window.
-/

namespace Demeter.Coordinator.Notify

open Demeter.Common

variable {ι : Type} [DecidableEq ι]

/-- The objects of the bucket, in the order in which they were put. -/
def objects (s : State ι) : List BucketKey := s.puts.map fun p => BucketKey.ofSessionKey p.2

section Runs

variable {t : Trigger} {s s' : State ι}
  {a : TwoLevel.State ι TriggerState BucketKey String (BucketKey × TriggerAction)}

omit [DecidableEq ι] in
theorem Projects.callsOf_fired (h : Projects t.triggerName t s a) :
    callsOf t.triggerName s = a.fired.map Prod.snd := by
  rw [h.fired, List.map_map]
  rfl

omit [DecidableEq ι] in
theorem Projects.objects_eq (h : Projects t.triggerName t s a) :
    a.puts.map Prod.snd = objects s := by
  rw [h.puts, List.map_map]
  rfl

/-! ### A call for each object -/

/-- The trigger calls for this object alone. -/
def Wants (params : TriggerParams) (bucketKey : BucketKey) : Prop :=
  params = .immediate ∨ params = .byName bucketKey.key

instance Wants.decidable (params : TriggerParams) (bucketKey : BucketKey) :
    Decidable (Wants params bucketKey) :=
  inferInstanceAs (Decidable (_ ∨ _))

/-- The call for one object. -/
def callFor (t : Trigger) (bucketKey : BucketKey) : TriggerAction :=
  ⟨t.targetFunction, [bucketKey.sessionKey]⟩

theorem stateless_machine (ht : t.params = .immediate ∨ ∃ keyName, t.params = .byName keyName) :
    TwoLevel.Stateless (machine t)
      fun b => if Wants t.params b then [(b, callFor t b)] else [] where
  new st b := by
    obtain ht | ⟨keyName, ht⟩ := ht
    · simp [machine, Trigger.actionForNewObject, ht, Wants, callFor]
    · by_cases hkey : b.key = keyName
      · simp [machine, Trigger.actionForNewObject, ht, Wants, callFor, hkey]
      · simp [machine, Trigger.actionForNewObject, ht, Wants, hkey, Ne.symm hkey]

/-- **In every interleaving, an immediate trigger calls once for each object, and a trigger by name
once for each object with the key, in the order in which they were put.** -/
theorem calls_each (ht : t.params = .immediate ∨ ∃ keyName, t.params = .byName keyName)
    {coordinator : List TriggerObject} {scheduler : ι → List TriggerObject}
    (hinstalled : Installed t coordinator scheduler) {events : List (Event ι)}
    (hrun : Runs.exec step (initial coordinator scheduler) events = some s) :
    callsOf t.triggerName s = ((objects s).filter (Wants t.params)).map (callFor t) := by
  have htype : t.getType ≠ .byTime := by
    obtain ht | ⟨keyName, ht⟩ := ht <;> simp [Trigger.getType, ht]
  obtain ⟨a, hp, hfired⟩ := Runs.exec_invariant
    (P := fun s => ∃ a, Projects t.triggerName t s a ∧
      TwoLevel.Fired (fun b => if Wants t.params b then [(b, callFor t b)] else []) a)
    (fun s e s' _ hs' hP => by
      obtain ⟨a, hp, hfired⟩ := hP
      obtain ⟨a', hp', rfl | hstep⟩ := hp.step htype hs'
      · exact ⟨a', hp', hfired⟩
      · exact ⟨a', hp', hfired.step (stateless_machine ht) hstep⟩)
    (Runs.allowed_true _ _) hrun
    ⟨_, hinstalled.projects, fun _ _ hq => by simp at hq, fun _ => rfl, rfl⟩
  rw [hp.callsOf_fired, hfired.fired, ← hp.objects_eq, List.filter_map, List.map_flatMap]
  induction a.puts with
  | nil => rfl
  | cons p puts ih =>
    rw [List.flatMap_cons, ih]
    by_cases hp : Wants t.params p.2 <;> simp [hp]

/-! ### A named object of two local schedulers -/

/-- A trigger by name. -/
def byNameTrigger : Trigger where
  targetFunction := "resize"
  triggerName := "t_image"
  params := .byName "image"

theorem installed_byNameTrigger :
    Installed byNameTrigger [⟨byNameTrigger, {}⟩] (fun _ : Bool => [⟨byNameTrigger, {}⟩]) where
  coordinator := rfl
  scheduler _ := rfl

/-- Two objects with the key and one without it. -/
def imageEvents : List (Event Bool) :=
  [.put false "image0000000000000000" 0, .put true "image1111111111111111" 0, .notify true 0,
    .put false "text0000000000000000" 0, .notify false 0]

theorem calls_each_imageEvents :
    ∃ s, Runs.exec step (initial [⟨byNameTrigger, {}⟩] fun _ => [⟨byNameTrigger, {}⟩])
        imageEvents = some s ∧
      callsOf "t_image" s =
        ((objects s).filter (Wants byNameTrigger.params)).map (callFor byNameTrigger) := by
  have hsome : (Runs.exec step (initial [⟨byNameTrigger, {}⟩] fun _ => [⟨byNameTrigger, {}⟩])
      imageEvents).isSome := by decide +kernel
  obtain ⟨s, hs⟩ := Option.isSome_iff_exists.1 hsome
  exact ⟨s, hs, calls_each (.inr ⟨"image", rfl⟩) installed_byNameTrigger hs⟩

/-! ### One local scheduler -/

/-- Objects are put at this local scheduler only. -/
def PutAt (worker : ι) : Event ι → Prop
  | .put w _ _ => w = worker
  | .notify _ _ | .clear _ => True

/-- If all objects are put at one local scheduler, the trigger calls as if it were alone, and the
coordinator never does. -/
theorem calls_of_putAt (ht : t.getType ≠ .byTime) {coordinator : List TriggerObject}
    {scheduler : ι → List TriggerObject} (hinstalled : Installed t coordinator scheduler)
    {worker : ι} {events : List (Event ι)} (hput : ∀ e ∈ events, PutAt worker e)
    (hrun : Runs.exec step (initial coordinator scheduler) events = some s) :
    callsOf t.triggerName s = ((machine t).firings {} (objects s)).map Prod.snd := by
  obtain ⟨a, hp, hone⟩ := Runs.exec_invariant
    (P := fun s => ∃ a, Projects t.triggerName t s a ∧
      TwoLevel.OneSource (machine t) {} worker a)
    (fun s e s' he hs' hP => by
      obtain ⟨a, hp, hone⟩ := hP
      obtain ⟨a', hp', rfl | hstep⟩ := hp.step ht hs'
      · exact ⟨a', hp', hone⟩
      · refine ⟨a', hp', hone.step ?_ hstep⟩
        cases e <;> exact he)
    (Runs.allowed_of_forall hput _) hrun
    ⟨_, hinstalled.projects, TwoLevel.OneSource.initial ({} : TriggerState) worker _ rfl ∅⟩
  rw [hp.callsOf_fired, hone.fired, hp.objects_eq]

end Runs

/-! ### Redundant objects -/

/-- The number of objects in a round. -/
def roundSize (k n : ℕ) : ℕ := max n (k + 1)

/-- The number of rounds, after some objects, with at least `k` objects. -/
def rounds (k n count : ℕ) : ℕ :=
  if k = 0 then 0 else (count + roundSize k n - k) / roundSize k n

/-- The calls of a redundant trigger: the first `k` objects of each round. -/
def redundantCalls (function : String) (k n : ℕ) (l : List BucketKey) : List TriggerAction :=
  (List.range (rounds k n l.length)).map fun i =>
    ⟨function, ((l.drop (i * roundSize k n)).take k).map BucketKey.sessionKey⟩

/-- What a redundant trigger has kept: how many objects of the current round there were, and the
objects, as long as they are fewer than `k`. -/
structure InRound (k n : ℕ) (l : List BucketKey) (st : TriggerState) : Prop where
  count : st.count.toNat = l.length % roundSize k n
  buffer : st.buffer = if l.length % roundSize k n < k then
    (l.drop (l.length / roundSize k n * roundSize k n)).map BucketKey.sessionKey else []

theorem rounds_eq {k n q r : ℕ} (hr : r < roundSize k n) :
    rounds k n (q * roundSize k n + r) = if k = 0 then 0 else if k ≤ r then q + 1 else q := by
  have hk : k < roundSize k n := lt_of_lt_of_le (Nat.lt_succ_self k) (le_max_right _ _)
  unfold rounds
  split_ifs with hzero hle
  · rfl
  · have heq : q * roundSize k n + r + roundSize k n - k = (r - k) + roundSize k n * (q + 1) := by
      rw [Nat.mul_succ, Nat.mul_comm]
      omega
    rw [heq, Nat.add_mul_div_left _ _ (by omega), Nat.div_eq_of_lt (by omega), Nat.zero_add]
  · have heq : q * roundSize k n + r + roundSize k n - k =
        (r + roundSize k n - k) + roundSize k n * q := by
      rw [Nat.mul_comm]
      omega
    rw [heq, Nat.add_mul_div_left _ _ (by omega), Nat.div_eq_of_lt (by omega), Nat.zero_add]

theorem lt_roundSize (k n : ℕ) : k < roundSize k n :=
  lt_of_lt_of_le (Nat.lt_succ_self k) (le_max_right _ _)

/-- All objects of a call are there. -/
theorem le_of_lt_rounds {k n i count : ℕ} (h : i < rounds k n count) :
    i * roundSize k n + k ≤ count := by
  have hk := lt_roundSize k n
  have hr : count % roundSize k n < roundSize k n := Nat.mod_lt _ (by omega)
  have hdiv := Nat.div_add_mod' count (roundSize k n)
  rw [← hdiv, rounds_eq hr] at h
  split_ifs at h with hzero hle
  · omega
  · have := Nat.mul_le_mul_right (roundSize k n) (Nat.le_of_lt_succ h)
    omega
  · have := Nat.mul_le_mul_right (roundSize k n) (Nat.succ_le_of_lt h)
    rw [Nat.succ_mul] at this
    omega

/-- A further object only adds a call, if it is the last one of the first `k` of a round. -/
theorem redundantCalls_concat (function : String) (k n : ℕ) (l : List BucketKey) (b : BucketKey) :
    redundantCalls function k n (l ++ [b]) = redundantCalls function k n l ++
      if l.length % roundSize k n + 1 = k then
        [⟨function, ((l ++ [b]).drop (l.length / roundSize k n * roundSize k n)).map
          BucketKey.sessionKey⟩]
      else [] := by
  have hk := lt_roundSize k n
  have hr : l.length % roundSize k n < roundSize k n := Nat.mod_lt _ (by omega)
  have hdiv := Nat.div_add_mod' l.length (roundSize k n)
  obtain ⟨q, hq⟩ : ∃ q, l.length / roundSize k n = q := ⟨_, rfl⟩
  obtain ⟨r, hmod⟩ : ∃ r, l.length % roundSize k n = r := ⟨_, rfl⟩
  rw [hq, hmod] at hdiv ⊢
  rw [hmod] at hr
  -- the calls of the earlier rounds stay
  have hold : ∀ i < rounds k n l.length,
      ((l ++ [b]).drop (i * roundSize k n)).take k = (l.drop (i * roundSize k n)).take k := by
    intro i hi
    have hle := le_of_lt_rounds hi
    rw [List.drop_append_of_le_length (by omega), List.take_append_of_le_length]
    rw [List.length_drop]
    omega
  have hprefix : (List.range (rounds k n l.length)).map (fun i => (⟨function,
        (((l ++ [b]).drop (i * roundSize k n)).take k).map BucketKey.sessionKey⟩ : TriggerAction)) =
      redundantCalls function k n l :=
    List.map_congr_left fun i hi => by rw [hold i (List.mem_range.1 hi)]
  have hlength : (l ++ [b]).length = q * roundSize k n + (r + 1) := by
    rw [List.length_append, List.length_singleton, ← hdiv]
    rfl
  have hrounds : rounds k n l.length = if k = 0 then 0 else if k ≤ r then q + 1 else q := by
    rw [← hdiv, rounds_eq hr]
  have hnext : rounds k n (l ++ [b]).length = rounds k n l.length + if r + 1 = k then 1 else 0 := by
    rw [hlength, hrounds]
    by_cases hfull : r + 1 = roundSize k n
    · have hzero : q * roundSize k n + (r + 1) = (q + 1) * roundSize k n + 0 := by
        rw [Nat.succ_mul, hfull]
        rfl
      rw [hzero, rounds_eq (by omega)]
      split_ifs <;> omega
    · rw [rounds_eq (by omega)]
      split_ifs <;> omega
  rw [redundantCalls, hnext]
  split_ifs with hcall
  · have hq' : rounds k n l.length = q := by
      rw [hrounds, if_neg (by omega), if_neg (by omega)]
    have htake : ((l ++ [b]).drop (q * roundSize k n)).take k =
        (l ++ [b]).drop (q * roundSize k n) := by
      refine List.take_of_length_le ?_
      rw [List.length_drop, hlength]
      omega
    rw [List.range_succ, List.map_append, hprefix, List.map_singleton, hq', htake]
  · rw [Nat.add_zero, List.append_nil, hprefix]

theorem inRound_concat {k n : ℕ} {l : List BucketKey} {b : BucketKey} {st : TriggerState}
    (hcount : st.count.toNat =
      if l.length % roundSize k n + 1 = roundSize k n then 0 else l.length % roundSize k n + 1)
    (hbuffer : st.buffer = if l.length % roundSize k n + 1 < k then
      ((l ++ [b]).drop (l.length / roundSize k n * roundSize k n)).map BucketKey.sessionKey
      else []) : InRound k n (l ++ [b]) st := by
  have hk := lt_roundSize k n
  have hr : l.length % roundSize k n < roundSize k n := Nat.mod_lt _ (by omega)
  have hdiv := Nat.div_add_mod' l.length (roundSize k n)
  have hlength : (l ++ [b]).length = l.length + 1 := by simp
  obtain ⟨q, hq⟩ : ∃ q, l.length / roundSize k n = q := ⟨_, rfl⟩
  obtain ⟨r, hmod⟩ : ∃ r, l.length % roundSize k n = r := ⟨_, rfl⟩
  rw [hmod] at hcount hr
  rw [hq, hmod] at hbuffer hdiv
  by_cases hfull : r + 1 = roundSize k n
  · have hsucc : l.length + 1 = roundSize k n * (q + 1) := by
      rw [Nat.mul_succ, Nat.mul_comm, ← hdiv]
      omega
    have hzero : (l ++ [b]).length % roundSize k n = 0 := by
      rw [hlength, hsucc, Nat.mul_mod_right]
    refine ⟨by rw [hcount, if_pos hfull, hzero], ?_⟩
    rw [hbuffer, if_neg (by omega), hzero]
    split_ifs
    · rw [hlength, hsucc, Nat.mul_div_cancel_left _ (by omega), Nat.mul_comm, ← hsucc, ← hlength,
        List.drop_length]
      rfl
    · rfl
  · have hsucc : l.length + 1 = (r + 1) + roundSize k n * q := by
      rw [Nat.mul_comm, ← hdiv]
      omega
    have hnext : (l ++ [b]).length % roundSize k n = r + 1 := by
      rw [hlength, hsucc, Nat.add_mul_mod_self_left, Nat.mod_eq_of_lt (by omega)]
    have hquot : (l ++ [b]).length / roundSize k n = q := by
      rw [hlength, hsucc, Nat.add_mul_div_left _ _ (by omega), Nat.div_eq_of_lt (by omega),
        Nat.zero_add]
    exact ⟨by rw [hcount, if_neg hfull, hnext], by rw [hbuffer, hnext, hquot]⟩

/-- What a redundant trigger does with a further object. -/
theorem InRound.step {t : Trigger} {k n : UInt32} (ht : t.params = .redundant k n)
    (hk : k.toNat + 1 < 2 ^ 32) {l : List BucketKey} {st : TriggerState}
    (h : InRound k.toNat n.toNat l st) (b : BucketKey) :
    InRound k.toNat n.toNat (l ++ [b]) (t.actionForNewObject 0 st b).1 ∧
      (t.actionForNewObject 0 st b).2 = if l.length % roundSize k.toNat n.toNat + 1 = k.toNat then
        [⟨t.targetFunction, ((l ++ [b]).drop (l.length / roundSize k.toNat n.toNat *
          roundSize k.toNat n.toNat)).map BucketKey.sessionKey⟩]
        else [] := by
  have hlt := lt_roundSize k.toNat n.toNat
  have hr : l.length % roundSize k.toNat n.toNat < roundSize k.toNat n.toNat :=
    Nat.mod_lt _ (by omega)
  have hn := n.toNat_lt
  have hsize : roundSize k.toNat n.toNat < 2 ^ 32 := max_lt hn hk
  have hcount : (st.count + 1).toNat = l.length % roundSize k.toNat n.toNat + 1 := by
    rw [UInt32.toNat_add, h.count, Nat.mod_eq_of_lt]
    · rfl
    · exact lt_of_le_of_lt (Nat.succ_le_of_lt hr) hsize
  have hle : st.count + 1 ≤ k ↔ l.length % roundSize k.toNat n.toNat + 1 ≤ k.toNat := by
    rw [UInt32.le_iff_toNat_le, hcount]
  have heq : st.count + 1 = k ↔ l.length % roundSize k.toNat n.toNat + 1 = k.toNat := by
    rw [← UInt32.toNat_inj, hcount]
  have hge : n ≤ st.count + 1 ↔ n.toNat ≤ l.length % roundSize k.toNat n.toNat + 1 := by
    rw [UInt32.le_iff_toNat_le, hcount]
  have hdrop : (l ++ [b]).drop
      (l.length / roundSize k.toNat n.toNat * roundSize k.toNat n.toNat) =
      l.drop (l.length / roundSize k.toNat n.toNat * roundSize k.toNat n.toNat) ++ [b] :=
    List.drop_append_of_le_length (Nat.div_mul_le_self _ _)
  have hmax : roundSize k.toNat n.toNat = max n.toNat (k.toNat + 1) := rfl
  simp only [Trigger.actionForNewObject, ht, hle, heq, hge]
  by_cases hfirst : l.length % roundSize k.toNat n.toNat + 1 ≤ k.toNat
  · by_cases hlast : l.length % roundSize k.toNat n.toNat + 1 = k.toNat
    · -- the last one of the first `k`
      rw [if_pos hfirst, if_pos hlast, if_pos hlast, h.buffer, if_pos (by omega), hdrop,
        List.map_append, List.map_singleton]
      refine ⟨inRound_concat ?_ ?_, rfl⟩
      · rw [if_neg (by omega), hcount]
      · rw [if_neg (by omega)]
    · rw [if_pos hfirst, if_neg hlast, if_neg hlast]
      refine ⟨inRound_concat ?_ ?_, rfl⟩
      · rw [if_neg (by omega), hcount]
      · rw [if_pos (by omega), h.buffer, if_pos (by omega), hdrop, List.map_append,
          List.map_singleton]
  · have hbuffer : st.buffer = [] := h.buffer.trans (if_neg (by omega))
    rw [if_neg hfirst, if_neg (show ¬ l.length % roundSize k.toNat n.toNat + 1 = k.toNat by omega)]
    by_cases hend : n.toNat ≤ l.length % roundSize k.toNat n.toNat + 1
    · -- the end of the round
      rw [if_pos hend]
      refine ⟨inRound_concat ?_ ?_, rfl⟩
      · rw [if_pos (by omega)]
        rfl
      · rw [if_neg (by omega)]
        exact hbuffer
    · rw [if_neg hend]
      refine ⟨inRound_concat ?_ ?_, rfl⟩
      · rw [if_neg (by omega), hcount]
      · rw [if_neg (by omega)]
        exact hbuffer

theorem firings_redundant {t : Trigger} {k n : UInt32} (ht : t.params = .redundant k n)
    (hk : k.toNat + 1 < 2 ^ 32) (l : List BucketKey) :
    InRound k.toNat n.toNat l ((machine t).after {} l) ∧
      ((machine t).firings {} l).map Prod.snd =
        redundantCalls t.targetFunction k.toNat n.toNat l := by
  induction l using List.reverseRecOn with
  | nil =>
    have hrounds : rounds k.toNat n.toNat 0 = 0 := by
      have hlt := lt_roundSize k.toNat n.toNat
      have hzero := rounds_eq (k := k.toNat) (n := n.toNat) (q := 0) (r := 0) (by omega)
      rw [Nat.zero_mul] at hzero
      split_ifs at hzero <;> omega
    refine ⟨⟨?_, ?_⟩, ?_⟩
    · simp [TwoLevel.Machine.after]
    · simp [TwoLevel.Machine.after]
    · simp [TwoLevel.Machine.firings, redundantCalls, hrounds]
  | append_singleton l b ih =>
    obtain ⟨hround, hcalls⟩ := ih
    obtain ⟨hnext, hcall⟩ := hround.step ht hk b
    rw [TwoLevel.Machine.after_concat, TwoLevel.Machine.firings_concat, List.map_append, hcalls,
      redundantCalls_concat, ← hcall]
    refine ⟨hnext, ?_⟩
    simp [machine, Function.comp_def]

/-- **If all objects come from one local scheduler, then, whatever the interleaving, a redundant
trigger calls with the first `k` objects of each round, and only there.** -/
theorem calls_redundant {t : Trigger} {s : State ι} {k n : UInt32}
    (ht : t.params = .redundant k n) (hk : k.toNat + 1 < 2 ^ 32)
    {coordinator : List TriggerObject} {scheduler : ι → List TriggerObject}
    (hinstalled : Installed t coordinator scheduler) {worker : ι} {events : List (Event ι)}
    (hput : ∀ e ∈ events, PutAt worker e)
    (hrun : Runs.exec step (initial coordinator scheduler) events = some s) :
    callsOf t.triggerName s =
      redundantCalls t.targetFunction k.toNat n.toNat (objects s) := by
  have htype : t.getType ≠ .byTime := by simp [Trigger.getType, ht]
  rw [calls_of_putAt htype hinstalled hput hrun]
  exact (firings_redundant ht hk (objects s)).2

/-! ### Two of three copies -/

/-- Two of three objects. -/
def copiesTrigger : Trigger where
  targetFunction := "vote"
  triggerName := "t_copies"
  params := .redundant 2 3

theorem installed_copiesTrigger :
    Installed copiesTrigger [⟨copiesTrigger, {}⟩] (fun _ : Bool => [⟨copiesTrigger, {}⟩]) where
  coordinator := rfl
  scheduler _ := rfl

/-- Two rounds; the coordinator hears of two objects. -/
def copiesEvents : List (Event Bool) :=
  [.put true "a0000000000000000" 0, .put true "b0000000000000000" 0,
    .put true "c0000000000000000" 0, .notify true 0, .put true "a1111111111111111" 0,
    .put true "b1111111111111111" 0, .notify true 0]

theorem calls_redundant_copiesEvents :
    ∃ s, Runs.exec step (initial [⟨copiesTrigger, {}⟩] fun _ => [⟨copiesTrigger, {}⟩])
        copiesEvents = some s ∧
      callsOf "t_copies" s = redundantCalls "vote" 2 3 (objects s) := by
  have hsome : (Runs.exec step (initial [⟨copiesTrigger, {}⟩] fun _ => [⟨copiesTrigger, {}⟩])
      copiesEvents).isSome := by decide +kernel
  obtain ⟨s, hs⟩ := Option.isSome_iff_exists.1 hsome
  have hput : ∀ e ∈ copiesEvents, PutAt true e := by
    simp [copiesEvents, PutAt]
  exact ⟨s, hs, calls_redundant (k := 2) (n := 3) rfl (by decide) installed_copiesTrigger hput hs⟩

/-! ### Triggers by time -/

section ByTime

variable {t : Trigger} {timeWindow : UInt32} {s s' : State ι}

/-- The window, in whole milliseconds, is over. -/
def Due (timeWindow : UInt32) (now stamp : ℕ) : Prop :=
  (timeWindow.toNat : ℤ) ≤ ((now : ℤ) - stamp).tdiv 1000000

/-- The trigger is at the coordinator only, and these objects have arrived there: its calls and its
buffer have them in this order. -/
structure Timed (t : Trigger) (s : State ι) (st : TriggerState) (arrived : List (ι × BucketKey)) :
    Prop where
  coordinator : named t.triggerName s.coordinator = [⟨t, st⟩]
  scheduler : ∀ w, named t.triggerName (s.scheduler w) = []
  inactive : ∀ w, ∀ m ∈ s.notifications w, t.triggerName ∉ m.activeTriggerNames
  fifo : ∀ w, ((s.puts.filter (·.1 = w)).map fun p => BucketKey.ofSessionKey p.2) =
    (arrived.filter (·.1 = w)).map Prod.snd ++ (s.notifications w).map (·.bucketKey)
  split : consumed t.triggerName s ++ st.buffer = arrived.map (·.2.sessionKey)

omit [DecidableEq ι] in
theorem filter_newObject_coordinator {ts : List TriggerObject} {st : TriggerState}
    (h : named t.triggerName ts = [⟨t, st⟩]) (now : ℕ) (b : BucketKey) :
    (newObject now b ts).filter (fun r => r.1.name = t.triggerName) =
      [(⟨t, (t.actionForNewObject now st b).1⟩, (t.actionForNewObject now st b).2)] := by
  rw [newObject, List.filter_map]
  have hfilter : ts.filter ((fun r => decide (r.1.name = t.triggerName)) ∘ (·.newObject now b)) =
      named t.triggerName ts := rfl
  rw [hfilter, h]
  rfl

omit [DecidableEq ι] in
theorem filter_newObject_nil {n : String} {ts : List TriggerObject} (h : named n ts = [])
    (now : ℕ) (b : BucketKey) : (newObject now b ts).filter (fun r => r.1.name = n) = [] := by
  rw [newObject, List.filter_map]
  have hfilter : ts.filter ((fun r => decide (r.1.name = n)) ∘ (·.newObject now b)) =
      named n ts := rfl
  rw [hfilter, h]
  rfl

theorem Timed.put {st : TriggerState} {arrived : List (ι × BucketKey)} (h : Timed t s st arrived)
    (worker : ι) (sessionKey : String) (now : ℕ) :
    Timed t (checkTrigger s worker sessionKey now) st arrived ∧
      callsOf t.triggerName (checkTrigger s worker sessionKey now) = callsOf t.triggerName s := by
  have hrs := filter_newObject_nil (h.scheduler worker) now (BucketKey.ofSessionKey sessionKey)
  have hfirings : (checkTrigger s worker sessionKey now).firings.filter
      (·.triggerName = t.triggerName) = s.firings.filter (·.triggerName = t.triggerName) := by
    simp only [checkTrigger, List.filter_append, filter_firingsOf, hrs]
    simp [firingsOf]
  refine ⟨⟨h.coordinator, fun w => ?_, fun w m hm => ?_, fun w => ?_, ?_⟩, ?_⟩
  · by_cases hw : w = worker
    · subst hw
      simp [checkTrigger, named_map_fst, hrs]
    · simp [checkTrigger, hw, h.scheduler]
  · simp only [checkTrigger, Function.update_apply] at hm
    split_ifs at hm
    · obtain hm | hm := List.mem_append.1 hm
      · exact h.inactive worker m hm
      · have hmem := decide_mem_map_name (n := t.triggerName)
          (newObject now (BucketKey.ofSessionKey sessionKey) (s.scheduler worker))
          (fun r => decide (r.2 ≠ []))
        rw [hrs, List.any_nil, decide_eq_false_iff_not] at hmem
        rw [List.mem_singleton.1 hm]
        exact hmem
    · exact h.inactive w m hm
  · by_cases hw : w = worker
    · subst hw
      simp [checkTrigger, List.filter_append, h.fifo]
    · simp [checkTrigger, List.filter_append, hw, Ne.symm hw, h.fifo]
  · rw [consumed, hfirings]
    exact h.split
  · rw [callsOf, hfirings]
    rfl

/-- A notification may make the trigger call with all that it has collected. -/
theorem Timed.notify (ht : t.params = .byTime timeWindow) {st : TriggerState}
    {arrived : List (ι × BucketKey)} (h : Timed t s st arrived) {worker : ι}
    {request : KeyNotifyRequest} {rest : List KeyNotifyRequest}
    (hnotifications : s.notifications worker = request :: rest) (now : ℕ) :
    ∃ st', Timed t (notifyHandler s worker request rest now) st'
        (arrived ++ [(worker, request.bucketKey)]) ∧
      (callsOf t.triggerName (notifyHandler s worker request rest now) =
          callsOf t.triggerName s ∧ st'.lastTriggerStamp = st.lastTriggerStamp ∨
        Due timeWindow now st.lastTriggerStamp ∧ st'.lastTriggerStamp = now ∧
          ∃ call, callsOf t.triggerName (notifyHandler s worker request rest now) =
            callsOf t.triggerName s ++ [call]) := by
  have hrs := filter_newObject_coordinator h.coordinator now request.bucketKey
  have hinactive := h.inactive worker request (by simp [hnotifications])
  have hfirings : (notifyHandler s worker request rest now).firings.filter
      (·.triggerName = t.triggerName) = s.firings.filter (·.triggerName = t.triggerName) ++
        (t.actionForNewObject now st request.bucketKey).2.map
          (⟨t.triggerName, request.bucketKey, ·⟩) := by
    simp only [notifyHandler, List.filter_append, filter_firingsOf, filter_effective, hinactive,
      if_false, hrs]
    simp [firingsOf, TriggerObject.name]
  have hconsumed : consumed t.triggerName (notifyHandler s worker request rest now) =
      consumed t.triggerName s ++
        (t.actionForNewObject now st request.bucketKey).2.flatMap (·.sessionKeys) := by
    rw [consumed, hfirings, List.flatMap_append, consumed, List.flatMap_map]
  have hcalls : callsOf t.triggerName (notifyHandler s worker request rest now) =
      callsOf t.triggerName s ++ (t.actionForNewObject now st request.bucketKey).2 := by
    rw [callsOf, hfirings, List.map_append, callsOf, List.map_map]
    exact congrArg _ (List.map_id _)
  have htimed (split : consumed t.triggerName (notifyHandler s worker request rest now) ++
        (t.actionForNewObject now st request.bucketKey).1.buffer =
      (arrived ++ [(worker, request.bucketKey)]).map (·.2.sessionKey)) :
      Timed t (notifyHandler s worker request rest now)
        (t.actionForNewObject now st request.bucketKey).1
        (arrived ++ [(worker, request.bucketKey)]) := by
    refine ⟨?_, h.scheduler, fun w m hm => ?_, fun w => ?_, split⟩
    · simp [notifyHandler, named_map_fst, hrs]
    · simp only [notifyHandler, Function.update_apply] at hm
      split_ifs at hm with hw
      · exact h.inactive worker m (by simp [hnotifications, hm])
      · exact h.inactive w m hm
    · by_cases hw : w = worker
      · subst hw
        simp [notifyHandler, List.filter_append, h.fifo, hnotifications]
      · simp [notifyHandler, List.filter_append, h.fifo, hw, Ne.symm hw]
  have hsplit := h.split
  by_cases hdue : Due timeWindow now st.lastTriggerStamp
  · have haction : t.actionForNewObject now st request.bucketKey =
        ({ st with buffer := [], lastTriggerStamp := now },
          [⟨t.targetFunction, st.buffer ++ [request.bucketKey.sessionKey]⟩]) := by
      simp only [Trigger.actionForNewObject, ht]
      exact if_pos hdue
    refine ⟨_, htimed ?_, .inr ⟨hdue, by rw [haction], _, by rw [hcalls, haction]⟩⟩
    rw [hconsumed, haction, List.map_append, ← hsplit]
    simp
  · have haction : t.actionForNewObject now st request.bucketKey =
        ({ st with buffer := st.buffer ++ [request.bucketKey.sessionKey] }, []) := by
      simp only [Trigger.actionForNewObject, ht]
      exact if_neg hdue
    refine ⟨_, htimed ?_, .inl ⟨by rw [hcalls, haction, List.append_nil], by rw [haction]⟩⟩
    rw [hconsumed, haction, List.map_append, ← hsplit]
    simp

/-- What a step does for the trigger. -/
theorem Timed.step (ht : t.params = .byTime timeWindow) {st : TriggerState}
    {arrived : List (ι × BucketKey)} (h : Timed t s st arrived) {e : Event ι}
    (hs' : step s e = some s') :
    ∃ st' arrived', Timed t s' st' arrived' ∧
      (callsOf t.triggerName s' = callsOf t.triggerName s ∧
          st'.lastTriggerStamp = st.lastTriggerStamp ∨
        ∃ worker now, e = .notify worker now ∧ Due timeWindow now st.lastTriggerStamp ∧
          st'.lastTriggerStamp = now ∧
          ∃ call, callsOf t.triggerName s' = callsOf t.triggerName s ++ [call]) := by
  cases e with
  | put worker sessionKey now =>
    obtain rfl := Option.some.inj hs'
    obtain ⟨hput, hcalls⟩ := h.put worker sessionKey now
    exact ⟨st, arrived, hput, .inl ⟨hcalls, rfl⟩⟩
  | notify worker now =>
    rw [Notify.step] at hs'
    cases hn : s.notifications worker with
    | nil => simp [hn] at hs'
    | cons request rest =>
      simp only [hn, Option.some.injEq] at hs'
      subst hs'
      obtain ⟨st', htimed, hcalls | ⟨hdue, hstamp, call, hcalls⟩⟩ := h.notify ht hn now
      · exact ⟨st', _, htimed, .inl hcalls⟩
      · exact ⟨st', _, htimed, .inr ⟨worker, now, rfl, hdue, hstamp, call, hcalls⟩⟩
  | clear worker =>
    rw [Notify.step] at hs'
    cases hc : s.clears worker with
    | nil => simp [hc] at hs'
    | cons msg rest =>
      simp only [hc, Option.some.injEq] at hs'
      subst hs'
      refine ⟨st, arrived, ⟨h.coordinator, fun w => ?_, h.inactive, h.fifo, h.split⟩,
        .inl ⟨rfl, rfl⟩⟩
      by_cases hw : w = worker
      · subst hw
        simp [named_clearTriggers, h.scheduler]
      · simp [hw, h.scheduler]

theorem exists_timed (ht : t.params = .byTime timeWindow) {coordinator : List TriggerObject}
    {scheduler : ι → List TriggerObject} {stamp : ℕ}
    (hcoordinator : named t.triggerName coordinator = [⟨t, { lastTriggerStamp := stamp }⟩])
    (hscheduler : ∀ w, named t.triggerName (scheduler w) = []) {events : List (Event ι)}
    (hrun : Runs.exec step (initial coordinator scheduler) events = some s) :
    ∃ st arrived, Timed t s st arrived :=
  Runs.exec_invariant (P := fun s => ∃ st arrived, Timed t s st arrived)
    (fun s e s' _ hs' hP => by
      obtain ⟨st, arrived, htimed⟩ := hP
      obtain ⟨st', arrived', htimed', -⟩ := htimed.step ht hs'
      exact ⟨st', arrived', htimed'⟩)
    (Runs.allowed_true _ _) hrun
    ⟨_, [], hcoordinator, hscheduler, fun _ _ hm => by simp [initial] at hm, fun _ => rfl, rfl⟩

/-- **In every interleaving, the calls of a trigger by time and its buffer have all objects that
have arrived at the coordinator, once and in this order; those of each local scheduler arrive in
the order in which they were put, and the others are on their way.  The calls are all made, and no
object is lost with a dropped one, exactly if every notification finds as many free executors as it
makes calls.** -/
theorem byTime_conserves (ht : t.params = .byTime timeWindow) {coordinator : List TriggerObject}
    {scheduler : ι → List TriggerObject} {stamp : ℕ}
    (hcoordinator : named t.triggerName coordinator = [⟨t, { lastTriggerStamp := stamp }⟩])
    (hscheduler : ∀ w, named t.triggerName (scheduler w) = []) {σ : Type}
    {setup : Bucket.Setup σ} {seed : σ} {b : Bucket ι σ} {events : List (Bucket.Event ι)}
    (hrun : Runs.exec (Bucket.step setup) (.initial (initial coordinator scheduler) seed) events =
      some b) :
    (∃ arrived : List (ι × BucketKey),
      (Bucket.callsFor t.triggerName b).flatMap (·.firing.action.sessionKeys) ++
          bufferOf t.triggerName b.triggers.coordinator = arrived.map (·.2.sessionKey) ∧
        ∀ w, ((b.triggers.puts.filter (·.1 = w)).map fun p => BucketKey.ofSessionKey p.2) =
          (arrived.filter (·.1 = w)).map Prod.snd ++
            (b.triggers.notifications w).map (·.bucketKey)) ∧
      ((∀ c ∈ b.calls, c.place.Made) ↔ Runs.Allowed (Bucket.step setup) Bucket.Served
        (.initial (initial coordinator scheduler) seed) events) := by
  have hsound : (Bucket.initial (initial coordinator scheduler) seed).Sound := .initial rfl seed
  obtain ⟨st, arrived, htimed⟩ := exists_timed ht hcoordinator hscheduler
    (Bucket.exec_triggers hrun)
  have hconsumed : (Bucket.callsFor t.triggerName b).flatMap (·.firing.action.sessionKeys) =
      consumed t.triggerName b.triggers := by
    have hcalls := (hsound.exec hrun).recorded.callsFor t.triggerName
    have hflat := congrArg (List.flatMap TriggerAction.sessionKeys) hcalls
    rw [callsOf, List.flatMap_map, List.flatMap_map] at hflat
    exact hflat
  refine ⟨⟨arrived, ?_, htimed.fifo⟩, Bucket.made_iff_served hsound hrun rfl⟩
  rw [hconsumed, ← htimed.split, bufferOf, htimed.coordinator]
  simp

/-- The coordinator reads the clock within the window that starts at this time. -/
def Within (timeWindow : UInt32) (start : ℕ) : Event ι → Prop
  | .notify _ now => start ≤ now ∧ now < start + timeWindow.toNat * 1000000
  | .put _ _ _ | .clear _ => True

theorem not_due {now stamp start : ℕ} (hnow : now < start + timeWindow.toNat * 1000000)
    (hstart : start ≤ now) (hstamp : start ≤ stamp) : ¬ Due timeWindow now stamp := by
  rw [Due, not_le]
  obtain hle | hlt := le_total stamp now
  · rw [Int.tdiv_eq_ediv_of_nonneg (by omega)]
    omega
  · have hnonneg : 0 ≤ ((stamp : ℤ) - now).tdiv 1000000 := Int.tdiv_nonneg (by omega) (by norm_num)
    rw [← neg_sub, Int.neg_tdiv]
    omega

/-- **In every part of a run in which the coordinator reads the clock within one window, a trigger
by time calls at most once.** -/
theorem byTime_rate (ht : t.params = .byTime timeWindow) {coordinator : List TriggerObject}
    {scheduler : ι → List TriggerObject} {stamp : ℕ}
    (hcoordinator : named t.triggerName coordinator = [⟨t, { lastTriggerStamp := stamp }⟩])
    (hscheduler : ∀ w, named t.triggerName (scheduler w) = []) {events events' : List (Event ι)}
    (hrun : Runs.exec step (initial coordinator scheduler) events = some s) {start : ℕ}
    (hwithin : ∀ e ∈ events', Within timeWindow start e)
    (hrun' : Runs.exec step s events' = some s') :
    (callsOf t.triggerName s').length ≤ (callsOf t.triggerName s).length + 1 := by
  obtain ⟨st, arrived, htimed⟩ := exists_timed ht hcoordinator hscheduler hrun
  obtain ⟨st', arrived', -, hcount⟩ := Runs.exec_invariant
    (P := fun s' => ∃ st' arrived', Timed t s' st' arrived' ∧
      ((callsOf t.triggerName s').length = (callsOf t.triggerName s).length ∨
        (callsOf t.triggerName s').length = (callsOf t.triggerName s).length + 1 ∧
          start ≤ st'.lastTriggerStamp))
    (fun s₁ e s₂ he hs₂ hP => by
      obtain ⟨st₁, arrived₁, htimed₁, hcount⟩ := hP
      obtain ⟨st₂, arrived₂, htimed₂, hstep⟩ := htimed₁.step ht hs₂
      refine ⟨st₂, arrived₂, htimed₂, ?_⟩
      obtain ⟨hcalls, hstamp⟩ | ⟨worker, now, rfl, hdue, hstamp, call, hcalls⟩ := hstep
      · rwa [hcalls, hstamp]
      · rw [hcalls, List.length_append, List.length_singleton, hstamp]
        obtain hzero | ⟨-, hcalled⟩ := hcount
        · exact .inr ⟨by rw [hzero], he.1⟩
        · exact absurd hdue (not_due he.2 he.1 hcalled))
    (Runs.allowed_of_forall hwithin _) hrun' ⟨st, arrived, htimed, .inl rfl⟩
  omega

end ByTime

/-! ### A window of a millisecond -/

/-- A window of a millisecond. -/
def windowTrigger : Trigger where
  targetFunction := "aggregate"
  triggerName := "t_window"
  params := .byTime 1

/-- Only the coordinator has the trigger. -/
def windowBucket : State Bool := initial [⟨windowTrigger, {}⟩] fun _ => []

/-- The bucket of the sample. -/
def windowSetup : Bucket.Setup ℕ where
  bucket := "b_window"
  appName := "stream"
  rand n := (n, n + 1)
  ioThreadNum := ⟨1, Nat.one_pos⟩

/-- Two objects of two local schedulers, one of which arrives when the window is over. -/
def windowEvents : List (Event Bool) :=
  [.put false "a0000000000000000" 0, .put true "b0000000000000000" 0, .notify true 999999,
    .notify false 1000000, .put true "c0000000000000000" 0]

/-- The same, with a free executor for the call. -/
def windowCalls : List (Bucket.Event Bool) :=
  [.put false "a0000000000000000" 0 (.large 2000) "tcp://10.0.0.1:9000" "",
    .put true "b0000000000000000" 0 (.packed [98]) "tcp://10.0.0.2:9000" "", .notify true 999999,
    .updateStatus "10.0.0.3" { availExecutors := 1 }, .notify false 1000000,
    .put true "c0000000000000000" 0 (.packed [99]) "tcp://10.0.0.2:9000" ""]

theorem byTime_conserves_windowCalls :
    ∃ b, Runs.exec (Bucket.step windowSetup) (.initial windowBucket 0) windowCalls = some b ∧
      (∃ arrived : List (Bool × BucketKey),
        (Bucket.callsFor "t_window" b).flatMap (·.firing.action.sessionKeys) ++
            bufferOf "t_window" b.triggers.coordinator = arrived.map (·.2.sessionKey) ∧
          ∀ w, ((b.triggers.puts.filter (·.1 = w)).map fun p => BucketKey.ofSessionKey p.2) =
            (arrived.filter (·.1 = w)).map Prod.snd ++
              (b.triggers.notifications w).map (·.bucketKey)) ∧
      (∃ c, b.calls = [c]) ∧ ∀ c ∈ b.calls, c.place.Made := by
  have hsome : ((Runs.exec (Bucket.step windowSetup) (.initial windowBucket 0) windowCalls).map
      (·.calls.length)) = some 1 := by decide +kernel
  obtain ⟨b, hb, hone⟩ := Option.map_eq_some_iff.1 hsome
  obtain ⟨harrived, hmade⟩ :=
    byTime_conserves (t := windowTrigger) rfl rfl (fun _ => rfl) hb
  exact ⟨b, hb, harrived, List.length_eq_one_iff.1 hone, hmade.2 (by decide +kernel)⟩

/-- The window after the one that starts at a millisecond: its first object makes the trigger
call. -/
theorem byTime_rate_windowEvents :
    ∃ s s', Runs.exec step windowBucket windowEvents = some s ∧
      Runs.exec step s [.notify true 2100000, .put false "d0000000000000000" 0,
        .notify false 2999999] = some s' ∧
      (callsOf "t_window" s).length < (callsOf "t_window" s').length ∧
      (callsOf "t_window" s').length ≤ (callsOf "t_window" s).length + 1 := by
  have hcalls : ((Runs.exec step windowBucket windowEvents).bind fun s =>
      (Runs.exec step s [.notify true 2100000, .put false "d0000000000000000" 0,
        .notify false 2999999]).map fun s' =>
          decide ((callsOf "t_window" s).length < (callsOf "t_window" s').length)) =
            some true := by decide +kernel
  obtain ⟨s, hs, hcalls⟩ := Option.bind_eq_some_iff.1 hcalls
  obtain ⟨s', hs', hone⟩ := Option.map_eq_some_iff.1 hcalls
  have hwithin : ∀ e ∈ ([.notify true 2100000, .put false "d0000000000000000" 0,
      .notify false 2999999] : List (Event Bool)), Within 1 2000000 e := by simp [Within]
  exact ⟨s, s', hs, hs', of_decide_eq_true hone,
    byTime_rate (t := windowTrigger) rfl rfl (fun _ => rfl) hs hwithin hs'⟩

end Demeter.Coordinator.Notify
