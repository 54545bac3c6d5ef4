import Demeter.Lib.Double

/-!
# Timestamps of writes to the key-value store

The store keeps the value with the larger timestamp.  The Python client makes its timestamps with
`generate_timestamp` of `client.py`, the IO threads of a local scheduler with the function of the
same name in `common/include/common.hpp`.

* `timestamp` is the timestamp of a writer at a time of the wall clock.  The client counts seconds,
  as a double; the threads count milliseconds, in 64 bits, scaled by a power of ten in 32 bits;
* `LaterWins`: of two writes at least one second apart, the later one has the larger timestamp;
* `laterWins_iff` says for which pairs of writers this is so.
-/

namespace Demeter.Client

/-- The time since the epoch that `system_clock` counts, in nanoseconds. -/
structure WallClock where
  ns : ℕ
  lt : ns < 2 ^ 63

/-! ### The client -/

/-- The loop `while tid >= p: p *= 10`. -/
def power (tid p : ℕ) : ℕ := if 0 < p ∧ p ≤ tid then power tid (p * 10) else p
termination_by tid + 1 - p

/-- `time.time()`: a whole number of seconds is divided as an integer, any other time as a
double. -/
def time (now : WallClock) : ℚ :=
  if now.ns % 10 ^ 9 = 0 then Double.round (now.ns / 10 ^ 9 : ℕ)
  else Double.round (Double.round now.ns / 10 ^ 9)

/-- `generate_timestamp` of the client. -/
def generateTimestamp (now : WallClock) (tid : ℕ) : ℕ :=
  ⌊Double.round (Double.round (time now * power tid 10) + tid)⌋₊

/-! ### The threads -/

/-- `get_time`, in milliseconds. -/
def getTime (now : WallClock) : UInt64 := UInt64.ofNat (now.ns / 10 ^ 6)

/-- The loop `while (id >= pow) pow *= 10`, of which at most `fuel` rounds are followed. -/
def raisePow (id : UInt32) : ℕ → UInt32 → Option UInt32
  | 0, _ => none
  | fuel + 1, pow => if pow ≤ id then raisePow id fuel (pow * 10) else some pow

/-- `generate_timestamp` of a thread, if it returns. -/
def generateTimestampOfThread (now : WallClock) (id : UInt32) : Option UInt64 :=
  (raisePow id 32 10).map fun pow => getTime now * pow.toUInt64 + id.toUInt64

theorem raisePow_zero (id : UInt32) (fuel : ℕ) : raisePow id fuel 0 = none := by
  induction fuel with
  | zero => rfl
  | succ fuel ih => simpa [raisePow] using ih

theorem raisePow_add (id : UInt32) (m n : ℕ) (pow : UInt32)
    (h : raisePow id m pow = none) :
    raisePow id (m + n) pow = raisePow id n ((· * 10)^[m] pow) := by
  induction m generalizing pow with
  | zero => simp
  | succ m ih =>
    rw [raisePow] at h
    split_ifs at h with hle
    rw [Nat.succ_add, raisePow, if_pos hle, ih _ h, Function.iterate_succ_apply]

/-- A loop that has not ended after 32 rounds never ends. -/
theorem raisePow_eq_none (id : UInt32) (h : raisePow id 32 10 = none) (fuel : ℕ) :
    raisePow id (32 + fuel) 10 = none := by
  rw [raisePow_add id 32 fuel 10 h]
  exact raisePow_zero id fuel

/-! ### Writers -/

/-- Who writes to the store. -/
inductive Writer
  | client
  | ioThread (id : UInt32)
  deriving DecidableEq

/-- The timestamp of a write: `put_kvs_object` of the client, `put_kvs_async_base` of a thread. -/
def timestamp (now : WallClock) : Writer → Option ℕ
  | .client => some (generateTimestamp now 0)
  | .ioThread id => (generateTimestampOfThread now id).map UInt64.toNat

/-- The write of `w'` wins over a write of `w` at least one second earlier. -/
def LaterWins (w w' : Writer) : Prop :=
  ∀ now now' : WallClock, now.ns + 10 ^ 9 ≤ now'.ns →
    ∃ ts ts', timestamp now w = some ts ∧ timestamp now' w' = some ts' ∧ ts < ts'

/-- The number of the later thread is small, and that of the earlier one has at most as many
digits; and a thread does not come before the client. -/
def Comparable : Writer → Writer → Prop
  | .client, .client => True
  | .client, .ioThread id' => id'.toNat < 10 ^ 6
  | .ioThread _, .client => False
  | .ioThread id, .ioThread id' =>
      id'.toNat < 10 ^ 6 ∧ Nat.log 10 id.toNat ≤ Nat.log 10 id'.toNat

instance : DecidableRel Comparable
  | .client, .client => .isTrue trivial
  | .client, .ioThread _ => inferInstanceAs (Decidable (_ < _))
  | .ioThread _, .client => .isFalse id
  | .ioThread _, .ioThread _ => inferInstanceAs (Decidable (_ ∧ _))

/-! ### The timestamps of the client -/

theorem power_zero : power 0 10 = 10 := by
  rw [power, if_neg (by decide)]

/-- The time is off by the rounding of the nanoseconds and that of their quotient. -/
theorem abs_time_sub_le (now : WallClock) :
    |time now - now.ns / 10 ^ 9| ≤ (now.ns : ℚ) / 10 ^ 9 / 2 ^ 51 := by
  have hns : (0 : ℚ) ≤ now.ns := Nat.cast_nonneg _
  unfold time
  split_ifs with hwhole
  · have hquot : ((now.ns / 10 ^ 9 : ℕ) : ℚ) = now.ns / 10 ^ 9 := by
      rw [Nat.cast_div_charZero (Nat.dvd_of_mod_eq_zero hwhole)]
      norm_num
    have h := Double.abs_round_sub_le ((now.ns / 10 ^ 9 : ℕ) : ℚ)
    rw [Nat.abs_cast, hquot] at h
    rw [hquot]
    exact h.trans (div_le_div_of_nonneg_left (by positivity) (by norm_num) (by norm_num))
  · have h1 := abs_le.1 (Double.abs_round_sub_le (now.ns : ℚ))
    rw [abs_of_nonneg hns] at h1
    have h2 := abs_le.1 (Double.abs_round_sub_le (Double.round (now.ns : ℚ) / 10 ^ 9))
    rw [abs_of_nonneg (div_nonneg (by linarith) (by norm_num))] at h2
    rw [abs_le]
    constructor <;> linarith

/-- Two more roundings, and the timestamp is off by less than a unit. -/
theorem abs_round_time_sub_lt (now : WallClock) :
    |Double.round (Double.round (time now * 10) + 0) - (now.ns : ℚ) / 10 ^ 9 * 10| < 1 := by
  have hlt : (now.ns : ℚ) ≤ 2 ^ 63 := by exact_mod_cast now.lt.le
  have hns : (0 : ℚ) ≤ now.ns := Nat.cast_nonneg _
  have h1 := abs_le.1 (abs_time_sub_le now)
  have h1nonneg : 0 ≤ time now := by linarith
  have h2 := abs_le.1 (Double.abs_round_sub_le (time now * 10))
  rw [abs_of_nonneg (by linarith)] at h2
  have h2nonneg : 0 ≤ Double.round (time now * 10) + 0 := by linarith
  have h3 := abs_le.1 (Double.abs_round_sub_le (Double.round (time now * 10) + 0))
  rw [abs_of_nonneg h2nonneg] at h3
  rw [abs_lt]
  constructor <;> linarith

/-- The client counts tenths of a second, and is at most two of them off. -/
theorem generateTimestamp_bounds (now : WallClock) :
    generateTimestamp now 0 * 10 ^ 8 ≤ now.ns + 10 ^ 8 ∧
      now.ns < (generateTimestamp now 0 + 2) * 10 ^ 8 := by
  have herror := abs_lt.1 (abs_round_time_sub_lt now)
  have heq : (now.ns : ℚ) / 10 ^ 9 * 10 = now.ns / 10 ^ 8 := by ring
  rw [heq] at herror
  have hfloor := Nat.lt_floor_add_one
    (Double.round (Double.round (time now * 10) + 0))
  have hunfold : generateTimestamp now 0 =
      ⌊Double.round (Double.round (time now * 10) + 0)⌋₊ := by
    simp [generateTimestamp, power_zero]
  rw [← hunfold] at hfloor
  have hle : (generateTimestamp now 0 : ℚ) ≤ now.ns / 10 ^ 8 + 1 := by
    rw [hunfold]
    rcases Nat.eq_zero_or_pos
      ⌊Double.round (Double.round (time now * 10) + 0)⌋₊ with hz | hpos
    · rw [hz]
      positivity
    · exact (Nat.floor_le (Nat.pos_of_floor_pos hpos).le).trans (by linarith)
  constructor
  · have hle' : (generateTimestamp now 0 : ℚ) * 10 ^ 8 ≤ now.ns + 10 ^ 8 := by linarith
    exact_mod_cast hle'
  · have hlt' : (now.ns : ℚ) < (generateTimestamp now 0 + 2) * 10 ^ 8 := by linarith
    exact_mod_cast hlt'

/-! ### The powers of ten of the threads -/

/-- The values at which the loop can end: powers of ten, and after an overflow their remainders. -/
def finalPows : List ℕ :=
  [10, 10 ^ 2, 10 ^ 3, 10 ^ 4, 10 ^ 5, 10 ^ 6, 10 ^ 7, 10 ^ 8, 10 ^ 9, 1410065408, 3567587328,
    3735027712, 4135583744]

/-- The loop ends at the first value above the number. -/
theorem exists_of_raisePow_eq_some {id pow q : UInt32} {fuel : ℕ}
    (h : raisePow id fuel pow = some q) :
    ∃ k < fuel, q.toNat = pow.toNat * 10 ^ k % 2 ^ 32 ∧ id.toNat < q.toNat ∧
      ∀ j < k, pow.toNat * 10 ^ j % 2 ^ 32 ≤ id.toNat := by
  induction fuel generalizing pow with
  | zero => simp [raisePow] at h
  | succ fuel ih =>
    rw [raisePow] at h
    split_ifs at h with hle
    · obtain ⟨k, hk, hq, hid, hbelow⟩ := ih h
      have hnext : ∀ j, (pow * 10).toNat * 10 ^ j % 2 ^ 32 = pow.toNat * 10 ^ (j + 1) % 2 ^ 32 := by
        intro j
        have hten : (10 : UInt32).toNat = 10 := rfl
        rw [UInt32.toNat_mul, Nat.mod_mul_mod, hten, mul_assoc, ← pow_succ']
      refine ⟨k + 1, by omega, by rw [hq, hnext], hid, fun j hj => ?_⟩
      cases j with
      | zero => simpa [Nat.mod_eq_of_lt pow.toNat_lt] using UInt32.le_iff_toNat_le.1 hle
      | succ j => rw [← hnext]; exact hbelow j (by omega)
    · obtain rfl := Option.some.inj h
      refine ⟨0, by omega, by simp [Nat.mod_eq_of_lt pow.toNat_lt], ?_, by simp⟩
      exact UInt32.lt_iff_toNat_lt.1 (UInt32.not_le.1 hle)

theorem mem_finalPows {id q : UInt32} (h : raisePow id 32 10 = some q) :
    q.toNat ∈ finalPows ∧ id.toNat < q.toNat := by
  have hfinal : ∀ k < 32, 10 * 10 ^ k % 2 ^ 32 ∈ finalPows ∨
      ∃ j < k, 10 * 10 ^ k % 2 ^ 32 ≤ 10 * 10 ^ j % 2 ^ 32 := by
    decide
  obtain ⟨k, hk, hq, hid, hbelow⟩ := exists_of_raisePow_eq_some h
  obtain hmem | ⟨j, hj, hle⟩ := hfinal k hk
  · exact ⟨hq ▸ hmem, hid⟩
  · exact absurd (hle.trans (hbelow j hj)) (hq ▸ hid).not_ge

theorem raisePow_eq_some (id pow : UInt32) (k fuel : ℕ) (hk : k < fuel)
    (hlt : pow.toNat * 10 ^ k < 2 ^ 32) (hid : id.toNat < pow.toNat * 10 ^ k)
    (hbelow : ∀ j < k, pow.toNat * 10 ^ j ≤ id.toNat) :
    ∃ q, raisePow id fuel pow = some q ∧ q.toNat = pow.toNat * 10 ^ k := by
  induction k generalizing pow fuel with
  | zero =>
    obtain ⟨fuel, rfl⟩ := Nat.exists_eq_succ_of_ne_zero hk.ne'
    have hnot : ¬ pow ≤ id := by
      rw [UInt32.not_le, UInt32.lt_iff_toNat_lt]
      simpa using hid
    exact ⟨pow, by rw [raisePow, if_neg hnot], by simp⟩
  | succ k ih =>
    obtain ⟨fuel, rfl⟩ := Nat.exists_eq_succ_of_ne_zero (Nat.ne_zero_of_lt hk)
    have hle : pow ≤ id := UInt32.le_iff_toNat_le.2 (by simpa using hbelow 0 (by omega))
    have hten : pow.toNat * 10 < 2 ^ 32 :=
      lt_of_le_of_lt (Nat.mul_le_mul_left _ (Nat.le_self_pow (by omega) 10)) hlt
    have hmul : (pow * 10).toNat = pow.toNat * 10 := by
      rw [UInt32.toNat_mul]
      exact Nat.mod_eq_of_lt hten
    have hpow : ∀ j, (pow * 10).toNat * 10 ^ j = pow.toNat * 10 ^ (j + 1) := by
      intro j
      rw [hmul, pow_succ']
      ring
    obtain ⟨q, hq, hqk⟩ := ih (pow * 10) fuel (by omega) (by rwa [hpow]) (by rwa [hpow])
      fun j hj => by
        rw [hpow]
        exact hbelow (j + 1) (by omega)
    exact ⟨q, by rw [raisePow, if_pos hle, hq], by rw [hqk, hpow]⟩

/-- For a small number the loop ends at the power of ten above it. -/
theorem raisePow_of_lt {id : UInt32} (h : id.toNat < 10 ^ 6) :
    ∃ q, raisePow id 32 10 = some q ∧ q.toNat = 10 ^ (Nat.log 10 id.toNat + 1) ∧
      q.toNat ≤ 10 ^ 6 := by
  have hlog : Nat.log 10 id.toNat < 6 := Nat.log_lt_of_lt_pow' (by decide) h
  have hle : 10 ^ (Nat.log 10 id.toNat + 1) ≤ 10 ^ 6 := Nat.pow_le_pow_right (by decide) hlog
  have hten : ∀ j, (10 : UInt32).toNat * 10 ^ j = 10 ^ (j + 1) := fun j => (pow_succ' 10 j).symm
  have hid : id.toNat < 10 ^ (Nat.log 10 id.toNat + 1) := Nat.lt_pow_succ_log_self (by decide) _
  have hbelow : ∀ j < Nat.log 10 id.toNat, 10 ^ (j + 1) ≤ id.toNat := by
    intro j hj
    have hne : id.toNat ≠ 0 := fun hz => by simp [hz] at hj
    exact (Nat.pow_le_pow_right (by decide) hj).trans (Nat.pow_log_le_self 10 hne)
  obtain ⟨q, hq, hqlog⟩ := raisePow_eq_some id 10 (Nat.log 10 id.toNat) 32 (by omega)
    (by rw [hten]; omega) (by rwa [hten]) fun j hj => by rw [hten]; exact hbelow j hj
  rw [hten] at hqlog
  exact ⟨q, hq, hqlog, hqlog ▸ hle⟩

/-! ### The timestamps of the threads -/

theorem toNat_getTime (now : WallClock) : (getTime now).toNat = now.ns / 10 ^ 6 := by
  have := now.lt
  rw [getTime, UInt64.toNat_ofNat']
  omega

/-- The timestamp of a thread, which may overflow. -/
theorem timestamp_ioThread {now : WallClock} {id q : UInt32} (hq : raisePow id 32 10 = some q) :
    timestamp now (.ioThread id) =
      some ((now.ns / 10 ^ 6 * q.toNat + id.toNat) % 2 ^ 64) := by
  simp [timestamp, generateTimestampOfThread, hq, toNat_getTime]

theorem timestamp_ioThread_of_lt {now : WallClock} {id q : UInt32}
    (hq : raisePow id 32 10 = some q) (hle : q.toNat ≤ 10 ^ 6) :
    timestamp now (.ioThread id) = some (now.ns / 10 ^ 6 * q.toNat + id.toNat) := by
  have hid := (mem_finalPows hq).2
  have hlt := now.lt
  have hmul : now.ns / 10 ^ 6 * q.toNat ≤ now.ns / 10 ^ 6 * 10 ^ 6 := Nat.mul_le_mul_left _ hle
  rw [timestamp_ioThread hq, Nat.mod_eq_of_lt (by omega)]

/-- The earlier write has the larger timestamp if its thread has the larger power. -/
theorem not_laterWins_of_lt {id id' q q' : UInt32} (hq : raisePow id 32 10 = some q)
    (hq' : raisePow id' 32 10 = some q') (hlt : q'.toNat < q.toNat) :
    ¬ LaterWins (.ioThread id) (.ioThread id') := by
  obtain ⟨hmem, hid⟩ := mem_finalPows hq
  obtain ⟨hmem', hid'⟩ := mem_finalPows hq'
  have hfar : ∀ p ∈ finalPows, ∀ p' ∈ finalPows, p' < p → (10 ^ 6 + 1001) * p' ≤ 10 ^ 6 * p := by
    decide
  have hqq' := hfar _ hmem _ hmem' hlt
  have hbound := q.toNat_lt
  intro h
  obtain ⟨ts, ts', hts, hts', hlt'⟩ :=
    h ⟨10 ^ 12, by decide⟩ ⟨10 ^ 12 + 10 ^ 9, by decide⟩ (by decide)
  rw [timestamp_ioThread hq, Option.some.injEq] at hts
  rw [timestamp_ioThread hq', Option.some.injEq] at hts'
  norm_num at hts hts' hqq' hbound
  rw [Nat.mod_eq_of_lt (by omega)] at hts hts'
  omega

/-- The times at which the product with the power has just overflowed. -/
theorem exists_overflow (k : ℕ) {q : ℕ} (hq : 0 < q) :
    ∃ ms, k * 2 ^ 64 ≤ ms * q ∧ ms * q < k * 2 ^ 64 + q := by
  refine ⟨(k * 2 ^ 64 + q - 1) / q, ?_, ?_⟩
  · have := Nat.lt_div_mul_add (a := k * 2 ^ 64 + q - 1) (b := q) hq
    omega
  · have := Nat.div_mul_le_self (k * 2 ^ 64 + q - 1) q
    omega

/-- A large number, if its loop ends at all, ends it at a large power. -/
theorem le_of_le_id {id q : UInt32} (hq : raisePow id 32 10 = some q) (hid : 10 ^ 6 ≤ id.toNat) :
    10 ^ 7 ≤ q.toNat := by
  have hlarge : ∀ p ∈ finalPows, 10 ^ 6 < p → 10 ^ 7 ≤ p := by decide
  obtain ⟨hmem, hlt⟩ := mem_finalPows hq
  exact hlarge _ hmem (lt_of_le_of_lt hid hlt)

/-- A thread with a large number loses against the client when its timestamps overflow. -/
theorem not_laterWins_client {id' q' : UInt32} (hq' : raisePow id' 32 10 = some q')
    (hid' : 10 ^ 6 ≤ id'.toNat) : ¬ LaterWins .client (.ioThread id') := by
  have hlarge := le_of_le_id hq' hid'
  have hbound := q'.toNat_lt
  have hlt := (mem_finalPows hq').2
  have hpos : 0 < q'.toNat := by omega
  obtain ⟨ms, hms, hms'⟩ := exists_overflow (7 * 10 ^ 12 * q'.toNat / 2 ^ 64 + 1) hpos
  have hge : 7 * 10 ^ 12 ≤ ms := by
    refine Nat.le_of_mul_le_mul_right (?_ : _ * q'.toNat ≤ ms * q'.toNat) (by omega)
    omega
  have hle : ms ≤ 9 * 10 ^ 12 := by
    refine Nat.le_of_mul_le_mul_right (?_ : ms * q'.toNat ≤ _ * q'.toNat) (by omega)
    omega
  intro h
  obtain ⟨ts, ts', hts, hts', hlt'⟩ :=
    h ⟨ms * 10 ^ 6 - 10 ^ 9, by omega⟩ ⟨ms * 10 ^ 6, by omega⟩ (by simp only; omega)
  have hclient := (generateTimestamp_bounds ⟨ms * 10 ^ 6 - 10 ^ 9, by omega⟩).2
  obtain rfl := Option.some.inj hts
  rw [timestamp_ioThread hq', Option.some.injEq, Nat.mul_div_cancel _ (by decide)] at hts'
  simp only at hclient
  omega

/-- It loses against any thread as well. -/
theorem not_laterWins_ioThread {id id' q q' : UInt32} (hq : raisePow id 32 10 = some q)
    (hq' : raisePow id' 32 10 = some q') (hid' : 10 ^ 6 ≤ id'.toNat) :
    ¬ LaterWins (.ioThread id) (.ioThread id') := by
  by_cases hqq' : q'.toNat < q.toNat
  · exact not_laterWins_of_lt hq hq' hqq'
  · have hlarge := le_of_le_id hq' hid'
    have hbound := q'.toNat_lt
    have hlt := (mem_finalPows hq).2
    have hlt' := (mem_finalPows hq').2
    have hten : ∀ p ∈ finalPows, 10 ≤ p := by decide
    have hqten := hten _ (mem_finalPows hq).1
    have hpos : 0 < q'.toNat := by omega
    obtain ⟨ms, hms, hms'⟩ := exists_overflow 1 hpos
    have hge : 2 ^ 32 ≤ ms := by
      refine Nat.le_of_mul_le_mul_right (?_ : _ * q'.toNat ≤ ms * q'.toNat) (by omega)
      omega
    have hle : ms ≤ 2 * 10 ^ 12 := by
      refine Nat.le_of_mul_le_mul_right (?_ : ms * q'.toNat ≤ _ * q'.toNat) (by omega)
      omega
    -- the earlier timestamp does not overflow, and is far above the rest of the later one
    have hsmall : (ms - 1000) * q.toNat + q.toNat < 2 ^ 64 := by
      have hmono : (ms - 1000) * q.toNat + q.toNat ≤ (ms - 1) * q'.toNat := by
        rw [← Nat.succ_mul]
        exact Nat.mul_le_mul (by omega) (by omega)
      have hpred : (ms - 1) * q'.toNat + q'.toNat = ms * q'.toNat := by
        rw [← Nat.succ_mul, Nat.succ_eq_add_one, Nat.sub_add_cancel (by omega)]
      omega
    have hfar : (2 ^ 32 - 1000) * 10 ≤ (ms - 1000) * q.toNat :=
      Nat.mul_le_mul (by omega) hqten
    have hdiv : (ms * 10 ^ 6 - 10 ^ 9) / 10 ^ 6 = ms - 1000 := by omega
    intro h
    obtain ⟨ts, ts', hts, hts', hlt''⟩ :=
      h ⟨ms * 10 ^ 6 - 10 ^ 9, by omega⟩ ⟨ms * 10 ^ 6, by omega⟩ (by simp only; omega)
    rw [timestamp_ioThread hq, Option.some.injEq, hdiv] at hts
    rw [timestamp_ioThread hq', Option.some.injEq, Nat.mul_div_cancel _ (by decide)] at hts'
    omega

/-- A write of a thread before a write of the client never counts: the client counts seconds. -/
theorem not_laterWins_of_client {id q : UInt32} (hq : raisePow id 32 10 = some q) :
    ¬ LaterWins (.ioThread id) .client := by
  have hten : ∀ p ∈ finalPows, 10 ≤ p := by decide
  have hqten := hten _ (mem_finalPows hq).1
  have hlt := (mem_finalPows hq).2
  have hbound := q.toNat_lt
  intro h
  obtain ⟨ts, ts', hts, hts', hlt'⟩ :=
    h ⟨1000000000000, by decide⟩ ⟨1001000000000, by decide⟩ (by decide)
  have hclient := (generateTimestamp_bounds ⟨1001000000000, by decide⟩).1
  rw [timestamp_ioThread hq, Option.some.injEq] at hts
  obtain rfl := Option.some.inj hts'
  norm_num at hts hclient hbound
  rw [Nat.mod_eq_of_lt (by omega)] at hts
  omega

/-- Timestamps are only compared if they are made. -/
theorem LaterWins.raisePow_isSome {w w' : Writer} (h : LaterWins w w') {id : UInt32}
    (hid : w = .ioThread id ∨ w' = .ioThread id) : ∃ q, raisePow id 32 10 = some q := by
  obtain ⟨ts, ts', hts, hts', -⟩ := h ⟨0, by decide⟩ ⟨10 ^ 9, by decide⟩ (by decide)
  obtain rfl | rfl := hid
  · simp only [timestamp, generateTimestampOfThread, Option.map_map, Option.map_eq_some_iff] at hts
    exact hts.imp fun q hq => hq.1
  · simp only [timestamp, generateTimestampOfThread, Option.map_map, Option.map_eq_some_iff] at hts'
    exact hts'.imp fun q hq => hq.1

/-! ### Comparing timestamps -/

theorem laterWins_client : LaterWins .client .client := by
  intro now now' hlater
  have hbounds := (generateTimestamp_bounds now).1
  have hbounds' := (generateTimestamp_bounds now').2
  exact ⟨_, _, rfl, rfl, by omega⟩

theorem laterWins_client_ioThread {id' : UInt32} (hid' : id'.toNat < 10 ^ 6) :
    LaterWins .client (.ioThread id') := by
  obtain ⟨q', hq', -, hle⟩ := raisePow_of_lt hid'
  intro now now' hlater
  have hbounds := (generateTimestamp_bounds now).1
  have hten : ∀ p ∈ finalPows, 10 ≤ p := by decide
  have hmul : now'.ns / 10 ^ 6 * 10 ≤ now'.ns / 10 ^ 6 * q'.toNat :=
    Nat.mul_le_mul_left _ (hten _ (mem_finalPows hq').1)
  exact ⟨_, _, rfl, timestamp_ioThread_of_lt hq' hle, by omega⟩

theorem laterWins_ioThread {id id' : UInt32} (hid' : id'.toNat < 10 ^ 6)
    (hlog : Nat.log 10 id.toNat ≤ Nat.log 10 id'.toNat) :
    LaterWins (.ioThread id) (.ioThread id') := by
  have hid : id.toNat < 10 ^ 6 := by
    have hlt : id.toNat < 10 ^ (Nat.log 10 id.toNat + 1) := Nat.lt_pow_succ_log_self (by decide) _
    have hlog' : Nat.log 10 id'.toNat < 6 := Nat.log_lt_of_lt_pow' (by decide) hid'
    exact hlt.trans_le (Nat.pow_le_pow_right (by decide) (by omega))
  obtain ⟨q, hq, hqlog, hle⟩ := raisePow_of_lt hid
  obtain ⟨q', hq', hqlog', hle'⟩ := raisePow_of_lt hid'
  have hqq' : q.toNat ≤ q'.toNat := by
    rw [hqlog, hqlog']
    exact Nat.pow_le_pow_right (by decide) (by omega)
  intro now now' hlater
  refine ⟨_, _, timestamp_ioThread_of_lt hq hle, timestamp_ioThread_of_lt hq' hle', ?_⟩
  have hlt := (mem_finalPows hq).2
  calc now.ns / 10 ^ 6 * q.toNat + id.toNat
      < (now.ns / 10 ^ 6 + 1) * q.toNat := by rw [Nat.succ_mul]; omega
    _ ≤ now'.ns / 10 ^ 6 * q'.toNat := Nat.mul_le_mul (by omega) hqq'
    _ ≤ now'.ns / 10 ^ 6 * q'.toNat + id'.toNat := Nat.le_add_right _ _

/-- **For which writers the later write wins.** -/
theorem laterWins_iff (w w' : Writer) : LaterWins w w' ↔ Comparable w w' := by
  cases w with
  | client =>
    cases w' with
    | client => exact iff_of_true laterWins_client trivial
    | ioThread id' =>
      refine ⟨fun h => ?_, laterWins_client_ioThread⟩
      obtain ⟨q', hq'⟩ := h.raisePow_isSome (.inr rfl)
      by_contra hid'
      exact not_laterWins_client hq' (not_lt.1 hid') h
  | ioThread id =>
    cases w' with
    | client =>
      refine iff_of_false (fun h => ?_) not_false
      obtain ⟨q, hq⟩ := h.raisePow_isSome (.inl rfl)
      exact not_laterWins_of_client hq h
    | ioThread id' =>
      refine ⟨fun h => ?_, fun h => laterWins_ioThread h.1 h.2⟩
      obtain ⟨q, hq⟩ := h.raisePow_isSome (.inl rfl)
      obtain ⟨q', hq'⟩ := h.raisePow_isSome (.inr rfl)
      have hid' : id'.toNat < 10 ^ 6 := by
        by_contra hid'
        exact not_laterWins_ioThread hq hq' (not_lt.1 hid') h
      refine ⟨hid', ?_⟩
      -- with more digits the earlier thread has the larger power
      by_contra hlog
      obtain ⟨q₀, hq₀, hq₀log, -⟩ := raisePow_of_lt hid'
      obtain rfl := Option.some.inj (hq'.symm.trans hq₀)
      have hne : id.toNat ≠ 0 := fun hz => by simp [hz] at hlog
      have hpow : 10 ^ (Nat.log 10 id'.toNat + 1) ≤ id.toNat :=
        Nat.pow_le_of_le_log hne (not_le.1 hlog)
      exact not_laterWins_of_lt hq hq' (hq₀log ▸ hpow.trans_lt (mem_finalPows hq).2) h

/-- A write of thread 0 is not overwritten by the client. -/
theorem not_laterWins_threadZero : ¬ ∀ w w', LaterWins w w' := by
  intro h
  have hpow : raisePow 0 32 10 = some 10 := by decide
  exact not_laterWins_of_client hpow (h (.ioThread 0) .client)

end Demeter.Client
