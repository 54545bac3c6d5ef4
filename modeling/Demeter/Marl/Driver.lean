import Demeter.Lib.Stride

/-!
# The multi-process function driver

`MARL/driver.py`, and the aggregation of `demeter_aggregate.py` that runs on it.  A function is
called on the whole data, or on the strides of the data, one for each worker process.

* `MultiProcessFunctionDriver.run` is the driver;
* `run_eq_map` says that it always maps the function over parts of the data that together are a
  permutation of it;
* `run_spec` is what this means for a homomorphism into a commutative monoid, with the place of
  every element when the data is split.
-/

namespace Demeter.Marl

variable {α β : Type*}

/-- `aggregate_chunk`; `rowHash` is `hash(str(row))`, of which the sum takes the last 16 bits. -/
def aggregateChunk (rowHash : α → ℤ) (rows : List α) : ℤ :=
  (rows.map fun row => rowHash row % 2 ^ 16).sum

theorem aggregateChunk_append (rowHash : α → ℤ) (rows rows' : List α) :
    aggregateChunk rowHash (rows ++ rows') =
      aggregateChunk rowHash rows + aggregateChunk rowHash rows' := by
  unfold aggregateChunk
  rw [List.map_append, List.sum_append]

theorem aggregateChunk_flatten (rowHash : α → ℤ) (parts : List (List α)) :
    aggregateChunk rowHash parts.flatten = (parts.map (aggregateChunk rowHash)).sum := by
  induction parts with
  | nil => rfl
  | cons rows parts ih =>
    rw [List.flatten_cons, aggregateChunk_append, ih, List.map_cons, List.sum_cons]

/-- `driver.cpu_cores`. -/
structure MultiProcessFunctionDriver where
  cpuCores : ℤ

namespace MultiProcessFunctionDriver

/-- At least one. -/
def workers (driver : MultiProcessFunctionDriver) : ℕ := (max 1 driver.cpuCores).toNat

/-- The slices `data[i::workers]`. -/
def chunks (driver : MultiProcessFunctionDriver) (data : List α) : List (List α) :=
  (List.range driver.workers).map fun i => strided driver.workers i data

/-- `_run_chunk`, which unpacks its argument. -/
def runChunk (args : (List α → β) × List α) : β := args.1 args.2

/-- The pool returns the results in the order of the chunks. -/
def run (driver : MultiProcessFunctionDriver) (func : List α → β) (data : List α) : List β :=
  if driver.workers = 1 ∨ data.length ≤ 1 then [func data]
  else ((driver.chunks data).map fun chunk => (func, chunk)).map runChunk

variable (driver : MultiProcessFunctionDriver)

theorem workers_pos : 0 < driver.workers := by
  unfold workers
  omega

theorem run_split {data : List α} (h : ¬ (driver.workers = 1 ∨ data.length ≤ 1))
    (func : List α → β) : driver.run func data = (driver.chunks data).map func := by
  rw [run, if_neg h, List.map_map]
  rfl

/-- The function is mapped over parts of the data with nothing lost or duplicated. -/
theorem run_eq_map (func : List α → β) (data : List α) :
    ∃ parts : List (List α), driver.run func data = parts.map func ∧ parts.flatten.Perm data := by
  by_cases h : driver.workers = 1 ∨ data.length ≤ 1
  · refine ⟨[data], if_pos h, ?_⟩
    rw [List.flatten_singleton]
  · exact ⟨driver.chunks data, driver.run_split h func,
      flatten_strides_perm driver.workers_pos data⟩

/-- **Running in chunks gives the result of running at once.**  When the data is split, element `j`
is element `j / workers` of chunk `j % workers`, and element `k` of chunk `i` is element
`i + k * workers` of the data. -/
theorem run_spec {M : Type*} [CommMonoid M] (func : List α → M) (hone : func [] = 1)
    (hmul : ∀ l l', func (l ++ l') = func l * func l') (data : List α) :
    (driver.run func data).prod = func data ∧
      (¬ (driver.workers = 1 ∨ data.length ≤ 1) →
        driver.run func data = (driver.chunks data).map func ∧
          (driver.chunks data).length = driver.workers ∧
          (driver.chunks data).flatten.Perm data ∧
          (∀ j, (driver.chunks data)[j % driver.workers]?.bind (·[j / driver.workers]?) =
            data[j]?) ∧
          ∀ i chunk, (driver.chunks data)[i]? = some chunk →
            ∀ k, chunk[k]? = data[i + k * driver.workers]?) := by
  have hw := driver.workers_pos
  constructor
  · obtain ⟨parts, hrun, hperm⟩ := driver.run_eq_map func data
    rw [hrun, ← prod_map_flatten hone hmul, eq_of_perm hmul hperm]
  · intro h
    refine ⟨driver.run_split h func, length_strides _ data, flatten_strides_perm hw data,
      getElem?_strides_mod hw data, ?_⟩
    intro i chunk hchunk k
    have hi : i < driver.workers := by
      rw [← length_strides driver.workers data]
      exact (List.getElem?_eq_some_iff.1 hchunk).1
    obtain rfl := Option.some.inj ((getElem?_strides hi data).symm.trans hchunk)
    exact getElem?_strided hw data i k

/-- Two workers for four rows: the second chunk has the rows at odd places. -/
theorem prod_run_aggregateChunk :
    ((⟨2⟩ : MultiProcessFunctionDriver).run
        (fun rows => Multiplicative.ofAdd (aggregateChunk (fun row : ℤ => row) rows))
        [70000, -1, 3, 5]).prod = Multiplicative.ofAdd 70007 ∧
      (∀ j : ℕ, ([[70000, 3], [-1, 5]] : List (List ℤ))[j % 2]?.bind (·[j / 2]?) =
        ([70000, -1, 3, 5] : List ℤ)[j]?) ∧
      ∀ k : ℕ, ([-1, 5] : List ℤ)[k]? = ([70000, -1, 3, 5] : List ℤ)[1 + k * 2]? := by
  obtain ⟨hprod, hsplit⟩ := run_spec ⟨2⟩
    (fun rows => Multiplicative.ofAdd (aggregateChunk (fun row : ℤ => row) rows)) rfl
    (fun rows rows' => congrArg Multiplicative.ofAdd (aggregateChunk_append _ rows rows'))
    [70000, -1, 3, 5]
  obtain ⟨-, -, -, hplace, hchunk⟩ := hsplit (by decide)
  exact ⟨hprod, hplace, hchunk 1 [-1, 5] (by decide)⟩

end MultiProcessFunctionDriver

/-! ### The aggregation -/

/-- The sum over the chunks. -/
def handle (rowHash : α → ℤ) (cpuCores : ℤ) (records : List α) : ℤ :=
  ((⟨cpuCores⟩ : MultiProcessFunctionDriver).run (aggregateChunk rowHash) records).sum

/-- The aggregate does not depend on the number of cores. -/
theorem handle_eq_aggregateChunk (rowHash : α → ℤ) (cpuCores : ℤ) (records : List α) :
    handle rowHash cpuCores records = aggregateChunk rowHash records := by
  obtain ⟨parts, hrun, hperm⟩ :=
    (⟨cpuCores⟩ : MultiProcessFunctionDriver).run_eq_map (aggregateChunk rowHash) records
  unfold handle
  rw [hrun, ← aggregateChunk_flatten]
  exact (hperm.map _).sum_eq

end Demeter.Marl
