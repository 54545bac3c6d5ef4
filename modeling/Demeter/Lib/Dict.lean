import Mathlib.Data.List.Nodup
import Mathlib.Algebra.BigOperators.Group.List.Basic
import Mathlib.Tactic

/-!
# Insertion-ordered dictionaries

A dictionary is a list of key/value entries with pairwise distinct keys, in the order in which
the keys were first inserted.

* `get?`, `set`, `modify`, `mapVals`, `erase`, `ofList` are the usual operations; `set` keeps the
  position of a key that is already there;
* `touch` stores a value only when the key is missing, as reading `m[k]` does in C++;
* `push` appends a value to the list stored under a key, and creates that list when it is missing;
  `appendAll` appends values to the lists of the keys that are there.
-/

universe u v w

/-- A finite dictionary whose entries are kept in insertion order. -/
structure Dict (κ : Type u) (ν : Type v) where
  entries : List (κ × ν)
  nodup : (entries.map Prod.fst).Nodup
  deriving DecidableEq

namespace Dict

variable {κ : Type u} {ν : Type v} {μ : Type w}

/-- The keys, in insertion order. -/
def keys (d : Dict κ ν) : List κ := d.entries.map Prod.fst

/-- The values, in the order of their keys. -/
def values (d : Dict κ ν) : List ν := d.entries.map Prod.snd

/-- The dictionary without entries. -/
def empty : Dict κ ν := ⟨[], List.nodup_nil⟩

/-- Apply a function to every value. -/
def mapVals (d : Dict κ ν) (f : κ → ν → μ) : Dict κ μ where
  entries := d.entries.map fun e => (e.1, f e.1 e.2)
  nodup := by simpa [Function.comp_def] using d.nodup

@[simp] theorem keys_mapVals (d : Dict κ ν) (f : κ → ν → μ) : (d.mapVals f).keys = d.keys := by
  simp [keys, mapVals, Function.comp_def]

theorem mapVals_id (d : Dict κ ν) : (d.mapVals fun _ v => v) = d := by
  cases d
  simp [mapVals]

theorem mapVals_mapVals {μ' : Type*} (d : Dict κ ν) (f : κ → ν → μ) (g : κ → μ → μ') :
    (d.mapVals f).mapVals g = d.mapVals fun k v => g k (f k v) := by
  simp [mapVals, Function.comp_def]

@[simp] theorem values_mapVals (d : Dict κ ν) (g : ν → μ) :
    (d.mapVals fun _ v => g v).values = d.values.map g := by
  simp [values, mapVals, Function.comp_def]

variable [DecidableEq κ]

/-- The value stored under a key. -/
def get? (d : Dict κ ν) (k : κ) : Option ν := d.entries.lookup k

/-- Change the value stored under a key that is present. -/
def modify (d : Dict κ ν) (k : κ) (f : ν → ν) : Dict κ ν :=
  d.mapVals fun k' v => if k' = k then f v else v

/-- Store a value; a new key goes to the end. -/
def set (d : Dict κ ν) (k : κ) (v : ν) : Dict κ ν :=
  if h : k ∈ d.keys then d.modify k fun _ => v
  else
    { entries := d.entries ++ [(k, v)]
      nodup := by
        rw [List.map_append, List.nodup_append]
        refine ⟨d.nodup, by simp, ?_⟩
        rintro a ha b hb rfl
        simp only [List.map_cons, List.map_nil, List.mem_singleton] at hb
        exact h (hb ▸ ha) }

/-- Remove a key. -/
def erase (d : Dict κ ν) (k : κ) : Dict κ ν where
  entries := d.entries.filter fun e => e.1 ≠ k
  nodup := d.nodup.sublist (List.filter_sublist.map _)

/-- Keep the entries that meet a condition. -/
def filter (d : Dict κ ν) (p : κ → ν → Bool) : Dict κ ν where
  entries := d.entries.filter fun e => p e.1 e.2
  nodup := d.nodup.sublist (List.filter_sublist.map _)

/-- Insert the entries of a list one after the other; the last value of a key stays. -/
def ofList (l : List (κ × ν)) : Dict κ ν := l.foldl (fun d e => d.set e.1 e.2) empty

/-! ### Lookup -/

theorem lookup_eq_some_of_mem {l : List (κ × ν)} (hl : (l.map Prod.fst).Nodup) {k : κ} {v : ν}
    (h : (k, v) ∈ l) : l.lookup k = some v := by
  induction l with
  | nil => cases h
  | cons e l ih =>
    obtain ⟨k', v'⟩ := e
    rw [List.map_cons, List.nodup_cons] at hl
    rcases List.mem_cons.1 h with heq | hmem
    · cases heq; simp
    · have hne : k ≠ k' := fun hk => hl.1 (List.mem_map.2 ⟨(k, v), hmem, hk⟩)
      rw [List.lookup_cons, beq_eq_false_iff_ne.2 hne]
      exact ih hl.2 hmem

theorem mem_of_lookup_eq_some {l : List (κ × ν)} {k : κ} {v : ν} (h : l.lookup k = some v) :
    (k, v) ∈ l := by
  induction l with
  | nil => cases h
  | cons e l ih =>
    obtain ⟨k', v'⟩ := e
    rw [List.lookup_cons] at h
    by_cases hk : k = k'
    · subst hk
      rw [beq_self_eq_true] at h
      cases h
      exact List.mem_cons_self
    · rw [beq_eq_false_iff_ne.2 hk] at h
      exact List.mem_cons_of_mem _ (ih h)

theorem lookup_map_snd (l : List (κ × ν)) (f : κ → ν → μ) (k : κ) :
    (l.map fun e => (e.1, f e.1 e.2)).lookup k = (l.lookup k).map (f k) := by
  induction l with
  | nil => rfl
  | cons e l ih =>
    obtain ⟨k', v'⟩ := e
    rw [List.map_cons, List.lookup_cons, List.lookup_cons, ih]
    by_cases hk : k = k'
    · subst hk; simp
    · simp [beq_eq_false_iff_ne.2 hk]

theorem lookup_filter_ne (l : List (κ × ν)) (k k' : κ) :
    (l.filter fun e => e.1 ≠ k).lookup k' = if k' = k then none else l.lookup k' := by
  induction l with
  | nil => simp
  | cons e l ih =>
    obtain ⟨k₀, v₀⟩ := e
    by_cases h₀ : k₀ = k
    · subst h₀
      rw [List.filter_cons_of_neg (by simp), ih, List.lookup_cons]
      split_ifs with h
      · rfl
      · rw [beq_eq_false_iff_ne.2 h]
    · rw [List.filter_cons_of_pos (by simpa using h₀), List.lookup_cons, List.lookup_cons, ih]
      split_ifs with h
      · subst h; rw [beq_eq_false_iff_ne.2 (Ne.symm h₀)]
      · rfl

/-- The entries are exactly the pairs that lookup finds. -/
theorem mem_entries_iff {d : Dict κ ν} {k : κ} {v : ν} :
    (k, v) ∈ d.entries ↔ d.get? k = some v :=
  ⟨lookup_eq_some_of_mem d.nodup, mem_of_lookup_eq_some⟩

theorem mem_values_iff {d : Dict κ ν} {v : ν} : v ∈ d.values ↔ ∃ k, d.get? k = some v := by
  simp only [values, List.mem_map, ← mem_entries_iff]
  exact ⟨fun ⟨e, he, hv⟩ => ⟨e.1, hv ▸ he⟩, fun ⟨k, hk⟩ => ⟨(k, v), hk, rfl⟩⟩

theorem mem_values_of_get? {d : Dict κ ν} {k : κ} {v : ν} (h : d.get? k = some v) :
    v ∈ d.values := mem_values_iff.2 ⟨k, h⟩

theorem mem_keys_iff {d : Dict κ ν} {k : κ} : k ∈ d.keys ↔ ∃ v, d.get? k = some v := by
  simp only [keys, List.mem_map, ← mem_entries_iff]
  exact ⟨fun ⟨e, he, hk⟩ => ⟨e.2, hk ▸ he⟩, fun ⟨v, hv⟩ => ⟨(k, v), hv, rfl⟩⟩

theorem get?_eq_none_iff {d : Dict κ ν} {k : κ} : d.get? k = none ↔ k ∉ d.keys := by
  rw [mem_keys_iff]
  cases d.get? k <;> simp

@[simp] theorem get?_empty (k : κ) : (empty : Dict κ ν).get? k = none := rfl

@[simp] theorem get?_mapVals (d : Dict κ ν) (f : κ → ν → μ) (k : κ) :
    (d.mapVals f).get? k = (d.get? k).map (f k) := lookup_map_snd d.entries f k

theorem get?_modify (d : Dict κ ν) (k k' : κ) (f : ν → ν) :
    (d.modify k f).get? k' = if k' = k then (d.get? k').map f else d.get? k' := by
  unfold modify
  rw [get?_mapVals]
  split_ifs with h <;> simp [h]

@[simp] theorem get?_modify_self (d : Dict κ ν) (k : κ) (f : ν → ν) :
    (d.modify k f).get? k = (d.get? k).map f := by simp [get?_modify]

@[simp] theorem keys_modify (d : Dict κ ν) (k : κ) (f : ν → ν) : (d.modify k f).keys = d.keys :=
  keys_mapVals _ _

theorem get?_set (d : Dict κ ν) (k k' : κ) (v : ν) :
    (d.set k v).get? k' = if k' = k then some v else d.get? k' := by
  unfold set
  split_ifs with hk h h
  · subst h
    obtain ⟨v', hv⟩ := mem_keys_iff.1 hk
    simp [hv]
  · simp [get?_modify, h]
  · subst h
    have hn := get?_eq_none_iff.2 hk
    unfold get? at hn ⊢
    rw [List.lookup_append, hn]
    simp
  · unfold get?
    rw [List.lookup_append, List.lookup_cons, beq_eq_false_iff_ne.2 h]
    simp

theorem keys_set (d : Dict κ ν) (k : κ) (v : ν) :
    (d.set k v).keys = if k ∈ d.keys then d.keys else d.keys ++ [k] := by
  unfold set
  split_ifs
  · exact keys_modify _ _ _
  · rw [keys, List.map_append]
    rfl

theorem mem_keys_set {d : Dict κ ν} {k k' : κ} {v : ν} :
    k' ∈ (d.set k v).keys ↔ k' = k ∨ k' ∈ d.keys := by
  rw [mem_keys_iff, mem_keys_iff, get?_set]
  by_cases h : k' = k <;> simp [h]

theorem entries_set_of_notMem {d : Dict κ ν} {k : κ} {v : ν} (h : k ∉ d.keys) :
    (d.set k v).entries = d.entries ++ [(k, v)] := by
  rw [set, dif_neg h]

theorem get?_erase (d : Dict κ ν) (k k' : κ) :
    (d.erase k).get? k' = if k' = k then none else d.get? k' := lookup_filter_ne d.entries k k'

theorem erase_set (d : Dict κ ν) (k : κ) (v : ν) : (d.set k v).erase k = d.erase k := by
  unfold set erase
  split_ifs with h
  · simp only [modify, mapVals, Dict.mk.injEq]
    induction d.entries with
    | nil => rfl
    | cons e l ih =>
      by_cases he : e.1 = k
      · simpa [List.filter_cons, he] using ih
      · simpa [List.filter_cons, he] using ih
  · simp

theorem erase_of_notMem {d : Dict κ ν} {k : κ} (h : k ∉ d.keys) : d.erase k = d := by
  obtain ⟨l, hl⟩ := d
  simp only [erase, mk.injEq, List.filter_eq_self]
  intro e he
  have hne : e.1 ≠ k := by
    rintro rfl
    exact h (List.mem_map_of_mem he)
  simpa using hne

omit [DecidableEq κ] in
theorem nodup_entries (d : Dict κ ν) : d.entries.Nodup := d.nodup.of_map

/-- A key that is present stands for one entry. -/
theorem perm_cons_erase {d : Dict κ ν} {k : κ} {v : ν} (h : d.get? k = some v) :
    d.entries.Perm ((k, v) :: (d.erase k).entries) := by
  have hnot : (k, v) ∉ (d.erase k).entries := fun hmem => by
    have hget := mem_entries_iff.1 hmem
    rw [get?_erase, if_pos rfl] at hget
    cases hget
  refine (List.perm_ext_iff_of_nodup d.nodup_entries
    (List.nodup_cons.2 ⟨hnot, (d.erase k).nodup_entries⟩)).2 fun e => ?_
  rw [List.mem_cons, mem_entries_iff, mem_entries_iff, get?_erase]
  by_cases hk : e.1 = k
  · rw [if_pos hk, hk, h, Option.some.injEq]
    constructor
    · intro hv
      exact .inl (Prod.ext hk hv.symm)
    · rintro (rfl | hv)
      · rfl
      · cases hv
  · rw [if_neg hk]
    refine ⟨.inr, ?_⟩
    rintro (rfl | hv)
    · exact absurd rfl hk
    · exact hv

/-! ### Default entries -/

/-- Store a value under a key that is missing. -/
def touch (d : Dict κ ν) (k : κ) (v : ν) : Dict κ ν := if k ∈ d.keys then d else d.set k v

theorem touch_of_mem {d : Dict κ ν} {k : κ} {v : ν} (h : k ∈ d.keys) : d.touch k v = d := if_pos h

theorem get?_touch_of_get? {d : Dict κ ν} {k k' : κ} {v v' : ν} (h : d.get? k' = some v') :
    (d.touch k v).get? k' = some v' := by
  unfold touch
  split_ifs with hk
  · exact h
  · have hne : k' ≠ k := by
      rintro rfl
      exact hk (mem_keys_iff.2 ⟨v', h⟩)
    rw [get?_set, if_neg hne, h]

/-- Every entry of the first dictionary is in the second. -/
def Sub (d d' : Dict κ ν) : Prop := ∀ k v, d.get? k = some v → d'.get? k = some v

theorem Sub.refl (d : Dict κ ν) : d.Sub d := fun _ _ h => h

theorem Sub.trans {d d' d'' : Dict κ ν} (h : d.Sub d') (h' : d'.Sub d'') : d.Sub d'' :=
  fun k v hk => h' k v (h k v hk)

theorem Sub.mem_keys {d d' : Dict κ ν} (h : d.Sub d') {k : κ} (hk : k ∈ d.keys) :
    k ∈ d'.keys := by
  obtain ⟨v, hv⟩ := mem_keys_iff.1 hk
  exact mem_keys_iff.2 ⟨v, h k v hv⟩

theorem sub_set_of_notMem {d : Dict κ ν} {k : κ} (h : k ∉ d.keys) (v : ν) : d.Sub (d.set k v) := by
  intro k' v' hk'
  rw [get?_set, if_neg, hk']
  rintro rfl
  exact h (mem_keys_iff.2 ⟨v', hk'⟩)

theorem sub_touch (d : Dict κ ν) (k : κ) (v : ν) : d.Sub (d.touch k v) :=
  fun _ _ h => get?_touch_of_get? h

theorem sub_foldl_touch (d : Dict κ ν) (l : List κ) (v : ν) :
    d.Sub (l.foldl (fun d k => d.touch k v) d) := by
  induction l generalizing d with
  | nil => exact Sub.refl d
  | cons k l ih => exact (sub_touch d k v).trans (ih _)

/-! ### Dictionaries built from lists -/

theorem get?_foldl_set (l : List (κ × ν)) (d : Dict κ ν) (k : κ) :
    (l.foldl (fun d e => d.set e.1 e.2) d).get? k = ((ofList l).get? k).or (d.get? k) := by
  induction l generalizing d with
  | nil => simp [ofList]
  | cons e l ih =>
    unfold ofList
    rw [List.foldl_cons, List.foldl_cons, ih, ih, get?_set, get?_set]
    split_ifs <;> simp

theorem get?_ofList_cons (e : κ × ν) (l : List (κ × ν)) (k : κ) :
    (ofList (e :: l)).get? k = ((ofList l).get? k).or (if k = e.1 then some e.2 else none) := by
  rw [ofList, List.foldl_cons, get?_foldl_set, get?_set, get?_empty]

/-- The last value of a key stays. -/
theorem get?_ofList (l : List (κ × ν)) (k : κ) :
    (ofList l).get? k = (l.reverse.find? (·.1 = k)).map Prod.snd := by
  induction l with
  | nil => rfl
  | cons e l ih =>
    rw [get?_ofList_cons, ih, List.reverse_cons, List.find?_append, Option.map_or]
    congr 1
    by_cases h : k = e.1
    · simp [h]
    · simp [h, Ne.symm h]

theorem mem_of_get?_ofList {l : List (κ × ν)} {k : κ} {v : ν} (h : (ofList l).get? k = some v) :
    (k, v) ∈ l := by
  induction l with
  | nil => cases h
  | cons e l ih =>
    rw [get?_ofList_cons, Option.or_eq_some_iff] at h
    rcases h with h | ⟨-, h⟩
    · exact List.mem_cons_of_mem _ (ih h)
    · split_ifs at h with hk
      cases h
      exact hk ▸ List.mem_cons_self

theorem exists_get?_ofList {l : List (κ × ν)} {k : κ} (h : k ∈ l.map Prod.fst) :
    ∃ v, (ofList l).get? k = some v := by
  induction l with
  | nil => cases h
  | cons e l ih =>
    rw [get?_ofList_cons]
    cases hl : (ofList l).get? k with
    | some v => exact ⟨v, rfl⟩
    | none =>
      rcases List.mem_cons.1 h with hk | hmem
      · exact ⟨e.2, by simp [hk]⟩
      · obtain ⟨v, hv⟩ := ih hmem
        rw [hl] at hv
        cases hv

theorem mem_keys_ofList {l : List (κ × ν)} {k : κ} :
    k ∈ (ofList l).keys ↔ k ∈ l.map Prod.fst := by
  rw [mem_keys_iff]
  refine ⟨fun ⟨v, hv⟩ => List.mem_map.2 ⟨(k, v), mem_of_get?_ofList hv, rfl⟩, exists_get?_ofList⟩

theorem entries_ofList {l : List (κ × ν)} (hl : (l.map Prod.fst).Nodup) :
    (ofList l).entries = l := by
  induction l using List.reverseRecOn with
  | nil => rfl
  | append_singleton l e ih =>
    rw [List.map_append, List.nodup_append] at hl
    have hnot : e.1 ∉ (ofList l).keys := by
      rw [mem_keys_ofList]
      exact fun hmem => hl.2.2 e.1 hmem e.1 (by simp) rfl
    rw [ofList, List.foldl_append, List.foldl_cons, List.foldl_nil, ← ofList,
      entries_set_of_notMem hnot, ih hl.1]

/-- The keys of a dictionary built from a list depend on the keys of the list only. -/
theorem keys_ofList_congr {l : List (κ × ν)} {l' : List (κ × μ)}
    (h : l.map Prod.fst = l'.map Prod.fst) : (ofList l).keys = (ofList l').keys := by
  induction l using List.reverseRecOn generalizing l' with
  | nil => rw [List.map_eq_nil_iff.1 h.symm]; rfl
  | append_singleton l e ih =>
    rw [List.map_append, eq_comm, List.map_eq_append_iff] at h
    obtain ⟨l₁, l₂, rfl, hl₁, hl₂⟩ := h
    obtain ⟨e', rfl, he'⟩ := List.map_eq_singleton_iff.1 hl₂
    simp only [ofList, List.foldl_append, List.foldl_cons, List.foldl_nil]
    rw [keys_set, keys_set, he', ← ofList, ← ofList, ih hl₁.symm]

/-- A dictionary whose values are given by a function of the key. -/
theorem entries_eq_map {d : Dict κ ν} {f : κ → ν} (h : ∀ k ∈ d.keys, d.get? k = some (f k)) :
    d.entries = d.keys.map fun k => (k, f k) := by
  rw [keys, List.map_map]
  refine (List.map_id _).symm.trans (List.map_congr_left fun e he => ?_)
  have hget := mem_entries_iff.1 (show (e.1, e.2) ∈ d.entries from he)
  rw [h e.1 (List.mem_map.2 ⟨e, he, rfl⟩), Option.some.injEq] at hget
  exact Prod.ext rfl hget.symm

theorem values_eq_map {d : Dict κ ν} {f : κ → ν} (h : ∀ k ∈ d.keys, d.get? k = some (f k)) :
    d.values = d.keys.map f := by
  rw [values, entries_eq_map h, List.map_map]
  rfl

/-! ### Modifying one value -/

theorem exists_of_mem_values_modify {d : Dict κ ν} {k : κ} {f : ν → ν} {v : ν}
    (h : v ∈ (d.modify k f).values) : v ∈ d.values ∨ ∃ v₀, d.get? k = some v₀ ∧ v = f v₀ := by
  obtain ⟨k', hk'⟩ := mem_values_iff.1 h
  rw [get?_modify] at hk'
  split_ifs at hk' with hk
  · subst hk
    obtain ⟨v₀, hv₀, rfl⟩ := Option.map_eq_some_iff.1 hk'
    exact Or.inr ⟨v₀, hv₀, rfl⟩
  · exact Or.inl (mem_values_of_get? hk')

/-- Changing one value changes a sum over all values by the difference at that value. -/
theorem sum_map_modify {M : Type*} [AddCommMonoid M] (m : ν → M) (d : Dict κ ν) {k : κ} {v : ν}
    (f : ν → ν) (h : d.get? k = some v) :
    ((d.modify k f).values.map m).sum + m v = (d.values.map m).sum + m (f v) := by
  obtain ⟨l, hl⟩ := d
  unfold get? at h
  simp only [modify, mapVals, values, List.map_map] at h ⊢
  induction l with
  | nil => cases h
  | cons e l ih =>
    obtain ⟨k', v'⟩ := e
    rw [List.map_cons, List.nodup_cons] at hl
    rw [List.lookup_cons] at h
    by_cases hk : k = k'
    · subst hk
      rw [beq_self_eq_true] at h
      cases h
      -- the key does not occur again, so the tail is unchanged
      have htail : l.map (m ∘ Prod.snd ∘ fun e => (e.1, if e.1 = k then f e.2 else e.2)) =
          l.map (m ∘ Prod.snd) := by
        apply List.map_congr_left
        intro e he
        have hne : e.1 ≠ k := fun hk => hl.1 (List.mem_map.2 ⟨e, he, hk⟩)
        simp [hne]
      simp only [List.map_cons, List.sum_cons, htail, Function.comp_apply, if_true]
      abel
    · rw [beq_eq_false_iff_ne.2 hk] at h
      have := ih hl.2 h
      simp only [List.map_cons, List.sum_cons, Function.comp_apply, if_neg (Ne.symm hk)]
      rw [add_assoc, this, add_assoc]

/-! ### Dictionaries of lists -/

/-- Append each value to the list stored under its key; values of other keys are dropped. -/
def appendAll (d : Dict κ (List ν)) (l : List (κ × ν)) : Dict κ (List ν) :=
  l.foldl (fun d e => d.modify e.1 (· ++ [e.2])) d

theorem get?_appendAll (d : Dict κ (List ν)) (l : List (κ × ν)) (k : κ) :
    (d.appendAll l).get? k = (d.get? k).map (· ++ (l.filter (·.1 = k)).map Prod.snd) := by
  unfold appendAll
  induction l generalizing d with
  | nil => simp
  | cons e l ih =>
    rw [List.foldl_cons, ih, get?_modify]
    by_cases h : k = e.1
    · subst h
      simp [Function.comp_def]
    · rw [if_neg h, List.filter_cons_of_neg (by simpa using Ne.symm h)]

@[simp] theorem keys_appendAll (d : Dict κ (List ν)) (l : List (κ × ν)) :
    (d.appendAll l).keys = d.keys := by
  unfold appendAll
  induction l generalizing d with
  | nil => rfl
  | cons e l ih => rw [List.foldl_cons, ih, keys_modify]

/-- Append a value to the list stored under a key, starting a new list if there is none. -/
def push (d : Dict κ (List ν)) (k : κ) (x : ν) : Dict κ (List ν) :=
  d.set k ((d.get? k).getD [] ++ [x])

theorem get?_push (d : Dict κ (List ν)) (k k' : κ) (x : ν) :
    (d.push k x).get? k' = if k' = k then some ((d.get? k).getD [] ++ [x]) else d.get? k' :=
  get?_set _ _ _ _

/-- Values that are pushed one after the other. -/
theorem get?_foldl_push (l : List (κ × ν)) (d : Dict κ (List ν)) (k : κ) :
    (l.foldl (fun d e => d.push e.1 e.2) d).get? k =
      if k ∈ l.map Prod.fst then
        some ((d.get? k).getD [] ++ (l.filter (·.1 = k)).map Prod.snd)
      else d.get? k := by
  induction l generalizing d with
  | nil => rfl
  | cons e l ih =>
    rw [List.foldl_cons, ih, get?_push]
    by_cases hk : k = e.1
    · subst hk
      by_cases hmem : e.1 ∈ l.map Prod.fst
      · simp [hmem]
      · have hnone : l.filter (fun e' => decide (e'.1 = e.1)) = [] := by
          rw [List.filter_eq_nil_iff]
          intro e' he' heq
          exact hmem (List.mem_map.2 ⟨e', he', of_decide_eq_true heq⟩)
        simp [hmem, hnone]
    · have hmem : k ∈ (e :: l).map Prod.fst ↔ k ∈ l.map Prod.fst := by
        rw [List.map_cons, List.mem_cons, or_iff_right hk]
      rw [if_neg hk, List.filter_cons_of_neg (by simpa using Ne.symm hk)]
      exact (if_congr hmem rfl rfl).symm

theorem mem_keys_foldl_push {l : List (κ × ν)} {d : Dict κ (List ν)} {k : κ} :
    k ∈ (l.foldl (fun d e => d.push e.1 e.2) d).keys ↔ k ∈ d.keys ∨ k ∈ l.map Prod.fst := by
  simp only [mem_keys_iff, get?_foldl_push]
  split_ifs with hk <;> simp [hk]

theorem get?_filter (d : Dict κ ν) (p : κ → ν → Bool) (k : κ) :
    (d.filter p).get? k = (d.get? k).filter (p k) := by
  cases hget : (d.filter p).get? k with
  | some v =>
    obtain ⟨hmem, hp⟩ := List.mem_filter.1 (mem_entries_iff.2 hget)
    rw [mem_entries_iff.1 hmem, Option.filter_some, if_pos hp]
  | none =>
    cases hd : d.get? k with
    | none => rfl
    | some v =>
      have hp : p k v ≠ true := fun hp => by
        have hmem : (k, v) ∈ (d.filter p).entries :=
          List.mem_filter.2 ⟨mem_entries_iff.2 hd, hp⟩
        rw [mem_entries_iff.1 hmem] at hget
        cases hget
      rw [Option.filter_some, if_neg hp]

theorem mem_keys_erase {d : Dict κ ν} {k k' : κ} :
    k' ∈ (d.erase k).keys ↔ k' ≠ k ∧ k' ∈ d.keys := by
  rw [mem_keys_iff, mem_keys_iff, get?_erase]
  by_cases hk : k' = k <;> simp [hk]

theorem mem_keys_filter {d : Dict κ ν} {p : κ → ν → Bool} {k : κ} :
    k ∈ (d.filter p).keys ↔ ∃ v, d.get? k = some v ∧ p k v = true := by
  rw [mem_keys_iff]
  simp only [get?_filter, Option.filter_eq_some_iff]

/-- A sum over the entries in which only one key counts. -/
theorem sum_entries_of_key {d : Dict κ ν} {k : κ} {f : κ × ν → ℕ}
    (h : ∀ e ∈ d.entries, e.1 ≠ k → f e = 0) :
    (d.entries.map f).sum = (d.get? k).elim 0 fun v => f (k, v) := by
  obtain ⟨l, hl⟩ := d
  change (l.map f).sum = (l.lookup k).elim 0 fun v => f (k, v)
  change ∀ e ∈ l, e.1 ≠ k → f e = 0 at h
  induction l with
  | nil => rfl
  | cons e l ih =>
    obtain ⟨k₀, v₀⟩ := e
    rw [List.map_cons, List.nodup_cons] at hl
    rw [List.map_cons, List.sum_cons, List.lookup_cons]
    by_cases hk : k = k₀
    · subst hk
      -- the key does not occur again
      have hzero : ∀ n ∈ l.map f, n = 0 := by
        intro n hn
        obtain ⟨e, he, rfl⟩ := List.mem_map.1 hn
        refine h e (List.mem_cons_of_mem _ he) fun heq => hl.1 ?_
        exact List.mem_map.2 ⟨e, he, heq⟩
      rw [List.sum_eq_zero hzero, beq_self_eq_true]
      rfl
    · rw [h _ List.mem_cons_self (Ne.symm hk), beq_eq_false_iff_ne.2 hk, Nat.zero_add]
      exact ih hl.2 fun e he => h e (List.mem_cons_of_mem _ he)

end Dict
