import Mathlib.Data.List.Basic
import Mathlib.Data.List.Nodup
import Mathlib.Tactic

/-!
# Ordered partitions of a list

`Partitions l parts` says that the positions of `l` are divided among `parts`, each part keeping the
order of `l`.

* `Partitions.of_keys`: grouping by a key, one part for each key;
* `Partitions.of_flatten`: cutting a list into consecutive blocks with distinct labels;
* `Partitions.perm_flatten`: the parts together have the elements of the list.
-/

variable {α β κ : Type*}

/-- The elements of `l` whose label is `k`. -/
def labelled [DecidableEq κ] (l : List α) (labels : List κ) (k : κ) : List α :=
  ((l.zip labels).filter (·.2 = k)).map Prod.fst

/-- The positions of `l` are divided among the parts: position `i` belongs to the part with number
`owner[i]`, and every part lists its elements in the order of `l`. -/
def Partitions (l : List α) (parts : List (List α)) : Prop :=
  ∃ owner : List ℕ, owner.length = l.length ∧ (∀ j ∈ owner, j < parts.length) ∧
    ∀ j part, parts[j]? = some part → part = labelled l owner j

section Labelled

variable [DecidableEq κ]

@[simp] theorem labelled_nil (labels : List κ) (k : κ) : labelled ([] : List α) labels k = [] := rfl

theorem labelled_cons (a : α) (l : List α) (k' : κ) (labels : List κ) (k : κ) :
    labelled (a :: l) (k' :: labels) k =
      if k' = k then a :: labelled l labels k else labelled l labels k := by
  by_cases h : k' = k <;> simp [labelled, h]

theorem labelled_append {l l' : List α} {labels labels' : List κ} (h : l.length = labels.length)
    (k : κ) : labelled (l ++ l') (labels ++ labels') k =
      labelled l labels k ++ labelled l' labels' k := by
  simp [labelled, List.zip_append h]

theorem labelled_replicate (l : List α) (k k' : κ) :
    labelled l (List.replicate l.length k') k = if k' = k then l else [] := by
  induction l with
  | nil => simp
  | cons a l ih =>
    rw [List.length_cons, List.replicate_succ, labelled_cons, ih]
    split_ifs <;> rfl

theorem labelled_eq_nil {l : List α} {labels : List κ} {k : κ} (h : k ∉ labels) :
    labelled l labels k = [] := by
  rw [labelled, List.map_eq_nil_iff, List.filter_eq_nil_iff]
  rintro ⟨a, k'⟩ hmem
  obtain ⟨-, hk'⟩ := List.of_mem_zip hmem
  simp only [decide_eq_true_eq]
  rintro rfl
  exact h hk'

theorem length_labelled {l : List α} {labels : List κ} (h : l.length = labels.length) (k : κ) :
    (labelled l labels k).length = labels.count k := by
  have hsnd : (l.zip labels).map Prod.snd = labels := List.map_snd_zip h.ge
  rw [labelled, List.length_map, ← List.countP_eq_length_filter, ← hsnd, List.count,
    List.countP_map, hsnd]
  rfl

theorem map_labelled (f : α → β) (l : List α) (labels : List κ) (k : κ) :
    (labelled l labels k).map f = labelled (l.map f) labels k := by
  induction l generalizing labels with
  | nil => rfl
  | cons a l ih =>
    cases labels with
    | nil => rfl
    | cons k' labels =>
      rw [List.map_cons, labelled_cons, labelled_cons, ← ih]
      split_ifs <;> rfl

/-- Grouping by a label gives a partition, with one part for each of the distinct keys. -/
theorem Partitions.of_keys {l : List α} (labels : List κ) {parts : List (κ × List α)}
    (hkeys : (parts.map Prod.fst).Nodup) (hlen : labels.length = l.length)
    (hmem : ∀ k ∈ labels, k ∈ parts.map Prod.fst)
    (hpart : ∀ e ∈ parts, e.2 = labelled l labels e.1) : Partitions l (parts.map Prod.snd) := by
  refine ⟨labels.map ((parts.map Prod.fst).idxOf ·), by simpa using hlen, ?_, ?_⟩
  · intro j hj
    obtain ⟨k, hk, rfl⟩ := List.mem_map.1 hj
    simpa using List.idxOf_lt_length_of_mem (hmem k hk)
  · intro j part hj
    rw [List.getElem?_map, Option.map_eq_some_iff] at hj
    obtain ⟨e, he, rfl⟩ := hj
    have hkey : (parts.map Prod.fst)[j]? = some e.1 := by
      rw [List.getElem?_map, he, Option.map_some]
    obtain ⟨hlt, hget⟩ := List.getElem?_eq_some_iff.1 hkey
    -- a label has number `j` exactly when it is the `j`-th key
    have hidx : ∀ k ∈ labels, (parts.map Prod.fst).idxOf k = j ↔ k = e.1 := by
      intro k hk
      constructor
      · rintro rfl
        rw [← hget, List.getElem_idxOf]
      · rintro rfl
        rw [← hget]
        exact List.Nodup.idxOf_getElem hkeys j hlt
    rw [hpart e (List.mem_of_getElem? he), labelled, labelled, List.zip_map_right, List.filter_map,
      List.map_map]
    congr 1
    refine List.filter_congr fun x hx => ?_
    simp only [Function.comp_apply, Prod.map_snd, decide_eq_decide]
    exact (hidx x.2 (List.of_mem_zip hx).2).symm

theorem labelled_flatten {parts : List (κ × List α)} (hkeys : (parts.map Prod.fst).Nodup)
    {e : κ × List α} (he : e ∈ parts) :
    labelled (parts.flatMap Prod.snd) (parts.flatMap fun e => List.replicate e.2.length e.1) e.1 =
      e.2 := by
  induction parts with
  | nil => cases he
  | cons p parts ih =>
    rw [List.map_cons, List.nodup_cons] at hkeys
    rw [List.flatMap_cons, List.flatMap_cons, labelled_append (by simp), labelled_replicate]
    rcases List.mem_cons.1 he with rfl | he
    · rw [if_pos rfl, labelled_eq_nil, List.append_nil]
      intro hmem
      obtain ⟨q, hq, hrep⟩ := List.mem_flatMap.1 hmem
      exact hkeys.1 (List.mem_map.2 ⟨q, hq, (List.eq_of_mem_replicate hrep).symm⟩)
    · have hne : p.1 ≠ e.1 := fun h => hkeys.1 (h ▸ List.mem_map.2 ⟨e, he, rfl⟩)
      rw [if_neg hne, List.nil_append]
      exact ih hkeys.2 he

/-- Consecutive blocks form a partition of their concatenation, in whatever order they are
listed. -/
theorem Partitions.of_flatten {parts parts' : List (κ × List α)}
    (hkeys : (parts.map Prod.fst).Nodup) (hperm : parts'.Perm parts) :
    Partitions (parts.flatMap Prod.snd) (parts'.map Prod.snd) := by
  refine .of_keys (parts.flatMap fun e => List.replicate e.2.length e.1)
    ((hperm.map Prod.fst).nodup_iff.2 hkeys) ?_ ?_ ?_
  · simp [List.length_flatMap]
  · intro k hk
    obtain ⟨e, he, hrep⟩ := List.mem_flatMap.1 hk
    exact List.mem_map.2 ⟨e, hperm.mem_iff.2 he, (List.eq_of_mem_replicate hrep).symm⟩
  · exact fun e he => (labelled_flatten hkeys (hperm.mem_iff.1 he)).symm

/-- Every element has one label. -/
theorem sum_labelled {m : ℕ} {l : List α} {owner : List ℕ} (hlen : owner.length = l.length)
    (howner : ∀ j ∈ owner, j < m) :
    ∑ j ∈ Finset.range m, (labelled l owner j : Multiset α) = l := by
  induction l generalizing owner with
  | nil => simp
  | cons a l ih =>
    cases owner with
    | nil => cases hlen
    | cons k owner =>
      obtain ⟨hk, howner⟩ := List.forall_mem_cons.1 howner
      have hsplit : ∀ j, (labelled (a :: l) (k :: owner) j : Multiset α) =
          (if k = j then {a} else 0) + (labelled l owner j : Multiset α) := by
        intro j
        rw [labelled_cons]
        split_ifs
        · rw [← Multiset.cons_coe, Multiset.singleton_add]
        · rw [zero_add]
      rw [Finset.sum_congr rfl fun j _ => hsplit j, Finset.sum_add_distrib,
        ih (Nat.succ.inj hlen) howner, Finset.sum_ite_eq, if_pos (Finset.mem_range.2 hk),
        Multiset.singleton_add, Multiset.cons_coe]

/-- The parts together have the elements of the list. -/
theorem Partitions.perm_flatten {l : List α} {parts : List (List α)} (h : Partitions l parts) :
    parts.flatten.Perm l := by
  obtain ⟨owner, hlen, howner, hparts⟩ := h
  have hprefix : ∀ m ≤ parts.length, ((parts.take m).flatten : Multiset α) =
      ∑ j ∈ Finset.range m, (labelled l owner j : Multiset α) := by
    intro m hm
    induction m with
    | zero => rfl
    | succ m ih =>
      have hget := List.getElem?_eq_getElem (Nat.lt_of_succ_le hm)
      rw [Finset.sum_range_succ, ← ih (Nat.le_of_succ_le hm), List.take_add_one, hget,
        Option.toList_some, List.flatten_append, List.flatten_singleton, ← Multiset.coe_add,
        ← hparts m _ hget]
  have hall := hprefix parts.length le_rfl
  rw [List.take_length, sum_labelled hlen howner] at hall
  exact Multiset.coe_eq_coe.1 hall

end Labelled
