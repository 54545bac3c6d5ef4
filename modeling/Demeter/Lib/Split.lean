import Mathlib.Data.List.TakeWhile
import Mathlib.Tactic

/-!
# Splitting with `getline`

`split d s` collects the items that repeated calls of `getline` with the delimiter `d` read from
the sequence `s`.  `getline` fails only when nothing is left, so a delimiter at the very end does
not start another item: an empty last field is lost.

* `split_eq_getline` is the loop;
* `split_append_cons` and `split_of_notMem` read one field;
* `split_delimited` is the effect on fields written with a delimiter before each but the first.
-/

namespace GetLine

variable {α : Type*} [DecidableEq α] (d : α)

/-- Read up to the next delimiter, which is dropped; `none` if there is nothing to read. -/
def getline : List α → Option (List α × List α)
  | [] => none
  | c :: s => some ((c :: s).takeWhile (· ≠ d), ((c :: s).dropWhile (· ≠ d)).tail)

/-- All items read by `getline`, one after the other. -/
def split : List α → List (List α)
  | [] => []
  | c :: s =>
      if c = d then [] :: split s
      else
        match split s with
        | [] => [[c]]
        | item :: items => (c :: item) :: items

variable {d}

@[simp] theorem split_nil : split d [] = [] := rfl

theorem split_cons_self (s : List α) : split d (d :: s) = [] :: split d s := by
  rw [split, if_pos rfl]

theorem split_of_notMem {item : List α} (h : d ∉ item) (hne : item ≠ []) :
    split d item = [item] := by
  induction item with
  | nil => exact absurd rfl hne
  | cons c item ih =>
    have hc : c ≠ d := fun hc => h (by simp [hc])
    rw [split, if_neg hc]
    cases item with
    | nil => rfl
    | cons c' item => rw [ih (fun hd => h (List.mem_cons_of_mem c hd)) (by simp)]

theorem split_append_cons {item : List α} (h : d ∉ item) (rest : List α) :
    split d (item ++ d :: rest) = item :: split d rest := by
  induction item with
  | nil => exact split_cons_self rest
  | cons c item ih =>
    have hc : c ≠ d := fun hc => h (by simp [hc])
    rw [List.cons_append, split, if_neg hc, ih fun hd => h (List.mem_cons_of_mem c hd)]

/-- The loop `while (getline(ss, item, d)) elems.push_back(item)`. -/
theorem split_eq_getline (s : List α) :
    split d s = match getline d s with
      | none => []
      | some (item, rest) => item :: split d rest := by
  cases s with
  | nil => rfl
  | cons c s =>
    have happ := List.takeWhile_append_dropWhile (p := (· ≠ d)) (l := c :: s)
    have hnot : d ∉ (c :: s).takeWhile (· ≠ d) := fun hd => by
      simpa using List.mem_takeWhile_imp hd
    simp only [getline]
    cases hrest : (c :: s).dropWhile (· ≠ d) with
    | nil =>
      -- no delimiter is left: the item is the whole sequence
      rw [hrest, List.append_nil] at happ
      rw [happ] at hnot ⊢
      exact split_of_notMem hnot (List.cons_ne_nil c s)
    | cons c' rest =>
      have hne : (c :: s).dropWhile (· ≠ d) ≠ [] := by rw [hrest]; exact List.cons_ne_nil c' rest
      have hc' : c' = d := by
        have hhead := List.head_dropWhile_not (· ≠ d) hne
        simp only [hrest, List.head_cons] at hhead
        simpa using hhead
      rw [hrest, hc'] at happ
      rw [← split_append_cons hnot, List.tail_cons, happ]

/-- No item has a delimiter, and the items are made of the sequence. -/
theorem mem_split {s item : List α} (h : item ∈ split d s) : d ∉ item ∧ ∀ c ∈ item, c ∈ s := by
  induction s generalizing item with
  | nil => cases h
  | cons c s ih =>
    rw [split] at h
    split_ifs at h with hc
    · rcases List.mem_cons.1 h with rfl | h
      · simp
      · exact ⟨(ih h).1, fun c' hc' => List.mem_cons_of_mem c ((ih h).2 c' hc')⟩
    · cases hs : split d s with
      | nil =>
        rw [hs] at h
        obtain rfl := List.mem_singleton.1 h
        exact ⟨by simpa using fun hd => hc hd.symm, by simp⟩
      | cons item' items =>
        simp only [hs] at h ih
        rcases List.mem_cons.1 h with rfl | h
        · have hitem := ih List.mem_cons_self
          refine ⟨fun hd => ?_, fun c' hc' => ?_⟩
          · exact (List.mem_cons.1 hd).elim (fun hd => hc hd.symm) hitem.1
          · exact List.mem_cons.2 ((List.mem_cons.1 hc').imp_right (hitem.2 c'))
        · have hitem := ih (List.mem_cons_of_mem item' h)
          exact ⟨hitem.1, fun c' hc' => List.mem_cons_of_mem c (hitem.2 c' hc')⟩

/-- The first item is what stands before the first delimiter. -/
theorem head?_split {s item : List α} (h : (split d s).head? = some item) :
    item = s.takeWhile (· ≠ d) := by
  rw [split_eq_getline] at h
  cases s with
  | nil => cases h
  | cons c s => exact (Option.some.inj h).symm

/-- The fields come back, without the last one if that is empty. -/
theorem split_delimited {f : List α} {fs : List (List α)} (h : ∀ x ∈ f :: fs, d ∉ x) :
    split d (f ++ fs.flatMap (d :: ·)) =
      if (f :: fs).getLast (List.cons_ne_nil f fs) = [] then (f :: fs).dropLast else f :: fs := by
  induction fs generalizing f with
  | nil =>
    rw [List.flatMap_nil, List.append_nil]
    by_cases hf : f = []
    · simp [hf]
    · simp [hf, split_of_notMem (h f (by simp)) hf]
  | cons g fs ih =>
    rw [List.flatMap_cons, List.cons_append, split_append_cons (h f (by simp)),
      ih fun x hx => h x (List.mem_cons_of_mem f hx), List.getLast_cons (List.cons_ne_nil g fs)]
    split_ifs <;> rfl

end GetLine
