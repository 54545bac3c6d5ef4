import Mathlib.Algebra.BigOperators.Group.List.Basic
import Mathlib.Tactic

/-!
# Every n-th element of a list

* `strided n i l` lists the elements of `l` at the positions `i`, `i + n`, `i + 2 * n`, …;
* `flatten_strides_perm`: the strides from the positions below `n` together are the list, in
  another order;
* `prod_map_flatten`, `eq_of_perm`: a homomorphism from lists into a commutative monoid turns
  parts into factors and does not depend on the order.
-/

variable {α M : Type*}

/-- Skip `i` elements, take one, and from then on skip `n - 1` elements before each one taken. -/
def strided (n : ℕ) : ℕ → List α → List α
  | _, [] => []
  | 0, x :: l => x :: strided n (n - 1) l
  | i + 1, _ :: l => strided n i l

@[simp] theorem strided_nil (n i : ℕ) : strided n i ([] : List α) = [] := by
  cases i <;> rfl

theorem strided_zero_cons (n : ℕ) (x : α) (l : List α) :
    strided n 0 (x :: l) = x :: strided n (n - 1) l := rfl

theorem strided_succ_cons (n i : ℕ) (x : α) (l : List α) :
    strided n (i + 1) (x :: l) = strided n i l := rfl

theorem getElem?_strided {n : ℕ} (hn : 0 < n) (l : List α) (i k : ℕ) :
    (strided n i l)[k]? = l[i + k * n]? := by
  induction l generalizing i k with
  | nil => simp
  | cons x l ih =>
    cases i with
    | succ i =>
      have hpos : i + 1 + k * n = (i + k * n) + 1 := by omega
      rw [strided_succ_cons, ih, hpos, List.getElem?_cons_succ]
    | zero =>
      cases k with
      | zero => simp [strided_zero_cons]
      | succ k =>
        have hpos : 0 + (k + 1) * n = (n - 1 + k * n) + 1 := by
          rw [Nat.succ_mul]
          omega
        rw [strided_zero_cons, List.getElem?_cons_succ, ih, hpos, List.getElem?_cons_succ]

/-- The strides of a list. -/
def strides (n : ℕ) (l : List α) : List (List α) := (List.range n).map fun i => strided n i l

@[simp] theorem length_strides (n : ℕ) (l : List α) : (strides n l).length = n := by
  simp [strides]

theorem getElem?_strides {n i : ℕ} (hi : i < n) (l : List α) :
    (strides n l)[i]? = some (strided n i l) := by
  simp [strides, List.getElem?_range hi]

/-- An element goes to the stride of its position, behind the earlier ones of that stride. -/
theorem getElem?_strides_mod {n : ℕ} (hn : 0 < n) (l : List α) (j : ℕ) :
    (strides n l)[j % n]?.bind (·[j / n]?) = l[j]? := by
  have hj : j % n + j / n * n = j := by
    rw [Nat.mul_comm]
    exact Nat.mod_add_div j n
  rw [getElem?_strides (Nat.mod_lt j hn), Option.bind_some, getElem?_strided hn, hj]

/-- The first element is the head of the first stride, and moves all strides of the rest by one. -/
theorem strides_succ_cons (n : ℕ) (x : α) (l : List α) :
    strides (n + 1) (x :: l) =
      (x :: strided (n + 1) n l) :: (List.range n).map fun i => strided (n + 1) i l := by
  rw [strides, List.range_succ_eq_map, List.map_cons, List.map_map]
  rfl

theorem flatten_strides_perm {n : ℕ} (hn : 0 < n) (l : List α) : (strides n l).flatten.Perm l := by
  obtain ⟨n, rfl⟩ := Nat.exists_eq_add_one.2 hn
  induction l with
  | nil => simp [strides]
  | cons x l ih =>
    have hlast : (strides (n + 1) l).flatten =
        ((List.range n).map fun i => strided (n + 1) i l).flatten ++ strided (n + 1) n l := by
      rw [strides, List.range_succ, List.map_append, List.flatten_append]
      simp
    rw [strides_succ_cons, List.flatten_cons, List.cons_append]
    refine List.Perm.cons x ?_
    rw [hlast] at ih
    exact List.perm_append_comm.trans ih

section Homomorphism

variable [CommMonoid M] {f : List α → M}

theorem prod_map_flatten (hone : f [] = 1) (hmul : ∀ l l', f (l ++ l') = f l * f l')
    (parts : List (List α)) : f parts.flatten = (parts.map f).prod := by
  induction parts with
  | nil => simpa using hone
  | cons part parts ih => rw [List.flatten_cons, hmul, ih, List.map_cons, List.prod_cons]

theorem eq_of_perm (hmul : ∀ l l', f (l ++ l') = f l * f l') {l l' : List α} (h : l.Perm l') :
    f l = f l' := by
  have hcons : ∀ x l, f (x :: l) = f [x] * f l := fun x l => hmul [x] l
  induction h with
  | nil => rfl
  | cons x _ ih => rw [hcons, ih, ← hcons]
  | swap x y l =>
    rw [hcons y (x :: l), hcons x l, hcons x (y :: l), hcons y l]
    exact mul_left_comm _ _ _
  | trans _ _ ih₁ ih₂ => exact ih₁.trans ih₂

end Homomorphism
