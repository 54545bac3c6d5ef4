import Mathlib.Logic.Relation
import Mathlib.Order.Bounds.Basic
import Mathlib.Data.Finset.Card
import Mathlib.Tactic

/-!
# Chains of predecessors

For a relation `r u v`, read as "`u` is a predecessor of `v`".

* `HasChain r n v`: some chain of `n` predecessors leads to `v`; `Depth r k v`: the longest one
  has `k` predecessors;
* `Depth.exists_of_le`: below a node of some depth there are nodes of all smaller depths;
* `exists_depth_iff`: in a finite graph a node has a depth exactly if no cycle leads to it.
-/

namespace Chains

open Relation

variable {α : Type*} (r : α → α → Prop)

/-- There is a chain of `n` steps that ends here. -/
def HasChain : ℕ → α → Prop
  | 0, _ => True
  | n + 1, v => ∃ u, r u v ∧ HasChain n u

/-- The longest chain that leads to the node. -/
def Depth (k : ℕ) (v : α) : Prop := IsGreatest {n | HasChain r n v} k

/-- A cycle leads to the node. -/
def BehindCycle (v : α) : Prop := ∃ u, ReflTransGen r u v ∧ TransGen r u u

variable {r} {u v : α} {k m n : ℕ}

theorem HasChain.of_succ (h : HasChain r (n + 1) v) : HasChain r n v := by
  induction n generalizing v with
  | zero => trivial
  | succ n ih => exact h.imp fun u hu => ⟨hu.1, ih hu.2⟩

theorem HasChain.mono (h : HasChain r n v) (hmn : m ≤ n) : HasChain r m v := by
  induction n, hmn using Nat.le_induction with
  | base => exact h
  | succ n _ ih => exact ih h.of_succ

theorem depth_iff : Depth r k v ↔ HasChain r k v ∧ ¬ HasChain r (k + 1) v := by
  constructor
  · exact fun h => ⟨h.1, fun hsucc => (Nat.lt_irrefl k) (h.2 hsucc)⟩
  · rintro ⟨hk, hnot⟩
    refine ⟨hk, fun n hn => ?_⟩
    by_contra hlt
    exact hnot (HasChain.mono hn (not_le.1 hlt))

theorem Depth.unique (h : Depth r k v) (h' : Depth r m v) : k = m := IsGreatest.unique h h'

/-- A predecessor is not as deep. -/
theorem Depth.lt (hv : Depth r k v) (hu : Depth r m u) (huv : r u v) : m < k :=
  hv.2 (show HasChain r (m + 1) v from ⟨u, huv, hu.1⟩)

theorem Depth.exists_pred (h : Depth r (k + 1) v) : ∃ u, r u v ∧ Depth r k u := by
  obtain ⟨⟨u, huv, hu⟩, hnot⟩ := depth_iff.1 h
  exact ⟨u, huv, depth_iff.2 ⟨hu, fun hsucc => hnot ⟨u, huv, hsucc⟩⟩⟩

/-- The nodes of smaller depths, in any set that is closed under predecessors. -/
theorem Depth.exists_of_le {S : α → Prop} (hS : ∀ u v, S v → r u v → S u) (hv : S v)
    (h : Depth r k v) (hmk : m ≤ k) : ∃ u, S u ∧ Depth r m u := by
  induction k generalizing v with
  | zero => exact ⟨v, hv, Nat.le_zero.1 hmk ▸ h⟩
  | succ k ih =>
    obtain rfl | hlt := Nat.eq_or_lt_of_le hmk
    · exact ⟨v, hv, h⟩
    · obtain ⟨u, huv, hu⟩ := h.exists_pred
      exact ih (hS u v hv huv) hu (Nat.lt_succ_iff.1 hlt)

/-! ### Cycles -/

theorem HasChain.of_transGen (huv : TransGen r u v) (h : HasChain r n u) :
    HasChain r (n + 1) v := by
  induction huv with
  | single huv => exact ⟨u, huv, h⟩
  | tail _ hvw ih => exact ⟨_, hvw, ih.of_succ⟩

theorem HasChain.of_reflTransGen (huv : ReflTransGen r u v) (h : HasChain r n u) :
    HasChain r n v := by
  obtain rfl | huv := reflTransGen_iff_eq_or_transGen.1 huv
  · exact h
  · exact (h.of_transGen huv).of_succ

/-- Around a cycle chains get arbitrarily long. -/
theorem BehindCycle.hasChain (h : BehindCycle r v) (n : ℕ) : HasChain r n v := by
  obtain ⟨u, huv, hcycle⟩ := h
  refine HasChain.of_reflTransGen huv ?_
  induction n with
  | zero => trivial
  | succ n ih => exact ih.of_transGen hcycle

open Classical in
/-- Without a cycle, a chain has no node twice: there are fewer and fewer nodes before the last
one. -/
theorem HasChain.le_card {S : Finset α} (hS : ∀ u v, v ∈ S → r u v → u ∈ S) (hv : v ∈ S)
    (hacyclic : ¬ BehindCycle r v) (h : HasChain r n v) :
    n ≤ (S.filter fun u => TransGen r u v).card := by
  induction n generalizing v with
  | zero => exact Nat.zero_le _
  | succ n ih =>
    obtain ⟨u, huv, hu⟩ := h
    have huS : u ∈ S := hS u v hv huv
    have hbehind : ∀ w, ReflTransGen r w u → ¬ TransGen r w w := fun w hwu hcycle =>
      hacyclic ⟨w, hwu.tail huv, hcycle⟩
    have hacyclic' : ¬ BehindCycle r u := by
      rintro ⟨w, hwu, hcycle⟩
      exact hbehind w hwu hcycle
    have hle := ih huS hacyclic' hu
    have hlt : (S.filter fun w => TransGen r w u).card <
        (S.filter fun w => TransGen r w v).card := by
      refine Finset.card_lt_card ⟨fun w hw => ?_, fun hsub => ?_⟩
      · rw [Finset.mem_filter] at hw ⊢
        exact ⟨hw.1, hw.2.tail huv⟩
      · have hself := hsub (Finset.mem_filter.2 ⟨huS, .single huv⟩)
        exact hbehind u .refl (Finset.mem_filter.1 hself).2
    exact Nat.succ_le_of_lt (lt_of_le_of_lt hle hlt)

/-- In a finite graph, chains of all lengths come from a cycle. -/
theorem behindCycle_iff {S : Finset α} (hS : ∀ u v, v ∈ S → r u v → u ∈ S) (hv : v ∈ S) :
    BehindCycle r v ↔ ∀ n, HasChain r n v := by
  classical
  refine ⟨BehindCycle.hasChain, fun h => ?_⟩
  by_contra hacyclic
  exact absurd ((h _).le_card hS hv hacyclic) (Nat.not_succ_le_self _)

theorem exists_depth_iff {S : Finset α} (hS : ∀ u v, v ∈ S → r u v → u ∈ S) (hv : v ∈ S) :
    (∃ k, Depth r k v) ↔ ¬ BehindCycle r v := by
  rw [behindCycle_iff hS hv]
  constructor
  · rintro ⟨k, hk⟩ hall
    exact (depth_iff.1 hk).2 (hall (k + 1))
  · intro hnot
    by_contra hnone
    refine hnot fun n => ?_
    induction n with
    | zero => trivial
    | succ n ih =>
      by_contra hsucc
      exact hnone ⟨n, depth_iff.2 ⟨ih, hsucc⟩⟩

end Chains
