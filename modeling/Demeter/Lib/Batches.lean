import Mathlib.Data.List.Nodup
import Mathlib.Data.List.Dedup
import Mathlib.Data.List.Perm.Subperm
import Mathlib.Tactic
import Demeter.Lib.TwoLevel

/-!
# Batches at two levels

The machine that collects objects and fires with them as soon as there are `c`, at the leaves and
at the root.

* `Ordered` is the condition on the events: a leaf completes a batch only when nothing is to be
  cleared there, and the root completes a batch of its own only when no leaf of its objects has a
  notification on its way that says it has fired;
* `Consistent` is the invariant, for objects that are put once;
* `Consumed.count_le` says that under the condition no object is fired more often than it was put.
-/

namespace TwoLevel

variable {ι α κ : Type*}

/-- Collect the objects and fire with all of them when there are `c`. -/
def batch (c : ℕ) (key : α → κ) : Machine (List α) α κ (List α) where
  new buffer x := if c ≤ buffer.length + 1 then ([], [buffer ++ [x]]) else (buffer ++ [x], [])
  clear _ _ := []
  key := key

/-- The condition on an event. -/
def Ordered (c : ℕ) (s : State ι (List α) α κ (List α)) : Event ι α → Prop
  | .put w _ => c ≤ (s.leaf w).length + 1 → s.down w = []
  | .up w => ∀ x rest, s.up w = (x, false) :: rest → c ≤ s.root.length + 1 →
      ∀ v y, y ∈ s.root ++ [x] → (v, y) ∈ s.puts → ∀ q ∈ s.up v, q.2 = false
  | .down _ => True

/-- The invariant, for objects that are put once.  `cover` has the notifications on their way, each
with the objects that its leaf has fired with it.  An object that was fired is still at its leaf
only if the leaf is going to be cleared, and it is still on its way to the root, or there, only if
the notification that covers it is on its way. -/
structure Consistent (c : ℕ) (s : State ι (List α) α κ (List α)) (cover : ι → List (α × List α)) :
    Prop where
  up : ∀ w, s.up w = (cover w).map fun q => (q.1, !q.2.isEmpty)
  puts : (s.puts.map Prod.snd).Nodup
  leafPut : ∀ w, ∀ x ∈ s.leaf w, (w, x) ∈ s.puts
  leafNodup : ∀ w, (s.leaf w).Nodup
  upPut : ∀ w, ∀ x ∈ (cover w).map Prod.fst, (w, x) ∈ s.puts
  rootPut : ∀ x ∈ s.root, ∃ w ∈ s.known, (w, x) ∈ s.puts
  path : ∀ w, (s.root ++ (cover w).map Prod.fst).Nodup
  firedPut : ∀ x ∈ s.fired.flatten, ∃ w, (w, x) ∈ s.puts
  firedNodup : s.fired.flatten.Nodup
  firedLength : ∀ b ∈ s.fired, c ≤ b.length
  leafSound : ∀ w, s.down w = [] → ∀ x ∈ s.leaf w,
    x ∉ s.fired.flatten ∧ x ∈ s.root ++ (cover w).map Prod.fst
  covered : ∀ w, ∀ x ∈ s.root ++ (cover w).map Prod.fst, (w, x) ∈ s.puts →
    x ∈ s.fired.flatten → ∃ q ∈ cover w, x ∈ q.2
  coverFired : ∀ w, ∀ q ∈ cover w, q.2 ≠ [] → q.2 ∈ s.fired
  coverPut : ∀ w, ∀ q ∈ cover w, ∀ x ∈ q.2, (w, x) ∈ s.puts
  coverSelf : ∀ w, ∀ q ∈ cover w, q.2 ≠ [] → q.1 ∈ q.2
  covers : ∀ w pre q post, cover w = pre ++ q :: post → ∀ x ∈ q.2,
    x ∈ s.root ++ pre.map Prod.fst ++ [q.1]

/-- A member of a list is its last one, or it stands before the last one. -/
theorem append_cons_eq_concat {pre post l : List α} {q p : α} (h : pre ++ q :: post = l ++ [p]) :
    (pre = l ∧ q = p) ∨ ∃ post', pre ++ q :: post' = l := by
  obtain rfl | ⟨post', p', rfl⟩ := List.eq_nil_or_concat post
  · obtain ⟨rfl, hq⟩ := List.append_inj' h rfl
    exact .inl ⟨rfl, List.singleton_inj.1 hq⟩
  · rw [List.concat_eq_append, ← List.cons_append, ← List.append_assoc] at h
    exact .inr ⟨post', (List.append_inj' h rfl).1⟩

namespace Consistent

variable {c : ℕ} {s : State ι (List α) α κ (List α)}
  {cover : ι → List (α × List α)}

theorem init : Consistent c (⟨[], fun _ => [], ∅, fun _ => [], fun _ => [], [], []⟩ :
    State ι (List α) α κ (List α)) fun _ => [] := by
  constructor <;> simp

/-- An object was put at one leaf. -/
theorem owner_eq (h : Consistent c s cover) {v w : ι} {x : α} (hv : (v, x) ∈ s.puts)
    (hw : (w, x) ∈ s.puts) : v = w :=
  congrArg Prod.fst (List.inj_on_of_nodup_map h.puts hv hw rfl)

theorem root_nodup (h : Consistent c s cover) : s.root.Nodup := by
  cases hr : s.root with
  | nil => exact List.nodup_nil
  | cons y l =>
    obtain ⟨w, -, -⟩ := h.rootPut y (by simp [hr])
    exact hr ▸ (List.nodup_append.1 (h.path w)).1

variable [DecidableEq ι]

/-! ### Parts of a step -/

/-- An object comes to a leaf. -/
theorem add (h : Consistent c s cover) {w : ι} {x : α} (hx : x ∉ s.puts.map Prod.snd)
    {s' : State ι (List α) α κ (List α)} {cover' : ι → List (α × List α)}
    (hroot : s'.root = s.root) (hknown : s'.known = s.known) (hdown : s'.down = s.down)
    (hfired : s'.fired = s.fired) (hputs : s'.puts = s.puts ++ [(w, x)])
    (hleaf : ∀ v, s'.leaf v = if v = w then s.leaf w ++ [x] else s.leaf v)
    (hup : ∀ v, s'.up v = if v = w then s.up w ++ [(x, false)] else s.up v)
    (hcover : ∀ v, cover' v = if v = w then cover w ++ [(x, [])] else cover v) :
    Consistent c s' cover' := by
  have hnew : ∀ v, (v, x) ∉ s.puts := fun v hv => hx (List.mem_map.2 ⟨_, hv, rfl⟩)
  have hxfired : x ∉ s.fired.flatten := fun hf => (h.firedPut x hf).elim hnew
  have hxroot : x ∉ s.root := fun hr => (h.rootPut x hr).elim fun v hv => hnew v hv.2
  have hxup : ∀ v, x ∉ (cover v).map Prod.fst := fun v hv => hnew v (h.upPut v x hv)
  have hxleaf : ∀ v, x ∉ s.leaf v := fun v hv => hnew v (h.leafPut v x hv)
  exact
    { up v := by
        have := h.up v
        grind
      puts := by
        have := h.puts
        grind
      leafPut v y hy := by
        have := h.leafPut v y
        grind
      leafNodup v := by
        have := h.leafNodup v
        grind
      upPut v y hy := by
        have := h.upPut v y
        grind
      rootPut y hy := by
        have := h.rootPut y
        grind
      path v := by
        have := h.path v
        grind
      firedPut y hy := by
        have := h.firedPut y
        grind
      firedNodup := hfired ▸ h.firedNodup
      firedLength := hfired ▸ h.firedLength
      leafSound v hd y hy := by
        have := h.leafSound v
        grind
      covered v y hy hv hf := by
        have hyx : y ≠ x := fun he => hxfired (he ▸ hfired ▸ hf)
        obtain ⟨q, hq, hyq⟩ := h.covered v y (by grind) (by grind) (hfired ▸ hf)
        exact ⟨q, by grind, hyq⟩
      coverFired v q hq hne := by
        have := h.coverFired v q
        grind
      coverPut v q hq y hy := by
        have := h.coverPut v q
        grind
      coverSelf v q hq hne := by
        have := h.coverSelf v q
        grind
      covers v pre q post heq y hy := by
        -- the new notification covers nothing, so `q` was there before
        by_cases hv : v = w
        · subst hv
          rw [hcover, if_pos rfl] at heq
          obtain ⟨-, rfl⟩ | ⟨post', hpre⟩ := append_cons_eq_concat heq.symm
          · cases hy
          · exact hroot ▸ h.covers v pre q post' hpre.symm y hy
        · rw [hcover, if_neg hv] at heq
          exact hroot ▸ h.covers v pre q post heq y hy }

/-- A leaf fires with all of its objects; the notification of the last one covers them. -/
theorem fire (h : Consistent c s cover) {w : ι} {x : α} {pre₀ : List (α × List α)}
    (hlast : cover w = pre₀ ++ [(x, [])]) (hx : x ∈ s.leaf w) (hclear : s.down w = [])
    (hlength : c ≤ (s.leaf w).length) {s' : State ι (List α) α κ (List α)}
    {cover' : ι → List (α × List α)} (hroot : s'.root = s.root) (hknown : s'.known = s.known)
    (hdown : s'.down = s.down) (hfired : s'.fired = s.fired ++ [s.leaf w])
    (hputs : s'.puts = s.puts) (hleaf : ∀ v, s'.leaf v = if v = w then [] else s.leaf v)
    (hcover : ∀ v, cover' v = if v = w then pre₀ ++ [(x, s.leaf w)] else cover v)
    (hup : ∀ v, s'.up v = (cover' v).map fun q => (q.1, !q.2.isEmpty)) :
    Consistent c s' cover' := by
  have hfst : ∀ v, (cover' v).map Prod.fst = (cover v).map Prod.fst := by
    intro v
    by_cases hv : v = w
    · simp [hcover, hv, hlast]
    · simp [hcover, hv]
  have hmem : ∀ v q, q ∈ cover' v → q ∈ cover v ∨ v = w ∧ q = (x, s.leaf w) := by grind
  have hflat : ∀ y, y ∈ s'.fired.flatten ↔ y ∈ s.fired.flatten ∨ y ∈ s.leaf w := by simp [hfired]
  have hsound := h.leafSound w hclear
  exact
    { up := hup
      puts := hputs ▸ h.puts
      leafPut v y hy := by
        have := h.leafPut v y
        grind
      leafNodup v := by
        have := h.leafNodup v
        grind
      upPut v y hy := by
        rw [hputs]
        exact h.upPut v y (hfst v ▸ hy)
      rootPut y hy := by
        have := h.rootPut y
        grind
      path v := by
        rw [hroot, hfst]
        exact h.path v
      firedPut y hy := by
        rw [hputs]
        exact ((hflat y).1 hy).elim (h.firedPut y) fun hy => ⟨w, h.leafPut w y hy⟩
      firedNodup := by
        rw [hfired, List.flatten_append, List.nodup_append]
        have := h.firedNodup
        have := h.leafNodup w
        grind
      firedLength b hb := by
        have := h.firedLength b
        grind
      leafSound v hd y hy := by
        have hvw : v ≠ w := by grind
        rw [hleaf, if_neg hvw] at hy
        obtain ⟨hyf, hyr⟩ := h.leafSound v (hdown ▸ hd) y hy
        refine ⟨fun hf => ?_, by rwa [hroot, hfst]⟩
        obtain hf | hf := (hflat y).1 hf
        · exact hyf hf
        · exact hvw (h.owner_eq (h.leafPut v y hy) (h.leafPut w y hf))
      covered v y hy hv hf := by
        rw [hputs] at hv
        rw [hroot, hfst] at hy
        obtain hf | hf := (hflat y).1 hf
        · obtain ⟨q, hq, hyq⟩ := h.covered v y hy hv hf
          exact ⟨q, by grind, hyq⟩
        · obtain rfl := h.owner_eq hv (h.leafPut w y hf)
          exact ⟨(x, s.leaf v), by simp [hcover], hf⟩
      coverFired v q hq hne := by
        obtain hq | ⟨rfl, rfl⟩ := hmem v q hq
        · exact hfired ▸ List.mem_append_left _ (h.coverFired v q hq hne)
        · simp [hfired]
      coverPut v q hq y hy := by
        rw [hputs]
        obtain hq | ⟨rfl, rfl⟩ := hmem v q hq
        · exact h.coverPut v q hq y hy
        · exact h.leafPut v y hy
      coverSelf v q hq hne := by
        obtain hq | ⟨rfl, rfl⟩ := hmem v q hq
        · exact h.coverSelf v q hq hne
        · exact hx
      covers v pre q post heq y hy := by
        rw [hroot]
        by_cases hv : v = w
        · subst hv
          rw [hcover, if_pos rfl] at heq
          obtain ⟨rfl, rfl⟩ | ⟨post', hpre⟩ := append_cons_eq_concat heq.symm
          · simpa [hlast] using (hsound y hy).2
          · refine h.covers v pre q (post' ++ [(x, [])]) ?_ y hy
            rw [hlast, ← hpre, List.append_assoc, List.cons_append]
        · rw [hcover, if_neg hv] at heq
          exact h.covers v pre q post heq y hy }

section Taken

variable {w : ι} {p : α × List α} {rest : List (α × List α)} {cover' : ι → List (α × List α)}

/-- Nothing is on its way that was not before. -/
theorem mem_of_taken (hhead : cover w = p :: rest)
    (hcover : ∀ v, cover' v = if v = w then rest else cover v) {v : ι} {q : α × List α}
    (hq : q ∈ cover' v) : q ∈ cover v := by
  rw [hcover] at hq
  split_ifs at hq with hv
  · exact hv ▸ hhead ▸ List.mem_cons_of_mem _ hq
  · exact hq

theorem upPut_of_taken (h : Consistent c s cover) (hhead : cover w = p :: rest)
    (hcover : ∀ v, cover' v = if v = w then rest else cover v) {v : ι} {x : α}
    (hx : x ∈ (cover' v).map Prod.fst) : (v, x) ∈ s.puts := by
  obtain ⟨q, hq, rfl⟩ := List.mem_map.1 hx
  exact h.upPut v _ (List.mem_map_of_mem (mem_of_taken hhead hcover hq))

end Taken

/-- A notification that covers nothing arrives, and its object comes to the root. -/
theorem move (h : Consistent c s cover) {w : ι} {x : α} {rest : List (α × List α)}
    (hhead : cover w = (x, []) :: rest) {s' : State ι (List α) α κ (List α)}
    {cover' : ι → List (α × List α)} (hroot : s'.root = s.root ++ [x])
    (hknown : s'.known = insert w s.known) (hdown : s'.down = s.down)
    (hfired : s'.fired = s.fired) (hputs : s'.puts = s.puts) (hleaf : s'.leaf = s.leaf)
    (hcover : ∀ v, cover' v = if v = w then rest else cover v)
    (hup : ∀ v, s'.up v = (cover' v).map fun q => (q.1, !q.2.isEmpty)) :
    Consistent c s' cover' := by
  have hx : (w, x) ∈ s.puts := h.upPut w x (by simp [hhead])
  have hmem : ∀ v q, q ∈ cover' v → q ∈ cover v := fun v q => mem_of_taken hhead hcover
  -- what is at the root or on its way there from `v`
  have hpath : ∀ v y, y ∈ s.root ++ (cover v).map Prod.fst →
      y ∈ s'.root ++ (cover' v).map Prod.fst := by
    intro v y hy
    by_cases hv : v = w
    · subst hv
      simpa [hroot, hcover, hhead, or_assoc] using hy
    · simp only [hroot, hcover, if_neg hv]
      grind
  exact
    { up := hup
      puts := hputs ▸ h.puts
      leafPut := by rw [hleaf, hputs]; exact h.leafPut
      leafNodup := by rw [hleaf]; exact h.leafNodup
      upPut := fun v y hy => hputs ▸ h.upPut_of_taken hhead hcover hy
      rootPut y hy := by
        have := h.rootPut y
        grind
      path v := by
        have hw := h.path w
        rw [hhead] at hw
        by_cases hv : v = w
        · simpa [hroot, hcover, hv] using hw
        · have hxv : x ∉ (cover v).map Prod.fst := fun hm => hv (h.owner_eq (h.upPut v x hm) hx)
          have := h.path v
          rw [hroot, hcover, if_neg hv]
          grind
      firedPut := by rw [hfired, hputs]; exact h.firedPut
      firedNodup := hfired ▸ h.firedNodup
      firedLength := hfired ▸ h.firedLength
      leafSound v hd y hy := by
        rw [hleaf] at hy
        obtain ⟨hyf, hyr⟩ := h.leafSound v (hdown ▸ hd) y hy
        exact ⟨hfired ▸ hyf, hpath v y hyr⟩
      covered v y hy hv hf := by
        rw [hputs] at hv
        rw [hfired] at hf
        have hold : y ∈ s.root ++ (cover v).map Prod.fst := by
          by_cases hyx : y = x
          · obtain rfl := h.owner_eq hv (hyx ▸ hx)
            simp [hyx, hhead]
          · obtain hy | hy := List.mem_append.1 hy
            · grind
            · obtain ⟨q, hq, rfl⟩ := List.mem_map.1 hy
              exact List.mem_append_right _ (List.mem_map_of_mem (hmem v q hq))
        obtain ⟨q, hq, hyq⟩ := h.covered v y hold hv hf
        exact ⟨q, by grind, hyq⟩
      coverFired := fun v q hq hne => hfired ▸ h.coverFired v q (hmem v q hq) hne
      coverPut := fun v q hq y hy => hputs ▸ h.coverPut v q (hmem v q hq) y hy
      coverSelf := fun v q hq hne => h.coverSelf v q (hmem v q hq) hne
      covers v pre q post heq y hy := by
        by_cases hv : v = w
        · rw [hcover, if_pos hv] at heq
          have := h.covers w ((x, []) :: pre) q post (by rw [hhead, heq]; rfl) y hy
          simpa [hroot] using this
        · rw [hcover, if_neg hv] at heq
          have := h.covers v pre q post heq y hy
          grind }

omit [DecidableEq ι] in
/-- The root fires with all of its objects, and all leaves it knows are going to be cleared. -/
theorem count (h : Consistent c s cover) (hlength : c ≤ s.root.length)
    (hno : ∀ v y, y ∈ s.root → (v, y) ∈ s.puts → ∀ q ∈ cover v, q.2 = [])
    {s' : State ι (List α) α κ (List α)} (hroot : s'.root = [])
    (hdown : ∀ v ∈ s.known, s'.down v ≠ []) (hdown' : ∀ v, s'.down v = [] → s.down v = [])
    (hfired : s'.fired = s.fired ++ [s.root]) (hputs : s'.puts = s.puts)
    (hleaf : s'.leaf = s.leaf) (hup : s'.up = s.up) : Consistent c s' cover := by
  have hflat : ∀ y, y ∈ s'.fired.flatten ↔ y ∈ s.fired.flatten ∨ y ∈ s.root := by simp [hfired]
  have hfresh : ∀ y ∈ s.root, y ∉ s.fired.flatten := by
    intro y hy hf
    obtain ⟨v, -, hv⟩ := h.rootPut y hy
    obtain ⟨q, hq, hyq⟩ := h.covered v y (List.mem_append_left _ hy) hv hf
    simp [hno v y hy hv q hq] at hyq
  have hapart : ∀ v y, y ∈ (cover v).map Prod.fst → y ∉ s.root := by
    intro v y hy hr
    exact (List.nodup_append.1 (h.path v)).2.2 y hr y hy rfl
  exact
    { up := hup ▸ h.up
      puts := hputs ▸ h.puts
      leafPut := by rw [hleaf, hputs]; exact h.leafPut
      leafNodup := by rw [hleaf]; exact h.leafNodup
      upPut := hputs ▸ h.upPut
      rootPut := by simp [hroot]
      path v := by
        rw [hroot]
        exact (List.nodup_append.1 (h.path v)).2.1
      firedPut y hy := by
        rw [hputs]
        exact ((hflat y).1 hy).elim (h.firedPut y) fun hy => (h.rootPut y hy).imp fun v hv => hv.2
      firedNodup := by
        rw [hfired, List.flatten_append, List.nodup_append]
        have := h.firedNodup
        have := h.root_nodup
        grind
      firedLength b hb := by
        have := h.firedLength b
        grind
      leafSound v hd y hy := by
        rw [hleaf] at hy
        have hv : v ∉ s.known := fun hv => hdown v hv hd
        obtain ⟨hyf, hyr⟩ := h.leafSound v (hdown' v hd) y hy
        have hyroot : y ∉ s.root := by
          intro hr
          obtain ⟨u, hu, huy⟩ := h.rootPut y hr
          exact hv (h.owner_eq huy (h.leafPut v y hy) ▸ hu)
        refine ⟨fun hf => ((hflat y).1 hf).elim hyf hyroot, ?_⟩
        rw [hroot]
        exact (List.mem_append.1 hyr).resolve_left hyroot
      covered v y hy hv hf := by
        rw [hroot] at hy
        refine h.covered v y (List.mem_append_right _ hy) (hputs ▸ hv) ?_
        exact ((hflat y).1 hf).resolve_right (hapart v y hy)
      coverFired := fun v q hq hne => hfired ▸ List.mem_append_left _ (h.coverFired v q hq hne)
      coverPut := hputs ▸ h.coverPut
      coverSelf := h.coverSelf
      covers v pre q post heq y hy := by
        have hq : q ∈ cover v := by simp [heq]
        have := h.covers v pre q post heq y hy
        have hyroot : y ∉ s.root := fun hr => by
          simp [hno v y hr (h.coverPut v q hq y hy) q hq] at hy
        rw [hroot]
        grind }

omit [DecidableEq ι] in
/-- A notification that arrives with its batch finds exactly this batch at the root. -/
theorem perm_root (h : Consistent c s cover) {w : ι} {x : α} {b : List α}
    {rest : List (α × List α)} (hhead : cover w = (x, b) :: rest) (hb : b ≠ [])
    (hlt : s.root.length < c) : b.Perm (s.root ++ [x]) := by
  have hq : (x, b) ∈ cover w := by simp [hhead]
  have hfired := h.coverFired w _ hq hb
  have hnodup : b.Nodup := (List.nodup_flatten.1 h.firedNodup).1 b hfired
  have hsub : b ⊆ s.root ++ [x] := fun y hy => by
    simpa using h.covers w [] (x, b) rest (by simp [hhead]) y hy
  have hlength : (s.root ++ [x]).length ≤ b.length := by
    have := h.firedLength b hfired
    simp only [List.length_append, List.length_singleton]
    omega
  exact (hnodup.subperm hsub).perm_of_length_le hlength

/-- What a notification covers is not covered by another one. -/
theorem notMem_batch (h : Consistent c s cover) {w : ι} {x : α} {b : List α}
    {rest : List (α × List α)} (hhead : cover w = (x, b) :: rest) (hb : b ≠ [])
    (hlt : s.root.length < c) {cover' : ι → List (α × List α)}
    (hcover : ∀ v, cover' v = if v = w then rest else cover v) {v : ι} {q : α × List α}
    (hq : q ∈ cover' v) {y : α} (hy : y ∈ q.2) : y ∉ b := by
  intro hm
  have hxb : (x, b) ∈ cover w := by simp [hhead]
  have hqv := mem_of_taken hhead hcover hq
  have hne : q.2 ≠ [] := List.ne_nil_of_mem hy
  have heqb : q.2 = b := by
    by_contra hneb
    have : Std.Symm (List.Disjoint (α := α)) := ⟨fun _ _ hd => hd.symm⟩
    have hdisjoint := (List.nodup_flatten.1 h.firedNodup).2
    exact hdisjoint.forall (h.coverFired v q hqv hne) (h.coverFired w _ hxb hb) hneb hy hm
  -- so the object of the other notification is in the batch, and comes after the whole batch
  have hself : q.1 ∈ b := heqb ▸ h.coverSelf v q hqv hne
  obtain rfl := h.owner_eq (h.upPut v q.1 (List.mem_map_of_mem hqv)) (h.coverPut w _ hxb _ hself)
  rw [hcover, if_pos rfl] at hq
  have hrest := List.mem_map_of_mem (f := Prod.fst) hq
  have hroot := (h.perm_root hhead hb hlt).mem_iff.1 hself
  have hpath := h.path v
  rw [hhead] at hpath
  grind

/-- A notification arrives with its batch, and the root drops it. -/
theorem skip (h : Consistent c s cover) {w : ι} {x : α} {b : List α} {rest : List (α × List α)}
    (hhead : cover w = (x, b) :: rest) (hb : b ≠ []) (hlt : s.root.length < c)
    {s' : State ι (List α) α κ (List α)} {cover' : ι → List (α × List α)} (hroot : s'.root = [])
    (hdown : s'.down = s.down) (hfired : s'.fired = s.fired) (hputs : s'.puts = s.puts)
    (hleaf : s'.leaf = s.leaf) (hcover : ∀ v, cover' v = if v = w then rest else cover v)
    (hup : ∀ v, s'.up v = (cover' v).map fun q => (q.1, !q.2.isEmpty)) :
    Consistent c s' cover' := by
  have hperm := h.perm_root hhead hb hlt
  have hbatch : ∀ y ∈ s.root ++ [x], y ∈ b := fun y hy => hperm.mem_iff.2 hy
  have hbroot : ∀ y ∈ b, y ∈ s.root ++ [x] := fun y hy => hperm.mem_iff.1 hy
  have hbfired := h.coverFired w (x, b) (by simp [hhead]) hb
  have hmem : ∀ v q, q ∈ cover' v → q ∈ cover v := fun v q => mem_of_taken hhead hcover
  have hpath : (s.root ++ x :: rest.map Prod.fst).Nodup := by simpa [hhead] using h.path w
  exact
    { up := hup
      puts := hputs ▸ h.puts
      leafPut := by rw [hleaf, hputs]; exact h.leafPut
      leafNodup := by rw [hleaf]; exact h.leafNodup
      upPut := fun v y hy => hputs ▸ h.upPut_of_taken hhead hcover hy
      rootPut := by simp [hroot]
      path v := by
        have := h.path v
        rw [hroot, hcover]
        grind
      firedPut := by rw [hfired, hputs]; exact h.firedPut
      firedNodup := hfired ▸ h.firedNodup
      firedLength := hfired ▸ h.firedLength
      leafSound v hd y hy := by
        rw [hleaf] at hy
        obtain ⟨hyf, hyr⟩ := h.leafSound v (hdown ▸ hd) y hy
        have hyb : y ∉ b := fun hm => hyf (List.mem_flatten_of_mem hbfired hm)
        refine ⟨hfired ▸ hyf, ?_⟩
        have := hbatch y
        rw [hroot, hcover]
        grind
      covered v y hy hv hf := by
        rw [hroot] at hy
        obtain ⟨p, hp, rfl⟩ := List.mem_map.1 hy
        obtain ⟨q, hq, hyq⟩ := h.covered v p.1
          (List.mem_append_right _ (List.mem_map_of_mem (hmem v p hp))) (hputs ▸ hv) (hfired ▸ hf)
        refine ⟨q, ?_, hyq⟩
        by_cases hvw : v = w
        · subst hvw
          rw [hcover, if_pos rfl] at hp ⊢
          rw [hhead] at hq
          refine (List.mem_cons.1 hq).resolve_left ?_
          rintro rfl
          have := hbroot _ hyq
          have := List.mem_map_of_mem (f := Prod.fst) hp
          grind
        · rwa [hcover, if_neg hvw]
      coverFired := fun v q hq hne => hfired ▸ h.coverFired v q (hmem v q hq) hne
      coverPut := fun v q hq y hy => hputs ▸ h.coverPut v q (hmem v q hq) y hy
      coverSelf := fun v q hq hne => h.coverSelf v q (hmem v q hq) hne
      covers v pre q post heq y hy := by
        have hq : q ∈ cover' v := by simp [heq]
        have hyb : y ∉ b := h.notMem_batch hhead hb hlt hcover hq hy
        have hold : y ∈ s.root ++ (if v = w then [x] else []) ++ pre.map Prod.fst ++ [q.1] := by
          by_cases hvw : v = w
          · rw [hcover, if_pos hvw] at heq
            have := h.covers w ((x, b) :: pre) q post (by rw [hhead, heq]; rfl) y hy
            simpa [hvw] using this
          · rw [hcover, if_neg hvw] at heq
            simpa [hvw] using h.covers v pre q post heq y hy
        have := hbatch y
        rw [hroot]
        grind }

/-- A leaf is cleared. -/
theorem clear (h : Consistent c s cover) {w : ι} {s' : State ι (List α) α κ (List α)}
    (hroot : s'.root = s.root) (hknown : s'.known = s.known)
    (hdown : ∀ v ≠ w, s'.down v = s.down v) (hfired : s'.fired = s.fired)
    (hputs : s'.puts = s.puts) (hleaf : ∀ v, s'.leaf v = if v = w then [] else s.leaf v)
    (hup : s'.up = s.up) : Consistent c s' cover := by
  exact
    { up := hup ▸ h.up
      puts := hputs ▸ h.puts
      leafPut v y hy := by
        have := h.leafPut v y
        grind
      leafNodup v := by
        have := h.leafNodup v
        grind
      upPut := hputs ▸ h.upPut
      rootPut := by rw [hroot, hknown, hputs]; exact h.rootPut
      path := hroot ▸ h.path
      firedPut := by rw [hfired, hputs]; exact h.firedPut
      firedNodup := hfired ▸ h.firedNodup
      firedLength := hfired ▸ h.firedLength
      leafSound v hd y hy := by
        have hvw : v ≠ w := by grind
        rw [hleaf, if_neg hvw] at hy
        rw [hfired, hroot]
        exact h.leafSound v (hdown v hvw ▸ hd) y hy
      covered := by rw [hroot, hputs, hfired]; exact h.covered
      coverFired := hfired ▸ h.coverFired
      coverPut := hputs ▸ h.coverPut
      coverSelf := h.coverSelf
      covers := hroot ▸ h.covers }

/-! ### Whole steps -/

theorem put (key : α → κ) (h : Consistent c s cover) {w : ι} {x : α} (hx : x ∉ s.puts.map Prod.snd)
    (hordered : Ordered c s (.put w x)) :
    ∃ cover', Consistent c (TwoLevel.put (batch c key) s w x) cover' := by
  let mid : State ι (List α) α κ (List α) :=
    { s with
      leaf := Function.update s.leaf w (s.leaf w ++ [x])
      up := Function.update s.up w (s.up w ++ [(x, false)])
      puts := s.puts ++ [(w, x)] }
  let cover' := Function.update cover w (cover w ++ [(x, [])])
  have hmid : Consistent c mid cover' := h.add hx rfl rfl rfl rfl rfl
    (Function.update_apply _ _ _) (Function.update_apply _ _ _) (Function.update_apply _ _ _)
  by_cases hge : c ≤ (s.leaf w).length + 1
  · refine ⟨Function.update cover w (cover w ++ [(x, s.leaf w ++ [x])]), ?_⟩
    have hnew : (batch c key).new (s.leaf w) x = ([], [s.leaf w ++ [x]]) := if_pos hge
    have hlast : cover' w = cover w ++ [(x, [])] := Function.update_self _ _ _
    have hleaf : mid.leaf w = s.leaf w ++ [x] := Function.update_self _ _ _
    refine hmid.fire hlast (by simp [hleaf]) (hordered hge) (by simpa [hleaf] using hge) rfl rfl rfl
      (by simp [TwoLevel.put, hnew, mid]) rfl (fun v => ?_) (fun v => ?_) fun v => ?_
    · by_cases hv : v = w
      · subst hv
        simp [TwoLevel.put, hnew]
      · simp [TwoLevel.put, hv, mid]
    · by_cases hv : v = w
      · subst hv
        simp [hleaf]
      · simp [hv, cover']
    · by_cases hv : v = w
      · subst hv
        simp [TwoLevel.put, hnew, h.up]
      · simp [TwoLevel.put, hv, h.up]
  · have hnew : (batch c key).new (s.leaf w) x = (s.leaf w ++ [x], []) := if_neg hge
    have heq : TwoLevel.put (batch c key) s w x = mid := by simp [TwoLevel.put, hnew, mid]
    exact ⟨cover', heq ▸ hmid⟩

omit [DecidableEq ι] in
/-- The cover of a leaf's first notification. -/
theorem exists_head (h : Consistent c s cover) {w : ι} {x : α} {active : Bool}
    {rest : List (α × Bool)} (hup : s.up w = (x, active) :: rest) :
    ∃ b rest', cover w = (x, b) :: rest' ∧ active = !b.isEmpty ∧
      rest = rest'.map fun q => (q.1, !q.2.isEmpty) := by
  have hw := h.up w
  rw [hup] at hw
  cases hc : cover w with
  | nil => simp [hc] at hw
  | cons q rest' =>
    rw [hc, List.map_cons, List.cons.injEq, Prod.mk.injEq] at hw
    exact ⟨q.2, rest', by rw [hw.1.1], hw.1.2, hw.2⟩

theorem notify (key : α → κ) (h : Consistent c s cover) (hlt : s.root.length < c) {w : ι} {x : α}
    {active : Bool} {rest : List (α × Bool)} (hup : s.up w = (x, active) :: rest)
    (hordered : Ordered c s (.up w)) :
    ∃ cover', Consistent c (TwoLevel.notify (batch c key) s w x active rest) cover' := by
  obtain ⟨b, rest', hhead, rfl, rfl⟩ := h.exists_head hup
  refine ⟨Function.update cover w rest', ?_⟩
  have hcover := Function.update_apply cover w rest'
  have hup' : ∀ v, Function.update s.up w (rest'.map fun q => (q.1, !q.2.isEmpty)) v =
      (Function.update cover w rest' v).map fun q => (q.1, !q.2.isEmpty) := by
    intro v
    by_cases hv : v = w
    · subst hv
      simp
    · simp [hv, h.up]
  cases b with
  | cons y b =>
    have hfull : c ≤ s.root.length + 1 := by
      have hfired := h.coverFired w (x, y :: b) (by simp [hhead]) (List.cons_ne_nil _ _)
      have hlength := (h.perm_root hhead (List.cons_ne_nil _ _) hlt).length_eq
      rw [List.length_append] at hlength
      exact hlength ▸ h.firedLength _ hfired
    have hnew : (batch c key).new s.root x = ([], [s.root ++ [x]]) := if_pos hfull
    exact h.skip hhead (List.cons_ne_nil _ _) hlt (by simp [TwoLevel.notify, hnew])
      (by simp [TwoLevel.notify]) (by simp [TwoLevel.notify]) rfl rfl hcover hup'
  | nil =>
    let mid : State ι (List α) α κ (List α) :=
      { s with
        root := s.root ++ [x]
        known := insert w s.known
        up := Function.update s.up w (rest'.map fun q => (q.1, !q.2.isEmpty)) }
    have hmid : Consistent c mid (Function.update cover w rest') :=
      h.move hhead rfl rfl rfl rfl rfl rfl hcover hup'
    by_cases hge : c ≤ s.root.length + 1
    · have hnew : (batch c key).new s.root x = ([], [s.root ++ [x]]) := if_pos hge
      refine hmid.count (by simpa [mid] using hge) (fun v y hy hv q hq => ?_)
        (by simp [TwoLevel.notify, hnew]) (fun v hv => ?_) (fun v hv => ?_)
        (by simp [TwoLevel.notify, hnew, mid]) rfl rfl rfl
      · have hqv : q ∈ cover v := mem_of_taken hhead hcover hq
        have hmem : (q.1, !q.2.isEmpty) ∈ s.up v := h.up v ▸ List.mem_map.2 ⟨q, hqv, rfl⟩
        simpa using hordered x _ hup hge v y hy hv _ hmem
      · have hv' : v = w ∨ v ∈ s.known := Finset.mem_insert.1 hv
        simp [TwoLevel.notify, hnew, hv']
      · simp only [TwoLevel.notify, hnew] at hv
        split_ifs at hv
        · simp at hv
        · exact hv
    · have hnew : (batch c key).new s.root x = (s.root ++ [x], []) := if_neg hge
      have heq : TwoLevel.notify (batch c key) s w x (!([] : List α).isEmpty)
          (rest'.map fun q => (q.1, !q.2.isEmpty)) = mid := by
        simp [TwoLevel.notify, hnew, mid]
      exact heq ▸ hmid

end Consistent

/-! ### Objects that are put several times

The objects are numbered in the order in which they are put. -/

section Numbered

variable [DecidableEq ι] {c : ℕ} {key : α → κ} {s s' : State ι (List α) α κ (List α)}

omit [DecidableEq ι] in
theorem hom_snd (c : ℕ) (key : α → κ) :
    Hom (batch c fun x : ℕ × α => key x.2) (batch c key) (List.map Prod.snd) Prod.snd
      (List.map Prod.snd) where
  new buffer x := by
    simp only [batch, List.length_map]
    split_ifs <;> simp
  clear _ _ := rfl
  key _ := rfl

/-- The state without the numbers of the objects. -/
def unnumbered (t : State ι (List (ℕ × α)) (ℕ × α) κ (List (ℕ × α))) :
    State ι (List α) α κ (List α) :=
  t.map (List.map Prod.snd) Prod.snd (List.map Prod.snd)

/-- The state with numbered objects is consistent. -/
def Consumed (c : ℕ) (s : State ι (List α) α κ (List α)) : Prop :=
  ∃ (t : State ι (List (ℕ × α)) (ℕ × α) κ (List (ℕ × α))) (cover : ι → List ((ℕ × α) × _)),
    unnumbered t = s ∧ t.root.length < c ∧ (∀ p ∈ t.puts, p.2.1 < t.puts.length) ∧
      Consistent c t cover

omit [DecidableEq ι] in
theorem Consumed.init (hc : 1 ≤ c) : Consumed c (⟨[], fun _ => [], ∅, fun _ => [], fun _ => [],
    [], []⟩ : State ι (List α) α κ (List α)) :=
  ⟨⟨[], fun _ => [], ∅, fun _ => [], fun _ => [], [], []⟩, fun _ => [], rfl, hc, by simp,
    Consistent.init⟩

omit [DecidableEq ι] in
/-- No object is fired more often than it was put. -/
theorem Consumed.count_le [BEq α] (h : Consumed c s) (x : α) :
    s.fired.flatten.count x ≤ (s.puts.map Prod.snd).count x := by
  obtain ⟨t, cover, rfl, -, -, ht⟩ := h
  have hsub : t.fired.flatten ⊆ t.puts.map Prod.snd := fun y hy =>
    (ht.firedPut y hy).elim fun w hw => List.mem_map.2 ⟨_, hw, rfl⟩
  obtain ⟨l, hperm, hsublist⟩ := ht.firedNodup.subperm hsub
  have hfired : (unnumbered t).fired.flatten = t.fired.flatten.map Prod.snd := by
    simp [unnumbered, State.map, List.map_flatten]
  have hputs : (unnumbered t).puts.map Prod.snd = (t.puts.map Prod.snd).map Prod.snd := by
    simp [unnumbered, State.map, Function.comp_def]
  rw [hfired, hputs, ← (hperm.map Prod.snd).count_eq]
  exact (hsublist.map Prod.snd).count_le x

omit [DecidableEq ι] in
theorem Ordered.of_unnumbered {t : State ι (List (ℕ × α)) (ℕ × α) κ (List (ℕ × α))} {w : ι}
    (h : Ordered c (unnumbered t) (.up w)) : Ordered c t (.up w) := by
  intro x rest hup hge v y hy hv q hq
  refine h x.2 (rest.map (Prod.map Prod.snd id)) ?_ ?_ v y.2 ?_ ?_ (q.1.2, q.2) ?_
  · simp [unnumbered, State.map, hup]
  · simpa [unnumbered, State.map] using hge
  · have := List.mem_map_of_mem (f := Prod.snd) hy
    simpa [unnumbered, State.map] using this
  · exact List.mem_map.2 ⟨(v, y), hv, rfl⟩
  · exact List.mem_map.2 ⟨q, hq, rfl⟩

/-- The root never keeps a whole batch. -/
theorem length_root_notify (hlt : s.root.length < c) (w : ι) (x : α) (active : Bool)
    (rest : List (α × Bool)) :
    (TwoLevel.notify (batch c key) s w x active rest).root.length < c := by
  by_cases hge : c ≤ s.root.length + 1
  · have hnew : (batch c key).new s.root x = ([], [s.root ++ [x]]) := if_pos hge
    simp only [TwoLevel.notify, hnew, List.length_nil]
    omega
  · have hnew : (batch c key).new s.root x = (s.root ++ [x], []) := if_neg hge
    simp only [TwoLevel.notify, hnew, List.length_append, List.length_singleton]
    omega

/-- An event that meets the condition keeps the objects consumed at most once. -/
theorem Consumed.step (h : Consumed c s) {e : Event ι α} (hordered : Ordered c s e)
    (hstep : TwoLevel.step (batch c key) s e = some s') : Consumed c s' := by
  obtain ⟨t, cover, rfl, hlt, hnum, ht⟩ := h
  obtain ⟨w, x, rfl, rfl⟩ | ⟨w, x, active, rest, rfl, hup, rfl⟩ | ⟨w, k, rest, rfl, hdown, rfl⟩ :=
    step_cases hstep
  · have hnew : (t.puts.length, x) ∉ t.puts.map Prod.snd := by
      intro hmem
      obtain ⟨p, hp, he⟩ := List.mem_map.1 hmem
      have := hnum p hp
      simp [he] at this
    obtain ⟨cover', hput⟩ := ht.put (fun y : ℕ × α => key y.2) (w := w) hnew
      (by simpa [Ordered, unnumbered, State.map] using hordered)
    refine ⟨_, cover', ((hom_snd c key).put t w (t.puts.length, x)).symm, hlt, ?_, hput⟩
    intro p hp
    simp only [TwoLevel.put, List.length_append, List.length_singleton] at hp ⊢
    obtain hp | hp := List.mem_append.1 hp
    · exact Nat.lt_succ_of_lt (hnum p hp)
    · rw [List.mem_singleton.1 hp]
      exact Nat.lt_succ_self _
  · cases htup : t.up w with
    | nil => simp [unnumbered, State.map, htup] at hup
    | cons q rest' =>
      obtain ⟨y, active'⟩ := q
      simp only [unnumbered, State.map, htup, List.map_cons, Prod.map_apply, id_eq,
        List.cons.injEq, Prod.mk.injEq] at hup
      obtain ⟨⟨rfl, rfl⟩, rfl⟩ := hup
      obtain ⟨cover', hnotify⟩ := ht.notify (fun y : ℕ × α => key y.2) hlt htup
        hordered.of_unnumbered
      exact ⟨_, cover', ((hom_snd c key).notify t w y active' rest').symm,
        length_root_notify hlt w y active' rest', hnum, hnotify⟩
  · refine ⟨_, cover, ((hom_snd c key).clear_state t w k rest).symm, hlt, hnum,
      ht.clear (w := w) rfl rfl (fun v hv => ?_) rfl rfl (Function.update_apply _ _ _) rfl⟩
    exact Function.update_of_ne hv _ _

end Numbered

end TwoLevel
