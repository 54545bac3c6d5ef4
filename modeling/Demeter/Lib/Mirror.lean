import Demeter.Lib.TwoLevel

/-!
# A root that only follows

Two conditions under which the root of a machine at two levels never takes effect, so that what
fires is what the machines at the leaves fire.

* `Stateless`: what an object fires does not depend on the state;
* `OneSource`: all objects are put at one leaf.  The root goes through the states of this leaf, and
  each notification has the flag that the root computes.
-/

namespace TwoLevel

variable {ι σ α κ ο : Type*}

namespace Machine

variable (M : Machine σ α κ ο)

/-- The state of one machine after some objects. -/
def after (a : σ) (l : List α) : σ := l.foldl (fun b x => (M.new b x).1) a

/-- What one machine fires with some objects. -/
def firings : σ → List α → List ο
  | _, [] => []
  | a, x :: l => (M.new a x).2 ++ firings (M.new a x).1 l

/-- The notifications about some objects. -/
def flags : σ → List α → List (α × Bool)
  | _, [] => []
  | a, x :: l => (x, !(M.new a x).2.isEmpty) :: flags (M.new a x).1 l

variable {M}

theorem after_concat (a : σ) (l : List α) (x : α) :
    M.after a (l ++ [x]) = (M.new (M.after a l) x).1 := by
  simp [after]

theorem firings_append (a : σ) (l l' : List α) :
    M.firings a (l ++ l') = M.firings a l ++ M.firings (M.after a l) l' := by
  induction l generalizing a with
  | nil => rfl
  | cons x l ih =>
    rw [List.cons_append, firings, ih, firings, List.append_assoc]
    rfl

theorem firings_concat (a : σ) (l : List α) (x : α) :
    M.firings a (l ++ [x]) = M.firings a l ++ (M.new (M.after a l) x).2 := by
  rw [firings_append, firings, firings, List.append_nil]

theorem flags_concat (a : σ) (l : List α) (x : α) :
    M.flags a (l ++ [x]) = M.flags a l ++ [(x, !(M.new (M.after a l) x).2.isEmpty)] := by
  induction l generalizing a with
  | nil => rfl
  | cons y l ih =>
    rw [List.cons_append, flags, ih, flags, List.cons_append]
    rfl

end Machine

variable [DecidableEq ι] {M : Machine σ α κ ο} {s s' : State ι σ α κ ο} {e : Event ι α}

/-- A notification with the flag that the root computes changes only the state of the root. -/
theorem notify_eq {w : ι} {x : α} {active : Bool} {rest : List (α × Bool)}
    (h : active = !(M.new s.root x).2.isEmpty) :
    notify M s w x active rest =
      { s with
        root := (M.new s.root x).1
        known := insert w s.known
        up := Function.update s.up w rest } := by
  have hcounted : (!active && !(M.new s.root x).2.isEmpty) = false := by
    rw [h]
    cases (M.new s.root x).2.isEmpty <;> rfl
  simp [notify, hcounted]

/-! ### Firings that do not depend on the state -/

/-- What an object fires depends on the object only. -/
structure Stateless (M : Machine σ α κ ο) (fire : α → List ο) : Prop where
  new : ∀ a x, (M.new a x).2 = fire x

/-- The leaves have fired, and nothing is to be cleared. -/
structure Fired (fire : α → List ο) (s : State ι σ α κ ο) : Prop where
  up : ∀ w, ∀ q ∈ s.up w, q.2 = !(fire q.1).isEmpty
  down : ∀ w, s.down w = []
  fired : s.fired = s.puts.flatMap fun p => fire p.2

theorem Fired.step {fire : α → List ο} (hM : Stateless M fire) (h : Fired fire s)
    (hs' : step M s e = some s') : Fired fire s' := by
  obtain ⟨w, x, rfl, rfl⟩ | ⟨w, x, active, rest, rfl, hup, rfl⟩ | ⟨w, k, rest, rfl, hdown, rfl⟩ :=
    step_cases hs'
  · refine ⟨fun v q hq => ?_, h.down, ?_⟩
    · simp only [put, Function.update_apply] at hq
      split_ifs at hq
      · obtain hq | hq := List.mem_append.1 hq
        · exact h.up w q hq
        · rw [List.mem_singleton.1 hq, hM.new]
      · exact h.up v q hq
    · simp [put, h.fired, hM.new]
  · have hactive : active = !(M.new s.root x).2.isEmpty := by
      rw [hM.new]
      exact h.up w (x, active) (by simp [hup])
    rw [notify_eq hactive]
    refine ⟨fun v q hq => ?_, h.down, h.fired⟩
    simp only [Function.update_apply] at hq
    split_ifs at hq
    · exact h.up w q (by simp [hup, hq])
    · exact h.up v q hq
  · rw [h.down w] at hdown
    cases hdown

/-! ### One source -/

/-- All objects were put at the leaf `w`, whose machine started in the state `a`, as that of the
root did. -/
structure OneSource (M : Machine σ α κ ο) (a : σ) (w : ι) (s : State ι σ α κ ο) : Prop where
  leaf : s.leaf w = M.after a (s.puts.map Prod.snd)
  fired : s.fired = M.firings a (s.puts.map Prod.snd)
  up : ∃ seen rest, s.puts.map Prod.snd = seen ++ rest ∧ s.root = M.after a seen ∧
    s.up w = M.flags s.root rest
  others : ∀ v, v ≠ w → s.up v = []
  down : ∀ v, s.down v = []

/-- An object is put at the leaf `w` only. -/
def PutAt (w : ι) : Event ι α → Prop
  | .put v _ => v = w
  | .up _ | .down _ => True

theorem OneSource.step {a : σ} {w : ι} (h : OneSource M a w s) (hput : PutAt w e)
    (hs' : step M s e = some s') : OneSource M a w s' := by
  obtain ⟨v, x, rfl, rfl⟩ | ⟨v, x, active, rest, rfl, hup, rfl⟩ | ⟨v, k, rest, rfl, hdown, rfl⟩ :=
    step_cases hs'
  · obtain rfl : v = w := hput
    have hputs : (put M s v x).puts.map Prod.snd = s.puts.map Prod.snd ++ [x] := by simp [put]
    obtain ⟨seen, rest, hsplit, hroot, hup⟩ := h.up
    have hleaf : s.leaf v = M.after s.root rest := by
      rw [h.leaf, hsplit, hroot, Machine.after, Machine.after, Machine.after, List.foldl_append]
    refine ⟨?_, ?_, ⟨seen, rest ++ [x], ?_, hroot, ?_⟩, fun u hu => ?_, h.down⟩
    · rw [hputs, Machine.after_concat, ← h.leaf]
      simp [put]
    · rw [hputs, Machine.firings_concat, ← h.leaf, ← h.fired]
      rfl
    · rw [hputs, hsplit, List.append_assoc]
    · have hflags := Machine.flags_concat (M := M) s.root rest x
      simp only [put, Function.update_self]
      rw [hup, hflags, ← hleaf]
    · simp [put, hu, h.others u hu]
  · by_cases hv : v = w
    · subst hv
      obtain ⟨seen, puts, hsplit, hroot, hflags⟩ := h.up
      cases puts with
      | nil =>
        rw [hup] at hflags
        cases hflags
      | cons y puts =>
        rw [hup, Machine.flags] at hflags
        obtain ⟨hxy, hrest⟩ := List.cons.inj hflags
        obtain ⟨rfl, hactive⟩ := Prod.mk.inj hxy
        rw [notify_eq hactive]
        refine ⟨h.leaf, h.fired, ⟨seen ++ [x], puts, ?_, ?_, ?_⟩, fun u hu => ?_, h.down⟩
        · exact hsplit.trans (by simp)
        · rw [Machine.after_concat, ← hroot]
        · exact (Function.update_self v rest s.up).trans hrest
        · exact (Function.update_of_ne hu rest s.up).trans (h.others u hu)
    · rw [h.others v hv] at hup
      cases hup
  · rw [h.down v] at hdown
    cases hdown

omit [DecidableEq ι] in
theorem OneSource.initial (a : σ) (w : ι) (leaf : ι → σ) (hleaf : leaf w = a) (known : Finset ι) :
    OneSource M a w ⟨a, leaf, known, fun _ => [], fun _ => [], [], []⟩ where
  leaf := hleaf
  fired := rfl
  up := ⟨[], [], rfl, rfl, rfl⟩
  others _ _ := rfl
  down _ := rfl

end TwoLevel
