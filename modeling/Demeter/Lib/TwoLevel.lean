import Mathlib.Data.Finset.Insert
import Mathlib.Logic.Function.Basic
import Demeter.Lib.Runs

/-!
# A machine at two levels

One machine runs at every leaf of a tree and once more at its root.  An object is put at a leaf,
whose machine sees it at once; the root sees it when the notification of the leaf arrives.  A
machine that an object completes fires.  A notification says whether the leaf has fired with it,
and then the root ignores that its own machine fires; otherwise the firing of the root counts, and
the root tells all leaves it has heard of to clear their machines.  The channels keep the order.

* `Machine`, `State`, `Event`, `step`;
* `Hom` is a homomorphism of machines, and `Hom.step` says that it carries steps over to steps.
-/

namespace TwoLevel

variable {ι σ τ α β κ ο π : Type*}

/-- A machine takes objects and may fire with each of them; it can be cleared for a key. -/
structure Machine (σ α κ ο : Type*) where
  new : σ → α → σ × List ο
  clear : σ → κ → σ
  key : α → κ

/-- The machines, the leaves known to the root, the notifications on their way up with the flag of
the leaf, the keys to clear on their way down, and the records of all counted firings and of all
objects that were put. -/
structure State (ι σ α κ ο : Type*) where
  root : σ
  leaf : ι → σ
  known : Finset ι
  up : ι → List (α × Bool)
  down : ι → List κ
  fired : List ο
  puts : List (ι × α)

/-- An object is put at a leaf, or the next message arrives at the root or at a leaf. -/
inductive Event (ι α : Type*) where
  | put (w : ι) (x : α)
  | up (w : ι)
  | down (w : ι)

section Step

variable [DecidableEq ι] (M : Machine σ α κ ο)

/-- An object at a leaf. -/
def put (s : State ι σ α κ ο) (w : ι) (x : α) : State ι σ α κ ο :=
  let r := M.new (s.leaf w) x
  { s with
    leaf := Function.update s.leaf w r.1
    up := Function.update s.up w (s.up w ++ [(x, !r.2.isEmpty)])
    fired := s.fired ++ r.2
    puts := s.puts ++ [(w, x)] }

/-- A notification at the root. -/
def notify (s : State ι σ α κ ο) (w : ι) (x : α) (active : Bool) (rest : List (α × Bool)) :
    State ι σ α κ ο :=
  let r := M.new s.root x
  let known := insert w s.known
  let counted := !active && !r.2.isEmpty
  { s with
    root := r.1
    known := known
    up := Function.update s.up w rest
    down := fun v => if counted ∧ v ∈ known then s.down v ++ [M.key x] else s.down v
    fired := s.fired ++ if counted then r.2 else [] }

/-- A request to clear at a leaf. -/
def clear (s : State ι σ α κ ο) (w : ι) (k : κ) (rest : List κ) : State ι σ α κ ο :=
  { s with
    leaf := Function.update s.leaf w (M.clear (s.leaf w) k)
    down := Function.update s.down w rest }

/-- One event; a message that is not there cannot arrive. -/
def step (s : State ι σ α κ ο) : Event ι α → Option (State ι σ α κ ο)
  | .put w x => some (put M s w x)
  | .up w =>
      match s.up w with
      | [] => none
      | (x, active) :: rest => some (notify M s w x active rest)
  | .down w =>
      match s.down w with
      | [] => none
      | k :: rest => some (clear M s w k rest)

variable {M}

/-- What a step can do. -/
theorem step_cases {s s' : State ι σ α κ ο} {e : Event ι α} (h : step M s e = some s') :
    (∃ w x, e = .put w x ∧ s' = put M s w x) ∨
    (∃ w x active rest, e = .up w ∧ s.up w = (x, active) :: rest ∧
      s' = notify M s w x active rest) ∨
    (∃ w k rest, e = .down w ∧ s.down w = k :: rest ∧ s' = clear M s w k rest) := by
  cases e with
  | put w x => exact .inl ⟨w, x, rfl, (Option.some.inj h).symm⟩
  | up w =>
    rw [step] at h
    cases hup : s.up w with
    | nil => simp [hup] at h
    | cons q rest =>
      obtain ⟨x, active⟩ := q
      simp only [hup, Option.some.injEq] at h
      exact .inr (.inl ⟨w, x, active, rest, rfl, hup, h.symm⟩)
  | down w =>
    rw [step] at h
    cases hdown : s.down w with
    | nil => simp [hdown] at h
    | cons k rest =>
      simp only [hdown, Option.some.injEq] at h
      exact .inr (.inr ⟨w, k, rest, rfl, hdown, h.symm⟩)

theorem step_up {s : State ι σ α κ ο} {w : ι} {x : α} {active : Bool} {rest : List (α × Bool)}
    (h : s.up w = (x, active) :: rest) : step M s (.up w) = some (notify M s w x active rest) := by
  simp [step, h]

theorem step_down {s : State ι σ α κ ο} {w : ι} {k : κ} {rest : List κ}
    (h : s.down w = k :: rest) : step M s (.down w) = some (clear M s w k rest) := by
  simp [step, h]

end Step

/-! ### Homomorphisms -/

/-- States, objects and firings are mapped; keys are kept. -/
structure Hom (M : Machine σ α κ ο) (N : Machine τ β κ π) (f : σ → τ) (g : α → β) (h : ο → π) :
    Prop where
  new : ∀ s x, N.new (f s) (g x) = (f (M.new s x).1, (M.new s x).2.map h)
  clear : ∀ s k, N.clear (f s) k = f (M.clear s k)
  key : ∀ x, N.key (g x) = M.key x

/-- The image of a state. -/
def State.map (f : σ → τ) (g : α → β) (h : ο → π) (s : State ι σ α κ ο) : State ι τ β κ π where
  root := f s.root
  leaf w := f (s.leaf w)
  known := s.known
  up w := (s.up w).map (Prod.map g id)
  down := s.down
  fired := s.fired.map h
  puts := s.puts.map (Prod.map id g)

/-- The image of an event. -/
def Event.map (g : α → β) : Event ι α → Event ι β
  | .put w x => .put w (g x)
  | .up w => .up w
  | .down w => .down w

section Hom

variable [DecidableEq ι] {M : Machine σ α κ ο} {N : Machine τ β κ π} {f : σ → τ} {g : α → β}
  {h : ο → π}

theorem update_map (f : σ → τ) (s : ι → σ) (w : ι) (a : σ) :
    Function.update (fun v => f (s v)) w (f a) = fun v => f (Function.update s w a v) :=
  (Function.comp_update f s w a).symm

theorem Hom.put (hom : Hom M N f g h) (s : State ι σ α κ ο) (w : ι) (x : α) :
    put N (s.map f g h) w (g x) = (put M s w x).map f g h := by
  have hup : ∀ b, (s.up w).map (Prod.map g id) ++ [(g x, b)] =
      (s.up w ++ [(x, b)]).map (Prod.map g id) := fun b => by simp
  simp only [TwoLevel.put, State.map, hom.new, List.isEmpty_map, hup, update_map]
  simp

theorem Hom.notify (hom : Hom M N f g h) (s : State ι σ α κ ο) (w : ι) (x : α) (active : Bool)
    (rest : List (α × Bool)) :
    notify N (s.map f g h) w (g x) active (rest.map (Prod.map g id)) =
      (notify M s w x active rest).map f g h := by
  have hfired : ∀ (p : Prop) [Decidable p] (l : List ο),
      (if p then l.map h else []) = (if p then l else []).map h := by
    intro p _ l
    split_ifs <;> rfl
  simp only [TwoLevel.notify, State.map, hom.new, hom.key, List.isEmpty_map, List.map_append,
    hfired, update_map]

theorem Hom.clear_state (hom : Hom M N f g h) (s : State ι σ α κ ο) (w : ι) (k : κ)
    (rest : List κ) :
    TwoLevel.clear N (s.map f g h) w k rest = (TwoLevel.clear M s w k rest).map f g h := by
  simp only [TwoLevel.clear, State.map, hom.clear, update_map]

/-- A step of the first machine is a step of the second one. -/
theorem Hom.step (hom : Hom M N f g h) {s s' : State ι σ α κ ο} {e : Event ι α}
    (hstep : TwoLevel.step M s e = some s') :
    TwoLevel.step N (s.map f g h) (e.map g) = some (s'.map f g h) := by
  obtain ⟨w, x, rfl, rfl⟩ | ⟨w, x, active, rest, rfl, hup, rfl⟩ | ⟨w, k, rest, rfl, hdown, rfl⟩ :=
    step_cases hstep
  · exact congrArg some (hom.put s w x)
  · have hup' : (s.map f g h).up w = (g x, active) :: rest.map (Prod.map g id) := by
      simp [State.map, hup]
    exact (step_up hup').trans (congrArg some (hom.notify s w x active rest))
  · have hdown' : (s.map f g h).down w = k :: rest := hdown
    exact (step_down hdown').trans (congrArg some (hom.clear_state s w k rest))

/-- A step of the image is the image of a step, if the objects are the same. -/
theorem Hom.exists_step {M : Machine σ α κ ο} {N : Machine τ α κ π} (hom : Hom M N f id h)
    {s : State ι σ α κ ο} {e : Event ι α} {a : State ι τ α κ π}
    (hstep : TwoLevel.step N (s.map f id h) e = some a) :
    ∃ s', TwoLevel.step M s e = some s' ∧ a = s'.map f id h := by
  have he : e.map id = e := by cases e <;> rfl
  cases hs : TwoLevel.step M s e with
  | some s' =>
    have himage := hom.step hs
    rw [he, hstep] at himage
    exact ⟨s', rfl, Option.some.inj himage⟩
  | none =>
    -- both channels are empty, so the image has no step either
    cases e with
    | put w x => cases hs
    | up w =>
      cases hup : s.up w with
      | nil => simp [TwoLevel.step, State.map, hup] at hstep
      | cons q rest => simp [TwoLevel.step, hup] at hs
    | down w =>
      cases hdown : s.down w with
      | nil => simp [TwoLevel.step, State.map, hdown] at hstep
      | cons k rest => simp [TwoLevel.step, hdown] at hs

end Hom

end TwoLevel
