import Mathlib.Data.Finset.Card
import Mathlib.Tactic
import Demeter.Lib.TwoLevel

/-!
# Collecting a set of names at two levels

The machine that waits, for every key, until the names of a fixed set have all come, and then fires
for this key.

* `View` is what a state of the two-level system says about one key; a step changes it only if its
  object has the key and a name of the set;
* `Once` is the invariant, for names that are put once: either the root is still waiting, or the key
  is done and was fired once;
* `Once.le_one`, `Once.eq_one` and `Once.eq_zero` are what it says about the number of firings.
-/

namespace TwoLevel

variable {ι α β κ : Type*}

/-- Collect the names of the objects of every key, and fire with the object that completes the
set. -/
def collect [DecidableEq β] [DecidableEq κ] (names : Finset β) (name : α → β) (key : α → κ) :
    Machine (κ → Finset β) α κ α where
  new st x :=
    if name x ∈ names then
      let collected := insert (name x) (st (key x))
      if collected.card = names.card then (Function.update st (key x) ∅, [x])
      else (Function.update st (key x) collected, [])
    else (st, [])
  clear st k := Function.update st k ∅
  key := key

/-- What a state says about one key. -/
structure View (ι α β : Type*) where
  root : Finset β
  leaf : ι → Finset β
  puts : List (ι × α)
  flight : ι → List (α × Bool)
  down : ι → ℕ
  count : ℕ

section

variable [DecidableEq β] [DecidableEq κ] (names : Finset β) (name : α → β) (key : α → κ)

/-- The objects that matter for the key. -/
def Relevant (k : κ) (x : α) : Prop := key x = k ∧ name x ∈ names

instance (k : κ) : DecidablePred (Relevant names name key k) := fun _ =>
  inferInstanceAs (Decidable (_ ∧ _))

/-- What concerns one key. -/
def view (k : κ) (s : State ι (κ → Finset β) α κ α) : View ι α β where
  root := s.root k
  leaf w := s.leaf w k
  puts := s.puts.filter fun p => Relevant names name key k p.2
  flight w := (s.up w).filter fun q => Relevant names name key k q.1
  down w := (s.down w).count k
  count := (s.fired.filter fun x => key x = k).length

variable {names name key} {k : κ}

theorem new_of_not_relevant (st : κ → Finset β) {x : α} (hx : ¬ Relevant names name key k x) :
    ((collect names name key).new st x).1 k = st k ∧
      ((collect names name key).new st x).2.filter (fun y => key y = k) = [] ∧
        (((collect names name key).new st x).2 ≠ [] → key x ≠ k) := by
  by_cases hname : name x ∈ names
  · have hk : key x ≠ k := fun hk => hx ⟨hk, hname⟩
    simp only [collect, if_pos hname]
    split_ifs <;> simp [hk, Function.update_of_ne (Ne.symm hk)]
  · simp [collect, hname]

/-- A relevant object completes the set, or it does not. -/
theorem new_of_relevant (st : κ → Finset β) {x : α} (hx : Relevant names name key k x) :
    ((insert (name x) (st k)).card = names.card ∧
        (collect names name key).new st x = (Function.update st k ∅, [x])) ∨
      ((insert (name x) (st k)).card ≠ names.card ∧
        (collect names name key).new st x =
          (Function.update st k (insert (name x) (st k)), [])) := by
  obtain ⟨rfl, hname⟩ := hx
  by_cases hcard : (insert (name x) (st (key x))).card = names.card
  · exact .inl ⟨hcard, by simp [collect, hname, hcard]⟩
  · exact .inr ⟨hcard, by simp [collect, hname, hcard]⟩

/-! ### Steps -/

variable [DecidableEq ι] (s : State ι (κ → Finset β) α κ α) (w : ι)

theorem view_put_of_not_relevant {x : α} (hx : ¬ Relevant names name key k x) :
    view names name key k (put (collect names name key) s w x) = view names name key k s := by
  obtain ⟨hstate, hfired, -⟩ := new_of_not_relevant (s.leaf w) hx
  simp only [view, put, List.filter_append, hfired, List.append_nil, View.mk.injEq, true_and,
    and_true]
  refine ⟨funext fun v => ?_, by simp [hx], funext fun v => ?_⟩
  · by_cases hv : v = w
    · subst hv
      simpa using hstate
    · simp [hv]
  · by_cases hv : v = w
    · subst hv
      simp [hx]
    · simp [hv]

theorem view_put_of_relevant {x : α} (hx : Relevant names name key k x) :
    view names name key k (put (collect names name key) s w x) =
      let v := view names name key k s
      let collected := insert (name x) (v.leaf w)
      let full := decide (collected.card = names.card)
      { v with
        leaf := Function.update v.leaf w (if full then ∅ else collected)
        puts := v.puts ++ [(w, x)]
        flight := Function.update v.flight w (v.flight w ++ [(x, full)])
        count := v.count + if full then 1 else 0 } := by
  have hk : key x = k := hx.1
  have hupdate : ∀ (f : ι → κ → Finset β) (st : Finset β),
      (fun v => Function.update f w (Function.update (f w) k st) v k) =
        Function.update (fun v => f v k) w st := by
    intro f st
    funext v
    by_cases hv : v = w
    · subst hv
      simp
    · simp [hv]
  have hflight : ∀ b, (fun v => (Function.update s.up w (s.up w ++ [(x, b)]) v).filter
        fun q => Relevant names name key k q.1) =
      Function.update (fun v => (s.up v).filter fun q => Relevant names name key k q.1) w
        ((s.up w).filter (fun q => Relevant names name key k q.1) ++ [(x, b)]) := by
    intro b
    funext v
    by_cases hv : v = w
    · subst hv
      simp [hx]
    · simp [hv]
  obtain ⟨hcard, hnew⟩ | ⟨hcard, hnew⟩ := new_of_relevant (s.leaf w) hx <;>
  · simp only [view, put, hnew, hupdate, hflight]
    simp [hcard, hx, hk]

/-- A notification about another key, or about a name that does not matter. -/
theorem view_notify_of_not_relevant {x : α} {active : Bool} {rest : List (α × Bool)}
    (hup : s.up w = (x, active) :: rest) (hx : ¬ Relevant names name key k x) :
    view names name key k (notify (collect names name key) s w x active rest) =
      view names name key k s := by
  obtain ⟨hstate, hfired, hkey⟩ := new_of_not_relevant s.root hx
  simp only [view, notify, List.filter_append, View.mk.injEq, true_and]
  refine ⟨hstate, funext fun v => ?_, funext fun v => ?_, ?_⟩
  · by_cases hv : v = w
    · subst hv
      simp [hup, hx]
    · simp [hv]
  · split_ifs with hcounted
    · have hne : ((collect names name key).new s.root x).2 ≠ [] := by
        simpa using (Bool.and_eq_true_iff.1 hcounted.1).2
      have hxk : (collect names name key).key x ≠ k := hkey hne
      simp [hxk]
    · rfl
  · split_ifs <;> simp [hfired]

theorem view_notify_of_relevant {x : α} {active : Bool} {rest : List (α × Bool)}
    (hup : s.up w = (x, active) :: rest) (hx : Relevant names name key k x) :
    ∃ rest', (view names name key k s).flight w = (x, active) :: rest' ∧ ∃ down,
      view names name key k (notify (collect names name key) s w x active rest) =
        let v := view names name key k s
        let collected := insert (name x) v.root
        let full := decide (collected.card = names.card)
        { v with
          root := if full then ∅ else collected
          flight := Function.update v.flight w rest'
          down := if full && !active then down else v.down
          count := v.count + if full && !active then 1 else 0 } := by
  have hk : key x = k := hx.1
  have hflight : (fun v => (Function.update s.up w rest v).filter
        fun q => Relevant names name key k q.1) =
      Function.update (fun v => (s.up v).filter fun q => Relevant names name key k q.1) w
        (rest.filter fun q => Relevant names name key k q.1) := by
    funext v
    by_cases hv : v = w
    · subst hv
      simp
    · simp [hv]
  refine ⟨rest.filter fun q => Relevant names name key k q.1, by simp [view, hup, hx],
    (view names name key k (notify (collect names name key) s w x active rest)).down, ?_⟩
  obtain ⟨hcard, hnew⟩ | ⟨hcard, hnew⟩ := new_of_relevant s.root hx
  · cases active <;> simp [view, notify, hnew, hcard, hk, hflight]
  · simp [view, notify, hnew, hcard, hflight]

variable (names name key k) in
/-- Only a request to clear the key itself matters. -/
theorem view_clear (k' : κ) (rest : List κ) (hdown : s.down w = k' :: rest) :
    view names name key k (clear (collect names name key) s w k' rest) = view names name key k s ∨
      0 < (view names name key k s).down w ∧ ∃ leaf down,
        view names name key k (clear (collect names name key) s w k' rest) =
          { view names name key k s with leaf := leaf, down := down } := by
  by_cases hk : k' = k
  · refine .inr ⟨by simp [view, hdown, hk], _, _, rfl⟩
  · refine .inl ?_
    simp only [view, clear, View.mk.injEq, true_and, and_true]
    refine ⟨funext fun v => ?_, funext fun v => ?_⟩
    · by_cases hv : v = w
      · subst hv
        simp [collect, Function.update_of_ne (Ne.symm hk)]
      · simp [hv]
    · by_cases hv : v = w
      · subst hv
        simp [hdown, hk]
      · simp [hv]

end

/-! ### The invariant -/

section Invariant

variable (names : Finset β) (name : α → β)

/-- A name was put at a leaf. -/
def View.At (v : View ι α β) (w : ι) (b : β) : Prop := ∃ x, (w, x) ∈ v.puts ∧ name x = b

/-- All names were put at the same leaf. -/
def View.Full (v : View ι α β) (w : ι) : Prop := ∀ b ∈ names, v.At name w b

/-- The root is waiting: it has the names that were put and are not on their way.  A leaf that has
all names has fired, and its last notification, which says so, is on its way; the other leaves have
not fired. -/
structure Waiting (v : View ι α β) : Prop where
  root : ∀ b, b ∈ v.root ↔ ∃ w, v.At name w b ∧ b ∉ (v.flight w).map fun q => name q.1
  ne : v.root ≠ names
  down : ∀ w, v.down w = 0
  leaf : ∀ w, ¬ v.Full names name w → ∀ b, b ∈ v.leaf w ↔ v.At name w b
  idle : ∀ w, ¬ v.Full names name w → ∀ q ∈ v.flight w, q.2 = false
  full : ∀ w, v.Full names name w →
    v.count = 1 ∧ ∃ pre x, v.flight w = pre ++ [(x, true)] ∧ ∀ q ∈ pre, q.2 = false
  none : (∀ w, ¬ v.Full names name w) → v.count = 0

/-- All names have come to the root, and the key was fired once. -/
structure Done (v : View ι α β) : Prop where
  count : v.count = 1
  flight : ∀ w, v.flight w = []
  put : ∀ b ∈ names, ∃ w, v.At name w b

/-- The invariant, for names that are put once. -/
structure Once (v : View ι α β) : Prop where
  mem : ∀ p ∈ v.puts, name p.2 ∈ names
  puts : (v.puts.map fun p => name p.2).Nodup
  flightPut : ∀ w, ∀ q ∈ v.flight w, (w, q.1) ∈ v.puts
  flightNodup : ∀ w, ((v.flight w).map fun q => name q.1).Nodup
  phase : Waiting names name v ∨ Done names name v

variable {names name} {v : View ι α β}

theorem Once.le_one (h : Once names name v) : v.count ≤ 1 := by
  obtain hw | hd := h.phase
  · by_cases hfull : ∃ w, v.Full names name w
    · obtain ⟨w, hfull⟩ := hfull
      exact (hw.full w hfull).1.le
    · exact (hw.none fun w hw => hfull ⟨w, hw⟩).le.trans zero_le_one
  · exact hd.count.le

theorem Once.eq_one (h : Once names name v) (hput : ∀ b ∈ names, ∃ w, v.At name w b)
    (hflight : ∀ w, v.flight w = []) : v.count = 1 := by
  obtain hw | hd := h.phase
  · refine absurd (Finset.ext fun b => ?_) hw.ne
    rw [hw.root]
    constructor
    · rintro ⟨w, ⟨x, hx, rfl⟩, -⟩
      exact h.mem _ hx
    · intro hb
      obtain ⟨w, hat⟩ := hput b hb
      exact ⟨w, hat, by simp [hflight]⟩
  · exact hd.count

theorem Once.eq_zero (h : Once names name v) {b : β} (hb : b ∈ names)
    (hnot : ∀ w, ¬ v.At name w b) : v.count = 0 := by
  obtain hw | hd := h.phase
  · exact hw.none fun w hfull => hnot w (hfull b hb)
  · exact absurd (hd.put b hb) (not_exists.2 hnot)

/-- A name was put once, by one leaf. -/
theorem Once.put_unique (h : Once names name v) {w w' : ι} {x x' : α} (hx : (w, x) ∈ v.puts)
    (hx' : (w', x') ∈ v.puts) (heq : name x = name x') : w = w' ∧ x = x' :=
  Prod.mk.inj (List.inj_on_of_nodup_map h.puts hx hx' heq)

/-- A name on its way has not come to the root. -/
theorem Once.notMem_root (h : Once names name v) (hw : Waiting names name v) {w : ι}
    {q : α × Bool} (hq : q ∈ v.flight w) : name q.1 ∉ v.root := by
  intro hroot
  obtain ⟨w', ⟨x, hx, heq⟩, hnot⟩ := (hw.root _).1 hroot
  obtain ⟨rfl, rfl⟩ := h.put_unique hx (h.flightPut w q hq) heq
  exact hnot (List.mem_map.2 ⟨q, hq, rfl⟩)

theorem Once.root_subset (h : Once names name v) (hw : Waiting names name v) :
    v.root ⊆ names := by
  intro b hb
  obtain ⟨w, ⟨x, hx, rfl⟩, -⟩ := (hw.root b).1 hb
  exact h.mem _ hx

/-- The key is cleared at a leaf. -/
theorem Once.clear (h : Once names name v) {w : ι} (hw : 0 < v.down w) (leaf : ι → Finset β)
    (down : ι → ℕ) : Once names name { v with leaf := leaf, down := down } := by
  have hdone : Done names name v := h.phase.resolve_left fun hwait => by
    simp [hwait.down w] at hw
  exact ⟨h.mem, h.puts, h.flightPut, h.flightNodup, .inr ⟨hdone.count, hdone.flight, hdone.put⟩⟩

variable [DecidableEq β] [DecidableEq ι]

/-- The view after a relevant object is put at a leaf; `full` says that it completes the set. -/
def View.put (name : α → β) (v : View ι α β) (w : ι) (x : α) (full : Bool) : View ι α β :=
  { v with
    leaf := Function.update v.leaf w (if full then ∅ else insert (name x) (v.leaf w))
    puts := v.puts ++ [(w, x)]
    flight := Function.update v.flight w (v.flight w ++ [(x, full)])
    count := v.count + if full then 1 else 0 }

/-- The view after a relevant notification arrives at the root; `full` says that it completes the
set there, and `down` are the requests to clear that follow from it. -/
def View.notify (name : α → β) (v : View ι α β) (w : ι) (x : α) (active : Bool)
    (rest : List (α × Bool)) (full : Bool) (down : ι → ℕ) : View ι α β :=
  { v with
    root := if full then ∅ else insert (name x) v.root
    flight := Function.update v.flight w rest
    down := if full && !active then down else v.down
    count := v.count + if full && !active then 1 else 0 }

section Put

variable {w : ι} {x : α} {full : Bool}

theorem View.at_put (u : ι) (b : β) :
    (v.put name w x full).At name u b ↔ v.At name u b ∨ u = w ∧ b = name x := by
  simp only [View.At, View.put, List.mem_append, List.mem_singleton, Prod.mk.injEq]
  constructor
  · rintro ⟨y, hy | ⟨rfl, rfl⟩, rfl⟩
    · exact .inl ⟨y, hy, rfl⟩
    · exact .inr ⟨rfl, rfl⟩
  · rintro (⟨y, hy, rfl⟩ | ⟨rfl, rfl⟩)
    · exact ⟨y, .inl hy, rfl⟩
    · exact ⟨x, .inr ⟨rfl, rfl⟩, rfl⟩

theorem View.flight_put (u : ι) : (v.put name w x full).flight u =
    if u = w then v.flight w ++ [(x, full)] else v.flight u :=
  Function.update_apply _ _ _ _

omit [DecidableEq β] [DecidableEq ι] in
theorem not_at_of_new (hnew : name x ∉ v.puts.map fun p => name p.2) (u : ι) :
    ¬ v.At name u (name x) := by
  rintro ⟨y, hy, heq⟩
  exact hnew (heq ▸ List.mem_map.2 ⟨_, hy, rfl⟩)

omit [DecidableEq β] [DecidableEq ι] in
/-- A new name is not on its way. -/
theorem Once.fresh (h : Once names name v) (hnew : name x ∉ v.puts.map fun p => name p.2)
    (u : ι) : name x ∉ (v.flight u).map fun q => name q.1 := by
  intro hmem
  obtain ⟨q, hq, heq⟩ := List.mem_map.1 hmem
  exact not_at_of_new hnew u ⟨q.1, h.flightPut u q hq, heq⟩

theorem Waiting.mem_insert_leaf (hw : Waiting names name v) (hnot : ¬ v.Full names name w)
    (b : β) : b ∈ insert (name x) (v.leaf w) ↔ (v.put name w x full).At name w b := by
  rw [Finset.mem_insert, View.at_put, hw.leaf w hnot]
  tauto

/-- The object completes the set exactly if then all names were put at its leaf. -/
theorem Once.full_put_iff (h : Once names name v) (hw : Waiting names name v)
    (hx : name x ∈ names) (hnot : ¬ v.Full names name w)
    (hfull : full = decide ((insert (name x) (v.leaf w)).card = names.card)) :
    full = true ↔ (v.put name w x full).Full names name w := by
  have hcollected : ∀ b, b ∈ insert (name x) (v.leaf w) ↔ (v.put name w x full).At name w b :=
    hw.mem_insert_leaf hnot
  have hsubset : insert (name x) (v.leaf w) ⊆ names := by
    intro b hb
    obtain ⟨y, hy, rfl⟩ | ⟨-, rfl⟩ := (View.at_put w b).1 ((hcollected b).1 hb)
    · exact h.mem _ hy
    · exact hx
  have hiff : full = true ↔ (insert (name x) (v.leaf w)).card = names.card := by
    rw [hfull, decide_eq_true_iff]
  rw [hiff]
  constructor
  · intro hcard b hb
    rw [← hcollected, Finset.eq_of_subset_of_card_le hsubset hcard.ge]
    exact hb
  · intro hv
    exact congrArg _ (hsubset.antisymm fun b hb => (hcollected b).2 (hv b hb))

theorem Once.waiting_put (h : Once names name v) (hw : Waiting names name v)
    (hx : name x ∈ names) (hnew : name x ∉ v.puts.map fun p => name p.2)
    (hfull : full = decide ((insert (name x) (v.leaf w)).card = names.card)) :
    Waiting names name (v.put name w x full) := by
  have hnotAt := not_at_of_new hnew
  have hnone : ∀ u, ¬ v.Full names name u := fun u hu => hnotAt u (hu _ hx)
  have hfullIff := h.full_put_iff hw hx (hnone w) hfull
  refine ⟨?_, hw.ne, hw.down, ?_, ?_, ?_, ?_⟩
  · -- the new name is on its way
    intro b
    have hfresh := h.fresh hnew
    refine (hw.root b).trans ?_
    constructor
    · rintro ⟨u, hu, hnot⟩
      have hb : b ≠ name x := fun hb => hnotAt u (hb ▸ hu)
      refine ⟨u, (View.at_put u b).2 (.inl hu), ?_⟩
      rw [View.flight_put]
      grind
    · rintro ⟨u, hu, hnot⟩
      rw [View.flight_put] at hnot
      obtain hu | ⟨rfl, rfl⟩ := (View.at_put u b).1 hu
      · exact ⟨u, hu, by grind⟩
      · simp at hnot
  · intro u hu b
    by_cases huw : u = w
    · subst huw
      have hf : full = false := by simpa using fun hf => hu (hfullIff.1 hf)
      rw [← hw.mem_insert_leaf (hnone u)]
      simp [View.put, hf]
    · refine (Eq.to_iff (congrArg (b ∈ ·) (Function.update_of_ne huw _ _))).trans ?_
      rw [hw.leaf u (hnone u)]
      exact ((View.at_put u b).trans (or_iff_left fun hub => huw hub.1)).symm
  · intro u hu q hq
    have hidle := hw.idle u (hnone u) q
    rw [View.flight_put] at hq
    grind
  · intro u hu
    have huw : u = w := by
      by_contra huw
      obtain hat | ⟨hu', -⟩ := (View.at_put u _).1 (hu _ hx)
      · exact hnotAt u hat
      · exact huw hu'
    subst huw
    have hf : full = true := hfullIff.2 hu
    refine ⟨?_, v.flight u, x, ?_, hw.idle u (hnone u)⟩
    · simp [View.put, hf, hw.none hnone]
    · rw [View.flight_put, if_pos rfl, hf]
  · intro hall
    have hf : full = false := by simpa using fun hf => hall w (hfullIff.1 hf)
    simp [View.put, hf, hw.none hnone]

/-- A relevant object is put at a leaf. -/
theorem Once.put (h : Once names name v) (hx : name x ∈ names)
    (hnew : name x ∉ v.puts.map fun p => name p.2)
    (hfull : full = decide ((insert (name x) (v.leaf w)).card = names.card)) :
    Once names name (v.put name w x full) := by
  have hw : Waiting names name v := h.phase.resolve_right fun hd =>
    (hd.put _ hx).elim (not_at_of_new hnew)
  refine ⟨?_, ?_, ?_, ?_, .inl (h.waiting_put hw hx hnew hfull)⟩
  · intro p hp
    obtain hp | hp := List.mem_append.1 hp
    · exact h.mem p hp
    · exact List.mem_singleton.1 hp ▸ hx
  · simp only [View.put, List.map_append, List.map_cons, List.map_nil]
    exact List.nodup_append.2 ⟨h.puts, List.nodup_singleton _, by grind⟩
  · intro u q hq
    have hput := h.flightPut u q
    rw [View.flight_put] at hq
    simp only [View.put]
    grind
  · intro u
    have hnodup := h.flightNodup u
    have hfresh := h.fresh hnew u
    rw [View.flight_put]
    grind

end Put

section Notify

variable {w : ι} {x : α} {active : Bool} {rest : List (α × Bool)}

omit [DecidableEq β] in
theorem flight_update (hhead : v.flight w = (x, active) :: rest) {u : ι} {q : α × Bool}
    (hq : q ∈ Function.update v.flight w rest u) : q ∈ v.flight u := by
  rw [Function.update_apply] at hq
  split_ifs at hq with hu
  · rw [hu, hhead]
    exact List.mem_cons_of_mem _ hq
  · exact hq

omit [DecidableEq ι] in
/-- The notification that completes the set at the root is the only one on its way. -/
theorem Once.eq_head (h : Once names name v) (hw : Waiting names name v)
    (hhead : v.flight w = (x, active) :: rest) (hfull : insert (name x) v.root = names) {u : ι}
    {q : α × Bool} (hq : q ∈ v.flight u) : u = w ∧ q = (x, active) := by
  have hput := h.flightPut u q hq
  have hx : (w, x) ∈ v.puts := h.flightPut w (x, active) (hhead ▸ List.mem_cons_self)
  have hname : name q.1 ∈ insert (name x) v.root := hfull ▸ h.mem _ hput
  have heq : name q.1 = name x := (Finset.mem_insert.1 hname).resolve_right (h.notMem_root hw hq)
  obtain ⟨rfl, hqx⟩ := h.put_unique hput hx heq
  refine ⟨rfl, ?_⟩
  have hnodup := h.flightNodup u
  rw [hhead] at hq hnodup
  refine (List.mem_cons.1 hq).resolve_right fun hrest => ?_
  exact (List.nodup_cons.1 hnodup).1 (List.mem_map.2 ⟨q, hrest, heq⟩)

omit [DecidableEq ι] in
theorem Once.insert_root_subset (h : Once names name v) (hw : Waiting names name v)
    (hhead : v.flight w = (x, active) :: rest) : insert (name x) v.root ⊆ names :=
  Finset.insert_subset (h.mem _ (h.flightPut w (x, active) (hhead ▸ List.mem_cons_self)))
    (h.root_subset hw)

omit [DecidableEq ι] in
/-- A leaf has fired exactly if the notification that completes the set at the root says so. -/
theorem Once.count_of_completes (h : Once names name v) (hw : Waiting names name v)
    (hhead : v.flight w = (x, active) :: rest) (hset : insert (name x) v.root = names) :
    v.count = if active then 1 else 0 := by
  cases active with
  | true =>
    have hf : v.Full names name w := by
      by_contra hf
      have hmem : (x, true) ∈ v.flight w := hhead ▸ List.mem_cons_self
      exact absurd (hw.idle w hf _ hmem) (by simp)
    exact (hw.full w hf).1
  | false =>
    refine hw.none fun u hu => ?_
    obtain ⟨-, pre, y, hy, -⟩ := hw.full u hu
    have hlast : (y, true) ∈ v.flight u := by simp [hy]
    exact absurd (h.eq_head hw hhead hset hlast).2 (by simp)

/-- The notification completes the set at the root. -/
theorem Once.done_notify (h : Once names name v) (hw : Waiting names name v)
    (hhead : v.flight w = (x, active) :: rest) (hset : insert (name x) v.root = names)
    (down : ι → ℕ) : Done names name (v.notify name w x active rest true down) := by
  have hx := h.flightPut w (x, active) (hhead ▸ List.mem_cons_self)
  refine ⟨?_, fun u => List.eq_nil_iff_forall_not_mem.2 fun q hq => ?_, fun b hb => ?_⟩
  · have hcount := h.count_of_completes hw hhead hset
    cases active <;> simp [View.notify, hcount]
  · obtain ⟨rfl, rfl⟩ := h.eq_head hw hhead hset (flight_update hhead hq)
    have hnodup := h.flightNodup u
    rw [hhead] at hnodup
    simp only [View.notify, Function.update_self] at hq
    exact (List.nodup_cons.1 hnodup).1 (List.mem_map.2 ⟨_, hq, rfl⟩)
  · obtain rfl | hb := Finset.mem_insert.1 (hset ▸ hb)
    · exact ⟨w, x, hx, rfl⟩
    · exact ((hw.root b).1 hb).imp fun u hu => hu.1

theorem Once.mem_insert_root (h : Once names name v) (hw : Waiting names name v)
    (hhead : v.flight w = (x, active) :: rest) (b : β) :
    b ∈ insert (name x) v.root ↔ ∃ u, v.At name u b ∧
      b ∉ (Function.update v.flight w rest u).map fun q => name q.1 := by
  have hx := h.flightPut w (x, active) (hhead ▸ List.mem_cons_self)
  have hnodup := h.flightNodup w
  rw [hhead] at hnodup
  rw [Finset.mem_insert, hw.root]
  constructor
  · rintro (rfl | ⟨u, hu, hnot⟩)
    · refine ⟨w, ⟨x, hx, rfl⟩, ?_⟩
      rw [Function.update_self]
      exact (List.nodup_cons.1 hnodup).1
    · refine ⟨u, hu, fun hb => hnot ?_⟩
      obtain ⟨q, hq, rfl⟩ := List.mem_map.1 hb
      exact List.mem_map.2 ⟨q, flight_update hhead hq, rfl⟩
  · rintro ⟨u, hu, hnot⟩
    by_cases hb : b = name x
    · exact .inl hb
    · refine .inr ⟨u, hu, fun hmem => hnot ?_⟩
      rw [Function.update_apply]
      grind

/-- The root goes on waiting after the notification. -/
theorem Once.waiting_notify (h : Once names name v) (hw : Waiting names name v)
    (hhead : v.flight w = (x, active) :: rest) (hne : insert (name x) v.root ≠ names)
    (down : ι → ℕ) : Waiting names name (v.notify name w x active rest false down) := by
  refine ⟨h.mem_insert_root hw hhead, hne, hw.down, hw.leaf, ?_, ?_, fun hall => hw.none hall⟩
  · exact fun u hu q hq => hw.idle u hu q (flight_update hhead hq)
  · intro u hu
    obtain ⟨hcount, pre, y, hy, hpre⟩ := hw.full u hu
    refine ⟨hcount, ?_⟩
    by_cases huw : u = w
    · subst huw
      rw [hhead] at hy
      cases pre with
      | nil =>
        -- then all names have come to the root
        obtain ⟨-, rfl⟩ := List.cons.inj hy
        refine absurd ((h.insert_root_subset hw hhead).antisymm fun b hb => ?_) hne
        exact (h.mem_insert_root hw hhead b).2 ⟨u, hu b hb, by simp⟩
      | cons p pre =>
        obtain ⟨-, rfl⟩ := List.cons.inj hy
        exact ⟨pre, y, Function.update_self _ _ _, fun q hq => hpre q (List.mem_cons_of_mem _ hq)⟩
    · exact ⟨pre, y, (Function.update_of_ne huw _ _).trans hy, hpre⟩

/-- A relevant notification arrives at the root. -/
theorem Once.notify (h : Once names name v) (hhead : v.flight w = (x, active) :: rest)
    {full : Bool} (hfull : full = decide ((insert (name x) v.root).card = names.card))
    (down : ι → ℕ) : Once names name (v.notify name w x active rest full down) := by
  have hw : Waiting names name v := h.phase.resolve_right fun hd => by simp [hd.flight] at hhead
  refine ⟨h.mem, h.puts, fun u q hq => h.flightPut u q (flight_update hhead hq), fun u => ?_, ?_⟩
  · have := h.flightNodup u
    have := h.flightNodup w
    rw [hhead] at this
    simp only [View.notify, Function.update_apply]
    grind
  cases full with
  | true =>
    have hcard := (of_decide_eq_true hfull.symm).ge
    have hset := Finset.eq_of_subset_of_card_le (h.insert_root_subset hw hhead) hcard
    exact .inr (h.done_notify hw hhead hset down)
  | false =>
    refine .inl (h.waiting_notify hw hhead (fun heq => ?_) down)
    simp [heq] at hfull

end Notify

/-! ### Runs -/

variable [DecidableEq κ] {key : α → κ} {k : κ} {s s' : State ι (κ → Finset β) α κ α}

omit [DecidableEq ι] in
theorem Once.init (hnames : names.Nonempty) :
    Once names name (view names name key k
      (⟨fun _ => ∅, fun _ _ => ∅, ∅, fun _ => [], fun _ => [], [], []⟩ :
        State ι (κ → Finset β) α κ α)) := by
  refine ⟨by simp [view], by simp [view], by simp [view], by simp [view], .inl ?_⟩
  have hnot : ∀ (v : View ι α β) w b, v.puts = [] → ¬ v.At name w b := by
    rintro v w b hv ⟨x, hx, -⟩
    simp [hv] at hx
  refine ⟨fun b => ?_, ?_, by simp [view], fun w _ b => ?_, by simp [view], fun w hfull => ?_,
    by simp [view]⟩
  · refine iff_of_false (by simp [view]) ?_
    rintro ⟨w, hw, -⟩
    exact hnot _ w b rfl hw
  · exact fun h => hnames.ne_empty h.symm
  · exact iff_of_false (by simp [view]) (hnot _ w b rfl)
  · obtain ⟨b, hb⟩ := hnames
    exact absurd (hfull b hb) (hnot _ w b rfl)

/-- A step keeps the invariant, as long as no name is put twice. -/
theorem Once.step (h : Once names name (view names name key k s)) {e : Event ι α}
    (hstep : TwoLevel.step (collect names name key) s e = some s')
    (hnodup : ((view names name key k s').puts.map fun p => name p.2).Nodup) :
    Once names name (view names name key k s') := by
  obtain ⟨w, x, rfl, rfl⟩ | ⟨w, x, active, rest, rfl, hup, rfl⟩ | ⟨w, k', rest, rfl, hdown, rfl⟩ :=
    step_cases hstep
  · by_cases hx : Relevant names name key k x
    · rw [view_put_of_relevant s w hx] at hnodup ⊢
      simp only [List.map_append, List.map_cons, List.map_nil] at hnodup
      refine h.put hx.2 (fun hmem => ?_) rfl
      exact (List.nodup_append.1 hnodup).2.2 _ hmem _ List.mem_cons_self rfl
    · rwa [view_put_of_not_relevant s w hx]
  · by_cases hx : Relevant names name key k x
    · obtain ⟨rest', hhead, down, heq⟩ := view_notify_of_relevant s w hup hx
      rw [heq]
      exact h.notify hhead rfl down
    · rwa [view_notify_of_not_relevant s w hup hx]
  · obtain heq | ⟨hpos, leaf, down, heq⟩ :=
      view_clear names name key k s w k' rest hdown
    · rwa [heq]
    · rw [heq]
      exact h.clear hpos leaf down

end Invariant

end TwoLevel
