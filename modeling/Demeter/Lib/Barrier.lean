import Mathlib.Data.Finset.Card
import Mathlib.Data.List.Perm.Basic
import Mathlib.Tactic
import Demeter.Lib.TwoLevel

/-!
# Barriers at two levels

The machine that collects data until all controls have come, and then fires with everything it has,
at the leaves and at the root.  Every control belongs to a source, which puts its data and then the
control, all at one leaf.

* `Staged` is the condition on the events: an object comes from a source that has not put its
  control yet;
* `Phase` is the invariant: objects are put, or all are put and the root waits for the last of them,
  or it has them all;
* `Gathers.fired_or` says that there is at most one firing, with all data, and
  `Gathers.fired_of_all` that it is there as soon as all sources have ended and nothing is on its
  way to the root.
-/

namespace TwoLevel

variable {ι α γ κ ο : Type*}

/-- Two lists of tagged elements that agree for every tag. -/
theorem perm_of_filter_eq [DecidableEq ι] {l l' : List (ι × α)}
    (h : ∀ w, l.filter (·.1 = w) = l'.filter (·.1 = w)) : l.Perm l' := by
  classical
  have hself : ∀ (l : List (ι × α)) p, (l.filter (·.1 = p.1)).count p = l.count p := fun l p =>
    List.count_filter (by simp)
  rw [List.perm_iff_count]
  intro p
  rw [← hself l, ← hself l', h]

section Machine

variable [DecidableEq γ] (controls : Finset γ) (control : α → Option γ)
  (out : α → List α → List ο) (key : α → κ)

/-- Collect the data and the controls, and fire with all data when all controls are there; an object
without a control is data. -/
def barrier : Machine (List α × Finset γ) α κ ο where
  new s x :=
    match control x with
    | none => ((s.1 ++ [x], s.2), [])
    | some c =>
        let present := if c ∈ controls then insert c s.2 else s.2
        if present.card = controls.card then (([], ∅), out x s.1) else ((s.1, present), [])
  clear _ _ := ([], ∅)
  key := key

/-- The data among some objects, in their order. -/
def dataOf (l : List (ι × α)) : List α := (l.map Prod.snd).filter (control · = none)

/-- The controls among some objects. -/
def controlsOf (l : List (ι × α)) : List γ := l.filterMap fun p => control p.2

/-- What an unfired machine has when it has got some objects. -/
def collected (l : List (ι × α)) : List α × Finset γ :=
  (dataOf control l, (controlsOf control l).toFinset)

/-- The condition on an event: the object is put by a source of its leaf that has not put its
control yet, as data, or as this control. -/
def Staged (place : γ → ι) {σ : Type*} (s : State ι σ α κ ο) : Event ι α → Prop
  | .put w x => ∃ c ∈ controls, place c = w ∧ c ∉ controlsOf control s.puts ∧
      (control x = none ∨ control x = some c)
  | .up _ | .down _ => True

instance Staged.decidable [DecidableEq ι] (place : γ → ι) {σ : Type*} (s : State ι σ α κ ο) :
    ∀ e : Event ι α, Decidable (Staged controls control place s e)
  | .put w x => inferInstanceAs (Decidable (∃ c ∈ controls, place c = w ∧
      c ∉ controlsOf control s.puts ∧ (control x = none ∨ control x = some c)))
  | .up _ | .down _ => .isTrue trivial

/-- What was put comes from sources, of which some may have ended, and reaches the root in order;
`log` is what has arrived there. -/
structure Routed (place : γ → ι) {σ : Type*} [DecidableEq ι] (s : State ι σ α κ ο)
    (log : List (ι × α)) : Prop where
  route : ∀ w, s.puts.filter (·.1 = w) =
    log.filter (·.1 = w) ++ (s.up w).map fun q => (w, q.1)
  known : ∀ p ∈ log, p.1 ∈ s.known
  source : ∀ p ∈ s.puts, ∃ c ∈ controls, place c = p.1 ∧
    (control p.2 = none ∨ control p.2 = some c)
  nodup : (controlsOf control s.puts).Nodup
  ends : ∀ w, ∀ p ∈ (s.puts.filter (·.1 = w)).getLast?, control p.2 = none →
    ∃ c ∈ controls, place c = w ∧ c ∉ controlsOf control s.puts

/-- Nothing has been fired while a control is missing at the root, unless all sources are at one
leaf and have ended; then this leaf has fired, and the last notification on its way says so.  In the
end the root has got everything. -/
inductive Phase [DecidableEq ι] (s : State ι (List α × Finset γ) α κ ο) (log : List (ι × α)) : Prop
  | waiting (hwait : ∃ c ∈ controls, c ∉ controlsOf control log)
      (hroot : s.root = collected control log)
      (hleaf : ∀ w, s.leaf w = collected control (s.puts.filter (·.1 = w)))
      (hquiet : ∀ w, ∀ q ∈ s.up w, q.2 = false) (hdown : ∀ w, s.down w = [])
      (hfired : s.fired = [])
  | leafFired (w : ι) (x : α) (rest : List (α × Bool))
      (hall : ∀ c ∈ controls, c ∈ controlsOf control s.puts)
      (hwait : ∃ c ∈ controls, c ∉ controlsOf control log)
      (hroot : s.root = collected control log) (hleaf : ∀ v, s.leaf v = ([], ∅))
      (hone : ∀ p ∈ s.puts, p.1 = w) (hput : (w, x) ∈ s.puts) (hx : control x ≠ none)
      (hup : s.up w = rest ++ [(x, !(out x (dataOf control s.puts)).isEmpty)])
      (hquiet : ∀ q ∈ rest, q.2 = false) (hdown : ∀ v, s.down v = [])
      (hfired : s.fired = out x (dataOf control s.puts))
  | done (hall : ∀ c ∈ controls, c ∈ controlsOf control s.puts) (hup : ∀ w, s.up w = [])
      (hroot : s.root = ([], ∅))
      (hfired : ∃ p ∈ s.puts, control p.2 ≠ none ∧
        ∃ l, l.Perm (dataOf control s.puts) ∧ s.fired = out p.2 l)
      (hclear : s.fired ≠ [] → ∀ w, s.down w = [] → s.leaf w = ([], ∅))

end Machine

section Lists

variable {controls : Finset γ} {control : α → Option γ} {out : α → List α → List ο} {key : α → κ}

theorem controlsOf_append (l l' : List (ι × α)) :
    controlsOf control (l ++ l') = controlsOf control l ++ controlsOf control l' :=
  List.filterMap_append

theorem mem_controlsOf {l : List (ι × α)} {c : γ} :
    c ∈ controlsOf control l ↔ ∃ p ∈ l, control p.2 = some c := List.mem_filterMap

theorem controlsOf_concat_of_none {l : List (ι × α)} {w : ι} {x : α} (hx : control x = none) :
    controlsOf control (l ++ [(w, x)]) = controlsOf control l := by
  simp [controlsOf, hx]

theorem controlsOf_concat_of_some {l : List (ι × α)} {w : ι} {x : α} {c : γ}
    (hx : control x = some c) :
    controlsOf control (l ++ [(w, x)]) = controlsOf control l ++ [c] := by
  simp [controlsOf, hx]

theorem dataOf_concat_of_some {l : List (ι × α)} {w : ι} {x : α} (hx : control x ≠ none) :
    dataOf control (l ++ [(w, x)]) = dataOf control l := by
  simp [dataOf, hx]

theorem dataOf_concat_of_none {l : List (ι × α)} {w : ι} {x : α} (hx : control x = none) :
    dataOf control (l ++ [(w, x)]) = dataOf control l ++ [x] := by
  simp [dataOf, hx]

theorem dataOf_perm {l l' : List (ι × α)} (h : l.Perm l') :
    (dataOf control l).Perm (dataOf control l') := (h.map Prod.snd).filter _

theorem new_of_none [DecidableEq γ] {x : α} (hx : control x = none) (s : List α × Finset γ) :
    (barrier controls control out key).new s x = ((s.1 ++ [x], s.2), []) := by
  simp only [barrier, hx]

theorem new_of_some [DecidableEq γ] {x : α} {c : γ} (hx : control x = some c)
    (s : List α × Finset γ) :
    (barrier controls control out key).new s x =
      if (if c ∈ controls then insert c s.2 else s.2).card = controls.card then
        (([], ∅), out x s.1)
      else ((s.1, if c ∈ controls then insert c s.2 else s.2), []) := by
  simp only [barrier, hx]

/-- What the machine does with a further object. -/
theorem new_collected [DecidableEq γ] (out : α → List α → List ο) (key : α → κ)
    (l : List (ι × α)) (w : ι) (x : α)
    (hsub : ∀ c ∈ controlsOf control (l ++ [(w, x)]), c ∈ controls) :
    (barrier controls control out key).new (collected control l) x =
      if (∀ c ∈ controls, c ∈ controlsOf control (l ++ [(w, x)])) ∧ control x ≠ none then
        (([], ∅), out x (dataOf control l))
      else (collected control (l ++ [(w, x)]), []) := by
  cases hx : control x with
  | none =>
    rw [new_of_none hx, if_neg (by simp), collected, collected, dataOf_concat_of_none hx,
      controlsOf_concat_of_none hx]
  | some c =>
    rw [controlsOf_concat_of_some hx] at hsub ⊢
    have hc : c ∈ controls := hsub c (by simp)
    have hpresent : insert c (controlsOf control l).toFinset =
        (controlsOf control l ++ [c]).toFinset := by
      ext d
      simp
    have hle : (controlsOf control l ++ [c]).toFinset ⊆ controls := fun d hd =>
      hsub d (List.mem_toFinset.1 hd)
    have hcard : (controlsOf control l ++ [c]).toFinset.card = controls.card ↔
        ∀ d ∈ controls, d ∈ controlsOf control l ++ [c] := by
      constructor
      · intro h d hd
        rw [← Finset.eq_of_subset_of_card_le hle h.ge] at hd
        exact List.mem_toFinset.1 hd
      · intro h
        exact congrArg Finset.card (hle.antisymm fun d hd => List.mem_toFinset.2 (h d hd))
    rw [new_of_some hx, if_pos hc, collected, collected, hpresent, controlsOf_concat_of_some hx,
      dataOf_concat_of_some (by simp [hx])]
    by_cases hall : ∀ d ∈ controls, d ∈ controlsOf control l ++ [c]
    · rw [if_pos (hcard.2 hall), if_pos ⟨hall, by simp⟩]
    · rw [if_neg fun h => hall (hcard.1 h), if_neg fun h => hall h.1]

end Lists

variable [DecidableEq ι] {controls : Finset γ} {control : α → Option γ}
  {out : α → List α → List ο} {key : α → κ} {place : γ → ι}

/-! ### The way to the root -/

namespace Routed

variable {σ : Type*} {s : State ι σ α κ ο} {log : List (ι × α)}

theorem mem_puts (h : Routed controls control place s log) {p : ι × α} (hp : p ∈ log) :
    p ∈ s.puts := by
  have hmem : p ∈ s.puts.filter (·.1 = p.1) := by
    rw [h.route]
    exact List.mem_append_left _ (List.mem_filter.2 ⟨hp, by simp⟩)
  exact (List.mem_filter.1 hmem).1

theorem controls_subset (h : Routed controls control place s log) {c : γ}
    (hc : c ∈ controlsOf control s.puts) : c ∈ controls := by
  obtain ⟨p, hp, hpc⟩ := mem_controlsOf.1 hc
  obtain ⟨d, hd, -, hnone | hsome⟩ := h.source p hp
  · rw [hnone] at hpc
    cases hpc
  · rw [hsome] at hpc
    cases hpc
    exact hd

theorem place_eq (h : Routed controls control place s log) {p : ι × α} (hp : p ∈ s.puts) {c : γ}
    (hc : control p.2 = some c) : place c = p.1 := by
  obtain ⟨d, -, hplace, hnone | hsome⟩ := h.source p hp
  · rw [hnone] at hc
    cases hc
  · rw [hsome] at hc
    cases hc
    exact hplace

theorem mem_controlsOf_puts (h : Routed controls control place s log) {c : γ}
    (hc : c ∈ controlsOf control log) : c ∈ controlsOf control s.puts := by
  obtain ⟨p, hp, hpc⟩ := mem_controlsOf.1 hc
  exact mem_controlsOf.2 ⟨p, h.mem_puts hp, hpc⟩

/-- When the root has all controls, nothing is on its way: the last object of a leaf is a
control. -/
theorem up_eq_nil (h : Routed controls control place s log)
    (hall : ∀ c ∈ controls, c ∈ controlsOf control log) (w : ι) : s.up w = [] := by
  by_contra hne
  obtain ⟨init, q, hup⟩ := List.eq_nil_or_concat (s.up w) |>.resolve_left hne
  rw [List.concat_eq_append] at hup
  have hroute := h.route w
  rw [hup, List.map_append, List.map_singleton, ← List.append_assoc] at hroute
  have hlast : (w, q.1) ∈ (s.puts.filter (·.1 = w)).getLast? := by
    rw [hroute, List.getLast?_concat]
    rfl
  cases hq : control q.1 with
  | none =>
    obtain ⟨c, hc, -, hmissing⟩ := h.ends w _ hlast hq
    exact hmissing (h.mem_controlsOf_puts (hall c hc))
  | some c =>
    have hmem : (w, q.1) ∈ s.puts :=
      (List.mem_filter.1 (List.mem_of_getLast? hlast)).1
    have hc : c ∈ controls := h.controls_subset (mem_controlsOf.2 ⟨_, hmem, hq⟩)
    obtain ⟨p, hp, hpc⟩ := mem_controlsOf.1 (hall c hc)
    have hpw : p.1 = w := (h.place_eq (h.mem_puts hp) hpc).symm.trans (h.place_eq hmem hq)
    -- the control would have been put twice
    have hsub : (controlsOf control (s.puts.filter (·.1 = w))).Nodup :=
      h.nodup.sublist (List.filter_sublist.filterMap _)
    rw [hroute, controlsOf_concat_of_some hq, controlsOf_append, List.nodup_append] at hsub
    refine hsub.2.2 c (List.mem_append_left _ ?_) c List.mem_cons_self rfl
    exact mem_controlsOf.2 ⟨p, List.mem_filter.2 ⟨hp, by simp [hpw]⟩, hpc⟩

theorem perm_log (h : Routed controls control place s log) (hup : ∀ w, s.up w = []) :
    s.puts.Perm log := by
  apply perm_of_filter_eq
  intro w
  rw [h.route, hup, List.map_nil, List.append_nil]

/-- When all controls are at one leaf, so is everything. -/
theorem eq_of_all (h : Routed controls control place s log) {w : ι}
    (hall : ∀ c ∈ controls, c ∈ controlsOf control (s.puts.filter (·.1 = w))) {p : ι × α}
    (hp : p ∈ s.puts) : p.1 = w := by
  obtain ⟨c, hc, hplace, -⟩ := h.source p hp
  obtain ⟨q, hq, hqc⟩ := mem_controlsOf.1 (hall c hc)
  obtain ⟨hqputs, hqw⟩ := List.mem_filter.1 hq
  rw [← hplace, h.place_eq hqputs hqc]
  exact of_decide_eq_true hqw

/-- Nothing is on its way from where nothing was put. -/
theorem up_eq_nil_of_ne (h : Routed controls control place s log) {w : ι}
    (hone : ∀ p ∈ s.puts, p.1 = w) {v : ι} (hv : v ≠ w) : s.up v = [] := by
  have hroute := h.route v
  rw [List.filter_eq_nil_iff.2 fun p hp => by simpa [hone p hp] using Ne.symm hv] at hroute
  exact List.map_eq_nil_iff.1 (List.append_eq_nil_iff.1 hroute.symm).2

variable {M : Machine σ α κ ο}

theorem put [DecidableEq γ] (h : Routed controls control place s log) {w : ι} {x : α}
    (hstaged : Staged controls control place s (.put w x)) :
    Routed controls control place (put M s w x) log := by
  obtain ⟨c, hc, hplace, hmissing, hx⟩ := hstaged
  have hputs : (TwoLevel.put M s w x).puts = s.puts ++ [(w, x)] := rfl
  refine ⟨fun v => ?_, h.known, fun p hp => ?_, ?_, fun v p hp hnone => ?_⟩
  · rw [hputs, List.filter_append, h.route]
    by_cases hv : v = w
    · subst hv
      simp [TwoLevel.put]
    · simp [TwoLevel.put, hv, Ne.symm hv]
  · obtain hp | hp := List.mem_append.1 hp
    · exact h.source p hp
    · rw [List.mem_singleton.1 hp]
      exact ⟨c, hc, hplace, hx⟩
  · rw [hputs]
    obtain hx | hx := hx
    · rw [controlsOf_concat_of_none hx]
      exact h.nodup
    · rw [controlsOf_concat_of_some hx, ← List.concat_eq_append]
      exact List.Nodup.concat hmissing h.nodup
  · rw [hputs, List.filter_append] at hp
    by_cases hv : v = w
    · -- the last object of this leaf is the new one
      subst hv
      simp only [List.filter_singleton, decide_true, cond_true, List.getLast?_concat,
        Option.mem_some_iff] at hp
      subst hp
      refine ⟨c, hc, hplace, ?_⟩
      rwa [hputs, controlsOf_concat_of_none hnone]
    · simp only [List.filter_singleton, Ne.symm hv, decide_false, cond_false,
        List.append_nil] at hp
      obtain ⟨d, hd, hdv, hdmissing⟩ := h.ends v p hp hnone
      refine ⟨d, hd, hdv, ?_⟩
      obtain hx | hx := hx
      · rwa [hputs, controlsOf_concat_of_none hx]
      · rw [hputs, controlsOf_concat_of_some hx, List.mem_append, not_or]
        refine ⟨hdmissing, fun hdc => hv ?_⟩
        rw [← hdv, List.mem_singleton.1 hdc, hplace]

theorem notify (h : Routed controls control place s log) {w : ι} {x : α} {active : Bool}
    {rest : List (α × Bool)} (hup : s.up w = (x, active) :: rest) :
    Routed controls control place (notify M s w x active rest) (log ++ [(w, x)]) := by
  refine ⟨fun v => ?_, fun p hp => ?_, h.source, h.nodup, h.ends⟩
  · have hroute := h.route v
    by_cases hv : v = w
    · subst hv
      rw [hup] at hroute
      simpa [TwoLevel.notify] using hroute
    · simpa [TwoLevel.notify, hv, Ne.symm hv] using hroute
  · obtain hp | hp := List.mem_append.1 hp
    · exact Finset.mem_insert_of_mem (h.known p hp)
    · rw [List.mem_singleton.1 hp]
      exact Finset.mem_insert_self _ _

theorem clear (h : Routed controls control place s log) (w : ι) (k : κ) (rest : List κ) :
    Routed controls control place (clear M s w k rest) log :=
  ⟨h.route, h.known, h.source, h.nodup, h.ends⟩

end Routed

/-! ### The phases -/

variable [DecidableEq γ]

omit [DecidableEq ι] in
theorem collected_nil : collected control ([] : List (ι × α)) = ([], ∅) := rfl

namespace Phase

variable {s s' : State ι (List α × Finset γ) α κ ο} {log : List (ι × α)}

theorem put (hp : Phase controls control out s log) (hr : Routed controls control place s log)
    {w : ι} {x : α} (hstaged : Staged controls control place s (.put w x)) :
    Phase controls control out (put (barrier controls control out key) s w x) log := by
  have hr' : Routed controls control place (TwoLevel.put (barrier controls control out key) s w x)
      log := hr.put hstaged
  have hputs : (s.puts ++ [(w, x)]).filter (·.1 = w) = s.puts.filter (·.1 = w) ++ [(w, x)] := by
    simp
  have hsublist : (s.puts.filter (·.1 = w) ++ [(w, x)]).Sublist (s.puts ++ [(w, x)]) :=
    List.filter_sublist.append_right _
  have hnew := new_collected out key (s.puts.filter (·.1 = w)) w x fun c hc =>
    hr'.controls_subset ((hsublist.filterMap _).subset hc)
  cases hp with
  | waiting hwait hroot hleaf hquiet hdown hfired =>
    rw [← hleaf w] at hnew
    by_cases hall : (∀ c ∈ controls, c ∈ controlsOf control (s.puts.filter (·.1 = w) ++ [(w, x)])) ∧
        control x ≠ none
    · -- the leaf fires: all objects are here
      rw [if_pos hall] at hnew
      have hone : ∀ p ∈ s.puts ++ [(w, x)], p.1 = w := fun p hp =>
        hr'.eq_of_all (fun c hc => (congrArg (c ∈ controlsOf control ·) hputs).mpr (hall.1 c hc)) hp
      have hself : s.puts.filter (·.1 = w) = s.puts := List.filter_eq_self.2 fun p hp =>
        decide_eq_true (hone p (List.mem_append_left _ hp))
      have hdata : dataOf control (s.puts.filter (·.1 = w)) =
          dataOf control (s.puts ++ [(w, x)]) := by
        rw [hself, dataOf_concat_of_some hall.2]
      rw [hdata] at hnew
      refine .leafFired w x (s.up w) (fun c hc => (hsublist.filterMap _).subset (hall.1 c hc)) hwait
        hroot (fun v => ?_) hone (by simp [TwoLevel.put]) hall.2 ?_ (hquiet w) hdown ?_
      · by_cases hv : v = w
        · subst hv
          simp [TwoLevel.put, hnew]
        · have hnil : s.puts.filter (·.1 = v) = [] := List.filter_eq_nil_iff.2 fun p hp => by
            simpa [hone p (List.mem_append_left _ hp)] using Ne.symm hv
          simp [TwoLevel.put, hv, hleaf, hnil, collected_nil]
      · simp [TwoLevel.put, hnew]
      · simp [TwoLevel.put, hnew, hfired]
    · rw [if_neg hall] at hnew
      refine .waiting hwait hroot (fun v => ?_) (fun v q hq => ?_) hdown ?_
      · by_cases hv : v = w
        · subst hv
          simp [TwoLevel.put, hnew]
        · simp [TwoLevel.put, hv, Ne.symm hv, hleaf]
      · by_cases hv : v = w
        · subst hv
          simp only [TwoLevel.put, Function.update_self, hnew, List.mem_append,
            List.mem_singleton] at hq
          obtain hq | rfl := hq
          · exact hquiet v q hq
          · rfl
        · simp only [TwoLevel.put, Function.update_of_ne hv] at hq
          exact hquiet v q hq
      · simp [TwoLevel.put, hnew, hfired]
  | leafFired v y rest hall =>
    obtain ⟨c, hc, -, hmissing, -⟩ := hstaged
    exact absurd (hall c hc) hmissing
  | done hall =>
    obtain ⟨c, hc, -, hmissing, -⟩ := hstaged
    exact absurd (hall c hc) hmissing

theorem notify (hp : Phase controls control out s log) (hr : Routed controls control place s log)
    {w : ι} {x : α} {active : Bool} {rest : List (α × Bool)} (hup : s.up w = (x, active) :: rest) :
    Phase controls control out
      (notify (barrier controls control out key) s w x active rest) (log ++ [(w, x)]) := by
  have hr' : Routed controls control place
      (TwoLevel.notify (barrier controls control out key) s w x active rest) (log ++ [(w, x)]) :=
    hr.notify hup
  have hnew := new_collected out key log w x fun c hc =>
    hr'.controls_subset (hr'.mem_controlsOf_puts hc)
  have hmissing : ¬ ((∀ c ∈ controls, c ∈ controlsOf control (log ++ [(w, x)])) ∧
      control x ≠ none) → (∃ c ∈ controls, c ∉ controlsOf control log) →
      ∃ c ∈ controls, c ∉ controlsOf control (log ++ [(w, x)]) := by
    intro hnot hwait
    by_cases hx : control x = none
    · rwa [controlsOf_concat_of_none hx]
    · by_contra hall
      push Not at hall
      exact hnot ⟨hall, hx⟩
  have hmem : (x, active) ∈ s.up w := by simp [hup]
  cases hp with
  | waiting hwait hroot hleaf hquiet hdown hfired =>
    obtain rfl : active = false := hquiet w _ hmem
    rw [← hroot] at hnew
    by_cases hall : (∀ c ∈ controls, c ∈ controlsOf control (log ++ [(w, x)])) ∧ control x ≠ none
    · rw [if_pos hall] at hnew
      have hempty := hr'.up_eq_nil hall.1
      have hperm : s.puts.Perm (log ++ [(w, x)]) := hr'.perm_log hempty
      refine .done (fun c hc => hr'.mem_controlsOf_puts (hall.1 c hc)) hempty ?_
        ⟨(w, x), hr'.mem_puts (by simp), hall.2, dataOf control log, ?_, ?_⟩ fun hne v hv => ?_
      · simp [TwoLevel.notify, hnew]
      · rw [← dataOf_concat_of_some (w := w) hall.2]
        exact (dataOf_perm hperm).symm
      · cases hout : out x (dataOf control log) <;> simp [TwoLevel.notify, hnew, hfired, hout]
      · -- a leaf that the root has not heard of has got nothing
        have hv' : v ∉ insert w s.known := by
          intro hknown
          cases hout : out x (dataOf control log) with
          | nil => exact hne (by simp [TwoLevel.notify, hnew, hfired, hout])
          | cons o os => simp [TwoLevel.notify, hnew, hout, Finset.mem_insert.1 hknown] at hv
        have hnil : s.puts.filter (·.1 = v) = [] := List.filter_eq_nil_iff.2 fun p hp => by
          have hknown := hr'.known p (hperm.mem_iff.1 hp)
          rw [decide_eq_true_eq]
          rintro rfl
          exact hv' hknown
        exact (hleaf v).trans (congrArg (collected control) hnil)
    · rw [if_neg hall] at hnew
      refine .waiting (hmissing hall hwait) ?_ hleaf (fun v q hq => ?_) (fun v => ?_) ?_
      · simp [TwoLevel.notify, hnew]
      · by_cases hv : v = w
        · subst hv
          simp only [TwoLevel.notify, Function.update_self] at hq
          exact hquiet v q (hup ▸ List.mem_cons_of_mem _ hq)
        · simp only [TwoLevel.notify, Function.update_of_ne hv] at hq
          exact hquiet v q hq
      · simp [TwoLevel.notify, hnew, hdown]
      · simp [TwoLevel.notify, hnew, hfired]
  | leafFired v y rest' hall hwait hroot hleaf hone hput hy hupv hquiet hdown hfired =>
    rw [← hroot] at hnew
    obtain rfl : w = v := by
      by_contra hne
      rw [hr.up_eq_nil_of_ne hone hne] at hup
      cases hup
    rw [hupv] at hup
    cases rest' with
    | nil =>
      -- the last notification: the root has everything in the same order
      obtain ⟨hq, rfl⟩ := List.cons.inj hup
      obtain ⟨rfl, rfl⟩ := Prod.mk.inj hq
      have hlog : s.puts = log ++ [(w, y)] := by
        have hroute := hr.route w
        rw [hupv, List.filter_eq_self.2 fun p hp => decide_eq_true (hone p hp),
          List.filter_eq_self.2 fun p hp => decide_eq_true (hone p (hr.mem_puts hp))] at hroute
        exact hroute
      have hdata : dataOf control log = dataOf control s.puts := by
        rw [hlog, dataOf_concat_of_some hy]
      rw [if_pos ⟨hlog ▸ hall, hy⟩, hdata] at hnew
      have hcount : (!(!(out y (dataOf control s.puts)).isEmpty) &&
          !(out y (dataOf control s.puts)).isEmpty) = false := by simp
      refine .done hall (fun v => ?_) ?_ ⟨(w, y), hput, hy, _, .refl _, ?_⟩ fun _ v _ => hleaf v
      · by_cases hv : v = w
        · subst hv
          simp [TwoLevel.notify]
        · simpa [TwoLevel.notify, hv] using hr.up_eq_nil_of_ne hone hv
      · simp [TwoLevel.notify, hnew]
      · simp only [TwoLevel.notify, hnew, hcount, hfired]
        simp
    | cons q rest'' =>
      obtain ⟨rfl, rfl⟩ := List.cons.inj hup
      obtain rfl : active = false := hquiet _ List.mem_cons_self
      have hnot : ¬ ((∀ c ∈ controls, c ∈ controlsOf control (log ++ [(w, x)])) ∧
          control x ≠ none) := by
        rintro ⟨hall', -⟩
        have hnil := hr'.up_eq_nil hall' w
        simp [TwoLevel.notify] at hnil
      rw [if_neg hnot] at hnew
      refine .leafFired w y rest'' hall (hmissing hnot hwait) ?_ hleaf hone hput hy ?_
        (fun q hq => hquiet q (List.mem_cons_of_mem _ hq)) (fun v => ?_) ?_
      · simp [TwoLevel.notify, hnew]
      · simp [TwoLevel.notify]
      · simp [TwoLevel.notify, hnew, hdown]
      · simp [TwoLevel.notify, hnew, hfired]
  | done _ hempty =>
    rw [hempty] at hup
    cases hup

theorem clear (hp : Phase controls control out s log) {w : ι} {k : κ} {rest : List κ}
    (hdown : s.down w = k :: rest) :
    Phase controls control out (clear (barrier controls control out key) s w k rest) log := by
  cases hp with
  | waiting _ _ _ _ hempty =>
    rw [hempty] at hdown
    cases hdown
  | leafFired v y rest' _ _ _ _ _ _ _ _ _ hempty =>
    rw [hempty] at hdown
    cases hdown
  | done hall hup hroot hfired hclear =>
    refine .done hall hup hroot hfired fun hne v hv => ?_
    by_cases hvw : v = w
    · subst hvw
      simp [TwoLevel.clear, barrier]
    · simp only [TwoLevel.clear, Function.update_of_ne hvw] at hv ⊢
      exact hclear hne v hv

end Phase

/-! ### Runs -/

variable {s s' : State ι (List α × Finset γ) α κ ο}

/-- The invariant of the runs in which every event is staged. -/
def Gathers (controls : Finset γ) (control : α → Option γ) (out : α → List α → List ο)
    (place : γ → ι) (s : State ι (List α × Finset γ) α κ ο) : Prop :=
  ∃ log, Routed controls control place s log ∧ Phase controls control out s log

theorem Gathers.initial (hne : controls.Nonempty) (known : Finset ι) :
    Gathers controls control out place
      (⟨([], ∅), fun _ => ([], ∅), known, fun _ => [], fun _ => [], [], []⟩ :
        State ι (List α × Finset γ) α κ ο) := by
  obtain ⟨c, hc⟩ := hne
  refine ⟨[], ⟨fun _ => rfl, by simp, by simp, List.nodup_nil, by simp⟩, ?_⟩
  exact .waiting ⟨c, hc, List.not_mem_nil⟩ rfl (fun _ => rfl) (by simp) (fun _ => rfl) rfl

theorem Gathers.step (h : Gathers controls control out place s) {e : Event ι α}
    (hstaged : Staged controls control place s e)
    (hstep : step (barrier controls control out key) s e = some s') :
    Gathers controls control out place s' := by
  obtain ⟨log, hr, hp⟩ := h
  obtain ⟨w, x, rfl, rfl⟩ | ⟨w, x, active, rest, rfl, hup, rfl⟩ | ⟨w, k, rest, rfl, hdown, rfl⟩ :=
    step_cases hstep
  · exact ⟨log, hr.put hstaged, hp.put hr hstaged⟩
  · exact ⟨log ++ [(w, x)], hr.notify hup, hp.notify hr hup⟩
  · exact ⟨log, hr.clear w k rest, hp.clear hdown⟩

/-- There is at most one firing, at a control, with all data. -/
theorem Gathers.fired_or (h : Gathers controls control out place s) :
    s.fired = [] ∨ (∀ c ∈ controls, c ∈ controlsOf control s.puts) ∧
      ∃ p ∈ s.puts, control p.2 ≠ none ∧
        ∃ l, l.Perm (dataOf control s.puts) ∧ s.fired = out p.2 l := by
  obtain ⟨log, -, hp⟩ := h
  cases hp with
  | waiting _ _ _ _ _ hfired => exact .inl hfired
  | leafFired v y rest hall _ _ _ _ hput hy _ _ _ hfired =>
    exact .inr ⟨hall, _, hput, hy, _, .refl _, hfired⟩
  | done hall _ _ hfired => exact .inr ⟨hall, hfired⟩

/-- The firing is there as soon as all controls are put and nothing is on its way up; when nothing
is on its way down either, all machines are clear again. -/
theorem Gathers.fired_of_all (h : Gathers controls control out place s)
    (hall : ∀ c ∈ controls, c ∈ controlsOf control s.puts) (hup : ∀ w, s.up w = []) :
    (∃ p ∈ s.puts, control p.2 ≠ none ∧
        ∃ l, l.Perm (dataOf control s.puts) ∧ s.fired = out p.2 l) ∧ s.root = ([], ∅) ∧
      (s.fired ≠ [] → ∀ w, s.down w = [] → s.leaf w = ([], ∅)) := by
  obtain ⟨log, hr, hp⟩ := h
  cases hp with
  | waiting hwait =>
    obtain ⟨c, hc, hmissing⟩ := hwait
    obtain ⟨p, hp, hpc⟩ := mem_controlsOf.1 (hall c hc)
    exact absurd (mem_controlsOf.2 ⟨p, (hr.perm_log hup).mem_iff.1 hp, hpc⟩) hmissing
  | leafFired v y rest _ _ _ _ _ _ _ hupv =>
    rw [hup] at hupv
    cases rest <;> cases hupv
  | done _ _ hroot hfired hclear => exact ⟨hfired, hroot, hclear⟩

end TwoLevel
