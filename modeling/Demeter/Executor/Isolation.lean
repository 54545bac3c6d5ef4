import Demeter.Executor.Protocol

/-!
# Executors that are not shared

With `sharedExecutor` false, `schedule_func_call` gives an executor that has run a function only
calls of that function again, as long as the executor does not become empty.

* `LoggedSystem` records the calls sent to the executors;
* `View.Given` is what the status of an executor tells once a call was sent to it, and every step
  keeps it (`Given.moves`);
* `isolated_run` is the result about every run without stale reports.
-/

namespace Demeter.Executor

open Demeter.Scheduler (ExecutorStatus selectExecutor selectExecutor_spec eligible_selectExecutor)

variable {n : ℕ}

/-! ### The calls sent -/

/-- The processes, and the calls sent so far: an executor and a function each. -/
structure LoggedSystem (n : ℕ) where
  system : System n
  sent : List (Fin n × String) := []

/-- The call that a step of the scheduler sends. -/
def sentBy (s : System n) : Label n → List (Fin n × String)
  | .dispatch funcName rand =>
      match selectExecutor false s.status ((s.functionExecutorMap.get? funcName).getD ∅) rand with
      | some e => [(e, funcName)]
      | none => []
  | _ => []

/-- One step of the processes with executors that are not shared. -/
def fireLogged (s : LoggedSystem n) (l : Label n) : Option (LoggedSystem n) :=
  (fire false s.system l).map fun s' => ⟨s', s.sent ++ sentBy s.system l⟩

/-- All calls sent to one executor are calls of one function. -/
def LoggedSystem.Isolated (s : LoggedSystem n) : Prop :=
  ∀ e f g, (e, f) ∈ s.sent → (e, g) ∈ s.sent → f = g

/-! ### The status of an executor that was given a call -/

/-- It is not empty, and if the scheduler awaits its busy flag, then a call is on its way. -/
def View.Given (v : View) : Prop := v.status ≠ .empty ∧ (v.status = .await → v.Pending)

/-- A call that is on its way stays so while the executor takes none. -/
theorem View.Pending.mono {v v' : View} (h : v.Pending) (hphase : v.phase ≠ .called)
    (hcalls : v.calls ≤ v'.calls) (hflags : v.flags ⊆ v'.flags) : v'.Pending := by
  rcases h with h | h | h
  · exact .inl (h.trans_le hcalls)
  · exact absurd h hphase
  · exact .inr (.inr (hflags h))

theorem View.Given.moves {v v' : View} (h : v.Given) (hc : Coherent v) (hm : Moves v v') :
    v'.Given := by
  obtain ⟨hne, hpending⟩ := h
  cases hm with
  | stay => exact ⟨hne, hpending⟩
  | dispatch he => exact ⟨by simp, fun _ => .inl (Nat.succ_pos _)⟩
  | handleBusy rest hf => exact ⟨by simp, fun h => by cases h⟩
  | handleAvailable rest hf ht =>
    have hawait : v.status ≠ .await := fun h => ht ⟨h, hpending h⟩
    have hstatus : onAvailable v.status = .available := if_neg fun h => h.elim hne hawait
    refine ⟨?_, ?_⟩
    · simp [hstatus]
    · simp [hstatus]
  | takeCall c hp hcalls => exact ⟨hne, fun _ => .inr (.inl rfl)⟩
  | sendBusy hp => exact ⟨hne, fun _ => .inr (.inr (by simp))⟩
  | sendRequest hp =>
    exact ⟨hne, fun h => (hpending h).mono (by simp [hp]) le_rfl (List.Subset.refl _)⟩
  | readResponse c hp hle =>
    -- no call is in the channel of an executor that waits for a response
    refine ⟨hne, fun h => ?_⟩
    cases hc with
    | running hf _ => exact .inr (.inr (by simp))
    | busyRunning _ => cases h
    | _ => cases hp
  | finish hp =>
    exact ⟨hne, fun h => (hpending h).mono (by simp [hp]) le_rfl (List.subset_append_left _ _)⟩
  | report hp =>
    exact ⟨hne, fun h => (hpending h).mono (by simp [hp]) le_rfl (List.subset_append_left _ _)⟩

/-! ### Runs -/

/-- An executor that was given a call belongs to the function of that call. -/
structure Dedicated (s : LoggedSystem n) (e : Fin n) (f : String) : Prop where
  sent : ∀ g, (e, g) ∈ s.sent → g = f
  warm : ∀ g, e ∈ (s.system.functionExecutorMap.get? g).getD ∅ → g = f
  given : (s.system.view e).Given

/-- No call was sent to the executor. -/
structure Untouched (s : LoggedSystem n) (e : Fin n) : Prop where
  sent : ∀ g, (e, g) ∉ s.sent
  warm : ∀ g, e ∉ (s.system.functionExecutorMap.get? g).getD ∅

/-- Every executor is untouched or belongs to one function. -/
structure Assigned (s : LoggedSystem n) : Prop where
  coherent : ∀ e, Coherent (s.system.view e)
  owner : ∀ e, Untouched s e ∨ ∃ f, Dedicated s e f

/-- Only a dispatch changes the table of warm executors. -/
theorem functionExecutorMap_fire {sharedExecutor : Bool} {s s' : System n} {l : Label n}
    (hl : ∀ f r, l ≠ .dispatch f r) (h : fire sharedExecutor s l = some s') :
    s'.functionExecutorMap = s.functionExecutorMap := by
  cases l with
  | dispatch f r => exact absurd rfl (hl f r)
  | handle =>
    simp only [fire] at h
    split at h
    · cases h
    · next e m rest hchan =>
      cases h
      cases m <;> rfl
  | receive e =>
    simp only [fire] at h
    split at h
    · cases h
      rfl
    · cases h
  | readResponse e =>
    simp only [fire] at h
    split at h
    · cases h
      rfl
    · cases h
  | _ =>
    simp only [fire] at h
    split_ifs at h
    cases h
    rfl

/-- A step that sends no call keeps the owner of an executor. -/
theorem owner_of_not_dispatch {s s' : LoggedSystem n} {l : Label n} (h : Assigned s)
    (ht : Timely s.system l) (hl : ∀ f r, l ≠ .dispatch f r) (hstep : fireLogged s l = some s')
    (e : Fin n) : Untouched s' e ∨ ∃ f, Dedicated s' e f := by
  obtain ⟨t, hfire, rfl⟩ := Option.map_eq_some_iff.1 hstep
  have hmap := functionExecutorMap_fire hl hfire
  have hsent : sentBy s.system l = [] := by
    cases l with
    | dispatch f r => exact absurd rfl (hl f r)
    | _ => rfl
  simp only [hsent, List.append_nil]
  rcases h.owner e with hun | ⟨f, hded⟩
  · refine .inl ⟨hun.sent, ?_⟩
    rw [hmap]
    exact hun.warm
  · refine .inr ⟨f, hded.sent, ?_, hded.given.moves (h.coherent e) (fire_moves ht hfire e)⟩
    rw [hmap]
    exact hded.warm

theorem mem_warm_book (s : System n) (e₀ e : Fin n) (f g : String) :
    e ∈ ((s.book e₀ f).functionExecutorMap.get? g).getD ∅ ↔
      e ∈ (s.functionExecutorMap.get? g).getD ∅ ∨ (g = f ∧ e = e₀) := by
  simp only [System.book, Dict.get?_set]
  by_cases hg : g = f
  · subst hg
    simp [or_comm]
  · simp [hg]

/-- A call goes to an executor that no function owns, or that its own function owns. -/
theorem owner_of_dispatch {s s' : LoggedSystem n} {f : String} {r : ℕ} (h : Assigned s)
    (hstep : fireLogged s (.dispatch f r) = some s') (e : Fin n) :
    Untouched s' e ∨ ∃ g, Dedicated s' e g := by
  obtain ⟨t, hfire, rfl⟩ := Option.map_eq_some_iff.1 hstep
  obtain ⟨e₀, hselect, rfl⟩ : ∃ e₀, selectExecutor false s.system.status
      ((s.system.functionExecutorMap.get? f).getD ∅) r = some e₀ ∧ s.system.book e₀ f = t := by
    simpa [fire, Option.bind_eq_some_iff] using hfire
  have hsent : sentBy s.system (.dispatch f r) = [(e₀, f)] := by
    simp only [sentBy, hselect]
  have hmoves := moves_book (eligible_selectExecutor _ _ hselect) f e
  simp only [hsent]
  by_cases he : e = e₀
  · subst he
    -- whoever owned the executor before, it is the function of the call
    have howner : (∀ g, (e, g) ∈ s.sent → g = f) ∧
        ∀ g, e ∈ (s.system.functionExecutorMap.get? g).getD ∅ → g = f := by
      rcases h.owner e with hun | ⟨g, hded⟩
      · exact ⟨fun g hg => absurd hg (hun.sent g), fun g hg => absurd hg (hun.warm g)⟩
      · have hwarm : e ∈ (s.system.functionExecutorMap.get? f).getD ∅ := by
          rcases selectExecutor_spec _ _ hselect with hempty | ⟨-, hshared | hwarm⟩
          · exact absurd hempty hded.given.1
          · cases hshared
          · exact hwarm
        obtain rfl := hded.warm f hwarm
        exact ⟨hded.sent, hded.warm⟩
    refine .inr ⟨f, fun g hg => ?_, fun g hg => ?_, ?_⟩
    · rcases List.mem_append.1 hg with hg | hg
      · exact howner.1 g hg
      · exact (Prod.mk.inj (List.mem_singleton.1 hg)).2
    · rcases (mem_warm_book s.system e e f g).1 hg with hg | hg
      · exact howner.2 g hg
      · exact hg.1
    · show ((s.system.book e f).view e).Given
      rw [view_book_self]
      exact ⟨by simp, fun _ => .inl (Nat.succ_pos _)⟩
  · have hother : ∀ g, (e, g) ∈ s.sent ++ [(e₀, f)] → (e, g) ∈ s.sent := fun g hg =>
      (List.mem_append.1 hg).resolve_right fun hg =>
        he (Prod.mk.inj (List.mem_singleton.1 hg)).1
    have hwarm : ∀ g, e ∈ ((s.system.book e₀ f).functionExecutorMap.get? g).getD ∅ →
        e ∈ (s.system.functionExecutorMap.get? g).getD ∅ := fun g hg =>
      ((mem_warm_book s.system e₀ e f g).1 hg).resolve_right fun hg => he hg.2
    rcases h.owner e with hun | ⟨g, hded⟩
    · exact .inl ⟨fun g hg => hun.sent g (hother g hg), fun g hg => hun.warm g (hwarm g hg)⟩
    · exact .inr ⟨g, fun g' hg => hded.sent g' (hother g' hg),
        fun g' hg => hded.warm g' (hwarm g' hg), hded.given.moves (h.coherent e) hmoves⟩

theorem assigned_step {s s' : LoggedSystem n} {l : Label n} (ht : Timely s.system l)
    (hstep : fireLogged s l = some s') (h : Assigned s) : Assigned s' := by
  refine ⟨fun e => ?_, fun e => ?_⟩
  · obtain ⟨t, hfire, rfl⟩ := Option.map_eq_some_iff.1 hstep
    exact (h.coherent e).moves (fire_moves ht hfire e)
  · by_cases hl : ∃ f r, l = .dispatch f r
    · obtain ⟨f, r, rfl⟩ := hl
      exact owner_of_dispatch h hstep e
    · push Not at hl
      exact owner_of_not_dispatch h ht hl hstep e

/-- **Isolation.**  In every run with executors that are not shared in which no available flag is
handled while the scheduler waits for the busy flag of a call, all calls sent to one executor are
calls of one function. -/
theorem isolated_run {l : List (Label n)} {s : LoggedSystem n}
    (hl : Runs.Allowed fireLogged (fun s l => Timely s.system l) ⟨initial n, []⟩ l)
    (hs : Runs.exec fireLogged ⟨initial n, []⟩ l = some s) : s.Isolated := by
  have hstart : Assigned (⟨initial n, []⟩ : LoggedSystem n) :=
    ⟨coherent_initial, fun e => .inl ⟨by simp, by simp [initial]⟩⟩
  have h := Runs.exec_invariant (fun _ _ _ => assigned_step) hl hs hstart
  intro e f g hf hg
  rcases h.owner e with hun | ⟨owner, hded⟩
  · exact absurd hf (hun.sent f)
  · rw [hded.sent f hf, hded.sent g hg]

/-- One executor runs a function twice. -/
theorem isolated_sample :
    ∃ s, Runs.exec fireLogged ⟨initial 1, []⟩ (sampleRun ++ [.dispatch "map" 0]) = some s ∧
      s.Isolated := by
  obtain ⟨s, hs⟩ : ∃ s, Runs.exec fireLogged ⟨initial 1, []⟩ (sampleRun ++ [.dispatch "map" 0]) =
    some s := ⟨_, rfl⟩
  exact ⟨s, hs, isolated_run (by decide) hs⟩

/-- The idle executor reports once more before it takes the call of `map` from its channel: it looks
empty again, and it gets a call of `reduce`. -/
theorem not_isolated_sample :
    ∃ s, Runs.exec fireLogged ⟨initial 1, []⟩
        [.report 0, .handle, .dispatch "map" 0, .report 0, .handle, .dispatch "reduce" 0] = some s ∧
      ¬ s.Isolated := by
  refine ⟨_, rfl, fun h => ?_⟩
  have hsame : "map" = "reduce" := h 0 "map" "reduce" (by decide) (by decide)
  exact absurd hsame (by decide)

end Demeter.Executor
