import Demeter.Lib.Dict
import Demeter.Lib.Runs
import Demeter.Scheduler.Dispatch

/-!
# The booking of executors

The local scheduler and its executors as processes that exchange messages over first-in first-out
channels.  All executors send to the scheduler over one channel, `shared_chan`; every executor has
a channel of its own, over which it gets function calls and the responses to its requests.

* `fire` is one step of one process: `dispatch`, `handle` and `respond` are steps of the scheduler
  (`src/scheduler/scheduler_server.cpp`), the others of an executor
  (`src/executor/executor_server.cpp` and the user library);
* `View` is what concerns a single executor, and `Moves` what a step of the system can do to it;
* `Coherent` relates the status of an executor to its outstanding call and to the flags on their
  way, and `no_double_booking` is the result about every run without stale reports.
-/

namespace Demeter.Executor

open Demeter.Scheduler (ExecutorStatus selectExecutor eligible_selectExecutor)

/-! ### The processes -/

/-- A message to the scheduler.  A request (get an object, put one into the store) is answered, an
object or an output is not. -/
inductive Report where
  | busy
  | available
  | request
  | object
  deriving DecidableEq

/-- A message to an executor. -/
inductive Order where
  | call (funcName : String)
  | response
  deriving DecidableEq

/-- Where an executor is in its loop.  `called` has taken a call and not yet sent the busy flag,
`waiting` is inside the user's function and waits for a response. -/
inductive Phase where
  | idle
  | called
  | executing
  | waiting
  deriving DecidableEq

/-- The scheduler, the executors and the messages between them. -/
structure System (n : ℕ) where
  status : Fin n → ExecutorStatus
  functionExecutorMap : Dict String (Finset (Fin n))
  requests : List (Fin n)
  sharedChan : List (Fin n × Report)
  chan : Fin n → List Order
  phase : Fin n → Phase

/-- The start of the scheduler: it waits for the first report of every executor. -/
def initial (n : ℕ) : System n where
  status _ := .await
  functionExecutorMap := Dict.empty
  requests := []
  sharedChan := []
  chan _ := []
  phase _ := .idle

/-- The steps of the scheduler and of the executors. -/
inductive Label (n : ℕ) where
  | dispatch (funcName : String) (rand : ℕ)
  | handle
  | respond (e : Fin n)
  | receive (e : Fin n)
  | sendBusy (e : Fin n)
  | sendRequest (e : Fin n)
  | sendObject (e : Fin n)
  | readResponse (e : Fin n)
  | timeout (e : Fin n)
  | finish (e : Fin n)
  | report (e : Fin n)

/-- The status after an available flag. -/
def onAvailable (status : ExecutorStatus) : ExecutorStatus :=
  if status = .empty ∨ status = .await then .empty else .available

section Steps

variable {n : ℕ}

/-- An executor sends a message and goes to another phase. -/
def System.send (s : System n) (e : Fin n) (m : Report) (p : Phase) : System n :=
  { s with sharedChan := s.sharedChan ++ [(e, m)], phase := Function.update s.phase e p }

/-- The scheduler sends a call to the executor that it has chosen. -/
def System.book (s : System n) (e : Fin n) (funcName : String) : System n :=
  { s with
    functionExecutorMap := s.functionExecutorMap.set funcName
      (insert e ((s.functionExecutorMap.get? funcName).getD ∅))
    chan := Function.update s.chan e (s.chan e ++ [.call funcName])
    status := Function.update s.status e .await }

/-- The scheduler handles a message of an executor. -/
def System.onReport (s : System n) (e : Fin n) : Report → System n
  | .busy => { s with status := Function.update s.status e .busy }
  | .available => { s with status := Function.update s.status e (onAvailable (s.status e)) }
  | .request => { s with requests := s.requests ++ [e] }
  | .object => s

section Fire

variable (sharedExecutor : Bool)

/-- One step; `none` if the process cannot take it. -/
def fire (s : System n) : Label n → Option (System n)
  | .dispatch funcName rand => do
      let warm := (s.functionExecutorMap.get? funcName).getD ∅
      let e ← selectExecutor sharedExecutor s.status warm rand
      return s.book e funcName
  | .handle =>
      match s.sharedChan with
      | [] => none
      | (e, m) :: rest => some ({ s with sharedChan := rest }.onReport e m)
  | .respond e =>
      if e ∈ s.requests then
        some { s with
          requests := s.requests.erase e
          chan := Function.update s.chan e (s.chan e ++ [.response]) }
      else none
  | .receive e =>
      match s.phase e, s.chan e with
      | .idle, m :: rest =>
          -- the loop of an idle executor does nothing with a response
          some { s with
            chan := Function.update s.chan e rest
            phase := Function.update s.phase e (if m = .response then .idle else .called) }
      | _, _ => none
  | .sendBusy e => if s.phase e = .called then some (s.send e .busy .executing) else none
  | .sendRequest e => if s.phase e = .executing then some (s.send e .request .waiting) else none
  | .sendObject e => if s.phase e = .executing then some (s.send e .object .executing) else none
  | .readResponse e =>
      match s.phase e, s.chan e with
      | .waiting, _ :: rest =>
          -- whatever comes next is taken for the response
          some { s with
            chan := Function.update s.chan e rest
            phase := Function.update s.phase e .executing }
      | _, _ => none
  | .timeout e =>
      if s.phase e = .waiting then some { s with phase := Function.update s.phase e .executing }
      else none
  | .finish e => if s.phase e = .executing then some (s.send e .available .idle) else none
  | .report e => if s.phase e = .idle then some (s.send e .available .idle) else none

end Fire

/-! ### The view of one executor -/

/-- The message is about the executor itself. -/
def Report.IsFlag (m : Report) : Prop := m = .busy ∨ m = .available

instance (m : Report) : Decidable m.IsFlag :=
  inferInstanceAs (Decidable (m = .busy ∨ m = .available))

/-- A function call. -/
def Order.isCall : Order → Bool
  | .call _ => true
  | .response => false

/-- The flags of an executor that the scheduler has not handled yet. -/
def System.flags (s : System n) (e : Fin n) : List Report :=
  (s.sharedChan.filter fun m => m.1 = e ∧ m.2.IsFlag).map Prod.snd

/-- The function calls waiting in the channel of an executor. -/
def System.calls (s : System n) (e : Fin n) : ℕ := (s.chan e).countP Order.isCall

/-- The calls that an executor has been given and has not finished. -/
def System.outstanding (s : System n) (e : Fin n) : ℕ :=
  s.calls e + if s.phase e = .idle then 0 else 1

/-- What concerns one executor: its status, its flags on their way, its waiting calls and its
phase. -/
@[ext] structure View where
  status : ExecutorStatus
  flags : List Report
  calls : ℕ
  phase : Phase

/-- What concerns one executor. -/
def System.view (s : System n) (e : Fin n) : View := ⟨s.status e, s.flags e, s.calls e, s.phase e⟩

/-- The scheduler has sent a call and has not yet handled the busy flag for it. -/
def View.Pending (v : View) : Prop := 0 < v.calls ∨ v.phase = .called ∨ .busy ∈ v.flags

/-- What a step of the system does to one executor. -/
inductive Moves : View → View → Prop
  | stay (v : View) : Moves v v
  | dispatch (v : View) : v.status.Eligible →
      Moves v { v with status := .await, calls := v.calls + 1 }
  | handleBusy (v : View) (rest : List Report) : v.flags = .busy :: rest →
      Moves v { v with status := .busy, flags := rest }
  | handleAvailable (v : View) (rest : List Report) : v.flags = .available :: rest →
      ¬ (v.status = .await ∧ v.Pending) →
      Moves v { v with status := onAvailable v.status, flags := rest }
  | takeCall (v : View) (c : ℕ) : v.phase = .idle → v.calls = c + 1 →
      Moves v { v with calls := c, phase := .called }
  | sendBusy (v : View) : v.phase = .called →
      Moves v { v with phase := .executing, flags := v.flags ++ [.busy] }
  | sendRequest (v : View) : v.phase = .executing → Moves v { v with phase := .waiting }
  | readResponse (v : View) (c : ℕ) : v.phase = .waiting → c ≤ v.calls →
      Moves v { v with calls := c, phase := .executing }
  | finish (v : View) : v.phase = .executing →
      Moves v { v with phase := .idle, flags := v.flags ++ [.available] }
  | report (v : View) : v.phase = .idle → Moves v { v with flags := v.flags ++ [.available] }

/-- No available flag is handled while the scheduler waits for the busy flag of a call: a report
sent before the call was received is not taken for the end of it. -/
def Timely (s : System n) : Label n → Prop
  | .handle => ∀ m ∈ s.sharedChan.head?, m.2 = .available →
      ¬ (s.status m.1 = .await ∧ (s.view m.1).Pending)
  | _ => True

instance (v : View) : Decidable v.Pending :=
  inferInstanceAs (Decidable (0 < v.calls ∨ v.phase = .called ∨ .busy ∈ v.flags))

instance (s : System n) : (l : Label n) → Decidable (Timely s l)
  | .handle => inferInstanceAs (Decidable (∀ m ∈ s.sharedChan.head?, m.2 = .available →
      ¬ (s.status m.1 = .await ∧ (s.view m.1).Pending)))
  | .dispatch _ _ | .respond _ | .receive _ | .sendBusy _ | .sendRequest _ | .sendObject _
  | .readResponse _ | .timeout _ | .finish _ | .report _ => .isTrue trivial

/-! ### The invariant of one executor -/

/-- No busy flag is on its way. -/
def OnlyAvailable (flags : List Report) : Prop := ∀ m ∈ flags, m = .available

theorem OnlyAvailable.append {flags : List Report} (h : OnlyAvailable flags) :
    OnlyAvailable (flags ++ [.available]) := by
  intro m hm
  obtain hm | hm := List.mem_append.1 hm
  · exact h m hm
  · exact List.mem_singleton.1 hm

theorem OnlyAvailable.tail {m : Report} {flags rest : List Report} (h : OnlyAvailable flags)
    (hf : flags = m :: rest) : OnlyAvailable rest := by
  subst hf
  exact fun m' hm' => h m' (List.mem_cons_of_mem m hm')

/-- The status of an executor and the flags on their way, against what it is doing. -/
inductive Coherent : View → Prop
  /-- Nothing is outstanding. -/
  | free {status : ExecutorStatus} {flags : List Report} (hst : status.Eligible ∨ status = .await)
      (hf : OnlyAvailable flags) : Coherent ⟨status, flags, 0, .idle⟩
  /-- A call is in the channel. -/
  | booked {flags : List Report} (hf : OnlyAvailable flags) : Coherent ⟨.await, flags, 1, .idle⟩
  | called {flags : List Report} (hf : OnlyAvailable flags) : Coherent ⟨.await, flags, 0, .called⟩
  /-- The busy flag is the last one on its way. -/
  | running {flags : List Report} {phase : Phase} (hf : OnlyAvailable flags)
      (hp : phase = .executing ∨ phase = .waiting) :
      Coherent ⟨.await, flags ++ [.busy], 0, phase⟩
  /-- The call has ended before the scheduler has handled the busy flag for it. -/
  | ended {before after : List Report} (hb : OnlyAvailable before) (ha : OnlyAvailable after) :
      Coherent ⟨.await, before ++ .busy :: after, 0, .idle⟩
  | busyRunning {phase : Phase} (hp : phase = .executing ∨ phase = .waiting) :
      Coherent ⟨.busy, [], 0, phase⟩
  | busyEnded {flags : List Report} (hf : OnlyAvailable flags) : Coherent ⟨.busy, flags, 0, .idle⟩

theorem Coherent.of_eligible {v : View} (h : Coherent v) (he : v.status.Eligible) :
    OnlyAvailable v.flags ∧ v.calls = 0 ∧ v.phase = .idle := by
  cases h with
  | free _ hf => exact ⟨hf, rfl, rfl⟩
  | _ => simp [ExecutorStatus.Eligible] at he

theorem eligible_onAvailable (status : ExecutorStatus) : (onAvailable status).Eligible := by
  unfold onAvailable
  split_ifs
  · exact .inl rfl
  · exact .inr rfl

/-- A busy flag that is next in the channel is the one of the current call. -/
theorem Coherent.handleBusy {v : View} (h : Coherent v) {rest : List Report}
    (hf : v.flags = .busy :: rest) : Coherent { v with status := .busy, flags := rest } := by
  have hne : ∀ flags : List Report, OnlyAvailable flags → flags ≠ .busy :: rest := by
    rintro _ hall rfl
    cases hall .busy (by simp)
  cases h with
  | free _ hall => exact absurd hf (hne _ hall)
  | booked hall => exact absurd hf (hne _ hall)
  | called hall => exact absurd hf (hne _ hall)
  | @running flags phase hall hp =>
    cases flags with
    | nil =>
      obtain rfl : [] = rest := (List.cons.inj hf).2
      exact .busyRunning hp
    | cons m flags => cases (hall m (by simp)).symm.trans (List.cons.inj hf).1
  | @ended before after hb ha =>
    cases before with
    | nil =>
      obtain rfl : after = rest := (List.cons.inj hf).2
      exact .busyEnded ha
    | cons m before => cases (hb m (by simp)).symm.trans (List.cons.inj hf).1
  | busyRunning _ => cases hf
  | busyEnded hall => exact absurd hf (hne _ hall)

/-- An available flag that is not stale finds the executor free. -/
theorem Coherent.handleAvailable {v : View} (h : Coherent v) {rest : List Report}
    (hf : v.flags = .available :: rest) (ht : ¬ (v.status = .await ∧ v.Pending)) :
    Coherent { v with status := onAvailable v.status, flags := rest } := by
  cases h with
  | free _ hall => exact .free (.inl (eligible_onAvailable _)) (hall.tail hf)
  | booked _ => exact absurd ⟨rfl, .inl one_pos⟩ ht
  | called _ => exact absurd ⟨rfl, .inr (.inl rfl)⟩ ht
  | running _ _ => exact absurd ⟨rfl, .inr (.inr (by simp))⟩ ht
  | ended _ _ => exact absurd ⟨rfl, .inr (.inr (by simp))⟩ ht
  | busyRunning _ => cases hf
  | busyEnded hall => exact .free (.inl (eligible_onAvailable _)) (hall.tail hf)

theorem Coherent.finish {v : View} (h : Coherent v) (hp : v.phase = .executing) :
    Coherent { v with phase := .idle, flags := v.flags ++ [.available] } := by
  cases h with
  | running hf _ =>
    have hlast : OnlyAvailable [.available] := fun m hm => List.mem_singleton.1 hm
    simpa using Coherent.ended hf hlast
  | busyRunning _ => exact .busyEnded fun m hm => List.mem_singleton.1 hm
  | _ => cases hp

theorem Coherent.report {v : View} (h : Coherent v) (hp : v.phase = .idle) :
    Coherent { v with flags := v.flags ++ [.available] } := by
  cases h with
  | free hst hf => exact .free hst hf.append
  | booked hf => exact .booked hf.append
  | ended hb ha => simpa using Coherent.ended hb ha.append
  | busyEnded hf => exact .busyEnded hf.append
  | called _ => cases hp
  | running _ h => rcases h with rfl | rfl <;> cases hp
  | busyRunning h => rcases h with rfl | rfl <;> cases hp

theorem Coherent.moves {v v' : View} (h : Coherent v) (hm : Moves v v') : Coherent v' := by
  cases hm with
  | stay => exact h
  | dispatch he =>
    obtain ⟨hf, hc, hp⟩ := h.of_eligible he
    rw [hc, hp]
    exact .booked hf
  | handleBusy rest hf => exact h.handleBusy hf
  | handleAvailable rest hf ht => exact h.handleAvailable hf ht
  | takeCall c hp hc =>
    cases h with
    | booked hf =>
      obtain rfl : 0 = c := Nat.succ.inj hc
      exact .called hf
    | _ => cases hc
  | sendBusy hp =>
    cases h with
    | called hf => exact .running hf (.inl rfl)
    | running _ h => rcases h with rfl | rfl <;> cases hp
    | busyRunning h => rcases h with rfl | rfl <;> cases hp
    | _ => cases hp
  | sendRequest hp =>
    cases h with
    | running hf _ => exact .running hf (.inr rfl)
    | busyRunning _ => exact .busyRunning (.inr rfl)
    | _ => cases hp
  | readResponse c hp hc =>
    cases h with
    | running hf _ =>
      obtain rfl : c = 0 := Nat.le_zero.1 hc
      exact .running hf (.inl rfl)
    | busyRunning _ =>
      obtain rfl : c = 0 := Nat.le_zero.1 hc
      exact .busyRunning (.inl rfl)
    | _ => cases hp
  | finish hp => exact h.finish hp
  | report hp => exact h.report hp

/-! ### Steps of the system and their views -/

theorem flags_send (s : System n) (e : Fin n) (m : Report) (p : Phase) (e' : Fin n) :
    (s.send e m p).flags e' = s.flags e' ++ if e = e' ∧ m.IsFlag then [m] else [] := by
  simp only [System.flags, System.send, List.filter_append, List.map_append]
  by_cases h : e = e' ∧ m.IsFlag <;> simp [h]

/-- A message that an executor sends is not seen in the view of another one. -/
theorem view_send_of_ne (s : System n) {e e' : Fin n} (h : e' ≠ e) (m : Report) (p : Phase) :
    (s.send e m p).view e' = s.view e' := by
  have hflags := flags_send s e m p e'
  rw [if_neg fun hh => h hh.1.symm, List.append_nil] at hflags
  ext1
  · rfl
  · exact hflags
  · rfl
  · exact Function.update_of_ne h p s.phase

theorem view_send_self (s : System n) (e : Fin n) (m : Report) (p : Phase) :
    (s.send e m p).view e = { s.view e with
      phase := p, flags := s.flags e ++ if m.IsFlag then [m] else [] } := by
  have hflags := flags_send s e m p e
  simp only [true_and] at hflags
  ext1
  · rfl
  · exact hflags
  · rfl
  · exact Function.update_self e p s.phase

/-- A message moves only the executor that sends it. -/
theorem moves_send {s : System n} {e : Fin n} {m : Report} {p : Phase}
    (h : Moves (s.view e) { s.view e with
      phase := p, flags := s.flags e ++ if m.IsFlag then [m] else [] }) (e' : Fin n) :
    Moves (s.view e') ((s.send e m p).view e') := by
  by_cases he : e' = e
  · subst he
    rw [view_send_self]
    exact h
  · rw [view_send_of_ne s he]
    exact .stay _

/-- The scheduler changes the status and the channel of one executor. -/
theorem moves_update (s s' : System n) {e : Fin n} (h : Moves (s.view e) (s'.view e))
    (hst : ∀ e' ≠ e, s'.status e' = s.status e') (hfl : ∀ e' ≠ e, s'.flags e' = s.flags e')
    (hch : ∀ e' ≠ e, s'.chan e' = s.chan e') (hph : ∀ e' ≠ e, s'.phase e' = s.phase e')
    (e' : Fin n) : Moves (s.view e') (s'.view e') := by
  by_cases he : e' = e
  · exact he ▸ h
  · have hview : s'.view e' = s.view e' := by
      simp only [System.view, System.calls, hst e' he, hfl e' he, hch e' he, hph e' he]
    rw [hview]
    exact .stay _

theorem view_book_self (s : System n) (e : Fin n) (funcName : String) :
    (s.book e funcName).view e =
      { s.view e with status := .await, calls := (s.view e).calls + 1 } := by
  ext1
  · exact Function.update_self e _ s.status
  · rfl
  · simp [System.view, System.calls, System.book, Order.isCall]
  · rfl

theorem moves_book {s : System n} {e : Fin n} (he : (s.status e).Eligible) (funcName : String)
    (e' : Fin n) : Moves (s.view e') ((s.book e funcName).view e') := by
  refine moves_update s (s.book e funcName) ?_ (fun x hx => Function.update_of_ne hx _ _)
    (fun _ _ => rfl) (fun x hx => Function.update_of_ne hx _ _) (fun _ _ => rfl) e'
  rw [view_book_self]
  exact .dispatch _ he

/-- What handling the next message does to the executor that sent it. -/
theorem flags_of_sharedChan {s : System n} {e : Fin n} {m : Report} {rest : List (Fin n × Report)}
    (h : s.sharedChan = (e, m) :: rest) (e' : Fin n) :
    s.flags e' = (if e = e' ∧ m.IsFlag then [m] else []) ++
      (rest.filter fun x => x.1 = e' ∧ x.2.IsFlag).map Prod.snd := by
  simp only [System.flags, h, List.filter_cons]
  by_cases hf : e = e' ∧ m.IsFlag <;> simp [hf]

/-- Handling a flag moves the executor that sent it. -/
theorem moves_flag {s : System n} {e : Fin n} {m : Report} {rest : List (Fin n × Report)}
    (h : s.sharedChan = (e, m) :: rest) (hm : m.IsFlag) {st : ExecutorStatus}
    (hmove : ∀ flags, (s.view e).flags = m :: flags →
      Moves (s.view e) { s.view e with status := st, flags := flags }) (e' : Fin n) :
    Moves (s.view e') (System.view
      { s with sharedChan := rest, status := Function.update s.status e st } e') := by
  have hflags := flags_of_sharedChan h
  set s' : System n := { s with sharedChan := rest, status := Function.update s.status e st }
  refine moves_update s s' ?_ (fun x hx => Function.update_of_ne hx _ _) (fun x hx => ?_)
    (fun _ _ => rfl) (fun _ _ => rfl) e'
  · have hview : s'.view e = { s.view e with status := st, flags := s'.flags e } := by
      ext1
      · exact Function.update_self e _ s.status
      · rfl
      · rfl
      · rfl
    rw [hview]
    exact hmove _ ((hflags e).trans (by rw [if_pos ⟨rfl, hm⟩]; rfl))
  · rw [hflags, if_neg fun hh => hx hh.1.symm]
    rfl

/-- Handling any other message moves nothing. -/
theorem view_of_not_flag {s : System n} {e : Fin n} {m : Report} {rest : List (Fin n × Report)}
    (h : s.sharedChan = (e, m) :: rest) (hm : ¬ m.IsFlag) (requests : List (Fin n)) (e' : Fin n) :
    System.view { s with sharedChan := rest, requests := requests } e' = s.view e' := by
  have hflags := flags_of_sharedChan h e'
  rw [if_neg fun hh => hm hh.2, List.nil_append] at hflags
  ext1
  · rfl
  · exact hflags.symm
  · rfl
  · rfl

theorem moves_handle {s : System n} (ht : Timely s .handle) {e : Fin n} {m : Report}
    {rest : List (Fin n × Report)} (h : s.sharedChan = (e, m) :: rest) (e' : Fin n) :
    Moves (s.view e') (({ s with sharedChan := rest }.onReport e m).view e') := by
  cases m with
  | busy => exact moves_flag h (.inl rfl) (fun flags hf => .handleBusy _ flags hf) e'
  | available =>
    have hstale := ht (e, .available) (by simp [h]) rfl
    exact moves_flag h (.inr rfl) (fun flags hf => .handleAvailable _ flags hf hstale) e'
  | request =>
    have hview := view_of_not_flag h (by decide) (s.requests ++ [e]) e'
    exact hview ▸ .stay _
  | object =>
    have hview := view_of_not_flag h (by decide) s.requests e'
    exact hview ▸ .stay _

/-- The next message of the channel of `e` is taken. -/
theorem moves_take {s : System n} {e : Fin n} {m : Order} {rest : List Order} {p : Phase}
    (h : s.chan e = m :: rest)
    (hmove : Moves (s.view e) { s.view e with
      calls := s.calls e - (if m.isCall then 1 else 0), phase := p }) (e' : Fin n) :
    Moves (s.view e') (System.view { s with
      chan := Function.update s.chan e rest, phase := Function.update s.phase e p } e') := by
  set s' : System n := { s with
    chan := Function.update s.chan e rest, phase := Function.update s.phase e p }
  refine moves_update s s' ?_ (fun _ _ => rfl) (fun _ _ => rfl)
    (fun x hx => Function.update_of_ne hx _ _) (fun x hx => Function.update_of_ne hx _ _) e'
  have hcalls : s'.calls e = s.calls e - (if m.isCall then 1 else 0) := by
    show (Function.update s.chan e rest e).countP Order.isCall = (s.chan e).countP Order.isCall - _
    rw [Function.update_self, h, List.countP_cons, Nat.add_sub_cancel]
  have hview : s'.view e = { s.view e with
      calls := s.calls e - (if m.isCall then 1 else 0), phase := p } := by
    ext1
    · rfl
    · rfl
    · exact hcalls
    · exact Function.update_self e p s.phase
  rw [hview]
  exact hmove

/-- A response in the channel is not seen in any view. -/
theorem view_respond (s : System n) (e : Fin n) (requests : List (Fin n)) (e' : Fin n) :
    System.view { s with
      requests := requests
      chan := Function.update s.chan e (s.chan e ++ [.response]) } e' = s.view e' := by
  have hcalls : (Function.update s.chan e (s.chan e ++ [.response]) e').countP Order.isCall =
      s.calls e' := by
    by_cases he : e' = e
    · subst he
      simp [System.calls, Order.isCall]
    · rw [Function.update_of_ne he]
      rfl
  ext1
  · rfl
  · rfl
  · exact hcalls
  · rfl

theorem moves_receive {s : System n} {e : Fin n} {m : Order} {rest : List Order}
    (hp : s.phase e = .idle) (h : s.chan e = m :: rest) (e' : Fin n) :
    Moves (s.view e') (System.view { s with
      chan := Function.update s.chan e rest
      phase := Function.update s.phase e (if m = .response then .idle else .called) } e') := by
  refine moves_take h ?_ e'
  cases m with
  | response =>
    have hview : { s.view e with calls := s.calls e - 0, phase := .idle } = s.view e := by
      simp [System.view, hp]
    exact hview.symm ▸ .stay _
  | call funcName =>
    refine .takeCall _ _ hp (Nat.sub_add_cancel ?_).symm
    simp [System.view, System.calls, h, Order.isCall]

theorem moves_timeout {s : System n} {e : Fin n} (hp : s.phase e = .waiting) (e' : Fin n) :
    Moves (s.view e')
      (System.view { s with phase := Function.update s.phase e .executing } e') := by
  refine moves_update (e := e) s _ ?_ ?_ ?_ ?_ ?_ e'
  · simp only [System.view, Function.update_self]
    exact .readResponse (s.view e) (s.calls e) hp le_rfl
  · exact fun _ _ => rfl
  · exact fun _ _ => rfl
  · exact fun _ _ => rfl
  · exact fun x hx => Function.update_of_ne hx _ _

variable {sharedExecutor : Bool}

/-- Every step moves every executor in one of the ways of `Moves`. -/
theorem fire_moves {s s' : System n} {l : Label n} (ht : Timely s l)
    (h : fire sharedExecutor s l = some s') (e' : Fin n) : Moves (s.view e') (s'.view e') := by
  cases l with
  | dispatch funcName rand =>
    obtain ⟨e, he, rfl⟩ : ∃ e, selectExecutor sharedExecutor s.status _ rand = some e ∧
        s.book e funcName = s' := by
      simpa [fire, Option.bind_eq_some_iff] using h
    exact moves_book (eligible_selectExecutor _ _ he) funcName e'
  | handle =>
    simp only [fire] at h
    split at h
    · cases h
    · next e m rest hchan =>
      obtain rfl := Option.some.inj h
      exact moves_handle ht hchan e'
  | respond e =>
    simp only [fire] at h
    split_ifs at h
    obtain rfl := Option.some.inj h
    exact view_respond s e _ e' ▸ .stay _
  | receive e =>
    simp only [fire] at h
    split at h
    · next m rest hp hchan =>
      obtain rfl := Option.some.inj h
      exact moves_receive hp hchan e'
    · cases h
  | sendBusy e =>
    simp only [fire] at h
    split_ifs at h with hp
    obtain rfl := Option.some.inj h
    exact moves_send (.sendBusy _ hp) e'
  | sendRequest e =>
    simp only [fire] at h
    split_ifs at h with hp
    obtain rfl := Option.some.inj h
    refine moves_send ?_ e'
    simpa [Report.IsFlag, System.view] using Moves.sendRequest (s.view e) hp
  | sendObject e =>
    simp only [fire] at h
    split_ifs at h with hp
    obtain rfl := Option.some.inj h
    have hview : { s.view e with phase := .executing, flags := s.flags e ++ [] } = s.view e := by
      simp [System.view, hp]
    exact moves_send (hview.symm ▸ .stay _) e'
  | readResponse e =>
    simp only [fire] at h
    split at h
    · next m rest hp hchan =>
      obtain rfl := Option.some.inj h
      refine moves_take hchan ?_ e'
      exact .readResponse _ _ hp (Nat.sub_le _ _)
    · cases h
  | timeout e =>
    simp only [fire] at h
    split_ifs at h with hp
    obtain rfl := Option.some.inj h
    exact moves_timeout hp e'
  | finish e =>
    simp only [fire] at h
    split_ifs at h with hp
    obtain rfl := Option.some.inj h
    exact moves_send (.finish _ hp) e'
  | report e =>
    simp only [fire] at h
    split_ifs at h with hp
    obtain rfl := Option.some.inj h
    have hview : { s.view e with phase := .idle, flags := s.flags e ++ [Report.available] } =
        { s.view e with flags := s.flags e ++ [Report.available] } := by
      simp [System.view, hp]
    exact moves_send (hview.symm ▸ .report _ hp) e'

/-! ### Runs -/

theorem coherent_initial (e : Fin n) : Coherent ((initial n).view e) :=
  .free (.inr rfl) fun m hm => by cases hm

theorem coherent_exec {l : List (Label n)} {s : System n}
    (hl : Runs.Allowed (fire sharedExecutor) Timely (initial n) l)
    (hs : Runs.exec (fire sharedExecutor) (initial n) l = some s) (e : Fin n) :
    Coherent (s.view e) :=
  Runs.exec_invariant (P := fun s : System n => ∀ e, Coherent (s.view e))
    (fun _ _ _ ht hf h e => (h e).moves (fire_moves ht hf e)) hl hs coherent_initial e

theorem Coherent.outstanding_le {v : View} (h : Coherent v) :
    v.calls + (if v.phase = .idle then 0 else 1) ≤ 1 := by
  cases h with
  | running _ hp => rcases hp with rfl | rfl <;> simp
  | busyRunning hp => rcases hp with rfl | rfl <;> simp
  | _ => simp

/-- The executor has no call in its channel and executes none. -/
def System.Free (s : System n) (e : Fin n) : Prop :=
  (∀ funcName, .call funcName ∉ s.chan e) ∧ s.phase e = .idle

theorem notMem_of_calls_eq_zero {s : System n} {e : Fin n} (h : s.calls e = 0)
    (funcName : String) : .call funcName ∉ s.chan e := by
  intro hm
  have hn := List.countP_eq_zero.1 h _ hm
  exact hn rfl

/-- **No double booking.**  In every run in which no available flag is handled while the scheduler
waits for the busy flag of a call, an executor that looks eligible has no call waiting and is not
executing one, and no executor has more than one outstanding call. -/
theorem no_double_booking {l : List (Label n)} {s : System n}
    (hl : Runs.Allowed (fire sharedExecutor) Timely (initial n) l)
    (hs : Runs.exec (fire sharedExecutor) (initial n) l = some s) (e : Fin n) :
    ((s.status e).Eligible → s.Free e) ∧ s.outstanding e ≤ 1 := by
  have h := coherent_exec hl hs e
  constructor
  · intro he
    obtain ⟨-, hcalls, hphase⟩ := h.of_eligible he
    exact ⟨notMem_of_calls_eq_zero hcalls, hphase⟩
  · exact h.outstanding_le

/-- A stale report that is handled before the call has ended breaks the booking at once. -/
theorem eligible_not_free_of_stale {s s' : System n} {e : Fin n} {rest : List (Fin n × Report)}
    (hc : s.sharedChan = (e, .available) :: rest) (hfree : ¬ s.Free e)
    (h : fire sharedExecutor s .handle = some s') : (s'.status e).Eligible ∧ ¬ s'.Free e := by
  simp only [fire, hc] at h
  obtain rfl := Option.some.inj h
  refine ⟨?_, hfree⟩
  show (Function.update s.status e (onAvailable (s.status e)) e).Eligible
  rw [Function.update_self]
  exact eligible_onAvailable _

end Steps

/-- A report, a call that is received, executed and finished, and its flags. -/
def sampleRun : List (Label 1) :=
  [.report 0, .handle, .dispatch "map" 0, .receive 0, .sendBusy 0, .sendRequest 0, .handle, .handle,
    .respond 0, .readResponse 0, .finish 0, .handle]

theorem no_double_booking_sample :
    ∃ s, Runs.exec (fire false) (initial 1) sampleRun = some s ∧
      s.status 0 = .available ∧ s.Free 0 ∧ s.outstanding 0 ≤ 1 := by
  have hl : Runs.Allowed (fire false) Timely (initial 1) sampleRun := by decide
  obtain ⟨s, hs⟩ : ∃ s, Runs.exec (fire false) (initial 1) sampleRun = some s := ⟨_, rfl⟩
  have hstatus : s.status 0 = .available := by
    obtain rfl := Option.some.inj hs
    decide
  have h := no_double_booking hl hs 0
  exact ⟨s, hs, hstatus, h.1 (.inr hstatus), h.2⟩

/-- The idle executor reports once more before it takes the call from its channel: it looks empty
again, and it gets a second call. -/
theorem double_booking_sample :
    (∃ s, Runs.exec (fire false) (initial 1)
        [.report 0, .handle, .dispatch "map" 0, .report 0, .handle] = some s ∧
      (s.status 0).Eligible ∧ ¬ s.Free 0) ∧
    ∃ s, Runs.exec (fire false) (initial 1)
        [.report 0, .handle, .dispatch "map" 0, .report 0, .handle, .dispatch "map" 0] = some s ∧
      s.outstanding 0 = 2 := by
  refine ⟨⟨_, rfl, by decide, fun h => h.1 "map" (by decide)⟩, ⟨_, rfl, by decide⟩⟩

end Demeter.Executor
