import Demeter.Lib.PriorityQueue
import Demeter.Scheduler.DelayQueue
import Demeter.Scheduler.Hints

/-!
# The rerun check

The loop over `rerun_check_queue` in the timer phase of `run` in
`src/scheduler/scheduler_server.cpp`.  It looks at the item on top, schedules the functions that the
trigger of the item wants to be executed again, and pops the queue, to which the calls of
`schedule_func_call` may have pushed other items meanwhile.

* `RerunPhase` is the state of the loop, with the queue as the heap that it is; `turn` is one turn,
  `loop` is the loop and `phase` reads `report_end` before it;
* `Grows` says what calls of `schedule_func_call` do to the queue, `turn_spec` what a turn does;
* `phase_spec` is the result about the whole loop;
* `exists_rerunChecks` finds the turns among the events of the node, if the clock stands still.
-/

namespace Demeter.Scheduler

variable {n : ℕ}

/-- The item to be checked first is on top. -/
abbrev RerunCheckQueue := PriorityQueue RerunCheckQueueItem.checkTime

/-- The functions that the trigger of an item wants to be executed again. -/
def Node.itemFuncs (s : Node n) (item : RerunCheckQueueItem) : List TriggerFunctionMetadata :=
  match s.triggers[item.trigger]? with
  | none => []
  | some t => t.actionForRerun item.session

/-- The list of the node itself is empty between two calls, and has during a call what that pushes.
`readings` is how often the clock has been read.  What was handled, popped and pushed so far is
recorded. -/
structure RerunPhase (n : ℕ) where
  node : Node n
  queue : RerunCheckQueue
  readings : ℕ := 0
  handled : List RerunCheckQueueItem := []
  popped : List RerunCheckQueueItem := []
  pushed : List RerunCheckQueueItem := []
  moved : node.rerunCheckQueue = []

/-- `raised` is an access outside of a vector, or an exception, in a call of
`schedule_func_call`. -/
inductive Outcome (n : ℕ) where
  | ended (st : RerunPhase n)
  | raised
  | running (st : RerunPhase n)

/-- An exception ended the loop. -/
def Outcome.isRaised : Outcome n → Bool
  | .raised => true
  | .ended _ | .running _ => false

namespace RerunPhase

/-- The items of the node are pushed in their order. -/
def ofNode (s : Node n) (readings : ℕ) : RerunPhase n where
  node := { s with rerunCheckQueue := [] }
  queue := PriorityQueue.empty.pushAll s.rerunCheckQueue
  readings := readings
  moved := rfl

section Loop

variable (cfg : Config) (env : Env) (clock : ℕ → ℕ)

/-- A call of `schedule_func_call`, which reads the clock. -/
def scheduleRerun (sessionId : String) (st : RerunPhase n) (m : TriggerFunctionMetadata) :
    Option (RerunPhase n) :=
  (st.node.rerun cfg env (clock st.readings) sessionId m).map fun node =>
    { node := { node with rerunCheckQueue := [] }
      queue := st.queue.pushAll node.rerunCheckQueue
      readings := st.readings + 1
      handled := st.handled
      popped := st.popped
      pushed := st.pushed ++ node.rerunCheckQueue
      moved := rfl }

/-- One due item; afterwards the top is removed, whatever it is by then. -/
def turn (st : RerunPhase n) (item : RerunCheckQueueItem) : Option (RerunPhase n) :=
  (Runs.exec (scheduleRerun cfg env clock item.session) st (st.node.itemFuncs item)).map fun st' =>
    { st' with
      queue := st'.queue.pop
      handled := st'.handled ++ [item]
      popped := st'.popped ++ st'.queue.top?.toList }

/-- The item on top, if it is due. -/
def due? (reportEnd : ℕ) (st : RerunPhase n) : Option RerunCheckQueueItem :=
  st.queue.top?.filter (·.checkTime ≤ reportEnd)

/-- The loop, cut off after `fuel` turns. -/
def loop (reportEnd : ℕ) : ℕ → RerunPhase n → Outcome n
  | 0, st => if (st.due? reportEnd).isSome then .running st else .ended st
  | fuel + 1, st =>
      match st.due? reportEnd with
      | none => .ended st
      | some item =>
          match st.turn cfg env clock item with
          | none => .raised
          | some st' => loop reportEnd fuel st'

/-- The check with the clock read once before the loop. -/
def phase (fuel : ℕ) (st : RerunPhase n) : Outcome n :=
  loop cfg env clock (clock st.readings) fuel { st with readings := st.readings + 1 }

end Loop

/-! ### What a call pushes -/

/-- All timeouts for reruns are at least one millisecond. -/
def Delayed (s : Node n) : Prop :=
  ∀ f metas, s.funcTriggerTimeoutMap.get? f = some metas → ∀ m ∈ metas, 1 ≤ m.2

section Calls

variable {cfg : Config} {env : Env} {now : ℕ} {s s' : Node n} {c : ScheduledCall}

theorem notifySources_rerun (now : ℕ) (s : Node n) (c : ScheduledCall) :
    (Node.notifySources now s c).funcTriggerTimeoutMap = s.funcTriggerTimeoutMap ∧
      (Node.notifySources now s c).rerunCheckQueue = s.rerunCheckQueue ++
        ((s.funcTriggerTimeoutMap.get? c.funcName).getD []).map fun m =>
          ⟨now + 1000 * m.2, c.sessionId, m.1⟩ := by
  unfold Node.notifySources
  generalize (s.funcTriggerTimeoutMap.get? c.funcName).getD [] = metas
  induction metas generalizing s with
  | nil => exact ⟨rfl, (List.append_nil _).symm⟩
  | cons m metas ih =>
    rw [List.foldl_cons, List.map_cons]
    refine ⟨(ih _).1, (ih _).2.trans ?_⟩
    rw [List.append_assoc, List.singleton_append]

theorem dispatch_rerun (env : Env) (now : ℕ) (s : Node n) (c : ScheduledCall) (e : Fin n) :
    (s.dispatch env now c e).funcTriggerTimeoutMap = s.funcTriggerTimeoutMap ∧
      (s.dispatch env now c e).rerunCheckQueue = s.rerunCheckQueue ++
        ((s.funcTriggerTimeoutMap.get? c.funcName).getD []).map fun m =>
          ⟨now + 1000 * m.2, c.sessionId, m.1⟩ := by
  unfold Node.dispatch
  exact notifySources_rerun now _ c

/-- What a call pushes is to be checked after the time of the call. -/
theorem scheduleFuncCall_rerun (hs : Delayed s) {keyLenMap : Dict Bytes ℕ}
    (h : s.scheduleFuncCall cfg env now keyLenMap c = some s') :
    s'.funcTriggerTimeoutMap = s.funcTriggerTimeoutMap ∧
      ∃ new, s'.rerunCheckQueue = s.rerunCheckQueue ++ new ∧
        ∀ item ∈ new, now < item.checkTime := by
  have hsame : ∃ new : List RerunCheckQueueItem,
      s.rerunCheckQueue = s.rerunCheckQueue ++ new ∧ ∀ item ∈ new, now < item.checkTime :=
    ⟨[], (List.append_nil _).symm, by simp⟩
  unfold Node.scheduleFuncCall at h
  split at h
  · next e he =>
    obtain rfl := Option.some.inj h
    obtain ⟨htimeouts, hqueue⟩ := dispatch_rerun env now s c e
    refine ⟨htimeouts, _, hqueue, ?_⟩
    intro item hitem
    obtain ⟨m, hm, rfl⟩ := List.mem_map.1 hitem
    have hone : 1 ≤ m.2 := by
      cases hget : s.funcTriggerTimeoutMap.get? c.funcName with
      | none =>
        simp only [hget] at hm
        cases hm
      | some metas =>
        simp only [hget] at hm
        exact hs _ metas hget m hm
    show now < now + 1000 * m.2
    omega
  · split_ifs at h
    · obtain rfl := Option.some.inj h
      exact ⟨rfl, hsame⟩
    · obtain rfl := Option.some.inj h
      exact ⟨rfl, hsame⟩
    · obtain ⟨args, -, h⟩ := Option.bind_eq_some_iff.1 h
      obtain ⟨call, rfl, -⟩ := Node.forward_spec h
      exact ⟨rfl, hsame⟩

theorem rerun_rerun (hs : Delayed s) {sessionId : String} {m : TriggerFunctionMetadata}
    (h : s.rerun cfg env now sessionId m = some s') :
    s'.funcTriggerTimeoutMap = s.funcTriggerTimeoutMap ∧
      ∃ new, s'.rerunCheckQueue = s.rerunCheckQueue ++ new ∧
        ∀ item ∈ new, now < item.checkTime :=
  scheduleFuncCall_rerun (s := { s with
    table := { s.table with funcAppMap := s.table.funcAppMap.touch m.funcName "" } }) hs h

end Calls

/-! ### One turn -/

/-- The timeouts are long enough, and the clock has reached the end of the report. -/
structure Ready (clock : ℕ → ℕ) (reportEnd : ℕ) (st : RerunPhase n) : Prop where
  delayed : Delayed st.node
  reached : reportEnd ≤ clock st.readings

/-- Calls of `schedule_func_call` push the items `new`, to be checked after the end of the
report. -/
structure Grows (reportEnd : ℕ) (st st' : RerunPhase n) (new : List RerunCheckQueueItem) :
    Prop where
  timeouts : st'.node.funcTriggerTimeoutMap = st.node.funcTriggerTimeoutMap
  readings : st.readings ≤ st'.readings
  handled : st'.handled = st.handled
  popped : st'.popped = st.popped
  queue : st'.queue = st.queue.pushAll new
  pushed : st'.pushed = st.pushed ++ new
  later : ∀ item ∈ new, reportEnd < item.checkTime

section Turn

variable {cfg : Config} {env : Env} {clock : ℕ → ℕ} {reportEnd : ℕ} {st st' : RerunPhase n}
  {new : List RerunCheckQueueItem}

theorem Grows.refl (reportEnd : ℕ) (st : RerunPhase n) : Grows reportEnd st st [] where
  timeouts := rfl
  readings := le_rfl
  handled := rfl
  popped := rfl
  queue := rfl
  pushed := (List.append_nil _).symm
  later := by simp

theorem Grows.trans {st'' : RerunPhase n} {new' : List RerunCheckQueueItem}
    (h : Grows reportEnd st st' new) (h' : Grows reportEnd st' st'' new') :
    Grows reportEnd st st'' (new ++ new') where
  timeouts := h'.timeouts.trans h.timeouts
  readings := h.readings.trans h'.readings
  handled := h'.handled.trans h.handled
  popped := h'.popped.trans h.popped
  queue := by
    rw [h'.queue, h.queue, PriorityQueue.pushAll, PriorityQueue.pushAll, PriorityQueue.pushAll,
      List.foldl_append]
  pushed := by rw [h'.pushed, h.pushed, List.append_assoc]
  later := List.forall_mem_append.2 ⟨h.later, h'.later⟩

theorem Ready.of_eq (hclock : Monotone clock) (hr : Ready clock reportEnd st)
    (htimeouts : st'.node.funcTriggerTimeoutMap = st.node.funcTriggerTimeoutMap)
    (hreadings : st.readings ≤ st'.readings) : Ready clock reportEnd st' where
  delayed := by
    unfold Delayed
    rw [htimeouts]
    exact hr.delayed
  reached := hr.reached.trans (hclock hreadings)

theorem grows_scheduleRerun (hr : Ready clock reportEnd st) {sessionId : String}
    {m : TriggerFunctionMetadata} (h : scheduleRerun cfg env clock sessionId st m = some st') :
    ∃ new, Grows reportEnd st st' new := by
  obtain ⟨node, hnode, rfl⟩ := Option.map_eq_some_iff.1 h
  obtain ⟨htimeouts, new, hqueue, hlater⟩ := rerun_rerun hr.delayed hnode
  rw [st.moved, List.nil_append] at hqueue
  refine ⟨node.rerunCheckQueue, htimeouts, Nat.le_succ _, rfl, rfl, rfl, rfl, ?_⟩
  intro item hitem
  rw [hqueue] at hitem
  exact hr.reached.trans_lt (hlater item hitem)

theorem grows_exec (hclock : Monotone clock) (hr : Ready clock reportEnd st) {sessionId : String}
    {metas : List TriggerFunctionMetadata}
    (h : Runs.exec (scheduleRerun cfg env clock sessionId) st metas = some st') :
    ∃ new, Grows reportEnd st st' new := by
  induction metas generalizing st with
  | nil =>
    obtain rfl := Option.some.inj h
    exact ⟨[], Grows.refl reportEnd st⟩
  | cons m metas ih =>
    obtain ⟨mid, hmid, h⟩ := Option.bind_eq_some_iff.1 h
    obtain ⟨new, hgrows⟩ := grows_scheduleRerun hr hmid
    obtain ⟨new', hgrows'⟩ := ih (hr.of_eq hclock hgrows.timeouts hgrows.readings) h
    exact ⟨new ++ new', hgrows.trans hgrows'⟩

theorem due?_eq_some_iff {item : RerunCheckQueueItem} :
    st.due? reportEnd = some item ↔ st.queue.top? = some item ∧ item.checkTime ≤ reportEnd := by
  unfold due?
  rw [Option.filter_eq_some_iff, decide_eq_true_iff]

/-- What is pushed is checked later than the item on top, which stays there. -/
theorem Grows.top? {item : RerunCheckQueueItem} (hgrows : Grows reportEnd st st' new)
    (hdue : st.due? reportEnd = some item) : st'.queue.top? = some item := by
  obtain ⟨htop, hle⟩ := due?_eq_some_iff.1 hdue
  rw [hgrows.queue]
  apply PriorityQueue.top?_pushAll htop
  intro item' hitem'
  exact hle.trans (hgrows.later item' hitem').le

theorem Grows.perm_pop {item : RerunCheckQueueItem} (hgrows : Grows reportEnd st st' new)
    (hdue : st.due? reportEnd = some item) :
    (st.queue.items ++ new).Perm (item :: st'.queue.pop.items) := by
  have hitems := (PriorityQueue.perm_pushAll st.queue new).symm
  rw [← hgrows.queue] at hitems
  exact hitems.trans (PriorityQueue.perm_pop (hgrows.top? hdue))

theorem loop_of_due?_eq_none (h : st.due? reportEnd = none) (fuel : ℕ) :
    loop cfg env clock reportEnd fuel st = .ended st := by
  cases fuel with
  | zero =>
    unfold loop
    rw [h]
    rfl
  | succ fuel =>
    unfold loop
    rw [h]

theorem loop_of_turn_eq_none {item : RerunCheckQueueItem} (hdue : st.due? reportEnd = some item)
    (h : st.turn cfg env clock item = none) (fuel : ℕ) :
    loop cfg env clock reportEnd (fuel + 1) st = .raised := by
  unfold loop
  rw [hdue]
  dsimp only
  rw [h]

theorem loop_of_turn {item : RerunCheckQueueItem} (hdue : st.due? reportEnd = some item)
    (h : st.turn cfg env clock item = some st') (fuel : ℕ) :
    loop cfg env clock reportEnd (fuel + 1) st = loop cfg env clock reportEnd fuel st' := by
  rw [loop, hdue]
  dsimp only
  rw [h]

/-- A turn for the item on top, with the items that it has pushed. -/
structure Turned (reportEnd : ℕ) (st st' : RerunPhase n) (item : RerunCheckQueueItem)
    (new : List RerunCheckQueueItem) : Prop where
  timeouts : st'.node.funcTriggerTimeoutMap = st.node.funcTriggerTimeoutMap
  readings : st.readings ≤ st'.readings
  handled : st'.handled = st.handled ++ [item]
  popped : st'.popped = st.popped ++ [item]
  pushed : st'.pushed = st.pushed ++ new
  later : ∀ item' ∈ new, reportEnd < item'.checkTime
  items : (st.queue.items ++ new).Perm (item :: st'.queue.items)

/-- The pop of a turn removes the item on top, whatever has been pushed. -/
theorem turn_spec (hclock : Monotone clock) (hr : Ready clock reportEnd st)
    {item : RerunCheckQueueItem} (hdue : st.due? reportEnd = some item)
    (h : st.turn cfg env clock item = some st') : ∃ new, Turned reportEnd st st' item new := by
  obtain ⟨mid, hmid, rfl⟩ := Option.map_eq_some_iff.1 h
  obtain ⟨new, hgrows⟩ := grows_exec hclock hr hmid
  refine ⟨new, hgrows.timeouts, hgrows.readings, ?_, ?_, hgrows.pushed, hgrows.later,
    hgrows.perm_pop hdue⟩
  · show mid.handled ++ [item] = st.handled ++ [item]
    rw [hgrows.handled]
  · show mid.popped ++ mid.queue.top?.toList = st.popped ++ [item]
    rw [hgrows.popped, hgrows.top? hdue, Option.toList_some]

end Turn

/-! ### The loop -/

/-- The items that are due. -/
def dueItems (reportEnd : ℕ) (st : RerunPhase n) : List RerunCheckQueueItem :=
  st.queue.items.filter (·.checkTime ≤ reportEnd)

/-- The items that are to be checked later. -/
def laterItems (reportEnd : ℕ) (st : RerunPhase n) : List RerunCheckQueueItem :=
  st.queue.items.filter (reportEnd < ·.checkTime)

/-- The loop has handled every due item once and removed the items it has handled, in the same
order; what was pushed meanwhile is left in the queue, and is not due. -/
structure Checked (reportEnd : ℕ) (st st' : RerunPhase n) : Prop where
  handled : ∃ handled, st'.handled = st.handled ++ handled ∧ st'.popped = st.popped ++ handled ∧
    handled.Perm (st.dueItems reportEnd)
  queue : ∃ pushed, st'.pushed = st.pushed ++ pushed ∧
    (∀ item ∈ pushed, reportEnd < item.checkTime) ∧
      st'.queue.items.Perm (st.laterItems reportEnd ++ pushed)

section Check

variable {clock : ℕ → ℕ} {reportEnd : ℕ} {st st' : RerunPhase n} {item : RerunCheckQueueItem}
  {new : List RerunCheckQueueItem}

/-- No item is due if the one on top is not. -/
theorem dueItems_eq_nil (h : st.due? reportEnd = none) : st.dueItems reportEnd = [] := by
  unfold dueItems
  rw [List.filter_eq_nil_iff]
  intro item hitem hdue
  rw [decide_eq_true_iff] at hdue
  cases htop : st.queue.top? with
  | none =>
    rw [PriorityQueue.top?_eq_none_iff.1 htop] at hitem
    cases hitem
  | some top =>
    have hle : top.checkTime ≤ reportEnd := (PriorityQueue.le_of_top? htop hitem).trans hdue
    rw [due?_eq_some_iff.2 ⟨htop, hle⟩] at h
    cases h

theorem checked_of_due?_eq_none (h : st.due? reportEnd = none) : Checked reportEnd st st where
  handled := by
    refine ⟨[], (List.append_nil _).symm, (List.append_nil _).symm, ?_⟩
    rw [dueItems_eq_nil h]
  queue := by
    refine ⟨[], (List.append_nil _).symm, by simp, ?_⟩
    rw [List.append_nil]
    have hall : st.laterItems reportEnd = st.queue.items := by
      unfold laterItems
      rw [List.filter_eq_self]
      intro item hitem
      rw [decide_eq_true_iff, ← not_le]
      intro hle
      have hmem : item ∈ st.dueItems reportEnd := List.mem_filter.2 ⟨hitem, by simpa using hle⟩
      rw [dueItems_eq_nil h] at hmem
      cases hmem
    rw [hall]

/-- A turn takes one item from the due ones. -/
theorem Turned.dueItems (ht : Turned reportEnd st st' item new) (hle : item.checkTime ≤ reportEnd) :
    (st.dueItems reportEnd).Perm (item :: st'.dueItems reportEnd) := by
  have hperm := ht.items.filter (fun item => decide (item.checkTime ≤ reportEnd))
  have hnew : new.filter (fun item => decide (item.checkTime ≤ reportEnd)) = [] := by
    rw [List.filter_eq_nil_iff]
    intro item' hitem'
    simpa using ht.later item' hitem'
  rw [List.filter_append, hnew, List.append_nil, List.filter_cons_of_pos (by simpa using hle)]
    at hperm
  exact hperm

theorem Turned.laterItems (ht : Turned reportEnd st st' item new)
    (hle : item.checkTime ≤ reportEnd) :
    (st'.laterItems reportEnd).Perm (st.laterItems reportEnd ++ new) := by
  have hperm := ht.items.filter (fun item => decide (reportEnd < item.checkTime))
  have hnew : new.filter (fun item => decide (reportEnd < item.checkTime)) = new := by
    rw [List.filter_eq_self]
    intro item' hitem'
    simpa using ht.later item' hitem'
  rw [List.filter_append, hnew, List.filter_cons_of_neg (by simpa using hle)] at hperm
  exact hperm.symm

theorem Turned.checked {st'' : RerunPhase n} (ht : Turned reportEnd st st' item new)
    (hle : item.checkTime ≤ reportEnd) (hc : Checked reportEnd st' st'') :
    Checked reportEnd st st'' where
  handled := by
    obtain ⟨handled, hhandled, hpopped, hperm⟩ := hc.handled
    refine ⟨item :: handled, ?_, ?_, ?_⟩
    · rw [hhandled, ht.handled, List.append_assoc, List.singleton_append]
    · rw [hpopped, ht.popped, List.append_assoc, List.singleton_append]
    · exact (hperm.cons item).trans (ht.dueItems hle).symm
  queue := by
    obtain ⟨pushed, hpushed, hlater, hperm⟩ := hc.queue
    refine ⟨new ++ pushed, ?_, List.forall_mem_append.2 ⟨ht.later, hlater⟩, ?_⟩
    · rw [hpushed, ht.pushed, List.append_assoc]
    · rw [← List.append_assoc]
      exact hperm.trans ((ht.laterItems hle).append_right pushed)

/-- With a turn for every due item the loop comes to its end, unless a call in it does not come
back. -/
theorem loop_spec (cfg : Config) (env : Env) (hclock : Monotone clock)
    (hr : Ready clock reportEnd st) {fuel : ℕ}
    (hfuel : (st.dueItems reportEnd).length ≤ fuel) :
    loop cfg env clock reportEnd fuel st = .raised ∨
      ∃ st', loop cfg env clock reportEnd fuel st = .ended st' ∧ Checked reportEnd st st' := by
  induction fuel generalizing st with
  | zero =>
    cases hdue : st.due? reportEnd with
    | none =>
      exact Or.inr ⟨st, loop_of_due?_eq_none hdue 0, checked_of_due?_eq_none hdue⟩
    | some item =>
      obtain ⟨htop, hle⟩ := due?_eq_some_iff.1 hdue
      have hmem : item ∈ st.dueItems reportEnd :=
        List.mem_filter.2 ⟨List.mem_of_getElem? htop, by simpa using hle⟩
      rw [List.length_eq_zero_iff.1 (Nat.le_zero.1 hfuel)] at hmem
      cases hmem
  | succ fuel ih =>
    cases hdue : st.due? reportEnd with
    | none =>
      exact Or.inr ⟨st, loop_of_due?_eq_none hdue (fuel + 1), checked_of_due?_eq_none hdue⟩
    | some item =>
      cases hturn : st.turn cfg env clock item with
      | none => exact Or.inl (loop_of_turn_eq_none hdue hturn fuel)
      | some mid =>
        obtain ⟨-, hle⟩ := due?_eq_some_iff.1 hdue
        obtain ⟨new, ht⟩ := turn_spec hclock hr hdue hturn
        have hlength : (mid.dueItems reportEnd).length ≤ fuel := by
          have heq := (ht.dueItems hle).length_eq
          rw [List.length_cons] at heq
          omega
        rw [loop_of_turn hdue hturn]
        rcases ih (hr.of_eq hclock ht.timeouts ht.readings) hlength with
          hraised | ⟨st', hended, hchecked⟩
        · exact Or.inl hraised
        · exact Or.inr ⟨st', hended, ht.checked hle hchecked⟩

end Check

/-! ### Calls that come back -/

/-- A cached call that can be forwarded, whatever its session. -/
def Forwardable (m : TriggerFunctionMetadata) : Prop := (Node.rerunCall "" "" m).Forwardable

/-- Nothing is forwarded, or all cached calls have key arguments that can be. -/
def Returning (cfg : Config) (s : Node n) : Prop :=
  cfg.schedDelayTime > 0 ∨ cfg.rejectExtraReq = true ∨ ∀ t ∈ s.triggers, t.Caches Forwardable

section Returning

variable {cfg : Config} {env : Env} {clock : ℕ → ℕ} {now : ℕ} {s s' : Node n}
  {keyLenMap : Dict Bytes ℕ} {c : ScheduledCall}

theorem exists_scheduleFuncCall (cfg : Config) (env : Env) (now : ℕ) (keyLenMap : Dict Bytes ℕ)
    (s : Node n) (h : cfg.schedDelayTime > 0 ∨ cfg.rejectExtraReq = true ∨ c.Forwardable) :
    ∃ s', s.scheduleFuncCall cfg env now keyLenMap c = some s' := by
  rcases h with hdelay | hreject | hforward
  · unfold Node.scheduleFuncCall
    split
    · exact ⟨_, rfl⟩
    · exact ⟨_, if_pos hdelay⟩
  · unfold Node.scheduleFuncCall
    split
    · exact ⟨_, rfl⟩
    · split_ifs
      · exact ⟨_, rfl⟩
      · exact ⟨_, rfl⟩
  · have hargs : c.argFlag > 0 → c.funcArgs ≠ [] := by
      intro hflag hnil
      obtain ⟨args, hflat, -⟩ := hforward hflag
      rw [hnil, Node.flattenArgs, if_pos hflag] at hflat
      cases hflat
    apply Option.isSome_iff_exists.1
    exact (Node.isSome_scheduleFuncCall_iff cfg env now keyLenMap s c hargs).2
      (Or.inr (Or.inr (Or.inr hforward)))

/-- A call adds itself to the caches. -/
theorem caches_scheduleFuncCall {P : TriggerFunctionMetadata → Prop}
    (hs : ∀ t ∈ s.triggers, t.Caches P) (hc : P ⟨c.origin, c.funcName, c.funcArgs, c.argFlag⟩)
    (h : s.scheduleFuncCall cfg env now keyLenMap c = some s') :
    ∀ t ∈ s'.triggers, t.Caches P := by
  unfold Node.scheduleFuncCall at h
  split at h
  · obtain rfl := Option.some.inj h
    unfold Node.dispatch Node.notifySources
    apply List.foldlRecOn (motive := fun s : Node n => ∀ t ∈ s.triggers, t.Caches P)
    · exact hs
    · intro s₁ hs₁ m _
      exact forall_mem_modify hs₁ (fun _ ht => ht.notifySourceFunc c.sessionId hc) m.1
  · split_ifs at h
    · obtain rfl := Option.some.inj h
      exact hs
    · obtain rfl := Option.some.inj h
      exact hs
    · obtain ⟨args, -, h⟩ := Option.bind_eq_some_iff.1 h
      obtain ⟨call, rfl, -⟩ := Node.forward_spec h
      exact hs

theorem exists_rerun (hs : Returning cfg s) (env : Env) (now : ℕ) (sessionId : String)
    {m : TriggerFunctionMetadata}
    (hm : cfg.schedDelayTime > 0 ∨ cfg.rejectExtraReq = true ∨ Forwardable m) :
    ∃ s', s.rerun cfg env now sessionId m = some s' ∧ Returning cfg s' := by
  let touched : Node n := { s with
    table := { s.table with funcAppMap := s.table.funcAppMap.touch m.funcName "" } }
  obtain ⟨s', hs'⟩ := exists_scheduleFuncCall
    (c := Node.rerunCall sessionId ((s.table.funcAppMap.get? m.funcName).getD "") m) cfg env now
    touched.table.keyLenMap touched hm
  refine ⟨s', hs', ?_⟩
  rcases hs with hdelay | hreject | hcached
  · exact Or.inl hdelay
  · exact Or.inr (Or.inl hreject)
  · rcases hm with hdelay | hreject | hforward
    · exact Or.inl hdelay
    · exact Or.inr (Or.inl hreject)
    · exact Or.inr (Or.inr (caches_scheduleFuncCall (s := touched) hcached hforward hs'))

theorem exists_exec {st : RerunPhase n} (hs : Returning cfg st.node) (env : Env) (clock : ℕ → ℕ)
    (sessionId : String) {metas : List TriggerFunctionMetadata}
    (hmetas : ∀ m ∈ metas,
      cfg.schedDelayTime > 0 ∨ cfg.rejectExtraReq = true ∨ Forwardable m) :
    ∃ st', Runs.exec (scheduleRerun cfg env clock sessionId) st metas = some st' ∧
      Returning cfg st'.node := by
  induction metas generalizing st with
  | nil => exact ⟨st, rfl, hs⟩
  | cons m metas ih =>
    rw [List.forall_mem_cons] at hmetas
    obtain ⟨node, hnode, hreturning⟩ :=
      exists_rerun hs env (clock st.readings) sessionId hmetas.1
    have hstep : ∃ mid, scheduleRerun cfg env clock sessionId st m = some mid ∧
        Returning cfg mid.node := ⟨_, by rw [scheduleRerun, hnode, Option.map_some], hreturning⟩
    obtain ⟨mid, hmid, hs'⟩ := hstep
    obtain ⟨st', hst', hs''⟩ := ih hs' hmetas.2
    exact ⟨st', by rw [Runs.exec, hmid, Option.bind_some, hst'], hs''⟩

theorem exists_turn {st : RerunPhase n} (hs : Returning cfg st.node) (env : Env) (clock : ℕ → ℕ)
    (item : RerunCheckQueueItem) :
    ∃ st', st.turn cfg env clock item = some st' ∧ Returning cfg st'.node := by
  have hmetas : ∀ m ∈ st.node.itemFuncs item,
      cfg.schedDelayTime > 0 ∨ cfg.rejectExtraReq = true ∨ Forwardable m := by
    intro m hm
    rcases hs with hdelay | hreject | hcached
    · exact Or.inl hdelay
    · exact Or.inr (Or.inl hreject)
    · refine Or.inr (Or.inr ?_)
      unfold Node.itemFuncs at hm
      split at hm
      · cases hm
      · next t ht => exact (hcached t (List.mem_of_getElem? ht)).actionForRerun hm
  obtain ⟨mid, hmid, hs'⟩ := exists_exec hs env clock item.session hmetas
  unfold turn
  rw [hmid]
  exact ⟨_, rfl, hs'⟩

theorem loop_ne_raised (st : RerunPhase n) (hs : Returning cfg st.node) (env : Env)
    (clock : ℕ → ℕ) (reportEnd fuel : ℕ) : loop cfg env clock reportEnd fuel st ≠ .raised := by
  induction fuel generalizing st with
  | zero =>
    unfold loop
    split_ifs
    · nofun
    · nofun
  | succ fuel ih =>
    cases hdue : st.due? reportEnd with
    | none =>
      rw [loop_of_due?_eq_none hdue]
      nofun
    | some item =>
      obtain ⟨mid, hmid, hs'⟩ := exists_turn hs env clock item
      rw [loop_of_turn hdue hmid]
      exact ih mid hs'

end Returning

/-! ### The whole loop -/

/-- **With timeouts of at least a millisecond and a clock that does not go back, the loop ends as
soon as it has made a turn for every item that was due, unless a call of `schedule_func_call` does
not come back; it has handled each of these items once, removed what it has handled, and left what
was pushed for a later phase.**  All calls come back if nothing is forwarded, or if all cached calls
can be. -/
theorem phase_spec (cfg : Config) (env : Env) {clock : ℕ → ℕ} (hclock : Monotone clock)
    (st : RerunPhase n) (hdelayed : Delayed st.node) {fuel : ℕ}
    (hfuel : (st.dueItems (clock st.readings)).length ≤ fuel) :
    (phase cfg env clock fuel st = .raised ∨
      ∃ st', phase cfg env clock fuel st = .ended st' ∧
        Checked (clock st.readings) st st') ∧
      (Returning cfg st.node → phase cfg env clock fuel st ≠ .raised) := by
  have hready : Ready clock (clock st.readings) { st with readings := st.readings + 1 } :=
    ⟨hdelayed, hclock (Nat.le_succ _)⟩
  constructor
  · rcases loop_spec cfg env hclock hready hfuel with hraised | ⟨st', hended, hchecked⟩
    · exact Or.inl hraised
    · exact Or.inr ⟨st', hended, hchecked.handled, hchecked.queue⟩
  · intro hreturning
    exact loop_ne_raised { st with readings := st.readings + 1 } hreturning env clock _ fuel

/-! ### The turns as events of the node

The node leaves it open which one of several items with the smallest time is on top, and reads the
clock once for a turn.  Where the clock stands still, its events include the turns of the loop. -/

/-- A node with items at the front of its list. -/
def withItems (l : List RerunCheckQueueItem) (s : Node n) : Node n :=
  { s with rerunCheckQueue := l ++ s.rerunCheckQueue }

section Events

variable {cfg : Config} {env : Env} {now : ℕ} {l : List RerunCheckQueueItem}

theorem notifySources_withItems (s : Node n) (c : ScheduledCall) :
    Node.notifySources now (withItems l s) c = withItems l (Node.notifySources now s c) := by
  unfold Node.notifySources
  show List.foldl _ (withItems l s) ((s.funcTriggerTimeoutMap.get? c.funcName).getD []) = _
  generalize (s.funcTriggerTimeoutMap.get? c.funcName).getD [] = metas
  induction metas generalizing s with
  | nil => rfl
  | cons m metas ih =>
    rw [List.foldl_cons, List.foldl_cons, ← ih]
    unfold withItems
    simp only [List.append_assoc]

theorem dispatch_withItems (s : Node n) (c : ScheduledCall) (e : Fin n) :
    (withItems l s).dispatch env now c e = withItems l (s.dispatch env now c e) := by
  symm
  unfold Node.dispatch
  exact (notifySources_withItems _ c).symm

/-- A call looks at no item. -/
theorem scheduleFuncCall_withItems (s : Node n) (keyLenMap : Dict Bytes ℕ) (c : ScheduledCall) :
    (withItems l s).scheduleFuncCall cfg env now keyLenMap c =
      (s.scheduleFuncCall cfg env now keyLenMap c).map (withItems l) := by
  have hforward : ∀ args, (withItems l s).forward cfg env keyLenMap c.origin c.sessionId c.appName
      [(c.funcName, args)] c.argFlag = (s.forward cfg env keyLenMap c.origin c.sessionId c.appName
        [(c.funcName, args)] c.argFlag).map (withItems l) := by
    intro args
    show Option.bind (forwardCallViaHelper (env.mem s.sent.length) keyLenMap cfg.ip
      env.dataServerAddr (s.clientAddr c.sessionId) c.sessionId c.appName [(c.funcName, args)]
        c.argFlag) _ = Option.map _ (Option.bind (forwardCallViaHelper (env.mem s.sent.length)
          keyLenMap cfg.ip env.dataServerAddr (s.clientAddr c.sessionId) c.sessionId c.appName
            [(c.funcName, args)] c.argFlag) _)
    cases forwardCallViaHelper (env.mem s.sent.length) keyLenMap cfg.ip env.dataServerAddr
      (s.clientAddr c.sessionId) c.sessionId c.appName [(c.funcName, args)] c.argFlag <;> rfl
  have hselect : selectExecutor cfg.sharedExecutor (withItems l s).status
      ((withItems l s).functionExecutorMap c.funcName) (env.rand (withItems l s).sent.length) =
        selectExecutor cfg.sharedExecutor s.status (s.functionExecutorMap c.funcName)
          (env.rand s.sent.length) := rfl
  unfold Node.scheduleFuncCall
  rw [hselect]
  cases selectExecutor cfg.sharedExecutor s.status (s.functionExecutorMap c.funcName)
    (env.rand s.sent.length) with
  | some e => exact congrArg some (dispatch_withItems s c e)
  | none =>
    dsimp only
    split_ifs
    · rfl
    · rfl
    · cases Node.flattenArgs c.argFlag c.funcArgs with
      | none => rfl
      | some args => exact hforward args

theorem rerun_withItems (sessionId : String) (s : Node n) (m : TriggerFunctionMetadata) :
    (withItems l s).rerun cfg env now sessionId m =
      (s.rerun cfg env now sessionId m).map (withItems l) :=
  scheduleFuncCall_withItems { s with
    table := { s.table with funcAppMap := s.table.funcAppMap.touch m.funcName "" } } _ _

/-- The calls of a turn, made by the node itself. -/
theorem exec_rerun {st st' : RerunPhase n} {sessionId : String}
    {metas : List TriggerFunctionMetadata}
    (h : Runs.exec (scheduleRerun cfg env (fun _ => now) sessionId) st metas = some st') :
    ∃ new, Runs.exec (Node.rerun cfg env now sessionId) st.node metas =
      some (withItems new st'.node) ∧ st'.pushed = st.pushed ++ new := by
  induction metas generalizing st with
  | nil =>
    obtain rfl := Option.some.inj h
    exact ⟨[], rfl, (List.append_nil _).symm⟩
  | cons m metas ih =>
    obtain ⟨mid, hmid, h⟩ := Option.bind_eq_some_iff.1 h
    obtain ⟨node, hnode, rfl⟩ := Option.map_eq_some_iff.1 hmid
    obtain ⟨new, hexec, hpushed⟩ := ih h
    refine ⟨node.rerunCheckQueue ++ new, ?_, ?_⟩
    · have hsplit : node =
          withItems node.rerunCheckQueue { node with rerunCheckQueue := [] } := by
        unfold withItems
        rw [List.append_nil]
      rw [Runs.exec, hnode, Option.bind_some, hsplit,
        Runs.exec_map (rerun_withItems sessionId), hexec]
      unfold withItems
      simp only [Option.map_some, List.append_assoc, List.append_nil]
    · rw [hpushed, List.append_assoc]

theorem perm_eraseIdx {items rest : List RerunCheckQueueItem} {item : RerunCheckQueueItem} {i : ℕ}
    (hi : items[i]? = some item) (h : items.Perm (item :: rest)) :
    (items.eraseIdx i).Perm rest := by
  obtain ⟨hlt, hget⟩ := List.getElem?_eq_some_iff.1 hi
  have herase := List.getElem_cons_eraseIdx_perm hlt
  rw [hget] at herase
  exact (herase.trans h).cons_inv

/-- A turn of the loop is a turn of the node, up to the order of its list. -/
theorem rerunCheck_of_turn {st st' : RerunPhase n} {item : RerunCheckQueueItem}
    (hdelayed : Delayed st.node) (hdue : st.due? now = some item)
    (h : st.turn cfg env (fun _ => now) item = some st') (hl : l.Perm st.queue.items) :
    ∃ i l', Node.rerunCheck cfg env now i i (withItems l st.node) = some (withItems l' st'.node) ∧
      l'.Perm st'.queue.items := by
  obtain ⟨htop, hle⟩ := due?_eq_some_iff.1 hdue
  obtain ⟨mid, hmid, rfl⟩ := Option.map_eq_some_iff.1 h
  obtain ⟨new, hgrows⟩ := grows_exec monotone_const ⟨hdelayed, le_rfl⟩ hmid
  obtain ⟨new', hexec, hpushed⟩ := exec_rerun hmid
  obtain rfl : new = new' := List.append_cancel_left (hgrows.pushed.symm.trans hpushed)
  obtain ⟨i, hi⟩ := List.mem_iff_getElem?.1 (hl.mem_iff.2 (List.mem_of_getElem? htop))
  have hlist : (withItems l st.node).rerunCheckQueue = l := by
    show l ++ st.node.rerunCheckQueue = l
    rw [st.moved, List.append_nil]
  have hlist' : (withItems l (withItems new mid.node)).rerunCheckQueue = l ++ new := by
    show l ++ (new ++ mid.node.rerunCheckQueue) = l ++ new
    rw [mid.moved, List.append_nil]
  have hleast : Node.IsTop l item := fun item' hitem' =>
    PriorityQueue.le_of_top? htop (hl.mem_iff.1 hitem')
  have hleast' : Node.IsTop (l ++ new) item := by
    intro item' hitem'
    rcases List.mem_append.1 hitem' with hold | hnew
    · exact hleast item' hold
    · exact hle.trans (hgrows.later item' hnew).le
  have hi' : (l ++ new)[i]? = some item := by
    rw [List.getElem?_append_left (List.getElem?_eq_some_iff.1 hi).1]
    exact hi
  have hfuncs : (withItems l st.node).rerunFuncs i = st.node.itemFuncs item := by
    unfold Node.rerunFuncs
    rw [hlist, hi]
    rfl
  refine ⟨i, (l ++ new).eraseIdx i, ?_, ?_⟩
  · have hrun : Runs.exec (Node.rerun cfg env now item.session) (withItems l st.node)
        (st.node.itemFuncs item) = some (withItems l (withItems new mid.node)) := by
      rw [Runs.exec_map (rerun_withItems item.session), hexec, Option.map_some]
    unfold Node.rerunCheck
    rw [hlist, hi, hfuncs]
    simp only [Option.bind_eq_bind, Option.bind_some, guard, if_pos (And.intro hleast hle), hrun,
      hlist', hi', if_pos hleast', Option.pure_def]
    unfold withItems
    simp only [mid.moved, List.append_nil]
  · -- both have lost the item
    exact perm_eraseIdx hi' ((hl.append_right new).trans (hgrows.perm_pop hdue))

/-- The whole loop is a run of the node. -/
theorem exists_rerunChecks {st st' : RerunPhase n} (hdelayed : Delayed st.node) {fuel : ℕ}
    (h : loop cfg env (fun _ => now) now fuel st = .ended st') (hl : l.Perm st.queue.items) :
    ∃ turns : List ℕ, ∃ l', Runs.exec (Node.step cfg env) (withItems l st.node)
        (turns.map fun i => .rerunCheck now i i) = some (withItems l' st'.node) ∧
      l'.Perm st'.queue.items := by
  induction fuel generalizing st l with
  | zero =>
    unfold loop at h
    split_ifs at h
    obtain rfl := Outcome.ended.inj h
    exact ⟨[], l, rfl, hl⟩
  | succ fuel ih =>
    cases hdue : st.due? now with
    | none =>
      rw [loop_of_due?_eq_none hdue] at h
      obtain rfl := Outcome.ended.inj h
      exact ⟨[], l, rfl, hl⟩
    | some item =>
      cases hturn : st.turn cfg env (fun _ => now) item with
      | none =>
        rw [loop_of_turn_eq_none hdue hturn] at h
        cases h
      | some mid =>
        rw [loop_of_turn hdue hturn] at h
        obtain ⟨new, ht⟩ := turn_spec monotone_const ⟨hdelayed, le_rfl⟩ hdue hturn
        have hdelayed' : Delayed mid.node := by
          unfold Delayed
          rw [ht.timeouts]
          exact hdelayed
        obtain ⟨i, l₁, hstep, hl₁⟩ := rerunCheck_of_turn hdelayed hdue hturn hl
        obtain ⟨turns, l', hexec, hl'⟩ := ih hdelayed' h hl₁
        refine ⟨i :: turns, l', ?_, hl'⟩
        rw [List.map_cons, Runs.exec]
        show (Node.rerunCheck cfg env now i i (withItems l st.node)).bind _ = _
        rw [hstep, Option.bind_some, hexec]

end Events

/-! ### A function with a hint -/

/-- A put of an object by name and size starts `reduce`, which is to be looked after a millisecond
later. -/
def hintedEvents (name : Bytes) : List (Node.Event 1) :=
  [.executorStatus ⟨0, Nat.one_pos⟩ .empty,
    .addTrigger ⟨"store", "t_reduce", .immediate, 0⟩ [⟨"reduce", "", 1⟩],
    .invoke 0 "session-7" "wordcount" "reduce" [name, ascii "5"] 1]

theorem delayed_of_push {s : Node n} (h : s.funcTriggerTimeoutMap =
    Dict.empty.push "reduce" (0, 1)) : Delayed s := by
  intro f metas hget m hm
  rw [h, Dict.get?_push] at hget
  split_ifs at hget
  · obtain rfl := Option.some.inj hget
    obtain rfl := List.mem_singleton.1 hm
    exact le_rfl
  · cases hget

/-- The executor is free again, and gets the call again. -/
theorem checked_hintedEvents :
    ∃ s st', Runs.exec (Node.step {} Node.selectionEnv) {}
        (hintedEvents (ascii "words|k") ++ [.executorStatus ⟨0, Nat.one_pos⟩ .available]) = some s ∧
      phase {} Node.selectionEnv (fun t => 2000 + t) 1 (ofNode s 0) = .ended st' ∧
        Checked 2000 (ofNode s 0) st' := by
  have hrun : ((Runs.exec (Node.step {} Node.selectionEnv) ({} : Node 1)
      (hintedEvents (ascii "words|k") ++ [.executorStatus ⟨0, Nat.one_pos⟩ .available])).map
        fun s => (s.funcTriggerTimeoutMap, ((ofNode s 0).dueItems 2000).length,
          (phase {} Node.selectionEnv (fun t => 2000 + t) 1 (ofNode s 0)).isRaised)) =
      some (Dict.empty.push "reduce" (0, 1), 1, false) := by decide +kernel
  obtain ⟨s, hs, hdata⟩ := Option.map_eq_some_iff.1 hrun
  obtain ⟨htimeouts, hdata⟩ := Prod.mk.inj hdata
  obtain ⟨hdue, hraised⟩ := Prod.mk.inj hdata
  have hdelayed : Delayed (ofNode s 0).node := delayed_of_push htimeouts
  have hclock : Monotone fun t : ℕ => 2000 + t := fun _ _ h => Nat.add_le_add_left h 2000
  rcases (phase_spec {} Node.selectionEnv hclock (ofNode s 0) hdelayed hdue.le).1 with
    hbad | ⟨st', hended, hchecked⟩
  · rw [hbad] at hraised
    cases hraised
  · exact ⟨s, st', hs, hended, hchecked⟩

/-- The object has an empty key.  While the executor is busy the call is forwarded, with two
arguments of which the third one is read. -/
theorem not_checked_hintedEvents :
    ¬ ∀ (events : List (Node.Event 1)) (s : Node 1) (clock : ℕ → ℕ) (fuel : ℕ),
      Runs.exec (Node.step {} Node.selectionEnv) {} events = some s → Monotone clock →
        Delayed s → ((ofNode s 0).dueItems (clock 0)).length ≤ fuel →
          ∃ st', phase {} Node.selectionEnv clock fuel (ofNode s 0) = .ended st' ∧
            Checked (clock 0) (ofNode s 0) st' := by
  intro h
  have hrun : ((Runs.exec (Node.step {} Node.selectionEnv) ({} : Node 1)
      (hintedEvents (ascii "words|"))).map fun s =>
        (s.funcTriggerTimeoutMap, ((ofNode s 0).dueItems 2000).length,
          (phase {} Node.selectionEnv (fun t => 2000 + t) 1 (ofNode s 0)).isRaised)) =
      some (Dict.empty.push "reduce" (0, 1), 1, true) := by decide +kernel
  obtain ⟨s, hs, hdata⟩ := Option.map_eq_some_iff.1 hrun
  obtain ⟨htimeouts, hdata⟩ := Prod.mk.inj hdata
  obtain ⟨hdue, hraised⟩ := Prod.mk.inj hdata
  have hclock : Monotone fun t : ℕ => 2000 + t := fun _ _ h => Nat.add_le_add_left h 2000
  obtain ⟨st', hended, -⟩ := h _ s _ 1 hs hclock (delayed_of_push htimeouts) hdue.le
  rw [hended] at hraised
  cases hraised

end RerunPhase

end Demeter.Scheduler
