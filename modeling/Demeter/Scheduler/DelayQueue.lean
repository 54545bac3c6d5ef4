import Demeter.Scheduler.Selection

/-!
# The delay queue

The delay-forwarding phase of `run` in `src/scheduler/scheduler_server.cpp`, in any run of the loop
of the scheduler.  All times are whole microseconds, as the source compares them.

* `delayTurn` is one turn of the first loop of the phase; it reads the clock for itself
  (`exec_delayTurn` is the connection with `delayDispatch`, where all turns read the same time);
* `loopStep` is what the queue sees of the loop: calls of `schedule_func_call`, the phase, and
  anything else, which leaves the queue alone (`exists_loopInputs` finds every event of the node
  among these steps);
* `firstQueued` records when the calls of the queue were queued first: the source forgets this when
  it queues a call again;
* `Conserves` says what becomes of the calls that the phase takes from the queue;
* `boundedWaiting_run` is the result about every run that queues no call again.
-/

namespace Demeter.Scheduler

open Demeter.Coordinator (Address FunctionCall)
open Demeter.Executor (encodeCall)

variable {n : ℕ}

namespace Node

/-! ### The loop -/

section Loop

variable (cfg : Config) (env : Env)

/-- The call at the front is scheduled and popped; a call that is queued again keeps the time when
it was queued first. -/
def delayTurn (acc : Node n × List ℕ) (now : ℕ) : Option (Node n × List ℕ) :=
  match acc.1.delayCallQueue with
  | [] => some acc
  | d :: _ => do
      let s' ← acc.1.scheduleFuncCall cfg env now acc.1.table.keyLenMap d.call
      let again := s'.delayCallQueue.length - acc.1.delayCallQueue.length
      return ({ s' with delayCallQueue := s'.delayCallQueue.tail },
        acc.2.tail ++ List.replicate again (acc.2.headD now))

/-- The node, when the calls of its queue were queued first, and the last reading of the clock. -/
structure LoopState (n : ℕ) where
  node : Node n := {}
  firstQueued : List ℕ := []
  clock : ℕ := 0

/-- `delayPhase` has the readings of the clock in the turns of the first loop, and `cur_stamp`. -/
inductive LoopInput (n : ℕ) where
  | schedule (now : ℕ) (keyLenMap : Dict Bytes ℕ) (call : ScheduledCall)
  | other (f : Node n → Node n)
  | delayPhase (nows : List ℕ) (curStamp : ℕ)

/-- A call is scheduled, something else happens, or the delay phase runs. -/
def loopStep (s : LoopState n) : LoopInput n → Option (LoopState n)
  | .schedule now keyLenMap call => do
      guard (s.clock ≤ now)
      let node ← s.node.scheduleFuncCall cfg env now keyLenMap call
      let queued := node.delayCallQueue.length - s.node.delayCallQueue.length
      return { node, firstQueued := s.firstQueued ++ List.replicate queued now, clock := now }
  | .other f => some { s with node := { f s.node with delayCallQueue := s.node.delayCallQueue } }
  | .delayPhase nows curStamp => do
      guard ((s.clock :: (nows ++ [curStamp])).Pairwise (· ≤ ·) ∧
        nows.length = s.node.getAvailExecutorNum)
      let acc ← Runs.exec (delayTurn cfg env) (s.node, s.firstQueued) nows
      let node ← acc.1.delayForward cfg env curStamp acc.1.delayCallQueue
      let popped := acc.1.delayCallQueue.length - node.delayCallQueue.length
      return { node, firstQueued := acc.2.drop popped, clock := curStamp }

/-- In the first loop of the phase, some executor is eligible for every call that is scheduled. -/
def Served (s : LoopState n) : LoopInput n → Prop
  | .delayPhase nows _ =>
      Runs.Allowed (delayTurn cfg env) (fun acc _ => ∀ d ∈ acc.1.delayCallQueue.head?,
        ∃ e, EligibleFor cfg acc.1 d.call.funcName e) (s.node, s.firstQueued) nows
  | _ => True

end Loop

/-! ### What becomes of the calls -/

/-- What becomes of a call when it is taken from the queue. -/
inductive Fate (n : ℕ) where
  | dispatched (e : Fin n) (msg : Bytes)
  | requeued (now : ℕ)
  | forwarded (call : FunctionCall)
  | rejected

/-- A call that was popped, and what became of it. -/
structure Popped (n : ℕ) where
  call : DelayFunctionCall
  fate : Fate n

namespace Popped

/-- The message that was sent for the call. -/
def sent (p : Popped n) : Option (Sent n) :=
  match p.fate with
  | .dispatched e msg => some ⟨p.call.call.origin, .executor e msg⟩
  | .forwarded call => some ⟨p.call.call.origin, .coordinator call⟩
  | _ => none

/-- The call that was put back to the queue. -/
def requeued (p : Popped n) : Option DelayFunctionCall :=
  match p.fate with
  | .requeued now => some ⟨p.call.call, now⟩
  | _ => none

/-- Messages are for the call, and only the configuration rejects calls. -/
def Proper (cfg : Config) (env : Env) (p : Popped n) : Prop :=
  match p.fate with
  | .dispatched _ msg => ∃ clientAddr, msg = encodeCall env.toStringDouble clientAddr
      p.call.call.cpuCores p.call.call.memoryMb (utf8 p.call.call.sessionId)
      (utf8 p.call.call.funcName) p.call.call.funcArgs p.call.call.argFlag
  | .requeued _ => True
  | .forwarded call => cfg.rejectExtraReq = false ∧ call.appName = p.call.call.appName ∧
      call.sessionId = p.call.call.sessionId ∧ call.requests.map (·.name) = [p.call.call.funcName]
  | .rejected => cfg.rejectExtraReq = true

end Popped

/-- Calls are popped in the order of the queue; each of them is dispatched, forwarded, put back
once or rejected, and nothing else is sent. -/
def Conserves (cfg : Config) (env : Env) (s s' : Node n) : Prop :=
  ∃ popped : List (Popped n), (∀ p ∈ popped, p.Proper cfg env) ∧
    s.delayCallQueue ++ popped.filterMap Popped.requeued =
      popped.map Popped.call ++ s'.delayCallQueue ∧
    s'.sent = s.sent ++ popped.filterMap Popped.sent

/-- After the phase every waiting call was first queued at most `sched_delay_time` before
`curStamp`; no call was lost or duplicated; the queue is in the order of queueing. -/
structure BoundedWaiting (cfg : Config) (env : Env) (curStamp : ℕ) (s s' : LoopState n) : Prop where
  bounded : ∀ t ∈ s'.firstQueued, curStamp ≤ t + cfg.schedDelayTime
  conserves : Conserves cfg env s.node s'.node
  ordered : s'.firstQueued.Pairwise (· ≤ ·)
  length : s'.firstQueued.length = s'.node.delayCallQueue.length

section Conservation

variable {cfg : Config} {env : Env} {s s' s'' : Node n}

theorem Conserves.refl (s : Node n) : Conserves cfg env s s :=
  ⟨[], by simp, by simp, by simp⟩

theorem Conserves.trans (h : Conserves cfg env s s') (h' : Conserves cfg env s' s'') :
    Conserves cfg env s s'' := by
  obtain ⟨popped, hproper, hqueue, hsent⟩ := h
  obtain ⟨popped', hproper', hqueue', hsent'⟩ := h'
  refine ⟨popped ++ popped', List.forall_mem_append.2 ⟨hproper, hproper'⟩, ?_, ?_⟩
  · rw [List.filterMap_append, ← List.append_assoc, hqueue, List.append_assoc, hqueue',
      List.map_append, List.append_assoc]
  · rw [hsent', hsent, List.filterMap_append, List.append_assoc]

/-- One call was popped. -/
theorem conserves_singleton {p : Popped n} (hp : p.Proper cfg env)
    (hqueue : s.delayCallQueue ++ p.requeued.toList = p.call :: s'.delayCallQueue)
    (hsent : s'.sent = s.sent ++ p.sent.toList) : Conserves cfg env s s' := by
  refine ⟨[p], by simpa using hp, ?_, ?_⟩
  · rw [List.map_singleton, List.singleton_append, ← hqueue, List.filterMap_cons,
      List.filterMap_nil]
    cases p.requeued <;> rfl
  · rw [hsent, List.filterMap_cons, List.filterMap_nil]
    cases p.sent <;> rfl

end Conservation

/-! ### The first loop -/

section Turns

variable {cfg : Config} {env : Env} {now : ℕ} {acc acc' : Node n × List ℕ}

/-- A turn dispatches the call at the front if some executor is eligible, and otherwise puts it
back. -/
theorem delayTurn_cases (hdelay : 0 < cfg.schedDelayTime)
    (h : delayTurn cfg env acc now = some acc') :
    (acc.1.delayCallQueue = [] ∧ acc' = acc) ∨
    ∃ d ds, acc.1.delayCallQueue = d :: ds ∧
      ((∃ e, EligibleFor cfg acc.1 d.call.funcName e ∧ SentTo env acc.1 d.call e
          { acc'.1 with delayCallQueue := d :: ds } ∧
          acc'.1.delayCallQueue = ds ∧ acc'.2 = acc.2.tail) ∨
        ((∀ e, ¬ EligibleFor cfg acc.1 d.call.funcName e) ∧ acc'.1.status = acc.1.status ∧
          acc'.1.sent = acc.1.sent ∧ acc'.1.delayCallQueue = ds ++ [⟨d.call, now⟩])) := by
  rw [delayTurn] at h
  split at h
  · next hnil => exact .inl ⟨hnil, (Option.some.inj h).symm⟩
  · next d ds hqueue =>
    refine .inr ⟨d, ds, hqueue, ?_⟩
    obtain ⟨s', hs', h⟩ := Option.bind_eq_some_iff.1 h
    obtain rfl := Option.some.inj h
    obtain ⟨e, helig, hsent, -⟩ | ⟨hno, haside⟩ := scheduleFuncCall_cases hs'
    · have hsame := hsent.delayCallQueue
      rw [hqueue] at hsame
      refine .inl ⟨e, helig, ?_, ?_, ?_⟩
      · exact ⟨hsent.sent, hsent.status, hsent.changed, hsent.assigned, hqueue.symm⟩
      · simp only [hsame, List.tail_cons]
      · simp only [hsame, hqueue, Nat.sub_self, List.replicate_zero, List.append_nil]
    · obtain ⟨hqueued, hsent⟩ := haside.queued hdelay
      refine .inr ⟨hno, haside.status, hsent, ?_⟩
      simp only [hqueued, hqueue, List.cons_append, List.tail_cons]

theorem conserves_delayTurn (hdelay : 0 < cfg.schedDelayTime)
    (h : delayTurn cfg env acc now = some acc') : Conserves cfg env acc.1 acc'.1 := by
  obtain ⟨-, rfl⟩ | ⟨d, ds, hqueue, ⟨e, -, hsent, hqueue', -⟩ | ⟨-, -, hsent, hqueue'⟩⟩ :=
    delayTurn_cases hdelay h
  · exact .refl _
  · exact conserves_singleton (p := ⟨d, .dispatched e _⟩) ⟨_, rfl⟩
      (by rw [hqueue, hqueue']; exact List.append_nil _) hsent.sent
  · exact conserves_singleton (p := ⟨d, .requeued now⟩) trivial
      (by rw [hqueue, hqueue']; rfl) (by rw [hsent]; exact (List.append_nil _).symm)

theorem conserves_exec_delayTurn (hdelay : 0 < cfg.schedDelayTime) {nows : List ℕ}
    (h : Runs.exec (delayTurn cfg env) acc nows = some acc') : Conserves cfg env acc.1 acc'.1 := by
  refine Runs.exec_invariant (P := fun x => Conserves cfg env acc.1 x.1) ?_
    (Runs.allowed_true acc nows) h (.refl acc.1)
  exact fun x now x' _ hx hacc => hacc.trans (conserves_delayTurn hdelay hx)

/-- A call for which some executor is eligible is not put back. -/
def ServesFront (cfg : Config) (acc : Node n × List ℕ) (_ : ℕ) : Prop :=
  ∀ d ∈ acc.1.delayCallQueue.head?, ∃ e, EligibleFor cfg acc.1 d.call.funcName e

/-- The recorded times are those of the queue, which is the rest of `queue`. -/
structure RestOf (queue : List DelayFunctionCall) (acc : Node n × List ℕ) : Prop where
  suffix : acc.1.delayCallQueue <:+ queue
  firstQueued : acc.2 = acc.1.delayCallQueue.map DelayFunctionCall.triggerTime

theorem RestOf.delayTurn {queue : List DelayFunctionCall} (hr : RestOf queue acc)
    (hdelay : 0 < cfg.schedDelayTime) (hserves : ServesFront cfg acc now)
    (h : delayTurn cfg env acc now = some acc') : RestOf queue acc' := by
  obtain ⟨-, rfl⟩ | ⟨d, ds, hqueue, ⟨e, -, -, hqueue', htimes⟩ | ⟨hno, -⟩⟩ :=
    delayTurn_cases hdelay h
  · exact hr
  · refine ⟨?_, ?_⟩
    · rw [hqueue']
      exact (List.suffix_cons d ds).trans (hqueue ▸ hr.suffix)
    · rw [htimes, hr.firstQueued, hqueue, hqueue', List.map_cons, List.tail_cons]
  · obtain ⟨e, he⟩ := hserves d (by rw [hqueue]; rfl)
    exact absurd he (hno e)

theorem RestOf.exec_delayTurn {queue : List DelayFunctionCall} {nows : List ℕ}
    (hr : RestOf queue acc) (hdelay : 0 < cfg.schedDelayTime)
    (hserves : Runs.Allowed (Node.delayTurn cfg env) (ServesFront cfg) acc nows)
    (h : Runs.exec (Node.delayTurn cfg env) acc nows = some acc') : RestOf queue acc' :=
  Runs.exec_invariant (P := RestOf queue) (fun _ _ _ hs hx hr => hr.delayTurn hdelay hs hx)
    hserves h hr

/-- Sending a call takes one executor away. -/
theorem SentTo.getAvailExecutorNum_le {s s' : Node n} {c : ScheduledCall} {e : Fin n}
    (h : SentTo env s c e s') : s.getAvailExecutorNum ≤ s'.getAvailExecutorNum + 1 := by
  have hsub : ((List.finRange n).filter fun e => (s.status e).Eligible) ⊆
      e :: (List.finRange n).filter fun e => (s'.status e).Eligible := by
    intro e' he'
    by_cases hee : e' = e
    · exact hee ▸ List.mem_cons_self
    · have hsame : s'.status e' = s.status e' := not_not.1 fun hne => hee ((h.changed e').1 hne)
      refine List.mem_cons_of_mem e ?_
      simpa [hsame] using he'
  have hnodup : ((List.finRange n).filter fun e => (s.status e).Eligible).Nodup :=
    (List.nodup_finRange n).filter _
  exact (hnodup.subperm hsub).length_le

/-- Shared executors are eligible for every function, so as many calls as there are available
executors can be served. -/
theorem served_of_sharedExecutor (hdelay : 0 < cfg.schedDelayTime)
    (hshared : cfg.sharedExecutor = true) {nows : List ℕ}
    (hle : nows.length ≤ acc.1.getAvailExecutorNum) :
    Runs.Allowed (Node.delayTurn cfg env) (ServesFront cfg) acc nows := by
  induction nows generalizing acc with
  | nil => trivial
  | cons now nows ih =>
    rw [List.length_cons] at hle
    have hserves : ServesFront cfg acc now := by
      intro d _
      obtain ⟨e, he⟩ := List.exists_mem_of_length_pos (Nat.lt_of_lt_of_le (Nat.succ_pos _) hle)
      refine ⟨e, ?_⟩
      rcases of_decide_eq_true (List.mem_filter.1 he).2 with hempty | havail
      · exact .inr (.inl hempty)
      · exact .inr (.inr ⟨havail, hshared⟩)
    refine ⟨hserves, fun acc' h => ih ?_⟩
    obtain ⟨-, rfl⟩ | ⟨d, ds, hqueue, ⟨e, -, hsent, -⟩ | ⟨hno, -⟩⟩ := delayTurn_cases hdelay h
    · omega
    · have hcount := hsent.getAvailExecutorNum_le
      have hsame : getAvailExecutorNum { acc'.1 with delayCallQueue := d :: ds } =
          acc'.1.getAvailExecutorNum := rfl
      omega
    · obtain ⟨e, he⟩ := hserves d (by rw [hqueue]; rfl)
      exact absurd he (hno e)

end Turns

/-! ### The second loop -/

section Forward

variable {cfg : Config} {env : Env}

theorem forward_spec {keyLenMap : Dict Bytes ℕ} {s s' : Node n} {origin : Option ℕ}
    {sessionId appName : String} {funcs : List (String × List Bytes)} {argFlag : ℕ}
    (h : s.forward cfg env keyLenMap origin sessionId appName funcs argFlag = some s') :
    ∃ call : FunctionCall, s' = { s with sent := s.sent ++ [⟨origin, .coordinator call⟩] } ∧
      call.appName = appName ∧ call.sessionId = sessionId ∧
        call.requests.map (·.name) = funcs.map Prod.fst := by
  obtain ⟨call, hcall, h⟩ := Option.bind_eq_some_iff.1 h
  exact ⟨call, (Option.some.inj h).symm, forwardCallViaHelper_spec hcall⟩

/-- The calls that have waited too long are taken from the front, and the first call that has not
stays at the front. -/
theorem delayForward_spec {now : ℕ} {ds : List DelayFunctionCall} {s s' : Node n}
    (h : s.delayForward cfg env now ds = some s') :
    Conserves cfg env { s with delayCallQueue := ds } s' ∧ s'.delayCallQueue <:+ ds ∧
      ∀ d ∈ s'.delayCallQueue.head?, now ≤ d.triggerTime + cfg.schedDelayTime := by
  induction ds generalizing s with
  | nil =>
    obtain rfl := Option.some.inj h
    exact ⟨.refl _, List.suffix_rfl, by simp⟩
  | cons d ds ih =>
    rw [delayForward] at h
    split_ifs at h with hlate hreject
    · -- the call has waited too long and is dropped
      obtain ⟨hconserves, hsuffix, hhead⟩ := ih (s := s) h
      have hpop : Conserves cfg env { s with delayCallQueue := d :: ds }
          { s with delayCallQueue := ds } :=
        conserves_singleton (p := ⟨d, .rejected⟩) hreject (List.append_nil _)
          (List.append_nil _).symm
      exact ⟨hpop.trans hconserves, hsuffix.trans (List.suffix_cons d ds), hhead⟩
    · obtain ⟨s₁, hs₁, h⟩ := Option.bind_eq_some_iff.1 h
      obtain ⟨call, rfl, happ, hsession, hnames⟩ := forward_spec hs₁
      obtain ⟨hconserves, hsuffix, hhead⟩ := ih h
      have hpop : Conserves cfg env { s with delayCallQueue := d :: ds }
          { s with
            delayCallQueue := ds
            sent := s.sent ++ [⟨d.call.origin, .coordinator call⟩] } :=
        conserves_singleton (p := ⟨d, .forwarded call⟩)
          ⟨Bool.eq_false_iff.2 hreject, happ, hsession, hnames⟩ (List.append_nil _) rfl
      exact ⟨hpop.trans hconserves, hsuffix.trans (List.suffix_cons d ds), hhead⟩
    · obtain rfl := Option.some.inj h
      refine ⟨.refl _, List.suffix_rfl, fun d' hd' => ?_⟩
      obtain rfl : d = d' := Option.some.inj hd'
      omega

end Forward

/-! ### The events of the node -/

section Events

variable {cfg : Config} {env : Env}

/-- In `delayDispatch` all turns read the same time. -/
theorem exec_delayTurn (now k : ℕ) (s : Node n) (times : List ℕ) :
    (Runs.exec (delayTurn cfg env) (s, times) (List.replicate k now)).map Prod.fst =
      s.delayDispatch cfg env now k := by
  induction k generalizing s times with
  | zero => rfl
  | succ k ih =>
    rw [List.replicate_succ, Runs.exec, delayTurn, delayDispatch]
    cases hqueue : s.delayCallQueue with
    | nil =>
      rw [Option.bind_some, ih]
      cases k <;> simp [delayDispatch, hqueue]
    | cons d ds =>
      simp only [Option.bind_eq_bind, Option.bind_assoc, Option.map_bind, Function.comp_def]
      refine congrArg _ (funext fun s' => ?_)
      rw [Option.pure_def, Option.bind_some, ih]

/-- The two loops of the phase, one after the other. -/
theorem exists_delayPhase {s s₁ s' : Node n} {now curStamp : ℕ}
    (h₁ : s.step cfg env (.delayDispatch now) = some s₁)
    (h : s₁.step cfg env (.delayForward curStamp) = some s') {t : LoopState n} (ht : t.node = s)
    (hclock : t.clock ≤ now) (hstamp : now ≤ curStamp) :
    ∃ t', loopStep cfg env t
        (.delayPhase (List.replicate s.getAvailExecutorNum now) curStamp) = some t' ∧
      t'.node = s' := by
  subst ht
  obtain ⟨acc, hacc, rfl⟩ := Option.map_eq_some_iff.1
    ((exec_delayTurn now t.node.getAvailExecutorNum t.node t.firstQueued).trans h₁)
  refine ⟨_, Option.bind_eq_some_iff.2 ⟨(), (Option.guard_eq_some' _).2 ⟨?_, by simp⟩,
    Option.bind_eq_some_iff.2 ⟨acc, hacc, Option.bind_eq_some_iff.2 ⟨s', h, rfl⟩⟩⟩, rfl⟩
  rw [List.pairwise_cons, List.pairwise_append]
  refine ⟨fun x hx => ?_, List.pairwise_replicate_of_refl, List.pairwise_singleton _ _,
    fun x hx y hy => ?_⟩
  · rcases List.mem_append.1 hx with hx | hx
    · rw [List.eq_of_mem_replicate hx]
      exact hclock
    · rw [List.mem_singleton.1 hx]
      exact hclock.trans hstamp
  · rw [List.eq_of_mem_replicate hx, List.mem_singleton.1 hy]
    exact hstamp

/-- The loop can go from one node to the other without reading a later time than `now`. -/
def Covers (cfg : Config) (env : Env) (now : ℕ) (s s' : Node n) : Prop :=
  ∀ t : LoopState n, t.node = s → t.clock ≤ now → ∃ inputs t',
    Runs.exec (loopStep cfg env) t inputs = some t' ∧ t'.node = s' ∧ t'.clock ≤ now

variable {now : ℕ} {s s' s'' : Node n}

theorem Covers.trans (h : Covers cfg env now s s') (h' : Covers cfg env now s' s'') :
    Covers cfg env now s s'' := by
  intro t ht hclock
  obtain ⟨inputs, t', hexec, ht', hclock'⟩ := h t ht hclock
  obtain ⟨inputs', t'', hexec', ht'', hclock''⟩ := h' t' ht' hclock'
  exact ⟨inputs ++ inputs', t'', by rw [Runs.exec_append, hexec, Option.bind_some, hexec'], ht'',
    hclock''⟩

theorem covers_of_eq (h : s'.delayCallQueue = s.delayCallQueue) : Covers cfg env now s s' := by
  rintro t rfl hclock
  refine ⟨[.other fun _ => s'], { t with node := s' }, ?_, rfl, hclock⟩
  rw [Runs.exec, loopStep, ← h]
  rfl

theorem covers_scheduleFuncCall {keyLenMap : Dict Bytes ℕ} {c : ScheduledCall}
    (h : s.scheduleFuncCall cfg env now keyLenMap c = some s') : Covers cfg env now s s' := by
  rintro t rfl hclock
  have hstep : loopStep cfg env t (.schedule now keyLenMap c) = some ⟨s', t.firstQueued ++
      List.replicate (s'.delayCallQueue.length - t.node.delayCallQueue.length) now, now⟩ :=
    Option.bind_eq_some_iff.2 ⟨(), (Option.guard_eq_some' _).2 hclock,
      Option.bind_eq_some_iff.2 ⟨s', h, rfl⟩⟩
  exact ⟨[.schedule now keyLenMap c], _, by rw [Runs.exec, hstep]; rfl, rfl, le_rfl⟩

theorem covers_exec {α : Type*} {step : Node n → α → Option (Node n)}
    (hstep : ∀ s a s', step s a = some s' → Covers cfg env now s s') {l : List α}
    (h : Runs.exec step s l = some s') : Covers cfg env now s s' :=
  Runs.exec_invariant (P := Covers cfg env now s)
    (fun _ _ _ _ hs hcovers => hcovers.trans (hstep _ _ _ hs)) (Runs.allowed_true s l) h
    (covers_of_eq rfl)

/-- The time that an event reads. -/
def Event.time : Event n → Option ℕ
  | .message now _ | .invoke now .. | .rerunCheck now .. => some now
  | .delayDispatch now | .delayForward now => some now
  | _ => none

/-- Every event of the node but the phase is made of calls of `schedule_func_call` and of steps that
leave the queue alone. -/
theorem covers_step {event : Event n} (h : s.step cfg env event = some s')
    (hdispatch : ∀ now, event ≠ .delayDispatch now) (hforward : ∀ now, event ≠ .delayForward now)
    (htime : ∀ time ∈ event.time, time = now) : Covers cfg env now s s' := by
  cases event with
  | message time event =>
    obtain rfl := htime time rfl
    have hreceived : Covers cfg env time s (s.received env event) := covers_of_eq rfl
    exact hreceived.trans (covers_exec (fun _ _ _ hs => covers_scheduleFuncCall hs) h)
  | invoke time sessionId appName funcName funcArgs argFlag =>
    obtain rfl := htime time rfl
    exact covers_scheduleFuncCall h
  | forwardBatch sessionId appName funcs argFlag =>
    rw [step] at h
    split_ifs at h
    · obtain rfl := Option.some.inj h
      exact covers_of_eq rfl
    · obtain ⟨call, -, h⟩ := Option.bind_eq_some_iff.1 h
      obtain rfl := Option.some.inj h
      exact covers_of_eq rfl
  | executorStatus e status => exact covers_of_eq (by rw [← Option.some.inj h])
  | addTrigger trigger hints =>
    obtain rfl := Option.some.inj h
    exact covers_of_eq rfl
  | newObject trigger sessionId key => exact covers_of_eq (by rw [← Option.some.inj h])
  | clear trigger sessionId => exact covers_of_eq (by rw [← Option.some.inj h])
  | delayDispatch time => exact absurd rfl (hdispatch time)
  | delayForward time => exact absurd rfl (hforward time)
  | rerunCheck time i j =>
    obtain rfl := htime time rfl
    obtain ⟨item, -, h⟩ := Option.bind_eq_some_iff.1 h
    obtain ⟨_, -, h⟩ := Option.bind_eq_some_iff.1 h
    obtain ⟨s₁, hexec, h⟩ := Option.bind_eq_some_iff.1 h
    obtain ⟨popped, -, h⟩ := Option.bind_eq_some_iff.1 h
    obtain ⟨_, -, h⟩ := Option.bind_eq_some_iff.1 h
    obtain rfl := Option.some.inj h
    refine (covers_exec (fun s m s' hs => ?_) hexec).trans (covers_of_eq rfl)
    -- a rerun call touches the table before it is scheduled
    have htouched : Covers cfg env time s { s with
        table := { s.table with funcAppMap := s.table.funcAppMap.touch m.funcName "" } } :=
      covers_of_eq rfl
    exact htouched.trans (covers_scheduleFuncCall hs)

end Events

/-! ### Runs -/

/-- The queue is in the order of queueing, and the recorded times are those of its entries. -/
structure Ordered (s : LoopState n) : Prop where
  firstQueued : s.firstQueued = s.node.delayCallQueue.map DelayFunctionCall.triggerTime
  pairwise : (s.node.delayCallQueue.map DelayFunctionCall.triggerTime).Pairwise (· ≤ ·)
  le_clock : ∀ d ∈ s.node.delayCallQueue, d.triggerTime ≤ s.clock

section Runs

variable {cfg : Config} {env : Env} {s s' : LoopState n}

theorem ordered_init : Ordered ({} : LoopState n) := ⟨rfl, List.Pairwise.nil, by simp⟩

/-- Only a call that is set aside changes the queue. -/
theorem delayCallQueue_scheduleFuncCall (hdelay : 0 < cfg.schedDelayTime) {now : ℕ}
    {keyLenMap : Dict Bytes ℕ} {node node' : Node n} {c : ScheduledCall}
    (h : node.scheduleFuncCall cfg env now keyLenMap c = some node') :
    node'.delayCallQueue = node.delayCallQueue ∨
      node'.delayCallQueue = node.delayCallQueue ++ [⟨c, now⟩] := by
  obtain ⟨e, -, hsent, -⟩ | ⟨-, haside⟩ := scheduleFuncCall_cases h
  · exact .inl hsent.delayCallQueue
  · exact .inr (haside.queued hdelay).1

/-- Scheduling a call later keeps the order. -/
theorem Ordered.schedule (hs : Ordered s) (hdelay : 0 < cfg.schedDelayTime) {now : ℕ}
    {keyLenMap : Dict Bytes ℕ} {c : ScheduledCall}
    (h : loopStep cfg env s (.schedule now keyLenMap c) = some s') : Ordered s' := by
  obtain ⟨_, hguard, h⟩ := Option.bind_eq_some_iff.1 h
  have hclock : s.clock ≤ now := (Option.guard_eq_some' _).1 hguard
  obtain ⟨node, hnode, h⟩ := Option.bind_eq_some_iff.1 h
  obtain rfl := Option.some.inj h
  have hle : ∀ d ∈ s.node.delayCallQueue, d.triggerTime ≤ now := fun d hd =>
    (hs.le_clock d hd).trans hclock
  rcases delayCallQueue_scheduleFuncCall hdelay hnode with hsame | hqueued
  · refine ⟨?_, by simpa only [hsame] using hs.pairwise, by simpa only [hsame] using hle⟩
    simp only [hsame, Nat.sub_self, List.replicate_zero, List.append_nil, hs.firstQueued]
  · have hlen : node.delayCallQueue.length - s.node.delayCallQueue.length = 1 := by
      rw [hqueued, List.length_append, List.length_singleton, Nat.add_sub_cancel_left]
    refine ⟨?_, ?_, ?_⟩
    · simp only [hlen, hs.firstQueued]
      rw [hqueued, List.map_append]
      rfl
    · simp only [hqueued, List.map_append, List.map_singleton, List.pairwise_append]
      refine ⟨hs.pairwise, List.pairwise_singleton _ _, fun t ht t' ht' => ?_⟩
      obtain ⟨d, hd, rfl⟩ := List.mem_map.1 ht
      obtain rfl := List.mem_singleton.1 ht'
      exact hle d hd
    · simp only [hqueued, List.forall_mem_append, List.forall_mem_singleton]
      exact ⟨hle, le_rfl⟩

/-- The phase leaves the rest of the queue, from the first call on that has not waited too long. -/
theorem Ordered.delayPhase (hs : Ordered s) (hdelay : 0 < cfg.schedDelayTime) {nows : List ℕ}
    {curStamp : ℕ}
    (hserved : cfg.sharedExecutor = true ∨ Served cfg env s (.delayPhase nows curStamp))
    (h : loopStep cfg env s (.delayPhase nows curStamp) = some s') :
    Ordered s' ∧ BoundedWaiting cfg env curStamp s s' := by
  obtain ⟨_, hguard, h⟩ := Option.bind_eq_some_iff.1 h
  obtain ⟨hclock, hlen⟩ := (Option.guard_eq_some' _).1 hguard
  obtain ⟨acc, hacc, h⟩ := Option.bind_eq_some_iff.1 h
  obtain ⟨node, hnode, h⟩ := Option.bind_eq_some_iff.1 h
  obtain rfl := Option.some.inj h
  have hserves : Runs.Allowed (Node.delayTurn cfg env) (ServesFront cfg) (s.node, s.firstQueued)
      nows := by
    rcases hserved with hshared | hserved
    · exact served_of_sharedExecutor hdelay hshared hlen.le
    · exact hserved
  -- the turns and the forwarding both leave a suffix of the queue
  have hrest : RestOf s.node.delayCallQueue acc :=
    RestOf.exec_delayTurn ⟨List.suffix_rfl, hs.firstQueued⟩ hdelay hserves hacc
  obtain ⟨hconserves, hsuffix, hhead⟩ := delayForward_spec hnode
  have hsub := hsuffix.trans hrest.suffix
  have hpairwise : (node.delayCallQueue.map DelayFunctionCall.triggerTime).Pairwise (· ≤ ·) :=
    hs.pairwise.sublist (hsub.sublist.map _)
  have hfirst : acc.2.drop (acc.1.delayCallQueue.length - node.delayCallQueue.length) =
      node.delayCallQueue.map DelayFunctionCall.triggerTime := by
    rw [hrest.firstQueued, ← List.map_drop, ← List.suffix_iff_eq_drop.1 hsuffix]
  have hle : s.clock ≤ curStamp := (List.pairwise_cons.1 hclock).1 curStamp (by simp)
  refine ⟨⟨hfirst, hpairwise, fun d hd => (hs.le_clock d (hsub.subset hd)).trans hle⟩,
    ⟨?_, (conserves_exec_delayTurn hdelay hacc).trans hconserves, hfirst ▸ hpairwise, ?_⟩⟩
  · -- the first call of the rest is the oldest
    rw [hfirst]
    intro t ht
    cases hqueue : node.delayCallQueue with
    | nil =>
      rw [hqueue] at ht
      cases ht
    | cons d ds =>
      have hd := hhead d (by rw [hqueue]; rfl)
      rw [hqueue, List.map_cons] at ht hpairwise
      rcases List.mem_cons.1 ht with rfl | ht
      · exact hd
      · exact hd.trans (Nat.add_le_add_right ((List.pairwise_cons.1 hpairwise).1 t ht) _)
  · rw [hfirst, List.length_map]

theorem Ordered.loopStep (hs : Ordered s) (hdelay : 0 < cfg.schedDelayTime) {input : LoopInput n}
    (hserved : cfg.sharedExecutor = true ∨ Served cfg env s input)
    (h : Node.loopStep cfg env s input = some s') : Ordered s' := by
  cases input with
  | schedule now keyLenMap c => exact hs.schedule hdelay h
  | other f =>
    obtain rfl := Option.some.inj h
    exact ⟨hs.firstQueued, hs.pairwise, hs.le_clock⟩
  | delayPhase nows curStamp => exact (hs.delayPhase hdelay hserved h).1

end Runs

/-- Calls wait for 10 microseconds. -/
def waitingConfig : Config where
  schedDelayTime := 10

/-- A call without arguments. -/
def waitingCall (funcName : String) : ScheduledCall where
  origin := none
  sessionId := "session-7"
  appName := "wordcount"
  funcName := funcName
  funcArgs := []
  argFlag := 0

/-- The executor has run another function and becomes available; then a call is queued, and put
back by a phase. -/
def requeueingRun : List (LoopInput 1) :=
  [.other fun s => { s with status := fun _ => .empty },
    .schedule 0 Dict.empty (waitingCall "map"),
    .other fun s => { s with status := fun _ => .busy },
    .other fun s => { s with status := fun _ => .available },
    .schedule 0 Dict.empty (waitingCall "reduce"), .delayPhase [8] 8]

end Node

end Demeter.Scheduler
