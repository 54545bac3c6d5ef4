import Demeter.Scheduler.KeyArguments

/-!
# Executor selection

What one call of `schedule_func_call` does, whatever the executors are doing.

* `EligibleFor` says which executors may take a call of a function;
* `SentTo` is the state after the call was sent to an executor, `SetAside` the state after no
  executor was found;
* `scheduleFuncCall_cases` says that there is no other outcome, `selects_iff` when the call has one.
-/

namespace Demeter.Scheduler

open Demeter.Coordinator (FunctionCall)
open Demeter.Executor (encodeCall)

variable {n : ℕ}

/-! ### Warm executors are preferred -/

section Scan

variable (sharedExecutor : Bool) (status : Fin n → ExecutorStatus)

/-- The scan stops at a warm executor if there is one. -/
theorem scanExecutors_fst_ne_none {warm : Finset (Fin n)} {es : List (Fin n)} {e : Fin n}
    (he : e ∈ es) (havail : status e = .available) (hwarm : e ∈ warm) :
    (scanExecutors sharedExecutor status warm es).1 ≠ none := by
  induction es with
  | nil => cases he
  | cons e' es ih =>
    unfold scanExecutors
    split_ifs with hstop hcold
    · exact Option.some_ne_none e'
    all_goals
      refine ih ((List.mem_cons.1 he).resolve_left ?_)
      rintro rfl
      exact hstop ⟨havail, hwarm⟩

/-- If some executor is available and warm, then so is the chosen one. -/
theorem warm_selectExecutor {warm : Finset (Fin n)} {rand : ℕ} {e w : Fin n}
    (h : selectExecutor sharedExecutor status warm rand = some e) (havail : status w = .available)
    (hwarm : w ∈ warm) : status e = .available ∧ e ∈ warm := by
  obtain ⟨e', he'⟩ := Option.ne_none_iff_exists'.1
    (scanExecutors_fst_ne_none sharedExecutor status (List.mem_finRange w) havail hwarm)
  rw [selectExecutor, he'] at h
  obtain rfl : e' = e := Option.some.inj h
  exact (scanExecutors_spec sharedExecutor status warm (List.finRange n)).1 e' he'

end Scan

namespace Node

/-! ### Outcomes -/

/-- The executor may take a call of the function: it is available and has run the function, or it
is empty, or it is available and executors are shared. -/
def EligibleFor (cfg : Config) (s : Node n) (funcName : String) (e : Fin n) : Prop :=
  (s.status e = .available ∧ e ∈ s.functionExecutorMap funcName) ∨ s.status e = .empty ∨
    (s.status e = .available ∧ cfg.sharedExecutor = true)

/-- The call was sent to this executor and to no other one. -/
structure SentTo (env : Env) (s : Node n) (c : ScheduledCall) (e : Fin n) (s' : Node n) : Prop where
  sent : s'.sent = s.sent ++ [⟨c.origin, .executor e (encodeCall env.toStringDouble
    (s.clientAddr c.sessionId) c.cpuCores c.memoryMb (utf8 c.sessionId) (utf8 c.funcName)
    c.funcArgs c.argFlag)⟩]
  status : s'.status e = .await
  changed : ∀ e', s'.status e' ≠ s.status e' ↔ e' = e
  assigned : ∀ f e', e' ∈ s'.functionExecutorMap f ↔
    e' ∈ s.functionExecutorMap f ∨ (f = c.funcName ∧ e' = e)
  delayCallQueue : s'.delayCallQueue = s.delayCallQueue

/-- The call was sent to no executor: it is queued, or rejected, or forwarded, once. -/
structure SetAside (cfg : Config) (now : ℕ) (s : Node n) (c : ScheduledCall) (s' : Node n) :
    Prop where
  status : s'.status = s.status
  functionExecutorMap : s'.functionExecutorMap = s.functionExecutorMap
  queued : cfg.schedDelayTime > 0 →
    s'.delayCallQueue = s.delayCallQueue ++ [⟨c, now⟩] ∧ s'.sent = s.sent
  rejected : cfg.schedDelayTime = 0 → cfg.rejectExtraReq = true →
    s'.delayCallQueue = s.delayCallQueue ∧ s'.sent = s.sent
  forwarded : cfg.schedDelayTime = 0 → cfg.rejectExtraReq = false →
    s'.delayCallQueue = s.delayCallQueue ∧ ∃ call : FunctionCall,
      s'.sent = s.sent ++ [⟨c.origin, .coordinator call⟩] ∧ call.appName = c.appName ∧
        call.sessionId = c.sessionId ∧ call.requests.map (·.name) = [c.funcName]

section Outcomes

variable {cfg : Config} {env : Env} {now : ℕ} {keyLenMap : Dict Bytes ℕ} {s s' : Node n}
  {c : ScheduledCall}

/-- Telling the triggers changes nothing else. -/
theorem notifySources_eq (now : ℕ) (s : Node n) (c : ScheduledCall) :
    (notifySources now s c).status = s.status ∧
      (notifySources now s c).functionExecutorMap = s.functionExecutorMap ∧
      (notifySources now s c).sent = s.sent ∧
      (notifySources now s c).delayCallQueue = s.delayCallQueue := by
  unfold notifySources
  generalize (s.funcTriggerTimeoutMap.get? c.funcName).getD [] = metas
  induction metas generalizing s with
  | nil => exact ⟨rfl, rfl, rfl, rfl⟩
  | cons m metas ih =>
    rw [List.foldl_cons]
    exact ih _

theorem sentTo_dispatch {e : Fin n} (he : s.status e ≠ .await) :
    SentTo env s c e (s.dispatch env now c e) := by
  obtain ⟨hstatus, hmap, hsent, hqueue⟩ := notifySources_eq now
    { s with
      functionExecutorMap := Function.update s.functionExecutorMap c.funcName
        (insert e (s.functionExecutorMap c.funcName))
      status := Function.update s.status e .await
      sent := s.sent ++ [⟨c.origin, .executor e (encodeCall env.toStringDouble
        (s.clientAddr c.sessionId) c.cpuCores c.memoryMb (utf8 c.sessionId) (utf8 c.funcName)
        c.funcArgs c.argFlag)⟩] } c
  have hstatus' : ∀ e', (s.dispatch env now c e).status e' =
      Function.update s.status e .await e' := congrFun hstatus
  have hmap' : ∀ f, (s.dispatch env now c e).functionExecutorMap f =
      Function.update s.functionExecutorMap c.funcName
        (insert e (s.functionExecutorMap c.funcName)) f := congrFun hmap
  refine ⟨hsent, ?_, fun e' => ?_, fun f e' => ?_, hqueue⟩
  · rw [hstatus', Function.update_self]
  · rw [hstatus']
    by_cases hee : e' = e
    · subst hee
      simpa using Ne.symm he
    · simp [hee]
  · rw [hmap']
    by_cases hf : f = c.funcName
    · subst hf
      simp [or_comm]
    · simp [hf]

theorem eligibleFor_selectExecutor {f : String} {rand : ℕ} {e : Fin n}
    (h : selectExecutor cfg.sharedExecutor s.status (s.functionExecutorMap f) rand = some e) :
    EligibleFor cfg s f e := by
  rcases selectExecutor_spec cfg.sharedExecutor s.status h with
    hempty | ⟨havail, hshared | hwarm⟩
  · exact .inr (.inl hempty)
  · exact .inr (.inr ⟨havail, hshared⟩)
  · exact .inl ⟨havail, hwarm⟩

theorem selectExecutor_eq_none_iff (cfg : Config) (s : Node n) (f : String) (rand : ℕ) :
    selectExecutor cfg.sharedExecutor s.status (s.functionExecutorMap f) rand = none ↔
      ∀ e, ¬ EligibleFor cfg s f e := by
  constructor
  · intro hnone e he
    refine selectExecutor_ne_none cfg.sharedExecutor s.status (e := e) ?_ rand hnone
    rcases he with ⟨havail, hwarm⟩ | hempty | ⟨havail, hshared⟩
    · exact .inr ⟨havail, .inr hwarm⟩
    · exact .inl hempty
    · exact .inr ⟨havail, .inl hshared⟩
  · intro hall
    by_contra hne
    obtain ⟨e, he⟩ := Option.ne_none_iff_exists'.1 hne
    exact hall e (eligibleFor_selectExecutor he)

theorem EligibleFor.eligible {f : String} {e : Fin n} (h : EligibleFor cfg s f e) :
    (s.status e).Eligible := by
  rcases h with ⟨havail, -⟩ | hempty | ⟨havail, -⟩
  · exact .inr havail
  · exact .inl hempty
  · exact .inr havail

/-- A call is sent to an eligible executor, to a warm one if possible, or set aside because no
executor is eligible. -/
theorem scheduleFuncCall_cases (h : s.scheduleFuncCall cfg env now keyLenMap c = some s') :
    (∃ e, EligibleFor cfg s c.funcName e ∧ SentTo env s c e s' ∧
      ∀ w, s.status w = .available → w ∈ s.functionExecutorMap c.funcName →
        s.status e = .available ∧ e ∈ s.functionExecutorMap c.funcName) ∨
    ((∀ e, ¬ EligibleFor cfg s c.funcName e) ∧ SetAside cfg now s c s') := by
  rw [scheduleFuncCall] at h
  split at h
  · next e he =>
    obtain rfl := Option.some.inj h
    have helig := eligibleFor_selectExecutor he
    -- so the dispatch changes the status
    have hne : s.status e ≠ .await := by
      intro hawait
      have := helig.eligible
      rw [hawait] at this
      exact absurd this (by decide)
    exact .inl ⟨e, helig, sentTo_dispatch hne, fun w havail hwarm =>
      warm_selectExecutor cfg.sharedExecutor s.status he havail hwarm⟩
  · next hnone =>
    refine .inr ⟨(selectExecutor_eq_none_iff cfg s c.funcName _).1 hnone, ?_⟩
    split_ifs at h with hdelay hreject
    · obtain rfl := Option.some.inj h
      exact ⟨rfl, rfl, fun _ => ⟨rfl, rfl⟩, fun hzero => absurd hzero hdelay.ne',
        fun hzero => absurd hzero hdelay.ne'⟩
    · obtain rfl := Option.some.inj h
      exact ⟨rfl, rfl, fun hpos => absurd hpos hdelay, fun _ _ => ⟨rfl, rfl⟩,
        fun _ hno => absurd hreject (by simp [hno])⟩
    · obtain ⟨args, hargs, h⟩ := Option.bind_eq_some_iff.1 h
      obtain ⟨call, hcall, h⟩ := Option.bind_eq_some_iff.1 h
      obtain rfl := Option.some.inj h
      refine ⟨rfl, rfl, fun hpos => absurd hpos hdelay, fun _ hyes => absurd hyes hreject,
        fun _ _ => ⟨rfl, call, rfl, ?_⟩⟩
      exact forwardCallViaHelper_spec hcall

/-! ### The selection -/

/-- The call is sent to exactly one executor if and only if some executor is eligible; that
executor is eligible, and warm if a warm one is available; without an eligible executor the call is
set aside. -/
def Selects (cfg : Config) (env : Env) (now : ℕ) (keyLenMap : Dict Bytes ℕ) (s : Node n)
    (c : ScheduledCall) : Prop :=
  ∃ s', s.scheduleFuncCall cfg env now keyLenMap c = some s' ∧
    ((∃! e, SentTo env s c e s') ↔ ∃ e, EligibleFor cfg s c.funcName e) ∧
    (∀ e, SentTo env s c e s' → EligibleFor cfg s c.funcName e ∧
      ∀ w, s.status w = .available → w ∈ s.functionExecutorMap c.funcName →
        s.status e = .available ∧ e ∈ s.functionExecutorMap c.funcName) ∧
    ((∀ e, ¬ EligibleFor cfg s c.funcName e) → SetAside cfg now s c s')

theorem SentTo.eq {e e' : Fin n} (h : SentTo env s c e s') (h' : SentTo env s c e' s') : e = e' :=
  (h'.changed e).1 ((h.changed e).2 rfl)

theorem SetAside.not_sentTo (h : SetAside cfg now s c s') (e : Fin n) : ¬ SentTo env s c e s' :=
  fun hsent => (hsent.changed e).2 rfl (congrFun h.status e)

theorem exists_flattenArgs {argFlag : ℕ} {args : List Bytes} (h : argFlag > 0 → args ≠ []) :
    ∃ flat, flattenArgs argFlag args = some flat ∧ (argFlag = 0 → flat = args) := by
  unfold flattenArgs
  split_ifs with hflag
  · cases args with
    | nil => exact absurd rfl (h hflag)
    | cons a args =>
      dsimp only
      split_ifs
      · exact ⟨_, rfl, fun hzero => absurd hzero hflag.ne'⟩
      · exact ⟨_, rfl, fun _ => rfl⟩
  · exact ⟨args, rfl, fun _ => rfl⟩

/-- `schedule_func_call` comes back unless it forwards key arguments that cannot be read. -/
theorem isSome_scheduleFuncCall_iff (cfg : Config) (env : Env) (now : ℕ) (keyLenMap : Dict Bytes ℕ)
    (s : Node n) (c : ScheduledCall) (hargs : c.argFlag > 0 → c.funcArgs ≠ []) :
    (s.scheduleFuncCall cfg env now keyLenMap c).isSome ↔
      (∃ e, EligibleFor cfg s c.funcName e) ∨ cfg.schedDelayTime > 0 ∨ cfg.rejectExtraReq = true ∨
        c.Forwardable := by
  have hnone := selectExecutor_eq_none_iff cfg s c.funcName (env.rand s.sent.length)
  obtain ⟨flat, hflat, -⟩ := exists_flattenArgs hargs
  rw [scheduleFuncCall]
  split
  · next e he =>
    rw [he] at hnone
    have hex : ∃ e, EligibleFor cfg s c.funcName e := by
      by_contra hno
      exact Option.some_ne_none e (hnone.2 (not_exists.1 hno))
    simp [hex]
  · next he =>
    have hno := not_exists.2 (hnone.1 he)
    split_ifs with hdelay hreject
    · simp [hdelay]
    · simp [hreject]
    · have hiff := isSome_forwardCallViaHelper_iff (env.mem s.sent.length) keyLenMap cfg.ip
        env.dataServerAddr (s.clientAddr c.sessionId) c.sessionId c.appName [(c.funcName, flat)]
        c.argFlag
      rw [List.forall_mem_singleton] at hiff
      have hsome : (s.forward cfg env keyLenMap c.origin c.sessionId c.appName
          [(c.funcName, flat)] c.argFlag).isSome ↔ (c.argFlag > 0 → InThrees flat) := by
        rw [← hiff, forward]
        cases forwardCallViaHelper (env.mem s.sent.length) keyLenMap cfg.ip env.dataServerAddr
          (s.clientAddr c.sessionId) c.sessionId c.appName [(c.funcName, flat)] c.argFlag <;> simp
      simp only [hflat, Option.bind_eq_bind, Option.bind_some, hsome, hno, hdelay, hreject,
        false_or, ScheduledCall.Forwardable, Option.some.injEq, exists_eq_left', Bool.false_eq_true]

end Outcomes

/-- **Executor selection.**  A call of `schedule_func_call` does what it should if and only if some
executor is eligible, or calls are delayed or rejected, or the key arguments that are then
forwarded come in threes, with sizes that are numbers. -/
theorem selects_iff (cfg : Config) (env : Env) (now : ℕ) (keyLenMap : Dict Bytes ℕ) (s : Node n)
    (c : ScheduledCall) (hargs : c.argFlag > 0 → c.funcArgs ≠ []) :
    Selects cfg env now keyLenMap s c ↔
      (∃ e, EligibleFor cfg s c.funcName e) ∨ cfg.schedDelayTime > 0 ∨ cfg.rejectExtraReq = true ∨
        c.Forwardable := by
  rw [← isSome_scheduleFuncCall_iff cfg env now keyLenMap s c hargs, Option.isSome_iff_exists]
  constructor
  · rintro ⟨s', h, -⟩
    exact ⟨s', h⟩
  · rintro ⟨s', h⟩
    refine ⟨s', h, ?_⟩
    obtain ⟨e, helig, hsent, hwarm⟩ | ⟨hno, haside⟩ := scheduleFuncCall_cases h
    · refine ⟨iff_of_true ⟨e, hsent, fun e' h' => h'.eq hsent⟩ ⟨e, helig⟩, fun e' h' => ?_,
        fun hno => absurd helig (hno e)⟩
      obtain rfl := h'.eq hsent
      exact ⟨helig, hwarm⟩
    · refine ⟨iff_of_false ?_ (not_exists.2 hno), fun e h' => absurd h' (haside.not_sentTo e),
        fun _ => haside⟩
      rintro ⟨e, h', -⟩
      exact haside.not_sentTo e h'

/-! ### A small node -/

/-- Two executors, the second one with no function yet. -/
def selectionNode : Node 2 where
  status := ![.busy, .empty]

/-- No executor is free. -/
def busyNode : Node 2 where
  status := ![.busy, .busy]

/-- An environment without objects. -/
def selectionEnv : Env where
  toStringDouble := fun _ => ascii "0.000000"
  dataServerAddr := fun _ => ""
  rand := id
  mem := fun _ _ => []
  lookups := fun _ => []

/-- A call with one object, given as name and size. -/
def selectionCall (name : Bytes) : ScheduledCall where
  origin := none
  sessionId := "session-7"
  appName := "wordcount"
  funcName := "map"
  funcArgs := [name, ascii "5"]
  argFlag := 1

theorem selects_selectionNode :
    Selects {} selectionEnv 0 Dict.empty selectionNode (selectionCall (ascii "bucket|key")) :=
  (selects_iff {} selectionEnv 0 Dict.empty selectionNode (selectionCall (ascii "bucket|key"))
    (fun _ => List.cons_ne_nil _ _)).2 (.inl ⟨1, .inr (.inl rfl)⟩)

/-- A name without delimiter is not split, and the call is not forwarded: its third argument is
read, but there is none. -/
theorem not_selects_selectionCall :
    ((selectionCall (ascii "key")).argFlag > 0 → (selectionCall (ascii "key")).funcArgs ≠ []) ∧
      ¬ Selects {} selectionEnv 0 Dict.empty busyNode (selectionCall (ascii "key")) := by
  have hargs : (selectionCall (ascii "key")).argFlag > 0 →
      (selectionCall (ascii "key")).funcArgs ≠ [] := fun _ => List.cons_ne_nil _ _
  refine ⟨hargs, ?_⟩
  rintro ⟨s', h, -⟩
  have hsome := (isSome_scheduleFuncCall_iff {} selectionEnv 0 Dict.empty busyNode
    (selectionCall (ascii "key")) hargs).1 (Option.isSome_iff_exists.2 ⟨s', h⟩)
  rcases hsome with ⟨e, he⟩ | hdelay | hreject | hforward
  · have helig := he.eligible
    revert helig
    fin_cases e <;> decide
  · exact absurd hdelay (by decide)
  · exact absurd hreject (by decide)
  · obtain ⟨args, hargs', hthrees⟩ := hforward (by decide)
    have hflat : flattenArgs (selectionCall (ascii "key")).argFlag
        (selectionCall (ascii "key")).funcArgs = some [ascii "key", ascii "5"] := by decide +kernel
    obtain rfl := Option.some.inj (hflat.symm.trans hargs')
    exact hthrees

end Node

end Demeter.Scheduler
