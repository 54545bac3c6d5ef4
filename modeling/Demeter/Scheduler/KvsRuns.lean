import Demeter.Scheduler.KvsSteps

/-!
# Runs of the client of the key-value store

What becomes of puts and gets, whatever the routing tier and the workers answer, and in whatever
order.

* `PutsKept` is the invariant about puts: every put waits or was answered, and it is in more than
  one place only if a worker has refused it as the wrong thread; `puts_answered` says so of runs;
* `gets_answered` says that a get waits until there is a response other than a timeout;
* `sent_told` and `quiet_of_refused` are about the addresses that requests are sent to.
-/

namespace Demeter.Scheduler.Kvs

variable {σ : Type} (rand : σ → σ × ℕ) (routingThreads : List String) (timeout : ℕ)

/-! ### Gets -/

theorem getRequestId_maps (c : Client σ) : SameMaps c (getRequestId c).1 := ⟨rfl, rfl, rfl, rfl⟩

theorem getAsync_cases (now : ℕ) (c : Client σ) (key : String) :
    key ∈ c.pendingGetResponse.keys ∧ getAsync rand routingThreads now c key = c ∨
      ∃ request, request.type = .get ∧ request.key = key ∧
        getAsync rand routingThreads now c key =
          tryRequest rand routingThreads now (getRequestId c).1 request := by
  unfold getAsync
  split_ifs with hpending
  · exact .inl ⟨hpending, rfl⟩
  · exact .inr ⟨_, rfl, rfl, rfl⟩

theorem WellKeyed.getAsync {c : Client σ} (hwell : WellKeyed c) (now : ℕ) (key : String) :
    WellKeyed (getAsync rand routingThreads now c key) := by
  obtain ⟨-, h⟩ | ⟨request, -, -, h⟩ := getAsync_cases rand routingThreads now c key
  · rwa [h]
  · rw [h]
    exact (hwell.of_maps (getRequestId_maps c)).tryRequest rand routingThreads now request

theorem getAsync_advances (now : ℕ) (c : Client σ) (key : String) :
    Advances c (getAsync rand routingThreads now c key) := by
  obtain ⟨-, h⟩ | ⟨request, -, -, h⟩ := getAsync_cases rand routingThreads now c key
  · rw [h]
    exact .refl c
  · rw [h]
    exact (getRequestId_advances c).trans (tryRequest_advances rand routingThreads now _ request)

/-- A get leaves puts where they are. -/
theorem place_getAsync (now : ℕ) (c : Client σ) (k key : String) (id : ℕ) :
    queued (getAsync rand routingThreads now c k) key id = queued c key id ∧
      awaited (getAsync rand routingThreads now c k) key id = awaited c key id := by
  obtain ⟨-, h⟩ | ⟨request, hget, -, h⟩ := getAsync_cases rand routingThreads now c k
  · rw [h]
    exact ⟨rfl, rfl⟩
  · have hnot : ¬ (request.key = key ∧ IsPut id request) := by simp [IsPut, hget]
    exact place_tryRequest_of_not rand routingThreads (c := (getRequestId c).1) h.symm hnot

/-! ### The responses of one call -/

/-- What the scheduler does with a response, to the client. -/
theorem handleKvsResponse_fst (now : ℕ) (s : Client σ × List RecvMsg) (response : KeyResponse) :
    (handleKvsResponse rand routingThreads now s response).1 =
      if response.error = .timeout ∧ response.type = .get then
        getAsync rand routingThreads now s.1 response.key else s.1 := by
  unfold handleKvsResponse
  cases htype : response.type with
  | get =>
    by_cases herror : response.error = .timeout
    · simp [herror]
    · by_cases hkey : response.tupleError = .keyDne <;> simp [herror, hkey]
  | put => by_cases herror : response.error = .timeout <;> simp [herror]

/-- What gets keep, the scheduler keeps. -/
theorem responses_invariant {P : Client σ → Prop} {now : ℕ}
    (hP : ∀ c key, P c → P (getAsync rand routingThreads now c key)) (responses : List KeyResponse)
    {s : Client σ × List RecvMsg} (h : P s.1) :
    P (responses.foldl (handleKvsResponse rand routingThreads now) s).1 := by
  induction responses generalizing s with
  | nil => exact h
  | cons response responses ih =>
    refine ih ?_
    rw [handleKvsResponse_fst]
    split_ifs
    · exact hP _ _ h
    · exact h

/-- The parts of a poll. -/
theorem getKvsResponses_eq {now : ℕ} {s s' : State σ} {addresses : Option KeyAddressResponse}
    {response : Option KeyResponse}
    (h : getKvsResponses rand routingThreads timeout now s addresses response = some s') :
    ∃ c₁ c rs, addresses.elim (some s.client) (handleAddress rand routingThreads now s.client) =
        some c₁ ∧
      receiveAsync rand routingThreads timeout now s.client addresses response = some (c, rs) ∧
      s'.client = (rs.foldl (handleKvsResponse rand routingThreads now) (c, [])).1 ∧
      s'.puts = s.puts ∧ s'.answers = s.answers ++ rs ∧
      s'.refused = s.refused ++ response.elim [] (refusedPut c₁) ∧
      (s'.told = s.told ++ addresses.elim [] fun a => a.ips.map (a.key, ·)) ∧
      s'.msgs = s.msgs ++ (rs.foldl (handleKvsResponse rand routingThreads now) (c, [])).2 := by
  obtain ⟨c₁, hc₁, h⟩ := Option.bind_eq_some_iff.1 h
  obtain ⟨⟨c, rs⟩, hc, h⟩ := Option.bind_eq_some_iff.1 h
  obtain rfl := Option.some.inj h
  exact ⟨c₁, c, rs, hc₁, hc, rfl, rfl, rfl, rfl, rfl, rfl⟩

/-- The messages for the scheduler: every response to a get that succeeded is passed on. -/
theorem mem_msgs_responses {now : ℕ} {rs : List KeyResponse} {s : Client σ × List RecvMsg}
    {r : KeyResponse} (hr : r ∈ rs) (hget : r.type = .get) (herror : r.error ≠ .timeout)
    (hkey : r.tupleError ≠ .keyDne) :
    .kvsGetResp r.key r.payload ∈ (rs.foldl (handleKvsResponse rand routingThreads now) s).2 := by
  have hmono : ∀ (rs : List KeyResponse) (s : Client σ × List RecvMsg),
      s.2 ⊆ (rs.foldl (handleKvsResponse rand routingThreads now) s).2 := by
    intro rs
    induction rs with
    | nil => exact fun s => List.Subset.refl _
    | cons r' rs ih =>
      intro s
      refine List.Subset.trans ?_ (ih _)
      rw [handleKvsResponse]
      cases r'.type <;> split_ifs <;> simp
  induction rs generalizing s with
  | nil => cases hr
  | cons r' rs ih =>
    obtain rfl | hr := List.mem_cons.1 hr
    · refine hmono rs _ ?_
      simp [handleKvsResponse, hget, herror, hkey]
    · exact ih hr

/-! ### Puts -/

/-- In how many places a put is: it waits for addresses or a response, or it was answered. -/
def place (s : State σ) (key : String) (id : ℕ) : ℕ :=
  queued s.client key id + awaited s.client key id + answered s.answers key id

/-- No put is lost, and one is in a further place only after it was refused. -/
structure PutsKept (s : State σ) : Prop where
  well : WellKeyed s.client
  rid : s.client.rid = 2 * s.client.requestIds % 2 ^ 32
  fresh : ∀ key id, 2 * s.client.requestIds ≤ id →
    place s key id = 0 ∧ s.puts.count (key, id) = 0
  once : ∀ key id, s.puts.count (key, id) ≤ 1
  kept : ∀ key id, s.puts.count (key, id) ≤ place s key id
  copies : ∀ key id, place s key id ≤ s.puts.count (key, id) + s.refused.count (key, id)

/-- A put with a new id is in one place. -/
theorem place_putAsync {s : State σ} (hs : PutsKept s) (hids : s.client.requestIds < 2 ^ 31)
    (now : ℕ) (key : String) (payload : List UInt8) (k : String) (i : ℕ) :
    queued (putAsync rand routingThreads now s.client key payload).1 k i +
        awaited (putAsync rand routingThreads now s.client key payload).1 k i =
      queued s.client k i + awaited s.client k i +
        [(key, 2 * s.client.requestIds + 1)].count (k, i) := by
  have hid : (getRequestId s.client).2 = 2 * s.client.requestIds + 1 := by
    refine (getRequestId_eq hs.rid).1.trans ?_
    omega
  obtain ⟨request, hrequest⟩ : ∃ request : KeyRequest, request =
    { requestId := (getRequestId s.client).2, type := .put, key := key, payload := payload } :=
    ⟨_, rfl⟩
  have hput : (putAsync rand routingThreads now s.client key payload).1 =
      tryRequest rand routingThreads now (getRequestId s.client).1 request := by
    rw [hrequest]
    rfl
  have hiff : request.key = k ∧ IsPut i request ↔
      (key, 2 * s.client.requestIds + 1) = (k, i) := by
    simp [hrequest, IsPut, hid]
  rw [List.count_singleton]
  by_cases hhit : request.key = k ∧ IsPut i request
  · have heq := hiff.1 hhit
    obtain ⟨rfl, rfl⟩ := Prod.mk.inj heq
    -- nothing waits under the new id
    have hnone := (hs.fresh key (2 * s.client.requestIds + 1) (Nat.le_succ _)).1
    rw [place] at hnone
    have hq : queued (getRequestId s.client).1 key (2 * s.client.requestIds + 1) =
        queued s.client key (2 * s.client.requestIds + 1) := rfl
    have ha : awaited (getRequestId s.client).1 key (2 * s.client.requestIds + 1) =
        awaited s.client key (2 * s.client.requestIds + 1) := rfl
    rw [if_pos (beq_self_eq_true _)]
    obtain ⟨hmore, hsame⟩ | ⟨hsame, hone, -⟩ :=
      place_tryRequest rand routingThreads (c := (getRequestId s.client).1) hput.symm hhit
    · omega
    · rw [hone, queued, hsame, ← queued, hq]
      omega
  · obtain ⟨hsame, hsame'⟩ := place_tryRequest_of_not rand routingThreads
      (c := (getRequestId s.client).1) hput.symm hhit
    rw [hsame, hsame', if_neg fun h => hhit (hiff.2 (eq_of_beq h))]
    rfl

theorem PutsKept.put {s : State σ} (hs : PutsKept s) (now : ℕ) (key : String)
    (payload : List UInt8)
    (hids : (putAsync rand routingThreads now s.client key payload).1.requestIds ≤ 2 ^ 31) :
    PutsKept { s with
      client := (putAsync rand routingThreads now s.client key payload).1
      puts := s.puts ++ [(key, (putAsync rand routingThreads now s.client key payload).2)] } := by
  have hadv := tryRequest_advances rand routingThreads now (getRequestId s.client).1
    { requestId := (getRequestId s.client).2, type := .put, key := key, payload := payload }
  have hle : s.client.requestIds + 1 ≤
      (putAsync rand routingThreads now s.client key payload).1.requestIds := hadv.le
  have hlt : s.client.requestIds < 2 ^ 31 := hle.trans hids
  have hid : (putAsync rand routingThreads now s.client key payload).2 =
      2 * s.client.requestIds + 1 := by
    refine (getRequestId_eq hs.rid).1.trans ?_
    omega
  have hplace := place_putAsync rand routingThreads hs hlt now key payload
  rw [hid]
  have hcount : ∀ k i, (s.puts ++ [(key, 2 * s.client.requestIds + 1)]).count (k, i) =
      s.puts.count (k, i) + [(key, 2 * s.client.requestIds + 1)].count (k, i) :=
    fun k i => List.count_append
  have hnew : ∀ k i, [(key, 2 * s.client.requestIds + 1)].count (k, i) ≤ 1 := fun k i =>
    List.count_le_length
  refine ⟨?_, ?_, fun k i hi => ?_, fun k i => ?_, fun k i => ?_, fun k i => ?_⟩
  · exact (hs.well.of_maps (getRequestId_maps _)).tryRequest rand routingThreads now _
  · exact hadv.rid ((getRequestId_advances _).rid hs.rid)
  · have hne : (key, 2 * s.client.requestIds + 1) ≠ (k, i) := fun h => by
      have := (Prod.mk.inj h).2
      simp only at hi
      omega
    have hzero : [(key, 2 * s.client.requestIds + 1)].count (k, i) = 0 :=
      List.count_eq_zero.2 fun h => hne (List.mem_singleton.1 h).symm
    have hold := hs.fresh k i (by simp only at hi; omega)
    simp only [place, hplace, hcount, hzero] at hold ⊢
    omega
  · rw [hcount]
    have honce := hs.once k i
    by_cases h : 2 * s.client.requestIds ≤ i
    · have hzero := (hs.fresh k i h).2
      have hone := hnew k i
      omega
    · have hzero : [(key, 2 * s.client.requestIds + 1)].count (k, i) = 0 :=
        List.count_eq_zero.2 fun hmem => by
          have := (Prod.mk.inj (List.mem_singleton.1 hmem)).2
          omega
      omega
  · have hkept := hs.kept k i
    simp only [place, hplace, hcount] at hkept ⊢
    omega
  · have hcopies := hs.copies k i
    simp only [place, hplace, hcount] at hcopies ⊢
    omega

theorem PutsKept.get {s : State σ} (hs : PutsKept s) (now : ℕ) (key : String) :
    PutsKept { s with client := getAsync rand routingThreads now s.client key } := by
  have hadv := getAsync_advances rand routingThreads now s.client key
  have hplace : ∀ k i, place { s with client := getAsync rand routingThreads now s.client key } k i
      = place s k i := by
    intro k i
    obtain ⟨hqueued, hawaited⟩ := place_getAsync rand routingThreads now s.client key k i
    rw [place, hqueued, hawaited, place]
  refine ⟨hs.well.getAsync rand routingThreads now key, hadv.rid hs.rid, fun k i hi => ?_,
    hs.once, fun k i => ?_, fun k i => ?_⟩
  · rw [hplace]
    exact hs.fresh k i ((Nat.mul_le_mul_left 2 hadv.le).trans hi)
  · rw [hplace]
    exact hs.kept k i
  · rw [hplace]
    exact hs.copies k i

theorem getKvsResponses_keeps {now : ℕ} {s s' : State σ} {addresses : Option KeyAddressResponse}
    {response : Option KeyResponse} (hwell : WellKeyed s.client)
    (h : getKvsResponses rand routingThreads timeout now s addresses response = some s') :
    WellKeyed s'.client ∧ Advances s.client s'.client ∧ s'.puts = s.puts ∧
      ∀ key id, ∃ n, s'.refused.count (key, id) = s.refused.count (key, id) + n ∧
        place s' key id ≤ place s key id + n ∧ n ≤ place s key id ∧
        (0 < place s key id → 0 < place s' key id) := by
  obtain ⟨c₁, c, rs, hc₁, hc, hclient, hputs, hanswers, hrefused, -⟩ :=
    getKvsResponses_eq rand routingThreads timeout h
  have hwell' := hwell.receiveAsync rand routingThreads timeout hc
  have hadv := receiveAsync_advances rand routingThreads timeout hc
  obtain ⟨c₂, hc₂, hplace⟩ := place_receiveAsync rand routingThreads timeout hwell hc
  obtain rfl : c₁ = c₂ := Option.some.inj (hc₁.symm.trans hc₂)
  -- the scheduler only issues gets
  obtain ⟨hwell'', hadv', hsame⟩ : WellKeyed s'.client ∧ Advances c s'.client ∧
      ∀ key id, queued s'.client key id = queued c key id ∧
        awaited s'.client key id = awaited c key id := by
    rw [hclient]
    refine responses_invariant rand routingThreads
      (P := fun c' => WellKeyed c' ∧ Advances c c' ∧
        ∀ key id, queued c' key id = queued c key id ∧ awaited c' key id = awaited c key id)
      (fun c' k hP => ?_) rs ⟨hwell', .refl c, fun _ _ => ⟨rfl, rfl⟩⟩
    refine ⟨hP.1.getAsync rand routingThreads now k,
      hP.2.1.trans (getAsync_advances rand routingThreads now c' k), fun key id => ?_⟩
    obtain ⟨hqueued, hawaited⟩ := place_getAsync rand routingThreads now c' k key id
    obtain ⟨hqueued', hawaited'⟩ := hP.2.2 key id
    exact ⟨hqueued.trans hqueued', hawaited.trans hawaited'⟩
  refine ⟨hwell'', hadv.trans hadv', hputs, fun key id =>
    ⟨(response.elim [] (refusedPut c₁)).count (key, id), ?_, ?_⟩⟩
  · rw [hrefused, List.count_append]
  · obtain ⟨hle, hbefore, hpos⟩ := hplace key id
    obtain ⟨hqueued, hawaited⟩ := hsame key id
    rw [place, place, hanswers, answered_append, hqueued, hawaited]
    refine ⟨?_, ?_, fun h => ?_⟩
    · omega
    · omega
    · by_cases hanswered : 0 < answered s.answers key id
      · omega
      · have := hpos (by omega)
        omega

theorem PutsKept.poll {now : ℕ} {s s' : State σ} (hs : PutsKept s)
    {addresses : Option KeyAddressResponse} {response : Option KeyResponse}
    (h : getKvsResponses rand routingThreads timeout now s addresses response = some s') :
    PutsKept s' := by
  obtain ⟨hwell, hadv, hputs, hplace⟩ :=
    getKvsResponses_keeps rand routingThreads timeout hs.well h
  refine ⟨hwell, hadv.rid hs.rid, fun key id hid => ?_, fun key id => hputs ▸ hs.once key id,
    fun key id => ?_, fun key id => ?_⟩
  · obtain ⟨n, -, hle, hn, -⟩ := hplace key id
    obtain ⟨hzero, hnone⟩ := hs.fresh key id ((Nat.mul_le_mul_left 2 hadv.le).trans hid)
    rw [hputs]
    exact ⟨by omega, hnone⟩
  · obtain ⟨n, -, -, -, hpos⟩ := hplace key id
    have honce := hs.once key id
    have hkept := hs.kept key id
    rw [hputs]
    omega
  · obtain ⟨n, hrefused, hle, -, -⟩ := hplace key id
    have hcopies := hs.copies key id
    rw [hputs, hrefused]
    omega

theorem PutsKept.step {s s' : State σ} {e : Event} (hs : PutsKept s)
    (h : step rand routingThreads timeout s e = some s')
    (hids : s'.client.requestIds ≤ 2 ^ 31) : PutsKept s' := by
  cases e with
  | put now key payload =>
    obtain rfl := Option.some.inj h
    exact hs.put rand routingThreads now key payload hids
  | get now key =>
    obtain rfl := Option.some.inj h
    exact hs.get rand routingThreads now key
  | poll now addresses response => exact hs.poll rand routingThreads timeout h

/-- A run never goes back in the request ids. -/
theorem step_advances {s s' : State σ} {e : Event}
    (h : step rand routingThreads timeout s e = some s') (hwell : WellKeyed s.client) :
    WellKeyed s'.client ∧ Advances s.client s'.client := by
  cases e with
  | put now key payload =>
    obtain rfl := Option.some.inj h
    exact ⟨(hwell.of_maps (getRequestId_maps _)).tryRequest rand routingThreads now _,
      (getRequestId_advances _).trans (tryRequest_advances rand routingThreads now _ _)⟩
  | get now key =>
    obtain rfl := Option.some.inj h
    exact ⟨hwell.getAsync rand routingThreads now key,
      getAsync_advances rand routingThreads now s.client key⟩
  | poll now addresses response =>
    obtain ⟨hwell', hadv, -⟩ := getKvsResponses_keeps rand routingThreads timeout hwell h
    exact ⟨hwell', hadv⟩

/-- A client to which nothing has happened. -/
def fresh (seed : σ) : State σ := { client := { seed := seed } }

theorem putsKept_fresh (seed : σ) : PutsKept (fresh seed) where
  well := ⟨fun _ _ h => (nomatch h), fun _ _ h => (nomatch h), fun _ _ _ h => (nomatch h)⟩
  rid := rfl
  fresh _ _ _ := ⟨rfl, rfl⟩
  once _ _ := Nat.zero_le _
  kept _ _ := Nat.zero_le _
  copies _ _ := Nat.zero_le _

theorem wellKeyed_of_exec {seed : σ} {l : List Event} {s : State σ}
    (h : Runs.exec (step rand routingThreads timeout) (fresh seed) l = some s) :
    WellKeyed s.client :=
  Runs.exec_invariant (P := fun s => WellKeyed s.client)
    (fun _ _ _ _ hs' hP => (step_advances rand routingThreads timeout hs' hP).1)
    (Runs.allowed_true _ _) h (putsKept_fresh seed).well

/-- A worker refuses the first put with the key. -/
def refusal : KeyResponse :=
  { type := .put, responseId := 1, key := "k", tupleError := .wrongThread }

/-- A put that a worker refuses, which is sent to another one and then answered. -/
def refusedRun : List Event :=
  [.put 0 "k" [7], .poll 1 (some { key := "k", ips := ["tcp://10.0.0.1:6200"] }) none,
    .poll 2 none (some refusal),
    .poll 3 (some { key := "k", ips := ["tcp://10.0.0.2:6200"] }) none,
    .poll 4 none (some { refusal with tupleError := .noError })]

/-- The final state of a run of a client that always takes the first address. -/
def finalState (l : List Event) : Option (State ℕ) :=
  Runs.exec (step (fun n => (n, 0)) ["r"] 10000) (fresh 0) l

/-- A get waits for the addresses of its key or for a response. -/
def GetWaits (c : Client σ) (key : String) : Prop :=
  key ∈ c.pendingGetResponse.keys ∨ ∃ r ∈ queue c key, r.type = .get

/-- A get is answered by one of the responses, which may be that it has timed out. -/
def GetAnswered (rs : List KeyResponse) (key : String) : Prop :=
  ∃ r ∈ rs, r.type = .get ∧ r.key = key

theorem GetAnswered.append_left {rs : List KeyResponse} {key : String} (h : GetAnswered rs key)
    (rs' : List KeyResponse) : GetAnswered (rs ++ rs') key := by
  obtain ⟨r, hr, hget⟩ := h
  exact ⟨r, List.mem_append_left _ hr, hget⟩

theorem GetAnswered.append_right {rs' : List KeyResponse} {key : String}
    (h : GetAnswered rs' key) (rs : List KeyResponse) : GetAnswered (rs ++ rs') key := by
  obtain ⟨r, hr, hget⟩ := h
  exact ⟨r, List.mem_append_right _ hr, hget⟩

theorem keys_get_dispatch (now : ℕ) (c : Client σ) (worker : String) (request : KeyRequest)
    (key : String) : key ∈ (dispatch now c worker request).pendingGetResponse.keys ↔
      request.type = .get ∧ key = request.key ∨ key ∈ c.pendingGetResponse.keys := by
  unfold dispatch
  cases request.type with
  | get => simp [Dict.mem_keys_set]
  | put => simp

theorem GetWaits.of_eq {c c' : Client σ} {key : String} (h : GetWaits c key)
    (hget : c'.pendingGetResponse = c.pendingGetResponse)
    (hrequest : c'.pendingRequest = c.pendingRequest) : GetWaits c' key := by
  rwa [GetWaits, queue, hget, hrequest]

theorem mem_keys_get_tryRequest {c : Client σ} {key : String}
    (h : key ∈ c.pendingGetResponse.keys) (now : ℕ) (request : KeyRequest) :
    key ∈ (tryRequest rand routingThreads now c request).pendingGetResponse.keys := by
  obtain ⟨c₁, hmaps, -, ⟨htry, -⟩ | ⟨worker, -, -, htry⟩⟩ :=
    tryRequest_cases rand routingThreads now c request
  · rw [htry]
    exact show key ∈ c₁.pendingGetResponse.keys from hmaps.get ▸ h
  · rw [htry]
    exact (keys_get_dispatch now c₁ worker request key).2 (.inr (hmaps.get ▸ h))

/-- Trying a request takes no get away. -/
theorem GetWaits.tryRequest {c : Client σ} {key : String} (h : GetWaits c key) (now : ℕ)
    (request : KeyRequest) : GetWaits (tryRequest rand routingThreads now c request) key := by
  obtain hget | ⟨r, hr, hget⟩ := h
  · exact .inl (mem_keys_get_tryRequest rand routingThreads hget now request)
  · refine .inr ⟨r, ?_, hget⟩
    obtain ⟨c₁, hmaps, -, ⟨htry, -⟩ | ⟨worker, -, -, htry⟩⟩ :=
      tryRequest_cases rand routingThreads now c request
    · rw [htry, queue_enqueue, hmaps.queue_eq]
      split_ifs
      · exact List.mem_append_left _ hr
      · exact hr
    · rwa [htry, queue_dispatch, hmaps.queue_eq]

/-- A get that is tried waits for a response, or in the queue of its key. -/
theorem getWaits_tryRequest (now : ℕ) (c : Client σ) {request : KeyRequest}
    (hget : request.type = .get) :
    request.key ∈ (tryRequest rand routingThreads now c request).pendingGetResponse.keys ∨
      queue (tryRequest rand routingThreads now c request) request.key =
        queue c request.key ++ [request] := by
  obtain ⟨c₁, hmaps, -, ⟨htry, -⟩ | ⟨worker, -, -, htry⟩⟩ :=
    tryRequest_cases rand routingThreads now c request
  · right
    rw [htry, queue_enqueue, if_pos rfl, hmaps.queue_eq]
  · left
    rw [htry]
    exact (keys_get_dispatch now c₁ worker request request.key).2 (.inl ⟨hget, rfl⟩)

theorem GetWaits.getAsync {c : Client σ} {key : String} (h : GetWaits c key) (now : ℕ)
    (k : String) : GetWaits (getAsync rand routingThreads now c k) key := by
  obtain ⟨-, heq⟩ | ⟨request, -, -, heq⟩ := getAsync_cases rand routingThreads now c k
  · rwa [heq]
  · rw [heq]
    exact GetWaits.tryRequest rand routingThreads
      (show GetWaits (getRequestId c).1 key from h) now request

theorem getWaits_getAsync (now : ℕ) (c : Client σ) (key : String) :
    GetWaits (getAsync rand routingThreads now c key) key := by
  obtain ⟨hpending, heq⟩ | ⟨request, hget, rfl, heq⟩ :=
    getAsync_cases rand routingThreads now c key
  · rw [heq]
    exact .inl hpending
  · rw [heq]
    obtain hsent | hqueue := getWaits_tryRequest rand routingThreads now (getRequestId c).1 hget
    · exact .inl hsent
    · exact .inr ⟨request, hqueue ▸ List.mem_append_right _ (List.mem_singleton.2 rfl), hget⟩

/-- If it is defined, trying all requests sends the gets among them. -/
theorem mem_keys_tryAll {now : ℕ} {key : String} {requests : List KeyRequest} {c c' : Client σ}
    (hkeys : ∀ r ∈ requests, r.key = key)
    (hrun : tryAll rand routingThreads now key c requests = some c') {r : KeyRequest}
    (hr : r ∈ requests) (hget : r.type = .get) : key ∈ c'.pendingGetResponse.keys := by
  induction requests generalizing c with
  | nil => cases hr
  | cons request requests ih =>
    obtain ⟨hsame, hrest⟩ := tryAll_cons rand routingThreads hrun
    have hkeys' : ∀ r ∈ requests, r.key = key := fun r hr => hkeys r (List.mem_cons_of_mem _ hr)
    obtain rfl | hr := List.mem_cons.1 hr
    · have hkey : r.key = key := hkeys r List.mem_cons_self
      obtain hsent | hqueue := getWaits_tryRequest rand routingThreads now c hget
      · exact tryAll_invariant rand routingThreads (P := fun c => key ∈ c.pendingGetResponse.keys)
          (fun c request hc => mem_keys_get_tryRequest rand routingThreads hc now request)
          (hkey ▸ hsent) hrest
      · -- it would be back in the queue
        rw [hkey, queue, queue, hsame] at hqueue
        exact absurd hqueue (by simp)
    · exact ih hkeys' hrest hr

theorem GetWaits.handleAddress {now : ℕ} {c c' : Client σ} {key : String} (h : GetWaits c key)
    (hwell : WellKeyed c) {a : KeyAddressResponse}
    (hc' : handleAddress rand routingThreads now c a = some c') : GetWaits c' key := by
  obtain rfl | rfl | ⟨c₁, hall, rfl⟩ := handleAddress_cases rand routingThreads hc'
  · exact h
  · obtain hget | ⟨r, hr, hget⟩ := h
    · exact .inl hget
    · refine .inr ⟨r, ?_, hget⟩
      rw [(queryRoutingAsync_maps rand routingThreads _ _).queue_eq, queue_set]
      split_ifs with hk
      · exact hk ▸ hr
      · exact hr
  · obtain hget | ⟨r, hr, hget⟩ := h
    · have hsent : key ∈ c₁.pendingGetResponse.keys :=
        tryAll_invariant rand routingThreads (P := fun c => key ∈ c.pendingGetResponse.keys)
          (fun c request hc => mem_keys_get_tryRequest rand routingThreads hc now request)
          (by exact hget) hall
      exact .inl hsent
    · by_cases hk : key = a.key
      · have hsent : a.key ∈ c₁.pendingGetResponse.keys :=
          mem_keys_tryAll rand routingThreads (hwell.request a.key) hall (hk ▸ hr) hget
        exact .inl (hk ▸ hsent)
      · refine .inr ⟨r, ?_, hget⟩
        rw [queue_erase, if_neg hk, (place_tryAll rand routingThreads (hwell.request a.key) hall).1]
        exact hr

/-- A response to a get that waits for it answers the get, unless it is tried again. -/
theorem GetWaits.handleResponse {c : Client σ} {key : String} (h : GetWaits c key) (now : ℕ)
    (response : KeyResponse) :
    GetWaits (handleResponse rand routingThreads now c response).1 key ∨
      GetAnswered (handleResponse rand routingThreads now c response).2 key := by
  obtain ⟨heq, -⟩ | ⟨cache, -, ⟨htype, -, p, hp, ⟨-, heq⟩ | heq⟩ |
      ⟨-, p, hp, ⟨-, -, heq⟩ | ⟨-, heq⟩⟩⟩ :=
    handleResponse_cases rand routingThreads now c response
  · rw [heq]
    exact .inl h
  · rw [heq]
    refine .inl (GetWaits.tryRequest rand routingThreads ?_ now _)
    refine h.imp (fun hget => ?_) id
    exact Dict.mem_keys_set.2 (.inr hget)
  · rw [heq]
    by_cases hk : key = response.key
    · exact .inr ⟨response, List.mem_singleton.2 rfl, htype, hk.symm⟩
    · refine .inl (h.imp (fun hget => ?_) id)
      exact Dict.mem_keys_erase.2 ⟨hk, hget⟩
  · rw [heq]
    refine .inl (GetWaits.tryRequest rand routingThreads ?_ now _)
    exact h.of_eq rfl rfl
  · rw [heq]
    refine .inl ?_
    exact h.of_eq rfl rfl

theorem GetWaits.expireRequests {c : Client σ} {key : String} (h : GetWaits c key)
    (hwell : WellKeyed c) (now : ℕ) : GetWaits (expireRequests timeout now c).1 key ∨
      GetAnswered (expireRequests timeout now c).2 key := by
  obtain hget | ⟨r, hr, hget⟩ := h
  · exact .inl (.inl hget)
  · by_cases hexpired : ∃ p ∈ c.pendingRequest.get? key, Expired timeout now p.1
    · right
      obtain ⟨p, hp, hexpired⟩ := hexpired
      have hp : c.pendingRequest.get? key = some p := hp
      have hqueue : queue c key = p.2 := by rw [queue, hp]; rfl
      refine ⟨generateBadResponse r, List.mem_flatMap.2 ⟨(key, p), ?_, ?_⟩, hget,
        hwell.request key r hr⟩
      · exact List.mem_filter.2 ⟨Dict.mem_entries_iff.2 hp, decide_eq_true hexpired⟩
      · exact List.mem_map_of_mem (hqueue ▸ hr)
    · refine .inl (.inr ⟨r, ?_, hget⟩)
      rwa [queue_expireRequests, if_neg hexpired]

theorem GetWaits.expireGets {now : ℕ} {c c' : Client σ} {rs : List KeyResponse} {key : String}
    (h : GetWaits c key) (hwell : WellKeyed c)
    (hc' : expireGets timeout now c = some (c', rs)) :
    GetWaits c' key ∨ GetAnswered rs key := by
  obtain ⟨cache, -, rfl, rfl⟩ := expireGets_eq timeout hc'
  obtain hget | hqueue := h
  · obtain ⟨p, hp⟩ := Dict.mem_keys_iff.1 hget
    obtain ⟨hkey, htype⟩ := hwell.get key p hp
    by_cases hexpired : Expired timeout now p.tp
    · refine .inr ⟨generateBadResponse p.request, List.mem_map.2 ⟨(key, p), ?_, rfl⟩, htype, hkey⟩
      exact List.mem_filter.2 ⟨Dict.mem_entries_iff.2 hp, decide_eq_true hexpired⟩
    · exact .inl (.inl (Dict.mem_keys_filter.2 ⟨p, hp, by simpa using hexpired⟩))
  · exact .inl (.inr hqueue)

theorem GetWaits.receiveAsync {now : ℕ} {c c' : Client σ} {addresses : Option KeyAddressResponse}
    {response : Option KeyResponse} {rs : List KeyResponse} {key : String} (h : GetWaits c key)
    (hwell : WellKeyed c)
    (hc' : receiveAsync rand routingThreads timeout now c addresses response = some (c', rs)) :
    GetWaits c' key ∨ GetAnswered rs key := by
  obtain ⟨c₁, hc₁, c₂, answer, hc₂, c₃, badGets, hc₃, badPuts, hc₄, rfl⟩ :=
    receiveAsync_eq rand routingThreads timeout hc'
  have hfirst : WellKeyed c₁ ∧ GetWaits c₁ key := by
    cases addresses with
    | none => exact Option.some.inj hc₁ ▸ ⟨hwell, h⟩
    | some a =>
      exact ⟨hwell.handleAddress rand routingThreads hc₁,
        h.handleAddress rand routingThreads hwell hc₁⟩
  have hsecond : WellKeyed c₂ ∧ (GetWaits c₂ key ∨ GetAnswered answer key) := by
    cases response with
    | none =>
      obtain ⟨rfl, rfl⟩ := Prod.mk.inj hc₂
      exact ⟨hfirst.1, .inl hfirst.2⟩
    | some r =>
      have hr : Kvs.handleResponse rand routingThreads now c₁ r = (c₂, answer) := hc₂
      have hwell₂ := hfirst.1.handleResponse rand routingThreads now r
      have hwaits := hfirst.2.handleResponse rand routingThreads now r
      rw [hr] at hwell₂ hwaits
      exact ⟨hwell₂, hwaits⟩
  obtain ⟨hwell₂, hwaits | hanswered⟩ := hsecond
  · have hwell₃ := hwell₂.expireRequests timeout now
    obtain hwaits | hanswered := hwaits.expireRequests timeout hwell₂ now
    · obtain hwaits | hanswered := hwaits.expireGets timeout hwell₃ hc₃
      · obtain ⟨cache, -, rfl, -⟩ := expirePuts_eq timeout hc₄
        exact .inl (hwaits.of_eq rfl rfl)
      · exact .inr ((hanswered.append_right _).append_left _)
    · exact .inr (((hanswered.append_right _).append_left _).append_left _)
  · exact .inr (((hanswered.append_left _).append_left _).append_left _)

/-- A get that has timed out is issued again. -/
theorem getWaits_responses {now : ℕ} {rs : List KeyResponse} {s : Client σ × List RecvMsg}
    {r : KeyResponse} (hr : r ∈ rs) (hget : r.type = .get) (herror : r.error = .timeout) :
    GetWaits (rs.foldl (handleKvsResponse rand routingThreads now) s).1 r.key := by
  induction rs generalizing s with
  | nil => cases hr
  | cons r' rs ih =>
    obtain rfl | hr := List.mem_cons.1 hr
    · refine responses_invariant rand routingThreads (P := fun c => GetWaits c r.key)
        (fun c k hc => GetWaits.getAsync rand routingThreads hc now k) rs ?_
      rw [handleKvsResponse_fst, if_pos ⟨herror, hget⟩]
      exact getWaits_getAsync rand routingThreads now s.1 r.key
    · exact ih hr

/-- After the first `n` responses, there was one to a get, which was no timeout, and unless the key
does not exist, the scheduler has the value. -/
def Served (n : ℕ) (s : State σ) (key : String) : Prop :=
  ∃ r ∈ s.answers.drop n, r.type = .get ∧ r.key = key ∧ r.error ≠ .timeout ∧
    (r.tupleError ≠ .keyDne → .kvsGetResp key r.payload ∈ s.msgs)

theorem GetWaits.poll {now n : ℕ} {s s' : State σ} {key : String}
    (h : GetWaits s.client key ∨ Served n s key) (hwell : WellKeyed s.client)
    (hn : n ≤ s.answers.length) {addresses : Option KeyAddressResponse}
    {response : Option KeyResponse}
    (hs' : getKvsResponses rand routingThreads timeout now s addresses response = some s') :
    n ≤ s'.answers.length ∧ (GetWaits s'.client key ∨ Served n s' key) := by
  obtain ⟨c₁, c, rs, -, hc, hclient, -, hanswers, -, -, hmsgs⟩ :=
    getKvsResponses_eq rand routingThreads timeout hs'
  have hdrop : s'.answers.drop n = s.answers.drop n ++ rs := by
    rw [hanswers, List.drop_append_of_le_length hn]
  refine ⟨by rw [hanswers, List.length_append]; omega, ?_⟩
  obtain hwaits | ⟨r, hr, hget, hkey, herror, hmsg⟩ := h
  · obtain hwaits | ⟨r, hr, hget, rfl⟩ :=
      hwaits.receiveAsync rand routingThreads timeout hwell hc
    · left
      rw [hclient]
      exact responses_invariant rand routingThreads (P := fun c => GetWaits c key)
        (fun c k hc => GetWaits.getAsync rand routingThreads hc now k) rs hwaits
    · by_cases herror : r.error = .timeout
      · left
        rw [hclient]
        exact getWaits_responses rand routingThreads hr hget herror
      · refine .inr ⟨r, hdrop ▸ List.mem_append_right _ hr, hget, rfl, herror, fun hexists => ?_⟩
        rw [hmsgs]
        exact List.mem_append_right _
          (mem_msgs_responses rand routingThreads hr hget herror hexists)
  · refine .inr ⟨r, hdrop ▸ List.mem_append_left _ hr, hget, hkey, herror, fun hexists => ?_⟩
    rw [hmsgs]
    exact List.mem_append_left _ (hmsg hexists)

theorem getServed_step {n : ℕ} {s s' : State σ} {key : String} {e : Event}
    (hs' : step rand routingThreads timeout s e = some s') (hwell : WellKeyed s.client)
    (hn : n ≤ s.answers.length) (h : GetWaits s.client key ∨ Served n s key) :
    n ≤ s'.answers.length ∧ (GetWaits s'.client key ∨ Served n s' key) := by
  cases e with
  | put now k payload =>
    obtain rfl := Option.some.inj hs'
    refine ⟨hn, h.imp (fun hwaits => ?_) id⟩
    exact GetWaits.tryRequest rand routingThreads (c := (getRequestId s.client).1)
      (hwaits.of_eq rfl rfl) now _
  | get now k =>
    obtain rfl := Option.some.inj hs'
    exact ⟨hn, h.imp (fun hwaits => hwaits.getAsync rand routingThreads now k) id⟩
  | poll now addresses response =>
    exact GetWaits.poll rand routingThreads timeout h hwell hn hs'

/-- A get that times out, is issued again and is then answered. -/
def expiredRun : List Event :=
  let addresses : KeyAddressResponse := { key := "k", ips := ["tcp://10.0.0.1:6200"] }
  [.poll (20 * 10 ^ 9) none none, .poll (21 * 10 ^ 9) (some addresses) none,
    .poll (22 * 10 ^ 9) none (some { type := .get, responseId := 3, key := "k", payload := [7] })]

/-- All cached addresses, and those of the messages after the first `n`, have the property. -/
structure Sound (T : String → String → Prop) (n : ℕ) (c : Client σ) : Prop where
  cache : ∀ key, ∀ a ∈ cached c key, T key a
  le : n ≤ c.sent.length
  sent : ∀ a r, .worker a r ∈ c.sent.drop n → T r.key a

section Sound

variable {T : String → String → Prop} {n : ℕ}

/-- Further messages are for cached addresses, or for the routing tier. -/
theorem Sound.of_append {c c' : Client σ} (h : Sound T n c) {l : List Message}
    (hcache : c'.keyAddressCache = c.keyAddressCache) (hsent : c'.sent = c.sent ++ l)
    (hl : ∀ a r, .worker a r ∈ l → a ∈ cached c r.key) : Sound T n c' := by
  refine ⟨fun key a ha => h.cache key a (by rwa [cached, ← hcache]), ?_, fun a r hr => ?_⟩
  · rw [hsent, List.length_append]
    exact h.le.trans (Nat.le_add_right _ _)
  · rw [hsent, List.drop_append_of_le_length h.le] at hr
    obtain hr | hr := List.mem_append.1 hr
    · exact h.sent a r hr
    · exact h.cache r.key a (hl a r hr)

/-- Only the cache differs, and it has no further addresses. -/
theorem Sound.of_cache {c c' : Client σ} (h : Sound T n c)
    (hcache : ∀ key, cached c' key ⊆ cached c key) (hsent : c'.sent = c.sent) : Sound T n c' :=
  ⟨fun key a ha => h.cache key a (hcache key ha), hsent ▸ h.le, fun a r hr =>
    h.sent a r (hsent ▸ hr)⟩

theorem sent_dispatch (now : ℕ) (c : Client σ) (worker : String) (request : KeyRequest) :
    (dispatch now c worker request).keyAddressCache = c.keyAddressCache ∧
      ∃ r, r.key = request.key ∧
        (dispatch now c worker request).sent = c.sent ++ [.worker worker r] := by
  refine ⟨?_, { request with addressCacheSize := (cached c request.key).card }, rfl, ?_⟩
  · unfold dispatch
    cases request.type <;> rfl
  · unfold dispatch
    cases request.type <;> rfl

theorem Sound.tryRequest {c : Client σ} (h : Sound T n c) (now : ℕ) (request : KeyRequest) :
    Sound T n (tryRequest rand routingThreads now c request) := by
  obtain ⟨c₁, hmaps, -, ⟨htry, hsent | ⟨t, i, hsent⟩⟩ | ⟨worker, hworker, hsent, htry⟩⟩ :=
    tryRequest_cases rand routingThreads now c request
  · rw [htry]
    exact h.of_append (l := []) hmaps.cache (hsent.trans (List.append_nil _).symm) (by simp)
  · rw [htry]
    exact h.of_append hmaps.cache hsent (by simp)
  · obtain ⟨hcache, r, hr, hsent'⟩ := sent_dispatch now c₁ worker request
    rw [htry]
    refine h.of_append (hcache.trans hmaps.cache) (hsent'.trans (by rw [hsent])) fun a r' hr' => ?_
    obtain ⟨rfl, rfl⟩ := Message.worker.inj (List.mem_singleton.1 hr')
    exact hr ▸ hworker

theorem Sound.getAsync {c : Client σ} (h : Sound T n c) (now : ℕ) (key : String) :
    Sound T n (getAsync rand routingThreads now c key) := by
  obtain ⟨-, heq⟩ | ⟨request, -, -, heq⟩ := getAsync_cases rand routingThreads now c key
  · rwa [heq]
  · rw [heq]
    exact Sound.tryRequest rand routingThreads (c := (getRequestId c).1)
      ⟨h.cache, h.le, h.sent⟩ now request

theorem cached_insertAll (ips : List String) (key : String)
    (m : Dict String (Finset String)) (k a : String)
    (ha : a ∈ ((ips.foldl
      (fun m ip => m.set key (insert ip ((m.get? key).getD ∅))) m).get? k).getD ∅) :
    a ∈ (m.get? k).getD ∅ ∨ k = key ∧ a ∈ ips := by
  induction ips generalizing m with
  | nil => exact .inl ha
  | cons ip ips ih =>
    obtain hold | ⟨hk, hin⟩ := ih _ ha
    · rw [Dict.get?_set] at hold
      split_ifs at hold with hk
      · obtain rfl | hold := Finset.mem_insert.1 hold
        · exact .inr ⟨hk, List.mem_cons_self⟩
        · exact .inl (hk ▸ hold)
      · exact .inl hold
    · exact .inr ⟨hk, List.mem_cons_of_mem _ hin⟩

theorem Sound.handleAddress {now : ℕ} {c c' : Client σ} (h : Sound T n c)
    {a : KeyAddressResponse} (ha : ∀ ip ∈ a.ips, T a.key ip)
    (hc' : handleAddress rand routingThreads now c a = some c') : Sound T n c' := by
  obtain rfl | rfl | ⟨c₁, hall, rfl⟩ := handleAddress_cases rand routingThreads hc'
  · exact h
  · obtain ⟨t, i, hsent⟩ := sent_queryRoutingAsync rand routingThreads
      { c with pendingRequest := c.pendingRequest.set a.key (now, queue c a.key) } a.key
    exact h.of_append (queryRoutingAsync_maps rand routingThreads _ _).cache hsent (by simp)
  · have hc₁ : Sound T n c₁ := by
      refine tryAll_invariant rand routingThreads
        (fun c request hc => hc.tryRequest rand routingThreads now request) ?_ hall
      refine ⟨fun key ip hip => ?_, h.le, h.sent⟩
      obtain hold | ⟨rfl, hin⟩ := cached_insertAll a.ips a.key c.keyAddressCache key ip hip
      · exact h.cache key ip hold
      · exact ha ip hin
    exact ⟨hc₁.cache, hc₁.le, hc₁.sent⟩

theorem Sound.handleResponse {c : Client σ} (h : Sound T n c) (now : ℕ)
    (response : KeyResponse) : Sound T n (handleResponse rand routingThreads now c response).1 := by
  obtain ⟨heq, -⟩ | ⟨cache, hsub, ⟨-, -, p, -, ⟨-, heq⟩ | heq⟩ |
      ⟨-, p, -, ⟨-, -, heq⟩ | ⟨-, heq⟩⟩⟩ :=
    handleResponse_cases rand routingThreads now c response
  · rwa [heq]
  · rw [heq]
    refine Sound.tryRequest rand routingThreads ?_ now _
    exact h.of_cache hsub rfl
  · rw [heq]
    exact h.of_cache hsub rfl
  · rw [heq]
    refine Sound.tryRequest rand routingThreads ?_ now _
    exact h.of_cache hsub rfl
  · rw [heq]
    exact h.of_cache hsub rfl

theorem Sound.receiveAsync {now : ℕ} {c c' : Client σ} {addresses : Option KeyAddressResponse}
    {response : Option KeyResponse} {rs : List KeyResponse} (h : Sound T n c)
    (ha : ∀ a ∈ addresses, ∀ ip ∈ a.ips, T a.key ip)
    (hc' : receiveAsync rand routingThreads timeout now c addresses response = some (c', rs)) :
    Sound T n c' := by
  obtain ⟨c₁, hc₁, c₂, answer, hc₂, c₃, badGets, hc₃, badPuts, hc₄, -⟩ :=
    receiveAsync_eq rand routingThreads timeout hc'
  have hfirst : Sound T n c₁ := by
    cases addresses with
    | none => exact Option.some.inj hc₁ ▸ h
    | some a => exact h.handleAddress rand routingThreads (ha a rfl) hc₁
  have hsecond : Sound T n c₂ := by
    cases response with
    | none => exact (Prod.mk.inj hc₂).1 ▸ hfirst
    | some r =>
      have hr := hfirst.handleResponse rand routingThreads now r
      rwa [show Kvs.handleResponse rand routingThreads now c₁ r = (c₂, answer) from hc₂] at hr
  obtain ⟨cache, hsub, rfl, -⟩ := expireGets_eq timeout hc₃
  obtain ⟨cache', hsub', rfl, -⟩ := expirePuts_eq timeout hc₄
  exact hsecond.of_cache (fun key => (hsub' key).trans (hsub key)) rfl

theorem Sound.mono {T' : String → String → Prop} {c : Client σ} (h : Sound T n c)
    (hT : ∀ key a, T key a → T' key a) : Sound T' n c :=
  ⟨fun key a ha => hT key a (h.cache key a ha), h.le, fun a r hr => hT r.key a (h.sent a r hr)⟩

theorem Sound.step {s s' : State σ} {e : Event} (h : Sound T n s.client)
    (hs' : step rand routingThreads timeout s e = some s')
    (htold : ∀ key a, (key, a) ∈ s'.told.drop s.told.length → T key a) : Sound T n s'.client := by
  cases e with
  | put now key payload =>
    obtain rfl := Option.some.inj hs'
    exact Sound.tryRequest rand routingThreads (c := (getRequestId s.client).1)
      ⟨h.cache, h.le, h.sent⟩ now _
  | get now key =>
    obtain rfl := Option.some.inj hs'
    exact h.getAsync rand routingThreads now key
  | poll now addresses response =>
    obtain ⟨c₁, c, rs, -, hc, hclient, -, -, -, htold', -⟩ :=
      getKvsResponses_eq rand routingThreads timeout hs'
    rw [htold', List.drop_left] at htold
    have hc : Sound T n c := by
      refine h.receiveAsync rand routingThreads timeout (fun a ha ip hip => htold a.key ip ?_) hc
      rw [Option.mem_def.1 ha]
      exact List.mem_map_of_mem hip
    rw [hclient]
    exact responses_invariant rand routingThreads (P := Sound T n)
      (fun c k hc => hc.getAsync rand routingThreads now k) rs hc

end Sound

theorem told_step {s s' : State σ} {e : Event}
    (hs' : step rand routingThreads timeout s e = some s') : s.told <+: s'.told := by
  cases e with
  | put now key payload =>
    obtain rfl := Option.some.inj hs'
    exact List.prefix_rfl
  | get now key =>
    obtain rfl := Option.some.inj hs'
    exact List.prefix_rfl
  | poll now addresses response =>
    obtain ⟨_, _, _, -, -, -, -, -, -, htold, -⟩ :=
      getKvsResponses_eq rand routingThreads timeout hs'
    exact htold ▸ List.prefix_append _ _

/-- Requests go to addresses that were told since the key had none. -/
theorem sent_told {s s' : State σ} {l : List Event} {key : String}
    (h : Runs.exec (step rand routingThreads timeout) s l = some s')
    (hnone : cached s.client key = ∅) {a : String} {r : KeyRequest}
    (hsent : .worker a r ∈ s'.client.sent.drop s.client.sent.length) (hkey : r.key = key) :
    (key, a) ∈ s'.told.drop s.told.length := by
  have hinv := Runs.exec_invariant (P := fun t => s.told <+: t.told ∧
      Sound (fun k a => k = key → (key, a) ∈ t.told.drop s.told.length) s.client.sent.length
        t.client)
    (fun t e t' _ ht' hP => by
      obtain ⟨⟨l₁, hl₁⟩, hsound⟩ := hP
      obtain ⟨l₂, hl₂⟩ := told_step rand routingThreads timeout ht'
      rw [← hl₁, List.drop_left] at hsound
      have hdrop : t'.told.drop s.told.length = l₁ ++ l₂ := by
        rw [← hl₂, ← hl₁, List.append_assoc, List.drop_left]
      refine ⟨⟨l₁ ++ l₂, by rw [← List.append_assoc, hl₁, hl₂]⟩, ?_⟩
      rw [hdrop]
      refine (hsound.mono fun k a hk h => List.mem_append_left _ (hk h)).step rand routingThreads
        timeout ht' fun k a hnew hk => ?_
      rw [← hl₂, List.drop_left] at hnew
      exact List.mem_append_right _ (hk ▸ hnew))
    (Runs.allowed_true _ _) h
    ⟨List.prefix_rfl, fun k a ha hk => by
      rw [hk, hnone] at ha
      exact absurd ha (Finset.notMem_empty a), le_rfl, by simp⟩
  exact hinv.2.sent a r hsent hkey

/-- A worker refuses a request that waits for its response, or says that the addresses of the key
are out of date. -/
def Refuses (c : Client σ) (response : KeyResponse) : Prop :=
  (response.tupleError = .wrongThread ∨ response.invalidate = true) ∧
    (response.type = .get ∧ response.key ∈ c.pendingGetResponse.keys ∨
      response.type = .put ∧ (response.key, response.responseId) ∈ c.pendingPutResponse.keys)

instance Refuses.decidable (c : Client σ) (response : KeyResponse) :
    Decidable (Refuses c response) := inferInstanceAs (Decidable (_ ∧ _))

/-- What waits for a response still does after one of the routing tier. -/
theorem Refuses.handleAddress {now : ℕ} {c c' : Client σ} {response : KeyResponse}
    (h : Refuses c response) (hwell : WellKeyed c) {a : KeyAddressResponse}
    (hc' : handleAddress rand routingThreads now c a = some c') : Refuses c' response := by
  refine ⟨h.1, h.2.imp (And.imp_right fun hget => ?_) (And.imp_right fun hput => ?_)⟩
  · obtain rfl | rfl | ⟨c₁, hall, rfl⟩ := handleAddress_cases rand routingThreads hc'
    · exact hget
    · exact hget
    · have hsent : response.key ∈ c₁.pendingGetResponse.keys :=
        tryAll_invariant rand routingThreads
          (P := fun c => response.key ∈ c.pendingGetResponse.keys)
          (fun c request hc => mem_keys_get_tryRequest rand routingThreads hc now request)
          (by exact hget) hall
      exact hsent
  · obtain rfl | rfl | ⟨c₁, hall, rfl⟩ := handleAddress_cases rand routingThreads hc'
    · exact hput
    · exact hput
    · have hone : awaited c₁ response.key response.responseId = 1 := by
        rw [(place_tryAll rand routingThreads (hwell.request a.key) hall).2]
        split_ifs
        · rfl
        · exact if_pos hput
      by_contra hnot
      exact Nat.zero_ne_one ((if_neg hnot).symm.trans hone)

theorem cached_tryRequest (now : ℕ) (c : Client σ) (request : KeyRequest) (key : String) :
    cached (tryRequest rand routingThreads now c request) key = cached c key := by
  obtain ⟨c₁, hmaps, -, ⟨htry, -⟩ | ⟨worker, -, -, htry⟩⟩ :=
    tryRequest_cases rand routingThreads now c request
  · rw [htry, cached, cached, ← hmaps.cache]
    rfl
  · rw [htry, cached, cached, (sent_dispatch now c₁ worker request).1, hmaps.cache]

theorem cached_checkTuple {c : Client σ} {response : KeyResponse}
    (h : response.tupleError = .wrongThread ∨ response.invalidate = true) :
    cached (checkTuple c response).1 response.key = ∅ := by
  have herase : ((c.keyAddressCache.erase response.key).get? response.key).getD ∅ = ∅ := by
    rw [Dict.get?_erase, if_pos rfl]
    rfl
  unfold checkTuple
  split_ifs with hwrong hinvalid
  · exact herase
  · exact herase
  · exact absurd h (not_or.2 ⟨hwrong, hinvalid⟩)

/-- A refusal removes the cached addresses. -/
theorem cached_handleResponse {c : Client σ} {response : KeyResponse} (h : Refuses c response)
    (now : ℕ) : cached (handleResponse rand routingThreads now c response).1 response.key = ∅ := by
  have hnone := cached_checkTuple (c := c) h.1
  obtain ⟨-, ⟨htype, hget⟩ | ⟨htype, hput⟩⟩ := h
  · obtain ⟨p, hp⟩ := Dict.mem_keys_iff.1 hget
    simp only [handleResponse, htype, hp]
    split_ifs
    · rw [cached_tryRequest]
      exact hnone
    · exact hnone
  · obtain ⟨p, hp⟩ := Dict.mem_keys_iff.1 hput
    simp only [handleResponse, htype, hp]
    split_ifs
    · rw [cached_tryRequest]
      exact hnone
    · exact hnone

theorem cached_of_refuses {now : ℕ} {s s' : State σ} {addresses : Option KeyAddressResponse}
    {response : KeyResponse} (hwell : WellKeyed s.client) (h : Refuses s.client response)
    (hs' : getKvsResponses rand routingThreads timeout now s addresses (some response) = some s') :
    cached s'.client response.key = ∅ := by
  obtain ⟨-, c, rs, -, hc, hclient, -⟩ := getKvsResponses_eq rand routingThreads timeout hs'
  obtain ⟨c₁, hc₁, c₂, answer, hc₂, c₃, badGets, hc₃, badPuts, hc₄, -⟩ :=
    receiveAsync_eq rand routingThreads timeout hc
  have hfirst : Refuses c₁ response := by
    cases addresses with
    | none => exact Option.some.inj hc₁ ▸ h
    | some a => exact h.handleAddress rand routingThreads hwell hc₁
  have hsecond : cached c₂ response.key = ∅ := by
    have hr := cached_handleResponse rand routingThreads hfirst now
    rwa [show handleResponse rand routingThreads now c₁ response = (c₂, answer) from hc₂] at hr
  obtain ⟨cache, hsub, rfl, -⟩ := expireGets_eq timeout hc₃
  obtain ⟨cache', hsub', rfl, -⟩ := expirePuts_eq timeout hc₄
  have hthird := (hsub' response.key).trans (hsub response.key)
  have hthird := Finset.subset_empty.1 (hthird.trans hsecond.subset)
  rw [hclient]
  refine responses_invariant rand routingThreads (P := fun c => cached c response.key = ∅)
    (fun c k hc => ?_) rs hthird
  obtain ⟨-, heq⟩ | ⟨request, -, -, heq⟩ := getAsync_cases rand routingThreads now c k
  · rwa [heq]
  · rw [heq, cached_tryRequest]
    exact hc

/-- After a worker has refused a request, or called the addresses of its key out of date, every
request for the key goes to an address that the routing tier has told since. -/
theorem sent_told_of_refuses {seed : σ} {l l' : List Event} {s s₁ s' : State σ} {now : ℕ}
    {addresses : Option KeyAddressResponse} {response : KeyResponse}
    (h : Runs.exec (step rand routingThreads timeout) (fresh seed) l = some s)
    (hrefuses : Refuses s.client response)
    (hs₁ : getKvsResponses rand routingThreads timeout now s addresses (some response) = some s₁)
    (h' : Runs.exec (step rand routingThreads timeout) s₁ l' = some s') {a : String}
    {r : KeyRequest} (hsent : .worker a r ∈ s'.client.sent.drop s₁.client.sent.length)
    (hkey : r.key = response.key) : (response.key, a) ∈ s'.told.drop s₁.told.length := by
  have hwell := wellKeyed_of_exec rand routingThreads timeout h
  exact sent_told rand routingThreads timeout h'
    (cached_of_refuses rand routingThreads timeout hwell hrefuses hs₁) hsent hkey

/-- The states of the run before and after the refusal, and at its end. -/
def refusedStates : Option (State ℕ × State ℕ × State ℕ) := do
  let s ← finalState (refusedRun.take 2)
  let s₁ ← getKvsResponses (fun n => (n, 0)) ["r"] 10000 2 s none (some refusal)
  let s' ← Runs.exec (step (fun n => (n, 0)) ["r"] 10000) s₁ (refusedRun.drop 3)
  some (s, s₁, s')

theorem sent_told_of_refuses_refusedRun : ∃ s s₁ s', refusedStates = some (s, s₁, s') ∧
    ∃ a r, .worker a r ∈ s'.client.sent.drop s₁.client.sent.length ∧ r.key = "k" ∧
      ("k", a) ∈ s'.told.drop s₁.told.length := by
  obtain ⟨⟨s, s₁, s'⟩, h⟩ : ∃ x, refusedStates = some x :=
    Option.isSome_iff_exists.1 (by decide +kernel)
  have hfacts : refusedStates.any fun x => decide (Refuses x.1.client refusal ∧
      Message.worker "tcp://10.0.0.2:6200"
        { requestId := 1, type := .put, key := "k", payload := [7], addressCacheSize := 1 } ∈
        x.2.2.client.sent.drop x.2.1.client.sent.length) := by decide +kernel
  rw [h, Option.any_some] at hfacts
  obtain ⟨hrefuses, hsent⟩ := of_decide_eq_true hfacts
  refine ⟨s, s₁, s', h, _, _, hsent, rfl, ?_⟩
  rw [refusedStates] at h
  obtain ⟨_, hs, h⟩ := Option.bind_eq_some_iff.1 h
  obtain ⟨_, hs₁, h⟩ := Option.bind_eq_some_iff.1 h
  obtain ⟨_, hs', h⟩ := Option.bind_eq_some_iff.1 h
  obtain ⟨rfl, rfl, rfl⟩ : _ ∧ _ ∧ _ := by simpa using h
  exact sent_told_of_refuses (fun n => (n, 0)) ["r"] 10000 hs hrefuses hs₁ hs' hsent rfl

end Demeter.Scheduler.Kvs
