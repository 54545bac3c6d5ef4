import Demeter.Scheduler.KvsClient

/-!
# What the client of the key-value store does in one call

Where a put waits, and how often, before and after each part of a call.

* `tryRequest_cases` says what trying a request can do: it waits for addresses, or it is sent to a
  cached one;
* `queued`, `awaited` and `answered` count the places of a put, and `WellKeyed` says that requests
  wait under their own key and id;
* `place_handleAddress`, `place_handleResponse`, `place_expireRequests`, `place_expirePuts` and
  `place_receiveAsync` say how the places change.
-/

namespace Demeter.Scheduler.Kvs

variable {σ : Type} (rand : σ → σ × ℕ) (routingThreads : List String)

/-! ### Trying a request -/

/-- The two clients differ in their messages, request ids and seeds only. -/
structure SameMaps (c c' : Client σ) : Prop where
  cache : c'.keyAddressCache = c.keyAddressCache
  request : c'.pendingRequest = c.pendingRequest
  get : c'.pendingGetResponse = c.pendingGetResponse
  put : c'.pendingPutResponse = c.pendingPutResponse

theorem SameMaps.refl (c : Client σ) : SameMaps c c := ⟨rfl, rfl, rfl, rfl⟩

/-- Request ids are handed out in order. -/
structure Advances (c c' : Client σ) : Prop where
  rid : c.rid = 2 * c.requestIds % 2 ^ 32 → c'.rid = 2 * c'.requestIds % 2 ^ 32
  le : c.requestIds ≤ c'.requestIds

theorem Advances.refl (c : Client σ) : Advances c c := ⟨id, le_rfl⟩

theorem Advances.trans {c c' c'' : Client σ} (h : Advances c c') (h' : Advances c' c'') :
    Advances c c'' := ⟨fun hc => h'.rid (h.rid hc), h.le.trans h'.le⟩

theorem getRequestId_advances (c : Client σ) : Advances c (getRequestId c).1 :=
  ⟨fun h => (getRequestId_eq h).2, Nat.le_succ _⟩

theorem queryRoutingAsync_maps (c : Client σ) (key : String) :
    SameMaps c (queryRoutingAsync rand routingThreads c key) := ⟨rfl, rfl, rfl, rfl⟩

theorem queryRoutingAsync_advances (c : Client σ) (key : String) :
    Advances c (queryRoutingAsync rand routingThreads c key) :=
  ⟨(getRequestId_advances c).rid, (getRequestId_advances c).le⟩

theorem sent_queryRoutingAsync (c : Client σ) (key : String) :
    ∃ thread requestId, (queryRoutingAsync rand routingThreads c key).sent =
      c.sent ++ [.routing thread requestId key] := ⟨_, _, rfl⟩

/-- What choosing a worker does: without a cached address, the routing tier is asked unless it was
already. -/
theorem getWorkerThread_cases (c : Client σ) (key : String) :
    (getWorkerThread rand routingThreads c key).2 = "" ∧
        ((getWorkerThread rand routingThreads c key).1 = c ∨
          (getWorkerThread rand routingThreads c key).1 =
            queryRoutingAsync rand routingThreads c key) ∨
      (∃ seed, (getWorkerThread rand routingThreads c key).1 = { c with seed := seed }) ∧
        (getWorkerThread rand routingThreads c key).2 ∈ insert "" (cached c key) := by
  unfold getWorkerThread getAllWorkerThreads
  by_cases hcached : cached c key = ∅
  · left
    simp only [if_pos hcached, if_true, true_and]
    split_ifs
    · exact .inl rfl
    · exact .inr rfl
  · right
    simp only [if_neg hcached]
    refine ⟨⟨_, rfl⟩, ?_⟩
    rw [List.getD_eq_getElem?_getD]
    cases hget : (Common.setItems (cached c key))[(rand c.seed).2 % (cached c key).card]? with
    | none => exact Finset.mem_insert_self _ _
    | some a =>
      exact Finset.mem_insert_of_mem
        ((Common.mem_setItems _).1 (List.mem_of_getElem? hget))

/-- What trying a request does. -/
theorem tryRequest_cases (now : ℕ) (c : Client σ) (request : KeyRequest) :
    ∃ c₁, SameMaps c c₁ ∧ Advances c c₁ ∧
      (tryRequest rand routingThreads now c request = enqueue now c₁ request ∧
          (c₁.sent = c.sent ∨ ∃ t i, c₁.sent = c.sent ++ [.routing t i request.key]) ∨
        ∃ worker ∈ cached c request.key, c₁.sent = c.sent ∧
          tryRequest rand routingThreads now c request = dispatch now c₁ worker request) := by
  obtain ⟨hempty, hc | hc⟩ | ⟨⟨seed, hc⟩, hmem⟩ :=
    getWorkerThread_cases rand routingThreads c request.key
  · refine ⟨c, .refl c, .refl c, .inl ⟨?_, .inl rfl⟩⟩
    simp only [tryRequest, hempty, hc, if_true]
  · refine ⟨_, queryRoutingAsync_maps rand routingThreads c request.key,
      queryRoutingAsync_advances rand routingThreads c request.key,
      .inl ⟨?_, .inr (sent_queryRoutingAsync rand routingThreads c request.key)⟩⟩
    simp only [tryRequest, hempty, hc, if_true]
  · refine ⟨{ c with seed := seed }, ⟨rfl, rfl, rfl, rfl⟩, ⟨id, le_rfl⟩, ?_⟩
    by_cases hempty : (getWorkerThread rand routingThreads c request.key).2 = ""
    · refine .inl ⟨?_, .inl rfl⟩
      simp only [tryRequest, hempty, hc, if_true]
    · refine .inr ⟨_, (Finset.mem_insert.1 hmem).resolve_left hempty, rfl, ?_⟩
      simp only [tryRequest, hc, if_neg hempty]

theorem enqueue_advances (now : ℕ) (c : Client σ) (request : KeyRequest) :
    Advances c (enqueue now c request) := ⟨id, le_rfl⟩

theorem dispatch_advances (now : ℕ) (c : Client σ) (worker : String) (request : KeyRequest) :
    Advances c (dispatch now c worker request) := by
  unfold dispatch
  cases request.type
  · exact ⟨id, le_rfl⟩
  · exact ⟨id, le_rfl⟩

theorem tryRequest_advances (now : ℕ) (c : Client σ) (request : KeyRequest) :
    Advances c (tryRequest rand routingThreads now c request) := by
  obtain ⟨c₁, -, hadv, ⟨htry, -⟩ | ⟨worker, -, -, htry⟩⟩ :=
    tryRequest_cases rand routingThreads now c request
  · exact htry ▸ hadv.trans (enqueue_advances now c₁ request)
  · exact htry ▸ hadv.trans (dispatch_advances now c₁ worker request)

/-! ### Where requests wait -/

/-- The requests that wait for the addresses of a key. -/
def queue (c : Client σ) (key : String) : List KeyRequest :=
  (c.pendingRequest.get? key).elim [] Prod.snd

/-- The put with this id. -/
def IsPut (id : ℕ) (request : KeyRequest) : Prop := request.type = .put ∧ request.requestId = id

instance IsPut.decidable (id : ℕ) (request : KeyRequest) : Decidable (IsPut id request) :=
  inferInstanceAs (Decidable (_ ∧ _))

/-- How often a put waits for the addresses of its key. -/
def queued (c : Client σ) (key : String) (id : ℕ) : ℕ := (queue c key).countP (IsPut id)

/-- How often a put waits for a response. -/
def awaited (c : Client σ) (key : String) (id : ℕ) : ℕ :=
  if Awaits c key id then 1 else 0

theorem awaited_eq (c : Client σ) (key : String) (id : ℕ) :
    awaited c key id = if (key, id) ∈ c.pendingPutResponse.keys then 1 else 0 :=
  if_congr Iff.rfl rfl rfl

/-- Requests wait under their key and, if they are sent, under their type and id. -/
structure WellKeyed (c : Client σ) : Prop where
  request : ∀ key, ∀ r ∈ queue c key, r.key = key
  get : ∀ key p, c.pendingGetResponse.get? key = some p →
    p.request.key = key ∧ p.request.type = .get
  put : ∀ key id p, c.pendingPutResponse.get? (key, id) = some p →
    p.request.key = key ∧ IsPut id p.request

theorem SameMaps.queue_eq {c c' : Client σ} (h : SameMaps c c') (key : String) :
    queue c' key = queue c key := by rw [queue, queue, h.request]

theorem SameMaps.awaited_eq {c c' : Client σ} (h : SameMaps c c') (key : String) (id : ℕ) :
    awaited c' key id = awaited c key id :=
  if_congr (by rw [Awaits, Awaits, h.put]) rfl rfl

theorem WellKeyed.of_maps {c c' : Client σ} (h : WellKeyed c) (hmaps : SameMaps c c') :
    WellKeyed c' where
  request key r hr := h.request key r (hmaps.queue_eq key ▸ hr)
  get key p hp := h.get key p (hmaps.get ▸ hp)
  put key id p hp := h.put key id p (hmaps.put ▸ hp)

section Place

variable (now : ℕ) (c : Client σ) (request : KeyRequest) (worker key : String) (id : ℕ)

theorem queue_enqueue : queue (enqueue now c request) key =
    if key = request.key then queue c key ++ [request] else queue c key := by
  simp only [enqueue, queue, Dict.get?_set]
  split_ifs with hkey
  · subst hkey
    cases c.pendingRequest.get? request.key <;> rfl
  · rfl

theorem awaited_enqueue : awaited (enqueue now c request) key id = awaited c key id := rfl

theorem queue_dispatch : queue (dispatch now c worker request) key = queue c key := by
  unfold dispatch
  cases request.type <;> rfl

theorem awaited_dispatch : awaited (dispatch now c worker request) key id =
    if request.key = key ∧ IsPut id request then 1 else awaited c key id := by
  unfold dispatch
  cases htype : request.type with
  | get =>
    rw [if_neg (by simp [IsPut, htype])]
    rfl
  | put =>
    simp only [awaited_eq, Dict.mem_keys_set, Prod.mk.injEq, IsPut, htype, true_and]
    by_cases h : request.key = key ∧ request.requestId = id
    · rw [if_pos h, if_pos (.inl ⟨h.1.symm, h.2.symm⟩)]
    · rw [if_neg h]
      refine if_congr (or_iff_right fun heq => h ⟨heq.1.symm, heq.2.symm⟩) rfl rfl

theorem get_dispatch {p : PendingRequest}
    (hp : (dispatch now c worker request).pendingGetResponse.get? key = some p) :
    (∃ p', c.pendingGetResponse.get? key = some p' ∧ p'.request = p.request) ∨
      p.request.key = key ∧ p.request.type = .get := by
  unfold dispatch at hp
  cases htype : request.type with
  | put =>
    rw [htype] at hp
    exact .inl ⟨p, hp, rfl⟩
  | get =>
    simp only [htype, Dict.get?_set] at hp
    split_ifs at hp with hkey
    · subst hkey
      obtain rfl := Option.some.inj hp
      cases hget : c.pendingGetResponse.get? request.key with
      | none => exact .inr ⟨rfl, rfl⟩
      | some p' => exact .inl ⟨p', rfl, rfl⟩
    · exact .inl ⟨p, hp, rfl⟩

theorem put_dispatch {p : PendingRequest}
    (hp : (dispatch now c worker request).pendingPutResponse.get? (key, id) = some p) :
    (∃ p', c.pendingPutResponse.get? (key, id) = some p' ∧ p'.request = p.request) ∨
      p.request.key = key ∧ IsPut id p.request := by
  unfold dispatch at hp
  cases htype : request.type with
  | get =>
    rw [htype] at hp
    exact .inl ⟨p, hp, rfl⟩
  | put =>
    simp only [htype, Dict.get?_set] at hp
    split_ifs at hp with hkey
    · obtain ⟨rfl, rfl⟩ := Prod.mk.inj hkey
      obtain rfl := Option.some.inj hp
      cases hget : c.pendingPutResponse.get? (request.key, request.requestId) with
      | none => exact .inr ⟨rfl, rfl, rfl⟩
      | some p' => exact .inl ⟨p', rfl, rfl⟩
    · exact .inl ⟨p, hp, rfl⟩

end Place

theorem WellKeyed.enqueue {c : Client σ} (h : WellKeyed c) (now : ℕ) (request : KeyRequest) :
    WellKeyed (enqueue now c request) where
  request key r hr := by
    rw [queue_enqueue] at hr
    split_ifs at hr with hkey
    · obtain hr | hr := List.mem_append.1 hr
      · exact h.request key r hr
      · rw [List.mem_singleton.1 hr, hkey]
    · exact h.request key r hr
  get := h.get
  put := h.put

theorem WellKeyed.dispatch {c : Client σ} (h : WellKeyed c) (now : ℕ) (worker : String)
    (request : KeyRequest) : WellKeyed (dispatch now c worker request) where
  request key r hr := h.request key r (queue_dispatch now c request worker key ▸ hr)
  get key p hp := by
    obtain ⟨p', hp', hreq⟩ | hnew := get_dispatch now c request worker key hp
    · exact hreq ▸ h.get key p' hp'
    · exact hnew
  put key id p hp := by
    obtain ⟨p', hp', hreq⟩ | hnew := put_dispatch now c request worker key id hp
    · exact hreq ▸ h.put key id p' hp'
    · exact hnew

theorem WellKeyed.tryRequest {c : Client σ} (h : WellKeyed c) (now : ℕ) (request : KeyRequest) :
    WellKeyed (tryRequest rand routingThreads now c request) := by
  obtain ⟨c₁, hmaps, -, ⟨htry, -⟩ | ⟨worker, -, -, htry⟩⟩ :=
    tryRequest_cases rand routingThreads now c request
  · exact htry ▸ (h.of_maps hmaps).enqueue now request
  · exact htry ▸ (h.of_maps hmaps).dispatch now worker request

/-- A put that is tried waits once more for addresses, or, if an address is cached, it waits for a
response. -/
theorem place_tryRequest {now : ℕ} {c c' : Client σ} {request : KeyRequest} {key : String} {id : ℕ}
    (hc' : tryRequest rand routingThreads now c request = c')
    (hput : request.key = key ∧ IsPut id request) :
    queued c' key id = queued c key id + 1 ∧ awaited c' key id = awaited c key id ∨
      queue c' key = queue c key ∧ awaited c' key id = 1 ∧ (cached c key).Nonempty := by
  obtain ⟨c₁, hmaps, -, ⟨htry, -⟩ | ⟨worker, hworker, -, htry⟩⟩ :=
    tryRequest_cases rand routingThreads now c request
  · left
    rw [← hc', htry, queued, queue_enqueue, if_pos hput.1.symm, hmaps.queue_eq, List.countP_append,
      awaited_enqueue, hmaps.awaited_eq]
    simp [hput.2, queued]
  · right
    rw [← hc', htry, queue_dispatch, hmaps.queue_eq, awaited_dispatch, if_pos hput]
    exact ⟨rfl, rfl, worker, hput.1 ▸ hworker⟩

/-- Other puts stay where they are. -/
theorem place_tryRequest_of_not {now : ℕ} {c c' : Client σ} {request : KeyRequest} {key : String}
    {id : ℕ} (hc' : tryRequest rand routingThreads now c request = c')
    (hnot : ¬ (request.key = key ∧ IsPut id request)) :
    queued c' key id = queued c key id ∧ awaited c' key id = awaited c key id := by
  obtain ⟨c₁, hmaps, -, ⟨htry, -⟩ | ⟨worker, -, -, htry⟩⟩ :=
    tryRequest_cases rand routingThreads now c request
  · rw [← hc', htry, queued, queue_enqueue, awaited_enqueue, hmaps.awaited_eq, hmaps.queue_eq]
    split_ifs with hkey
    · have hno : ¬ IsPut id request := fun h => hnot ⟨hkey.symm, h⟩
      rw [List.countP_append, queued]
      simp [hno]
    · exact ⟨rfl, rfl⟩
  · rw [← hc', htry, queued, queue_dispatch, hmaps.queue_eq, awaited_dispatch, if_neg hnot,
      hmaps.awaited_eq]
    exact ⟨rfl, rfl⟩

theorem queue_tryRequest_of_ne {now : ℕ} {c c' : Client σ} {request : KeyRequest} {key : String}
    (hc' : tryRequest rand routingThreads now c request = c') (hne : key ≠ request.key) :
    queue c' key = queue c key := by
  obtain ⟨c₁, hmaps, -, ⟨htry, -⟩ | ⟨worker, -, -, htry⟩⟩ :=
    tryRequest_cases rand routingThreads now c request
  · rw [← hc', htry, queue_enqueue, if_neg hne, hmaps.queue_eq]
  · rw [← hc', htry, queue_dispatch, hmaps.queue_eq]

/-! ### Responses of the routing tier -/

theorem tryAll_cons {now : ℕ} {key : String} {request : KeyRequest} {requests : List KeyRequest}
    {c c' : Client σ}
    (h : tryAll rand routingThreads now key c (request :: requests) = some c') :
    (tryRequest rand routingThreads now c request).pendingRequest.get? key =
        c.pendingRequest.get? key ∧
      tryAll rand routingThreads now key (tryRequest rand routingThreads now c request) requests =
        some c' := by
  rw [tryAll, List.foldlM_cons] at h
  obtain ⟨c₁, hc₁, hrest⟩ := Option.bind_eq_some_iff.1 h
  simp only [Option.ite_none_right_eq_some, Option.some.injEq] at hc₁
  obtain ⟨hsame, rfl⟩ := hc₁
  exact ⟨hsame, hrest⟩

/-- What trying each of a list of requests keeps. -/
theorem tryAll_invariant {P : Client σ → Prop} {now : ℕ} {key : String}
    (hP : ∀ c request, P c → P (tryRequest rand routingThreads now c request))
    {requests : List KeyRequest} {c c' : Client σ} (h : P c)
    (hrun : tryAll rand routingThreads now key c requests = some c') : P c' := by
  induction requests generalizing c with
  | nil => exact Option.some.inj hrun ▸ h
  | cons request requests ih =>
    exact ih (hP c request h) (tryAll_cons rand routingThreads hrun).2

/-- If it is defined, all requests are sent. -/
theorem place_tryAll {now : ℕ} {key : String} {requests : List KeyRequest}
    (hkeys : ∀ r ∈ requests, r.key = key) {c c' : Client σ}
    (hrun : tryAll rand routingThreads now key c requests = some c') :
    (∀ k, queue c' k = queue c k) ∧ ∀ k id, awaited c' k id =
      if k = key ∧ ∃ r ∈ requests, IsPut id r then 1 else awaited c k id := by
  induction requests generalizing c with
  | nil =>
    obtain rfl := Option.some.inj hrun
    simp
  | cons request requests ih =>
    obtain ⟨hsame, hrest⟩ := tryAll_cons rand routingThreads hrun
    obtain ⟨c₁, hc₁⟩ : ∃ c₁, tryRequest rand routingThreads now c request = c₁ := ⟨_, rfl⟩
    rw [hc₁] at hsame hrest
    have hkey : request.key = key := hkeys request List.mem_cons_self
    obtain ⟨hqueue, hawaited⟩ := ih (fun r hr => hkeys r (List.mem_cons_of_mem _ hr)) hrest
    have hqueue₁ : ∀ k, queue c₁ k = queue c k := by
      intro k
      by_cases hk : k = key
      · rw [queue, queue, hk, hsame]
      · exact queue_tryRequest_of_ne rand routingThreads hc₁ (hkey ▸ hk)
    refine ⟨fun k => (hqueue k).trans (hqueue₁ k), fun k id => ?_⟩
    rw [hawaited]
    by_cases hput : request.key = k ∧ IsPut id request
    · -- it is not back in the queue
      have hone : awaited c₁ k id = 1 := by
        obtain ⟨hmore, -⟩ | ⟨-, hone, -⟩ := place_tryRequest rand routingThreads hc₁ hput
        · rw [queued, hqueue₁, queued] at hmore
          omega
        · exact hone
      have hhit : k = key ∧ ∃ r ∈ request :: requests, IsPut id r :=
        ⟨hput.1.symm.trans hkey, request, List.mem_cons_self, hput.2⟩
      rw [if_pos hhit, hone, ite_self]
    · have hsame := (place_tryRequest_of_not rand routingThreads hc₁ hput).2
      have hiff : (k = key ∧ ∃ r ∈ request :: requests, IsPut id r) ↔
          k = key ∧ ∃ r ∈ requests, IsPut id r := by
        refine and_congr_right fun hk => ?_
        have hno : ¬ IsPut id request := fun h => hput ⟨hkey.trans hk.symm, h⟩
        simp [hno]
      rw [hsame]
      exact (if_congr hiff rfl rfl).symm

theorem handleAddress_cases {now : ℕ} {c c' : Client σ} {a : KeyAddressResponse}
    (h : handleAddress rand routingThreads now c a = some c') :
    c' = c ∨
      c' = queryRoutingAsync rand routingThreads
        { c with pendingRequest := c.pendingRequest.set a.key (now, queue c a.key) } a.key ∨
      ∃ c₁, tryAll rand routingThreads now a.key
          { c with
            keyAddressCache := a.ips.foldl
              (fun m ip => m.set a.key (insert ip ((m.get? a.key).getD ∅))) c.keyAddressCache }
          (queue c a.key) = some c₁ ∧
        c' = { c₁ with pendingRequest := c₁.pendingRequest.erase a.key } := by
  rw [handleAddress] at h
  cases hget : c.pendingRequest.get? a.key with
  | none =>
    rw [hget] at h
    exact .inl (Option.some.inj h).symm
  | some pending =>
    have hqueue : queue c a.key = pending.2 := by rw [queue, hget]; rfl
    simp only [hget] at h
    rw [hqueue]
    split_ifs at h
    · exact .inr (.inl (Option.some.inj h).symm)
    · obtain ⟨c₁, hc₁, hc'⟩ := Option.map_eq_some_iff.1 h
      exact .inr (.inr ⟨c₁, hc₁, hc'.symm⟩)

theorem queue_set (c : Client σ) (key k : String) (p : ℕ × List KeyRequest) :
    queue { c with pendingRequest := c.pendingRequest.set key p } k =
      if k = key then p.2 else queue c k := by
  simp only [queue, Dict.get?_set]
  split_ifs <;> rfl

theorem queue_erase (c : Client σ) (key k : String) :
    queue { c with pendingRequest := c.pendingRequest.erase key } k =
      if k = key then [] else queue c k := by
  simp only [queue, Dict.get?_erase]
  split_ifs <;> rfl

/-- A response of the routing tier takes no put away, and makes no copy of one. -/
theorem place_handleAddress {now : ℕ} {c c' : Client σ} (hwell : WellKeyed c)
    {a : KeyAddressResponse} (h : handleAddress rand routingThreads now c a = some c')
    (key : String) (id : ℕ) :
    queued c' key id + awaited c' key id ≤ queued c key id + awaited c key id ∧
      (0 < queued c key id + awaited c key id → 0 < queued c' key id + awaited c' key id) := by
  obtain rfl | rfl | ⟨c₁, hall, rfl⟩ := handleAddress_cases rand routingThreads h
  · exact ⟨le_rfl, fun h => h⟩
  · have hqueue : queue (queryRoutingAsync rand routingThreads
        { c with pendingRequest := c.pendingRequest.set a.key (now, queue c a.key) } a.key) key =
          queue c key := by
      rw [(queryRoutingAsync_maps rand routingThreads _ _).queue_eq, queue_set]
      split_ifs with hk
      · rw [hk]
      · rfl
    have hawaited : awaited (queryRoutingAsync rand routingThreads
        { c with pendingRequest := c.pendingRequest.set a.key (now, queue c a.key) } a.key) key id =
          awaited c key id := rfl
    rw [queued, hqueue, hawaited, queued]
    exact ⟨le_rfl, fun h => h⟩
  · obtain ⟨hqueue, hawaited⟩ := place_tryAll rand routingThreads (hwell.request a.key) hall
    have hq₁ : queue c₁ key = queue c key := hqueue key
    have ha₁ : awaited c₁ key id =
        if key = a.key ∧ ∃ r ∈ queue c a.key, IsPut id r then 1 else awaited c key id :=
      hawaited key id
    have ha' : awaited { c₁ with pendingRequest := c₁.pendingRequest.erase a.key } key id =
        awaited c₁ key id := rfl
    rw [queued, queue_erase, ha', ha₁, hq₁]
    by_cases hk : key = a.key
    · subst hk
      have hpos : (∃ r ∈ queue c a.key, IsPut id r) ↔ 0 < queued c a.key id := by
        rw [queued, List.countP_pos_iff]
        simp
      rw [if_pos rfl, List.countP_nil]
      by_cases hex : ∃ r ∈ queue c a.key, IsPut id r
      · have hq := hpos.1 hex
        rw [if_pos ⟨rfl, hex⟩]
        omega
      · have hq : queued c a.key id = 0 := Nat.eq_zero_of_not_pos fun h => hex (hpos.2 h)
        rw [if_neg fun h => hex h.2]
        omega
    · rw [if_neg hk, if_neg fun h => hk h.1]
      exact ⟨le_rfl, fun h => h⟩

theorem WellKeyed.handleAddress {now : ℕ} {c c' : Client σ} (hwell : WellKeyed c)
    {a : KeyAddressResponse} (h : handleAddress rand routingThreads now c a = some c') :
    WellKeyed c' := by
  obtain rfl | rfl | ⟨c₁, hall, rfl⟩ := handleAddress_cases rand routingThreads h
  · exact hwell
  · refine WellKeyed.of_maps ?_ (queryRoutingAsync_maps rand routingThreads _ _)
    refine ⟨fun k r hr => ?_, hwell.get, hwell.put⟩
    rw [queue_set] at hr
    split_ifs at hr with hk
    · exact hk ▸ hwell.request a.key r hr
    · exact hwell.request k r hr
  · have hwell₁ : WellKeyed c₁ := by
      refine tryAll_invariant rand routingThreads
        (fun c request hc => hc.tryRequest rand routingThreads now request) ?_ hall
      exact ⟨hwell.request, hwell.get, hwell.put⟩
    refine ⟨fun k r hr => ?_, hwell₁.get, hwell₁.put⟩
    rw [queue_erase] at hr
    split_ifs at hr
    · cases hr
    · exact hwell₁.request k r hr

theorem handleAddress_advances {now : ℕ} {c c' : Client σ} {a : KeyAddressResponse}
    (h : handleAddress rand routingThreads now c a = some c') : Advances c c' := by
  obtain rfl | rfl | ⟨c₁, hall, rfl⟩ := handleAddress_cases rand routingThreads h
  · exact .refl _
  · have hadv := queryRoutingAsync_advances rand routingThreads
      { c with pendingRequest := c.pendingRequest.set a.key (now, queue c a.key) } a.key
    exact ⟨hadv.rid, hadv.le⟩
  · have hadv : Advances c c₁ := by
      refine tryAll_invariant rand routingThreads
        (fun c₂ request hc => hc.trans (tryRequest_advances rand routingThreads now c₂ request)) ?_
        hall
      exact ⟨fun h => h, le_rfl⟩
    exact ⟨hadv.rid, hadv.le⟩

/-! ### Responses of the workers -/

/-- How often a put was answered. -/
def answered (responses : List KeyResponse) (key : String) (id : ℕ) : ℕ :=
  responses.countP fun r => r.type = .put ∧ r.key = key ∧ r.responseId = id

theorem answered_append (rs rs' : List KeyResponse) (key : String) (id : ℕ) :
    answered (rs ++ rs') key id = answered rs key id + answered rs' key id := List.countP_append

/-- The client after a response is checked. -/
theorem checkTuple_cases (c : Client σ) (response : KeyResponse) :
    ∃ cache, (checkTuple c response).1 = { c with keyAddressCache := cache } ∧
      (∀ k, (cache.get? k).getD ∅ ⊆ cached c k) ∧
      (if response.tupleError = .wrongThread then
        (checkTuple c response).2 = true ∧ (cache.get? response.key).getD ∅ = ∅
      else (checkTuple c response).2 = false) := by
  have herase : ∀ k, ((c.keyAddressCache.erase response.key).get? k).getD ∅ ⊆ cached c k := by
    intro k
    rw [Dict.get?_erase, cached]
    split_ifs
    · exact Finset.empty_subset _
    · exact Finset.Subset.refl _
  unfold checkTuple
  split_ifs
  · refine ⟨_, rfl, herase, rfl, ?_⟩
    rw [Dict.get?_erase, if_pos rfl]
    rfl
  · exact ⟨_, rfl, herase, rfl⟩
  · exact ⟨_, rfl, fun k => Finset.Subset.refl _, rfl⟩

/-- What a response of a worker does. -/
theorem handleResponse_cases (now : ℕ) (c : Client σ) (response : KeyResponse) :
    handleResponse rand routingThreads now c response = (c, []) ∧
        refusedPut c response = [] ∨
      ∃ cache, (∀ k, (cache.get? k).getD ∅ ⊆ cached c k) ∧
        (response.type = .get ∧ refusedPut c response = [] ∧
            (∃ p, c.pendingGetResponse.get? response.key = some p ∧
              ((cache.get? response.key).getD ∅ = ∅ ∧
                  handleResponse rand routingThreads now c response =
                    (tryRequest rand routingThreads now
                      { c with
                        keyAddressCache := cache
                        pendingGetResponse :=
                          c.pendingGetResponse.set response.key { p with tp := now } }
                      p.request, []) ∨
                handleResponse rand routingThreads now c response =
                  ({ c with
                    keyAddressCache := cache
                    pendingGetResponse := c.pendingGetResponse.erase response.key },
                    [response]))) ∨
          response.type = .put ∧
            ∃ p, c.pendingPutResponse.get? (response.key, response.responseId) = some p ∧
              ((cache.get? response.key).getD ∅ = ∅ ∧
                  refusedPut c response = [(response.key, response.responseId)] ∧
                  handleResponse rand routingThreads now c response =
                    (tryRequest rand routingThreads now
                      { c with
                        keyAddressCache := cache
                        pendingPutResponse :=
                          c.pendingPutResponse.set (response.key, response.responseId)
                            { p with tp := now } }
                      p.request, []) ∨
                refusedPut c response = [] ∧
                  handleResponse rand routingThreads now c response =
                    ({ c with
                      keyAddressCache := cache
                      pendingPutResponse :=
                        c.pendingPutResponse.erase (response.key, response.responseId) },
                      [response]))) := by
  obtain ⟨cache, hcheck, hsub, hagain⟩ := checkTuple_cases c response
  cases htype : response.type with
  | get =>
    have hrefused : refusedPut c response = [] := by simp [refusedPut, htype]
    cases hget : c.pendingGetResponse.get? response.key with
    | none =>
      left
      simp [handleResponse, htype, hget, hrefused]
    | some p =>
      refine .inr ⟨cache, hsub, .inl ⟨rfl, hrefused, p, rfl, ?_⟩⟩
      simp only [handleResponse, htype, hget, hcheck]
      split_ifs at hagain with hwrong
      · exact .inl ⟨hagain.2, by rw [if_pos hagain.1]⟩
      · exact .inr (by rw [hagain, if_neg Bool.false_ne_true])
  | put =>
    cases hget : c.pendingPutResponse.get? (response.key, response.responseId) with
    | none =>
      left
      have hnot : (response.key, response.responseId) ∉ c.pendingPutResponse.keys :=
        Dict.get?_eq_none_iff.1 hget
      simp [handleResponse, htype, hget, refusedPut, Awaits, hnot]
    | some p =>
      have hmem : (response.key, response.responseId) ∈ c.pendingPutResponse.keys :=
        Dict.mem_keys_iff.2 ⟨p, hget⟩
      refine .inr ⟨cache, hsub, .inr ⟨rfl, p, rfl, ?_⟩⟩
      simp only [handleResponse, htype, hget, hcheck]
      split_ifs at hagain with hwrong
      · exact .inl ⟨hagain.2, by simp [refusedPut, Awaits, htype, hwrong, hmem],
          by rw [if_pos hagain.1]⟩
      · exact .inr ⟨by simp [refusedPut, hwrong], by rw [hagain, if_neg Bool.false_ne_true]⟩

theorem WellKeyed.handleResponse {c : Client σ} (hwell : WellKeyed c) (now : ℕ)
    (response : KeyResponse) :
    WellKeyed (handleResponse rand routingThreads now c response).1 := by
  obtain ⟨h, -⟩ | ⟨cache, -, ⟨-, -, p, hp, ⟨-, h⟩ | h⟩ | ⟨-, p, hp, ⟨-, -, h⟩ | ⟨-, h⟩⟩⟩ :=
    handleResponse_cases rand routingThreads now c response
  · rwa [h]
  · rw [h]
    refine WellKeyed.tryRequest rand routingThreads ?_ _ _
    refine ⟨hwell.request, fun k q hq => ?_, hwell.put⟩
    simp only [Dict.get?_set] at hq
    split_ifs at hq with hk
    · obtain rfl := Option.some.inj hq
      exact hk ▸ hwell.get response.key p hp
    · exact hwell.get k q hq
  · rw [h]
    refine ⟨hwell.request, fun k q hq => ?_, hwell.put⟩
    simp only [Dict.get?_erase] at hq
    split_ifs at hq
    exact hwell.get k q hq
  · rw [h]
    refine WellKeyed.tryRequest rand routingThreads ?_ _ _
    refine ⟨hwell.request, hwell.get, fun k id q hq => ?_⟩
    simp only [Dict.get?_set] at hq
    split_ifs at hq with hk
    · obtain ⟨rfl, rfl⟩ := Prod.mk.inj hk
      obtain rfl := Option.some.inj hq
      exact hwell.put response.key response.responseId p hp
    · exact hwell.put k id q hq
  · rw [h]
    refine ⟨hwell.request, hwell.get, fun k id q hq => ?_⟩
    simp only [Dict.get?_erase] at hq
    split_ifs at hq
    exact hwell.put k id q hq

theorem handleResponse_advances (now : ℕ) (c : Client σ) (response : KeyResponse) :
    Advances c (handleResponse rand routingThreads now c response).1 := by
  obtain ⟨h, -⟩ | ⟨cache, -, ⟨-, -, p, hp, ⟨-, h⟩ | h⟩ | ⟨-, p, hp, ⟨-, -, h⟩ | ⟨-, h⟩⟩⟩ :=
    handleResponse_cases rand routingThreads now c response
  · rw [h]
    exact .refl c
  · rw [h]
    have hadv := tryRequest_advances rand routingThreads now
      { c with
        keyAddressCache := cache
        pendingGetResponse := c.pendingGetResponse.set response.key { p with tp := now } } p.request
    exact ⟨hadv.rid, hadv.le⟩
  · rw [h]
    exact ⟨fun h => h, le_rfl⟩
  · rw [h]
    have hadv := tryRequest_advances rand routingThreads now
      { c with
        keyAddressCache := cache
        pendingPutResponse := c.pendingPutResponse.set (response.key, response.responseId)
          { p with tp := now } } p.request
    exact ⟨hadv.rid, hadv.le⟩
  · rw [h]
    exact ⟨fun h => h, le_rfl⟩

/-- A response answers a put that waits for it; if it refuses the put, there is a further copy. -/
theorem place_handleResponse {c : Client σ} (hwell : WellKeyed c) (now : ℕ)
    (response : KeyResponse) (key : String) (id : ℕ) :
    queued (handleResponse rand routingThreads now c response).1 key id +
        awaited (handleResponse rand routingThreads now c response).1 key id +
        answered (handleResponse rand routingThreads now c response).2 key id =
      queued c key id + awaited c key id + (refusedPut c response).count (key, id) := by
  obtain ⟨h, href⟩ | ⟨cache, -, ⟨htype, href, p, hp, ⟨-, h⟩ | h⟩ |
      ⟨htype, p, hp, ⟨hempty, href, h⟩ | ⟨href, h⟩⟩⟩ :=
    handleResponse_cases rand routingThreads now c response
  · rw [h, href]
    rfl
  · -- a get is tried again
    have hget := (hwell.get response.key p hp).2
    have hnot : ¬ (p.request.key = key ∧ IsPut id p.request) := by simp [IsPut, hget]
    obtain ⟨hqueued, hawaited⟩ := place_tryRequest_of_not rand routingThreads rfl hnot
    rw [h, href, hqueued, hawaited]
    rfl
  · rw [h, href]
    simp [answered, htype, queued, queue, awaited_eq]
  · obtain ⟨hkey, hput⟩ := hwell.put response.key response.responseId p hp
    have hmem : (response.key, response.responseId) ∈ c.pendingPutResponse.keys :=
      Dict.mem_keys_iff.2 ⟨p, hp⟩
    have hstart : awaited { c with
          keyAddressCache := cache
          pendingPutResponse := c.pendingPutResponse.set (response.key, response.responseId)
            { p with tp := now } } key id = awaited c key id := by
      refine if_congr ?_ rfl rfl
      rw [Awaits, Dict.mem_keys_set]
      exact or_iff_right_of_imp fun heq => heq ▸ hmem
    have hiff : p.request.key = key ∧ IsPut id p.request ↔
        (response.key, response.responseId) = (key, id) := by
      rw [hkey, Prod.mk.injEq]
      exact and_congr_right fun _ =>
        ⟨fun h => hput.2.symm.trans h.2, fun h => ⟨hput.1, hput.2.trans h⟩⟩
    have hcount : [(response.key, response.responseId)].count (key, id) =
        if p.request.key = key ∧ IsPut id p.request then 1 else 0 := by
      rw [if_congr hiff rfl rfl, List.count_singleton]
      simp only [beq_iff_eq]
    rw [h, href, hcount]
    split_ifs with hhit
    · -- there is no cached address, so it waits for one
      obtain ⟨hmore, hsame⟩ | ⟨-, -, hsome⟩ := place_tryRequest rand routingThreads rfl hhit
      · rw [hmore, hsame, hstart]
        have hqueued : queued { c with
            keyAddressCache := cache
            pendingPutResponse := c.pendingPutResponse.set (response.key, response.responseId)
              { p with tp := now } } key id = queued c key id := rfl
        rw [hqueued]
        simp only [answered, List.countP_nil]
        omega
      · have hnone : cached { c with
            keyAddressCache := cache
            pendingPutResponse := c.pendingPutResponse.set (response.key, response.responseId)
              { p with tp := now } } key = ∅ := by
          rw [cached, ← hhit.1, hkey]
          exact hempty
        rw [hnone] at hsome
        exact absurd hsome Finset.not_nonempty_empty
    · obtain ⟨hqueued, hawaited⟩ := place_tryRequest_of_not rand routingThreads rfl hhit
      rw [hqueued, hawaited, hstart]
      rfl
  · -- the answer that it waits for
    have hmem : (response.key, response.responseId) ∈ c.pendingPutResponse.keys :=
      Dict.mem_keys_iff.2 ⟨p, hp⟩
    have hafter : awaited { c with
          keyAddressCache := cache
          pendingPutResponse := c.pendingPutResponse.erase (response.key, response.responseId) }
          key id + answered [response] key id = awaited c key id := by
      simp only [awaited_eq, answered, Dict.mem_keys_erase, List.countP_singleton, htype, true_and,
        decide_eq_true_eq]
      by_cases hk : (key, id) = (response.key, response.responseId)
      · obtain ⟨rfl, rfl⟩ := Prod.mk.inj hk
        simp [hmem]
      · have hno : ¬ (response.key = key ∧ response.responseId = id) := fun h =>
          hk (Prod.ext h.1.symm h.2.symm)
        simp [hk, hno]
    rw [h, href, List.count_nil, Nat.add_zero, Nat.add_assoc, hafter]
    rfl

/-! ### What has waited too long -/

section Expire

variable (timeout : ℕ)

theorem invalidateCacheForWorker_eq {c c' : Client σ} {worker : String}
    (h : invalidateCacheForWorker c worker = some c') :
    ∃ cache, c' = { c with keyAddressCache := cache } ∧
      ∀ k, (cache.get? k).getD ∅ ⊆ cached c k := by
  rw [invalidateCacheForWorker] at h
  split_ifs at h
  refine ⟨_, (Option.some.inj h).symm, fun k => ?_⟩
  rw [Dict.get?_filter, cached]
  cases hget : c.keyAddressCache.get? k with
  | none => exact Finset.Subset.refl _
  | some addresses =>
    rw [Option.filter_some]
    split_ifs
    · exact Finset.Subset.refl _
    · exact Finset.empty_subset _

/-- Only cached addresses are removed. -/
theorem invalidate_all {α : Type} {f : α → String} {l : List α} {c c' : Client σ}
    (h : l.foldlM (fun c a => invalidateCacheForWorker c (f a)) c = some c') :
    ∃ cache, c' = { c with keyAddressCache := cache } ∧
      ∀ k, (cache.get? k).getD ∅ ⊆ cached c k := by
  induction l generalizing c with
  | nil => exact ⟨c.keyAddressCache, (Option.some.inj h).symm, fun k => Finset.Subset.refl _⟩
  | cons a l ih =>
    rw [List.foldlM_cons] at h
    obtain ⟨c₁, hc₁, hrest⟩ := Option.bind_eq_some_iff.1 h
    obtain ⟨cache₁, rfl, hsub₁⟩ := invalidateCacheForWorker_eq hc₁
    obtain ⟨cache, rfl, hsub⟩ := ih hrest
    exact ⟨cache, rfl, fun k => (hsub k).trans (hsub₁ k)⟩

theorem queue_expireRequests (now : ℕ) (c : Client σ) (key : String) :
    queue (expireRequests timeout now c).1 key =
      if ∃ p ∈ c.pendingRequest.get? key, Expired timeout now p.1 then [] else queue c key := by
  simp only [queue, expireRequests, Dict.get?_filter]
  cases c.pendingRequest.get? key with
  | none => simp
  | some p => by_cases hp : Expired timeout now p.1 <;> simp [Option.filter_some, hp]

theorem answered_badResponses (requests : List KeyRequest) (key : String) (id : ℕ) :
    answered (requests.map generateBadResponse) key id =
      requests.countP fun r => r.key = key ∧ IsPut id r := by
  rw [answered, List.countP_map]
  refine List.countP_congr fun r _ => ?_
  rw [Function.comp_apply, decide_eq_true_iff, decide_eq_true_iff]
  show r.type = .put ∧ r.key = key ∧ r.requestId = id ↔
    r.key = key ∧ r.type = .put ∧ r.requestId = id
  exact and_left_comm

/-- The requests that have waited too long for addresses are answered. -/
theorem place_expireRequests {c : Client σ} (hwell : WellKeyed c) (now : ℕ) (key : String)
    (id : ℕ) :
    queued (expireRequests timeout now c).1 key id +
        answered (expireRequests timeout now c).2 key id = queued c key id := by
  have hbad : answered (expireRequests timeout now c).2 key id =
      (((c.pendingRequest.filter fun _ p => Expired timeout now p.1).entries.map fun e =>
        answered (e.2.2.map generateBadResponse) key id)).sum := by
    rw [expireRequests, answered, List.countP_flatMap]
    rfl
  have hone := Dict.sum_entries_of_key
    (d := c.pendingRequest.filter fun _ p => decide (Expired timeout now p.1)) (k := key)
    (f := fun e => answered (e.2.2.map generateBadResponse) key id) ?_
  · rw [hbad, hone, Dict.get?_filter, queued, queue_expireRequests, queued]
    cases hget : c.pendingRequest.get? key with
    | none => simp
    | some p =>
      have hqueue : queue c key = p.2 := by rw [queue, hget]; rfl
      have hcount : answered (p.2.map generateBadResponse) key id =
          p.2.countP fun r => IsPut id r := by
        rw [answered_badResponses]
        refine List.countP_congr fun r hr => ?_
        have hkey := hwell.request key r (hqueue ▸ hr)
        simp [hkey]
      by_cases hp : Expired timeout now p.1
      · simp [Option.filter_some, hp, hcount, hqueue]
      · simp [Option.filter_some, hp]
  · -- requests wait under their own key
    intro e he hne
    obtain ⟨he, -⟩ := List.mem_filter.1 he
    have hqueue : queue c e.1 = e.2.2 := by
      rw [queue, Dict.mem_entries_iff.1 he]
      rfl
    rw [answered_badResponses, List.countP_eq_zero]
    intro r hr hput
    have hkey := hwell.request e.1 r (hqueue ▸ hr)
    exact hne (hkey.symm.trans (of_decide_eq_true hput).1)

theorem expireGets_eq {now : ℕ} {c c' : Client σ} {rs : List KeyResponse}
    (h : expireGets timeout now c = some (c', rs)) :
    ∃ cache, (∀ k, (cache.get? k).getD ∅ ⊆ cached c k) ∧
      c' = { c with
        keyAddressCache := cache
        pendingGetResponse := c.pendingGetResponse.filter fun _ p => ¬ Expired timeout now p.tp } ∧
      rs = (c.pendingGetResponse.entries.filter fun e => Expired timeout now e.2.tp).map
        fun e => generateBadResponse e.2.request := by
  obtain ⟨c₁, hc₁, heq⟩ := Option.map_eq_some_iff.1 h
  obtain ⟨rfl, rfl⟩ := Prod.mk.inj heq
  obtain ⟨cache, rfl, hsub⟩ := invalidate_all hc₁
  exact ⟨cache, hsub, rfl, rfl⟩

theorem expirePuts_eq {now : ℕ} {c c' : Client σ} {rs : List KeyResponse}
    (h : expirePuts timeout now c = some (c', rs)) :
    ∃ cache, (∀ k, (cache.get? k).getD ∅ ⊆ cached c k) ∧
      c' = { c with
        keyAddressCache := cache
        pendingPutResponse := c.pendingPutResponse.filter fun _ p => ¬ Expired timeout now p.tp } ∧
      rs = (c.pendingPutResponse.entries.filter fun e => Expired timeout now e.2.tp).map
        fun e => generateBadResponse e.2.request := by
  obtain ⟨c₁, hc₁, heq⟩ := Option.map_eq_some_iff.1 h
  obtain ⟨rfl, rfl⟩ := Prod.mk.inj heq
  obtain ⟨cache, rfl, hsub⟩ := invalidate_all hc₁
  exact ⟨cache, hsub, rfl, rfl⟩

/-- The puts that have waited too long for a response are answered. -/
theorem place_expirePuts {now : ℕ} {c c' : Client σ} {rs : List KeyResponse} (hwell : WellKeyed c)
    (h : expirePuts timeout now c = some (c', rs)) (key : String) (id : ℕ) :
    queue c' key = queue c key ∧ awaited c' key id + answered rs key id = awaited c key id := by
  obtain ⟨cache, -, rfl, rfl⟩ := expirePuts_eq timeout h
  refine ⟨rfl, ?_⟩
  have hbad : answered ((c.pendingPutResponse.entries.filter fun e =>
        Expired timeout now e.2.tp).map fun e => generateBadResponse e.2.request) key id =
      (c.pendingPutResponse.filter fun _ p => Expired timeout now p.tp).keys.count (key, id) := by
    rw [answered, Dict.keys, List.count_eq_countP, List.countP_map, List.countP_map]
    refine List.countP_congr fun e he => ?_
    -- puts wait under their own key and id
    obtain ⟨hkey, htype, hid⟩ := hwell.put e.1.1 e.1.2 e.2
      (Dict.mem_entries_iff.1 (List.mem_of_mem_filter he))
    rw [Function.comp_apply, Function.comp_apply, decide_eq_true_iff, beq_iff_eq]
    show e.2.request.type = .put ∧ e.2.request.key = key ∧ e.2.request.requestId = id ↔
      e.1 = (key, id)
    rw [htype, hkey, hid, Prod.ext_iff]
    exact and_iff_right rfl
  have hnodup : (c.pendingPutResponse.filter fun _ p => Expired timeout now p.tp).keys.Nodup :=
    Dict.nodup _
  rw [hbad, hnodup.count]
  simp only [awaited_eq]
  cases hget : c.pendingPutResponse.get? (key, id) with
  | none =>
    have hnot : (key, id) ∉ c.pendingPutResponse.keys := Dict.get?_eq_none_iff.1 hget
    simp [Dict.mem_keys_filter, hget, hnot]
  | some p =>
    have hmem : (key, id) ∈ c.pendingPutResponse.keys := Dict.mem_keys_iff.2 ⟨p, hget⟩
    by_cases hp : Expired timeout now p.tp <;> simp [Dict.mem_keys_filter, hget, hmem, hp]

/-- Gets that have waited too long answer no put. -/
theorem answered_expireGets {now : ℕ} {c c' : Client σ} {rs : List KeyResponse}
    (hwell : WellKeyed c) (h : expireGets timeout now c = some (c', rs)) (key : String) (id : ℕ) :
    answered rs key id = 0 := by
  obtain ⟨cache, -, -, rfl⟩ := expireGets_eq timeout h
  rw [answered, List.countP_eq_zero]
  intro r hr hput
  obtain ⟨e, he, rfl⟩ := List.mem_map.1 hr
  have htype := (hwell.get e.1 e.2 (Dict.mem_entries_iff.1 (List.mem_of_mem_filter he))).2
  have hput : e.2.request.type = .put := (of_decide_eq_true hput).1
  rw [htype] at hput
  cases hput

/-! ### Receiving -/

theorem WellKeyed.expireRequests {c : Client σ} (hwell : WellKeyed c) (now : ℕ) :
    WellKeyed (expireRequests timeout now c).1 where
  request k r hr := by
    rw [queue_expireRequests] at hr
    split_ifs at hr
    · cases hr
    · exact hwell.request k r hr
  get := hwell.get
  put := hwell.put

theorem WellKeyed.expireGets {now : ℕ} {c c' : Client σ} {rs : List KeyResponse}
    (hwell : WellKeyed c) (h : expireGets timeout now c = some (c', rs)) : WellKeyed c' := by
  obtain ⟨cache, -, rfl, -⟩ := expireGets_eq timeout h
  refine ⟨hwell.request, fun k p hp => ?_, hwell.put⟩
  rw [Dict.get?_filter, Option.filter_eq_some_iff] at hp
  exact hwell.get k p hp.1

theorem WellKeyed.expirePuts {now : ℕ} {c c' : Client σ} {rs : List KeyResponse}
    (hwell : WellKeyed c) (h : expirePuts timeout now c = some (c', rs)) : WellKeyed c' := by
  obtain ⟨cache, -, rfl, -⟩ := expirePuts_eq timeout h
  refine ⟨hwell.request, hwell.get, fun k id p hp => ?_⟩
  rw [Dict.get?_filter, Option.filter_eq_some_iff] at hp
  exact hwell.put k id p hp.1

/-- The parts of receiving. -/
theorem receiveAsync_eq {now : ℕ} {c c' : Client σ} {addresses : Option KeyAddressResponse}
    {response : Option KeyResponse} {rs : List KeyResponse}
    (h : receiveAsync rand routingThreads timeout now c addresses response = some (c', rs)) :
    ∃ c₁, addresses.elim (some c) (handleAddress rand routingThreads now c) = some c₁ ∧
      ∃ c₂ answer, response.elim (c₁, []) (handleResponse rand routingThreads now c₁) =
          (c₂, answer) ∧
        ∃ c₃ badGets, expireGets timeout now (expireRequests timeout now c₂).1 =
            some (c₃, badGets) ∧
          ∃ badPuts, expirePuts timeout now c₃ = some (c', badPuts) ∧
            rs = answer ++ (expireRequests timeout now c₂).2 ++ badGets ++ badPuts := by
  obtain ⟨c₁, hc₁, h⟩ := Option.bind_eq_some_iff.1 h
  obtain ⟨⟨c₃, badGets⟩, hc₃, h⟩ := Option.bind_eq_some_iff.1 h
  obtain ⟨⟨c₄, badPuts⟩, hc₄, h⟩ := Option.bind_eq_some_iff.1 h
  obtain ⟨rfl, rfl⟩ := Prod.mk.inj (Option.some.inj h)
  exact ⟨c₁, hc₁, _, _, rfl, c₃, badGets, hc₃, badPuts, hc₄, rfl⟩

theorem WellKeyed.receiveAsync {now : ℕ} {c c' : Client σ}
    {addresses : Option KeyAddressResponse} {response : Option KeyResponse} {rs : List KeyResponse}
    (hwell : WellKeyed c)
    (h : receiveAsync rand routingThreads timeout now c addresses response = some (c', rs)) :
    WellKeyed c' := by
  obtain ⟨c₁, hc₁, c₂, answer, hc₂, c₃, badGets, hc₃, badPuts, hc₄, -⟩ :=
    receiveAsync_eq rand routingThreads timeout h
  have hwell₁ : WellKeyed c₁ := by
    cases addresses with
    | none => exact Option.some.inj hc₁ ▸ hwell
    | some a => exact hwell.handleAddress rand routingThreads hc₁
  have hwell₂ : WellKeyed c₂ := by
    cases response with
    | none => exact (Prod.mk.inj hc₂).1 ▸ hwell₁
    | some r =>
      have hr := hwell₁.handleResponse rand routingThreads now r
      rwa [show Kvs.handleResponse rand routingThreads now c₁ r = (c₂, answer) from hc₂] at hr
  exact ((hwell₂.expireRequests timeout now).expireGets timeout hc₃).expirePuts timeout hc₄

theorem receiveAsync_advances {now : ℕ} {c c' : Client σ}
    {addresses : Option KeyAddressResponse} {response : Option KeyResponse} {rs : List KeyResponse}
    (h : receiveAsync rand routingThreads timeout now c addresses response = some (c', rs)) :
    Advances c c' := by
  obtain ⟨c₁, hc₁, c₂, answer, hc₂, c₃, badGets, hc₃, badPuts, hc₄, -⟩ :=
    receiveAsync_eq rand routingThreads timeout h
  have hadv₁ : Advances c c₁ := by
    cases addresses with
    | none => exact Option.some.inj hc₁ ▸ .refl c
    | some a => exact handleAddress_advances rand routingThreads hc₁
  have hadv₂ : Advances c₁ c₂ := by
    cases response with
    | none => exact (Prod.mk.inj hc₂).1 ▸ .refl c₁
    | some r =>
      have hr := handleResponse_advances rand routingThreads now c₁ r
      rwa [show handleResponse rand routingThreads now c₁ r = (c₂, answer) from hc₂] at hr
  have hadv₃ : Advances c₂ c' := by
    obtain ⟨_, -, rfl, -⟩ := expireGets_eq timeout hc₃
    obtain ⟨_, -, rfl, -⟩ := expirePuts_eq timeout hc₄
    exact ⟨fun h => h, le_rfl⟩
  exact (hadv₁.trans hadv₂).trans hadv₃

theorem count_refusedPut_le (c : Client σ) (response : KeyResponse) (key : String) (id : ℕ) :
    (refusedPut c response).count (key, id) ≤ awaited c key id := by
  rw [refusedPut, awaited]
  split_ifs with hrefused hmem
  · exact List.count_le_length
  · rw [List.count_singleton, if_neg]
    intro heq
    obtain ⟨rfl, rfl⟩ := Prod.mk.inj (eq_of_beq heq)
    exact hmem hrefused.2.2
  · exact Nat.zero_le _
  · exact le_rfl

/-- Receiving answers puts, and takes none away; a refused put is in one more place. -/
theorem place_receiveAsync {now : ℕ} {c c' : Client σ} {addresses : Option KeyAddressResponse}
    {response : Option KeyResponse} {rs : List KeyResponse} (hwell : WellKeyed c)
    (h : receiveAsync rand routingThreads timeout now c addresses response = some (c', rs)) :
    ∃ c₁, addresses.elim (some c) (handleAddress rand routingThreads now c) = some c₁ ∧
      ∀ key id,
        let place := queued c' key id + awaited c' key id + answered rs key id
        let before := queued c key id + awaited c key id
        place ≤ before + (response.elim [] (refusedPut c₁)).count (key, id) ∧
          (response.elim [] (refusedPut c₁)).count (key, id) ≤ before ∧
          (0 < before → 0 < place) := by
  obtain ⟨c₁, hc₁, c₂, answer, hc₂, c₃, badGets, hc₃, badPuts, hc₄, rfl⟩ :=
    receiveAsync_eq rand routingThreads timeout h
  refine ⟨c₁, hc₁, fun key id => ?_⟩
  have hfirst : WellKeyed c₁ ∧
      queued c₁ key id + awaited c₁ key id ≤ queued c key id + awaited c key id ∧
      (0 < queued c key id + awaited c key id → 0 < queued c₁ key id + awaited c₁ key id) := by
    cases addresses with
    | none => exact Option.some.inj hc₁ ▸ ⟨hwell, le_rfl, fun h => h⟩
    | some a =>
      exact ⟨hwell.handleAddress rand routingThreads hc₁,
        place_handleAddress rand routingThreads hwell hc₁ key id⟩
  obtain ⟨hwell₁, hle, hpos⟩ := hfirst
  have hsecond : WellKeyed c₂ ∧ queued c₂ key id + awaited c₂ key id + answered answer key id =
      queued c₁ key id + awaited c₁ key id +
        (response.elim [] (refusedPut c₁)).count (key, id) := by
    cases response with
    | none =>
      obtain ⟨rfl, rfl⟩ := Prod.mk.inj hc₂
      exact ⟨hwell₁, rfl⟩
    | some r =>
      have hr : handleResponse rand routingThreads now c₁ r = (c₂, answer) := hc₂
      have hwell₂ := hwell₁.handleResponse rand routingThreads now r
      have hplace := place_handleResponse rand routingThreads hwell₁ now r key id
      rw [hr] at hwell₂ hplace
      exact ⟨hwell₂, hplace⟩
  obtain ⟨hwell₂, hsecond⟩ := hsecond
  have hrefused : (response.elim [] (refusedPut c₁)).count (key, id) ≤ awaited c₁ key id := by
    cases response with
    | none => exact Nat.zero_le _
    | some r => exact count_refusedPut_le c₁ r key id
  have hthird := place_expireRequests timeout hwell₂ now key id
  have hwell₃ := hwell₂.expireRequests timeout now
  have hgets := answered_expireGets timeout hwell₃ hc₃ key id
  have hputs := place_expirePuts timeout (hwell₃.expireGets timeout hc₃) hc₄ key id
  obtain ⟨cache, -, rfl, -⟩ := expireGets_eq timeout hc₃
  obtain ⟨hqueue, hawaited⟩ := hputs
  simp only [answered_append, hgets]
  have hq : queued c' key id = queued (expireRequests timeout now c₂).1 key id := by
    rw [queued, hqueue]
    rfl
  have ha : awaited c₂ key id = awaited c' key id + answered badPuts key id := hawaited.symm
  rw [hq]
  refine ⟨?_, ?_, fun h => ?_⟩
  · omega
  · omega
  · have := hpos h
    omega

end Expire

end Demeter.Scheduler.Kvs
