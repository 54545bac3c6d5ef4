import Demeter.Lib.FloatText
import Demeter.Scheduler.Node

/-!
# Resource hints on their way through a node

The hints `cpu_cores` and `memory_mb` of a requested function are handed from structure to structure
in `src/scheduler/scheduler_server.cpp`.

* `toStringDouble` and `readHints` print the hints and read them back;
* `HintsKept` says that every message which passes a requested function on states its hints;
* `TableHints` and `Faithful` are the invariants of the call table and of the node;
* `hintsKept_run` says that the hints are kept in every run that loses none: a call that is
  forwarded or executed again has no hints, and the hints survive being printed with six decimals
  and fit their length byte.
-/

namespace Demeter.Scheduler

open Demeter.Common (Trigger)
open Demeter.Coordinator (Address FunctionCall FunctionRequest)
open Demeter.Executor (comma encodeCall mem_toStringNat readHeader readHeader_encodeCall
  resourceMeta resourceParts sendString toNat_of_isDigit toStringNat_eq toStringNat_ne_nil)

variable {n : ℕ}

/-- `std::to_string` on doubles. -/
def toStringDouble (x : Float) : Bytes := ascii (String.ofList (FloatText.toText x))

/-- The hints as text. -/
def hintText (hints : Float × ℕ) : Bytes :=
  toStringDouble hints.1 ++ ascii "," ++ toStringNat hints.2

/-- The characters of an ASCII text. -/
def chars (bs : Bytes) : List Char := bs.map fun b => Char.ofNat b.toNat

/-- The hints that an executor finds in a text, and puts into the environment of its process. -/
def readHints (text : Bytes) : Option (Float × ℕ) := do
  let parts ← resourceParts text
  let cpuCores ← FloatText.ofText (chars parts.1)
  return (cpuCores, Nat.ofDigitChars 10 (chars parts.2) 0)

/-- A message states these hints: in the text that its executor reads, or in its fields. -/
def Outgoing.Carries (hints : Float × ℕ) : Outgoing n → Prop
  | .executor _ msg => ∃ header, readHeader (sendString msg) = some (some header) ∧
      readHints header.resourceMeta = some hints
  | .coordinator call => ∀ req ∈ call.requests, (req.cpuCores, req.memoryMb) = hints

/-- Every message that passes a requested function on states the hints of the request. -/
def Node.HintsKept (s : Node n) : Prop :=
  ∀ c hints, s.requested.get? c = some hints → ∀ m ∈ s.sent, m.origin = some c →
    m.message.Carries hints

/-! ### Reading printed hints -/

theorem chars_ascii {text : List Char} (h : ∀ c ∈ text, c.toNat < 256) :
    chars (ascii (String.ofList text)) = text := by
  rw [chars, ascii, String.toList_ofList, List.map_map]
  refine (List.map_congr_left fun c hc => ?_).trans (List.map_id text)
  rw [Function.comp_apply, UInt8.toNat_ofNat', Nat.mod_eq_of_lt (h c hc), Char.ofNat_toNat]
  rfl

theorem toNat_lt_of_mem_toText {x : Float} {c : Char} (h : c ∈ FloatText.toText x) :
    c.toNat < 256 ∧ c ≠ ',' := by
  obtain hdigit | hother := FloatText.mem_toText h
  · have hrange := toNat_of_isDigit hdigit
    refine ⟨by omega, ?_⟩
    rintro rfl
    exact absurd hrange (by decide)
  · simp only [List.mem_cons, List.not_mem_nil, or_false] at hother
    obtain rfl | rfl | rfl | rfl | rfl | rfl := hother <;> decide

/-- The executor finds the hints if the number of cores survives its six decimals. -/
theorem readHints_hintText {hints : Float × ℕ} (h : FloatText.ReadsBack hints.1) :
    readHints (hintText hints) = some hints := by
  have hascii : ∀ c ∈ FloatText.toText hints.1, c.toNat < 256 := fun c hc =>
    (toNat_lt_of_mem_toText hc).1
  have hcomma : comma ∉ toStringDouble hints.1 := by
    intro hmem
    rw [toStringDouble, ascii, String.toList_ofList] at hmem
    obtain ⟨c, hc, heq⟩ := List.mem_map.1 hmem
    refine (toNat_lt_of_mem_toText hc).2 (Char.toNat_inj.1 ?_)
    have hval := congrArg UInt8.toNat heq
    rwa [UInt8.toNat_ofNat', Nat.mod_eq_of_lt (hascii c hc)] at hval
  have hnumber : comma ∉ toStringNat hints.2 := fun hmem =>
    absurd (mem_toStringNat hmem).1 (by decide)
  have hdigits : chars (toStringNat hints.2) = Nat.toDigits 10 hints.2 := by
    have hlist : toStringNat hints.2 = ascii (String.ofList (Nat.toDigits 10 hints.2)) := by
      rw [toStringNat_eq, ascii, String.toList_ofList]
    rw [hlist]
    refine chars_ascii fun c hc => ?_
    have hrange := toNat_of_isDigit (Nat.isDigit_of_mem_toDigits (by decide) (by decide) hc)
    omega
  have hparts : resourceParts (hintText hints) =
      some (toStringDouble hints.1, toStringNat hints.2) := by
    have happ : hintText hints = toStringDouble hints.1 ++ comma :: toStringNat hints.2 :=
      List.append_assoc _ _ _
    rw [happ, resourceParts, GetLine.split_append_cons hcomma,
      GetLine.split_of_notMem hnumber (toStringNat_ne_nil _)]
  have hcores : FloatText.ofText (chars (toStringDouble hints.1)) = some hints.1 := by
    rw [toStringDouble, chars_ascii hascii]
    exact h
  simp only [readHints, hparts, Option.bind_eq_bind, Option.bind_some, hcores, hdigits,
    Nat.ofDigitChars_ten_toDigits]
  rfl

/-! ### Messages -/

/-- The hints of a request survive being printed, and their text fits its length byte. -/
def Legible (hints : Float × ℕ) : Prop :=
  FloatText.ReadsBack hints.1 ∧ (hintText hints).length ≤ 255

instance (hints : Float × ℕ) : Decidable (Legible hints) := inferInstanceAs (Decidable (_ ∧ _))

theorem carries_encodeCall (e : Fin n) (clientAddr : Address) {cpuCores : Float} {memoryMb : ℕ}
    (h : Legible (cpuCores, memoryMb)) (sessionId funcName : Bytes) (args : List Bytes)
    (argFlag : ℕ) :
    (Outgoing.executor e (encodeCall toStringDouble clientAddr cpuCores memoryMb sessionId funcName
      args argFlag)).Carries (cpuCores, memoryMb) := by
  have htext : resourceMeta toStringDouble cpuCores memoryMb = hintText (cpuCores, memoryMb) :=
    if_neg (Nat.not_lt.2 h.2)
  have hheader := readHeader_encodeCall toStringDouble clientAddr cpuCores memoryMb sessionId
    funcName args argFlag
  rw [htext] at hheader
  exact ⟨_, hheader, readHints_hintText h.1⟩

/-- A forwarded call has no hints. -/
theorem carries_forwardCallViaHelper {mem : Bytes → Bytes} {keyLenMap : Dict Bytes ℕ}
    {ip respAddress : Address} {dataServerAddr : Bytes → Address} {sessionId appName : String}
    {funcs : List (String × List Bytes)} {argFlag : ℕ} {call : FunctionCall}
    (h : forwardCallViaHelper mem keyLenMap ip dataServerAddr respAddress sessionId appName funcs
      argFlag = some call) :
    (Outgoing.coordinator call : Outgoing n).Carries (0, 0) := by
  have hnone : ∀ (funcs : List (String × List Bytes)) (argFlag : ℕ),
      ∀ req ∈ (forwardFuncCall ip dataServerAddr respAddress appName funcs argFlag
        sessionId).requests, (req.cpuCores, req.memoryMb) = (0, 0) := by
    intro funcs argFlag req hreq
    obtain ⟨f, -, rfl⟩ := List.mem_map.1 hreq
    rfl
  unfold forwardCallViaHelper at h
  split_ifs at h
  · obtain ⟨totals, -, h⟩ := Option.bind_eq_some_iff.1 h
    split_ifs at h
    · exact Option.some.inj h ▸ hnone _ 0
    · exact Option.some.inj h ▸ hnone funcs argFlag
  · exact Option.some.inj h ▸ hnone funcs argFlag

/-! ### The call table -/

/-- The stored calls and the calls that were handed over have the hints of their requests. -/
structure TableHints (req : Dict ℕ (Float × ℕ)) (st : State) : Prop where
  inv : Inv st
  lt_callId : ∀ c ∈ req.keys, c < st.callId
  stored : ∀ c fa, st.callIdInflightArgsMap.get? c = some fa →
    req.get? c = some (fa.cpuCores, fa.memoryMb)
  handed : ∀ h ∈ st.handOffs, req.get? h.callId = some (h.cpuCores, h.memoryMb)

section Table

variable {req : Dict ℕ (Float × ℕ)} {st : State}

theorem tableHints_init : TableHints Dict.empty {} where
  inv := inv_init
  lt_callId c hc := by simp [Dict.keys, Dict.empty] at hc
  stored c fa h := by simp at h
  handed h hh := by simp at hh

theorem TableHints.sub_set (ht : TableHints req st) (hints : Float × ℕ) :
    req.Sub (req.set st.callId hints) :=
  Dict.sub_set_of_notMem (fun hmem => lt_irrefl _ (ht.lt_callId _ hmem)) hints

/-- A requested function arrives. -/
theorem TableHints.receiveFunc (ht : TableHints req st) (env : Env) (recv : RecvCall)
    (f : RecvFunc) :
    TableHints (Node.receiveFunc env recv (st, req) f).2
      (Node.receiveFunc env recv (st, req) f).1 := by
  have hsub := ht.sub_set (f.cpuCores, f.memoryMb)
  have hnew : (req.set st.callId (f.cpuCores, f.memoryMb)).get? st.callId =
      some (f.cpuCores, f.memoryMb) := by rw [Dict.get?_set, if_pos rfl]
  have hinv := inv_handleFunc env.lookups recv f ht.inv
  have hlt : ∀ c ∈ (req.set st.callId (f.cpuCores, f.memoryMb)).keys, c < st.callId + 1 := by
    intro c hc
    obtain rfl | hc := Dict.mem_keys_set.1 hc
    · exact Nat.lt_succ_self _
    · exact Nat.lt_succ_of_lt (ht.lt_callId c hc)
  simp only [Node.receiveFunc]
  obtain ⟨h, hid, ⟨hcpu, hmem⟩, -, heq⟩ | ⟨reqs, ids, -, -, -, heq⟩ :=
    handleFunc_cases env.lookups recv st f
  · rw [heq] at hinv ⊢
    refine ⟨hinv, hlt, fun c fa hc => hsub _ _ (ht.stored c fa hc), fun h' hh' => ?_⟩
    obtain hh' | hh' := List.mem_append.1 hh'
    · exact hsub _ _ (ht.handed h' hh')
    · obtain rfl := List.mem_singleton.1 hh'
      rw [hid, hnew, hcpu, hmem]
  · rw [heq] at hinv ⊢
    refine ⟨hinv, hlt, fun c fa hc => ?_, fun h' hh' => hsub _ _ (ht.handed h' hh')⟩
    obtain ⟨rfl, rfl⟩ | hc := (ht.inv.get?_set_callId (arrival st recv f) c fa).1 hc
    · exact hnew
    · exact hsub _ _ (ht.stored c fa hc)

/-- A response arrives. -/
theorem TableHints.handleDataResp (ht : TableHints req st) (lookups : ℕ → List Bytes) (key : Bytes)
    (size : ℕ) : TableHints req (handleDataResp lookups st key size) := by
  have hinv := inv_handleDataResp lookups ht.inv key size
  obtain ⟨mid, h, heq⟩ := handleDataResp_spec lookups ht.inv key size
  rw [heq] at hinv ⊢
  refine ⟨hinv, fun c hc => lt_of_lt_of_eq (ht.lt_callId c hc) h.callId.symm, fun c fa' hc => ?_,
    fun x hx => ?_⟩
  · obtain ⟨fa, hfa, rfl, -⟩ := h.exists_old ht.inv hc
    exact ht.stored c fa hfa
  · have hxof : x ∈ mid.handOffsOf x.callId := List.mem_filter.2 ⟨hx, by simp⟩
    have hold : ∀ {y}, y ∈ (st.withLen key size).handOffsOf x.callId →
        req.get? y.callId = some (y.cpuCores, y.memoryMb) := fun hy =>
      ht.handed _ (List.mem_filter.1 hy).1
    by_cases hsame : x.callId ∉ st.callIds key ∨
        ((st.withLen key size).callIdInflightArgsMap.get? x.callId).bind (·.drop key) ≠ none
    · rw [h.handOffsOf _ hsame] at hxof
      exact hold hxof
    · -- the call was waiting for this key only
      push Not at hsame
      obtain ⟨hmem, hdrop⟩ := hsame
      obtain ⟨fa, hfa, -⟩ := (ht.inv.mem_callIds_iff key _).1 hmem
      have hget : (st.withLen key size).callIdInflightArgsMap.get? x.callId = some fa := hfa
      rw [hget, Option.bind_some] at hdrop
      obtain ⟨y, hy, heqy⟩ := h.handOffsOf_complete _ hmem fa hget hdrop
      rw [heqy] at hxof
      obtain hxof | hxof := List.mem_append.1 hxof
      · exact hold hxof
      · obtain rfl := List.mem_singleton.1 hxof
        rw [ht.stored _ fa hfa, hy.cpuCores, hy.memoryMb]

theorem TableHints.foldl_receiveFunc (ht : TableHints req st) (env : Env) (recv : RecvCall)
    (fs : List RecvFunc) :
    let acc := fs.foldl (Node.receiveFunc env recv) (st, req)
    TableHints acc.2 acc.1 ∧ req.Sub acc.2 ∧ ∀ c hints, acc.2.get? c = some hints →
      req.get? c = some hints ∨ ∃ f ∈ fs, (f.cpuCores, f.memoryMb) = hints := by
  induction fs generalizing st req with
  | nil => exact ⟨ht, Dict.Sub.refl req, fun c hints hc => .inl hc⟩
  | cons f fs ih =>
    obtain ⟨htable, hsub, hnew⟩ := ih (ht.receiveFunc env recv f)
    refine ⟨htable, (ht.sub_set _).trans hsub, fun c hints hc => ?_⟩
    obtain hc | ⟨g, hg, hhints⟩ := hnew c hints hc
    · rw [Node.receiveFunc, Dict.get?_set] at hc
      split_ifs at hc
      · exact .inr ⟨f, List.mem_cons_self, Option.some.inj hc⟩
      · exact .inl hc
    · exact .inr ⟨g, List.mem_cons_of_mem f hg, hhints⟩

/-- Only a call records new hints. -/
theorem TableHints.receive (ht : TableHints req st) (env : Env) (event : Event) :
    let acc := Node.receive env (st, req) event
    TableHints acc.2 acc.1 ∧ req.Sub acc.2 ∧ ∀ c hints, acc.2.get? c = some hints →
      req.get? c = some hints ∨ ∃ call, event = .call call ∧
        ∃ r ∈ call.requests, (r.cpuCores, r.memoryMb) = hints := by
  have hinv := inv_step env.lookups ht.inv event
  cases event with
  | call call =>
    obtain ⟨htable, hsub, hnew⟩ :=
      ht.foldl_receiveFunc env (handleFunctionCall call) (handleFunctionCall call).funcs
    refine ⟨htable, hsub, fun c hints hc => (hnew c hints hc).imp_right ?_⟩
    rintro ⟨f, hf, hhints⟩
    obtain ⟨r, hr, rfl⟩ := List.mem_map.1 hf
    exact ⟨call, rfl, r, hr, hhints⟩
  | dataResp key size =>
    exact ⟨ht.handleDataResp env.lookups key size, Dict.Sub.refl req, fun c hints hc => .inl hc⟩
  | put objName size looked activeTriggers =>
    refine ⟨⟨hinv, fun c hc => ?_, ht.stored, ht.handed⟩, Dict.Sub.refl req,
      fun c hints hc => .inl hc⟩
    exact (ht.lt_callId c hc).trans_le (Nat.le_add_right _ activeTriggers)
  | _ =>
    exact ⟨⟨hinv, ht.lt_callId, ht.stored, ht.handed⟩, Dict.Sub.refl req,
      fun c hints hc => .inl hc⟩

end Table

/-! ### The node -/

/-- A call has the hints of the request that it is for. -/
def ScheduledCall.Tagged (req : Dict ℕ (Float × ℕ)) (c : ScheduledCall) : Prop :=
  ∀ id, c.origin = some id → req.get? id = some (c.cpuCores, c.memoryMb)

/-- A trigger keeps functions of known requests only. -/
def RerunTrigger.Known (req : Dict ℕ (Float × ℕ)) (t : RerunTrigger) : Prop :=
  ∀ k m, t.sessionStatusCache.get? k = some m → ∀ c, m.origin = some c → c ∈ req.keys

/-- Everything that a node has of a requested function has the hints of the request. -/
structure Node.Faithful (cfg : Config) (env : Env) (s : Node n) : Prop where
  table : TableHints s.requested s.table
  legible : ∀ c hints, s.requested.get? c = some hints → Legible hints
  delayed : ∀ d ∈ s.delayCallQueue, d.call.Tagged s.requested
  delay_pos : s.delayCallQueue ≠ [] → 0 < cfg.schedDelayTime
  known : ∀ t ∈ s.triggers, t.Known s.requested
  sent : ∀ m ∈ s.sent, ∀ c, m.origin = some c → ∃ hints, s.requested.get? c = some hints ∧
    m.message.Carries hints

namespace RerunTrigger

/-- Everything in the cache of the trigger has the property. -/
def Caches (P : TriggerFunctionMetadata → Prop) (t : RerunTrigger) : Prop :=
  ∀ k m, t.sessionStatusCache.get? k = some m → P m

variable {P : TriggerFunctionMetadata → Prop} {t : RerunTrigger}

theorem Caches.erase (h : t.Caches P) (k : String) :
    Caches P { t with sessionStatusCache := t.sessionStatusCache.erase k } := by
  intro k' m hm
  rw [Dict.get?_erase] at hm
  split_ifs at hm
  exact h k' m hm

theorem Caches.set (h : t.Caches P) (k : String) {m : TriggerFunctionMetadata} (hm : P m)
    (keys : Dict String String) :
    Caches P { t with
      funcKeyMap := keys, sessionStatusCache := t.sessionStatusCache.set k m } := by
  intro k' m' hm'
  rw [Dict.get?_set] at hm'
  split_ifs at hm'
  · obtain rfl := Option.some.inj hm'
    exact hm
  · exact h k' m' hm'

theorem Caches.notifySourceFunc (h : t.Caches P) (sessionId : String) {m : TriggerFunctionMetadata}
    (hm : P m) : (t.notifySourceFunc sessionId m).Caches P := by
  unfold RerunTrigger.notifySourceFunc
  split
  · exact h.set sessionId hm t.funcKeyMap
  · exact h.set sessionId hm t.funcKeyMap
  · exact h.set sessionId hm t.funcKeyMap
  · split_ifs
    · exact h.set _ hm _
    · exact h
  · exact h

theorem Caches.newObject (h : t.Caches P) (sessionId key : String) :
    (t.newObject sessionId key).Caches P := by
  unfold RerunTrigger.newObject
  split
  · exact h.erase sessionId
  · exact h.erase sessionId
  · exact h.erase sessionId
  · split_ifs
    · exact h.erase _
    · exact h
  · exact h

theorem Caches.clear (h : t.Caches P) (sessionId : String) : (t.clear sessionId).Caches P := by
  unfold RerunTrigger.clear
  split
  · intro k m hm
    simp at hm
  · exact h.erase sessionId
  · exact h

theorem caches_init (trigger : Trigger) (keys : Dict String String) :
    Caches P { trigger := trigger, funcKeyMap := keys } := by
  intro k m hm
  simp at hm

/-- What is executed again was in the cache. -/
theorem Caches.actionForRerun (h : t.Caches P) {sessionId : String} {m : TriggerFunctionMetadata}
    (hm : m ∈ t.actionForRerun sessionId) : P m := by
  unfold RerunTrigger.actionForRerun at hm
  split at hm
  · exact h _ m (Option.mem_toList.1 hm)
  · exact h _ m (Option.mem_toList.1 hm)
  · exact h _ m (Option.mem_toList.1 hm)
  · split_ifs at hm
    · obtain ⟨key, -, hget⟩ := List.mem_filterMap.1 hm
      exact h _ m hget
    · cases hm
  · cases hm

end RerunTrigger

theorem forall_mem_modify {α : Type} {P : α → Prop} {l : List α} {f : α → α}
    (h : ∀ a ∈ l, P a) (hf : ∀ a, P a → P (f a)) (i : ℕ) : ∀ a ∈ l.modify i f, P a := by
  intro a ha
  obtain ⟨j, hj⟩ := List.mem_iff_getElem?.1 ha
  rw [List.getElem?_modify] at hj
  obtain ⟨b, hb, rfl⟩ := Option.map_eq_some_iff.1 hj
  have hPb := h b (List.mem_of_getElem? hb)
  split_ifs
  · exact hf b hPb
  · exact hPb

namespace Node

variable {cfg : Config} {env : Env} {s s' : Node n}

theorem Faithful.hintsKept (hs : s.Faithful cfg env) : s.HintsKept := by
  intro c hints hc m hm hid
  obtain ⟨hints', hc', hcarries⟩ := hs.sent m hm c hid
  rwa [Option.some.inj (hc.symm.trans hc')]

/-- A faithful state that knows the same requests. -/
structure Keeps (cfg : Config) (env : Env) (s s' : Node n) : Prop where
  faithful : s'.Faithful cfg env
  requested : s'.requested = s.requested

theorem Keeps.trans {s'' : Node n} (h : Keeps cfg env s s') (h' : Keeps cfg env s' s'') :
    Keeps cfg env s s'' :=
  ⟨h'.faithful, h'.requested.trans h.requested⟩

/-- A loop whose turns keep the state faithful keeps it faithful. -/
theorem Faithful.exec {α : Type} {f : Node n → α → Option (Node n)} {G : Node n → α → Prop}
    (hs : s.Faithful cfg env)
    (hf : ∀ s₁ a s₂, s₁.requested = s.requested → G s₁ a → f s₁ a = some s₂ →
      s₁.Faithful cfg env → Keeps cfg env s₁ s₂)
    {l : List α} (hl : Runs.Allowed f G s l) (h : Runs.exec f s l = some s') :
    Keeps cfg env s s' :=
  Runs.exec_invariant (P := Keeps cfg env s)
    (fun s₁ a s₂ hG hstep hs₁ => hs₁.trans (hf s₁ a s₂ hs₁.requested hG hstep hs₁.faithful))
    hl h ⟨hs, rfl⟩

/-! ### Scheduling a call -/

theorem Faithful.modify_triggers (hs : s.Faithful cfg env) {f : RerunTrigger → RerunTrigger}
    (hf : ∀ t : RerunTrigger, t.Known s.requested → (f t).Known s.requested) (i : ℕ)
    (queue : List RerunCheckQueueItem) :
    Faithful cfg env { s with triggers := s.triggers.modify i f, rerunCheckQueue := queue } where
  table := hs.table
  legible := hs.legible
  delayed := hs.delayed
  delay_pos := hs.delay_pos
  known := forall_mem_modify hs.known hf i
  sent := hs.sent

theorem Faithful.notifySources (hs : s.Faithful cfg env) (now : ℕ) {c : ScheduledCall}
    (hc : c.Tagged s.requested) : Keeps cfg env s (notifySources now s c) := by
  have hknown : ∀ id, c.origin = some id → id ∈ s.requested.keys := fun id hid =>
    Dict.mem_keys_iff.2 ⟨_, hc id hid⟩
  refine Runs.foldl_invariant (P := Keeps cfg env s) (fun s' rerunMeta _ hs' => ?_)
    (Runs.along_true s _) ⟨hs, rfl⟩
  refine ⟨hs'.faithful.modify_triggers
    (fun t ht => RerunTrigger.Caches.notifySourceFunc ht c.sessionId ?_) _ _,
    hs'.requested⟩
  rw [hs'.requested]
  exact hknown

/-- A message with the hints of its request is sent. -/
theorem Faithful.send (hs : s.Faithful cfg env) {m : Sent n}
    (hm : ∀ c, m.origin = some c → ∃ hints, s.requested.get? c = some hints ∧
      m.message.Carries hints)
    (warm : String → Finset (Fin n)) (status : Fin n → ExecutorStatus) :
    Faithful cfg env { s with
      functionExecutorMap := warm, status := status, sent := s.sent ++ [m] } where
  table := hs.table
  legible := hs.legible
  delayed := hs.delayed
  delay_pos := hs.delay_pos
  known := hs.known
  sent := by
    intro m' hm'
    obtain hm' | hm' := List.mem_append.1 hm'
    · exact hs.sent m' hm'
    · obtain rfl := List.mem_singleton.1 hm'
      exact hm

theorem Faithful.dispatch (hs : s.Faithful cfg env) (henv : env.toStringDouble = toStringDouble)
    (now : ℕ) {c : ScheduledCall} (hc : c.Tagged s.requested) (e : Fin n) :
    Keeps cfg env s (s.dispatch env now c e) := by
  have hcarries : ∀ id, c.origin = some id → ∃ hints, s.requested.get? id = some hints ∧
      (Outgoing.executor e (encodeCall env.toStringDouble (s.clientAddr c.sessionId) c.cpuCores
        c.memoryMb (utf8 c.sessionId) (utf8 c.funcName) c.funcArgs c.argFlag)).Carries hints := by
    intro id hid
    rw [henv]
    exact ⟨_, hc id hid, carries_encodeCall e _ (hs.legible id _ (hc id hid)) _ _ _ _⟩
  obtain ⟨hfaith, hreq⟩ := (hs.send (m := ⟨c.origin, _⟩) hcarries _ _).notifySources now hc
  exact ⟨hfaith, hreq⟩

/-- A forwarded call loses its hints. -/
theorem Faithful.forward (hs : s.Faithful cfg env) {keyLenMap : Dict Bytes ℕ} {origin : Option ℕ}
    {sessionId appName : String} {funcs : List (String × List Bytes)} {argFlag : ℕ}
    (horigin : ∀ c, origin = some c → s.requested.get? c = some (0, 0))
    (h : s.forward cfg env keyLenMap origin sessionId appName funcs argFlag = some s') :
    Keeps cfg env s s' := by
  obtain ⟨call, hcall, hs'⟩ := Option.bind_eq_some_iff.1 h
  obtain rfl := Option.some.inj hs'
  refine ⟨hs.send (fun c hc => ⟨_, horigin c hc, ?_⟩) _ _, rfl⟩
  exact carries_forwardCallViaHelper hcall

/-- The call is not forwarded, or has no hints. -/
def Placed (cfg : Config) (s : Node n) (c : ScheduledCall) : Prop :=
  (c.cpuCores, c.memoryMb) = (0, 0) ∨
    (∃ e, s.status e = .empty ∨ s.status e = .available ∧
      (cfg.sharedExecutor ∨ e ∈ s.functionExecutorMap c.funcName)) ∨
    0 < cfg.schedDelayTime ∨ cfg.rejectExtraReq

theorem Faithful.delay (hs : s.Faithful cfg env) (hpos : 0 < cfg.schedDelayTime) {now : ℕ}
    {c : ScheduledCall} (hc : c.Tagged s.requested) :
    Faithful cfg env { s with delayCallQueue := s.delayCallQueue ++ [⟨c, now⟩] } where
  table := hs.table
  legible := hs.legible
  delayed := by
    intro d hd
    obtain hd | hd := List.mem_append.1 hd
    · exact hs.delayed d hd
    · obtain rfl := List.mem_singleton.1 hd
      exact hc
  delay_pos _ := hpos
  known := hs.known
  sent := hs.sent

theorem Faithful.scheduleFuncCall (hs : s.Faithful cfg env)
    (henv : env.toStringDouble = toStringDouble) {now : ℕ} {keyLenMap : Dict Bytes ℕ}
    {c : ScheduledCall} (hc : c.Tagged s.requested) (hplaced : s.Placed cfg c)
    (h : s.scheduleFuncCall cfg env now keyLenMap c = some s') :
    Keeps cfg env s s' := by
  unfold Node.scheduleFuncCall at h
  split at h
  · obtain rfl := Option.some.inj h
    exact hs.dispatch henv now hc _
  · next hnone =>
    split_ifs at h with hpos hreject
    · obtain rfl := Option.some.inj h
      exact ⟨hs.delay hpos hc, rfl⟩
    · obtain rfl := Option.some.inj h
      exact ⟨hs, rfl⟩
    · obtain ⟨args, -, h⟩ := Option.bind_eq_some_iff.1 h
      obtain hzero | ⟨e, he⟩ | hpos' | hreject' := hplaced
      · exact hs.forward (fun id hid => hzero ▸ hc id hid) h
      · exact absurd hnone (selectExecutor_ne_none _ _ he _)
      · exact absurd hpos' hpos
      · exact absurd hreject' hreject

/-! ### The delay queue and reruns -/

theorem Faithful.withQueue (hs : s.Faithful cfg env) {queue : List DelayFunctionCall}
    (hqueue : ∀ d ∈ queue, d.call.Tagged s.requested) (hpos : queue ≠ [] → 0 < cfg.schedDelayTime) :
    Faithful cfg env { s with delayCallQueue := queue } where
  table := hs.table
  legible := hs.legible
  delayed := hqueue
  delay_pos := hpos
  known := hs.known
  sent := hs.sent

theorem Faithful.delayDispatch (hs : s.Faithful cfg env)
    (henv : env.toStringDouble = toStringDouble) {now k : ℕ}
    (h : s.delayDispatch cfg env now k = some s') :
    Keeps cfg env s s' := by
  induction k generalizing s with
  | zero =>
    obtain rfl := Option.some.inj h
    exact ⟨hs, rfl⟩
  | succ k ih =>
    cases hq : s.delayCallQueue with
    | nil =>
      simp only [Node.delayDispatch, hq, Option.some.injEq] at h
      exact ⟨h ▸ hs, h ▸ rfl⟩
    | cons d rest =>
      simp only [Node.delayDispatch, hq] at h
      obtain ⟨mid, hmid, h⟩ := Option.bind_eq_some_iff.1 h
      have hmem : d ∈ s.delayCallQueue := hq ▸ List.mem_cons_self
      -- the queue is not in use when calls are forwarded at once
      have hpos := hs.delay_pos (List.ne_nil_of_mem hmem)
      have hkeeps := hs.scheduleFuncCall henv (hs.delayed d hmem) (.inr (.inr (.inl hpos)))
        hmid
      have hpopped : Keeps cfg env s { mid with delayCallQueue := mid.delayCallQueue.tail } :=
        ⟨hkeeps.faithful.withQueue (fun d' hd' => hkeeps.faithful.delayed d'
          (List.mem_of_mem_tail hd')) fun _ => hpos, hkeeps.requested⟩
      exact hpopped.trans (ih hpopped.faithful h)

/-- The calls have waited too long. -/
def expired (cfg : Config) (now : ℕ) (queue : List DelayFunctionCall) : List DelayFunctionCall :=
  queue.takeWhile fun d => now - d.triggerTime > cfg.schedDelayTime

theorem Faithful.delayForward {now : ℕ} {queue : List DelayFunctionCall} (hs : s.Faithful cfg env)
    (hqueue : ∀ d ∈ queue, d.call.Tagged s.requested) (hpos : queue ≠ [] → 0 < cfg.schedDelayTime)
    (hzero : cfg.rejectExtraReq ∨
      ∀ d ∈ expired cfg now queue, (d.call.cpuCores, d.call.memoryMb) = (0, 0))
    (h : s.delayForward cfg env now queue = some s') :
    Keeps cfg env s s' := by
  induction queue generalizing s with
  | nil =>
    obtain rfl := Option.some.inj h
    exact ⟨hs.withQueue hqueue hpos, rfl⟩
  | cons d ds ih =>
    rw [Node.delayForward] at h
    split_ifs at h with hlate hreject
    · -- the call is dropped
      refine ih hs (fun d' hd' => hqueue d' (List.mem_cons_of_mem d hd')) (fun _ => hpos (by simp))
        (.inl hreject) h
    · obtain ⟨mid, hmid, h⟩ := Option.bind_eq_some_iff.1 h
      have hzero := hzero.resolve_left hreject
      have hd : d ∈ expired cfg now (d :: ds) := by simp [expired, hlate]
      have htag : ∀ c, d.call.origin = some c → s.requested.get? c = some (0, 0) := fun c hc =>
        hzero d hd ▸ hqueue d List.mem_cons_self c hc
      have hkeeps := hs.forward htag hmid
      exact hkeeps.trans (ih hkeeps.faithful
        (fun d' hd' => hkeeps.requested ▸ hqueue d' (List.mem_cons_of_mem d hd'))
        (fun _ => hpos (by simp))
        (.inr fun d' hd' => hzero d' (by simpa [expired, hlate] using .inr hd')) h)
    · obtain rfl := Option.some.inj h
      exact ⟨hs.withQueue hqueue hpos, rfl⟩

theorem Faithful.rerun (hs : s.Faithful cfg env) (henv : env.toStringDouble = toStringDouble)
    {now : ℕ} {sessionId : String}
    {m : TriggerFunctionMetadata} (hm : ∀ c, m.origin = some c → s.requested.get? c = some (0, 0))
    (h : s.rerun cfg env now sessionId m = some s') :
    Keeps cfg env s s' := by
  have htable : TableHints s.requested
      { s.table with funcAppMap := s.table.funcAppMap.touch m.funcName "" } :=
    ⟨hs.table.inv.grow le_rfl fun k hk => hk, hs.table.lt_callId, hs.table.stored, hs.table.handed⟩
  have hs' : Keeps cfg env s { s with
      table := { s.table with funcAppMap := s.table.funcAppMap.touch m.funcName "" } } :=
    ⟨⟨htable, hs.legible, hs.delayed, hs.delay_pos, hs.known, hs.sent⟩, rfl⟩
  have htag : ∀ app, (rerunCall sessionId app m).Tagged s.requested := fun app => hm
  exact hs'.trans (hs'.faithful.scheduleFuncCall henv (htag _) (.inl rfl) h)

theorem Faithful.rerunCheck (hs : s.Faithful cfg env)
    (henv : env.toStringDouble = toStringDouble) {now i j : ℕ}
    (hzero : ∀ m ∈ s.rerunFuncs i, ∀ c hints, m.origin = some c →
      s.requested.get? c = some hints → hints = (0, 0))
    (h : s.rerunCheck cfg env now i j = some s') :
    Keeps cfg env s s' := by
  obtain ⟨item, hitem, h⟩ := Option.bind_eq_some_iff.1 h
  obtain ⟨u, -, h⟩ := Option.bind_eq_some_iff.1 h
  obtain ⟨mid, hmid, h⟩ := Option.bind_eq_some_iff.1 h
  obtain ⟨popped, -, h⟩ := Option.bind_eq_some_iff.1 h
  obtain ⟨u', -, h⟩ := Option.bind_eq_some_iff.1 h
  obtain rfl := Option.some.inj h
  have horigin : ∀ m ∈ s.rerunFuncs i, ∀ c, m.origin = some c →
      s.requested.get? c = some (0, 0) := by
    intro m hm c hc
    have hkey : c ∈ s.requested.keys := by
      have hm' := hm
      simp only [rerunFuncs, hitem] at hm'
      split at hm'
      · cases hm'
      · next t ht =>
        exact RerunTrigger.Caches.actionForRerun (hs.known t (List.mem_of_getElem? ht)) hm' c hc
    obtain ⟨hints, hget⟩ := Dict.mem_keys_iff.1 hkey
    rw [hget, hzero m hm c hints hc hget]
  obtain ⟨hfaith, hreq⟩ := hs.exec
    (fun s₁ m s₂ hreq hm hstep hs₁ => hs₁.rerun henv (hreq ▸ hm) hstep)
    (Runs.allowed_of_forall horigin s) hmid
  exact ⟨⟨hfaith.table, hfaith.legible, hfaith.delayed, hfaith.delay_pos, hfaith.known,
    hfaith.sent⟩, hreq⟩

/-! ### Events -/

/-- The calls that an event hands over are scheduled in a state that has recorded its requests. -/
theorem Faithful.received (hs : s.Faithful cfg env) {event : Scheduler.Event}
    (hlen : ∀ call, event = .call call → ∀ r ∈ call.requests,
      Legible (r.cpuCores, r.memoryMb)) :
    (s.received env event).Faithful cfg env ∧
      ∀ h ∈ s.handedOver env event, h.call.Tagged (s.received env event).requested := by
  obtain ⟨htable, hsub, hnew⟩ := hs.table.receive env event
  refine ⟨⟨htable, fun c hints hc => ?_, fun d hd id hid => hsub _ _ (hs.delayed d hd id hid),
    hs.delay_pos, fun t ht k m hm c hc => hsub.mem_keys (hs.known t ht k m hm c hc),
    fun m hm c hc => ?_⟩, fun h hh id hid => ?_⟩
  · obtain hc | ⟨call, rfl, r, hr, rfl⟩ := hnew c hints hc
    · exact hs.legible c hints hc
    · exact hlen call rfl r hr
  · obtain ⟨hints, hget, hcarries⟩ := hs.sent m hm c hc
    exact ⟨hints, hsub _ _ hget, hcarries⟩
  · obtain rfl := Option.some.inj hid
    exact htable.handed h (List.mem_of_mem_drop hh)

/-- An event that loses no hints: the hints of a request survive being printed into a message to an
executor, a call with hints is not forwarded, and no function of a request with hints is executed
again. -/
def LosesNone (cfg : Config) (env : Env) (s : Node n) : Event n → Prop
  | .message now event =>
      (∀ call, event = .call call → ∀ r ∈ call.requests,
        Legible (r.cpuCores, r.memoryMb)) ∧
      Runs.Allowed (scheduleHandOff cfg env now) (fun s h => s.Placed cfg h.call)
        (s.received env event) (s.handedOver env event)
  | .delayForward now =>
      cfg.rejectExtraReq ∨ ∀ d ∈ expired cfg now s.delayCallQueue,
        (d.call.cpuCores, d.call.memoryMb) = (0, 0)
  | .rerunCheck _ i _ =>
      ∀ m ∈ s.rerunFuncs i, ∀ c hints, m.origin = some c → s.requested.get? c = some hints →
        hints = (0, 0)
  | _ => True

theorem Faithful.step (hs : s.Faithful cfg env) (henv : env.toStringDouble = toStringDouble)
    {event : Event n}
    (hevent : s.LosesNone cfg env event) (h : s.step cfg env event = some s') :
    s'.Faithful cfg env := by
  cases event with
  | message now event =>
    obtain ⟨hrec, htag⟩ := hs.received hevent.1
    have hallowed := hevent.2.and (Runs.allowed_of_forall htag (s.received env event))
    exact (hrec.exec
      (fun s₁ c s₂ hreq hc hstep hs₁ => hs₁.scheduleFuncCall henv (hreq ▸ hc.2) hc.1 hstep)
      hallowed h).faithful
  | invoke now sessionId appName funcName funcArgs argFlag =>
    exact (hs.scheduleFuncCall henv (fun id hid => by cases hid) (.inl rfl) h).faithful
  | forwardBatch sessionId appName funcs argFlag =>
    rw [Node.step] at h
    split_ifs at h
    · exact Option.some.inj h ▸ hs
    · exact (hs.forward (fun id hid => by cases hid) h).faithful
  | executorStatus e status =>
    obtain rfl := Option.some.inj h
    exact ⟨hs.table, hs.legible, hs.delayed, hs.delay_pos, hs.known, hs.sent⟩
  | addTrigger trigger hints =>
    obtain rfl := Option.some.inj h
    refine ⟨hs.table, hs.legible, hs.delayed, hs.delay_pos, fun t ht => ?_, hs.sent⟩
    obtain ht | ht := List.mem_append.1 ht
    · exact hs.known t ht
    · obtain rfl := List.mem_singleton.1 ht
      exact RerunTrigger.caches_init trigger _
  | newObject trigger sessionId key =>
    -- the triggers change, and only what they cache matters
    obtain rfl := Option.some.inj h
    exact hs.modify_triggers (fun t ht => RerunTrigger.Caches.newObject ht sessionId key)
      trigger s.rerunCheckQueue
  | clear trigger sessionId =>
    obtain rfl := Option.some.inj h
    exact hs.modify_triggers (fun t ht => RerunTrigger.Caches.clear ht sessionId)
      trigger s.rerunCheckQueue
  | delayDispatch now => exact (hs.delayDispatch henv h).faithful
  | delayForward now => exact (hs.delayForward hs.delayed hs.delay_pos hevent h).faithful
  | rerunCheck now i j => exact (hs.rerunCheck henv hevent h).faithful

theorem faithful_init : ({} : Node n).Faithful cfg env where
  table := tableHints_init
  legible c hints h := by simp at h
  delayed d hd := by simp at hd
  delay_pos h := absurd rfl h
  known t ht := by simp at ht
  sent m hm := by simp at hm

/-- **Hints survive every run that loses none.** -/
theorem hintsKept_run {env : Env} (henv : env.toStringDouble = toStringDouble)
    {events : List (Event n)} {s : Node n}
    (hevents : Runs.Allowed (step cfg env) (LosesNone cfg env) {} events)
    (hrun : Runs.exec (step cfg env) {} events = some s) : s.HintsKept :=
  (Runs.exec_invariant (P := fun s : Node n => s.Faithful cfg env)
    (fun _ _ _ hevent hstep hs => hs.step henv hevent hstep) hevents hrun faithful_init).hintsKept

/-- A request for two cores and 512 MB. -/
def hintedCall : FunctionCall where
  appName := "app"
  sessionId := "s1"
  requests := [{
    name := "map", arguments := [{ body := ascii "x" }], cpuCores := 2, memoryMb := 512 }]

/-- An environment without objects. -/
def sampleEnv : Env where
  toStringDouble := toStringDouble
  dataServerAddr _ := ""
  rand _ := 0
  mem _ _ := []
  lookups _ := []

/-- The call waits until the executor is free. -/
def waitingRun : List (Event 1) :=
  [.message 0 (.call hintedCall), .executorStatus ⟨0, Nat.one_pos⟩ .empty, .delayDispatch 50]

theorem hintsKept_sample :
    ∃ s : Node 1, Runs.exec (step { schedDelayTime := 100 } sampleEnv) {} waitingRun = some s ∧
      s.sent.map Sent.origin = [some 0] ∧ s.HintsKept := by
  have hsome : ((Runs.exec (step { schedDelayTime := 100 } sampleEnv) ({} : Node 1)
      waitingRun).map fun s => s.sent.map Sent.origin) = some [some 0] := by decide +kernel
  obtain ⟨s, hs, hsent⟩ := Option.map_eq_some_iff.1 hsome
  refine ⟨s, hs, hsent, hintsKept_run rfl ?_ hs⟩
  refine And.intro ⟨?_, ?_⟩ fun _ _ => ⟨trivial, fun _ _ => ⟨trivial, fun _ _ => trivial⟩⟩
  · intro call hcall r hr
    obtain rfl := Scheduler.Event.call.inj hcall
    obtain rfl := List.mem_singleton.1 hr
    decide +kernel
  · exact (Runs.allowed_true _ _).imp fun _ _ _ => .inr (.inr (.inl (by decide)))

/-- The memory that a message to the coordinator asks for. -/
def forwardedMemory : Outgoing n → List ℕ
  | .executor _ _ => []
  | .coordinator call => call.requests.map FunctionRequest.memoryMb

/-- No executor is free, and the call is forwarded without its hints. -/
theorem not_hintsKept_sample :
    ∃ s : Node 1, Runs.exec (step {} sampleEnv) {} [.message 0 (.call hintedCall)] = some s ∧
      ¬s.HintsKept := by
  have hrun : ((Runs.exec (step {} sampleEnv) ({} : Node 1)
      [.message 0 (.call hintedCall)]).map fun s =>
        ((s.requested.get? 0).map Prod.snd,
          s.sent.map fun m => (m.origin, forwardedMemory m.message))) =
      some (some 512, [(some 0, [0])]) := by decide +kernel
  obtain ⟨s, hs, hdata⟩ := Option.map_eq_some_iff.1 hrun
  refine ⟨s, hs, fun hkept => ?_⟩
  obtain ⟨hreq, hsent⟩ := Prod.mk.inj hdata
  obtain ⟨hints, hget, hmem⟩ := Option.map_eq_some_iff.1 hreq
  obtain ⟨⟨origin, message⟩, hlist, hm⟩ := List.map_eq_singleton_iff.1 hsent
  obtain ⟨horigin, hmemory⟩ := Prod.mk.inj hm
  have hcarries := hkept 0 hints hget ⟨origin, message⟩ (by simp [hlist]) horigin
  cases message with
  | executor e msg => cases hmemory
  | coordinator call =>
    obtain ⟨r, hrequests, hr⟩ := List.map_eq_singleton_iff.1 hmemory
    have hhints : (r.cpuCores, r.memoryMb) = hints := hcarries r (by simp [hrequests])
    rw [← hhints] at hmem
    exact absurd (hmem.symm.trans hr) (by decide)

end Node

end Demeter.Scheduler
