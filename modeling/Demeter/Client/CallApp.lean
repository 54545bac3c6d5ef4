import Demeter.Lib.Runs
import Demeter.Coordinator.FuncCallHandler
import Demeter.Scheduler.Messages

/-!
# Synchronous calls of a client

`PheromoneClient.call_app` in `client/pheromone/client.py`, with the two senders of
`FunctionCallResponse` messages: `CommHelper::client_response` of a worker and the error response of
the coordinator.

* `PheromoneClient.step` is one event: an invocation, a response that arrives at the socket, or
  what the receive loop of the current invocation does;
* `ownAnswers_run` says when every invocation returns the output of a response to itself.

Invocations are numbered in the order in which they are made, and an arriving response carries the
number of the invocation that it answers.  The messages do not: a worker's response has no request
id, and the client looks at none.
-/

namespace Demeter.Client

open Demeter.Coordinator (Address Argument FunctionRequest FunctionCall FunctionCallResponse
  errorResponses)
open Demeter.Scheduler (Bytes ascii)

/-! ### The messages -/

/-- One item of `func_args`: a function, its arguments as text, and resources if they are given. -/
structure FuncItem where
  func : String
  args : List Bytes
  cpuCores : Option Float := none
  memoryMb : Option ℕ := none

/-- The request for an item; a missing hint is 0. -/
def FuncItem.request (item : FuncItem) : FunctionRequest where
  name := item.func
  arguments := item.args.map fun arg => { body := arg, argFlag := 0 }
  cpuCores := item.cpuCores.getD 0
  memoryMb := item.memoryMb.getD 0

/-- The response of a worker to its client. -/
def clientResponse (appName : String) (outputData : Bytes) : FunctionCallResponse where
  appName := appName
  errorNo := 0
  output := outputData

/-! ### The client -/

/-- The invocation that waits in its receive loop, and the retries it has left. -/
structure Invocation where
  number : ℕ
  retry : ℕ

/-- An output, and the invocation to which it is a response. -/
structure Answer where
  source : ℕ
  output : Bytes
  deriving DecidableEq

/-- The client with its socket, and what it has sent so far. -/
structure PheromoneClient where
  responseAddress : Address
  rid : ℕ := 0
  appCoords : Finset String := ∅
  /-- The calls of the invocations made so far. -/
  calls : List FunctionCall := []
  /-- What was sent to coordinators, retries included. -/
  sent : List FunctionCall := []
  /-- The responses at `response_puller`, each with the invocation that it answers. -/
  socket : List (ℕ × FunctionCallResponse) := []
  current : Option Invocation := none
  /-- What the invocations returned; `none` is the value `None`. -/
  returned : List (ℕ × Option Answer) := []

/-- A call of the application, or something that happens at the sockets. -/
inductive Event where
  | callApp (appName : String) (funcArgs : List FuncItem) (synchronous : Bool) (retry : ℕ)
  | workerResponse (n : ℕ) (output : Bytes)
  | coordinatorResponse (n : ℕ)
  | receive
  | timeout
  /-- The socket raises another error. -/
  | zmqError

namespace PheromoneClient

/-- The number of the last request id after the coordinator of the application is known. -/
def tryGetAppCoord (c : PheromoneClient) (appName : String) : ℕ :=
  if appName ∈ c.appCoords then c.rid else c.rid + 1

/-- The first part of `call_app`, up to the sending of the call. -/
def callApp (c : PheromoneClient) (appName : String) (funcArgs : List FuncItem)
    (synchronous : Bool) (retry : ℕ) : PheromoneClient :=
  let rid := c.tryGetAppCoord appName + 1
  let call : FunctionCall :=
    { appName := appName
      requests := funcArgs.map FuncItem.request
      requestId := toString rid
      syncDataStatus := false
      respAddress := if synchronous then c.responseAddress else "" }
  { c with
    rid := rid
    appCoords := insert appName c.appCoords
    calls := c.calls ++ [call]
    sent := c.sent ++ [call]
    current := if synchronous then some ⟨c.calls.length, retry⟩ else none }

/-- The current invocation returns. -/
def finish (c : PheromoneClient) (i : Invocation) (answer : Option Answer) : PheromoneClient :=
  { c with current := none, returned := c.returned ++ [(i.number, answer)] }

/-- One event; `none` if it cannot happen. -/
def step (c : PheromoneClient) : Event → Option PheromoneClient
  | .callApp appName funcArgs synchronous retry =>
      if c.current.isNone then some (c.callApp appName funcArgs synchronous retry) else none
  | .workerResponse n output => do
      let call ← c.calls[n]?
      guard (call.respAddress ≠ "")
      some { c with socket := c.socket ++ [(n, clientResponse call.appName output)] }
  | .coordinatorResponse n => do
      let call ← c.calls[n]?
      some { c with socket := c.socket ++ (errorResponses call).map fun r => (n, r.2) }
  | .receive => do
      let i ← c.current
      match c.socket with
      | [] => none
      | (n, r) :: rest =>
          -- the first response is taken, whatever it answers
          some ({ c with socket := rest }.finish i
            (if r.errorNo = 0 then some ⟨n, r.output⟩ else none))
  | .timeout => do
      let i ← c.current
      guard c.socket.isEmpty
      if i.retry > 0 then
        let call ← c.calls[i.number]?
        some { c with sent := c.sent ++ [call], current := some ⟨i.number, i.retry - 1⟩ }
      else some (c.finish i none)
  | .zmqError => do
      let i ← c.current
      some (c.finish i none)

/-! ### Whose output is returned -/

/-- Every output that an invocation returned is one of a response to that invocation. -/
def OwnAnswers (c : PheromoneClient) : Prop := ∀ r ∈ c.returned, ∀ a ∈ r.2, a.source = r.1

/-- A synchronous invocation starts without an output in the socket, and an output that arrives
during an invocation answers that invocation. -/
def Undisturbed (c : PheromoneClient) : Event → Prop
  | .callApp _ _ synchronous _ => synchronous → ∀ m ∈ c.socket, m.2.errorNo ≠ 0
  | .workerResponse n _ => ∀ i ∈ c.current, n = i.number
  | _ => True

instance (c : PheromoneClient) : ∀ e, Decidable (c.Undisturbed e)
  | .callApp _ _ synchronous _ =>
      inferInstanceAs (Decidable (synchronous → ∀ m ∈ c.socket, m.2.errorNo ≠ 0))
  | .workerResponse n _ => inferInstanceAs (Decidable (∀ i ∈ c.current, n = i.number))
  | .coordinatorResponse _ | .receive | .timeout | .zmqError => .isTrue trivial

/-- During an invocation all outputs in the socket answer it. -/
structure Matched (c : PheromoneClient) : Prop where
  socket : ∀ i ∈ c.current, ∀ m ∈ c.socket, m.2.errorNo = 0 → m.1 = i.number
  returned : c.OwnAnswers

/-- An invocation that returns its own answer or `None`. -/
theorem Matched.finish {c : PheromoneClient} (h : c.Matched) (i : Invocation)
    {answer : Option Answer} (ha : ∀ a ∈ answer, a.source = i.number) :
    (c.finish i answer).Matched where
  socket := by simp [PheromoneClient.finish]
  returned := by
    intro r hr
    rcases List.mem_append.1 hr with hr | hr
    · exact h.returned r hr
    · rw [List.mem_singleton.1 hr]
      exact ha

/-- Responses arrive, and the outputs among them answer the invocation. -/
theorem Matched.arrive {c : PheromoneClient} (h : c.Matched)
    {responses : List (ℕ × FunctionCallResponse)}
    (hown : ∀ i ∈ c.current, ∀ m ∈ responses, m.2.errorNo = 0 → m.1 = i.number) :
    Matched { c with socket := c.socket ++ responses } := by
  refine ⟨fun i hi m hm herr => ?_, h.returned⟩
  rcases List.mem_append.1 hm with hm | hm
  · exact h.socket i hi m hm herr
  · exact hown i hi m hm herr

/-- The coordinator sends no outputs. -/
theorem errorNo_errorResponses {call : FunctionCall} {r : Address × FunctionCallResponse}
    (hr : r ∈ errorResponses call) : r.2.errorNo ≠ 0 := by
  unfold errorResponses at hr
  split_ifs at hr
  · rw [List.mem_singleton.1 hr]
    exact one_ne_zero
  · cases hr

theorem matched_step {c c' : PheromoneClient} {e : Event} (hu : c.Undisturbed e)
    (hstep : c.step e = some c') (h : c.Matched) : c'.Matched := by
  cases e with
  | callApp appName funcArgs synchronous retry =>
    simp only [step] at hstep
    split_ifs at hstep
    cases hstep
    refine ⟨fun i hi m hm herr => ?_, h.returned⟩
    cases synchronous with
    | true => exact absurd herr (hu rfl m hm)
    | false => simp [callApp] at hi
  | workerResponse n output =>
    simp only [step, Option.bind_eq_bind, Option.bind_eq_some_iff] at hstep
    obtain ⟨call, -, u, -, hstep⟩ := hstep
    cases hstep
    refine h.arrive fun i hi m hm _ => ?_
    rw [List.mem_singleton.1 hm]
    exact hu i hi
  | coordinatorResponse n =>
    simp only [step, Option.bind_eq_bind, Option.bind_eq_some_iff] at hstep
    obtain ⟨call, -, hstep⟩ := hstep
    cases hstep
    refine h.arrive fun i hi m hm herr => ?_
    obtain ⟨r, hr, rfl⟩ := List.mem_map.1 hm
    exact absurd herr (errorNo_errorResponses hr)
  | receive =>
    simp only [step, Option.bind_eq_bind, Option.bind_eq_some_iff] at hstep
    obtain ⟨i, hi, hstep⟩ := hstep
    cases hsocket : c.socket with
    | nil =>
      rw [hsocket] at hstep
      cases hstep
    | cons m rest =>
      rw [hsocket] at hstep
      cases hstep
      have hrest : Matched { c with socket := rest } :=
        ⟨fun i' hi' m' hm' => h.socket i' hi' m' (hsocket ▸ List.mem_cons_of_mem m hm'), h.returned⟩
      refine hrest.finish i fun a ha => ?_
      split_ifs at ha with herr
      · obtain rfl := Option.some.inj ha
        exact h.socket i hi m (hsocket ▸ List.mem_cons_self) herr
      · cases ha
  | timeout =>
    simp only [step, Option.bind_eq_bind, Option.bind_eq_some_iff] at hstep
    obtain ⟨i, hi, u, -, hstep⟩ := hstep
    split_ifs at hstep
    · obtain ⟨call, -, hstep⟩ := Option.bind_eq_some_iff.1 hstep
      cases hstep
      refine ⟨fun i' hi' => ?_, h.returned⟩
      obtain rfl := Option.some.inj hi'
      exact h.socket i hi
    · cases hstep
      exact h.finish i (by simp)
  | zmqError =>
    simp only [step, Option.bind_eq_bind, Option.bind_eq_some_iff] at hstep
    obtain ⟨i, hi, hstep⟩ := hstep
    cases hstep
    exact h.finish i (by simp)

/-- **Answers of synchronous calls.**  In every run in which an invocation starts without an output
in the socket, and outputs that arrive during an invocation answer it, every invocation returns the
output of a response to itself, or `None`. -/
theorem ownAnswers_run {responseAddress : Address} {events : List Event} {c : PheromoneClient}
    (hu : Runs.Allowed step Undisturbed { responseAddress := responseAddress } events)
    (hrun : Runs.exec step { responseAddress := responseAddress } events = some c) :
    c.OwnAnswers := by
  have hstart : Matched { responseAddress := responseAddress } :=
    ⟨by simp, by simp [OwnAnswers]⟩
  exact (Runs.exec_invariant (fun _ _ _ => matched_step) hu hrun hstart).returned

/-- Two invocations that are answered in time, the first one after a retry. -/
def promptCalls : List Event :=
  [.callApp "wordcount" [] true 1, .timeout, .workerResponse 0 (ascii "first"), .receive,
    .callApp "wordcount" [] true 0, .workerResponse 1 (ascii "second"), .receive]

theorem ownAnswers_sample :
    ∃ c, Runs.exec step { responseAddress := "tcp://10.0.0.2:9000" } promptCalls = some c ∧
      c.OwnAnswers := by
  have hrun : (Runs.exec step { responseAddress := "tcp://10.0.0.2:9000" } promptCalls).isSome := by
    decide +kernel
  obtain ⟨c, hc⟩ := Option.isSome_iff_exists.1 hrun
  exact ⟨c, hc, ownAnswers_run (by decide +kernel) hc⟩

/-- The first invocation gives up, its response arrives late and is returned by the second one. -/
theorem not_ownAnswers_sample :
    ∃ c, Runs.exec step { responseAddress := "tcp://10.0.0.2:9000" }
        [.callApp "wordcount" [] true 0, .timeout, .workerResponse 0 (ascii "first"),
          .callApp "wordcount" [] true 0, .receive] = some c ∧
      c.returned = [(0, none), (1, some ⟨0, ascii "first"⟩)] ∧ ¬ c.OwnAnswers := by
  have hrun : (Runs.exec step { responseAddress := "tcp://10.0.0.2:9000" }
      [.callApp "wordcount" [] true 0, .timeout, .workerResponse 0 (ascii "first"),
        .callApp "wordcount" [] true 0, .receive]).map returned =
      some [(0, none), (1, some ⟨0, ascii "first"⟩)] := by
    decide +kernel
  obtain ⟨c, hc, hreturned⟩ := Option.map_eq_some_iff.1 hrun
  refine ⟨c, hc, hreturned, fun h => ?_⟩
  have hsource := h (1, some ⟨0, ascii "first"⟩) (by rw [hreturned]; simp) _ rfl
  cases hsource

end PheromoneClient

end Demeter.Client
