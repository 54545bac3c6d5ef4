import Demeter.Scheduler.Messages

/-!
# Frames between data servers

A node asks another one for an object with the frame of `send_data_req_base` and gets the frame that
`handle_data_request` builds, which `handle_data_response` reads (all in
`include/scheduler/comm_helper.hpp`).  Both frames start with the length of the key in one byte.

* `cutFrame` reads the length and the key, `cutFrame_of_length_lt` is its law;
* `RoundTrips` says that the request and the response are recovered exactly;
* `roundTrips_frames_iff`: this is so when the length of the key fits into its byte and the length
  of the response into 32 bits.

`none` stands for an access outside of a message.
-/

namespace Demeter.Scheduler

/-! ### Frames -/

/-- The first byte, as many bytes as it says, and the rest. -/
def cutFrame : Bytes → Option (UInt8 × Bytes × Bytes)
  | [] => none
  | keyLen :: rest =>
      if keyLen.toNat ≤ rest.length then
        some (keyLen, rest.take keyLen.toNat, rest.drop keyLen.toNat)
      else none

/-- The port on which answers are received. -/
def dataAccessClientPort : ℕ := 4450

/-- The address of an I/O thread of the node that asks. -/
def requesterAddress (ip : Bytes) (tid : ℕ) : Bytes :=
  ascii "tcp://" ++ ip ++ ascii ":" ++ toStringNat (tid + dataAccessClientPort)

/-- The frame of `send_data_req_base`. -/
def dataRequest (key ip : Bytes) (tid : ℕ) : Bytes :=
  UInt8.ofNat key.length :: (key ++ requesterAddress ip tid)

/-- The bytes of an object; their number is an `unsigned`. -/
structure Payload where
  bytes : Bytes
  lt : bytes.length < 2 ^ 32

/-- What `handle_data_request` reads from a frame, and the frame it answers with if it has the
object. -/
structure HandledRequest where
  key : Bytes
  respAddress : Bytes
  response : Option Bytes

/-- The length of the response is computed in 32 bits. -/
def msgLen (keyLen : UInt8) (payload : Payload) : UInt32 :=
  keyLen.toUInt32 + UInt32.ofNat payload.bytes.length + 1

/-- The frame with the object; too short a message is written past its end. -/
def dataResponse (keyLen : UInt8) (key : Bytes) (payload : Payload) : Option Bytes :=
  if (msgLen keyLen payload).toNat = keyLen.toNat + payload.bytes.length + 1 then
    some (keyLen :: (key ++ payload.bytes))
  else none

/-- `handle_data_request`: an object without bytes is not answered. -/
def handleDataRequest (getFunc : Bytes → Payload) (frame : Bytes) : Option HandledRequest := do
  let (keyLen, key, respAddress) ← cutFrame frame
  let payload := getFunc key
  if payload.bytes.length > 0 then
    let response ← dataResponse keyLen key payload
    return { key := key, respAddress := respAddress, response := some response }
  else return { key := key, respAddress := respAddress, response := none }

/-- What `handle_data_response` passes on. -/
structure DataResponse where
  dataKey : Bytes
  data : Bytes
  dataSize : UInt32

/-- `handle_data_response`. -/
def handleDataResponse (frame : Bytes) : Option DataResponse := do
  let (keyLen, key, data) ← cutFrame frame
  return {
    dataKey := key
    data := data
    dataSize := UInt32.ofNat (frame.length - keyLen.toNat - 1) }

/-! ### Cutting a frame -/

theorem cutFrame_of_length_lt {key : Bytes} (h : key.length < 256) (body : Bytes) :
    cutFrame (UInt8.ofNat key.length :: (key ++ body)) =
      some (UInt8.ofNat key.length, key, body) := by
  have hlen : (UInt8.ofNat key.length).toNat = key.length := UInt8.toNat_ofNat_of_lt' h
  rw [cutFrame, hlen, if_pos (by simp), List.take_left, List.drop_left]

/-- The key is cut off when its length does not fit. -/
theorem length_of_cutFrame {frame key body : Bytes} {keyLen : UInt8}
    (h : cutFrame frame = some (keyLen, key, body)) : key.length < 256 := by
  cases frame with
  | nil => cases h
  | cons b rest =>
    rw [cutFrame] at h
    split_ifs at h with hle
    cases h
    rw [List.length_take, Nat.min_eq_left hle]
    exact UInt8.toNat_lt keyLen

/-! ### Round trips -/

/-- The request and the response are recovered exactly. -/
def RoundTrips (key ip : Bytes) (tid : ℕ) (payload : Payload) : Prop :=
  ∀ getFunc : Bytes → Payload, getFunc key = payload → ∃ response,
    handleDataRequest getFunc (dataRequest key ip tid) =
        some { key := key, respAddress := requesterAddress ip tid, response := some response } ∧
      handleDataResponse response =
        some { dataKey := key, data := payload.bytes
               dataSize := UInt32.ofNat payload.bytes.length }

theorem toNat_msgLen {key : Bytes} (h : key.length < 256) (payload : Payload) :
    (msgLen (UInt8.ofNat key.length) payload).toNat =
        (UInt8.ofNat key.length).toNat + payload.bytes.length + 1 ↔
      key.length + payload.bytes.length + 1 < 2 ^ 32 := by
  have hlen : (UInt8.ofNat key.length).toNat = key.length := UInt8.toNat_ofNat_of_lt' h
  have hpay := payload.lt
  rw [msgLen, UInt32.toNat_add, UInt32.toNat_add, UInt8.toNat_toUInt32, hlen,
    UInt32.toNat_ofNat_of_lt' hpay]
  have hone : (1 : UInt32).toNat = 1 := rfl
  rw [hone]
  omega

theorem handleDataResponse_of_length_lt {key : Bytes} (h : key.length < 256) (data : Bytes) :
    handleDataResponse (UInt8.ofNat key.length :: (key ++ data)) =
      some { dataKey := key, data := data, dataSize := UInt32.ofNat data.length } := by
  have hlen : (UInt8.ofNat key.length).toNat = key.length := UInt8.toNat_ofNat_of_lt' h
  have hsize : (UInt8.ofNat key.length :: (key ++ data)).length - (UInt8.ofNat key.length).toNat -
      1 = data.length := by
    rw [List.length_cons, List.length_append, hlen]
    omega
  simp only [handleDataResponse, cutFrame_of_length_lt h, Option.bind_eq_bind, Option.bind_some,
    hsize, Option.pure_def]

/-- **Frames of data servers.**  An object and the address of the node that asks for it are
recovered exactly if and only if the length of the key fits into a byte and the length of the
response into 32 bits. -/
theorem roundTrips_frames_iff (key ip : Bytes) (tid : ℕ) (payload : Payload)
    (hne : payload.bytes ≠ []) :
    RoundTrips key ip tid payload ↔
      key.length < 256 ∧ key.length + payload.bytes.length + 1 < 2 ^ 32 := by
  have hpos : payload.bytes.length > 0 := List.length_pos_of_ne_nil hne
  constructor
  · intro h
    obtain ⟨response, hreq, -⟩ := h (fun _ => payload) rfl
    simp only [handleDataRequest, Option.bind_eq_bind, Option.bind_eq_some_iff] at hreq
    obtain ⟨⟨keyLen, key', respAddress⟩, hcut, hreq⟩ := hreq
    simp only [if_pos hpos, Option.bind_eq_some_iff, Option.pure_def, Option.some.injEq,
      HandledRequest.mk.injEq] at hreq
    obtain ⟨response', hresp, rfl, -, -⟩ := hreq
    have hlt := length_of_cutFrame hcut
    rw [dataRequest, cutFrame_of_length_lt hlt, Option.some.injEq, Prod.mk.injEq] at hcut
    rw [dataResponse, ← hcut.1] at hresp
    split_ifs at hresp with hlen
    exact ⟨hlt, (toNat_msgLen hlt payload).1 hlen⟩
  · rintro ⟨hlt, hlen⟩ getFunc hget
    refine ⟨UInt8.ofNat key.length :: (key ++ payload.bytes), ?_,
      handleDataResponse_of_length_lt hlt payload.bytes⟩
    simp only [handleDataRequest, dataRequest, cutFrame_of_length_lt hlt, Option.bind_eq_bind,
      Option.bind_some, hget, if_pos hpos, dataResponse, if_pos ((toNat_msgLen hlt payload).2 hlen),
      Option.pure_def]

theorem roundTrips_frames_count :
    RoundTrips (ascii "wordcount|key|session") (ascii "10.0.0.11") 0 ⟨[7, 8], by decide⟩ :=
  (roundTrips_frames_iff _ _ _ _ (by decide)).2 ⟨by decide +kernel, by decide +kernel⟩

/-- The length of a key of 256 bytes is sent as 0. -/
theorem not_roundTrips_frames_longKey :
    ¬ RoundTrips (List.replicate 256 120) (ascii "10.0.0.11") 0 ⟨[7, 8], by decide⟩ := by
  intro h
  obtain ⟨response, hreq, -⟩ := h (fun _ => ⟨[7, 8], by decide⟩) rfl
  have hkey : (handleDataRequest (fun _ => ⟨[7, 8], by decide⟩) (dataRequest
      (List.replicate 256 120) (ascii "10.0.0.11") 0)).map HandledRequest.key =
        some (List.replicate 256 120) := congrArg (Option.map HandledRequest.key) hreq
  revert hkey
  decide +kernel

end Demeter.Scheduler
