import Demeter.Executor.CallMessage

/-!
# Objects between an executor and its scheduler

`UserLibrary::send_object` and `get_object` in `include/executor/function_lib.hpp`, with the
branches of `src/scheduler/scheduler_server.cpp` that read the one and answer the other.

* `sendObject` writes an object, `readObject` is the handler's reader; `recovers_iff` says which
  objects it reads back;
* `getResponse` is the answer to a get request on each of its three paths, `getObject` its reader;
  `decodes_iff` says where the two agree.

`none` stands for an exception that nothing catches, and for a read outside the message.
-/

namespace Demeter.Executor

open Demeter.Scheduler (Bytes ascii toStringNat)

/-! ### Sending an object -/

/-- The request types 2, 3 and 4. -/
inductive SendKind where
  | ephemeral
  | persist
  | clientResponse
  deriving DecidableEq

/-- The second byte of the message. -/
def SendKind.code : SendKind → UInt8
  | .ephemeral => 2
  | .persist => 3
  | .clientResponse => 4

/-- The kind of request that `send_object` makes. -/
def sendKind (output : Bool) (persistFlag : UInt8) : SendKind :=
  if output then
    if persistFlag = 1 then .persist else .clientResponse
  else .ephemeral

/-- The largest object that is sent with its message. -/
def msgDataPackingThreshold : ℕ := 1024

/-- What `send_object` writes: the library's session and function, and the object. -/
structure SentObject where
  chanId : UInt8
  kind : SendKind
  reqId : UInt8
  sessionId : Bytes
  function : Bytes
  targetFunc : Bytes
  bucket : Bytes
  sessionKey : Bytes
  payload : Bytes
  deriving DecidableEq

namespace SentObject

/-- The name of the object in the store of the node. -/
def objName (o : SentObject) : Bytes := o.bucket ++ kDelimiterChar :: o.sessionKey

/-- The payload itself, or its size. -/
def body (o : SentObject) : Bytes :=
  if o.payload.length ≤ msgDataPackingThreshold then o.payload else toStringNat o.payload.length

/-- No delimiter and no NUL in the names. -/
def CleanNames (o : SentObject) : Prop :=
  ∀ x ∈ [o.sessionId, o.function, o.targetFunc, o.bucket, o.sessionKey], Clean x

instance (o : SentObject) : Decidable o.CleanNames :=
  inferInstanceAs (Decidable (∀ x ∈ _, Clean x))

end SentObject

/-- `send_object`: the value of a small object, the size of a large one. -/
def sendObject (o : SentObject) : Bytes :=
  [o.chanId, o.kind.code, o.reqId, if o.payload.length ≤ msgDataPackingThreshold then 1 else 2] ++
    o.sessionId ++ kDelimiterChar :: (o.function ++ kDelimiterChar :: (o.targetFunc ++
      kDelimiterChar :: (o.objName ++ kDelimiterChar :: o.body)))

/-- What the message carries of the object. -/
inductive Carried where
  | value (data : Bytes)
  | size (n : ℤ)
  /-- The packing flag is neither 1 nor 2. -/
  | nothing
  deriving DecidableEq

/-- What the send object handler has read when it comes to its work. -/
structure ReceivedObject where
  executorId : UInt8
  kind : SendKind
  reqId : UInt8
  sessionId : Bytes
  srcFunction : Bytes
  tgtFunction : Bytes
  objName : Bytes
  carried : Carried
  deriving DecidableEq

/-- What the scheduler takes from the last field. -/
def carriedOf (isDataPacking : UInt8) (info : Bytes) : Option Carried :=
  if isDataPacking = 1 then some (.value info)
  else if isDataPacking = 2 then (stoi info).map .size
  else some .nothing

/-- The handler for the types 2, 3 and 4; `some none` if it finds fewer than six fields. -/
def readInfos (executorId : UInt8) (kind : SendKind) (reqId isDataPacking : UInt8) :
    List Bytes → Option (Option ReceivedObject)
  | sessionId :: srcFunction :: tgtFunction :: bucket :: sessionKey :: info :: _ => do
      let carried ← carriedOf isDataPacking info
      some (some ⟨executorId, kind, reqId, sessionId, srcFunction, tgtFunction,
        bucket ++ kDelimiterChar :: sessionKey, carried⟩)
  | _ => some none

/-- Read a message of the types 2, 3 and 4; `some none` if it is rejected or of another type. -/
def readObject (str : Bytes) : Option (Option ReceivedObject) := do
  let executorId := (← str[0]?) - 1
  let type ← str[1]?
  let read (kind : SendKind) : Option (Option ReceivedObject) := do
    readInfos executorId kind (← str[2]?) (← str[3]?)
      (GetLine.split kDelimiterChar ((str.drop 4).takeWhile (· ≠ 0)))
  if type = 2 then read .ephemeral
  else if type = 3 then read .persist
  else if type = 4 then read .clientResponse
  else some none

/-- The handler recovers all fields, and the payload or its size. -/
def Recovers (o : SentObject) : Prop :=
  readObject (sendString (sendObject o)) = some (some ⟨o.chanId - 1, o.kind, o.reqId, o.sessionId,
    o.function, o.targetFunc, o.objName,
    if o.payload.length ≤ msgDataPackingThreshold then .value o.payload
    else .size o.payload.length⟩)

instance (o : SentObject) : Decidable (Recovers o) := inferInstanceAs (Decidable (_ = _))

/-- The names are split off, and the rest is a C string. -/
theorem readObject_sendObject {o : SentObject} (h : o.CleanNames) :
    readObject (sendString (sendObject o)) =
      readInfos (o.chanId - 1) o.kind o.reqId
        (if o.payload.length ≤ msgDataPackingThreshold then 1 else 2)
        (o.sessionId :: o.function :: o.targetFunc :: o.bucket :: o.sessionKey ::
          GetLine.split kDelimiterChar (o.body.takeWhile (· ≠ 0))) := by
  simp only [SentObject.CleanNames, List.forall_mem_cons] at h
  obtain ⟨hs, hf, ht, hb, hk, -⟩ := h
  have hcut : ∀ {x rest : Bytes}, Clean x →
      (x ++ kDelimiterChar :: rest).takeWhile (· ≠ 0) =
        x ++ kDelimiterChar :: rest.takeWhile (· ≠ 0) := by
    intro x rest hx
    rw [List.takeWhile_append_of_pos fun c hc => by simpa using fun h0 : c = 0 => hx.2 (h0 ▸ hc)]
    rfl
  -- only the body, which comes last, may have a NUL of its own
  have hbody : (o.body ++ [0]).takeWhile (· ≠ 0) = o.body.takeWhile (· ≠ 0) :=
    takeWhile_sendString o.body
  have hsplit : GetLine.split kDelimiterChar (((sendString (sendObject o)).drop 4).takeWhile
      (· ≠ 0)) = o.sessionId :: o.function :: o.targetFunc :: o.bucket :: o.sessionKey ::
        GetLine.split kDelimiterChar (o.body.takeWhile (· ≠ 0)) := by
    simp only [sendString, sendObject, SentObject.objName, List.cons_append, List.nil_append,
      List.append_assoc, List.drop_succ_cons, List.drop_zero]
    rw [hcut hs, GetLine.split_append_cons hs.1, hcut hf, GetLine.split_append_cons hf.1, hcut ht,
      GetLine.split_append_cons ht.1, hcut hb, GetLine.split_append_cons hb.1, hcut hk,
      GetLine.split_append_cons hk.1, hbody]
  have h0 : (sendString (sendObject o))[0]? = some o.chanId := rfl
  have h1 : (sendString (sendObject o))[1]? = some o.kind.code := rfl
  have h2 : (sendString (sendObject o))[2]? = some o.reqId := rfl
  have h3 : (sendString (sendObject o))[3]? =
      some (if o.payload.length ≤ msgDataPackingThreshold then 1 else 2) := rfl
  simp only [readObject, h0, h1, h2, h3, hsplit, Option.bind_eq_bind, Option.bind_some]
  cases o.kind <;> rfl

/-- The first item that `getline` reads is the whole text if there is a text and it has no
delimiter and no NUL. -/
theorem head?_split_takeWhile_iff {p : Bytes} :
    (GetLine.split kDelimiterChar (p.takeWhile (· ≠ 0))).head? = some p ↔ p ≠ [] ∧ Clean p := by
  constructor
  · intro h
    have hp := GetLine.head?_split h
    have hmem : ∀ c ∈ p, c ≠ kDelimiterChar ∧ c ≠ 0 := by
      intro c hc
      rw [hp] at hc
      have hc' := (List.takeWhile_sublist _).mem hc
      exact ⟨by simpa using List.mem_takeWhile_imp hc, by simpa using List.mem_takeWhile_imp hc'⟩
    refine ⟨?_, fun hd => (hmem _ hd).1 rfl, fun h0 => (hmem _ h0).2 rfl⟩
    rintro rfl
    cases h
  · rintro ⟨hne, hd, h0⟩
    have hcut : p.takeWhile (· ≠ 0) = p :=
      List.takeWhile_eq_self_iff.2 fun c hc => by simpa using fun hc0 : c = 0 => h0 (hc0 ▸ hc)
    rw [hcut, GetLine.split_of_notMem hd hne]
    rfl

/-- **Object framing.**  With clean names, the handler recovers a packed object exactly when its
payload is not empty and has no delimiter and no NUL, and the size of any other object exactly
when it fits an `int`. -/
theorem recovers_iff {o : SentObject} (h : o.CleanNames) :
    Recovers o ↔
      if o.payload.length ≤ msgDataPackingThreshold then o.payload ≠ [] ∧ Clean o.payload
      else o.payload.length < 2 ^ 31 := by
  rw [Recovers, readObject_sendObject h]
  by_cases hpack : o.payload.length ≤ msgDataPackingThreshold
  · simp only [hpack, if_true, SentObject.body, ← head?_split_takeWhile_iff]
    cases GetLine.split kDelimiterChar (o.payload.takeWhile (· ≠ 0)) with
    | nil => simp [readInfos]
    | cons info infos => simp [readInfos, carriedOf, SentObject.objName]
  · have hhead := head?_split_takeWhile_iff.2
      ⟨toStringNat_ne_nil o.payload.length, clean_toStringNat o.payload.length⟩
    simp only [hpack, if_false, SentObject.body]
    cases hinfos : GetLine.split kDelimiterChar ((toStringNat o.payload.length).takeWhile (· ≠ 0))
      with
    | nil =>
      rw [hinfos] at hhead
      cases hhead
    | cons info infos =>
      rw [hinfos] at hhead
      obtain rfl : info = toStringNat o.payload.length := Option.some.inj hhead
      simp only [readInfos, carriedOf, stoi_toStringNat, SentObject.objName]
      by_cases hsize : o.payload.length < 2 ^ 31
      · rw [if_pos hsize]
        simpa using hsize
      · rw [if_neg hsize]
        simpa using hsize

/-- An object to be persisted, as a user's function sends it. -/
def sampleObject (payload : Bytes) : SentObject where
  chanId := 1
  kind := sendKind true 1
  reqId := 7
  sessionId := ascii "s1"
  function := ascii "map"
  targetFunc := []
  bucket := ascii "b"
  sessionKey := ascii "s1_k"
  payload := payload

theorem recovers_sample : Recovers (sampleObject (ascii "42")) :=
  (recovers_iff (by decide)).2 (by decide)

/-- The handler stores `a` for the object `a|b`. -/
theorem not_recovers_sample :
    (sampleObject (ascii "a|b")).CleanNames ∧ ¬ Recovers (sampleObject (ascii "a|b")) := by
  decide +kernel

/-! ### Getting an object -/

/-- `get_request_id`, for the request made after `n` others. -/
def requestId : ℕ → UInt8
  | 0 => 1
  | n + 1 => if (requestId n + 1) % 100 = 0 then 0 else requestId n + 1

/-- The local name of an object of the durable store. -/
def kvsName (key : Bytes) : Bytes := ascii "KVS" ++ kDelimiterChar :: key

/-- The request that `get_object` sends; the length of the name takes one byte. -/
def getRequest (chanId : UInt8) (fromEpheStore : Bool) (reqId : UInt8) (objName : Bytes) : Bytes :=
  [chanId, 1, if fromEpheStore then 1 else 2, reqId, UInt8.ofNat objName.length] ++ objName

/-- The paths on which the scheduler answers a get request. -/
inductive GetPath where
  /-- The object is in `key_len_map` already. -/
  | here
  | dataResp
  | kvsGetResp
  deriving DecidableEq

/-- The response to a get request for an object of `size` bytes, of which the scheduler keeps an
`unsigned`.  For `DataResp` the size is appended as a single character. -/
def getResponse (path : GetPath) (reqId : UInt8) (size : ℕ) : Bytes :=
  let sizeLen := size % 2 ^ 32
  match path with
  | .here => [3, reqId, 1] ++ toStringNat sizeLen
  | .dataResp => [3, reqId, 1] ++ [UInt8.ofNat sizeLen]
  | .kvsGetResp => [3, reqId, 1] ++ toStringNat sizeLen

/-- What `get_object` makes of a response. -/
inductive GetResult where
  | timeout
  | incorrectType
  | wrongRequestId
  | kvsError
  | object (size : ℕ)
  deriving DecidableEq

/-- A `char` as a number. -/
def charVal (c : UInt8) : ℤ := c.toInt8.toInt

/-- Read a response, if there is one. -/
def getObject (reqId : UInt8) : Option Bytes → Option GetResult
  | none => some .timeout
  | some str => do
      if charVal (← str[0]?) ≠ 3 then return .incorrectType
      if charVal (← str[1]?) ≠ reqId.toNat then return .wrongRequestId
      if charVal (← str[2]?) ≠ 1 then return .kvsError
      let sizeLen ← stoi ((str.drop 3).takeWhile (· ≠ 0))
      return .object (toSize sizeLen)

/-- The response is read as a success of this request with exactly this size. -/
def Decodes (path : GetPath) (n size : ℕ) : Prop :=
  getObject (requestId n) (some (sendString (getResponse path (requestId n) size))) =
    some (.object size)

instance (path : GetPath) (n size : ℕ) : Decidable (Decodes path n size) :=
  inferInstanceAs (Decidable (_ = _))

/-- Request ids wrap around at 100. -/
theorem requestId_lt (n : ℕ) : (requestId n).toNat < 100 := by
  induction n with
  | zero => decide
  | succ n ih =>
    have hadd : (requestId n + 1).toNat = (requestId n).toNat + 1 := by
      rw [UInt8.toNat_add]
      show ((requestId n).toNat + 1) % 256 = _
      omega
    rw [requestId]
    split_ifs with h
    · decide
    · have hne : (requestId n + 1).toNat % 100 ≠ 0 := fun h0 =>
        h (UInt8.toNat_inj.1 (by simpa using h0))
      omega

theorem charVal_of_lt {c : UInt8} (h : c.toNat < 128) : charVal c = c.toNat := by
  show c.toBitVec.toInt = c.toNat
  rw [BitVec.toInt_eq_toNat_of_lt]
  · rfl
  · show 2 * c.toNat < 2 ^ 8
    omega

/-- The size is the text after the first three characters. -/
theorem getObject_sendString (n : ℕ) (text : Bytes) :
    getObject (requestId n) (some (sendString ([3, requestId n, 1] ++ text))) =
      (stoi (text.takeWhile (· ≠ 0))).map fun sizeLen => .object (toSize sizeLen) := by
  have hid : charVal (requestId n) = (requestId n).toNat :=
    charVal_of_lt (by have := requestId_lt n; omega)
  have h3 : charVal 3 = 3 := by decide
  have h1 : charVal 1 = 1 := by decide
  have htext : ((sendString ([3, requestId n, 1] ++ text)).drop 3).takeWhile (· ≠ 0) =
      text.takeWhile (· ≠ 0) := takeWhile_sendString text
  simp only [getObject, htext]
  simp only [sendString, List.cons_append, List.getElem?_cons_zero, List.getElem?_cons_succ, hid,
    h3, h1, Option.bind_eq_bind, Option.bind_some, ne_eq, not_true_eq_false, if_false]
  cases stoi (text.takeWhile (¬ · = 0)) <;> rfl

/-- A single character is never read as the number it was made from. -/
theorem stoi_singleton {c : UInt8} {v : ℤ} (h : stoi [c] = some v) : v + 48 = c.toNat := by
  have hall : ∀ n < 256, ∀ v ∈ stoi [UInt8.ofNat n], v + 48 = n := by decide +kernel
  have hc := hall c.toNat c.toNat_lt v (by simpa using h)
  exact hc

/-- **Size agreement of the get protocol.**  A response is read back with its size exactly when it
does not come from `DataResp` and the size fits an `int`. -/
theorem decodes_iff (path : GetPath) (n size : ℕ) :
    Decodes path n size ↔ path ≠ .dataResp ∧ size < 2 ^ 31 := by
  have hprinted : getObject (requestId n) (some (sendString
      ([3, requestId n, 1] ++ toStringNat (size % 2 ^ 32)))) = some (.object size) ↔
        size < 2 ^ 31 := by
    have hcut : (toStringNat (size % 2 ^ 32)).takeWhile (· ≠ 0) = toStringNat (size % 2 ^ 32) :=
      takeWhile_of_clean (clean_toStringNat _)
    rw [getObject_sendString, hcut, stoi_toStringNat]
    by_cases hsize : size % 2 ^ 32 < 2 ^ 31
    · have hback : toSize ((size % 2 ^ 32 : ℕ) : ℤ) = size % 2 ^ 32 := by
        unfold toSize
        omega
      rw [if_pos hsize, Option.map_some, hback, Option.some.injEq, GetResult.object.injEq]
      omega
    · rw [if_neg hsize]
      constructor
      · intro h
        cases h
      · omega
  cases path with
  | here => simpa [Decodes, getResponse] using hprinted
  | kvsGetResp => simpa [Decodes, getResponse] using hprinted
  | dataResp =>
    simp only [ne_eq, not_true_eq_false, false_and, iff_false]
    intro h
    rw [Decodes, getResponse, getObject_sendString] at h
    obtain ⟨v, hv, hsize⟩ := Option.map_eq_some_iff.1 h
    -- the text is the character itself, or empty if that is NUL
    by_cases h0 : UInt8.ofNat (size % 2 ^ 32) = 0
    · rw [h0] at hv
      cases hv
    · rw [List.takeWhile_cons_of_pos (by simpa using h0), List.takeWhile_nil] at hv
      have hchar := stoi_singleton hv
      rw [UInt8.toNat_ofNat'] at hchar
      rw [GetResult.object.injEq, toSize] at hsize
      omega

/-- An object of 5 bytes that was fetched from another node. -/
theorem not_decodes_sample : ¬ Decodes .dataResp 0 5 := by
  decide +kernel

end Demeter.Executor
