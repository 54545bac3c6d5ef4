import Demeter.Executor.Server

/-!
# Forwarding a call to another node

When no executor is free, a call is sent back to its coordinator: `forward_call_via_helper` in
`src/scheduler/scheduler_server.cpp` and `CommHelper::forward_func_call` in
`include/scheduler/comm_helper.hpp`.  Small objects in shared memory are packed into the message,
and the call then travels with its arguments by value.

* `forwardCallViaHelper` is the forwarded message;
* `argVector` is what a user's function gets from the message to its executor, `localVector` for
  the call as it was, `remoteVector` for the call after it was forwarded;
* `transparent_iff` says when the two are the same.

`mem` is the shared memory of the node: the bytes of an object under its name.
-/

namespace Demeter.Scheduler

open Demeter.Coordinator (Address Argument FunctionRequest FunctionCall)
open Demeter.Executor (ArgValue ObjectRef Clean stoi kDelimiterChar encodeCall sendString decodeCall
  refArgs refFields)

/-- A call whose objects have fewer bytes than this takes them along. -/
def forwardDataPackingThreshold : ℕ := 10240

/-! ### The forwarded message -/

/-- The sum of the sizes; `none` if `stoi` throws or the fields do not come in threes. -/
def totalDataSize : List Bytes → Option ℤ
  | [] => some 0
  | _ :: _ :: sizeText :: rest => do
      let size ← stoi sizeText
      let total ← totalDataSize rest
      some (size + total)
  | _ => none

section Forward

variable (mem : Bytes → Bytes) (keyLenMap : Dict Bytes ℕ)

/-- The data of the objects, each with its key if `argFlag` is 2.  A missing length is 0. -/
def realDataArgs (argFlag : ℕ) : List Bytes → List Bytes
  | bucket :: key :: _ :: rest =>
      let keyName := bucket ++ kDelimiterChar :: key
      let realData := (mem keyName).take ((keyLenMap.get? keyName).getD 0)
      (if argFlag = 1 then [realData] else if argFlag = 2 then [key, realData] else []) ++
        realDataArgs argFlag rest
  | _ => []

variable (ip : Address) (dataServerAddr : Bytes → Address)

/-- Objects by their names, for arguments that come in threes. -/
def keyArguments (argFlag : ℕ) : List Bytes → List Argument
  | bucket :: key :: _ :: rest =>
      let keyName := bucket ++ kDelimiterChar :: key
      ⟨keyName, argFlag, dataServerAddr keyName⟩ :: keyArguments argFlag rest
  | _ => []

/-- The arguments of one request: objects by their names, or values. -/
def forwardArgs (argFlag : ℕ) (args : List Bytes) : List Argument :=
  if argFlag > 0 then keyArguments dataServerAddr argFlag args
  else args.map fun arg => { body := arg, argFlag := argFlag }

/-- `forward_func_call`, without resource hints. -/
def forwardFuncCall (respAddress : Address) (appName : String) (funcs : List (String × List Bytes))
    (argFlag : ℕ) (sessionId : String) : FunctionCall where
  appName := appName
  respAddress := respAddress
  source := ip
  sessionId := sessionId
  syncDataStatus := true
  requests := funcs.map fun f =>
    { name := f.1, arguments := forwardArgs dataServerAddr argFlag f.2 }

/-- The functions come with their arguments: bucket, key, size, bucket, key, size, ... -/
def forwardCallViaHelper (respAddress : Address) (sessionId appName : String)
    (funcs : List (String × List Bytes)) (argFlag : ℕ) : Option FunctionCall :=
  if argFlag > 0 then do
    let totals ← funcs.mapM fun f => totalDataSize f.2
    -- a negative sum is converted to a large unsigned number
    if 0 ≤ totals.sum ∧ totals.sum < forwardDataPackingThreshold then
      some (forwardFuncCall ip dataServerAddr respAddress appName
        (funcs.map fun f => (f.1, realDataArgs mem keyLenMap argFlag f.2)) 0 sessionId)
    else some (forwardFuncCall ip dataServerAddr respAddress appName funcs argFlag sessionId)
  else some (forwardFuncCall ip dataServerAddr respAddress appName funcs argFlag sessionId)

end Forward

/-! ### The arguments on either node -/

/-- The bytes that a user's function finds behind an argument. -/
def argBytes (mem : Bytes → Bytes) : ArgValue → Bytes
  | .chars text => text
  | .shm keyName size => (mem keyName).take size.toNat

/-- The arguments and their sizes that a user's function gets from a message to its executor. -/
def argVector (mem : Bytes → Bytes) (str : Bytes) : Option (List Bytes × List ℕ) :=
  match decodeCall str with
  | some (.call input) => some (input.argValues.map (argBytes mem), input.argSizes)
  | _ => none

section Vectors

variable (toStringDouble : Float → Bytes)

/-- The call goes to an executor of this node. -/
def localVector (mem : Bytes → Bytes) (clientAddr : Address) (cpuCores : Float) (memoryMb : ℕ)
    (sessionId funcName : String) (objects : List ObjectRef) (argFlag : ℕ) :
    Option (List Bytes × List ℕ) :=
  argVector mem (sendString (encodeCall toStringDouble clientAddr cpuCores memoryMb (utf8 sessionId)
    (utf8 funcName) (refArgs objects) argFlag))

/-- The message to an executor for a function of a received call whose arguments are values. -/
def plainMessage (recv : RecvCall) (f : RecvFunc) : Bytes :=
  encodeCall toStringDouble recv.respAddress f.cpuCores f.memoryMb (utf8 recv.sessionId)
    (utf8 f.funcName) f.funcArgs 0

/-- The `i`-th function of a forwarded call is handled by the scheduler and an executor of the
node that receives it. -/
def remoteVector (mem : Bytes → Bytes) (forwarded : Option FunctionCall) (i : ℕ) :
    Option (List Bytes × List ℕ) := do
  let recv := handleFunctionCall (← forwarded)
  let f ← recv.funcs[i]?
  guard (f.isFuncArgKey = 0)
  argVector mem (sendString (plainMessage toStringDouble recv f))

/-- A function of this node gets the data of its objects, each after its key if `argFlag` is 2. -/
def packedArgs (mem : Bytes → Bytes) (argFlag : ℕ) (o : ObjectRef) : List Bytes :=
  if argFlag = 1 then [mem o.name] else [o.key, mem o.name]

/-- The length of the object is recorded, and it is the size that the call gives. -/
def Recorded (mem : Bytes → Bytes) (keyLenMap : Dict Bytes ℕ) (o : ObjectRef) : Prop :=
  keyLenMap.get? o.name = some o.size ∧ (mem o.name).length = o.size

instance (mem : Bytes → Bytes) (keyLenMap : Dict Bytes ℕ) (o : ObjectRef) :
    Decidable (Recorded mem keyLenMap o) :=
  inferInstanceAs (Decidable (_ ∧ _))

/-- Whatever was sent, the arguments by value that arrive have no delimiter and no NUL. -/
theorem clean_of_argVector {mem : Bytes → Bytes} {clientAddr : Address} {cpuCores : Float}
    {memoryMb : ℕ} {sessionId funcName : Bytes} {args values : List Bytes} {sizes : List ℕ}
    (h : argVector mem (sendString (encodeCall toStringDouble clientAddr cpuCores memoryMb sessionId
      funcName args 0)) = some (values, sizes)) : ∀ x ∈ values, Clean x := by
  rw [argVector, Executor.decodeCall_eq_readHeader, Executor.readHeader_encodeCall] at h
  simp only [Option.bind_some, Executor.decodeFields] at h
  generalize htext : List.takeWhile _ _ = text at h
  have hzero : (0 : UInt8) ∉ text := by
    rw [← htext]
    exact fun h0 => by simpa using List.mem_takeWhile_imp h0
  rcases hfields : GetLine.split kDelimiterChar text with _ | ⟨sid, _ | ⟨name, fields⟩⟩
  · simp [hfields] at h
  · simp [hfields] at h
  · have hvalues : values = fields := by
      simp only [hfields] at h
      have hmap := (Prod.mk.inj (Option.some.inj h)).1
      rw [← hmap, List.map_map]
      exact List.map_id fields
    intro x hx
    have hmem : x ∈ GetLine.split kDelimiterChar text := by
      rw [hfields]
      exact List.mem_cons_of_mem _ (List.mem_cons_of_mem _ (hvalues ▸ hx))
    exact ⟨(GetLine.mem_split hmem).1, fun h0 => hzero ((GetLine.mem_split hmem).2 0 h0)⟩

/-- Arguments without delimiter and NUL: an empty field at the end is lost. -/
theorem argVector_encodeCall (mem : Bytes → Bytes) (clientAddr : Address) (cpuCores : Float)
    (memoryMb : ℕ) {sessionId funcName : Bytes} {args : List Bytes} (hs : Clean sessionId)
    (h : ∀ x ∈ funcName :: args, Clean x) :
    argVector mem (sendString (encodeCall toStringDouble clientAddr cpuCores memoryMb sessionId
        funcName args 0)) =
      match if (funcName :: args).getLast (List.cons_ne_nil funcName args) = [] then
          (funcName :: args).dropLast else funcName :: args with
      | _ :: values => some (values, values.map List.length)
      | [] => none := by
  obtain ⟨persist, resources, hdec⟩ :=
    Executor.decodeCall_encodeCall toStringDouble clientAddr cpuCores memoryMb hs h
  rw [GetLine.split_delimited fun x hx => (h x hx).1] at hdec
  rw [argVector, hdec]
  generalize (if (funcName :: args).getLast (List.cons_ne_nil funcName args) = [] then
    (funcName :: args).dropLast else funcName :: args) = fields
  cases fields with
  | nil => rfl
  | cons name values =>
    show some ((values.map ArgValue.chars).map (argBytes mem), values.map List.length) = _
    rw [List.map_map, show argBytes mem ∘ ArgValue.chars = id from rfl, List.map_id]

/-- Arguments by value arrive as they were sent exactly when they have no delimiter and no NUL and
the last field is not empty. -/
theorem argVector_encodeCall_iff (mem : Bytes → Bytes) (clientAddr : Address) (cpuCores : Float)
    (memoryMb : ℕ) {sessionId funcName : Bytes} (args : List Bytes) (hs : Clean sessionId)
    (hf : Clean funcName) :
    argVector mem (sendString (encodeCall toStringDouble clientAddr cpuCores memoryMb sessionId
        funcName args 0)) = some (args, args.map List.length) ↔
      (∀ x ∈ args, Clean x) ∧
        (funcName :: args).getLast (List.cons_ne_nil funcName args) ≠ [] := by
  constructor
  · intro h
    have hclean := clean_of_argVector toStringDouble h
    refine ⟨hclean, fun hlast => ?_⟩
    rw [argVector_encodeCall toStringDouble mem clientAddr cpuCores memoryMb hs
      (List.forall_mem_cons.2 ⟨hf, hclean⟩), if_pos hlast] at h
    -- one argument is missing, or even the function name
    cases args with
    | nil => cases h
    | cons a args =>
      have hcount := congrArg (fun v => v.2.length) (Option.some.inj h)
      simp at hcount
  · rintro ⟨hclean, hlast⟩
    rw [argVector_encodeCall toStringDouble mem clientAddr cpuCores memoryMb hs
      (List.forall_mem_cons.2 ⟨hf, hclean⟩), if_neg hlast]

/-- An object by value is what the function finds in shared memory. -/
theorem values_packedArgs (argFlag : ℕ) {mem : Bytes → Bytes} {keyLenMap : Dict Bytes ℕ}
    {objects : List ObjectRef} (hrec : ∀ o ∈ objects, Recorded mem keyLenMap o)
    (hsize : ∀ o ∈ objects, o.size < 2 ^ 31) :
    (objects.flatMap (ObjectRef.values argFlag)).map (argBytes mem) =
        objects.flatMap (packedArgs mem argFlag) ∧
      (objects.flatMap (ObjectRef.values argFlag)).map ArgValue.size =
        (objects.flatMap (packedArgs mem argFlag)).map List.length := by
  induction objects with
  | nil => exact ⟨rfl, rfl⟩
  | cons o objects ih =>
    obtain ⟨hvalues, hsizes⟩ := ih (fun o' ho' => hrec o' (List.mem_cons_of_mem o ho'))
      fun o' ho' => hsize o' (List.mem_cons_of_mem o ho')
    have hlen := (hrec o List.mem_cons_self).2
    have hto : Executor.toSize (o.size : ℤ) = (mem o.name).length := by
      have := hsize o List.mem_cons_self
      rw [Executor.toSize, hlen]
      omega
    simp only [List.flatMap_cons, List.map_append, hvalues, hsizes, ObjectRef.values, packedArgs]
    split_ifs <;> simp [argBytes, ArgValue.size, hto, hlen.le]

theorem localVector_eq {mem : Bytes → Bytes} {keyLenMap : Dict Bytes ℕ} (clientAddr : Address)
    (cpuCores : Float) (memoryMb : ℕ) {sessionId funcName : String} {objects : List ObjectRef}
    {argFlag : ℕ} (hflag : argFlag = 1 ∨ argFlag = 2) (hs : Clean (utf8 sessionId))
    (hf : Clean (utf8 funcName)) (ho : ∀ o ∈ objects, o.Clean)
    (hrec : ∀ o ∈ objects, Recorded mem keyLenMap o) (hsize : ∀ o ∈ objects, o.size < 2 ^ 31) :
    localVector toStringDouble mem clientAddr cpuCores memoryMb sessionId funcName objects argFlag =
      if utf8 funcName ≠ [] ∨ objects ≠ [] then
        some (objects.flatMap (packedArgs mem argFlag),
          (objects.flatMap (packedArgs mem argFlag)).map List.length)
      else none := by
  obtain ⟨persist, resources, hdec⟩ := Executor.decodeCall_refArgs toStringDouble clientAddr
    cpuCores memoryMb hs hf ho hflag
  rw [localVector, argVector, hdec]
  by_cases hne : utf8 funcName ≠ [] ∨ objects ≠ []
  · obtain ⟨hvalues, hsizes⟩ := values_packedArgs argFlag hrec hsize
    rw [if_pos ⟨hne, hsize⟩, if_pos hne]
    simp only [hvalues, hsizes]
  · rw [if_neg fun h => hne h.1, if_neg hne]

theorem totalDataSize_refFields {objects : List ObjectRef} (h : ∀ o ∈ objects, o.size < 2 ^ 31) :
    totalDataSize (refFields objects) = some ((objects.map ObjectRef.size).sum : ℕ) := by
  induction objects with
  | nil => rfl
  | cons o objects ih =>
    have hfields : refFields (o :: objects) =
        o.bucket :: o.key :: toStringNat o.size :: refFields objects := rfl
    rw [hfields, totalDataSize, Executor.stoi_toStringNat, if_pos (h o List.mem_cons_self),
      ih fun o' ho' => h o' (List.mem_cons_of_mem o ho')]
    simp

theorem realDataArgs_refFields {mem : Bytes → Bytes} {keyLenMap : Dict Bytes ℕ} {argFlag : ℕ}
    (hflag : argFlag = 1 ∨ argFlag = 2) {objects : List ObjectRef}
    (hrec : ∀ o ∈ objects, Recorded mem keyLenMap o) :
    realDataArgs mem keyLenMap argFlag (refFields objects) =
      objects.flatMap (packedArgs mem argFlag) := by
  induction objects with
  | nil => rfl
  | cons o objects ih =>
    have hfields : refFields (o :: objects) =
        o.bucket :: o.key :: toStringNat o.size :: refFields objects := rfl
    have hdata : (mem o.name).take ((keyLenMap.get? o.name).getD 0) = mem o.name := by
      obtain ⟨hlen, hsize⟩ := hrec o List.mem_cons_self
      rw [hlen, Option.getD_some, ← hsize, List.take_length]
    rw [hfields, realDataArgs, ih fun o' ho' => hrec o' (List.mem_cons_of_mem o ho'),
      List.flatMap_cons]
    rw [ObjectRef.name] at hdata
    rcases hflag with rfl | rfl <;> simp [packedArgs, hdata, ObjectRef.name]

/-- Below the threshold all sizes are small. -/
theorem size_lt_of_total {funcs : List (String × List ObjectRef)}
    (htotal : (funcs.map fun f => (f.2.map ObjectRef.size).sum).sum < forwardDataPackingThreshold)
    {f : String × List ObjectRef} (hf : f ∈ funcs) {o : ObjectRef} (ho : o ∈ f.2) :
    o.size < 2 ^ 31 := by
  have h1 : o.size ≤ (f.2.map ObjectRef.size).sum :=
    List.le_sum_of_mem (List.mem_map_of_mem ho)
  have h2 : (f.2.map ObjectRef.size).sum ≤ (funcs.map fun f => (f.2.map ObjectRef.size).sum).sum :=
    List.le_sum_of_mem (List.mem_map.2 ⟨f, hf, rfl⟩)
  unfold forwardDataPackingThreshold at htotal
  omega

theorem mapM_totalDataSize {funcs : List (String × List ObjectRef)}
    (h : ∀ f ∈ funcs, ∀ o ∈ f.2, o.size < 2 ^ 31) :
    (funcs.map fun f => (f.1, refFields f.2)).mapM (fun f => totalDataSize f.2) =
      some (funcs.map fun f => (((f.2.map ObjectRef.size).sum : ℕ) : ℤ)) := by
  induction funcs with
  | nil => rfl
  | cons f funcs ih =>
    rw [List.map_cons, List.mapM_cons, totalDataSize_refFields (h f List.mem_cons_self),
      ih fun f' hf' => h f' (List.mem_cons_of_mem f hf')]
    rfl

/-- Values carry the flag 0. -/
theorem argFlag_forwardArgs (dataServerAddr : Bytes → Address) (args : List Bytes) :
    argFlag (forwardArgs dataServerAddr 0 args) = 0 := by
  have hfold : ∀ as : List Argument, (∀ a ∈ as, a.argFlag = 0) → argFlag as = 0 := by
    intro as has
    unfold argFlag
    induction as with
    | nil => rfl
    | cons a as ih =>
      have ha := has a List.mem_cons_self
      rw [List.foldl_cons, ha, if_neg (by omega)]
      exact ih fun a' ha' => has a' (List.mem_cons_of_mem a ha')
  refine hfold _ fun a ha => ?_
  obtain ⟨arg, -, rfl⟩ := List.mem_map.1 ha
  rfl

theorem map_body_forwardArgs (dataServerAddr : Bytes → Address) (args : List Bytes) :
    (forwardArgs dataServerAddr 0 args).map Argument.body = args := by
  rw [forwardArgs, if_neg (by omega), List.map_map]
  exact List.map_id args

/-- The data are packed, and every function of the call is received with them by value. -/
theorem funcs_forwarded {mem : Bytes → Bytes} {keyLenMap : Dict Bytes ℕ} (ip : Address)
    (dataServerAddr : Bytes → Address) (respAddress : Address) (sessionId appName : String)
    {funcs : List (String × List ObjectRef)} {argFlag : ℕ} (hflag : argFlag = 1 ∨ argFlag = 2)
    (htotal : (funcs.map fun f => (f.2.map ObjectRef.size).sum).sum < forwardDataPackingThreshold)
    (hrec : ∀ f ∈ funcs, ∀ o ∈ f.2, Recorded mem keyLenMap o) :
    (forwardCallViaHelper mem keyLenMap ip dataServerAddr respAddress sessionId appName
        (funcs.map fun f => (f.1, refFields f.2)) argFlag).map handleFunctionCall =
      some ⟨appName, respAddress, sessionId, funcs.map fun f =>
        ⟨f.1, f.2.flatMap (packedArgs mem argFlag), 0, 0, 0⟩⟩ := by
  have hpos : argFlag > 0 := by omega
  have hsum : (funcs.map fun f => (((f.2.map ObjectRef.size).sum : ℕ) : ℤ)).sum =
      ((funcs.map fun f => (f.2.map ObjectRef.size).sum).sum : ℕ) := by
    rw [Nat.cast_list_sum, List.map_map]
    rfl
  have hsmall : 0 ≤ (funcs.map fun f => (((f.2.map ObjectRef.size).sum : ℕ) : ℤ)).sum ∧
      (funcs.map fun f => (((f.2.map ObjectRef.size).sum : ℕ) : ℤ)).sum <
        forwardDataPackingThreshold := by
    rw [hsum]
    omega
  rw [forwardCallViaHelper, if_pos hpos,
    mapM_totalDataSize fun f hf o ho => size_lt_of_total htotal hf ho]
  simp only [Option.bind_eq_bind, Option.bind_some, if_pos hsmall, Option.map_some,
    handleFunctionCall, forwardFuncCall, List.map_map]
  congr 2
  refine List.map_congr_left fun f hf => ?_
  simp only [Function.comp_apply, recvFunc, argFlag_forwardArgs,
    realDataArgs_refFields hflag (hrec f hf)]
  rw [map_body_forwardArgs]

theorem clean_packedArgs {mem : Bytes → Bytes} {argFlag : ℕ} {objects : List ObjectRef}
    (h : ∀ o ∈ objects, o.Clean) :
    (∀ x ∈ objects.flatMap (packedArgs mem argFlag), Clean x) ↔
      ∀ o ∈ objects, Clean (mem o.name) := by
  simp only [List.mem_flatMap, packedArgs]
  constructor
  · intro hx o ho
    exact hx _ ⟨o, ho, by split_ifs <;> simp⟩
  · rintro hmem x ⟨o, ho, hx⟩
    split_ifs at hx
    · rw [List.mem_singleton.1 hx]
      exact hmem o ho
    · rcases List.mem_pair.1 hx with rfl | rfl
      · exact (h o ho).2
      · exact hmem o ho

theorem getLast_packedArgs (mem : Bytes → Bytes) (argFlag : ℕ) (funcName : Bytes)
    (objects : List ObjectRef) :
    (funcName :: objects.flatMap (packedArgs mem argFlag)).getLast (List.cons_ne_nil _ _) =
      (funcName :: objects.map fun o => mem o.name).getLast (List.cons_ne_nil _ _) := by
  induction objects using List.reverseRecOn with
  | nil => rfl
  | append_singleton objects o _ =>
    have hlast : ∃ front, packedArgs mem argFlag o = front ++ [mem o.name] := by
      unfold packedArgs
      split_ifs
      · exact ⟨[], rfl⟩
      · exact ⟨[o.key], rfl⟩
    obtain ⟨front, hfront⟩ := hlast
    simp [hfront]

/-- The function gets the same arguments, with the same sizes, on this node and, as the `i`-th
function of the forwarded call, on the node that receives it. -/
def Transparent (toStringDouble : Float → Bytes) (mem mem' : Bytes → Bytes) (clientAddr : Address)
    (cpuCores : Float) (memoryMb : ℕ) (sessionId : String) (forwarded : Option FunctionCall) (i : ℕ)
    (funcName : String) (objects : List ObjectRef) (argFlag : ℕ) : Prop :=
  ∃ vector,
    localVector toStringDouble mem clientAddr cpuCores memoryMb sessionId funcName objects argFlag =
      some vector ∧
    remoteVector toStringDouble mem' forwarded i = some vector

/-- **Forwarding by packing.**  With names that have no delimiter and no NUL, the functions of a
call whose data are packed get the same arguments on the other node exactly when none of their
objects has a delimiter or a NUL in its data, and the last one is not empty. -/
theorem transparent_iff {mem : Bytes → Bytes} (mem' : Bytes → Bytes) {keyLenMap : Dict Bytes ℕ}
    (ip : Address) (dataServerAddr : Bytes → Address) (clientAddr : Address) (cpuCores : Float)
    (memoryMb : ℕ) {sessionId : String} (appName : String)
    (funcs : List (String × List ObjectRef)) {argFlag : ℕ} (hflag : argFlag = 1 ∨ argFlag = 2)
    (htotal : (funcs.map fun f => (f.2.map ObjectRef.size).sum).sum < forwardDataPackingThreshold)
    (hrec : ∀ f ∈ funcs, ∀ o ∈ f.2, Recorded mem keyLenMap o) (hs : Clean (utf8 sessionId))
    (hclean : ∀ f ∈ funcs, Clean (utf8 f.1) ∧ ∀ o ∈ f.2, o.Clean) {i : ℕ} {funcName : String}
    {objects : List ObjectRef} (hi : funcs[i]? = some (funcName, objects)) :
    Transparent toStringDouble mem mem' clientAddr cpuCores memoryMb sessionId
        (forwardCallViaHelper mem keyLenMap ip dataServerAddr clientAddr sessionId appName
          (funcs.map fun f => (f.1, refFields f.2)) argFlag) i funcName objects argFlag ↔
      (∀ o ∈ objects, Clean (mem o.name)) ∧
        (utf8 funcName :: objects.map fun o => mem o.name).getLast (List.cons_ne_nil _ _) ≠ [] := by
  have hmem := List.mem_of_getElem? hi
  obtain ⟨hf, ho⟩ := hclean _ hmem
  have hremote : remoteVector toStringDouble mem' (forwardCallViaHelper mem keyLenMap ip
      dataServerAddr clientAddr sessionId appName (funcs.map fun f => (f.1, refFields f.2)) argFlag)
      i = argVector mem' (sendString (encodeCall toStringDouble clientAddr 0 0 (utf8 sessionId)
        (utf8 funcName) (objects.flatMap (packedArgs mem argFlag)) 0)) := by
    obtain ⟨call, hcall, hrecv⟩ := Option.map_eq_some_iff.1
      (funcs_forwarded ip dataServerAddr clientAddr sessionId appName hflag htotal hrec)
    rw [remoteVector, hcall]
    simp [hrecv, hi, plainMessage]
  have hiff := argVector_encodeCall_iff toStringDouble mem' clientAddr 0 0
    (objects.flatMap (packedArgs mem argFlag)) hs hf
  rw [clean_packedArgs ho, getLast_packedArgs] at hiff
  rw [Transparent, hremote, localVector_eq toStringDouble clientAddr cpuCores memoryMb hflag hs hf
    ho (hrec _ hmem) fun o ho => size_lt_of_total htotal hmem ho, ← hiff]
  constructor
  · rintro ⟨vector, hlocal, hvector⟩
    split_ifs at hlocal
    rw [hvector, ← hlocal]
  · intro hvector
    -- an empty name without objects would make the last field empty
    have hne : utf8 funcName ≠ [] ∨ objects ≠ [] := by
      by_contra hempty
      push Not at hempty
      refine (hiff.1 hvector).2 ?_
      simp [hempty.1, hempty.2]
    exact ⟨_, if_pos hne, hvector⟩

/-- Two objects of a bucket, and their lengths. -/
def sampleMem (keyName : Bytes) : Bytes :=
  if keyName = ascii "b|s1_k1" then ascii "left" else ascii "x|y"

/-- The sizes of two objects. -/
def sampleLens : Dict Bytes ℕ :=
  (Dict.empty.set (ascii "b|s1_k1") 4).set (ascii "b|s1_k2") 3

theorem transparent_sample :
    Transparent (fun _ => ascii "0.000000") sampleMem sampleMem "" 0 0 "s1"
      (forwardCallViaHelper sampleMem sampleLens "10.0.0.1" (fun _ => "") "" "s1" "app"
        [("map", refFields [⟨ascii "b", ascii "s1_k1", 4⟩])] 2) 0 "map"
      [⟨ascii "b", ascii "s1_k1", 4⟩] 2 :=
  (transparent_iff (fun _ => ascii "0.000000") sampleMem "10.0.0.1" (fun _ => "") "" 0 0 "app"
    [("map", [⟨ascii "b", ascii "s1_k1", 4⟩])] (by decide) (by decide +kernel)
    (by decide +kernel) (by decide +kernel) (by decide +kernel) rfl).2 (by decide +kernel)

/-- The object `x|y` arrives as two arguments. -/
theorem not_transparent_sample :
    Recorded sampleMem sampleLens ⟨ascii "b", ascii "s1_k2", 3⟩ ∧ Clean (utf8 "s1") ∧
    Clean (utf8 "map") ∧ ObjectRef.Clean ⟨ascii "b", ascii "s1_k2", 3⟩ ∧
    ¬ Transparent (fun _ => ascii "0.000000") sampleMem sampleMem "" 0 0 "s1"
      (forwardCallViaHelper sampleMem sampleLens "10.0.0.1" (fun _ => "") "" "s1" "app"
        [("map", refFields [⟨ascii "b", ascii "s1_k2", 3⟩])] 1) 0 "map"
      [⟨ascii "b", ascii "s1_k2", 3⟩] 1 := by
  refine ⟨by decide +kernel, by decide +kernel, by decide +kernel, by decide +kernel, ?_⟩
  rintro ⟨vector, hlocal, hremote⟩
  have hne : localVector (fun _ => ascii "0.000000") sampleMem "" 0 0 "s1" "map"
      [⟨ascii "b", ascii "s1_k2", 3⟩] 1 ≠
    remoteVector (fun _ => ascii "0.000000") sampleMem
      (forwardCallViaHelper sampleMem sampleLens "10.0.0.1" (fun _ => "") "" "s1" "app"
        [("map", refFields [⟨ascii "b", ascii "s1_k2", 3⟩])] 1) 0 := by
    decide +kernel
  exact hne (hlocal.trans hremote.symm)

end Vectors

end Demeter.Scheduler
