import Demeter.Coordinator.Messages

/-!
# Messages of the local scheduler

What `CommHelper::handle_function_call` in `include/scheduler/comm_helper.hpp` makes of a function
call that arrives from a coordinator.  A C++ `string` whose bytes matter is a list of bytes.
-/

namespace Demeter.Scheduler

open Demeter.Coordinator (Address Argument FunctionRequest FunctionCall)

/-- A C++ string, or the value of an object. -/
abbrev Bytes := List UInt8

/-- The bytes of an ASCII text. -/
def ascii (s : String) : Bytes := s.toList.map fun c => UInt8.ofNat c.toNat

/-- The bytes of a text in a protobuf message. -/
def utf8 (s : String) : Bytes := s.toByteArray.toList

/-- The decimal digits that `std::to_string` prints. -/
def toStringNat (n : ℕ) : Bytes := ascii (toString n)

/-! ### Bytes of a text -/

theorem toList_loop (bs : ByteArray) (i : ℕ) (r : List UInt8) :
    ByteArray.toList.loop bs i r = r.reverse ++ bs.data.toList.drop i := by
  fun_induction ByteArray.toList.loop bs i r with
  | case1 i r h ih =>
    have hget : bs.get! i = bs.data.toList[i] := by
      rw [ByteArray.get!, getElem!_pos bs.data i h, Array.getElem_toList]
    rw [ih, List.drop_eq_getElem_cons h, List.reverse_cons, List.append_assoc, hget]
    rfl
  | case2 i r h =>
    rw [List.drop_eq_nil_of_le (Nat.le_of_not_lt h), List.append_nil]

theorem utf8_eq_flatMap (s : String) : utf8 s = s.toList.flatMap String.utf8EncodeChar := by
  have hs : s.toByteArray = (s.toList.flatMap String.utf8EncodeChar).toByteArray := by
    rw [← List.utf8Encode]
    simp
  rw [utf8, ByteArray.toList, toList_loop, hs, List.toList_data_toByteArray]
  rfl

theorem utf8_append (s t : String) : utf8 (s ++ t) = utf8 s ++ utf8 t := by
  simp [utf8_eq_flatMap]

theorem utf8_eq_ascii {s : String} (h : ∀ c ∈ s.toList, c.toNat < 128) : utf8 s = ascii s := by
  rw [utf8_eq_flatMap, ascii, List.map_eq_flatMap]
  refine List.flatMap_congr fun c hc => ?_
  have hsize : c.utf8Size = 1 := by
    rw [Char.utf8Size_eq_one_iff, UInt32.le_iff_toNat_le]
    exact Nat.le_of_lt_succ (h c hc)
  rw [String.utf8EncodeChar_eq_singleton hsize]
  rfl

/-! ### Received calls -/

/-- One function of a received call: the entries at one index of the vectors of `RecvMsg`. -/
structure RecvFunc where
  funcName : String
  funcArgs : List Bytes
  isFuncArgKey : ℕ
  cpuCores : Float
  memoryMb : ℕ

/-- A received message of type `Call`. -/
structure RecvCall where
  appName : String
  respAddress : Address
  sessionId : String
  funcs : List RecvFunc

/-- The flag of a request is the last positive flag of its arguments. -/
def argFlag (args : List Argument) : ℕ :=
  args.foldl (fun flag arg => if arg.argFlag > 0 then arg.argFlag else flag) 0

/-- One request of a call. -/
def recvFunc (req : FunctionRequest) : RecvFunc where
  funcName := req.name
  funcArgs := req.arguments.map Argument.body
  isFuncArgKey := argFlag req.arguments
  cpuCores := req.cpuCores
  memoryMb := req.memoryMb

/-- `handle_function_call`. -/
def handleFunctionCall (call : FunctionCall) : RecvCall where
  appName := call.appName
  respAddress := call.respAddress
  sessionId := call.sessionId
  funcs := call.requests.map recvFunc

end Demeter.Scheduler
