import Mathlib.Data.Finset.Basic
import Mathlib.Data.String.Basic
import Mathlib.Tactic
import Demeter.Lib.Dict

/-!
# Messages and node states of the coordinator

The protobuf messages of `common/proto/operation.proto` that function calls travel in, the node
states of `include/coordinator/coord_handlers.hpp`, and the random identifiers of
`common/include/common.hpp`.

A message is its value: serializing and parsing again gives the same message.  `double` is the
machine type `Float`.  `rand_r` is an arbitrary function `rand : σ → ℕ × σ` on the seeds.  `map` is
a hash table in the source; the entries of a dictionary are in the order in which it is iterated.
-/

namespace Demeter.Coordinator

/-- An IP address, or the address of a socket. -/
abbrev Address := String

/-- An argument by value, or the name of an object. -/
structure Argument where
  body : List UInt8
  argFlag : ℕ := 0
  dataAddress : Address := ""
  deriving DecidableEq

/-- A function with its arguments and resource hints. -/
structure FunctionRequest where
  name : String
  arguments : List Argument
  cpuCores : Float := 0
  memoryMb : ℕ := 0

/-- What a request asks for, without the resource hints. -/
def FunctionRequest.content (req : FunctionRequest) : String × List Argument :=
  (req.name, req.arguments)

/-- A call of one or more functions of an application. -/
structure FunctionCall where
  appName : String := ""
  requests : List FunctionRequest := []
  source : Address := ""
  requestId : String := ""
  respAddress : Address := ""
  sessionId : String := ""
  syncDataStatus : Bool := false

/-- The answer to a client. -/
structure FunctionCallResponse where
  appName : String := ""
  requestId : String := ""
  output : List UInt8 := []
  errorNo : ℕ := 0
  deriving DecidableEq

/-- The last report of a worker node, with its time. -/
structure NodeStatus where
  tp : ℕ := 0
  availExecutors : ℤ
  functions : Finset String := ∅

/-- The port of the first I/O thread for calls. -/
def funcExecPort : ℕ := 4300

/-- The port of an I/O thread of a node. -/
def getFuncExecAddress (ip : Address) (ioThread : ℕ) : Address :=
  "tcp://" ++ ip ++ ":" ++ toString (funcExecPort + ioThread)

/-! ### Random identifiers -/

/-- The characters of random ids. -/
def alphaNum : List Char :=
  "0123456789ABCDEFGHIJKLMNOPQRSTUVWXYZabcdefghijklmnopqrstuvwxyz".toList

variable {σ : Type} (rand : σ → ℕ × σ)

/-- `len` random characters; the index is always inside the table. -/
def genRandomChars : σ → ℕ → List Char × σ
  | seed, 0 => ([], seed)
  | seed, len + 1 =>
      let r := rand seed
      let rest := genRandomChars r.2 len
      (alphaNum.getD (r.1 % alphaNum.length) '0' :: rest.1, rest.2)

/-- `gen_random`. -/
def genRandom (seed : σ) (len : ℕ) : String × σ :=
  let r := genRandomChars rand seed len
  (String.ofList r.1, r.2)

theorem length_genRandomChars (seed : σ) (len : ℕ) :
    (genRandomChars rand seed len).1.length = len := by
  induction len generalizing seed with
  | zero => rfl
  | succ len ih => simp [genRandomChars, ih]

@[simp] theorem length_genRandom (seed : σ) (len : ℕ) :
    (genRandom rand seed len).1.length = len := by
  simp [genRandom, length_genRandomChars]

end Demeter.Coordinator
