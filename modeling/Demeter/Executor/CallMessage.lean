import Demeter.Lib.Split
import Demeter.Scheduler.Messages

/-!
# The call message from the scheduler to an executor

`schedule_func_call` in `src/scheduler/scheduler_server.cpp` writes a function call as bytes, and
the loop of `src/executor/executor_server.cpp` reads it back.

* `encodeCall` is the message, `sendString` what the channel delivers: the bytes of a string and
  the terminating NUL;
* `decodeCall` is the reader; `none` stands for a read outside a vector or of an uninitialised
  variable, and for an exception that nothing catches;
* `stoi_toStringNat` reads a printed number back, `delivers_iff` says which calls by value arrive
  as they were sent.

`toStringDouble` stands for `std::to_string` on doubles.
-/

namespace Demeter.Executor

open Demeter.Coordinator (Address)
open Demeter.Scheduler (Bytes ascii utf8 toStringNat utf8_eq_ascii)

/-- The character `|`. -/
def kDelimiterChar : UInt8 := 124

/-- The character `,`. -/
def comma : UInt8 := 44

/-! ### The writer -/

section Writer

variable (toStringDouble : Float → Bytes)

/-- The resource hints as text; a text that does not fit the length byte is replaced. -/
def resourceMeta (cpuCores : Float) (memoryMb : ℕ) : Bytes :=
  let text := toStringDouble cpuCores ++ ascii "," ++ toStringNat memoryMb
  if text.length > 255 then ascii "0,0" else text

/-- The message of `schedule_func_call` to an executor. -/
def encodeCall (clientAddr : Address) (cpuCores : Float) (memoryMb : ℕ) (sessionId funcName : Bytes)
    (funcArgs : List Bytes) (argFlag : ℕ) : Bytes :=
  let resource := resourceMeta toStringDouble cpuCores memoryMb
  -- 1 means function call; the third byte is 1 if the output is to be persisted, else 2
  [1, UInt8.ofNat (argFlag + 1), if clientAddr = "" then 1 else 2, UInt8.ofNat resource.length] ++
    resource ++ sessionId ++ kDelimiterChar ::
      (funcName ++ funcArgs.flatMap (kDelimiterChar :: ·))

theorem length_resourceMeta_le (cpuCores : Float) (memoryMb : ℕ) :
    (resourceMeta toStringDouble cpuCores memoryMb).length ≤ 255 := by
  unfold resourceMeta
  simp only
  split_ifs with h
  · decide
  · omega

end Writer

/-- The channel sends the terminating NUL along. -/
def sendString (s : Bytes) : Bytes := s ++ [0]

/-- The NUL that the channel adds ends a C string, if there is none before it. -/
theorem takeWhile_sendString (s : Bytes) :
    (sendString s).takeWhile (· ≠ 0) = s.takeWhile (· ≠ 0) := by
  induction s with
  | nil => rfl
  | cons c s ih =>
    rw [sendString, List.cons_append, List.takeWhile_cons, List.takeWhile_cons]
    split_ifs
    · rw [← ih, sendString]
    · rfl

/-! ### The reader -/

/-- `std::stoi`: blanks, a sign, digits, then anything; `none` where it throws. -/
def stoi (s : Bytes) : Option ℤ :=
  let s := s.dropWhile fun c => c = 32 ∨ 9 ≤ c ∧ c ≤ 13
  let signed : Bool × Bytes :=
    match s with
    | 45 :: rest => (true, rest)
    | 43 :: rest => (false, rest)
    | _ => (false, s)
  let digits := signed.2.takeWhile fun c => 48 ≤ c ∧ c ≤ 57
  let n : ℤ := digits.foldl (fun n c => 10 * n + (c.toNat - 48)) 0
  let v := if signed.1 then -n else n
  if digits = [] ∨ v < -2 ^ 31 ∨ 2 ^ 31 ≤ v then none else some v

/-! ### Printed numbers -/

theorem toNat_of_isDigit {d : Char} (hd : d.isDigit) : 48 ≤ d.toNat ∧ d.toNat ≤ 57 := by
  simp only [Char.isDigit, Bool.and_eq_true, decide_eq_true_eq] at hd
  exact ⟨by simpa using UInt32.le_iff_toNat_le.1 hd.1, by simpa using UInt32.le_iff_toNat_le.1 hd.2⟩

theorem toStringNat_eq (n : ℕ) :
    toStringNat n = (Nat.toDigits 10 n).map fun c => UInt8.ofNat c.toNat := by
  rw [toStringNat, ascii, ← Nat.toList_repr]
  rfl

theorem utf8_toString (m : ℕ) : utf8 (toString m) = toStringNat m := by
  refine utf8_eq_ascii fun c hc => ?_
  rw [Nat.toString_eq_repr, Nat.toList_repr] at hc
  have hdigit := toNat_of_isDigit (Nat.isDigit_of_mem_toDigits (by decide) (by decide) hc)
  omega

theorem mem_toStringNat {n : ℕ} {c : UInt8} (hc : c ∈ toStringNat n) : 48 ≤ c ∧ c ≤ 57 := by
  rw [toStringNat_eq, List.mem_map] at hc
  obtain ⟨d, hd, rfl⟩ := hc
  have hdigit := toNat_of_isDigit (Nat.isDigit_of_mem_toDigits (by decide) (by decide) hd)
  rw [UInt8.le_iff_toNat_le, UInt8.le_iff_toNat_le, UInt8.toNat_ofNat', Nat.mod_eq_of_lt (by omega)]
  exact hdigit

theorem foldl_digits {ds : List Char} (h : ∀ d ∈ ds, d.isDigit) (v : ℕ) :
    (ds.map fun c => UInt8.ofNat c.toNat).foldl (fun (v : ℤ) c => 10 * v + (c.toNat - 48)) v =
      Nat.ofDigitChars 10 ds v := by
  induction ds generalizing v with
  | nil => simp
  | cons d ds ih =>
    have hdigit := toNat_of_isDigit (h d (by simp))
    have hstep : 10 * (v : ℤ) + ((UInt8.ofNat d.toNat).toNat - 48) =
        ((10 * v + (d.toNat - '0'.toNat) : ℕ) : ℤ) := by
      rw [UInt8.toNat_ofNat', Nat.mod_eq_of_lt (by omega)]
      show 10 * (v : ℤ) + ((d.toNat : ℤ) - 48) = ((10 * v + (d.toNat - 48) : ℕ) : ℤ)
      omega
    rw [List.map_cons, List.foldl_cons, hstep, ih fun c hc => h c (List.mem_cons_of_mem d hc),
      Nat.ofDigitChars_cons]

theorem foldl_toStringNat (n : ℕ) :
    (toStringNat n).foldl (fun (v : ℤ) c => 10 * v + (c.toNat - 48)) 0 = n := by
  have hdigits : ∀ d ∈ Nat.toDigits 10 n, d.isDigit := fun d hd =>
    Nat.isDigit_of_mem_toDigits (by decide) (by decide) hd
  have hfold := foldl_digits hdigits 0
  rw [Nat.ofDigitChars_ten_toDigits] at hfold
  rw [toStringNat_eq]
  exact hfold

theorem toStringNat_ne_nil (n : ℕ) : toStringNat n ≠ [] := by
  rw [toStringNat_eq, ne_eq, List.map_eq_nil_iff]
  exact Nat.toDigits_ne_nil

theorem stoi_of_digits {s : Bytes} {n : ℕ} (hne : s ≠ []) (h : ∀ c ∈ s, 48 ≤ c ∧ c ≤ 57)
    (hval : s.foldl (fun (v : ℤ) c => 10 * v + (c.toNat - 48)) 0 = n) :
    stoi s = if n < 2 ^ 31 then some (n : ℤ) else none := by
  have htake : s.takeWhile (fun c => decide (48 ≤ c ∧ c ≤ 57)) = s :=
    List.takeWhile_eq_self_iff.2 fun c hc => decide_eq_true (h c hc)
  obtain ⟨c, s, rfl⟩ := List.exists_cons_of_ne_nil hne
  have hc := h c (by simp)
  have hbelow : ∀ d : UInt8, ¬ 48 ≤ d → c ≠ d := by
    rintro d hd rfl
    exact hd hc.1
  have hblank : ¬ (c = 32 ∨ 9 ≤ c ∧ c ≤ 13) := by
    rintro (h32 | ⟨-, h13⟩)
    · exact hbelow 32 (by decide) h32
    · exact absurd (UInt8.le_trans hc.1 h13) (by decide)
  have hread : stoi (c :: s) =
      if c :: s = [] ∨ (n : ℤ) < -2 ^ 31 ∨ 2 ^ 31 ≤ (n : ℤ) then none else some (n : ℤ) := by
    simp only [stoi]
    rw [List.dropWhile_cons_of_neg (by simpa using hblank)]
    split
    · rename_i heq
      exact absurd (List.cons.inj heq).1 (hbelow 45 (by decide))
    · rename_i heq
      exact absurd (List.cons.inj heq).1 (hbelow 43 (by decide))
    · simp only [htake, hval, Bool.false_eq_true, if_false]
  rw [hread]
  by_cases hn : n < 2 ^ 31
  · rw [if_pos hn, if_neg]
    simp only [List.cons_ne_nil, false_or]
    omega
  · rw [if_neg hn, if_pos]
    omega

/-- A printed number is read back when it fits an `int`. -/
theorem stoi_toStringNat (n : ℕ) :
    stoi (toStringNat n) = if n < 2 ^ 31 then some (n : ℤ) else none :=
  stoi_of_digits (toStringNat_ne_nil n) (fun _ => mem_toStringNat) (foldl_toStringNat n)

/-! ### The fields of a call -/

/-- An argument of the user's function: a copied text or an object in shared memory. -/
inductive ArgValue where
  | chars (text : Bytes)
  | shm (keyName : Bytes) (size : ℤ)
  deriving DecidableEq

/-- The conversion of an `int` to `size_t`. -/
def toSize (n : ℤ) : ℕ := (n % 2 ^ 64).toNat

/-- What the user's function and its library see of a call. -/
structure CallInput where
  sessionId : Bytes
  funcName : Bytes
  persistOutputFlag : UInt8
  resources : Option (Bytes × Bytes)
  argValues : List ArgValue
  argSizes : List ℕ
  deriving DecidableEq

/-- What an executor makes of a message. -/
inductive Decoded where
  /-- Not a function call: nothing happens. -/
  | ignored
  | call (input : CallInput)
  /-- The number of fields does not fit arguments in shared memory: the call is dropped. -/
  | cannotParse (sessionId funcName : Bytes)
  deriving DecidableEq

/-- The arguments in shared memory: bucket, key and size of each object. -/
def shmArgs (argFlag : UInt8) : List Bytes → Option (List ArgValue × List ℕ)
  | bucket :: key :: sizeText :: rest => do
      let size ← stoi sizeText
      let (values, sizes) ← shmArgs argFlag rest
      let object := ArgValue.shm (bucket ++ kDelimiterChar :: key) size
      if argFlag = 1 then some (object :: values, toSize size :: sizes)
      else some (.chars key :: object :: values, key.length :: toSize size :: sizes)
  | _ => some ([], [])

/-- The hints for the environment; any other number of parts changes nothing there. -/
def resourceParts (resource : Bytes) : Option (Bytes × Bytes) :=
  match GetLine.split comma resource with
  | [cpuCores, memoryMb] => some (cpuCores, memoryMb)
  | _ => none

/-- The text after the resource hints: session id, function name and arguments. -/
def decodeFields (argFlag persistOutputFlag : UInt8) (resources : Option (Bytes × Bytes))
    (msg : Bytes) : Option Decoded :=
  match GetLine.split kDelimiterChar msg with
  | sessionId :: funcName :: args =>
      let input := CallInput.mk sessionId funcName persistOutputFlag resources
      if argFlag = 0 then some (.call (input (args.map .chars) (args.map List.length)))
      else if args.length % 3 = 0 then do
        guard (argFlag = 1 ∨ argFlag = 2)
        let (values, sizes) ← shmArgs argFlag args
        some (.call (input values sizes))
      else some (.cannotParse sessionId funcName)
  | _ => none

/-- The message up to the fields; `none` is a read outside of it. -/
def decodeCall (str : Bytes) : Option Decoded := do
  if (← str[0]?) ≠ 1 then return .ignored
  let argFlag := (← str[1]?) - 1
  let persistOutputFlag ← str[2]?
  let resourceMetaLen := (← str[3]?).toNat
  guard (4 + resourceMetaLen ≤ str.length)
  decodeFields argFlag persistOutputFlag (resourceParts ((str.drop 4).take resourceMetaLen))
    ((str.drop (4 + resourceMetaLen)).takeWhile (· ≠ 0))

/-- The bytes in front of the fields, the text of the resource hints and the text of the fields. -/
structure Header where
  argFlag : UInt8
  persistOutputFlag : UInt8
  resourceMeta : Bytes
  msg : Bytes

/-- Read up to the fields; `some none` is a message that is not a function call. -/
def readHeader (str : Bytes) : Option (Option Header) := do
  if (← str[0]?) ≠ 1 then return none
  let argFlag := (← str[1]?) - 1
  let persistOutputFlag ← str[2]?
  let resourceMetaLen := (← str[3]?).toNat
  guard (4 + resourceMetaLen ≤ str.length)
  return some ⟨argFlag, persistOutputFlag, (str.drop 4).take resourceMetaLen,
    (str.drop (4 + resourceMetaLen)).takeWhile (· ≠ 0)⟩

theorem decodeCall_eq_readHeader (str : Bytes) :
    decodeCall str = (readHeader str).bind fun header =>
      match header with
      | none => some .ignored
      | some h =>
          decodeFields h.argFlag h.persistOutputFlag (resourceParts h.resourceMeta) h.msg := by
  unfold decodeCall readHeader
  cases str[0]? with
  | none => rfl
  | some kind =>
    by_cases hkind : kind = 1
    · cases str[1]? <;> cases str[2]? <;> cases hlen : str[3]? with
      | none => simp [hkind]
      | some len =>
        by_cases hfit : 4 + len.toNat ≤ str.length <;> simp [hkind, hfit]
    · simp [hkind]

/-! ### Calls by value -/

/-- The message is read as this session id, this function and these arguments, with their sizes. -/
def Delivers (message sessionId funcName : Bytes) (args : List Bytes) : Prop :=
  ∃ input, decodeCall (sendString message) = some (.call input) ∧ input.sessionId = sessionId ∧
    input.funcName = funcName ∧ input.argValues = args.map .chars ∧
    input.argSizes = args.map List.length

/-- No delimiter and no NUL. -/
def Clean (s : Bytes) : Prop := kDelimiterChar ∉ s ∧ (0 : UInt8) ∉ s

instance (s : Bytes) : Decidable (Clean s) :=
  inferInstanceAs (Decidable (kDelimiterChar ∉ s ∧ (0 : UInt8) ∉ s))

theorem clean_toStringNat (n : ℕ) : Clean (toStringNat n) :=
  ⟨fun h => absurd (mem_toStringNat h).2 (by decide),
    fun h => absurd (mem_toStringNat h).1 (by decide)⟩

theorem takeWhile_of_clean {s : Bytes} (h : Clean s) : s.takeWhile (· ≠ 0) = s :=
  List.takeWhile_eq_self_iff.2 fun c hc => by simpa using fun h0 : c = 0 => h.2 (h0 ▸ hc)

/-- The reader finds the parts of a message behind its length byte. -/
theorem readHeader_sendString (argFlag persist len : UInt8) (resource msg : Bytes)
    (hlen : len.toNat = resource.length) :
    readHeader (sendString ([1, argFlag, persist, len] ++ resource ++ msg)) =
      some (some ⟨argFlag - 1, persist, resource, msg.takeWhile (· ≠ 0)⟩) := by
  have htext : (msg ++ [0]).takeWhile (· ≠ 0) = msg.takeWhile (· ≠ 0) := takeWhile_sendString msg
  have hdrop : (1 :: argFlag :: persist :: len :: (resource ++ (msg ++ [0]))).drop
      (4 + resource.length) = msg ++ [0] := by
    rw [Nat.add_comm, ← List.drop_drop]
    simp
  have hfit : 4 + resource.length ≤ resource.length + (msg.length + 1) + 4 := by omega
  simp only [readHeader, sendString, List.cons_append, List.nil_append, List.append_assoc]
  simpa [hlen, hdrop, hfit] using htext

/-- The call that the scheduler wrote, up to the splitting of its fields. -/
theorem readHeader_encodeCall (toStringDouble : Float → Bytes) (clientAddr : Address)
    (cpuCores : Float) (memoryMb : ℕ) (sessionId funcName : Bytes) (args : List Bytes)
    (argFlag : ℕ) :
    readHeader (sendString (encodeCall toStringDouble clientAddr cpuCores memoryMb sessionId
        funcName args argFlag)) =
      some (some ⟨UInt8.ofNat argFlag, if clientAddr = "" then 1 else 2,
        resourceMeta toStringDouble cpuCores memoryMb,
        (sessionId ++ kDelimiterChar :: (funcName ++ args.flatMap (kDelimiterChar :: ·))).takeWhile
          (· ≠ 0)⟩) := by
  set resource := resourceMeta toStringDouble cpuCores memoryMb with hres
  have hlen : (UInt8.ofNat resource.length).toNat = resource.length := by
    have hle : resource.length ≤ 255 := length_resourceMeta_le toStringDouble cpuCores memoryMb
    simp only [UInt8.toNat_ofNat']
    omega
  have hflag : UInt8.ofNat (argFlag + 1) - 1 = UInt8.ofNat argFlag := by
    rw [UInt8.ofNat_add]
    exact UInt8.add_sub_cancel _ _
  rw [encodeCall, ← hres, ← hflag, ← readHeader_sendString _ _ _ resource _ hlen]
  simp

/-- Fields without NUL are read up to their end. -/
theorem takeWhile_fields {sessionId funcName : Bytes} {args : List Bytes}
    (hs : (0 : UInt8) ∉ sessionId) (h : ∀ x ∈ funcName :: args, (0 : UInt8) ∉ x) :
    (sessionId ++ kDelimiterChar :: (funcName ++ args.flatMap (kDelimiterChar :: ·))).takeWhile
        (· ≠ 0) =
      sessionId ++ kDelimiterChar :: (funcName ++ args.flatMap (kDelimiterChar :: ·)) := by
  have hzero : (0 : UInt8) ∉
      sessionId ++ kDelimiterChar :: (funcName ++ args.flatMap (kDelimiterChar :: ·)) := by
    simp only [List.mem_append, List.mem_flatMap, List.mem_cons, not_or, not_exists, not_and]
    exact ⟨hs, by decide, h funcName (by simp), fun x hx => ⟨by decide, h x (by simp [hx])⟩⟩
  exact List.takeWhile_eq_self_iff.2 fun c hc => by simpa using fun h0 : c = 0 => hzero (h0 ▸ hc)

section ByValue

variable (toStringDouble : Float → Bytes)

/-- The reader of a call by value sees what `getline` makes of the fields. -/
theorem decodeCall_encodeCall (clientAddr : Address) (cpuCores : Float) (memoryMb : ℕ)
    {sessionId funcName : Bytes} {args : List Bytes} (hs : Clean sessionId)
    (h : ∀ x ∈ funcName :: args, Clean x) :
    ∃ persist resources,
      decodeCall (sendString (encodeCall toStringDouble clientAddr cpuCores memoryMb sessionId
        funcName args 0)) =
      match GetLine.split kDelimiterChar (funcName ++ args.flatMap (kDelimiterChar :: ·)) with
      | name :: values => some (.call ⟨sessionId, name, persist, resources, values.map .chars,
          values.map List.length⟩)
      | [] => none := by
  refine ⟨if clientAddr = "" then 1 else 2,
    resourceParts (resourceMeta toStringDouble cpuCores memoryMb), ?_⟩
  rw [decodeCall_eq_readHeader, readHeader_encodeCall,
    takeWhile_fields hs.2 fun x hx => (h x hx).2]
  simp only [Option.bind_some, decodeFields, GetLine.split_append_cons hs.1]
  cases GetLine.split kDelimiterChar (funcName ++ args.flatMap (kDelimiterChar :: ·)) <;> rfl

/-- **Calls by value.**  A call whose session id, function name and arguments have no delimiter and
no NUL arrives as it was sent exactly when the last of its function name and its arguments is not
empty: `getline` drops an empty field at the end. -/
theorem delivers_iff (clientAddr : Address) (cpuCores : Float) (memoryMb : ℕ)
    {sessionId funcName : Bytes} {args : List Bytes} (hs : Clean sessionId)
    (h : ∀ x ∈ funcName :: args, Clean x) :
    Delivers (encodeCall toStringDouble clientAddr cpuCores memoryMb sessionId funcName args 0)
        sessionId funcName args ↔
      (funcName :: args).getLast (List.cons_ne_nil funcName args) ≠ [] := by
  obtain ⟨persist, resources, hdec⟩ :=
    decodeCall_encodeCall toStringDouble clientAddr cpuCores memoryMb hs h
  rw [GetLine.split_delimited fun x hx => (h x hx).1] at hdec
  unfold Delivers
  rw [hdec]
  by_cases hlast : (funcName :: args).getLast (List.cons_ne_nil funcName args) = []
  · simp only [hlast, ne_eq, not_true_eq_false, iff_false, if_true]
    rintro ⟨input, hin, -, -, -, hsizes⟩
    -- one argument is missing, or even the function name
    cases args with
    | nil => cases hin
    | cons a args =>
      obtain rfl := Decoded.call.inj (Option.some.inj hin)
      have hcount := congrArg List.length hsizes
      simp at hcount
  · simp only [hlast, ne_eq, not_false_eq_true, iff_true, if_false]
    exact ⟨_, rfl, rfl, rfl, rfl, rfl⟩

/-- An empty argument in front is no problem. -/
theorem delivers_sample :
    Delivers (encodeCall (fun _ => ascii "0.000000") "" 0 0 (ascii "session-7") (ascii "map")
      [[], ascii "x"] 0) (ascii "session-7") (ascii "map") [[], ascii "x"] :=
  (delivers_iff (fun _ => ascii "0.000000") "" 0 0 (by decide) (by decide)).2 (by decide)

/-- An empty argument at the end is lost. -/
theorem not_delivers_sample :
    Clean (ascii "session-7") ∧ (∀ x ∈ [ascii "map", ascii "x", []], Clean x) ∧
    ¬ Delivers (encodeCall (fun _ => ascii "0.000000") "" 0 0 (ascii "session-7") (ascii "map")
      [ascii "x", []] 0) (ascii "session-7") (ascii "map") [ascii "x", []] := by
  refine ⟨by decide, by decide, ?_⟩
  rintro ⟨input, hin, -, -, hargs, -⟩
  have hdec : decodeCall (sendString (encodeCall (fun _ => ascii "0.000000") "" 0 0
      (ascii "session-7") (ascii "map") [ascii "x", []] 0)) = some (.call
        ⟨ascii "session-7", ascii "map", 1, some (ascii "0.000000", ascii "0"),
          [.chars (ascii "x")], [1]⟩) := by
    decide +kernel
  obtain rfl := Decoded.call.inj (Option.some.inj (hdec.symm.trans hin))
  exact absurd hargs (by decide)

end ByValue

end Demeter.Executor
