import Demeter.Lib.Runs
import Demeter.Executor.CallMessage

/-!
# The loop of the executor

`run` in `src/executor/executor_server.cpp` with the part of `UserLibrary`
(`include/executor/function_lib.hpp`) that it shares with the user's functions.  Here a call is
decoded the way the code does it: slot by slot into `arg_values`, with the sizes pushed one by one
onto `size_of_args_`, which outlives the call.

* `openObjects` is the loop over the objects in shared memory, `parseArgs` the choice between the
  kinds of arguments;
* `receive` handles one message and records the function it enters, if any;
* `receive_entered` says that the loop refines the reader `decodeCall` as long as no size is left
  over from an earlier call, and `tidy_run` that none ever is;
* `opens_iff` says which calls by reference are opened as they were sent.

Whether `load_function` succeeds depends on the file system, so it is part of the input.
-/

namespace Demeter.Executor

open Demeter.Coordinator (Address)
open Demeter.Scheduler (Bytes ascii toStringNat)

/-! ### Filling the slots -/

/-- What the decoding of the arguments has done: the assignments to `arg_values` (a value and its
slot), the objects opened in shared memory, and `size_of_args_`. -/
structure Filling where
  slots : List (ArgValue × ℕ) := []
  opened : List (Bytes × ℤ) := []
  sizeOfArgs : List ℕ

/-- Open the object whose bucket is `func_with_args[i]`. -/
def openObject (argFlag : UInt8) (i : ℕ) (bucket key : Bytes) (size : ℤ) (f : Filling) : Filling :=
  let keyName := bucket ++ kDelimiterChar :: key
  if argFlag = 1 then
    { slots := f.slots ++ [(.shm keyName size, i / 3)]
      opened := f.opened ++ [(keyName, size)]
      sizeOfArgs := f.sizeOfArgs ++ [toSize size] }
  else
    let index := 2 * (i - 1) / 3
    { slots := f.slots ++ [(.chars key, index), (.shm keyName size, index + 1)]
      opened := f.opened ++ [(keyName, size)]
      sizeOfArgs := f.sizeOfArgs ++ [key.length, toSize size] }

/-- The loop over the fields from index `i` on, three at a time. -/
def openObjects (argFlag : UInt8) : ℕ → List Bytes → Filling → Option Filling
  | i, bucket :: key :: sizeText :: rest, f => do
      let size ← stoi sizeText
      openObjects argFlag (i + 3) rest (openObject argFlag i bucket key size f)
  | _, _, f => some f

/-- The arguments of a call, with `arg_size`; `some none` if they cannot be parsed. -/
def parseArgs (argFlag : UInt8) (args : List Bytes) (sizes : List ℕ) :
    Option (Option (ℕ × Filling)) :=
  let count := args.length + 1
  if argFlag = 0 then
    some (some (count - 1,
      { slots := (args.map .chars).zipIdx, sizeOfArgs := sizes ++ args.map List.length }))
  else if count % 3 = 1 then do
    -- for any other flag `arg_size` is not initialised
    guard (argFlag = 1 ∨ argFlag = 2)
    let argSize := if argFlag = 1 then count / 3 else 2 * (count - 1) / 3
    let filling ← openObjects argFlag 1 args { sizeOfArgs := sizes }
    some (some (argSize, filling))
  else some none

/-! ### What the slots hold -/

/-- The size that the library reports for an argument. -/
def ArgValue.size : ArgValue → ℕ
  | .chars text => text.length
  | .shm _ size => toSize size

/-- The object opened for an argument. -/
def ArgValue.object? : ArgValue → Option (Bytes × ℤ)
  | .chars _ => none
  | .shm keyName size => some (keyName, size)

/-- The number of slots of one object. -/
def slotsPerObject (argFlag : UInt8) : ℕ := if argFlag = 1 then 1 else 2

theorem shmArgs_sizes {argFlag : UInt8} {args : List Bytes} {values : List ArgValue}
    {sizes : List ℕ} (h : shmArgs argFlag args = some (values, sizes)) :
    sizes = values.map ArgValue.size ∧
      values.length = slotsPerObject argFlag * (args.length / 3) := by
  induction args using shmArgs.induct generalizing values sizes with
  | case1 bucket key sizeText rest ih =>
    simp only [shmArgs, Option.bind_eq_bind, Option.bind_eq_some_iff] at h
    obtain ⟨size, -, ⟨values', sizes'⟩, hrest, h⟩ := h
    obtain ⟨hsizes, hlen⟩ := ih hrest
    have hcount : (bucket :: key :: sizeText :: rest).length / 3 = rest.length / 3 + 1 := by
      simp only [List.length_cons]
      omega
    rw [hcount]
    unfold slotsPerObject at hlen ⊢
    split_ifs at h hlen ⊢ with hflag <;> cases h
    · exact ⟨by simp [hsizes, ArgValue.size], by simp [hlen]⟩
    · exact ⟨by simp [hsizes, ArgValue.size], by simp only [List.length_cons]; omega⟩
  | case2 args hargs =>
    -- fewer than three fields are left
    rcases args with _ | ⟨a, _ | ⟨b, _ | ⟨c, rest⟩⟩⟩
    · cases h; simp
    · cases h; simp
    · cases h; simp
    · exact (hargs a b c rest rfl).elim

/-- The loop over the objects fills the slots one after the other, with the values that `shmArgs`
lists. -/
theorem openObjects_eq (argFlag : UInt8) (k : ℕ) (args : List Bytes) (f : Filling) :
    openObjects argFlag (3 * k + 1) args f = (shmArgs argFlag args).map fun r =>
      { slots := f.slots ++ r.1.zipIdx (slotsPerObject argFlag * k)
        opened := f.opened ++ r.1.filterMap ArgValue.object?
        sizeOfArgs := f.sizeOfArgs ++ r.2 } := by
  induction args using shmArgs.induct generalizing k f with
  | case1 bucket key sizeText rest ih =>
    have hnext : 3 * k + 1 + 3 = 3 * (k + 1) + 1 := by omega
    simp only [openObjects, shmArgs, Option.bind_eq_bind, hnext]
    cases stoi sizeText with
    | none => rfl
    | some size =>
      simp only [Option.bind_some, ih]
      cases shmArgs argFlag rest with
      | none => rfl
      | some r =>
        have hslot : (3 * k + 1) / 3 = k := by omega
        have hindex : 2 * (3 * k) / 3 = 2 * k := by omega
        unfold openObject slotsPerObject
        split_ifs with hflag
        · simp [hslot, ArgValue.object?, List.zipIdx_cons]
        · simp [hindex, ArgValue.object?, List.filterMap_cons, Nat.mul_add, List.zipIdx_cons,
            Nat.add_assoc]
  | case2 args hargs =>
    rcases args with _ | ⟨a, _ | ⟨b, _ | ⟨c, rest⟩⟩⟩
    · simp [openObjects, shmArgs]
    · simp [openObjects, shmArgs]
    · simp [openObjects, shmArgs]
    · exact (hargs a b c rest rfl).elim

/-- The slots hold the values in order. -/
def Filling.of (values : List ArgValue) : Filling where
  slots := values.zipIdx
  opened := values.filterMap ArgValue.object?
  sizeOfArgs := values.map ArgValue.size

theorem parseArgs_zero (args : List Bytes) :
    parseArgs 0 args [] = some (some (args.length, .of (args.map .chars))) := by
  have hopened : (args.map ArgValue.chars).filterMap ArgValue.object? = [] :=
    List.filterMap_eq_nil_iff.2 fun v hv => by
      obtain ⟨text, -, rfl⟩ := List.mem_map.1 hv
      rfl
  have hsizes : (args.map ArgValue.chars).map ArgValue.size = args.map List.length := by
    rw [List.map_map]
    rfl
  simp only [parseArgs, if_true, Filling.of, hopened, hsizes, List.nil_append, Nat.add_sub_cancel]

theorem parseArgs_shm {argFlag : UInt8} {args : List Bytes} (hflag : argFlag = 1 ∨ argFlag = 2)
    (h3 : args.length % 3 = 0) :
    parseArgs argFlag args [] =
      (shmArgs argFlag args).map fun r => some (r.1.length, .of r.1) := by
  have h0 : argFlag ≠ 0 := by
    rintro rfl
    exact absurd hflag (by decide)
  have hcount : (args.length + 1) % 3 = 1 := by omega
  simp only [parseArgs, h0, if_false, hcount, if_true, hflag, guard_true, openObjects_eq argFlag 0]
  cases hargs : shmArgs argFlag args with
  | none => rfl
  | some r =>
    obtain ⟨hsizes, hlen⟩ := shmArgs_sizes hargs
    have hsize : (if argFlag = 1 then (args.length + 1) / 3 else 2 * args.length / 3) =
        r.1.length := by
      rw [hlen, slotsPerObject]
      split_ifs <;> omega
    simp [hsize, Filling.of, hsizes]

/-- The arguments as the reader `decodeFields` lists them. -/
theorem decodeFields_eq_parseArgs (argFlag persist : UInt8) (resources : Option (Bytes × Bytes))
    {msg sessionId funcName : Bytes} {args : List Bytes}
    (hmsg : GetLine.split kDelimiterChar msg = sessionId :: funcName :: args) :
    decodeFields argFlag persist resources msg = (parseArgs argFlag args []).map fun parsed =>
      match parsed with
      | none => .cannotParse sessionId funcName
      | some (_, f) =>
          .call ⟨sessionId, funcName, persist, resources, f.slots.map Prod.fst, f.sizeOfArgs⟩ := by
  simp only [decodeFields, hmsg]
  split_ifs with h0 h3
  · subst h0
    simp [parseArgs_zero, Filling.of, ArgValue.size]
  · by_cases hflag : argFlag = 1 ∨ argFlag = 2
    · rw [parseArgs_shm hflag h3]
      cases hargs : shmArgs argFlag args with
      | none => simp [hflag]
      | some r => simp [hflag, Filling.of, (shmArgs_sizes hargs).1]
    · have hcount : (args.length + 1) % 3 = 1 := by omega
      simp [parseArgs, h0, hcount, hflag]
  · have hcount : (args.length + 1) % 3 ≠ 1 := by omega
    simp [parseArgs, h0, hcount]

/-- Whatever is parsed fills the slots in order. -/
theorem parseArgs_eq_of {argFlag : UInt8} {args : List Bytes} {argSize : ℕ} {f : Filling}
    (h : parseArgs argFlag args [] = some (some (argSize, f))) :
    ∃ values, argSize = values.length ∧ f = .of values := by
  by_cases h0 : argFlag = 0
  · subst h0
    rw [parseArgs_zero] at h
    cases h
    exact ⟨_, by simp, rfl⟩
  by_cases h3 : args.length % 3 = 0
  · by_cases hflag : argFlag = 1 ∨ argFlag = 2
    · rw [parseArgs_shm hflag h3] at h
      obtain ⟨r, -, hr⟩ := Option.map_eq_some_iff.1 h
      cases hr
      exact ⟨r.1, rfl, rfl⟩
    · have hcount : (args.length + 1) % 3 = 1 := by omega
      simp [parseArgs, h0, hcount, hflag] at h
  · have hcount : (args.length + 1) % 3 ≠ 1 := by omega
    simp [parseArgs, h0, hcount] at h

/-! ### The loop -/

/-- The part of `UserLibrary` that a call sets. -/
structure Library where
  function : Bytes := []
  sessionId : Bytes := []
  persistFlag : UInt8 := 0
  sizeOfArgs : List ℕ := []

/-- What a user's function is entered with. -/
structure Entry where
  library : Library
  argSize : ℕ
  slots : List (ArgValue × ℕ)
  opened : List (Bytes × ℤ)

/-- The executor between two messages, and the functions that it has entered. -/
structure Server where
  library : Library := {}
  nameFuncMap : Finset Bytes := ∅
  environment : Option (Bytes × Bytes) := none
  entered : List Entry := []

/-- The function call of a message.  The user's function cannot change `size_of_args_`, its
exceptions are caught, and the session is cleared after it. -/
def onCall (s : Server) (loads : Bool) (argFlag persistOutputFlag : UInt8) :
    List Bytes → Option Server
  | sessionId :: funcName :: args =>
      let library := { s.library with
        function := funcName, sessionId := sessionId, persistFlag := persistOutputFlag }
      if funcName ∉ s.nameFuncMap ∧ loads = false then some { s with library := library }
      else do
        let loaded := { s with nameFuncMap := insert funcName s.nameFuncMap }
        match ← parseArgs argFlag args library.sizeOfArgs with
        | none => some { loaded with library := library }
        | some (argSize, filling) =>
            some { loaded with
              library := {}
              entered := s.entered ++ [{
                library := { library with sizeOfArgs := filling.sizeOfArgs }
                argSize := argSize, slots := filling.slots, opened := filling.opened }] }
  | _ => none

/-- Handle one message; `none` where the executor does not survive it. -/
def receive (s : Server) (input : Bool × Bytes) : Option Server := do
  match ← readHeader input.2 with
  | none => some s
  | some h =>
      let environment := (resourceParts h.resourceMeta).or s.environment
      onCall { s with environment := environment } input.1 h.argFlag h.persistOutputFlag
        (GetLine.split kDelimiterChar h.msg)

/-- Every slot below `argSize` is written exactly once, no other one is, and the library has the
size of the argument in each slot. -/
structure Entry.Filled (e : Entry) : Prop where
  slots : e.slots.map Prod.snd = List.range e.argSize
  sizes : e.library.sizeOfArgs = e.slots.map fun w => w.1.size

/-- The entry of a call as the reader `decodeCall` sees it. -/
def CallInput.entry (input : CallInput) : Entry where
  library := ⟨input.funcName, input.sessionId, input.persistOutputFlag, input.argSizes⟩
  argSize := input.argValues.length
  slots := input.argValues.zipIdx
  opened := input.argValues.filterMap ArgValue.object?

/-- No size is left over, and all functions were entered with the sizes of their arguments. -/
structure Server.Tidy (s : Server) : Prop where
  sizes : s.library.sizeOfArgs = []
  entered : ∀ e ∈ s.entered, e.Filled

/-- What a call does to a tidy executor. -/
theorem onCall_cases {s s' : Server} {loads : Bool} {argFlag persist : UInt8} {fields : List Bytes}
    (hs : s.library.sizeOfArgs = []) (h : onCall s loads argFlag persist fields = some s') :
    s'.library.sizeOfArgs = [] ∧
      (s'.entered = s.entered ∨ ∃ e : Entry, e.Filled ∧ s'.entered = s.entered ++ [e]) := by
  match fields with
  | [] => cases h
  | [_] => cases h
  | sessionId :: funcName :: args =>
    simp only [onCall, hs] at h
    split_ifs at h with hload
    · cases h
      exact ⟨rfl, .inl rfl⟩
    · obtain ⟨parsed, hparsed, h⟩ := Option.bind_eq_some_iff.1 h
      match parsed with
      | none =>
        cases h
        exact ⟨rfl, .inl rfl⟩
      | some (argSize, f) =>
        obtain ⟨values, rfl, rfl⟩ := parseArgs_eq_of hparsed
        cases h
        refine ⟨rfl, .inr ⟨_, ⟨?_, ?_⟩, rfl⟩⟩
        · show values.zipIdx.map Prod.snd = List.range values.length
          rw [List.zipIdx_map_snd, List.range_eq_range']
        · show values.map ArgValue.size = values.zipIdx.map (ArgValue.size ∘ Prod.fst)
          rw [← List.map_map, List.zipIdx_map_fst]

theorem tidy_receive {s s' : Server} {input : Bool × Bytes} (hs : s.Tidy)
    (h : receive s input = some s') : s'.Tidy := by
  obtain ⟨header, -, h⟩ := Option.bind_eq_some_iff.1 h
  match header with
  | none =>
    cases h
    exact hs
  | some header =>
    simp only at h
    obtain ⟨hsizes, hentered⟩ := onCall_cases (by exact hs.sizes) h
    refine ⟨hsizes, ?_⟩
    rcases hentered with hentered | ⟨e, he, hentered⟩
    · rw [hentered]
      exact hs.entered
    · rw [hentered]
      intro e' he'
      rcases List.mem_append.1 he' with he' | he'
      · exact hs.entered e' he'
      · rw [List.mem_singleton.1 he']
        exact he

theorem tidy_run {inputs : List (Bool × Bytes)} {s : Server}
    (h : Runs.exec receive {} inputs = some s) : s.Tidy :=
  Runs.exec_invariant (fun _ _ _ _ hstep hs => tidy_receive hs hstep)
    (Runs.allowed_true {} inputs) h ⟨rfl, by simp⟩

/-- The loop refines the reader: the functions entered are the calls it decodes. -/
theorem receive_entered {s : Server} (hs : s.library.sizeOfArgs = []) (str : Bytes) :
    (receive s (true, str)).map Server.entered = (decodeCall str).map fun decoded =>
      match decoded with
      | .call input => s.entered ++ [input.entry]
      | _ => s.entered := by
  rw [decodeCall_eq_readHeader]
  simp only [receive, Option.bind_eq_bind]
  rcases readHeader str with _ | _ | h
  · rfl
  · rfl
  · simp only [Option.bind_some]
    rcases hfields : GetLine.split kDelimiterChar h.msg with _ | ⟨sessionId, _ | ⟨funcName, args⟩⟩
    · simp [onCall, decodeFields, hfields]
    · simp [onCall, decodeFields, hfields]
    · rw [decodeFields_eq_parseArgs _ _ _ hfields]
      simp only [onCall, hs]
      rcases hparsed : parseArgs h.argFlag args [] with _ | _ | ⟨argSize, f⟩
      · simp
      · simp
      · obtain ⟨values, rfl, rfl⟩ := parseArgs_eq_of hparsed
        simp [CallInput.entry, Filling.of]

/-! ### Calls by reference -/

/-- An object in shared memory, `size` bytes long. -/
structure ObjectRef where
  bucket : Bytes
  key : Bytes
  size : ℕ
  deriving DecidableEq

namespace ObjectRef

/-- The name of the object. -/
def name (o : ObjectRef) : Bytes := o.bucket ++ kDelimiterChar :: o.key

/-- No delimiter and no NUL in the parts of the name. -/
def Clean (o : ObjectRef) : Prop := Executor.Clean o.bucket ∧ Executor.Clean o.key

instance (o : ObjectRef) : Decidable o.Clean :=
  inferInstanceAs (Decidable (Executor.Clean o.bucket ∧ Executor.Clean o.key))

/-- The arguments that a function gets for the object. -/
def values (argFlag : ℕ) (o : ObjectRef) : List ArgValue :=
  if argFlag = 1 then [.shm o.name o.size] else [.chars o.key, .shm o.name o.size]

end ObjectRef

/-- The arguments of `schedule_func_call` for a list of objects: name, size, name, size, ... -/
def refArgs (objects : List ObjectRef) : List Bytes :=
  objects.flatMap fun o => [o.name, toStringNat o.size]

/-- The executor accepts the message, opens exactly the objects, with their names and sizes, and
enters the function with every slot written once, no other one, and a size for each of them. -/
def Opens (s : Server) (message : Bytes) (argFlag : ℕ) (objects : List ObjectRef) : Prop :=
  ∃ s' e, receive s (true, sendString message) = some s' ∧ s'.entered = s.entered ++ [e] ∧
    e.opened = objects.map (fun o => (o.name, (o.size : ℤ))) ∧
    e.slots.map Prod.fst = objects.flatMap (ObjectRef.values argFlag) ∧ e.Filled

section ByReference

variable (toStringDouble : Float → Bytes)

/-- The fields of a list of objects: bucket, key and size of each. -/
def refFields (objects : List ObjectRef) : List Bytes :=
  objects.flatMap fun o => [o.bucket, o.key, toStringNat o.size]

theorem flatMap_refArgs (objects : List ObjectRef) :
    (refArgs objects).flatMap (kDelimiterChar :: ·) =
      (refFields objects).flatMap (kDelimiterChar :: ·) := by
  induction objects with
  | nil => rfl
  | cons o objects ih =>
    simp only [refArgs, refFields, List.flatMap_cons, List.flatMap_append] at ih ⊢
    rw [ih]
    simp [ObjectRef.name]

theorem clean_refFields {objects : List ObjectRef} (h : ∀ o ∈ objects, o.Clean) :
    ∀ x ∈ refFields objects, Clean x := by
  intro x hx
  obtain ⟨o, ho, hx⟩ := List.mem_flatMap.1 hx
  simp only [List.mem_cons, List.not_mem_nil, or_false] at hx
  rcases hx with rfl | rfl | rfl
  · exact (h o ho).1
  · exact (h o ho).2
  · exact clean_toStringNat o.size

theorem zero_notMem_refArgs {objects : List ObjectRef} (h : ∀ o ∈ objects, o.Clean) :
    ∀ x ∈ refArgs objects, (0 : UInt8) ∉ x := by
  intro x hx
  obtain ⟨o, ho, hx⟩ := List.mem_flatMap.1 hx
  simp only [List.mem_cons, List.not_mem_nil, or_false] at hx
  rcases hx with rfl | rfl
  · simp only [ObjectRef.name, List.mem_append, List.mem_cons, not_or]
    exact ⟨(h o ho).1.2, by decide, (h o ho).2.2⟩
  · exact (clean_toStringNat o.size).2

/-- The reader finds every object, if it can read all the sizes. -/
theorem shmArgs_refFields {argFlag : ℕ} (hflag : argFlag = 1 ∨ argFlag = 2)
    (objects : List ObjectRef) :
    shmArgs (UInt8.ofNat argFlag) (refFields objects) =
      if ∀ o ∈ objects, o.size < 2 ^ 31 then
        some (objects.flatMap (ObjectRef.values argFlag),
          (objects.flatMap (ObjectRef.values argFlag)).map ArgValue.size)
      else none := by
  induction objects with
  | nil => simp [refFields, shmArgs]
  | cons o objects ih =>
    have hfields : refFields (o :: objects) =
        o.bucket :: o.key :: toStringNat o.size :: refFields objects := rfl
    rw [hfields, shmArgs, ih, stoi_toStringNat]
    simp only [List.forall_mem_cons]
    by_cases ho : o.size < 2 ^ 31
    · by_cases hall : ∀ o ∈ objects, o.size < 2 ^ 31
      · rw [if_pos ho, if_pos hall, if_pos ⟨ho, hall⟩]
        rcases hflag with rfl | rfl <;>
          simp [ObjectRef.values, ObjectRef.name, ArgValue.size]
      · have hnot : ¬ (o.size < 2 ^ 31 ∧ ∀ o ∈ objects, o.size < 2 ^ 31) := fun h => hall h.2
        rw [if_pos ho, if_neg hall, if_neg hnot]
        rfl
    · have hnot : ¬ (o.size < 2 ^ 31 ∧ ∀ o ∈ objects, o.size < 2 ^ 31) := fun h => ho h.1
      rw [if_neg ho, if_neg hnot]
      rfl

theorem filterMap_object? {argFlag : ℕ} (hflag : argFlag = 1 ∨ argFlag = 2)
    (objects : List ObjectRef) :
    (objects.flatMap (ObjectRef.values argFlag)).filterMap ArgValue.object? =
      objects.map fun o => (o.name, (o.size : ℤ)) := by
  induction objects with
  | nil => rfl
  | cons o objects ih =>
    rw [List.flatMap_cons, List.filterMap_append, ih]
    rcases hflag with rfl | rfl <;> rfl

theorem length_refFields (objects : List ObjectRef) :
    (refFields objects).length = 3 * objects.length := by
  induction objects with
  | nil => rfl
  | cons o objects ih =>
    simp only [refFields, List.flatMap_cons, List.length_append, List.length_cons,
      List.length_nil] at ih ⊢
    omega

/-- The last field is a size, unless there is no object. -/
theorem getLast_refFields (funcName : Bytes) (objects : List ObjectRef) :
    (funcName :: refFields objects).getLast (List.cons_ne_nil _ _) = [] ↔
      funcName = [] ∧ objects = [] := by
  induction objects using List.reverseRecOn with
  | nil => simp [refFields]
  | append_singleton objects o _ =>
    have hfields : funcName :: refFields (objects ++ [o]) =
        (funcName :: refFields objects ++ [o.bucket, o.key]) ++ [toStringNat o.size] := by
      simp [refFields]
    simp only [hfields, List.getLast_append_singleton]
    simp [toStringNat_ne_nil]

/-- What the reader makes of a call by reference. -/
theorem decodeCall_refArgs (clientAddr : Address) (cpuCores : Float) (memoryMb : ℕ)
    {sessionId funcName : Bytes} {objects : List ObjectRef} {argFlag : ℕ} (hs : Clean sessionId)
    (hf : Clean funcName) (ho : ∀ o ∈ objects, o.Clean) (hflag : argFlag = 1 ∨ argFlag = 2) :
    ∃ persist resources,
      decodeCall (sendString (encodeCall toStringDouble clientAddr cpuCores memoryMb sessionId
        funcName (refArgs objects) argFlag)) =
      if (funcName ≠ [] ∨ objects ≠ []) ∧ ∀ o ∈ objects, o.size < 2 ^ 31 then
        some (.call ⟨sessionId, funcName, persist, resources,
          objects.flatMap (ObjectRef.values argFlag),
          (objects.flatMap (ObjectRef.values argFlag)).map ArgValue.size⟩)
      else none := by
  have hclean : ∀ x ∈ funcName :: refFields objects, Clean x :=
    List.forall_mem_cons.2 ⟨hf, clean_refFields ho⟩
  have hzero : ∀ x ∈ funcName :: refArgs objects, (0 : UInt8) ∉ x :=
    List.forall_mem_cons.2 ⟨hf.2, zero_notMem_refArgs ho⟩
  refine ⟨if clientAddr = "" then 1 else 2,
    resourceParts (resourceMeta toStringDouble cpuCores memoryMb), ?_⟩
  rw [decodeCall_eq_readHeader, readHeader_encodeCall, takeWhile_fields hs.2 hzero]
  simp only [Option.bind_some, decodeFields, GetLine.split_append_cons hs.1, flatMap_refArgs,
    GetLine.split_delimited fun x hx => (hclean x hx).1, getLast_refFields]
  by_cases hempty : funcName = [] ∧ objects = []
  · -- nothing is left after the session id
    obtain ⟨rfl, rfl⟩ := hempty
    simp [refFields]
  · have hsome : funcName ≠ [] ∨ objects ≠ [] := by tauto
    have hne : UInt8.ofNat argFlag ≠ 0 := by rcases hflag with rfl | rfl <;> decide
    have hflag' : UInt8.ofNat argFlag = 1 ∨ UInt8.ofNat argFlag = 2 := by
      rcases hflag with rfl | rfl <;> decide
    -- every object is a bucket, a key and a size
    have h3 : (refFields objects).length % 3 = 0 := by
      rw [length_refFields]
      omega
    simp only [hempty, if_false, hne, h3, if_true, hflag', guard_true, shmArgs_refFields hflag]
    by_cases hall : ∀ o ∈ objects, o.size < 2 ^ 31
    · simp only [hsome, true_and, if_pos hall]
      rfl
    · simp only [hsome, true_and, if_neg hall]
      rfl

/-- **Calls by reference.**  After any messages that the executor survived, all functions were
entered with every slot written once and with the size of each argument.  The next call by
reference is opened as it was sent exactly when every size fits an `int`, as `stoi` throws on the
others, and the function name is not empty in case there are no objects. -/
theorem opens_iff {inputs : List (Bool × Bytes)} {s : Server}
    (hrun : Runs.exec receive {} inputs = some s) (clientAddr : Address) (cpuCores : Float)
    (memoryMb : ℕ) {sessionId funcName : Bytes} {objects : List ObjectRef} {argFlag : ℕ}
    (hs : Clean sessionId) (hf : Clean funcName) (ho : ∀ o ∈ objects, o.Clean)
    (hflag : argFlag = 1 ∨ argFlag = 2) :
    (∀ e ∈ s.entered, e.Filled) ∧
    (Opens s (encodeCall toStringDouble clientAddr cpuCores memoryMb sessionId funcName
        (refArgs objects) argFlag) argFlag objects ↔
      (funcName ≠ [] ∨ objects ≠ []) ∧ ∀ o ∈ objects, o.size < 2 ^ 31) := by
  have htidy := tidy_run hrun
  refine ⟨htidy.entered, ?_⟩
  obtain ⟨persist, resources, hdec⟩ := decodeCall_refArgs toStringDouble clientAddr cpuCores
    memoryMb hs hf ho hflag
  have hentered := receive_entered htidy.sizes (sendString (encodeCall toStringDouble clientAddr
    cpuCores memoryMb sessionId funcName (refArgs objects) argFlag))
  rw [hdec] at hentered
  constructor
  · rintro ⟨s', e, hrecv, -⟩
    by_contra hcond
    rw [hrecv, if_neg hcond] at hentered
    cases hentered
  · intro hcond
    rw [if_pos hcond] at hentered
    obtain ⟨s', hrecv, hs'⟩ := Option.map_eq_some_iff.1 hentered
    refine ⟨s', _, hrecv, hs', ?_, ?_, (tidy_receive htidy hrecv).entered _ ?_⟩
    · exact filterMap_object? hflag objects
    · show (List.zipIdx _).map Prod.fst = _
      rw [List.zipIdx_map_fst]
    · rw [hs']
      simp

/-- A function that cannot be loaded, then arguments that cannot be parsed. -/
def rejectedInputs : List (Bool × Bytes) :=
  [(false, sendString (encodeCall (fun _ => ascii "0.000000") "" 0 0 (ascii "s1") (ascii "map")
      [ascii "x"] 0)),
    (true, sendString (encodeCall (fun _ => ascii "0.000000") "" 0 0 (ascii "s2") (ascii "map")
      [ascii "x"] 1))]

theorem opens_sample :
    ∃ s, Runs.exec receive {} rejectedInputs = some s ∧
      Opens s (encodeCall (fun _ => ascii "0.000000") "" 0 0 (ascii "s3") (ascii "reduce")
        (refArgs [⟨ascii "b", ascii "s3_k1", 5⟩, ⟨ascii "b", ascii "s3_k2", 2147483647⟩]) 2) 2
        [⟨ascii "b", ascii "s3_k1", 5⟩, ⟨ascii "b", ascii "s3_k2", 2147483647⟩] := by
  have hrun : (Runs.exec receive {} rejectedInputs).isSome := by decide +kernel
  obtain ⟨s, hs⟩ := Option.isSome_iff_exists.1 hrun
  exact ⟨s, hs, (opens_iff (fun _ => ascii "0.000000") hs "" 0 0 (by decide) (by decide) (by decide)
    (by decide)).2.2 (by decide)⟩

/-- An object of 2 GiB: the size does not fit the `int` of `stoi`.  Such a size comes into
`key_len_map` by a `DataResp` frame of another node, whose payload it counts; the size in a put of
the node's own executors is read with `stoi` before it is stored. -/
theorem not_opens_sample :
    Runs.exec receive {} [] = some {} ∧ Clean (ascii "s3") ∧ Clean (ascii "map") ∧
    ObjectRef.Clean ⟨ascii "b", ascii "s3_k1", 2147483648⟩ ∧
    ¬ Opens {} (encodeCall (fun _ => ascii "0.000000") "" 0 0 (ascii "s3") (ascii "map")
        (refArgs [⟨ascii "b", ascii "s3_k1", 2147483648⟩]) 1) 1
      [⟨ascii "b", ascii "s3_k1", 2147483648⟩] := by
  refine ⟨rfl, by decide, by decide, by decide, ?_⟩
  rintro ⟨s', e, hrecv, -⟩
  have hnone : (receive {} (true, sendString (encodeCall (fun _ => ascii "0.000000") "" 0 0
      (ascii "s3") (ascii "map") (refArgs [⟨ascii "b", ascii "s3_k1", 2147483648⟩])
      1))).isNone := by
    decide +kernel
  rw [hrecv] at hnone
  cases hnone

end ByReference

end Demeter.Executor
