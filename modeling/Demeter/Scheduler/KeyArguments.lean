import Demeter.Scheduler.Node

/-!
# The two forms of key arguments

Key arguments are kept as name and size, for an executor, and passed to `forward_call_via_helper` as
bucket, key and size.

* `InThrees` are the arguments that `forward_call_via_helper` can read, `keyNames` the names that it
  puts together again;
* `objectNames` are the names in the other form.
-/

namespace Demeter.Scheduler

open Demeter.Coordinator (Address FunctionRequest FunctionCall)
open Demeter.Executor (stoi kDelimiterChar)

/-! ### Bucket, key and size -/

/-- The arguments come in threes, the third one a number. -/
def InThrees : List Bytes → Prop
  | [] => True
  | _ :: _ :: sizeText :: rest => (stoi sizeText).isSome ∧ InThrees rest
  | _ => False

instance InThrees.decidable : ∀ args, Decidable (InThrees args)
  | [] => .isTrue trivial
  | [_] => .isFalse id
  | [_, _] => .isFalse id
  | _ :: _ :: _ :: rest => @instDecidableAnd _ _ _ (InThrees.decidable rest)

/-- The names of objects that come as bucket, key and size. -/
def keyNames : List Bytes → List Bytes
  | bucket :: key :: _ :: rest => (bucket ++ kDelimiterChar :: key) :: keyNames rest
  | _ => []

theorem isSome_totalDataSize_iff (args : List Bytes) :
    (totalDataSize args).isSome ↔ InThrees args := by
  fun_induction totalDataSize args with
  | case1 => simp [InThrees]
  | case2 bucket key sizeText rest ih =>
    rw [InThrees, ← ih]
    cases stoi sizeText <;> cases totalDataSize rest <;> simp
  | case3 args hnil hcons =>
    cases args with
    | nil => exact absurd rfl hnil
    | cons a args =>
      cases args with
      | nil => simp [InThrees]
      | cons b args =>
        cases args with
        | nil => simp [InThrees]
        | cons c args => exact absurd rfl (hcons a b c args)

/-- A call with key arguments can be forwarded if and only if all of them come in threes. -/
theorem isSome_forwardCallViaHelper_iff (mem : Bytes → Bytes) (keyLenMap : Dict Bytes ℕ)
    (ip : Address) (dataServerAddr : Bytes → Address) (respAddress : Address)
    (sessionId appName : String) (funcs : List (String × List Bytes)) (argFlag : ℕ) :
    (forwardCallViaHelper mem keyLenMap ip dataServerAddr respAddress sessionId appName funcs
        argFlag).isSome ↔ (argFlag > 0 → ∀ f ∈ funcs, InThrees f.2) := by
  have hmap : (funcs.mapM fun f => totalDataSize f.2).isSome ↔ ∀ f ∈ funcs, InThrees f.2 := by
    induction funcs with
    | nil => simp
    | cons f funcs ih =>
      rw [List.mapM_cons, List.forall_mem_cons, ← ih, ← isSome_totalDataSize_iff]
      cases totalDataSize f.2 <;>
        cases funcs.mapM fun f => totalDataSize f.2 <;> simp
  unfold forwardCallViaHelper
  split_ifs with hflag
  · rw [← hmap]
    cases funcs.mapM fun f => totalDataSize f.2 with
    | none => simp [hflag]
    | some totals =>
      rw [Option.bind_eq_bind, Option.bind_some]
      split_ifs <;> simp
  · simp [hflag]

/-- What a forwarded call says of the call that it is for. -/
theorem forwardCallViaHelper_spec {mem : Bytes → Bytes} {keyLenMap : Dict Bytes ℕ} {ip : Address}
    {dataServerAddr : Bytes → Address} {respAddress : Address} {sessionId appName : String}
    {funcs : List (String × List Bytes)} {argFlag : ℕ} {call : FunctionCall}
    (h : forwardCallViaHelper mem keyLenMap ip dataServerAddr respAddress sessionId appName funcs
      argFlag = some call) :
    call.appName = appName ∧ call.sessionId = sessionId ∧
      call.requests.map FunctionRequest.name = funcs.map Prod.fst := by
  have hcall : ∀ (funcs' : List (String × List Bytes)) (argFlag' : ℕ),
      funcs'.map Prod.fst = funcs.map Prod.fst →
        call = forwardFuncCall ip dataServerAddr respAddress appName funcs' argFlag' sessionId →
          call.appName = appName ∧ call.sessionId = sessionId ∧
            call.requests.map FunctionRequest.name = funcs.map Prod.fst := by
    rintro funcs' argFlag' hnames rfl
    refine ⟨rfl, rfl, ?_⟩
    rw [← hnames, forwardFuncCall, List.map_map]
    rfl
  unfold forwardCallViaHelper at h
  split_ifs at h
  · obtain ⟨totals, -, h⟩ := Option.bind_eq_some_iff.1 h
    split_ifs at h
    · exact hcall _ 0 (by rw [List.map_map]; rfl) (Option.some.inj h).symm
    · exact hcall _ argFlag rfl (Option.some.inj h).symm
  · exact hcall _ argFlag rfl (Option.some.inj h).symm

/-! ### Name and size -/

/-- The names of objects that come as name and size. -/
def objectNames : List Bytes → List Bytes
  | name :: _ :: rest => name :: objectNames rest
  | _ => []

/-- A key argument: the two parts of the name of an object, and its size as a text. -/
structure KeyArg where
  bucket : Bytes
  key : Bytes
  sizeText : Bytes

namespace KeyArg

/-- The name of the object. -/
def name (o : KeyArg) : Bytes := o.bucket ++ kDelimiterChar :: o.key

/-- The form for an executor. -/
def pair (o : KeyArg) : List Bytes := [o.name, o.sizeText]

/-- The form for `forward_call_via_helper`. -/
def fields (o : KeyArg) : List Bytes := [o.bucket, o.key, o.sizeText]

/-- The only delimiter is the one between the bucket and the key, which is not empty. -/
structure Proper (o : KeyArg) : Prop where
  bucket : kDelimiterChar ∉ o.bucket
  key : kDelimiterChar ∉ o.key
  key_ne : o.key ≠ []
  sizeText : kDelimiterChar ∉ o.sizeText

theorem Proper.split_name {o : KeyArg} (h : o.Proper) :
    GetLine.split kDelimiterChar o.name = [o.bucket, o.key] := by
  rw [name, GetLine.split_append_cons h.bucket, GetLine.split_of_notMem h.key h.key_ne]

end KeyArg

theorem objectNames_pairs (objects : List KeyArg) :
    objectNames (objects.flatMap KeyArg.pair) = objects.map KeyArg.name := by
  induction objects with
  | nil => rfl
  | cons o objects ih =>
    rw [List.flatMap_cons, List.map_cons, ← ih]
    rfl

theorem keyNames_fields (objects : List KeyArg) :
    keyNames (objects.flatMap KeyArg.fields) = objects.map KeyArg.name := by
  induction objects with
  | nil => rfl
  | cons o objects ih =>
    rw [List.flatMap_cons, List.map_cons, ← ih]
    rfl

theorem length_fields (objects : List KeyArg) :
    (objects.flatMap KeyArg.fields).length = 3 * objects.length := by
  simp [List.length_flatMap, KeyArg.fields, mul_comm]

/-- Flattening turns the one form into the other. -/
theorem flattenArgs_pairs {argFlag : ℕ} (hflag : argFlag > 0) {objects : List KeyArg}
    (hne : objects ≠ []) (h : ∀ o ∈ objects, o.Proper) :
    Node.flattenArgs argFlag (objects.flatMap KeyArg.pair) =
      some (objects.flatMap KeyArg.fields) := by
  have hname : ∀ o : KeyArg, kDelimiterChar ∈ o.name := fun o => by simp [KeyArg.name]
  have hflat : ∀ o ∈ objects, (o.pair.flatMap fun arg =>
      if kDelimiterChar ∈ arg then GetLine.split kDelimiterChar arg else [arg]) = o.fields := by
    intro o ho
    simp only [KeyArg.pair, List.flatMap_cons, List.flatMap_nil, if_pos (hname o),
      if_neg (h o ho).sizeText, (h o ho).split_name, List.append_nil]
    rfl
  obtain ⟨o, rest, rfl⟩ := List.exists_cons_of_ne_nil hne
  have hfirst : ∀ tail, Node.flattenArgs argFlag (o.name :: tail) =
      some ((o.name :: tail).flatMap fun arg =>
        if kDelimiterChar ∈ arg then GetLine.split kDelimiterChar arg else [arg]) := by
    intro tail
    unfold Node.flattenArgs
    rw [if_pos hflag]
    exact if_pos (hname o)
  refine (hfirst (o.sizeText :: rest.flatMap KeyArg.pair)).trans (congrArg some ?_)
  rw [← List.flatMap_congr hflat, ← List.flatMap_assoc]
  rfl

/-- When the call is forwarded, `forward_call_via_helper` can read its key arguments. -/
def ScheduledCall.Forwardable (c : ScheduledCall) : Prop :=
  c.argFlag > 0 → ∃ args, Node.flattenArgs c.argFlag c.funcArgs = some args ∧ InThrees args

end Demeter.Scheduler
