import Demeter.Common.Trigger
import Demeter.Executor.CallMessage

/-!
# Triggers at the coordinator and at the local schedulers

How a trigger comes into being: `trigger_op_handler.cpp` builds it from the request of a client and
sends its dump to the local schedulers, where `try_recv_msg` of `comm_helper.hpp` builds it again;
`app_register_handler.cpp` builds one for each dependency that is not direct.

* `updateTrigger_addTrigger`: a local scheduler builds the trigger of the coordinator;
* `dependencyTrigger_kOutOfN` is the trigger of a `K_OUT_OF_N` dependency.
-/

namespace Demeter.Coordinator

open Demeter.Common
open Demeter.Executor (stoi stoi_toStringNat mem_toStringNat toStringNat_ne_nil comma)
open Demeter.Scheduler (Bytes toStringNat)
open GetLine

/-! ### Adding a trigger -/

/-- The request to add a trigger. -/
structure TriggerOperationRequest (Wire : Type) where
  bucketName : String
  triggerName : String
  triggerOption : UInt32
  primitiveType : PrimitiveType
  primitive : Wire

/-- A trigger in an update for the local schedulers. -/
structure TriggerEntity (Wire : Type) where
  bucketName : String
  triggerName : String
  triggerOption : UInt32
  primitiveType : PrimitiveType
  primitive : Wire

section Wire

variable {Wire : Type} (pb : Protobuf Wire)

/-- The trigger that `ADD_TRIGGER` builds, and what is sent to the local schedulers: the triggers
by time stay at the coordinator. -/
def addTrigger (request : TriggerOperationRequest Wire) :
    Trigger × Option (TriggerEntity Wire) :=
  let trigger := (genTriggerPointer pb request.primitiveType request.triggerName
    request.primitive).setTriggerOption request.triggerOption.toInt32
  (trigger,
    if trigger.getType ≠ .byTime then
      some
        { bucketName := request.bucketName
          triggerName := request.triggerName
          triggerOption := request.triggerOption
          primitiveType := request.primitiveType
          primitive := trigger.dumpPritimive pb }
    else none)

/-- The trigger that a local scheduler builds from an update; one without a name is passed over. -/
def updateTrigger (entity : TriggerEntity Wire) : Option Trigger :=
  if entity.triggerName = "" then none
  else
    some ((genTriggerPointer pb entity.primitiveType entity.triggerName
      entity.primitive).setTriggerOption entity.triggerOption.toInt32)

/-- **A local scheduler builds the trigger of the coordinator.** -/
theorem updateTrigger_addTrigger {request : TriggerOperationRequest Wire}
    {entity : TriggerEntity Wire} (h : (addTrigger pb request).2 = some entity)
    (hname : request.triggerName ≠ "") :
    updateTrigger pb entity = some (addTrigger pb request).1 := by
  have hdump := genTriggerPointer_dumpPritimive pb (addTrigger pb request).1 request.triggerName
  have htype : (addTrigger pb request).1.getType = request.primitiveType :=
    getType_genTriggerPointer pb request.primitiveType request.triggerName request.primitive
  simp only [addTrigger] at h
  split_ifs at h
  obtain rfl := Option.some.inj h
  rw [htype] at hdump
  rw [updateTrigger, if_neg hname]
  simp only [addTrigger, Trigger.setTriggerOption] at hdump ⊢
  rw [hdump, triggerName_genTriggerPointer]

end Wire

/-! ### Dependencies of an application -/

/-- The kinds of dependencies. -/
inductive DependencyType
  | direct
  | manyToOne
  | kOutOfN
  | periodic
  deriving DecidableEq

/-- A dependency of functions of an application. -/
structure DataDependency where
  srcFunctions : List String
  tgtFunctions : List String
  type : DependencyType
  description : Bytes := []

/-- The trigger of a dependency.  There is none for a direct one, nor where the description is not
what the handler expects and it stops with an exception. -/
def dependencyTrigger (dependency : DataDependency) : Option Trigger := do
  let tgtFunction ← dependency.tgtFunctions.head?
  match dependency.type with
  | .direct => none
  | .manyToOne =>
      return {
        targetFunction := tgtFunction
        triggerName := "t_1_" ++ tgtFunction
        params := .bySet (dependency.srcFunctions.map ("k_" ++ ·)).toFinset }
  | .kOutOfN =>
      let metadata := split comma dependency.description
      let k ← metadata[0]?.bind stoi
      let n ← metadata[1]?.bind stoi
      return {
        targetFunction := tgtFunction
        triggerName := "t_2_" ++ tgtFunction
        params := .redundant (UInt32.ofInt k) (UInt32.ofInt n) }
  | .periodic =>
      let timeWindow ← stoi dependency.description
      return {
        targetFunction := tgtFunction
        triggerName := "t_3_" ++ tgtFunction
        params := .byTime (UInt32.ofInt timeWindow) }

theorem split_numbers (k n : ℕ) :
    split comma (toStringNat k ++ comma :: toStringNat n) = [toStringNat k, toStringNat n] := by
  have hcomma : ∀ m, comma ∉ toStringNat m := fun m hm =>
    absurd (mem_toStringNat hm).1 (by decide)
  rw [split_append_cons (hcomma k), split_of_notMem (hcomma n) (toStringNat_ne_nil n)]

/-- The numbers of a `K_OUT_OF_N` dependency have to fit an `int`. -/
theorem dependencyTrigger_kOutOfN (srcs tgts : List String) (tgt : String) (k n : ℕ) :
    dependencyTrigger
        ⟨srcs, tgt :: tgts, .kOutOfN, toStringNat k ++ comma :: toStringNat n⟩ =
      if k < 2 ^ 31 ∧ n < 2 ^ 31 then
        some
          { targetFunction := tgt
            triggerName := "t_2_" ++ tgt
            params := .redundant (UInt32.ofNat k) (UInt32.ofNat n) }
      else none := by
  have hofInt : ∀ m : ℕ, m < 2 ^ 31 → UInt32.ofInt m = UInt32.ofNat m := fun m hm => by
    rw [UInt32.ofInt, Int.emod_eq_of_lt (by omega) (by omega), Int.toNat_natCast]
  simp only [dependencyTrigger, split_numbers, List.head?_cons, Option.bind_eq_bind,
    Option.bind_some, List.getElem?_cons_zero, List.getElem?_cons_succ, stoi_toStringNat]
  by_cases hk : k < 2 ^ 31
  · by_cases hn : n < 2 ^ 31
    · rw [if_pos hk, if_pos hn, if_pos ⟨hk, hn⟩, Option.bind_some, Option.bind_some, hofInt k hk,
        hofInt n hn]
      rfl
    · have hboth : ¬(k < 2 ^ 31 ∧ n < 2 ^ 31) := fun h => hn h.2
      rw [if_pos hk, if_neg hn, if_neg hboth, Option.bind_some, Option.bind_none]
  · have hboth : ¬(k < 2 ^ 31 ∧ n < 2 ^ 31) := fun h => hk h.1
    rw [if_neg hk, if_neg hboth, Option.bind_none]

end Demeter.Coordinator
