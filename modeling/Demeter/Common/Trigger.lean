import Mathlib.Data.Finset.Sort
import Mathlib.Data.String.Basic
import Mathlib.Tactic

/-!
# Triggers and their primitives

The triggers of `common/include/trigger.hpp`, as `gen_trigger_pointer` builds them from a
serialized primitive of `common/proto/operation.proto`, and `dump_pritimive`, which serializes
the primitive of a trigger again.

* `Message` is the protobuf message of each type of primitive; `Protobuf` is a faithful
  serialization of these messages;
* `Trigger` is a trigger with the parameters of its class.  A `set` of the source is a `Finset`,
  with `setItems` for its elements in their order;
* `genTriggerPointer_dumpPritimive` says that a dump rebuilds the same parameters.
-/

namespace Demeter.Common

/-- The types of triggers. -/
inductive PrimitiveType
  | immediate
  | byName
  | byBatchSize
  | bySet
  | dynamicGroup
  | redundant
  | byTime
  deriving DecidableEq

/-! ### Messages -/

/-- Call for each object. -/
structure ImmediatePrimitive where
  function : String
  deriving DecidableEq, Inhabited

/-- Call for each object with the key. -/
structure ByNamePrimitive where
  function : String
  keyName : String
  deriving DecidableEq, Inhabited

/-- Call with `count` objects at a time. -/
structure ByBatchSizePrimitive where
  function : String
  count : UInt32
  deriving DecidableEq, Inhabited

/-- Call when all keys of a session are there. -/
structure BySetPrimitive where
  function : String
  keySet : List String
  deriving DecidableEq, Inhabited

/-- Call for each group when all controls are there. -/
structure DynamicGroupPrimitive where
  function : String
  controlGroup : List String
  deriving DecidableEq, Inhabited

/-- Call with the first `k` of `n` objects. -/
structure RedundantPrimitive where
  function : String
  k : UInt32
  n : UInt32
  deriving DecidableEq, Inhabited

/-- Call with the objects of a time window. -/
structure ByTimePrimitive where
  function : String
  timeWindow : UInt32
  deriving DecidableEq, Inhabited

/-- The message that describes a primitive of the given type. -/
abbrev Message : PrimitiveType → Type
  | .immediate => ImmediatePrimitive
  | .byName => ByNamePrimitive
  | .byBatchSize => ByBatchSizePrimitive
  | .bySet => BySetPrimitive
  | .dynamicGroup => DynamicGroupPrimitive
  | .redundant => RedundantPrimitive
  | .byTime => ByTimePrimitive

/-- Protobuf for the seven messages: parsing a serialized message as its own type gives it back. -/
structure Protobuf (Wire : Type) where
  serialize : (type : PrimitiveType) → Message type → Wire
  parse : (type : PrimitiveType) → Wire → Message type
  parse_serialize : ∀ type m, parse type (serialize type m) = m

attribute [simp] Protobuf.parse_serialize

instance : (type : PrimitiveType) → Inhabited (Message type)
  | .immediate => inferInstanceAs (Inhabited ImmediatePrimitive)
  | .byName => inferInstanceAs (Inhabited ByNamePrimitive)
  | .byBatchSize => inferInstanceAs (Inhabited ByBatchSizePrimitive)
  | .bySet => inferInstanceAs (Inhabited BySetPrimitive)
  | .dynamicGroup => inferInstanceAs (Inhabited DynamicGroupPrimitive)
  | .redundant => inferInstanceAs (Inhabited RedundantPrimitive)
  | .byTime => inferInstanceAs (Inhabited ByTimePrimitive)

/-- Strings that are the messages themselves; those of another type have no fields set. -/
def Protobuf.plain : Protobuf (Σ type, Message type) where
  serialize type m := ⟨type, m⟩
  parse type w := if h : w.1 = type then h ▸ w.2 else default
  parse_serialize type m := by simp

/-! ### Triggers -/

/-- The class of a trigger with the parameters of its constructor. -/
inductive TriggerParams
  | immediate
  | byName (keyName : String)
  | byBatchSize (count : Int32)
  | bySet (keySet : Finset String)
  | dynamicGroup (controlGroup : Finset String)
  | redundant (k n : UInt32)
  | byTime (timeWindow : UInt32)
  deriving DecidableEq

/-- A trigger without its state. -/
structure Trigger where
  targetFunction : String
  triggerName : String
  params : TriggerParams
  triggerOption : Int32 := 0
  deriving DecidableEq

namespace Trigger

/-- The type, by the subclass. -/
def getType (t : Trigger) : PrimitiveType :=
  match t.params with
  | .immediate => .immediate
  | .byName _ => .byName
  | .byBatchSize _ => .byBatchSize
  | .bySet _ => .bySet
  | .dynamicGroup _ => .dynamicGroup
  | .redundant _ _ => .redundant
  | .byTime _ => .byTime

/-- What the target function is to get of the objects: values, names or both. -/
def setTriggerOption (t : Trigger) (option : Int32) : Trigger := { t with triggerOption := option }

end Trigger

/-- The elements of a `set` of the source, in their order. -/
def setItems (s : Finset String) : List String :=
  Quotient.liftOn s.val (List.insertionSort (· ≤ ·)) fun l l' h =>
    List.Perm.eq_of_pairwise (fun _ _ _ _ => le_antisymm) (List.pairwise_insertionSort _ l)
      (List.pairwise_insertionSort _ l')
      ((List.perm_insertionSort _ l).trans (h.trans (List.perm_insertionSort _ l').symm))

theorem coe_setItems (s : Finset String) : (setItems s : Multiset String) = s.val := by
  obtain ⟨⟨l⟩, hl⟩ := s
  exact Multiset.coe_eq_coe.2 (List.perm_insertionSort _ l)

@[simp] theorem mem_setItems (s : Finset String) {x : String} : x ∈ setItems s ↔ x ∈ s := by
  rw [← Multiset.mem_coe, coe_setItems, Finset.mem_val]

theorem nodup_setItems (s : Finset String) : (setItems s).Nodup := by
  rw [← Multiset.coe_nodup, coe_setItems]
  exact s.nodup

@[simp] theorem toFinset_setItems (s : Finset String) : (setItems s).toFinset = s := by
  ext x
  simp

section Wire

variable {Wire : Type} (pb : Protobuf Wire)

/-- The primitive of a trigger, serialized; the name is that of the source. -/
def Trigger.dumpPritimive (t : Trigger) : Wire :=
  match t.params with
  | .immediate => pb.serialize .immediate ⟨t.targetFunction⟩
  | .byName keyName => pb.serialize .byName ⟨t.targetFunction, keyName⟩
  | .byBatchSize count => pb.serialize .byBatchSize ⟨t.targetFunction, count.toUInt32⟩
  | .bySet keySet => pb.serialize .bySet ⟨t.targetFunction, setItems keySet⟩
  | .dynamicGroup controlGroup =>
      pb.serialize .dynamicGroup ⟨t.targetFunction, setItems controlGroup⟩
  | .redundant k n => pb.serialize .redundant ⟨t.targetFunction, k, n⟩
  | .byTime timeWindow => pb.serialize .byTime ⟨t.targetFunction, timeWindow⟩

/-- The trigger that a serialized primitive of the given type describes. -/
def genTriggerPointer (type : PrimitiveType) (triggerName : String) (serialized : Wire) :
    Trigger :=
  match type with
  | .immediate =>
      let primitive := pb.parse .immediate serialized
      { targetFunction := primitive.function, triggerName, params := .immediate }
  | .byName =>
      let primitive := pb.parse .byName serialized
      { targetFunction := primitive.function, triggerName, params := .byName primitive.keyName }
  | .byBatchSize =>
      let primitive := pb.parse .byBatchSize serialized
      -- the constructor takes the `uint32` as an `int`
      { targetFunction := primitive.function, triggerName
        params := .byBatchSize primitive.count.toInt32 }
  | .bySet =>
      let primitive := pb.parse .bySet serialized
      { targetFunction := primitive.function, triggerName
        params := .bySet primitive.keySet.toFinset }
  | .dynamicGroup =>
      let primitive := pb.parse .dynamicGroup serialized
      { targetFunction := primitive.function, triggerName
        params := .dynamicGroup primitive.controlGroup.toFinset }
  | .redundant =>
      let primitive := pb.parse .redundant serialized
      { targetFunction := primitive.function, triggerName
        params := .redundant primitive.k primitive.n }
  | .byTime =>
      let primitive := pb.parse .byTime serialized
      { targetFunction := primitive.function, triggerName
        params := .byTime primitive.timeWindow }

@[simp] theorem getType_genTriggerPointer (type : PrimitiveType) (name : String) (w : Wire) :
    (genTriggerPointer pb type name w).getType = type := by
  cases type <;> rfl

@[simp] theorem triggerName_genTriggerPointer (type : PrimitiveType) (name : String) (w : Wire) :
    (genTriggerPointer pb type name w).triggerName = name := by
  cases type <;> rfl

/-- A dump rebuilds the trigger, under any name and with the default option. -/
theorem genTriggerPointer_dumpPritimive (t : Trigger) (name : String) :
    genTriggerPointer pb t.getType name (t.dumpPritimive pb) =
      { targetFunction := t.targetFunction, triggerName := name, params := t.params } := by
  obtain ⟨function, triggerName, params, option⟩ := t
  cases params <;> simp [Trigger.getType, Trigger.dumpPritimive, genTriggerPointer]

end Wire

end Demeter.Common
