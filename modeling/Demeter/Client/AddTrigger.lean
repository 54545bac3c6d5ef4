import Demeter.Coordinator.Triggers

/-!
# Trigger primitives from the client to the workers

`add_trigger` and the dependencies of `register_app` in `client/pheromone/client.py`, followed to
the triggers that the coordinator and the local schedulers build from them.

* `encodePrimitive` fills in the protobuf message of a primitive; `none` stands for a missing
  entry of the dictionary and for a value that protobuf does not take;
* `HasParameters` says that a trigger has the parameters of a dictionary;
* `roundTrips_iff` says for which dictionaries the parameters arrive.  `add_trigger` stores `k` of
  a redundant primitive as `n` and `n` as `k`, and the batch size of a trigger is an `int`.
-/

namespace Demeter.Client

open Demeter.Common
open Demeter.Coordinator (DependencyType DataDependency dependencyTrigger
  dependencyTrigger_kOutOfN)
open Demeter.Executor (comma utf8_toString)
open Demeter.Scheduler (Bytes utf8 ascii toStringNat utf8_append utf8_eq_ascii)

/-! ### Python values -/

/-- A Python object: a string, an integer, or another object with what `str` makes of it and, if
it can be iterated over, the items that come. -/
inductive PyObject
  | str (s : String)
  | int (i : ℤ)
  | obj (text : String) (items : Option (List PyObject))

namespace PyObject

/-- The builtin `str`. -/
def toStr : PyObject → String
  | .str s => s
  | .int i => toString i
  | .obj text _ => text

/-- The items of a `for` loop; a string gives its characters. -/
def iter : PyObject → Option (List PyObject)
  | .str s => some (s.toList.map fun c => .str c.toString)
  | .int _ => none
  | .obj _ items => items

/-- What a protobuf field of strings accepts. -/
def asStr : PyObject → Option String
  | .str s => some s
  | _ => none

/-- A number that fits a protobuf field of type `uint32`. -/
def asUInt32 : PyObject → Option UInt32
  | .int i => if 0 ≤ i ∧ i < 2 ^ 32 then some (UInt32.ofNat i.toNat) else none
  | _ => none

end PyObject

/-- A dictionary with strings as keys. -/
abbrev PyDict := Dict String PyObject

/-! ### `add_trigger` -/

/-- The message that `add_trigger` fills in. -/
def encodePrimitive (type : PrimitiveType) (primitive : PyDict) : Option (Message type) :=
  match type with
  | .immediate => do
      let function ← (← primitive.get? "function").asStr
      return { function }
  | .byName => do
      let function ← (← primitive.get? "function").asStr
      let keyName ← (← primitive.get? "key_name").asStr
      return { function, keyName }
  | .byBatchSize => do
      let function ← (← primitive.get? "function").asStr
      let count ← (← primitive.get? "count").asUInt32
      return { function, count }
  | .bySet => do
      let function ← (← primitive.get? "function").asStr
      let keySet ← (← primitive.get? "key_set").iter
      return { function, keySet := keySet.map PyObject.toStr }
  | .dynamicGroup => do
      let function ← (← primitive.get? "function").asStr
      let controlGroup ← (← primitive.get? "control_group").iter
      return { function, controlGroup := ← controlGroup.mapM PyObject.asStr }
  | .redundant => do
      let function ← (← primitive.get? "function").asStr
      let n ← (← primitive.get? "k").asUInt32
      let k ← (← primitive.get? "n").asUInt32
      return { function, k, n }
  | .byTime => do
      let function ← (← primitive.get? "function").asStr
      let timeWindow ← (← primitive.get? "time_window").asUInt32
      return { function, timeWindow }

/-- The serialized primitive of the request. -/
def addTrigger {Wire : Type} (pb : Protobuf Wire) (type : PrimitiveType) (primitive : PyDict) :
    Option Wire :=
  (encodePrimitive type primitive).map (pb.serialize type)

/-! ### `register_app` -/

/-- The fourth component of a dependency. -/
inductive Description
  | dict (d : PyDict)
  | int (i : ℤ)
  | other

/-- One dependency of the message; `none` if the description is refused. -/
def registerDependency (srcs tgts : List String) (type : DependencyType)
    (description : Option Description) : Option DataDependency :=
  match type, description with
  | .kOutOfN, some (.dict d) => do
      let k ← d.get? "k"
      let n ← d.get? "n"
      return ⟨srcs, tgts, .kOutOfN, utf8 (k.toStr ++ "," ++ n.toStr)⟩
  | .kOutOfN, some _ => none
  | .periodic, some (.int i) => some ⟨srcs, tgts, .periodic, utf8 (toString i)⟩
  | .periodic, some _ => none
  | type, _ => some ⟨srcs, tgts, type, []⟩

/-! ### What the client asked for -/

/-- The trigger has the parameters of the dictionary. -/
structure HasParameters (type : PrimitiveType) (primitive : PyDict) (t : Trigger) : Prop where
  function : primitive.get? "function" = some (.str t.targetFunction)
  params :
    match type with
    | .immediate => t.params = .immediate
    | .byName => ∃ s, primitive.get? "key_name" = some (.str s) ∧ t.params = .byName s
    | .byBatchSize =>
        ∃ c : Int32, primitive.get? "count" = some (.int c.toInt) ∧ t.params = .byBatchSize c
    | .bySet =>
        ∃ v items ks, primitive.get? "key_set" = some v ∧ v.iter = some items ∧
          t.params = .bySet ks ∧ ∀ k, k ∈ ks ↔ ∃ item ∈ items, item.toStr = k
    | .dynamicGroup =>
        ∃ v items ks, primitive.get? "control_group" = some v ∧ v.iter = some items ∧
          t.params = .dynamicGroup ks ∧ ∀ k, k ∈ ks ↔ .str k ∈ items
    | .redundant =>
        ∃ k n : UInt32, primitive.get? "k" = some (.int k.toNat) ∧
          primitive.get? "n" = some (.int n.toNat) ∧ t.params = .redundant k n
    | .byTime =>
        ∃ w : UInt32, primitive.get? "time_window" = some (.int w.toNat) ∧ t.params = .byTime w

/-! ### The numbers and strings of a dictionary -/

theorem PyObject.asStr_eq_some {o : PyObject} {s : String} : o.asStr = some s ↔ o = .str s := by
  cases o <;> simp [asStr]

theorem PyObject.asUInt32_eq_some {o : PyObject} {c : UInt32} :
    o.asUInt32 = some c ↔ o = .int c.toNat := by
  cases o with
  | str s => simp [asUInt32]
  | obj text items => simp [asUInt32]
  | int i =>
    rw [asUInt32, PyObject.int.injEq]
    split_ifs with hi
    · rw [Option.some.injEq]
      constructor
      · rintro rfl
        rw [UInt32.toNat_ofNat', Nat.mod_eq_of_lt (by omega)]
        omega
      · rintro rfl
        simp
    · have hc := c.toNat_lt
      simp only [false_iff]
      omega

theorem PyObject.mapM_asStr_eq_some {items : List PyObject} {ks : List String} :
    items.mapM asStr = some ks ↔ items = ks.map .str := by
  induction items generalizing ks with
  | nil => cases ks <;> simp
  | cons o items ih =>
    rw [List.mapM_cons]
    cases ks with
    | nil => simp [Option.bind_eq_some_iff]
    | cons k ks => simp [Option.bind_eq_some_iff, asStr_eq_some, ih]

/-- The dictionaries that `add_trigger` takes, and the messages it makes of them. -/
theorem encodePrimitive_eq_some {type : PrimitiveType} {primitive : PyDict} {m : Message type} :
    encodePrimitive type primitive = some m ↔
      match type, m with
      | .immediate, m => primitive.get? "function" = some (.str m.function)
      | .byName, m =>
          primitive.get? "function" = some (.str m.function) ∧
            primitive.get? "key_name" = some (.str m.keyName)
      | .byBatchSize, m =>
          primitive.get? "function" = some (.str m.function) ∧
            primitive.get? "count" = some (.int m.count.toNat)
      | .bySet, m =>
          primitive.get? "function" = some (.str m.function) ∧
            ∃ v items, primitive.get? "key_set" = some v ∧ v.iter = some items ∧
              items.map PyObject.toStr = m.keySet
      | .dynamicGroup, m =>
          primitive.get? "function" = some (.str m.function) ∧
            ∃ v, primitive.get? "control_group" = some v ∧
              v.iter = some (m.controlGroup.map .str)
      | .redundant, m =>
          primitive.get? "function" = some (.str m.function) ∧
            primitive.get? "k" = some (.int m.n.toNat) ∧
            primitive.get? "n" = some (.int m.k.toNat)
      | .byTime, m =>
          primitive.get? "function" = some (.str m.function) ∧
            primitive.get? "time_window" = some (.int m.timeWindow.toNat) := by
  cases type <;> obtain ⟨⟩ := m <;>
    simp [encodePrimitive, Option.bind_eq_some_iff, PyObject.asStr_eq_some,
      PyObject.asUInt32_eq_some, PyObject.mapM_asStr_eq_some]

/-! ### The triggers -/

theorem toInt_toInt32 {c : UInt32} (h : c.toNat < 2 ^ 31) : c.toInt32.toInt = c.toNat := by
  have hlt : 2 * c.toBitVec.toNat < 2 ^ 32 := by
    rw [UInt32.toNat_toBitVec]
    omega
  exact BitVec.toInt_eq_toNat_of_lt hlt

/-- A batch size fits an `int`, and `k` and `n` of a redundant primitive are the same. -/
def Kept (type : PrimitiveType) (primitive : PyDict) : Prop :=
  match type with
  | .byBatchSize => ∀ count, primitive.get? "count" = some (.int count) → count < 2 ^ 31
  | .redundant => primitive.get? "k" = primitive.get? "n"
  | _ => True

section Triggers

variable {Wire : Type} (pb : Protobuf Wire)

theorem function_genTriggerPointer {type : PrimitiveType} {primitive : PyDict} {m : Message type}
    (h : encodePrimitive type primitive = some m) (name : String) :
    primitive.get? "function" =
      some (.str (genTriggerPointer pb type name (pb.serialize type m)).targetFunction) := by
  rw [encodePrimitive_eq_some] at h
  cases type with
  | immediate => simpa [genTriggerPointer] using h
  | _ => simpa [genTriggerPointer] using h.1

/-- The coordinator builds a trigger with the parameters of the dictionary if they are kept. -/
theorem hasParameters_genTriggerPointer {type : PrimitiveType} {primitive : PyDict}
    {m : Message type} (h : encodePrimitive type primitive = some m) (name : String) :
    HasParameters type primitive (genTriggerPointer pb type name (pb.serialize type m)) ↔
      Kept type primitive := by
  have hfunction := function_genTriggerPointer pb h name
  rw [encodePrimitive_eq_some] at h
  cases type with
  | immediate => exact iff_of_true ⟨hfunction, rfl⟩ trivial
  | byName => exact iff_of_true ⟨hfunction, m.keyName, h.2, by simp [genTriggerPointer]⟩ trivial
  | byBatchSize =>
    -- the count is sent unsigned and read as an `int32`
    constructor
    · rintro ⟨-, c, hc, -⟩ count hcount
      have hval : count = c.toInt := by simpa [hcount] using hc
      exact hval ▸ c.toInt_lt
    · intro hkept
      have hlt := hkept m.count.toNat h.2
      refine ⟨hfunction, m.count.toInt32, ?_, by simp [genTriggerPointer]⟩
      rw [h.2, toInt_toInt32 (by omega)]
  | bySet =>
    obtain ⟨-, v, items, hv, hitems, hkeys⟩ := h
    refine iff_of_true ⟨hfunction, v, items, m.keySet.toFinset, hv, hitems,
      by simp [genTriggerPointer], fun k => ?_⟩ trivial
    rw [List.mem_toFinset, ← hkeys, List.mem_map]
  | dynamicGroup =>
    obtain ⟨-, v, hv, hitems⟩ := h
    refine iff_of_true ⟨hfunction, v, m.controlGroup.map .str, m.controlGroup.toFinset, hv, hitems,
      by simp [genTriggerPointer], fun k => ?_⟩ trivial
    simp
  | redundant =>
    obtain ⟨-, hk, hn⟩ := h
    constructor
    · -- the trigger has `m.k`, which the client gave as `n`
      rintro ⟨-, k, n, hk', -, hparams⟩
      have hm : m.k = k ∧ m.n = n := by simpa [genTriggerPointer] using hparams
      show primitive.get? "k" = primitive.get? "n"
      rw [hk', hn, hm.1]
    · intro heq
      refine ⟨hfunction, m.k, m.n, ?_, ?_, by simp [genTriggerPointer]⟩
      · rw [heq, hn]
      · rw [← heq, hk]
  | byTime => exact iff_of_true ⟨hfunction, m.timeWindow, h.2, by simp [genTriggerPointer]⟩ trivial

/-- The trigger that is built from the dump has the same parameters. -/
theorem hasParameters_dumpPritimive {type : PrimitiveType} {primitive : PyDict} (name : String)
    (w : Wire) :
    HasParameters type primitive (genTriggerPointer pb type name
        ((genTriggerPointer pb type name w).dumpPritimive pb)) ↔
      HasParameters type primitive (genTriggerPointer pb type name w) := by
  have hdump := genTriggerPointer_dumpPritimive pb (genTriggerPointer pb type name w) name
  rw [getType_genTriggerPointer] at hdump
  rw [hdump]
  exact ⟨fun h => ⟨h.function, h.params⟩, fun h => ⟨h.function, h.params⟩⟩

end Triggers

/-! ### The trigger of a dependency -/

/-- The trigger that `register_app` leads to; it has `k` and `n` in their places. -/
theorem dependencyTrigger_registerDependency (srcs tgts : List String) (tgt : String)
    {d : PyDict} {k n : ℕ} (hk : d.get? "k" = some (.int k)) (hn : d.get? "n" = some (.int n)) :
    (registerDependency srcs (tgt :: tgts) .kOutOfN (some (.dict d))).bind dependencyTrigger =
      if k < 2 ^ 31 ∧ n < 2 ^ 31 then
        some
          { targetFunction := tgt
            triggerName := "t_2_" ++ tgt
            params := .redundant (UInt32.ofNat k) (UInt32.ofNat n) }
      else none := by
  have htext : utf8 ((PyObject.int k).toStr ++ "," ++ (PyObject.int n).toStr) =
      toStringNat k ++ comma :: toStringNat n := by
    have hcomma : ∀ c ∈ ",".toList, c.toNat < 128 := by
      intro c hc
      obtain rfl := List.mem_singleton.1 hc
      decide
    show utf8 (toString k ++ "," ++ toString n) = _
    rw [utf8_append, utf8_append, utf8_toString, utf8_toString, utf8_eq_ascii hcomma]
    simp [ascii, comma]
  rw [← dependencyTrigger_kOutOfN srcs tgts, ← htext]
  simp [registerDependency, hk, hn]

/-! ### Round trips -/

section RoundTrips

variable {Wire : Type} (pb : Protobuf Wire)

/-- The parameters of a primitive arrive at the coordinator and at the local schedulers, and a
redundant trigger has the parameters of one that `register_app` leads to. -/
structure RoundTrips (type : PrimitiveType) (primitive : PyDict) (name : String) (w : Wire) :
    Prop where
  coordinator : HasParameters type primitive (genTriggerPointer pb type name w)
  worker : HasParameters type primitive
    (genTriggerPointer pb type name ((genTriggerPointer pb type name w).dumpPritimive pb))
  registered : type = .redundant → ∀ srcs tgts tgt d,
    d.get? "k" = primitive.get? "k" → d.get? "n" = primitive.get? "n" →
    ∃ t, (registerDependency srcs (tgt :: tgts) .kOutOfN (some (.dict d))).bind
        dependencyTrigger = some t ∧
      t.params = (genTriggerPointer pb type name w).params

/-- **When the parameters of a primitive arrive.** -/
theorem roundTrips_iff {type : PrimitiveType} {primitive : PyDict} {w : Wire}
    (h : addTrigger pb type primitive = some w) (name : String) :
    RoundTrips pb type primitive name w ↔
      Kept type primitive ∧
        (type = .redundant → ∀ k, primitive.get? "k" = some (.int k) → k < 2 ^ 31) := by
  obtain ⟨m, hm, rfl⟩ := Option.map_eq_some_iff.1 h
  have hcoord := hasParameters_genTriggerPointer pb hm name
  constructor
  · intro hround
    refine ⟨hcoord.1 hround.coordinator, ?_⟩
    rintro rfl k hk
    obtain ⟨-, hmk, hmn⟩ := encodePrimitive_eq_some.1 hm
    obtain ⟨t, ht, -⟩ := hround.registered rfl [] [] "" primitive rfl rfl
    rw [dependencyTrigger_registerDependency [] [] "" hmk hmn] at ht
    split_ifs at ht with hlt
    rw [hmk, Option.some.injEq, PyObject.int.injEq] at hk
    omega
  · rintro ⟨hkept, hbound⟩
    refine ⟨hcoord.2 hkept, (hasParameters_dumpPritimive pb name _).2 (hcoord.2 hkept), ?_⟩
    rintro rfl srcs tgts tgt d hdk hdn
    obtain ⟨-, hmk, hmn⟩ := encodePrimitive_eq_some.1 hm
    have heq : m.n = m.k := by
      have hkn : primitive.get? "k" = primitive.get? "n" := hkept
      rw [hmk, hmn] at hkn
      exact UInt32.toNat_inj.1 (by simpa using hkn)
    have hlt := hbound rfl m.n.toNat hmk
    have hboth : m.n.toNat < 2 ^ 31 ∧ m.k.toNat < 2 ^ 31 := ⟨by omega, by rw [← heq]; omega⟩
    rw [dependencyTrigger_registerDependency srcs tgts tgt (hdk.trans hmk) (hdn.trans hmn),
      if_pos hboth]
    exact ⟨_, rfl, by simp [genTriggerPointer, heq]⟩

end RoundTrips

/-- Two of three. -/
def twoOfThree : PyDict := ⟨[("function", .str "reduce"), ("k", .int 2), ("n", .int 3)], by decide⟩

/-- Two of two. -/
def twoOfTwo : PyDict := ⟨[("function", .str "reduce"), ("k", .int 2), ("n", .int 2)], by decide⟩

theorem roundTrips_sample :
    addTrigger .plain .redundant twoOfTwo = some ⟨.redundant, "reduce", 2, 2⟩ ∧
      RoundTrips .plain .redundant twoOfTwo "t" ⟨.redundant, "reduce", 2, 2⟩ :=
  ⟨rfl, (roundTrips_iff .plain rfl "t").2 ⟨rfl, fun _ k hk => by
    obtain rfl := PyObject.int.inj (Option.some.inj hk)
    decide⟩⟩

/-- A trigger for two of three fires at the third object. -/
theorem not_roundTrips_sample :
    addTrigger .plain .redundant twoOfThree = some ⟨.redundant, "reduce", 3, 2⟩ ∧
      ¬RoundTrips .plain .redundant twoOfThree "t" ⟨.redundant, "reduce", 3, 2⟩ := by
  refine ⟨rfl, fun h => ?_⟩
  obtain ⟨k, n, hk, -, hparams⟩ := h.coordinator.params
  have hclient : (2 : ℤ) = k.toNat := PyObject.int.inj (Option.some.inj hk)
  have htrigger : 3 = k := (TriggerParams.redundant.inj hparams).1
  rw [← htrigger] at hclient
  exact absurd hclient (by decide)

end Demeter.Client
