import Demeter.Common.Trigger
import Demeter.Lib.Dict

/-!
# What triggers do with objects

`action_for_new_object` and `clear` of the classes of `common/include/trigger.hpp`, and the object
names of `common/include/common.hpp`.

* `BucketKey.ofSessionKey` reads the key and the session of an object from its name in the bucket;
* `TriggerState` has the members of a trigger that objects change, `TriggerObject` is a trigger with
  its state;
* `Trigger.actionForNewObject` and `Trigger.clear` are the two methods.  The part that is there for
  executing source functions again belongs to the local scheduler.

A `std::string` is a list of characters; `map` and `set` of the source are hash tables, whose order
nothing here depends on.
-/

namespace Demeter.Common

/-! ### Objects -/

/-- An object of a bucket. -/
structure BucketKey where
  key : String
  session : String
  deriving DecidableEq

/-- The name of an object in its bucket is the key followed by the session, which has 16
characters. -/
def BucketKey.ofSessionKey (sessionKey : String) : BucketKey :=
  let chars := sessionKey.toList
  if chars.length > 16 then
    { key := String.ofList (chars.take (chars.length - 16))
      session := String.ofList (chars.drop (chars.length - 16)) }
  else { key := "", session := "" }

/-- The pair that triggers keep of an object. -/
def BucketKey.sessionKey (bucketKey : BucketKey) : String × String :=
  (bucketKey.session, bucketKey.key)

theorem BucketKey.ofSessionKey_append {key session : String} (hkey : key ≠ "")
    (hsession : session.length = 16) : ofSessionKey (key ++ session) = ⟨key, session⟩ := by
  have hpos : 0 < key.toList.length := by
    rw [String.length_toList]
    exact Nat.pos_of_ne_zero fun h => hkey (String.length_eq_zero_iff.1 h)
  have hlength : session.toList.length = 16 := by rwa [String.length_toList]
  simp only [ofSessionKey, String.toList_append, List.length_append, hlength, Nat.add_sub_cancel,
    List.take_left, List.drop_left, String.ofList_toList]
  rw [if_pos (by omega)]

/-- Only a name with a key has a session. -/
theorem BucketKey.eq_append_of_ofSessionKey {sessionKey : String} {bucketKey : BucketKey}
    (h : ofSessionKey sessionKey = bucketKey) (hsession : bucketKey.session.length = 16) :
    bucketKey.key ≠ "" ∧ sessionKey = bucketKey.key ++ bucketKey.session := by
  rw [ofSessionKey] at h
  split_ifs at h with hlength
  · subst h
    constructor
    · intro hempty
      have := congrArg String.length hempty
      simp only [String.length_ofList, List.length_take, String.length_empty] at this
      omega
    · rw [← String.ofList_append, List.take_append_drop, String.ofList_toList]
  · subst h
    simp at hsession

/-! ### Trigger objects -/

/-- A call that a trigger asks for: the function and the session and key of each object. -/
structure TriggerAction where
  function : String
  sessionKeys : List (String × String)
  deriving DecidableEq

/-- The members of a trigger that objects change; every class uses some of them. -/
structure TriggerState where
  buffer : List (String × String) := []
  sessionPreparedKeysMap : Dict String (Finset String) := .empty
  dataGroupKeysMap : Dict String (Finset String) := .empty
  curControlKeys : Finset String := ∅
  count : UInt32 := 0
  lastTriggerStamp : ℕ := 0

/-- A trigger with its state. -/
structure TriggerObject where
  trigger : Trigger
  state : TriggerState := {}

namespace Trigger

/-- The end of the group in the name of an object. -/
def groupDelimiter : Char := ':'

/-- The group of the control objects. -/
def controlGroupPrefix : String := "ctrl"

/-- The group of a key: the part before the first delimiter. -/
def groupOf (key : String) : String :=
  String.ofList (key.toList.takeWhile (· ≠ groupDelimiter))

/-- An `int` where a `size_t` is expected. -/
def toSize (count : Int32) : ℕ := (count.toInt % 2 ^ 64).toNat

/-- `action_for_new_object`.  The clock is read by the triggers by time only, in nanoseconds. -/
def actionForNewObject (now : ℕ) (t : Trigger) (st : TriggerState) (bucketKey : BucketKey) :
    TriggerState × List TriggerAction :=
  match t.params with
  | .immediate => (st, [⟨t.targetFunction, [bucketKey.sessionKey]⟩])
  | .byName keyName =>
      (st, if bucketKey.key = keyName then [⟨t.targetFunction, [bucketKey.sessionKey]⟩] else [])
  | .byBatchSize count =>
      let buffer := st.buffer ++ [bucketKey.sessionKey]
      if toSize count ≤ buffer.length then
        ({ st with buffer := [] }, [⟨t.targetFunction, buffer⟩])
      else ({ st with buffer := buffer }, [])
  | .bySet keySet =>
      if bucketKey.key ∈ keySet then
        let prepared := insert bucketKey.key
          ((st.sessionPreparedKeysMap.get? bucketKey.session).getD ∅)
        if prepared.card = keySet.card then
          ({ st with
              sessionPreparedKeysMap := st.sessionPreparedKeysMap.erase bucketKey.session },
            [⟨t.targetFunction, (setItems keySet).map (bucketKey.session, ·)⟩])
        else
          ({ st with
              sessionPreparedKeysMap :=
                st.sessionPreparedKeysMap.set bucketKey.session prepared }, [])
      else (st, [])
  | .dynamicGroup controlGroup =>
      let group := groupOf bucketKey.key
      if group = controlGroupPrefix then
        let curControlKeys :=
          if bucketKey.key ∈ controlGroup then insert bucketKey.key st.curControlKeys
          else st.curControlKeys
        if curControlKeys.card = controlGroup.card then
          ({ st with dataGroupKeysMap := .empty, curControlKeys := ∅ },
            st.dataGroupKeysMap.values.map fun keys =>
              ⟨t.targetFunction, (setItems keys).map (bucketKey.session, ·)⟩)
        else ({ st with curControlKeys := curControlKeys }, [])
      else
        ({ st with
            dataGroupKeysMap := st.dataGroupKeysMap.set group
              (insert bucketKey.key ((st.dataGroupKeysMap.get? group).getD ∅)) }, [])
  | .redundant k n =>
      let count := st.count + 1
      if count ≤ k then
        let buffer := st.buffer ++ [bucketKey.sessionKey]
        if count = k then
          ({ st with buffer := [], count := count }, [⟨t.targetFunction, buffer⟩])
        else ({ st with buffer := buffer, count := count }, [])
      else if n ≤ count then ({ st with count := 0 }, [])
      else ({ st with count := count }, [])
  | .byTime timeWindow =>
      let buffer := st.buffer ++ [bucketKey.sessionKey]
      if (timeWindow.toNat : ℤ) ≤ ((now : ℤ) - st.lastTriggerStamp).tdiv 1000000 then
        ({ st with buffer := [], lastTriggerStamp := now }, [⟨t.targetFunction, buffer⟩])
      else ({ st with buffer := buffer }, [])

/-- `clear`: another level has called, and what was collected is forgotten. -/
def clear (t : Trigger) (st : TriggerState) (session : String) : TriggerState :=
  match t.params with
  | .immediate | .byName _ => st
  | .byBatchSize _ | .byTime _ => { st with buffer := [] }
  | .bySet _ => { st with sessionPreparedKeysMap := st.sessionPreparedKeysMap.erase session }
  | .dynamicGroup _ => { st with dataGroupKeysMap := .empty, curControlKeys := ∅ }
  | .redundant k _ => { st with buffer := [], count := st.count + k }

/-- The other triggers do not read the clock. -/
theorem actionForNewObject_now {t : Trigger} (h : t.getType ≠ .byTime) (now now' : ℕ)
    (st : TriggerState) (bucketKey : BucketKey) :
    t.actionForNewObject now st bucketKey = t.actionForNewObject now' st bucketKey := by
  obtain ⟨function, name, params, option⟩ := t
  cases params with
  | byTime timeWindow => exact absurd rfl h
  | _ => rfl

end Trigger

namespace TriggerObject

/-- The name of the trigger. -/
def name (t : TriggerObject) : String := t.trigger.triggerName

/-- `action_for_new_object` of an object of the bucket. -/
def newObject (now : ℕ) (bucketKey : BucketKey) (t : TriggerObject) :
    TriggerObject × List TriggerAction :=
  let r := t.trigger.actionForNewObject now t.state bucketKey
  ({ t with state := r.1 }, r.2)

/-- `clear` for a session. -/
def clear (session : String) (t : TriggerObject) : TriggerObject :=
  { t with state := t.trigger.clear t.state session }

@[simp] theorem name_newObject (now : ℕ) (bucketKey : BucketKey) (t : TriggerObject) :
    (t.newObject now bucketKey).1.name = t.name := rfl

@[simp] theorem name_clear (session : String) (t : TriggerObject) :
    (t.clear session).name = t.name := rfl

end TriggerObject

end Demeter.Common
