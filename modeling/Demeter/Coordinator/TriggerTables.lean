import Mathlib.Logic.Function.Basic
import Demeter.Coordinator.Triggers
import Demeter.Lib.Runs

/-!
# The trigger tables of the coordinator and of the local schedulers

`bucket_triggers_map` exists at the coordinator and at every local scheduler.  The handlers
`app_register_handler.cpp`, `bucket_op_handler.cpp` and `trigger_op_handler.cpp` change the table
of the coordinator, and the messages they send make `try_recv_msg` of `comm_helper.hpp` change the
tables of the local schedulers.

* `CoordTables.handle` is one request at the coordinator, with the message it sends;
* `receive` is one message at a local scheduler, and `step` an event of the whole cluster;
* `Tracks` says that delivering all messages leaves the table of the coordinator, without the
  triggers by time, at every local scheduler;
* `Kept` is the condition under which a request preserves this, and `tracks_run_iff` says that the
  tables agree throughout a run exactly when all of its requests meet the condition;
* `Deletes` compares one deletion at a local scheduler with that of the coordinator.
-/

namespace Demeter.Coordinator.TriggerTables

open Demeter.Common

/-- A `bucket_triggers_map`. -/
abbrev BucketTriggersMap := Dict String (List Trigger)

/-- The triggers of a bucket. -/
def BucketTriggersMap.at (m : BucketTriggersMap) (bucket : String) : List Trigger :=
  (m.get? bucket).getD []

namespace BucketTriggersMap

theorem at_set (m : BucketTriggersMap) (bucket bucket' : String) (ts : List Trigger) :
    BucketTriggersMap.at (m.set bucket ts) bucket' =
      if bucket' = bucket then ts else m.at bucket' := by
  simp only [BucketTriggersMap.at, Dict.get?_set]
  split_ifs <;> rfl

theorem at_push (m : BucketTriggersMap) (bucket bucket' : String) (t : Trigger) :
    BucketTriggersMap.at (m.push bucket t) bucket' =
      if bucket' = bucket then m.at bucket' ++ [t] else m.at bucket' := by
  simp only [BucketTriggersMap.at, Dict.get?_push]
  split_ifs with h
  · rw [h]
    rfl
  · rfl

theorem at_erase (m : BucketTriggersMap) (bucket bucket' : String) :
    BucketTriggersMap.at (m.erase bucket) bucket' =
      if bucket' = bucket then [] else m.at bucket' := by
  simp only [BucketTriggersMap.at, Dict.get?_erase]
  split_ifs <;> rfl

end BucketTriggersMap

section Wire

variable {Wire : Type} (pb : Protobuf Wire)

/-! ### The local schedulers -/

/-- The messages that change the tables: `msg_type` is 0 or 2. -/
inductive UpdateCoordMsg (Wire : Type) where
  | update (triggers : List (TriggerEntity Wire))
  | delete (bucketName triggerName : String)

/-- One trigger of an update; a type outside the enumeration is left out. -/
def receiveTrigger (m : BucketTriggersMap) (entity : TriggerEntity Wire) : BucketTriggersMap :=
  match updateTrigger pb entity with
  | some trigger => m.push entity.bucketName trigger
  | none => m

/-- The search for a trigger of the given name, and its removal.  A search that finds none leaves
the vector. -/
def eraseFirst (triggerName : String) : List Trigger → Option (List Trigger)
  | [] => none
  | t :: ts =>
      if t.triggerName = triggerName then some ts else (eraseFirst triggerName ts).map (t :: ·)

/-- One message at a local scheduler; `none` is a read past the end of a vector. -/
def receive (m : BucketTriggersMap) : UpdateCoordMsg Wire → Option BucketTriggersMap
  | .update triggers => some (triggers.foldl (receiveTrigger pb) m)
  | .delete bucketName triggerName =>
      (eraseFirst triggerName (m.at bucketName)).map (m.set bucketName)

/-! ### The coordinator -/

/-- What the coordinator knows of buckets and triggers. -/
structure CoordTables where
  bucketTriggersMap : BucketTriggersMap := .empty
  appBucketsMap : Dict String (Finset String) := .empty
  bucketAppMap : Dict String String := .empty

/-- What clients ask of the coordinator. -/
inductive Request (Wire : Type) where
  | appRegister (appName : String) (dependencies : List DataDependency)
  | createBucket (appName bucketName : String)
  | deleteBucket (appName bucketName : String)
  | addTrigger (request : TriggerOperationRequest Wire)
  | deleteTrigger (bucketName triggerName : String)

namespace CoordTables

/-- `CREATE_BUCKET`. -/
def addBucket (c : CoordTables) (appName bucketName : String) : CoordTables :=
  { c with
    appBucketsMap :=
      c.appBucketsMap.set appName (insert bucketName ((c.appBucketsMap.get? appName).getD ∅))
    bucketAppMap := c.bucketAppMap.set bucketName appName }

/-- What the local schedulers are told of the trigger of a dependency.  Of a trigger by time it is
the bucket only, and all other fields are empty. -/
def dependencyEntity (bucketName : String) (trigger : Trigger) : TriggerEntity Wire :=
  if trigger.getType = .byTime then
    { bucketName := bucketName
      triggerName := ""
      triggerOption := 0
      primitiveType := .immediate
      primitive := pb.serialize .immediate default }
  else
    { bucketName := bucketName
      triggerName := trigger.triggerName
      triggerOption := trigger.triggerOption.toUInt32
      primitiveType := trigger.getType
      primitive := trigger.dumpPritimive pb }

/-- One dependency of an application; the message of the handler grows with it.  The handler stops
with an exception where there is no trigger for the dependency. -/
def registerDependency (appName : String) (acc : CoordTables × List (TriggerEntity Wire))
    (dependency : DataDependency) : Option (CoordTables × List (TriggerEntity Wire)) :=
  if dependency.type = .direct then some acc
  else do
    let tgtFunction ← dependency.tgtFunctions.head?
    let trigger ← dependencyTrigger dependency
    let bucketName := "b_" ++ tgtFunction
    let c := acc.1.addBucket appName bucketName
    return ({ c with bucketTriggersMap := c.bucketTriggersMap.push bucketName trigger },
      acc.2 ++ [dependencyEntity pb bucketName trigger])

/-- One request, with the message that all local schedulers are sent. -/
def handle (c : CoordTables) : Request Wire → Option (CoordTables × Option (UpdateCoordMsg Wire))
  | .appRegister appName dependencies => do
      let acc ← dependencies.foldlM (registerDependency pb appName) (c, [])
      return (acc.1, some (.update acc.2))
  | .createBucket appName bucketName =>
      if bucketName ∈ c.bucketAppMap.keys then some (c, none)
      else some (c.addBucket appName bucketName, none)
  | .deleteBucket appName bucketName =>
      if bucketName ∈ c.bucketAppMap.keys then
        some
          ({ bucketTriggersMap := c.bucketTriggersMap.erase bucketName
             appBucketsMap := c.appBucketsMap.set appName
               (((c.appBucketsMap.get? appName).getD ∅).erase bucketName)
             bucketAppMap := c.bucketAppMap.erase bucketName }, none)
      else some (c, none)
  | .addTrigger request =>
      if request.bucketName ∈ c.bucketAppMap.keys then
        let added := Coordinator.addTrigger pb request
        some
          ({ c with
             bucketTriggersMap := c.bucketTriggersMap.push request.bucketName added.1 },
            some (.update added.2.toList))
      else some (c, some (.update []))
  | .deleteTrigger bucketName triggerName =>
      if bucketName ∈ c.bucketAppMap.keys then
        let triggers := c.bucketTriggersMap.at bucketName
        some
          ({ c with
             bucketTriggersMap := c.bucketTriggersMap.set bucketName
               (triggers.filter (·.triggerName ≠ triggerName)) },
            some (if ∃ t ∈ triggers, t.triggerName = triggerName then
                .delete bucketName triggerName
              else .update []))
      else some (c, some (.update []))

/-- The triggers of a bucket that the local schedulers are to have. -/
def shared (c : CoordTables) (bucket : String) : List Trigger :=
  (c.bucketTriggersMap.at bucket).filter (·.getType ≠ .byTime)

end CoordTables

/-! ### The cluster -/

/-- A coordinator and its local schedulers, each with the messages on their way to it.  A local
scheduler that has read past the end of a vector has no table. -/
structure Cluster (Wire ι : Type) where
  coordinator : CoordTables := {}
  table : ι → Option BucketTriggersMap := fun _ => some .empty
  inbox : ι → List (UpdateCoordMsg Wire) := fun _ => []

/-- A request is handled, or an update reaches a local scheduler. -/
inductive Event (Wire ι : Type) where
  | request (r : Request Wire)
  | deliver (worker : ι)

variable {ι : Type} [DecidableEq ι]

/-- One event; the update of a request goes to all local schedulers. -/
def step (s : Cluster Wire ι) : Event Wire ι → Option (Cluster Wire ι)
  | .request r =>
      (s.coordinator.handle pb r).map fun handled =>
        { s with
          coordinator := handled.1
          inbox := fun w => s.inbox w ++ handled.2.toList }
  | .deliver w =>
      match s.inbox w with
      | [] => none
      | msg :: rest =>
          some
            { s with
              table := Function.update s.table w ((s.table w).bind (receive pb · msg))
              inbox := Function.update s.inbox w rest }

/-- A table after some messages have been received. -/
def receiveAll (table : Option BucketTriggersMap) (msgs : List (UpdateCoordMsg Wire)) :
    Option BucketTriggersMap :=
  msgs.foldl (fun table msg => table.bind (receive pb · msg)) table

/-- The table of a local scheduler after all messages on their way have been delivered. -/
def delivered (s : Cluster Wire ι) (worker : ι) : Option BucketTriggersMap :=
  receiveAll pb (s.table worker) (s.inbox worker)

/-- The table of a local scheduler is that of the coordinator, without the triggers by time. -/
def Agrees (c : CoordTables) (table : Option BucketTriggersMap) : Prop :=
  ∃ m, table = some m ∧ ∀ bucket, m.at bucket = c.shared bucket

/-- Once all messages have been delivered, every local scheduler has the table of the
coordinator. -/
def Tracks (s : Cluster Wire ι) : Prop := ∀ worker, Agrees s.coordinator (delivered pb s worker)

/-- What a request has to meet for the tables to stay the same: a bucket is deleted only while it
has no shared trigger, a shared trigger has a name, and a name is deleted only where exactly one
shared trigger of the bucket has it. -/
def Kept (c : CoordTables) : Request Wire → Prop
  | .appRegister _ _ | .createBucket _ _ => True
  | .deleteBucket _ bucketName => bucketName ∈ c.bucketAppMap.keys → c.shared bucketName = []
  | .addTrigger request =>
      request.bucketName ∈ c.bucketAppMap.keys →
        request.primitiveType = .byTime ∨ request.triggerName ≠ ""
  | .deleteTrigger bucketName triggerName =>
      bucketName ∈ c.bucketAppMap.keys →
        (∃ t ∈ c.bucketTriggersMap.at bucketName, t.triggerName = triggerName) →
          (c.shared bucketName).countP (·.triggerName = triggerName) = 1

instance (c : CoordTables) : (r : Request Wire) → Decidable (Kept c r)
  | .appRegister _ _ | .createBucket _ _ => .isTrue trivial
  | .deleteBucket _ bucketName =>
      inferInstanceAs (Decidable (bucketName ∈ c.bucketAppMap.keys → c.shared bucketName = []))
  | .addTrigger request =>
      inferInstanceAs (Decidable (request.bucketName ∈ c.bucketAppMap.keys →
        request.primitiveType = .byTime ∨ request.triggerName ≠ ""))
  | .deleteTrigger bucketName triggerName =>
      inferInstanceAs (Decidable (bucketName ∈ c.bucketAppMap.keys →
        (∃ t ∈ c.bucketTriggersMap.at bucketName, t.triggerName = triggerName) →
          (c.shared bucketName).countP (·.triggerName = triggerName) = 1))

/-- The event keeps the tables in step. -/
def EventKept (s : Cluster Wire ι) : Event Wire ι → Prop
  | .request r => Kept s.coordinator r
  | .deliver _ => True

omit [DecidableEq ι] in
instance (s : Cluster Wire ι) : (e : Event Wire ι) → Decidable (EventKept s e)
  | .request r => inferInstanceAs (Decidable (Kept s.coordinator r))
  | .deliver _ => .isTrue trivial

/-! ### One message -/

omit [DecidableEq ι] in
/-- Removing the first trigger of a name removes all of them exactly when there is one. -/
theorem eraseFirst_eq_some_filter_iff (name : String) (ts : List Trigger) :
    eraseFirst name ts = some (ts.filter (·.triggerName ≠ name)) ↔
      ts.countP (·.triggerName = name) = 1 := by
  induction ts with
  | nil => simp [eraseFirst]
  | cons t ts ih =>
    by_cases h : t.triggerName = name
    · simp [eraseFirst, h, List.countP_eq_zero, eq_comm (a := ts)]
    · simp [eraseFirst, h, ← ih, Option.map_eq_some_iff]

omit [DecidableEq ι] in
theorem shared_push {c c' : CoordTables} {bucketName : String} {trigger : Trigger}
    (hc' : c'.bucketTriggersMap = c.bucketTriggersMap.push bucketName trigger) (bucket : String) :
    c'.shared bucket = c.shared bucket ++
      if bucket = bucketName ∧ trigger.getType ≠ .byTime then [trigger] else [] := by
  rw [CoordTables.shared, hc', BucketTriggersMap.at_push]
  by_cases hb : bucket = bucketName
  · by_cases ht : trigger.getType = .byTime <;>
      simp [hb, ht, CoordTables.shared, List.filter_append]
  · simp [hb, CoordTables.shared]

/-- A shared trigger that is received as it is at the coordinator keeps the tables equal. -/
theorem at_receiveTrigger {c c' : CoordTables} {m : BucketTriggersMap}
    (hm : ∀ bucket, m.at bucket = c.shared bucket) {trigger : Trigger}
    {entity : TriggerEntity Wire}
    (hc' : c'.bucketTriggersMap = c.bucketTriggersMap.push entity.bucketName trigger)
    (hentity : updateTrigger pb entity =
      if trigger.getType = .byTime then none else some trigger) (bucket : String) :
    (receiveTrigger pb m entity).at bucket = c'.shared bucket := by
  rw [shared_push hc', receiveTrigger, hentity]
  by_cases ht : trigger.getType = .byTime
  · simp [ht, hm]
  · by_cases hb : bucket = entity.bucketName
    · simp [ht, hb, BucketTriggersMap.at_push, hm]
    · simp [ht, hb, BucketTriggersMap.at_push, hm]

omit [DecidableEq ι] in
/-- The triggers of dependencies have names. -/
theorem triggerName_ne_empty {dependency : DataDependency} {trigger : Trigger}
    (h : dependencyTrigger dependency = some trigger) : trigger.triggerName ≠ "" := by
  have hne : ∀ t u : String, t ≠ "" → t ++ u ≠ "" := fun t u ht htu =>
    ht (String.append_eq_empty_iff.1 htu).1
  obtain ⟨tgtFunction, -, h⟩ := Option.bind_eq_some_iff.1 h
  cases htype : dependency.type with
  | direct => simp [htype] at h
  | manyToOne =>
    simp only [htype, Option.pure_def, Option.some.injEq] at h
    exact h ▸ hne _ _ (by decide)
  | kOutOfN =>
    simp only [htype] at h
    obtain ⟨k, -, h⟩ := Option.bind_eq_some_iff.1 h
    obtain ⟨n, -, h⟩ := Option.bind_eq_some_iff.1 h
    exact Option.some.inj h ▸ hne _ _ (by decide)
  | periodic =>
    simp only [htype] at h
    obtain ⟨timeWindow, -, h⟩ := Option.bind_eq_some_iff.1 h
    exact Option.some.inj h ▸ hne _ _ (by decide)

theorem updateTrigger_dependencyEntity (bucketName : String) {trigger : Trigger}
    (hname : trigger.triggerName ≠ "") :
    updateTrigger pb (CoordTables.dependencyEntity pb bucketName trigger) =
      if trigger.getType = .byTime then none else some trigger := by
  rw [CoordTables.dependencyEntity]
  split_ifs with ht
  · rfl
  · have hdump := genTriggerPointer_dumpPritimive pb trigger trigger.triggerName
    simp only [updateTrigger, if_neg hname, hdump, Trigger.setTriggerOption]
    rfl

/-! ### One request -/

theorem at_registerDependency {appName : String} {m : BucketTriggersMap}
    {acc acc' : CoordTables × List (TriggerEntity Wire)} {dependency : DataDependency}
    (h : CoordTables.registerDependency pb appName acc dependency = some acc')
    (hm : ∀ bucket, BucketTriggersMap.at (acc.2.foldl (receiveTrigger pb) m) bucket =
      acc.1.shared bucket) (bucket : String) :
    BucketTriggersMap.at (acc'.2.foldl (receiveTrigger pb) m) bucket = acc'.1.shared bucket := by
  rw [CoordTables.registerDependency] at h
  split_ifs at h with htype
  · exact Option.some.inj h ▸ hm bucket
  · obtain ⟨tgtFunction, -, h⟩ := Option.bind_eq_some_iff.1 h
    obtain ⟨trigger, htrigger, h⟩ := Option.bind_eq_some_iff.1 h
    obtain rfl := Option.some.inj h
    rw [List.foldl_append]
    refine at_receiveTrigger pb hm ?_
      (updateTrigger_dependencyEntity pb _ (triggerName_ne_empty htrigger)) bucket
    simp only [CoordTables.dependencyEntity, CoordTables.addBucket]
    split_ifs <;> rfl

theorem at_appRegister {appName : String} {m : BucketTriggersMap}
    {dependencies : List DataDependency} {acc acc' : CoordTables × List (TriggerEntity Wire)}
    (h : dependencies.foldlM (CoordTables.registerDependency pb appName) acc = some acc')
    (hm : ∀ bucket, BucketTriggersMap.at (acc.2.foldl (receiveTrigger pb) m) bucket =
      acc.1.shared bucket) (bucket : String) :
    BucketTriggersMap.at (acc'.2.foldl (receiveTrigger pb) m) bucket = acc'.1.shared bucket := by
  induction dependencies generalizing acc with
  | nil => exact Option.some.inj h ▸ hm bucket
  | cons dependency dependencies ih =>
    rw [List.foldlM_cons] at h
    obtain ⟨mid, hmid, h⟩ := Option.bind_eq_some_iff.1 h
    exact ih h (at_registerDependency pb hmid hm)

theorem shared_eq_nil_iff_agrees {c : CoordTables} {m : BucketTriggersMap}
    (hm : ∀ bucket, m.at bucket = c.shared bucket) (c' : CoordTables) (bucketName : String)
    (hc' : c'.bucketTriggersMap = c.bucketTriggersMap.erase bucketName) :
    Agrees c' (some m) ↔ c.shared bucketName = [] := by
  have hshared : ∀ bucket, c'.shared bucket =
      if bucket = bucketName then [] else c.shared bucket := by
    intro bucket
    rw [CoordTables.shared, hc', BucketTriggersMap.at_erase]
    split_ifs <;> rfl
  constructor
  · rintro ⟨m', hm', hagree⟩
    obtain rfl := Option.some.inj hm'
    rw [← hm, hagree, hshared, if_pos rfl]
  · intro hnil
    refine ⟨m, rfl, fun bucket => ?_⟩
    rw [hshared, hm]
    split_ifs with hb
    · rw [hb, hnil]
    · rfl

theorem agrees_addTrigger_iff {c : CoordTables} {m : BucketTriggersMap}
    (hm : ∀ bucket, m.at bucket = c.shared bucket) (request : TriggerOperationRequest Wire)
    (c' : CoordTables) (hc' : c'.bucketTriggersMap =
      c.bucketTriggersMap.push request.bucketName (Coordinator.addTrigger pb request).1) :
    Agrees c' (some ((Coordinator.addTrigger pb request).2.toList.foldl (receiveTrigger pb) m)) ↔
      request.primitiveType = .byTime ∨ request.triggerName ≠ "" := by
  have htype : (Coordinator.addTrigger pb request).1.getType = request.primitiveType :=
    getType_genTriggerPointer pb request.primitiveType request.triggerName request.primitive
  have hshared := shared_push hc'
  by_cases ht : request.primitiveType = .byTime
  · -- such a trigger stays at the coordinator
    have hsent : (Coordinator.addTrigger pb request).2 = none := by
      simpa [Coordinator.addTrigger, ht] using htype
    refine ⟨fun _ => Or.inl ht, fun _ => ⟨m, by rw [hsent]; rfl, fun bucket => ?_⟩⟩
    rw [hshared, hm, htype, if_neg fun h => h.2 ht, List.append_nil]
  · obtain ⟨entity, hsent, hbucket⟩ : ∃ entity : TriggerEntity Wire,
        (Coordinator.addTrigger pb request).2 = some entity ∧
          entity.bucketName = request.bucketName ∧ entity.triggerName = request.triggerName := by
      refine ⟨_, if_pos (htype.trans_ne ht), rfl, rfl⟩
    rw [hsent, Option.toList_some, List.foldl_cons, List.foldl_nil]
    by_cases hname : request.triggerName = ""
    · -- the scheduler drops a trigger without a name
      have hskip : receiveTrigger pb m entity = m := by
        rw [receiveTrigger, updateTrigger, if_pos (hbucket.2.trans hname)]
      rw [hskip]
      refine iff_of_false ?_ (by simp [ht, hname])
      rintro ⟨m', hm', hagree⟩
      obtain rfl := Option.some.inj hm'
      have h := hagree request.bucketName
      rw [hshared, hm, if_pos ⟨rfl, htype.trans_ne ht⟩] at h
      simp at h
    · refine iff_of_true ⟨_, rfl, at_receiveTrigger pb hm (hbucket.1 ▸ hc') ?_⟩ (Or.inr hname)
      rw [updateTrigger_addTrigger pb hsent hname, if_neg (htype.trans_ne ht)]

theorem agrees_deleteTrigger_iff {c : CoordTables} {m : BucketTriggersMap}
    (hm : ∀ bucket, m.at bucket = c.shared bucket) (bucketName triggerName : String)
    (c' : CoordTables) (hc' : c'.bucketTriggersMap = c.bucketTriggersMap.set bucketName
      ((c.bucketTriggersMap.at bucketName).filter (·.triggerName ≠ triggerName))) :
    Agrees c' (receive pb m (.delete bucketName triggerName)) ↔
      (c.shared bucketName).countP (·.triggerName = triggerName) = 1 := by
  have hshared : ∀ bucket, c'.shared bucket =
      if bucket = bucketName then (c.shared bucketName).filter (·.triggerName ≠ triggerName)
      else c.shared bucket := by
    intro bucket
    rw [CoordTables.shared, hc', BucketTriggersMap.at_set]
    split_ifs
    · rw [CoordTables.shared, List.filter_comm]
    · rfl
  rw [← eraseFirst_eq_some_filter_iff, receive, hm]
  constructor
  · rintro ⟨m', hm', hagree⟩
    obtain ⟨ts, hts, rfl⟩ := Option.map_eq_some_iff.1 hm'
    have h := hagree bucketName
    rw [BucketTriggersMap.at_set, if_pos rfl, hshared, if_pos rfl] at h
    rw [hts, h]
  · intro hts
    refine ⟨_, by rw [hts]; rfl, fun bucket => ?_⟩
    rw [BucketTriggersMap.at_set, hshared]
    split_ifs
    · rfl
    · exact hm bucket

/-- A request keeps the tables equal exactly when it meets the condition. -/
theorem agrees_handle_iff {c c' : CoordTables} {m : BucketTriggersMap}
    (hm : ∀ bucket, m.at bucket = c.shared bucket) {r : Request Wire}
    {msg : Option (UpdateCoordMsg Wire)} (h : c.handle pb r = some (c', msg)) :
    Agrees c' (receiveAll pb (some m) msg.toList) ↔ Kept c r := by
  have hsame : Agrees c (some m) := ⟨m, rfl, hm⟩
  cases r with
  | appRegister appName dependencies =>
    obtain ⟨acc, hacc, h⟩ := Option.bind_eq_some_iff.1 h
    obtain ⟨rfl, rfl⟩ := Prod.mk.inj (Option.some.inj h)
    exact iff_of_true ⟨_, rfl, at_appRegister pb hacc hm⟩ trivial
  | createBucket appName bucketName =>
    rw [CoordTables.handle] at h
    split_ifs at h
    · obtain ⟨rfl, rfl⟩ := Prod.mk.inj (Option.some.inj h)
      exact iff_of_true hsame trivial
    · obtain ⟨rfl, rfl⟩ := Prod.mk.inj (Option.some.inj h)
      exact iff_of_true ⟨m, rfl, hm⟩ trivial
  | deleteBucket appName bucketName =>
    rw [CoordTables.handle] at h
    split_ifs at h with hb
    · obtain ⟨rfl, rfl⟩ := Prod.mk.inj (Option.some.inj h)
      exact (shared_eq_nil_iff_agrees hm _ bucketName rfl).trans ⟨fun hk _ => hk, fun hk => hk hb⟩
    · obtain ⟨rfl, rfl⟩ := Prod.mk.inj (Option.some.inj h)
      exact iff_of_true hsame fun hb' => absurd hb' hb
  | addTrigger request =>
    rw [CoordTables.handle] at h
    split_ifs at h with hb
    · obtain ⟨rfl, rfl⟩ := Prod.mk.inj (Option.some.inj h)
      exact (agrees_addTrigger_iff pb hm request _ rfl).trans ⟨fun hk _ => hk, fun hk => hk hb⟩
    · obtain ⟨rfl, rfl⟩ := Prod.mk.inj (Option.some.inj h)
      exact iff_of_true hsame fun hb' => absurd hb' hb
  | deleteTrigger bucketName triggerName =>
    rw [CoordTables.handle] at h
    split_ifs at h with hb
    · obtain ⟨rfl, rfl⟩ := Prod.mk.inj (Option.some.inj h)
      split_ifs with hex
      · refine (agrees_deleteTrigger_iff pb hm bucketName triggerName _ rfl).trans ?_
        exact ⟨fun hone _ _ => hone, fun hone => hone hb hex⟩
      · -- the coordinator sends nothing, and has nothing to delete
        have hself : (c.bucketTriggersMap.at bucketName).filter (·.triggerName ≠ triggerName) =
            c.bucketTriggersMap.at bucketName :=
          List.filter_eq_self.2 fun t ht => by simpa using fun hname => hex ⟨t, ht, hname⟩
        refine iff_of_true ⟨m, rfl, fun bucket => ?_⟩ fun _ hex' => absurd hex' hex
        rw [hm, CoordTables.shared, CoordTables.shared, BucketTriggersMap.at_set, hself]
        split_ifs with hbucket
        · rw [hbucket]
        · rfl
    · obtain ⟨rfl, rfl⟩ := Prod.mk.inj (Option.some.inj h)
      exact iff_of_true hsame fun hb' => absurd hb' hb

/-! ### Runs -/

theorem step_deliver {s s' : Cluster Wire ι} {worker : ι}
    (h : step pb s (.deliver worker) = some s') :
    ∃ msg rest, s.inbox worker = msg :: rest ∧
      s' = { s with
        table := Function.update s.table worker ((s.table worker).bind (receive pb · msg))
        inbox := Function.update s.inbox worker rest } := by
  rw [step] at h
  cases hin : s.inbox worker with
  | nil => simp [hin] at h
  | cons msg rest =>
    simp only [hin, Option.some.injEq] at h
    exact ⟨msg, rest, rfl, h.symm⟩

/-- Delivering a message changes nothing of what is delivered in the end. -/
theorem tracks_deliver {s s' : Cluster Wire ι} {worker : ι}
    (h : step pb s (.deliver worker) = some s') (hs : Tracks pb s) : Tracks pb s' := by
  obtain ⟨msg, rest, hin, rfl⟩ := step_deliver pb h
  intro w
  suffices hsame : delivered pb _ w = delivered pb s w from hsame ▸ hs w
  by_cases hw : w = worker
  · subst hw
    simp [delivered, receiveAll, hin]
  · simp [delivered, hw]

omit [DecidableEq ι] in
/-- Only the registration of an application can stop with an exception. -/
theorem kept_of_handle_eq_none {c : CoordTables} {r : Request Wire} (h : c.handle pb r = none) :
    Kept c r := by
  cases r with
  | appRegister appName dependencies => trivial
  | createBucket appName bucketName => trivial
  | deleteBucket appName bucketName =>
    rw [CoordTables.handle] at h
    split_ifs at h
  | addTrigger request =>
    rw [CoordTables.handle] at h
    split_ifs at h
  | deleteTrigger bucketName triggerName =>
    rw [CoordTables.handle] at h
    split_ifs at h

theorem tracks_request_iff [Nonempty ι] {s : Cluster Wire ι} (hs : Tracks pb s)
    (r : Request Wire) :
    (∀ s', step pb s (.request r) = some s' → Tracks pb s') ↔ Kept s.coordinator r := by
  rw [step]
  cases hr : s.coordinator.handle pb r with
  | none => exact iff_of_true (fun s' hs' => nomatch hs') (kept_of_handle_eq_none pb hr)
  | some handled =>
    obtain ⟨c', msg⟩ := handled
    simp only [Option.map_some, Option.some.injEq, forall_eq']
    have hw : ∀ w, Agrees c' (receiveAll pb (s.table w) (s.inbox w ++ msg.toList)) ↔
        Kept s.coordinator r := by
      intro w
      obtain ⟨m, hdel, hm⟩ := hs w
      rw [receiveAll, List.foldl_append]
      rw [delivered, receiveAll] at hdel
      rw [hdel]
      exact agrees_handle_iff pb hm hr
    exact ⟨fun h => (hw (Classical.arbitrary ι)).1 (h _), fun h w => (hw w).2 h⟩

/-- **In every run the tables agree throughout exactly when every request meets the condition.** -/
theorem tracks_run_iff [Nonempty ι] (events : List (Event Wire ι)) :
    (∀ l t, l <+: events → Runs.exec (step pb) ({} : Cluster Wire ι) l = some t → Tracks pb t) ↔
      Runs.Allowed (step pb) EventKept ({} : Cluster Wire ι) events := by
  refine Runs.forall_exec_iff_allowed (fun s e hs => ?_) fun w => ⟨.empty, rfl, fun _ => rfl⟩
  cases e with
  | request r => exact tracks_request_iff pb hs r
  | deliver worker => exact iff_of_true (fun s' hs' => tracks_deliver pb hs' hs) trivial

/-! ### One deletion

The coordinator sends a message of `msg_type` 2 for every deletion of a trigger that it has, also of
a trigger by time, which no local scheduler has. -/

/-- A local scheduler comes to the end of a deletion, with the other triggers in their order, which
is what the handler of the coordinator makes of the same vector. -/
def Deletes (m : BucketTriggersMap) (bucketName triggerName : String) : Prop :=
  ∃ m', receive pb m (.delete bucketName triggerName) = some m' ∧
    m'.at bucketName = (m.at bucketName).filter (·.triggerName ≠ triggerName) ∧
    (∀ bucket, bucket ≠ bucketName → m'.at bucket = m.at bucket) ∧
    ∀ (c c' : CoordTables) (msg : Option (UpdateCoordMsg Wire)),
      bucketName ∈ c.bucketAppMap.keys → c.bucketTriggersMap.at bucketName = m.at bucketName →
        c.handle pb (.deleteTrigger bucketName triggerName) = some (c', msg) →
          c'.bucketTriggersMap.at bucketName = m'.at bucketName

omit [DecidableEq ι] in
theorem at_handle_deleteTrigger {c c' : CoordTables} {bucketName triggerName : String}
    {msg : Option (UpdateCoordMsg Wire)} (hb : bucketName ∈ c.bucketAppMap.keys)
    (h : c.handle pb (.deleteTrigger bucketName triggerName) = some (c', msg)) :
    c'.bucketTriggersMap.at bucketName =
      (c.bucketTriggersMap.at bucketName).filter (·.triggerName ≠ triggerName) := by
  rw [CoordTables.handle, if_pos hb] at h
  obtain ⟨rfl, -⟩ := Prod.mk.inj (Option.some.inj h)
  rw [BucketTriggersMap.at_set, if_pos rfl]

omit [DecidableEq ι] in
/-- **A deletion does at a local scheduler what it does at the coordinator exactly where one trigger
of the bucket has the name.**  Where none has it the search reads past the end of the vector, and
where several have it only the first of them goes. -/
theorem deletes_iff (m : BucketTriggersMap) (bucketName triggerName : String) :
    Deletes pb m bucketName triggerName ↔
      (m.at bucketName).countP (·.triggerName = triggerName) = 1 := by
  rw [← eraseFirst_eq_some_filter_iff]
  constructor
  · rintro ⟨m', hm', hat, -, -⟩
    obtain ⟨ts, hts, rfl⟩ := Option.map_eq_some_iff.1 hm'
    rw [BucketTriggersMap.at_set, if_pos rfl] at hat
    rw [hts, hat]
  · intro hts
    refine ⟨m.set bucketName _, by rw [receive, hts]; rfl, ?_, ?_, ?_⟩
    · rw [BucketTriggersMap.at_set, if_pos rfl]
    · intro bucket hbucket
      rw [BucketTriggersMap.at_set, if_neg hbucket]
    · intro c c' msg hb hc hhandle
      rw [at_handle_deleteTrigger pb hb hhandle, hc, BucketTriggersMap.at_set, if_pos rfl]

end Wire

/-! ### Deploying a job of `mr_framework.py`

The client creates a bucket and adds a trigger.  Where the bucket exists already, from an earlier
deployment of the same job, it is deleted first. -/

/-- The trigger of a job with one mapper. -/
def mapReduceTrigger : TriggerOperationRequest (Σ type, Message type) where
  bucketName := "b_map_reduce"
  triggerName := "t_map_reduce"
  triggerOption := 1
  primitiveType := .dynamicGroup
  primitive := Protobuf.plain.serialize .dynamicGroup ⟨"reduce", ["ctrl:0"]⟩

/-- The deployment of the word count. -/
def firstDeployment : List (Event (Σ type, Message type) Unit) :=
  [.request (.appRegister "map_reduce" []), .request (.createBucket "map_reduce" "b_map_reduce"),
    .request (.addTrigger mapReduceTrigger)]

/-- The bucket is deleted and created again before the trigger is added. -/
def secondDeployment : List (Event (Σ type, Message type) Unit) :=
  [.request (.appRegister "map_reduce" []), .request (.createBucket "map_reduce" "b_map_reduce"),
    .request (.deleteBucket "map_reduce" "b_map_reduce"),
    .request (.createBucket "map_reduce" "b_map_reduce"),
    .request (.addTrigger mapReduceTrigger)]

/-- The first deployment, and the removal of its trigger by name, keep the tables equal. -/
theorem tracks_firstDeployment :
    ∃ t, Runs.exec (step Protobuf.plain) ({} : Cluster _ Unit) (firstDeployment ++
        [.deliver (), .request (.deleteTrigger "b_map_reduce" "t_map_reduce")]) = some t ∧
      Tracks Protobuf.plain t := by
  have hsome : (Runs.exec (step Protobuf.plain) ({} : Cluster _ Unit) (firstDeployment ++
      [.deliver (), .request (.deleteTrigger "b_map_reduce" "t_map_reduce")])).isSome := by
    decide +kernel
  obtain ⟨t, ht⟩ := Option.isSome_iff_exists.1 hsome
  exact ⟨t, ht, (tracks_run_iff Protobuf.plain _).2 (by decide +kernel) _ t List.prefix_rfl ht⟩

/-- After the second deployment the local scheduler has the trigger twice. -/
theorem not_tracks_secondDeployment :
    ¬ ∀ l t, l <+: firstDeployment ++ secondDeployment →
      Runs.exec (step Protobuf.plain) ({} : Cluster _ Unit) l = some t →
        Tracks Protobuf.plain t := by
  intro h
  have hrun : (Runs.exec (step Protobuf.plain) ({} : Cluster _ Unit)
        (firstDeployment ++ secondDeployment)).map (fun t =>
      ((delivered Protobuf.plain t ()).map fun m => (m.at "b_map_reduce").length,
        (t.coordinator.shared "b_map_reduce").length)) = some (some 2, 1) := by
    decide +kernel
  obtain ⟨t, ht, hlengths⟩ := Option.map_eq_some_iff.1 hrun
  obtain ⟨m, hm, hat⟩ := h _ t List.prefix_rfl ht ()
  rw [hm, Option.map_some, hat] at hlengths
  obtain ⟨htwo, hone⟩ := Prod.mk.inj hlengths
  exact absurd (hone.symm.trans (Option.some.inj htwo)) (by decide)

/-! ### Deleting a trigger by time -/

/-- The trigger of a time window, as a client adds it. -/
def windowTrigger : TriggerOperationRequest (Σ type, Message type) where
  bucketName := "b_window"
  triggerName := "t_window"
  triggerOption := 1
  primitiveType := .byTime
  primitive := Protobuf.plain.serialize .byTime ⟨"count", 1000⟩

/-- The coordinator alone has the trigger, and tells the local schedulers of its deletion. -/
def windowDeletion : List (Event (Σ type, Message type) Unit) :=
  [.request (.appRegister "window" []), .request (.createBucket "window" "b_window"),
    .request (.addTrigger windowTrigger), .request (.deleteTrigger "b_window" "t_window"),
    .deliver (), .deliver ()]

/-- What a message deletes. -/
def UpdateCoordMsg.deleted {Wire : Type} : UpdateCoordMsg Wire → Option (String × String)
  | .update _ => none
  | .delete bucketName triggerName => some (bucketName, triggerName)

/-- The local scheduler reads past the end of its vector. -/
theorem not_deletes_windowDeletion :
    ¬ ∀ (events : List (Event (Σ type, Message type) Unit)) s m bucketName triggerName rest,
      Runs.exec (step Protobuf.plain) ({} : Cluster _ Unit) events = some s →
        s.inbox () = .delete bucketName triggerName :: rest → s.table () = some m →
          Deletes Protobuf.plain m bucketName triggerName := by
  intro h
  have hrun : (Runs.exec (step Protobuf.plain) ({} : Cluster _ Unit) windowDeletion).map (fun t =>
      ((t.inbox ()).map UpdateCoordMsg.deleted, (t.table ()).map fun m => m.at "b_window")) =
        some ([some ("b_window", "t_window")], some []) := by
    decide +kernel
  obtain ⟨s, hs, hprod⟩ := Option.map_eq_some_iff.1 hrun
  obtain ⟨hinbox, htable⟩ := Prod.mk.inj hprod
  obtain ⟨m, hm, hat⟩ := Option.map_eq_some_iff.1 htable
  obtain ⟨msg, rest, hrest, hmsg, hnil⟩ := List.map_eq_cons_iff.1 hinbox
  cases msg with
  | update triggers => cases hmsg
  | delete bucketName triggerName =>
    obtain ⟨rfl, rfl⟩ := Prod.mk.inj (Option.some.inj hmsg)
    obtain ⟨m', hm', -⟩ := h windowDeletion s m _ _ rest hs hrest hm
    -- the search in an empty vector
    rw [receive, hat] at hm'
    cases hm'

end Demeter.Coordinator.TriggerTables
