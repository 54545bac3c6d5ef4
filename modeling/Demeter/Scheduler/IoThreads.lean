import Demeter.Lib.Runs
import Demeter.Scheduler.Messages

/-!
# The I/O threads of a local scheduler

`CommHelper` of `include/scheduler/comm_helper.hpp` spreads its work over `io_thread_count_`
threads.  `get_io_thread_id` goes around among them, and its callers advertise the data server of a
thread or push a message to the queue of one.

* `nextIoThreadId` is the counter, `CommHelper.call` is one call of a function that moves it;
* `nextIoThreadId_lt` is what a step keeps, if there is more than one thread;
* `served_iff` says when all ids are in range, with every queue that is pushed to there and every
  advertised address with a thread that listens.
-/

namespace Demeter.Scheduler

open Demeter.Coordinator (Address)

/-! ### The counter -/

/-- The id that `get_io_thread_id` returns, and keeps. -/
def nextIoThreadId (ioThreadCount : UInt32) (excludeMainThread : Bool) (ioThreadId : UInt32) :
    UInt32 :=
  if (ioThreadId + 1) % ioThreadCount = 0 then (if excludeMainThread then 1 else 0)
  else ioThreadId + 1

/-- The ids that a sequence of calls is given. -/
def ioThreadIds (ioThreadCount : UInt32) : UInt32 → List Bool → List UInt32
  | _, [] => []
  | ioThreadId, excludeMainThread :: flags =>
      let ioThreadId' := nextIoThreadId ioThreadCount excludeMainThread ioThreadId
      ioThreadId' :: ioThreadIds ioThreadCount ioThreadId' flags

/-- There is a thread of this id, and it is not the main thread if that is to be avoided and can
be. -/
def InRange (ioThreadCount : UInt32) (excludeMainThread : Bool) (ioThreadId : UInt32) : Prop :=
  ioThreadId < ioThreadCount ∧ (excludeMainThread = true → 1 < ioThreadCount → 1 ≤ ioThreadId)

theorem nextIoThreadId_inRange {count id : UInt32} (hcount : 1 < count) (hid : id < count)
    (exclude : Bool) : InRange count exclude (nextIoThreadId count exclude id) := by
  rw [UInt32.lt_iff_toNat_lt] at hcount hid
  have hlt := count.toNat_lt
  have hone : (1 : UInt32).toNat = 1 := rfl
  have hadd : (id + 1).toNat = id.toNat + 1 := by
    rw [UInt32.toNat_add, hone, Nat.mod_eq_of_lt (by omega)]
  unfold nextIoThreadId
  split_ifs with hmod hexclude
  · exact ⟨UInt32.lt_iff_toNat_lt.2 hcount, fun _ _ => UInt32.le_refl 1⟩
  · refine ⟨UInt32.lt_iff_toNat_lt.2 ?_, fun h => absurd h hexclude⟩
    show 0 < count.toNat
    omega
  · -- the counter has not reached the number of threads
    have hne : id.toNat + 1 ≠ count.toNat := by
      intro heq
      apply hmod
      apply UInt32.toNat.inj
      rw [UInt32.toNat_mod, hadd, heq, Nat.mod_self]
      rfl
    constructor
    · rw [UInt32.lt_iff_toNat_lt, hadd]
      omega
    · intro _ _
      rw [UInt32.le_iff_toNat_le, hadd, hone]
      omega

/-- With a single thread every step starts again. -/
theorem nextIoThreadId_one (exclude : Bool) (id : UInt32) :
    nextIoThreadId 1 exclude id = if exclude then 1 else 0 := by
  have hmod : (id + 1) % 1 = 0 := by
    apply UInt32.toNat.inj
    rw [UInt32.toNat_mod]
    exact Nat.mod_one _
  unfold nextIoThreadId
  rw [if_pos hmod]

theorem ioThreadIds_inRange {count id : UInt32} (hcount : 1 < count) (hid : id < count)
    (flags : List Bool) :
    ∀ p ∈ flags.zip (ioThreadIds count id flags), InRange count p.1 p.2 := by
  induction flags generalizing id with
  | nil => simp
  | cons exclude flags ih =>
    have hnext := nextIoThreadId_inRange hcount hid exclude
    intro p hp
    rw [ioThreadIds, List.zip_cons_cons, List.mem_cons] at hp
    rcases hp with rfl | hp
    · exact hnext
    · exact ih hnext.1 p hp

theorem ioThreadIds_one_inRange_iff (id : UInt32) (flags : List Bool) :
    (∀ p ∈ flags.zip (ioThreadIds 1 id flags), InRange 1 p.1 p.2) ↔ true ∉ flags := by
  induction flags generalizing id with
  | nil => simp
  | cons exclude flags ih =>
    have hhead : InRange 1 exclude (nextIoThreadId 1 exclude id) ↔ ¬ exclude = true := by
      rw [nextIoThreadId_one]
      cases exclude <;> simp [InRange]
    rw [ioThreadIds, List.zip_cons_cons, List.forall_mem_cons, ih, hhead, List.mem_cons, not_or]
    rw [eq_comm (a := true)]

/-! ### The functions that use it -/

/-- What an I/O thread is asked for. -/
inductive SecondaryThreadMsgType
  | sendReq
  | getKvs
  | putKvs
  deriving DecidableEq

/-- `data` are the bytes that `data_ptr_` and `data_size_` tell. -/
structure SecondaryThreadMsg where
  msgType : SecondaryThreadMsgType
  key : String
  data : Bytes
  deriving DecidableEq

/-- The port of the first I/O thread for data requests. -/
def dataAccessServerPort : UInt32 := 4400

/-- The connect address of the data server of a thread. -/
def dataServerAddress (ip : Address) (tid : UInt32) : Address :=
  "tcp://" ++ ip ++ ":" ++ toString (tid + dataAccessServerPort)

/-- `issued` is what the main thread has done itself, `advertised` the addresses of data servers
that it has told others. -/
structure CommHelper where
  ip : Address
  ioThreadCount : UInt32
  ioThreadId : UInt32 := 0
  secondaryThreadMsgQueues : List (List SecondaryThreadMsg)
  issued : List SecondaryThreadMsg := []
  advertised : List Address := []

/-- The calls that move the counter. -/
inductive Call
  | getDataServerAddr (excludeMainThread : Bool)
  | getKvsAsync (key : String)
  | putKvsAsync (key : String) (value : Bytes)
  | sendDataReq (key : String)
  deriving DecidableEq

namespace CommHelper

/-- `get_io_thread_id`: the counter goes on. -/
def getIoThreadId (h : CommHelper) (excludeMainThread : Bool) : CommHelper :=
  { h with ioThreadId := nextIoThreadId h.ioThreadCount excludeMainThread h.ioThreadId }

/-- The message is recorded. -/
def issue (h : CommHelper) (msg : SecondaryThreadMsg) : CommHelper :=
  { h with issued := h.issued ++ [msg] }

/-- Push a message to the queue of a secondary thread; `none` is an access past the end of the
vector of queues. -/
def push (h : CommHelper) (queueIdx : ℕ) (msg : SecondaryThreadMsg) : Option CommHelper :=
  if queueIdx < h.secondaryThreadMsgQueues.length then
    some { h with
      secondaryThreadMsgQueues := h.secondaryThreadMsgQueues.modify queueIdx (· ++ [msg]) }
  else none

/-- The common body of `get_kvs_async`, `put_kvs_async` and `send_data_req`. -/
def viaIoThread (h : CommHelper) (msg : SecondaryThreadMsg) : Option CommHelper :=
  if 1 < h.ioThreadCount then
    let h := h.getIoThreadId true
    if h.ioThreadId = 0 then some (h.issue msg) else h.push (h.ioThreadId - 1).toNat msg
  else some (h.issue msg)

/-- `get_kvs_async`. -/
def getKvsAsync (h : CommHelper) (key : String) : Option CommHelper :=
  h.viaIoThread ⟨.getKvs, key, []⟩

/-- `put_kvs_async`. -/
def putKvsAsync (h : CommHelper) (key : String) (value : Bytes) : Option CommHelper :=
  h.viaIoThread ⟨.putKvs, key, value⟩

/-- `send_data_req`. -/
def sendDataReq (h : CommHelper) (key : String) : Option CommHelper :=
  h.viaIoThread ⟨.sendReq, key, []⟩

/-- `notify_put_base` excludes the main thread, and `forward_func_call` does not. -/
def getDataServerAddr (h : CommHelper) (excludeMainThread : Bool) : CommHelper :=
  let h := h.getIoThreadId excludeMainThread
  { h with advertised := h.advertised ++ [dataServerAddress h.ip h.ioThreadId] }

/-- One call of the helper. -/
def call (h : CommHelper) : Call → Option CommHelper
  | .getDataServerAddr excludeMainThread => some (h.getDataServerAddr excludeMainThread)
  | .getKvsAsync key => h.getKvsAsync key
  | .putKvsAsync key value => h.putKvsAsync key value
  | .sendDataReq key => h.sendDataReq key

/-- `main` of `scheduler_server.cpp` makes a queue for every thread but the main one. -/
def start (ip : Address) (ioThreadCount : UInt32) : CommHelper where
  ip := ip
  ioThreadCount := ioThreadCount
  secondaryThreadMsgQueues := List.replicate (ioThreadCount.toNat - 1) []

/-- The main thread listens to the first of these addresses, and each secondary one to one of the
others. -/
def listening (ip : Address) (ioThreadCount : UInt32) : List Address :=
  dataServerAddress ip 0 ::
    (List.range' 1 (ioThreadCount.toNat - 1)).map fun tid =>
      dataServerAddress ip (UInt32.ofNat tid)

/-- All calls come back, and every address they have advertised is one that a thread listens to. -/
def Served (ip : Address) (ioThreadCount : UInt32) (calls : List Call) : Prop :=
  ∃ h, Runs.exec call (start ip ioThreadCount) calls = some h ∧
    ∀ address ∈ h.advertised, address ∈ listening ip ioThreadCount

/-! ### Several threads -/

theorem dataServerAddress_mem_listening {ip : Address} {count id : UInt32} (hid : id < count) :
    dataServerAddress ip id ∈ listening ip count := by
  rw [UInt32.lt_iff_toNat_lt] at hid
  unfold listening
  rw [List.mem_cons]
  by_cases hzero : id = 0
  · left
    rw [hzero]
  · right
    apply List.mem_map.2
    refine ⟨id.toNat, List.mem_range'_1.2 ?_, by rw [UInt32.ofNat_toNat]⟩
    have hne : id.toNat ≠ 0 := fun h => hzero (UInt32.toNat.inj h)
    omega

/-- What every call keeps while there are several threads. -/
structure Serving (ip : Address) (count : UInt32) (h : CommHelper) : Prop where
  ip_eq : h.ip = ip
  count_eq : h.ioThreadCount = count
  id_lt : h.ioThreadId < count
  length_queues : h.secondaryThreadMsgQueues.length = count.toNat - 1
  listens : ∀ address ∈ h.advertised, address ∈ listening ip count

namespace Serving

variable {ip : Address} {count : UInt32} {h : CommHelper}

theorem init (hcount : 1 < count) : Serving ip count (start ip count) where
  ip_eq := rfl
  count_eq := rfl
  id_lt := by
    show (0 : UInt32) < count
    exact UInt32.lt_trans (by decide) hcount
  length_queues := List.length_replicate
  listens := by simp [start]

theorem getIoThreadId (hcount : 1 < count) (hs : Serving ip count h) (exclude : Bool) :
    Serving ip count (h.getIoThreadId exclude) where
  ip_eq := hs.ip_eq
  count_eq := hs.count_eq
  id_lt := by
    unfold CommHelper.getIoThreadId
    rw [hs.count_eq]
    exact (nextIoThreadId_inRange hcount hs.id_lt exclude).1
  length_queues := hs.length_queues
  listens := hs.listens

theorem getDataServerAddr (hcount : 1 < count) (hs : Serving ip count h) (exclude : Bool) :
    Serving ip count (h.getDataServerAddr exclude) := by
  have hs' := hs.getIoThreadId hcount exclude
  refine { hs' with listens := ?_ }
  intro address haddress
  unfold CommHelper.getDataServerAddr at haddress
  rw [List.mem_append, List.mem_singleton] at haddress
  rcases haddress with hold | rfl
  · exact hs'.listens address hold
  · rw [hs'.ip_eq]
    exact dataServerAddress_mem_listening hs'.id_lt

/-- The queue of the chosen thread exists. -/
theorem viaIoThread (hcount : 1 < count) (hs : Serving ip count h) (msg : SecondaryThreadMsg) :
    ∃ h', h.viaIoThread msg = some h' ∧ Serving ip count h' := by
  have hs' := hs.getIoThreadId hcount true
  have hone : 1 < h.ioThreadCount := by rw [hs.count_eq]; exact hcount
  unfold CommHelper.viaIoThread
  rw [if_pos hone]
  by_cases hzero : (h.getIoThreadId true).ioThreadId = 0
  · exact ⟨_, if_pos hzero, { hs' with }⟩
  · have hqueue : ((h.getIoThreadId true).ioThreadId - 1).toNat <
        (h.getIoThreadId true).secondaryThreadMsgQueues.length := by
      have hlt := UInt32.lt_iff_toNat_lt.1 hs'.id_lt
      have hne : (h.getIoThreadId true).ioThreadId.toNat ≠ 0 := fun h => hzero (UInt32.toNat.inj h)
      have hsub : ((h.getIoThreadId true).ioThreadId - 1).toNat =
          (h.getIoThreadId true).ioThreadId.toNat - 1 := by
        apply UInt32.toNat_sub_of_le
        rw [UInt32.le_iff_toNat_le]
        show 1 ≤ _
        omega
      rw [hsub, hs'.length_queues]
      omega
    refine ⟨_, (if_neg hzero).trans (if_pos hqueue), { hs' with length_queues := ?_ }⟩
    rw [List.length_modify]
    exact hs'.length_queues

theorem call (hcount : 1 < count) (hs : Serving ip count h) (c : Call) :
    ∃ h', h.call c = some h' ∧ Serving ip count h' := by
  cases c with
  | getDataServerAddr exclude => exact ⟨_, rfl, hs.getDataServerAddr hcount exclude⟩
  | getKvsAsync key => exact hs.viaIoThread hcount _
  | putKvsAsync key value => exact hs.viaIoThread hcount _
  | sendDataReq key => exact hs.viaIoThread hcount _

end Serving

/-! ### A single thread -/

/-- What a call tells others where there is one thread: its address, or the next one where the main
thread is to be avoided. -/
def advertisedAlone (ip : Address) : Call → Option Address
  | .getDataServerAddr exclude => some (dataServerAddress ip (if exclude then 1 else 0))
  | .getKvsAsync _ | .putKvsAsync _ _ | .sendDataReq _ => none

/-- A single thread issues everything itself, and what it advertises does not depend on the state
of the counter. -/
theorem call_one {h : CommHelper} (hone : h.ioThreadCount = 1) (c : Call) :
    ∃ h', h.call c = some h' ∧ h'.ip = h.ip ∧ h'.ioThreadCount = 1 ∧
      h'.advertised = h.advertised ++ (advertisedAlone h.ip c).toList := by
  have hbase : ∀ msg, h.viaIoThread msg = some (h.issue msg) := by
    intro msg
    unfold CommHelper.viaIoThread
    rw [hone]
    rfl
  have hissue : ∀ msg, (h.issue msg).advertised = h.advertised ++ [] := by
    intro msg
    rw [List.append_nil]
    rfl
  cases c with
  | getDataServerAddr exclude =>
    refine ⟨_, rfl, rfl, hone, ?_⟩
    unfold CommHelper.getDataServerAddr CommHelper.getIoThreadId
    rw [hone, nextIoThreadId_one]
    rfl
  | getKvsAsync key => exact ⟨_, hbase _, rfl, hone, hissue _⟩
  | putKvsAsync key value => exact ⟨_, hbase _, rfl, hone, hissue _⟩
  | sendDataReq key => exact ⟨_, hbase _, rfl, hone, hissue _⟩

theorem exec_one {h : CommHelper} (hone : h.ioThreadCount = 1) (calls : List Call) :
    ∃ h', Runs.exec CommHelper.call h calls = some h' ∧
      h'.advertised = h.advertised ++ calls.filterMap (advertisedAlone h.ip) := by
  induction calls generalizing h with
  | nil => exact ⟨h, rfl, (List.append_nil _).symm⟩
  | cons c calls ih =>
    obtain ⟨h₁, hc, hip, hone₁, hadv⟩ := call_one hone c
    obtain ⟨h', hexec, hadv'⟩ := ih hone₁
    refine ⟨h', by rw [Runs.exec, hc, Option.bind_some, hexec], ?_⟩
    rw [hadv', hadv, hip, List.append_assoc, List.filterMap_cons]
    cases advertisedAlone h.ip c <;> rfl

/-- No thread listens to the address behind the only one. -/
theorem mem_listening_one_iff (ip : Address) (exclude : Bool) :
    dataServerAddress ip (if exclude then 1 else 0) ∈ listening ip 1 ↔ exclude = false := by
  have hlistening : listening ip 1 = [dataServerAddress ip 0] := rfl
  rw [hlistening, List.mem_singleton]
  cases exclude with
  | false => exact iff_of_true rfl rfl
  | true =>
    refine iff_of_false ?_ (by decide)
    intro heq
    have hport := (String.append_right_inj _).1 heq
    exact absurd hport (by decide)

theorem served_one_iff (ip : Address) (calls : List Call) :
    Served ip 1 calls ↔ .getDataServerAddr true ∉ calls := by
  obtain ⟨h, hexec, hadv⟩ := exec_one (h := start ip 1) rfl calls
  have hmem : ∀ address, address ∈ h.advertised ↔
      ∃ exclude, .getDataServerAddr exclude ∈ calls ∧
        dataServerAddress ip (if exclude then 1 else 0) = address := by
    intro address
    rw [hadv]
    show address ∈ [] ++ calls.filterMap (advertisedAlone ip) ↔ _
    rw [List.nil_append, List.mem_filterMap]
    constructor
    · rintro ⟨c, hc, haddress⟩
      cases c with
      | getDataServerAddr exclude => exact ⟨exclude, hc, Option.some.inj haddress⟩
      | getKvsAsync key => cases haddress
      | putKvsAsync key value => cases haddress
      | sendDataReq key => cases haddress
    · rintro ⟨exclude, hc, haddress⟩
      exact ⟨_, hc, congrArg some haddress⟩
  constructor
  · rintro ⟨h', hexec', hserved⟩ hc
    obtain rfl := Option.some.inj (hexec.symm.trans hexec')
    have hlisten := hserved _ ((hmem _).2 ⟨true, hc, rfl⟩)
    exact absurd ((mem_listening_one_iff ip true).1 hlisten) (by decide)
  · intro hnot
    refine ⟨h, hexec, ?_⟩
    intro address haddress
    obtain ⟨exclude, hc, rfl⟩ := (hmem _).1 haddress
    apply (mem_listening_one_iff ip exclude).2
    cases exclude with
    | false => rfl
    | true => exact absurd hc hnot

/-! ### All numbers of threads -/

/-- **All ids are in range, whatever the flags of the calls, exactly if there are several threads or
no call excludes the main thread; and so it is for the queues and the advertised addresses.** -/
theorem served_iff (ip : Address) (ioThreadCount : UInt32) (hcount : 1 ≤ ioThreadCount) :
    (∀ flags : List Bool,
      (∀ p ∈ flags.zip (ioThreadIds ioThreadCount 0 flags), InRange ioThreadCount p.1 p.2) ↔
        1 < ioThreadCount ∨ true ∉ flags) ∧
    ∀ calls : List Call,
      Served ip ioThreadCount calls ↔ 1 < ioThreadCount ∨ .getDataServerAddr true ∉ calls := by
  by_cases hone : ioThreadCount = 1
  · subst hone
    have hirrefl : ¬ (1 : UInt32) < 1 := UInt32.lt_irrefl 1
    constructor
    · intro flags
      rw [ioThreadIds_one_inRange_iff, or_iff_right hirrefl]
    · intro calls
      rw [served_one_iff, or_iff_right hirrefl]
  · have hlt : 1 < ioThreadCount := UInt32.lt_of_le_of_ne hcount (Ne.symm hone)
    have hzero : 0 < ioThreadCount := UInt32.lt_trans (by decide) hlt
    constructor
    · intro flags
      exact iff_of_true (ioThreadIds_inRange hlt hzero flags) (Or.inl hlt)
    · intro calls
      refine iff_of_true ?_ (Or.inl hlt)
      have hinit : Serving ip ioThreadCount (start ip ioThreadCount) := Serving.init hlt
      obtain ⟨h, hexec, hs⟩ :=
        Runs.exists_exec (fun h c hs => Serving.call hlt hs c) hinit calls
      exact ⟨h, hexec, hs.listens⟩

/-- Three threads, and calls of all kinds. -/
theorem served_three : Served "10.0.0.1" 3 [.getDataServerAddr true, .sendDataReq "b|k",
    .getDataServerAddr false, .getKvsAsync "b|k", .putKvsAsync "b|k" [1]] :=
  ((served_iff "10.0.0.1" 3 (by decide)).2 _).2 (Or.inl (by decide))

/-- The single thread of the default configuration advertises the port of a second one when it
notifies a coordinator of an object. -/
theorem not_served_single :
    ¬ ∀ ioThreadCount : UInt32, 1 ≤ ioThreadCount →
      (∀ flags : List Bool, ∀ p ∈ flags.zip (ioThreadIds ioThreadCount 0 flags),
        InRange ioThreadCount p.1 p.2) ∧
      ∀ calls : List Call, Served "10.0.0.1" ioThreadCount calls := by
  intro h
  obtain ⟨h', hexec, hserved⟩ := (h 1 (by decide)).2 [.getDataServerAddr true]
  obtain rfl := Option.some.inj hexec
  have hlisten := hserved (dataServerAddress "10.0.0.1" 1) (List.mem_singleton.2 rfl)
  exact absurd hlisten (by decide)

end CommHelper

end Demeter.Scheduler
