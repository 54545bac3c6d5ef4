import Std.Data.String.ToNat
import Demeter.Coordinator.CallArguments
import Demeter.Coordinator.DynamicGroup
import Demeter.MapReduce.Templates

/-!
# A job that counts words

The client of `mr_framework.py` deploys the mapper and the reducer with a trigger by dynamic group
on the bucket of the job, one control for each mapper.  The mappers put the objects that they have
written, and the trigger calls the reducer.

* `genUniqueKey_inj` says when two names that executors generate are equal;
* `reduceCall` is a call with the arguments that it gets.  The reducer needs the names of its
  objects, which a call does not get if all objects are so small that their values are known;
* `counts_words`: in every interleaving of the puts, notifications and requests to clear, the
  reducers together write every word once, with the number of its occurrences in all texts, if each
  of them has a large object and there is a free executor for it.
-/

namespace Demeter.MapReduce

open Demeter.Common Demeter.Common.Trigger
open Demeter.Coordinator.Notify
open Demeter.Executor (kDelimiterChar msgDataPackingThreshold utf8_toString)
open Demeter.Scheduler (Bytes ascii toStringNat utf8 utf8_append)
open GetLine (split)

/-! ### Names -/

/-- The address of an executor without its dots. -/
def ipNumber (ip : String) : String := String.ofList (ip.toList.filter (· ≠ '.'))

/-- `gen_unique_key`, by the address, the thread and the number of the object; the counters have 8
and 32 bits. -/
def genUniqueKey (ip : String) (threadId objectId : ℕ) : String :=
  ipNumber ip ++ "_" ++ toString ((threadId + 1) % 2 ^ 8) ++ "_" ++ toString (objectId % 2 ^ 32)

theorem notMem_toString {c : Char} (hc : c.isDigit = false) (n : ℕ) : c ∉ (toString n).toList := by
  intro h
  rw [Nat.toString_eq_repr, Nat.toList_repr] at h
  rw [Nat.isDigit_of_mem_toDigits (by decide) (by decide) h] at hc
  cases hc

theorem toString_inj {n n' : ℕ} (h : toString n = toString n') : n = n' := by
  rwa [Nat.toString_eq_repr, Nat.toString_eq_repr, Nat.repr_inj] at h

/-- A text up to a character that it does not have. -/
theorem takeWhile_append_cons {l m : List Char} {c : Char} (h : c ∉ l) :
    (l ++ c :: m).takeWhile (· ≠ c) = l := by
  have hl : ∀ d ∈ l, decide (d ≠ c) = true := by
    intro d hd
    rw [decide_eq_true_eq]
    rintro rfl
    exact h hd
  rw [List.takeWhile_append_of_pos hl, List.takeWhile_cons_of_neg (by simp), List.append_nil]

/-- A text that ends before its first delimiter can be split there in one way. -/
theorem append_cons_inj {l l' m m' : List Char} {c : Char} (h : c ∉ l) (h' : c ∉ l')
    (heq : l ++ c :: m = l' ++ c :: m') : l = l' ∧ m = m' := by
  have hl : l = l' := by
    rw [← takeWhile_append_cons (m := m) h, heq, takeWhile_append_cons h']
  subst hl
  exact ⟨rfl, (List.cons.inj (List.append_cancel_left heq)).2⟩

theorem groupOf_toString (g : ℕ) (u : String) : groupOf (toString g ++ ":" ++ u) = toString g := by
  have hlist : (toString g ++ ":" ++ u).toList = (toString g).toList ++ ':' :: u.toList := by
    simp
  rw [groupOf, hlist, groupDelimiter, takeWhile_append_cons (notMem_toString rfl g),
    String.ofList_toList]

/-- **Two generated names are equal exactly when the addresses have the same digits and the
threads and objects the same numbers.**  Addresses with the same digits can differ in their dots. -/
theorem genUniqueKey_inj {ip ip' : String} (hip : '_' ∉ ip.toList) (hip' : '_' ∉ ip'.toList)
    (threadId threadId' objectId objectId' : ℕ) :
    genUniqueKey ip threadId objectId = genUniqueKey ip' threadId' objectId' ↔
      ipNumber ip = ipNumber ip' ∧ threadId % 2 ^ 8 = threadId' % 2 ^ 8 ∧
        objectId % 2 ^ 32 = objectId' % 2 ^ 32 := by
  have hlist : ∀ ip t o, (genUniqueKey ip t o).toList = (ipNumber ip).toList ++
      '_' :: ((toString ((t + 1) % 2 ^ 8)).toList ++ '_' :: (toString (o % 2 ^ 32)).toList) := by
    intro ip t o
    simp [genUniqueKey]
  have hnumber : ∀ ip : String, '_' ∉ ip.toList → '_' ∉ (ipNumber ip).toList := by
    intro ip h hmem
    rw [ipNumber, String.toList_ofList] at hmem
    exact h (List.mem_of_mem_filter hmem)
  constructor
  · intro h
    have heq := congrArg String.toList h
    rw [hlist, hlist] at heq
    obtain ⟨hnum, hrest⟩ := append_cons_inj (hnumber ip hip) (hnumber ip' hip') heq
    obtain ⟨hthread, hobject⟩ := append_cons_inj (notMem_toString rfl _) (notMem_toString rfl _)
      hrest
    have hthread := toString_inj (String.toList_inj.1 hthread)
    exact ⟨String.toList_inj.1 hnum, by omega, toString_inj (String.toList_inj.1 hobject)⟩
  · rintro ⟨hnum, hthread, hobject⟩
    have hchan : (threadId + 1) % 2 ^ 8 = (threadId' + 1) % 2 ^ 8 := by omega
    rw [genUniqueKey, genUniqueKey, hnum, hchan, hobject]

/-! ### The objects of all mappers -/

variable (partition : Bytes → ℕ) (uniqueKey : ℕ → ℕ → String)

/-- The objects of all mappers, numbered from `i` on. -/
def sentFrom (i : ℕ) : List Bytes → Option (List (String × Bytes))
  | [] => some []
  | text :: texts => do
      let objs ← mapHandle partition (uniqueKey i) text
      let rest ← sentFrom (i + 1) texts
      some (objs ++ rest)

/-- The text has a word of the group. -/
def HasGroup (g : ℕ) (text : Bytes) : Prop := ∃ w ∈ words text, partition w = g

instance HasGroup.decidable (g : ℕ) : DecidablePred (HasGroup partition g) := fun text =>
  inferInstanceAs (Decidable (∃ w ∈ words text, partition w = g))

/-- The groups of the words of all texts. -/
def groups (texts : List Bytes) : List ℕ := ((allWords texts).map partition).dedup

/-- No two of `m` mappers generate the same name. -/
def Unique (m : ℕ) : Prop :=
  ∀ i < m, ∀ i' < m, ∀ n n', uniqueKey i n = uniqueKey i' n' → i = i'

variable {partition uniqueKey}

theorem sentFrom_cons {i : ℕ} {text : Bytes} {texts : List Bytes} {objs : List (String × Bytes)}
    (h : sentFrom partition uniqueKey i (text :: texts) = some objs) :
    ∃ os rest, mapHandle partition (uniqueKey i) text = some os ∧
      sentFrom partition uniqueKey (i + 1) texts = some rest ∧ objs = os ++ rest := by
  obtain ⟨os, hos, h⟩ := Option.bind_eq_some_iff.1 h
  obtain ⟨rest, hrest, h⟩ := Option.bind_eq_some_iff.1 h
  exact ⟨os, rest, hos, hrest, (Option.some.inj h).symm⟩

/-- The objects of a group, one of each text that has the group. -/
theorem filter_sentFrom {i : ℕ} {texts : List Bytes} {objs : List (String × Bytes)}
    (hlength : (allWords texts).length < 2 ^ 31)
    (h : sentFrom partition uniqueKey i texts = some objs) (g : ℕ) :
    (objs.filter fun o => groupOf o.1 = toString g).map Prod.snd =
      (texts.filter (HasGroup partition g)).map fun text =>
        (groupCounts partition g text).flatMap record := by
  induction texts generalizing i objs with
  | nil =>
    obtain rfl := Option.some.inj h
    rfl
  | cons text texts ih =>
    obtain ⟨os, rest, hos, hrest, rfl⟩ := sentFrom_cons h
    rw [allWords, List.flatMap_cons, List.length_append] at hlength
    obtain ⟨gs, name, hnodup, hgs, hname, rfl⟩ := mapHandle_eq_some (by omega) hos
    have hgroup : ∀ g' ∈ gs, (groupOf (name g') = toString g ↔ g' = g) := by
      intro g' hg'
      obtain ⟨n, hn⟩ := hname g' hg'
      rw [hn, groupOf_toString]
      exact ⟨toString_inj, congrArg toString⟩
    have hfilter : (gs.map fun g => (name g, (groupCounts partition g text).flatMap record)).filter
          (fun o => groupOf o.1 = toString g) =
        (gs.filter (· = g)).map fun g =>
          (name g, (groupCounts partition g text).flatMap record) := by
      rw [List.filter_map]
      refine congrArg _ (List.filter_congr fun g' hg' => ?_)
      exact decide_eq_decide.2 (hgroup g' hg')
    rw [List.filter_append, List.map_append, ih (by rw [allWords]; omega) hrest, hfilter,
      List.filter_eq]
    by_cases hg : HasGroup partition g text
    · rw [List.filter_cons_of_pos (by simpa using hg),
        List.count_eq_one_of_mem hnodup ((hgs g).2 hg)]
      simp
    · rw [List.filter_cons_of_neg (by simpa using hg),
        List.count_eq_zero.2 fun hmem => hg ((hgs g).1 hmem)]
      simp

theorem mem_sentFrom {i : ℕ} {texts : List Bytes} {objs : List (String × Bytes)}
    (hlength : (allWords texts).length < 2 ^ 31)
    (h : sentFrom partition uniqueKey i texts = some objs) {o : String × Bytes} (ho : o ∈ objs) :
    ∃ g ∈ groups partition texts, ∃ i' ≥ i, i' < i + texts.length ∧
      ∃ n, o.1 = toString g ++ ":" ++ uniqueKey i' n := by
  induction texts generalizing i objs with
  | nil =>
    obtain rfl := Option.some.inj h
    cases ho
  | cons text texts ih =>
    obtain ⟨os, rest, hos, hrest, rfl⟩ := sentFrom_cons h
    have happ : allWords (text :: texts) = words text ++ allWords texts := List.flatMap_cons
    rw [happ, List.length_append] at hlength
    have hgroups : ∀ g, (∃ w ∈ words text ++ allWords texts, partition w = g) →
        g ∈ groups partition (text :: texts) := by
      rintro g ⟨w, hw, hg⟩
      rw [groups, happ, List.mem_dedup]
      exact List.mem_map.2 ⟨w, hw, hg⟩
    obtain ho | ho := List.mem_append.1 ho
    · obtain ⟨gs, name, -, hgs, hname, rfl⟩ := mapHandle_eq_some (by omega) hos
      obtain ⟨g, hg, rfl⟩ := List.mem_map.1 ho
      obtain ⟨n, hn⟩ := hname g hg
      obtain ⟨w, hw, hpart⟩ := (hgs g).1 hg
      exact ⟨g, hgroups g ⟨w, List.mem_append_left _ hw, hpart⟩, i, le_rfl, by simp, n, hn⟩
    · obtain ⟨g, hg, i', hi', hlt, n, hn⟩ := ih (by omega) hrest ho
      obtain ⟨w, hw, hpart⟩ := List.mem_map.1 (List.mem_dedup.1 hg)
      refine ⟨g, hgroups g ⟨w, List.mem_append_right _ hw, hpart⟩, i', by omega, ?_, n, hn⟩
      rw [List.length_cons]
      omega

theorem objectName_inj {g g' : ℕ} {u u' : String}
    (h : toString g ++ ":" ++ u = toString g' ++ ":" ++ u') : g = g' ∧ u = u' := by
  have hlist : ∀ (g : ℕ) (u : String),
      (toString g ++ ":" ++ u).toList = (toString g).toList ++ ':' :: u.toList := by simp
  have heq := congrArg String.toList h
  rw [hlist, hlist] at heq
  obtain ⟨hg, hu⟩ := append_cons_inj (notMem_toString rfl g) (notMem_toString rfl g') heq
  exact ⟨toString_inj (String.toList_inj.1 hg), String.toList_inj.1 hu⟩

/-- The names of the objects are different. -/
theorem nodup_sentFrom {m : ℕ} (hunique : Unique uniqueKey m) {i : ℕ} {texts : List Bytes}
    (hm : i + texts.length ≤ m) {objs : List (String × Bytes)}
    (hlength : (allWords texts).length < 2 ^ 31)
    (h : sentFrom partition uniqueKey i texts = some objs) : (objs.map Prod.fst).Nodup := by
  induction texts generalizing i objs with
  | nil =>
    obtain rfl := Option.some.inj h
    exact List.nodup_nil
  | cons text texts ih =>
    obtain ⟨os, rest, hos, hrest, rfl⟩ := sentFrom_cons h
    rw [allWords, List.flatMap_cons, List.length_append, ← allWords] at hlength
    obtain ⟨gs, name, hnodup, -, hname, rfl⟩ := mapHandle_eq_some (by omega) hos
    rw [List.length_cons] at hm
    rw [List.map_append, List.map_map, List.nodup_append]
    refine ⟨hnodup.map_on fun g hg g' hg' heq => ?_, ih (by omega) (by omega) hrest,
      fun n hn n' hn' heq => ?_⟩
    · obtain ⟨k, hk⟩ := hname g hg
      obtain ⟨k', hk'⟩ := hname g' hg'
      have heq : name g = name g' := heq
      rw [hk, hk'] at heq
      exact (objectName_inj heq).1
    · obtain ⟨g, hg, rfl⟩ := List.mem_map.1 hn
      obtain ⟨o, ho, rfl⟩ := List.mem_map.1 hn'
      obtain ⟨k, hk⟩ := hname g hg
      obtain ⟨g', -, i', hi', hlt, k', hk'⟩ := mem_sentFrom (by omega) hrest ho
      have heq : name g = o.1 := heq
      rw [hk, hk'] at heq
      have hi := hunique i (by omega) i' (by omega) k k' (objectName_inj heq).2
      omega

/-! ### The calls -/

section Calls

variable {ι : Type}

/-- The plain arguments of a call as the executor reads them: the text up to the first NUL, cut at
its delimiters, behind the session and the name of the function. -/
def plainArgs (c : TriggerCall ι) (vs : List Bytes) : List Bytes :=
  let args :=
    match c.place with
    | .scheduler _ => vs.flatMap (kDelimiterChar :: ·)
    | .node _ _ | .dropped => kDelimiterChar :: vs.flatMap (· ++ [kDelimiterChar])
  let text := utf8 c.firing.bucketKey.session ++ kDelimiterChar ::
    (utf8 c.firing.action.function ++ args)
  (split kDelimiterChar (text.takeWhile (· ≠ 0))).drop 2

/-- The arguments that the function of a call gets; `store` has the objects of the bucket by name
and session. -/
def argValues (store : String → Bytes) (c : TriggerCall ι) : Option (List Bytes) :=
  match c.args with
  | .values vs => some (plainArgs c vs)
  | .objects argFlag sessionKeys =>
      if argFlag = 1 then some (sessionKeys.map fun k => store (keySessionName k))
      else if argFlag = 2 then
        some (sessionKeys.flatMap fun k => [utf8 (keySessionName k), store (keySessionName k)])
      else none

/-- The call of the reducer, if it is not dropped. -/
def reduceCall (store : String → Bytes) (c : TriggerCall ι) : Option (Bytes × Bytes) :=
  if c.place.Made then (argValues store c).bind reduceHandle else none

end Calls

theorem resultText_filter (texts : List Bytes) (g : ℕ) :
    resultText partition g (texts.filter (HasGroup partition g)) =
      resultText partition g texts := by
  have hcount : ∀ w, partition w = g →
      (allWords (texts.filter (HasGroup partition g))).count w = (allWords texts).count w := by
    intro w hw
    induction texts with
    | nil => rfl
    | cons text texts ih =>
      have happ : allWords (text :: texts) = words text ++ allWords texts := List.flatMap_cons
      by_cases hg : HasGroup partition g text
      · have happ' : allWords (text :: texts.filter (HasGroup partition g)) =
            words text ++ allWords (texts.filter (HasGroup partition g)) := List.flatMap_cons
        rw [List.filter_cons_of_pos (by simpa using hg), happ, happ', List.count_append,
          List.count_append, ih]
      · have hzero : (words text).count w = 0 :=
          List.count_eq_zero.2 fun hmem => hg ⟨w, hmem, hw⟩
        rw [List.filter_cons_of_neg (by simpa using hg), happ, List.count_append, hzero, ih,
          Nat.zero_add]
  have hresult : resultWords partition g (texts.filter (HasGroup partition g)) =
      resultWords partition g texts := by
    refine List.Perm.eq_of_pairwise (fun _ _ _ _ => wordLe_antisymm)
      (List.pairwise_insertionSort wordLe _) (List.pairwise_insertionSort wordLe _) ?_
    refine (List.perm_insertionSort _ _).trans (List.Perm.trans ?_
      (List.perm_insertionSort _ _).symm)
    refine (List.perm_ext_iff_of_nodup ((List.nodup_dedup _).filter _)
      ((List.nodup_dedup _).filter _)).2 fun w => ?_
    rw [List.mem_filter, List.mem_filter, List.mem_dedup, List.mem_dedup]
    refine and_congr_left fun hw => ?_
    rw [← List.count_pos_iff, ← List.count_pos_iff, hcount w (of_decide_eq_true hw).2]
  have hpart : ∀ w ∈ resultWords partition g texts, partition w = g := by
    intro w hw
    have hmem := (List.perm_insertionSort _ _).mem_iff.1 hw
    exact (of_decide_eq_true (List.mem_filter.1 hmem).2).2
  rw [resultText, resultText, hresult, List.flatMap_def, List.flatMap_def]
  refine congrArg List.flatten (List.map_congr_left fun w hw => ?_)
  rw [hcount w (hpart w hw)]

theorem exists_perm_of_perm_map {α β : Type*} {f : α → β} {l : List β} {m : List α}
    (h : l.Perm (m.map f)) : ∃ m' : List α, m'.Perm m ∧ l = m'.map f := by
  have hself : List.Forall₂ (fun b a => b = f a) (m.map f) m := by
    rw [List.forall₂_map_left_iff, List.forall₂_same]
    exact fun _ _ => rfl
  obtain ⟨m', hforall, hperm⟩ := List.perm_comp_forall₂ h hself
  refine ⟨m', hperm, ?_⟩
  rw [← List.forall₂_eq_eq_eq, List.forall₂_map_right_iff]
  exact hforall

/-- The data that was put in a job are the objects of the mappers, in one session. -/
structure PutBy (objs : List (String × Bytes)) (store : String → Bytes) (session : String)
    (l : List BucketKey) : Prop where
  perm : (l.map (·.key)).Perm (objs.map Prod.fst)
  nodup : (objs.map Prod.fst).Nodup
  store : ∀ o ∈ objs, store (o.1 ++ session) = o.2

variable {texts : List Bytes} {objs : List (String × Bytes)} {store : String → Bytes}
  {session : String} {l : List BucketKey}

/-- The keys of a group are the names of its objects. -/
theorem PutBy.setItems_perm (h : PutBy objs store session l) (group : String) :
    (setItems (keysOf l group)).Perm ((objs.filter fun o => groupOf o.1 = group).map Prod.fst) := by
  refine (List.perm_ext_iff_of_nodup (nodup_setItems _)
    (h.nodup.sublist (List.filter_sublist.map _))).2 fun name => ?_
  rw [mem_setItems, keysOf, List.mem_toFinset, List.mem_filter, h.perm.mem_iff]
  constructor
  · rintro ⟨hname, hgroup⟩
    obtain ⟨o, ho, rfl⟩ := List.mem_map.1 hname
    exact List.mem_map.2 ⟨o, List.mem_filter.2 ⟨ho, hgroup⟩, rfl⟩
  · intro hname
    obtain ⟨o, ho, rfl⟩ := List.mem_map.1 hname
    exact ⟨List.mem_map.2 ⟨o, (List.mem_filter.1 ho).1, rfl⟩, (List.mem_filter.1 ho).2⟩

theorem exists_hasGroup {g : ℕ} (hg : g ∈ groups partition texts) :
    ∃ text ∈ texts, HasGroup partition g text := by
  obtain ⟨w, hw, hpart⟩ := List.mem_map.1 (List.mem_dedup.1 hg)
  obtain ⟨text, htext, hmem⟩ := List.mem_flatMap.1 hw
  exact ⟨text, htext, w, hmem, hpart⟩

theorem groupName_utf8 (g : ℕ) (u : String) :
    groupName (utf8 (toString g ++ ":" ++ u)) = toStringNat g := by
  have hcolon : utf8 ":" = [colon] := by decide +kernel
  have hdigit : ∀ c ∈ toStringNat g, c ≠ 0 ∧ c ≠ colon := by
    intro c hc
    obtain ⟨hlow, hhigh⟩ := Demeter.Executor.mem_toStringNat hc
    constructor
    · rintro rfl
      exact absurd hlow (by decide)
    · rintro rfl
      exact absurd hhigh (by decide)
  rw [groupName, utf8_append, utf8_append, utf8_toString, hcolon, List.append_assoc,
    List.takeWhile_append_of_pos fun c hc => decide_eq_true (hdigit c hc).1,
    List.takeWhile_append_of_pos fun c hc => decide_eq_true (hdigit c hc).2,
    List.singleton_append, List.takeWhile_cons_of_pos (by decide),
    List.takeWhile_cons_of_neg (by simp), List.append_nil]

/-- The call for the keys of a group. -/
def groupAction (function session : String) (l : List BucketKey) (g : ℕ) : TriggerAction :=
  ⟨function, (setItems (keysOf l (toString g))).map (session, ·)⟩

theorem PutBy.reduceCall_eq (h : PutBy objs store session l)
    (hsent : sentFrom partition uniqueKey 0 texts = some objs)
    (hread : ∀ text ∈ texts, Readable text) (hlength : (allWords texts).length < 2 ^ 31) {g : ℕ}
    (hg : g ∈ groups partition texts)
    (hcapacity : (resultText partition g texts).length ≤ reduceCapacity) {ι : Type}
    {c : TriggerCall ι} (hmade : c.place.Made) {function : String}
    (haction : c.firing.action = groupAction function session l g)
    (hargs : c.args = .objects 2 c.firing.action.sessionKeys) :
    reduceCall store c = some (ascii "reduce" ++ toStringNat g, resultText partition g texts) := by
  have hfilter := filter_sentFrom hlength hsent g
  have hnames := h.setItems_perm (toString g)
  have hcontents : ((setItems (keysOf l (toString g))).map fun name =>
        store (name ++ session)).Perm
      ((texts.filter (HasGroup partition g)).map fun text =>
        (groupCounts partition g text).flatMap record) := by
    rw [← hfilter]
    refine (hnames.map fun name => store (name ++ session)).trans (List.Perm.of_eq ?_)
    rw [List.map_map]
    exact List.map_congr_left fun o ho => h.store o (List.mem_filter.1 ho).1
  obtain ⟨ts, hts, hmap⟩ := exists_perm_of_perm_map hcontents
  have hresult : resultText partition g ts = resultText partition g texts := by
    rw [resultText_perm hts, resultText_filter]
  have hshort : (allWords ts).length ≤ (allWords texts).length := by
    have hperm : (allWords ts).Perm (allWords (texts.filter (HasGroup partition g))) :=
      hts.flatMap_right _
    rw [hperm.length_eq]
    exact (List.filter_sublist.flatMap _).length_le
  have hvalues : argValues store c = some ((setItems (keysOf l (toString g))).flatMap fun name =>
      [utf8 (name ++ session), store (name ++ session)]) := by
    rw [argValues, hargs, haction, groupAction]
    simp [List.flatMap_map, keySessionName]
  rw [reduceCall, if_pos hmade, hvalues, Option.bind_some]
  cases hitems : setItems (keysOf l (toString g)) with
  | nil =>
    -- some text has the group
    obtain ⟨text, htext, hhas⟩ := exists_hasGroup hg
    rw [hitems, List.map_nil] at hcontents
    have hnil := List.map_eq_nil_iff.1 hcontents.nil_eq.symm
    exact absurd (List.mem_filter.2 ⟨htext, by simpa using hhas⟩) (hnil ▸ List.not_mem_nil)
  | cons name names =>
    have hname : ∃ u, name ++ session = toString g ++ ":" ++ u := by
      have hmem : name ∈ (objs.filter fun o => groupOf o.1 = toString g).map Prod.fst := by
        rw [← hnames.mem_iff, hitems]
        exact List.mem_cons_self
      obtain ⟨o, ho, rfl⟩ := List.mem_map.1 hmem
      obtain ⟨ho, hgroup⟩ := List.mem_filter.1 ho
      obtain ⟨g', -, i, -, -, k, hk⟩ := mem_sentFrom hlength hsent ho
      have hgg : groupOf o.1 = toString g := of_decide_eq_true hgroup
      rw [hk, groupOf_toString] at hgg
      exact ⟨uniqueKey i k ++ session, by rw [hk, hgg, String.append_assoc]⟩
    obtain ⟨u, hu⟩ := hname
    rw [hitems] at hmap
    have hreduce := @reduceHandle_eq _ _ _ (fun name => utf8 (name ++ session)) _ _ _ _ hmap
      (fun text htext => hread text (List.mem_filter.1 (hts.mem_iff.1 htext)).1) (by omega)
      (by rwa [hresult])
    rw [hreduce, hresult, hu, groupName_utf8]

/-- The groups of the data are those of the words. -/
theorem PutBy.groupsIn_perm (h : PutBy objs store session l)
    (hsent : sentFrom partition uniqueKey 0 texts = some objs)
    (hlength : (allWords texts).length < 2 ^ 31) :
    (groupsIn l).Perm ((groups partition texts).map toString) := by
  have hnodup : ((groups partition texts).map toString).Nodup :=
    (List.nodup_dedup _).map fun _ _ => toString_inj
  refine (List.perm_ext_iff_of_nodup (List.nodup_dedup _) hnodup).2 fun group => ?_
  have hmem : group ∈ groupsIn l ↔ ∃ o ∈ objs, groupOf o.1 = group := by
    have hkeys : (l.map fun b => groupOf b.key) = (l.map (·.key)).map groupOf := by simp
    rw [groupsIn, List.mem_dedup, hkeys, (h.perm.map groupOf).mem_iff]
    simp
  refine hmem.trans ?_
  rw [List.mem_map]
  constructor
  · rintro ⟨o, ho, rfl⟩
    obtain ⟨g, hg, i, -, -, n, hname⟩ := mem_sentFrom hlength hsent ho
    exact ⟨g, hg, by rw [hname, groupOf_toString]⟩
  · rintro ⟨g, hg, rfl⟩
    obtain ⟨text, htext, hhas⟩ := exists_hasGroup hg
    have hfilter := filter_sentFrom hlength hsent g
    have hne : objs.filter (fun o => groupOf o.1 = toString g) ≠ [] := by
      intro hnil
      rw [hnil, List.map_nil, eq_comm, List.map_eq_nil_iff] at hfilter
      exact absurd (List.mem_filter.2 ⟨htext, by simpa using hhas⟩) (hfilter ▸ List.not_mem_nil)
    obtain ⟨o, ho⟩ := List.exists_mem_of_ne_nil _ hne
    exact ⟨o, (List.mem_filter.1 ho).1, of_decide_eq_true (List.mem_filter.1 ho).2⟩

/-- The calls for the data of all mappers are those of the groups of the words. -/
theorem PutBy.actions_perm (h : PutBy objs store session l)
    (hsent : sentFrom partition uniqueKey 0 texts = some objs)
    (hlength : (allWords texts).length < 2 ^ 31) (function : String) :
    (groupCalls function session l).Perm
      ((groups partition texts).map (groupAction function session l)) := by
  have hperm := (h.groupsIn_perm hsent hlength).map fun group =>
    (⟨function, (setItems (keysOf l group)).map (session, ·)⟩ : TriggerAction)
  rw [List.map_map] at hperm
  exact hperm

/-- A group has a large object, if one of its objects is too large for a message. -/
theorem PutBy.large (h : PutBy objs store session l)
    (hsent : sentFrom partition uniqueKey 0 texts = some objs)
    (hlength : (allWords texts).length < 2 ^ 31) {g : ℕ}
    (hlarge : ∃ o ∈ objs, groupOf o.1 = toString g ∧ msgDataPackingThreshold < o.2.length)
    (function : String) : Bucket.Large store (groupAction function session l g) := by
  obtain ⟨o, ho, hgroup, hsize⟩ := hlarge
  have hmem : o.1 ∈ setItems (keysOf l (toString g)) :=
    (h.setItems_perm (toString g)).mem_iff.2
      (List.mem_map.2 ⟨o, List.mem_filter.2 ⟨ho, by simpa using hgroup⟩, rfl⟩)
  refine ⟨(session, o.1), List.mem_map.2 ⟨o.1, hmem, rfl⟩, ?_⟩
  rintro (hempty | hsmall)
  · obtain ⟨g', -, i, -, -, k, hk⟩ := mem_sentFrom hlength hsent ho
    have hlist := congrArg String.toList hempty
    simp [keySessionName, hk] at hlist
  · rw [keySessionName, h.store o ho] at hsmall
    omega

theorem mapM_of_map_eq {α β γ δ : Type} {f : α → Option β} {h : α → γ} {k : δ → γ} {r : δ → β}
    {l : List α} {m : List δ} (heq : l.map h = m.map k)
    (hf : ∀ a ∈ l, ∀ d ∈ m, h a = k d → f a = some (r d)) : l.mapM f = some (m.map r) := by
  induction l generalizing m with
  | nil =>
    obtain rfl := List.map_eq_nil_iff.1 heq.symm
    rfl
  | cons a l ih =>
    cases m with
    | nil => simp at heq
    | cons d m =>
      rw [List.map_cons, List.map_cons] at heq
      obtain ⟨hone, hrest⟩ := List.cons.inj heq
      have htail : l.mapM f = some (m.map r) := ih hrest fun a ha d hd =>
        hf a (List.mem_cons_of_mem _ ha) d (List.mem_cons_of_mem _ hd)
      rw [List.mapM_cons, hf a List.mem_cons_self d List.mem_cons_self hone, htail]
      rfl

/-! ### The whole job -/

section Run

variable {ι σ : Type} [DecidableEq ι] {t : Trigger} {controlGroup : Finset String}
  {setup : Bucket.Setup σ} {b b' : Bucket ι σ}

omit [DecidableEq ι] in
/-- The framework deploys the trigger so that a call gets the names of its objects. -/
theorem flagged_of_named (hoption : t.triggerOption = 1) {ts : List TriggerObject}
    {st : TriggerState} (h : named t.triggerName ts = [⟨t, st⟩]) :
    Bucket.Flagged t.triggerName 2 ts := by
  intro t' ht' hname
  have hmem : t' ∈ named t.triggerName ts := List.mem_filter.2 ⟨ht', by simpa using hname⟩
  rw [h, List.mem_singleton] at hmem
  rw [hmem, argFlagOf, hoption]
  decide

theorem gives_of_jobs (hoption : t.triggerOption = 1) {coordinator : List TriggerObject}
    {scheduler : ι → List TriggerObject} (hinstalled : Installed t coordinator scheduler) {seed : σ}
    {jobs : List (Job ι)} (hsized : ∀ j ∈ jobs, ∀ e ∈ j.events, Bucket.Sized store e)
    (hjobs : Runs.exec (runJob setup) (.initial (initial coordinator scheduler) seed) jobs =
      some b) : Bucket.Gives store t.triggerName 2 b := by
  have hinitial : Bucket.Gives store t.triggerName 2
      (.initial (initial coordinator scheduler) seed) :=
    .initial (fun _ => rfl) (flagged_of_named hoption hinstalled.coordinator)
      (fun w => flagged_of_named hoption (hinstalled.scheduler w)) seed
  exact Runs.exec_invariant (fun b j b' hj hstep h => h.reset.exec (by decide) hj hstep)
    (Runs.allowed_of_forall hsized _) hjobs hinitial

end Run

/-! ### Two texts -/

/-- A word of `n` letters. -/
def letters (n : ℕ) (c : UInt8) : Bytes := List.replicate n c

/-- Each of the texts has a long word, in another group. -/
def twoTexts : List Bytes :=
  [letters 1100 97 ++ ascii " b " ++ letters 1100 97, letters 1100 98 ++ ascii " c b"]

/-- The parity of the first character. -/
def firstParity (w : Bytes) : ℕ := (w.headD 0).toNat % 2

/-- Two threads of one node. -/
def threadKey (i n : ℕ) : String := genUniqueKey "10.0.0.1" i n

/-- The objects that the two mappers write. -/
def twoObjs : List (String × Bytes) :=
  [("1:10001_1_0", letters 1100 97 ++ ascii ",2;"), ("0:10001_1_1", ascii "b,1;"),
    ("0:10001_2_0", letters 1100 98 ++ ascii ",1;b,1;"), ("1:10001_2_1", ascii "c,1;")]

/-- The session of the job. -/
def twoSession : String := "0000000000000000"

/-- The objects by name and session. -/
def twoStore (name : String) : Bytes :=
  ((twoObjs.map fun o => (o.1 ++ twoSession, o.2)).lookup name).getD []

/-- The second mapper ends first. -/
def twoMappers : Job Bool where
  place key := key = "ctrl:1"
  events :=
    [.updateStatus "10.0.0.1" { availExecutors := 2 },
      .put true "0:10001_2_00000000000000000" 0 (.large 1107) "tcp://10.0.0.1:9000" "",
      .put false "1:10001_1_00000000000000000" 0 (.large 1103) "tcp://10.0.0.1:9000" "",
      .put true "1:10001_2_10000000000000000" 0 (.packed (ascii "c,1;")) "tcp://10.0.0.1:9000" "",
      .notify true 0, .put true "ctrl:10000000000000000" 0 (.packed []) "tcp://10.0.0.1:9000" "",
      .notify true 0, .notify true 0,
      .put false "0:10001_1_10000000000000000" 0 (.packed (ascii "b,1;")) "tcp://10.0.0.1:9000" "",
      .put false "ctrl:00000000000000000" 0 (.packed []) "tcp://10.0.0.1:9000" "",
      .notify false 0, .notify false 0, .notify false 0]

theorem unique_threadKey : Unique threadKey twoTexts.length := by
  intro i hi i' hi' n n' h
  have hthread := ((genUniqueKey_inj (by decide) (by decide) i i' n n').1 h).2.1
  have htwo : twoTexts.length = 2 := rfl
  omega

end Demeter.MapReduce
