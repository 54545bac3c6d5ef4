import Demeter.Common.TriggerObject
import Demeter.Executor.CallMessage

/-!
# The mapper and the reducer

`examples/cpp/map_reduce/mapper_template.cpp` and `reducer_template.cpp` with the functions of
`wc_map.cpp` and `wc_reduce.cpp`, which count words.

* `mapHandle` splits a text into words, combines the equal ones, and writes a record `word,count;`
  for each word into the object of its group;
* `reduceHandle` reads the records of all its objects with `parseChar`, and writes the words in
  their order, each with its count;
* a step that is undefined, such as a sum that is no `int` or a write behind the end of an object,
  gives `none`.

`partition` stands for the hash of the key modulo the number of groups, or the function of the user;
`uniqueKey` for `gen_unique_key`.  An object of which not all bytes are used ends with a NUL.
-/

namespace Demeter.MapReduce

open Demeter.Common Demeter.Common.Trigger
open Demeter.Executor (stoi comma)
open Demeter.Scheduler (Bytes ascii toStringNat)
open GetLine (split)

/-- The character between words. -/
def space : UInt8 := 32

/-- The character `;`, which ends a record. -/
def semicolon : UInt8 := 59

/-- The character `:`, which ends the group in the name of an object. -/
def colon : UInt8 := 58

/-- The size of an object of the mapper. -/
def mapCapacity : ℕ := 4 * 1024 * 1024

/-- The size of the object of the reducer. -/
def reduceCapacity : ℕ := 50 * 1024 * 1024

/-! ### The functions of the job -/

/-- `std::to_string` of an `int`. -/
def toStringInt (n : ℤ) : Bytes :=
  if n < 0 then 45 :: toStringNat n.natAbs else toStringNat n.natAbs

/-- The sum of two numbers of type `int`. -/
def addInt (a b : ℤ) : Option ℤ :=
  if -2 ^ 31 ≤ a + b ∧ a + b < 2 ^ 31 then some (a + b) else none

/-- `map_function` of `wc_map.cpp`: what it emits. -/
def mapFunction (input : Bytes) : List (Bytes × ℤ) := (split space input).map (·, 1)

/-- `reduce_function` of `wc_reduce.cpp`. -/
def reduceFunction (key : Bytes) (values : List ℤ) : Option (Bytes × ℤ) :=
  (values.foldlM addInt 0).map (key, ·)

/-! ### The mapper -/

section Mapper

variable (partition : Bytes → ℕ) (uniqueKey : ℕ → String)

/-- The emitted values of each key. -/
def keyValues (emitted : List (Bytes × ℤ)) : Dict Bytes (List ℤ) :=
  emitted.foldl (fun m e => m.push e.1 e.2) .empty

/-- The record of a key and its combined value. -/
def record (combined : Bytes × ℤ) : Bytes :=
  combined.1 ++ comma :: (toStringInt combined.2 ++ [semicolon])

/-- The objects by group, each with its name and the bytes written so far. -/
abbrev EpheObjs := Dict ℕ (String × Bytes)

/-- The values of a key are combined, and the record is appended to the object of its group, which
is created if it is not there. -/
def addRecord (ephe : EpheObjs) (keyValue : Bytes × List ℤ) : Option EpheObjs :=
  (reduceFunction keyValue.1 keyValue.2).bind fun combined =>
    let reduceId := partition combined.1
    let obj := (ephe.get? reduceId).getD
      (toString reduceId ++ ":" ++ uniqueKey ephe.keys.length, [])
    let text := obj.2 ++ record combined
    if text.length ≤ mapCapacity then some (ephe.set reduceId (obj.1, text)) else none

/-- The objects for all keys of a text. -/
def epheObjs (input : Bytes) : Option EpheObjs :=
  (keyValues (mapFunction input)).entries.foldlM (addRecord partition uniqueKey) .empty

/-- The objects that are sent before the control, with their names. -/
def mapHandle (input : Bytes) : Option (List (String × Bytes)) :=
  (epheObjs partition uniqueKey input).map Dict.values

end Mapper

/-! ### The reducer -/

/-- The key that was read, and what was read since the last record began and since the last value
began. -/
structure ParseState where
  input : Dict Bytes (List ℤ) := .empty
  key : Bytes := []
  sinceKey : Bytes := []
  sinceValue : Bytes := []

/-- A record with an empty key is dropped; one without a value removes those before it. -/
def addParsed (m : Dict Bytes (List ℤ)) (key value : Bytes) : Option (Dict Bytes (List ℤ)) :=
  if key = [] then some m
  else if value = [] then some (m.set key [])
  else (stoi value).map (m.push key ·)

/-- A comma ends the key and a semicolon the record; a value begins after either. -/
def parseChar (s : ParseState) (c : UInt8) : Option ParseState :=
  if c = comma then
    some { s with key := s.sinceKey, sinceKey := s.sinceKey ++ [c], sinceValue := [] }
  else if c = semicolon then
    (addParsed s.input s.key s.sinceValue).map fun m =>
      { input := m, key := [], sinceKey := [], sinceValue := s.sinceValue ++ [c] }
  else some { s with sinceKey := s.sinceKey ++ [c], sinceValue := s.sinceValue ++ [c] }

/-- An object is read up to its first NUL. -/
def parseObject (m : Dict Bytes (List ℤ)) (text : Bytes) : Option (Dict Bytes (List ℤ)) :=
  ((text.takeWhile (· ≠ 0)).foldlM parseChar { input := m }).map (·.input)

/-- The order of a `std::map` by key. -/
def keyLe (e e' : Bytes × List ℤ) : Prop := e.1.map UInt8.toNat ≤ e'.1.map UInt8.toNat

instance keyLe.decidable : DecidableRel keyLe := fun e e' =>
  inferInstanceAs (Decidable (e.1.map UInt8.toNat ≤ e'.1.map UInt8.toNat))

/-- A key and the value that its values are combined to are appended to the object. -/
def writeResult (text : Bytes) (keyValue : Bytes × List ℤ) : Option Bytes :=
  (reduceFunction keyValue.1 keyValue.2).bind fun output =>
    let text := text ++ output.1 ++ toStringInt output.2
    if text.length ≤ reduceCapacity then some text else none

/-- Every second argument, from the second on. -/
def objectArgs : List Bytes → List Bytes
  | _ :: obj :: args => obj :: objectArgs args
  | [_] | [] => []

/-- The group of an object name, which is a C string. -/
def groupName (name : Bytes) : Bytes := (name.takeWhile (· ≠ 0)).takeWhile (· ≠ colon)

/-- `handle` of the reducer takes an even number of arguments: the names of objects, each with its
object.  The result is the name of an object of the key-value store and its text. -/
def reduceHandle (args : List Bytes) : Option (Bytes × Bytes) :=
  if args.length % 2 ≠ 0 then none
  else
    match args with
    | [] => none
    | keyName :: _ => do
        let reduceInput ← (objectArgs args).foldlM parseObject .empty
        let text ← (reduceInput.entries.insertionSort keyLe).foldlM writeResult []
        some (ascii "reduce" ++ groupName keyName, text)

/-! ### Printed numbers -/

theorem mem_toStringInt {n : ℤ} {c : UInt8} (hc : c ∈ toStringInt n) :
    c = 45 ∨ 48 ≤ c ∧ c ≤ 57 := by
  rw [toStringInt] at hc
  split_ifs at hc
  · exact (List.mem_cons.1 hc).imp id Demeter.Executor.mem_toStringNat
  · exact .inr (Demeter.Executor.mem_toStringNat hc)

theorem toStringInt_ne_nil (n : ℤ) : toStringInt n ≠ [] := by
  rw [toStringInt]
  split_ifs
  · exact List.cons_ne_nil _ _
  · exact Demeter.Executor.toStringNat_ne_nil _

theorem toStringInt_natCast (n : ℕ) : toStringInt n = toStringNat n := by
  rw [toStringInt, if_neg (by omega), Int.natAbs_natCast]

/-- Every `int` is read back as it was printed. -/
theorem stoi_toStringInt {n : ℤ} (hlow : -2 ^ 31 ≤ n) (hhigh : n < 2 ^ 31) :
    stoi (toStringInt n) = some n := by
  rw [toStringInt]
  split_ifs with hneg
  · have hdigits : (toStringNat n.natAbs).takeWhile (fun c => decide (48 ≤ c ∧ c ≤ 57)) =
        toStringNat n.natAbs :=
      List.takeWhile_eq_self_iff.2 fun c hc =>
        decide_eq_true (Demeter.Executor.mem_toStringNat hc)
    simp only [stoi]
    rw [List.dropWhile_cons_of_neg (by simp)]
    simp only [hdigits, Demeter.Executor.foldl_toStringNat, if_true]
    rw [if_neg]
    · congr 1
      omega
    · simp only [Demeter.Executor.toStringNat_ne_nil, false_or]
      omega
  · rw [Demeter.Executor.stoi_toStringNat, if_pos (by omega)]
    congr 1
    omega

/-! ### Records -/

/-- What the reducer takes of a record: nothing, if the key is empty. -/
def addEntry (m : Dict Bytes (List ℤ)) (e : Bytes × ℤ) : Dict Bytes (List ℤ) :=
  if e.1 = [] then m else m.push e.1 e.2

/-- Text without the end of a record is only remembered. -/
theorem foldlM_parseChar_text {text : Bytes} (h : semicolon ∉ text) (s : ParseState) :
    ∃ key value, text.foldlM parseChar s = some ⟨s.input, key, s.sinceKey ++ text, value⟩ := by
  induction text generalizing s with
  | nil => exact ⟨s.key, s.sinceValue, by simp⟩
  | cons c text ih =>
    obtain ⟨hc, htext⟩ := not_or.1 (mt List.mem_cons.2 h)
    obtain ⟨s', hs', hinput, hsince⟩ : ∃ s', parseChar s c = some s' ∧ s'.input = s.input ∧
        s'.sinceKey = s.sinceKey ++ [c] := by
      rw [parseChar, if_neg (Ne.symm hc)]
      split_ifs <;> exact ⟨_, rfl, rfl, rfl⟩
    obtain ⟨key, value, hfold⟩ := ih htext s'
    refine ⟨key, value, ?_⟩
    rw [List.foldlM_cons, hs', Option.bind_eq_bind, Option.bind_some, hfold, hinput, hsince,
      List.append_assoc, List.singleton_append]

/-- A value does not change the key. -/
theorem foldlM_parseChar_value {text : Bytes} (hcomma : comma ∉ text) (h : semicolon ∉ text)
    (s : ParseState) : text.foldlM parseChar s =
      some ⟨s.input, s.key, s.sinceKey ++ text, s.sinceValue ++ text⟩ := by
  induction text generalizing s with
  | nil => simp
  | cons c text ih =>
    obtain ⟨hc, htext⟩ := not_or.1 (mt List.mem_cons.2 h)
    obtain ⟨hc', htext'⟩ := not_or.1 (mt List.mem_cons.2 hcomma)
    rw [List.foldlM_cons, parseChar, if_neg (Ne.symm hc'), if_neg (Ne.symm hc), Option.bind_eq_bind,
      Option.bind_some, ih htext' htext]
    simp

theorem notMem_toStringInt {c : UInt8} (hc : c ≠ 45) (hdigit : ¬ (48 ≤ c ∧ c ≤ 57)) (n : ℤ) :
    c ∉ toStringInt n := fun h => (mem_toStringInt h).elim hc hdigit

theorem addParsed_toStringInt {e : Bytes × ℤ} (hlow : -2 ^ 31 ≤ e.2) (hhigh : e.2 < 2 ^ 31)
    (m : Dict Bytes (List ℤ)) : addParsed m e.1 (toStringInt e.2) = some (addEntry m e) := by
  rw [addParsed, addEntry, if_neg (toStringInt_ne_nil e.2), stoi_toStringInt hlow hhigh]
  split_ifs <;> rfl

/-- A record whose key has no semicolon is read as it was written; a comma in the key is kept. -/
theorem foldlM_parseChar_record {e : Bytes × ℤ} (hkey : semicolon ∉ e.1) (hlow : -2 ^ 31 ≤ e.2)
    (hhigh : e.2 < 2 ^ 31) (m : Dict Bytes (List ℤ)) (v : Bytes) :
    ∃ v', (record e).foldlM parseChar ⟨m, [], [], v⟩ = some ⟨addEntry m e, [], [], v'⟩ := by
  obtain ⟨key, value, htext⟩ := foldlM_parseChar_text hkey ⟨m, [], [], v⟩
  have hvalue := foldlM_parseChar_value
    (notMem_toStringInt (c := comma) (by decide) (by decide) e.2)
    (notMem_toStringInt (c := semicolon) (by decide) (by decide) e.2)
    ⟨m, e.1, e.1 ++ [comma], []⟩
  refine ⟨toStringInt e.2 ++ [semicolon], ?_⟩
  rw [record, List.foldlM_append, htext, Option.bind_eq_bind, Option.bind_some, List.foldlM_cons,
    parseChar, if_pos rfl, Option.bind_eq_bind, Option.bind_some, List.foldlM_append,
    List.nil_append, hvalue, Option.bind_eq_bind, Option.bind_some, List.foldlM_cons, parseChar,
    if_neg (by decide : semicolon ≠ comma), if_pos rfl, List.nil_append,
    addParsed_toStringInt hlow hhigh]
  rfl

theorem foldlM_parseChar_records {es : List (Bytes × ℤ)} (hkeys : ∀ e ∈ es, semicolon ∉ e.1)
    (hrange : ∀ e ∈ es, -2 ^ 31 ≤ e.2 ∧ e.2 < 2 ^ 31) (m : Dict Bytes (List ℤ)) (v : Bytes) :
    ∃ v', (es.flatMap record).foldlM parseChar ⟨m, [], [], v⟩ =
      some ⟨es.foldl addEntry m, [], [], v'⟩ := by
  induction es generalizing m v with
  | nil => exact ⟨v, rfl⟩
  | cons e es ih =>
    have he := hrange e List.mem_cons_self
    obtain ⟨v₁, hrecord⟩ :=
      foldlM_parseChar_record (hkeys e List.mem_cons_self) he.1 he.2 m v
    obtain ⟨v₂, hrest⟩ := ih (fun e' he' => hkeys e' (List.mem_cons_of_mem e he'))
      (fun e' he' => hrange e' (List.mem_cons_of_mem e he')) (addEntry m e) v₁
    refine ⟨v₂, ?_⟩
    rw [List.flatMap_cons, List.foldlM_append, hrecord, Option.bind_eq_bind, Option.bind_some,
      hrest, List.foldl_cons]

theorem zero_notMem_records {es : List (Bytes × ℤ)} (h : ∀ e ∈ es, 0 ∉ e.1) :
    0 ∉ es.flatMap record := by
  intro hmem
  obtain ⟨e, he, hmem⟩ := List.mem_flatMap.1 hmem
  have hvalue := notMem_toStringInt (c := 0) (by decide) (by decide) e.2
  simp only [record, List.mem_append, List.mem_cons, List.not_mem_nil, or_false] at hmem
  obtain hkey | hcomma | hnum | hsemi := hmem
  · exact h e he hkey
  · exact absurd hcomma (by decide)
  · exact hvalue hnum
  · exact absurd hsemi (by decide)

theorem parseObject_records {es : List (Bytes × ℤ)} (hkeys : ∀ e ∈ es, semicolon ∉ e.1 ∧ 0 ∉ e.1)
    (hrange : ∀ e ∈ es, -2 ^ 31 ≤ e.2 ∧ e.2 < 2 ^ 31) (m : Dict Bytes (List ℤ)) :
    parseObject m (es.flatMap record) = some (es.foldl addEntry m) := by
  have hzero := zero_notMem_records fun e he => (hkeys e he).2
  obtain ⟨v, hfold⟩ := foldlM_parseChar_records (fun e he => (hkeys e he).1) hrange m []
  rw [parseObject, List.takeWhile_eq_self_iff.2 fun c hc => decide_eq_true ?_, hfold]
  · rfl
  · rintro rfl
    exact hzero hc

theorem foldl_addEntry (es : List (Bytes × ℤ)) (m : Dict Bytes (List ℤ)) :
    es.foldl addEntry m = (es.filter (·.1 ≠ [])).foldl (fun m e => m.push e.1 e.2) m := by
  rw [List.foldl_filter]
  congr 1
  funext m e
  by_cases he : e.1 = [] <;> simp [addEntry, he]

/-- A text that a key can be. -/
def Readable (text : Bytes) : Prop := semicolon ∉ text ∧ 0 ∉ text

/-- The invariant of reading: all keys can be keys, and none is empty. -/
structure ReadsKeys (s : ParseState) : Prop where
  input : ∀ key ∈ s.input.keys, Readable key ∧ key ≠ []
  key : Readable s.key
  sinceKey : Readable s.sinceKey

theorem ReadsKeys.step {s s' : ParseState} (h : ReadsKeys s) {c : UInt8} (hc : c ≠ 0)
    (hstep : parseChar s c = some s') : ReadsKeys s' := by
  have hsince : c ≠ semicolon → Readable (s.sinceKey ++ [c]) := by
    intro hne
    obtain ⟨hsemi, hzero⟩ := h.sinceKey
    exact ⟨by simp [hsemi, Ne.symm hne], by simp [hzero, Ne.symm hc]⟩
  have hnil : Readable [] := ⟨List.not_mem_nil, List.not_mem_nil⟩
  rw [parseChar] at hstep
  split_ifs at hstep with hcomma hsemi
  · obtain rfl := Option.some.inj hstep
    exact ⟨h.input, h.sinceKey, hsince (by rw [hcomma]; decide)⟩
  · obtain ⟨m, hm, rfl⟩ := Option.map_eq_some_iff.1 hstep
    refine ⟨fun key hkey => ?_, hnil, hnil⟩
    have hset : ∀ values, s.key ≠ [] → key ∈ (s.input.set s.key values).keys →
        Readable key ∧ key ≠ [] := fun values hne hk =>
      (Dict.mem_keys_set.1 hk).elim (fun heq => heq ▸ ⟨h.key, hne⟩) (h.input key)
    rw [addParsed] at hm
    split_ifs at hm with hempty
    · exact h.input key (Option.some.inj hm ▸ hkey)
    · exact hset _ hempty (Option.some.inj hm ▸ hkey)
    · obtain ⟨n, -, rfl⟩ := Option.map_eq_some_iff.1 hm
      exact hset _ hempty hkey
  · obtain rfl := Option.some.inj hstep
    exact ⟨h.input, h.key, hsince hsemi⟩

theorem ReadsKeys.foldlM {s s' : ParseState} (h : ReadsKeys s) {text : Bytes} (hzero : 0 ∉ text)
    (hfold : text.foldlM parseChar s = some s') : ReadsKeys s' := by
  induction text generalizing s with
  | nil => exact Option.some.inj hfold ▸ h
  | cons c text ih =>
    obtain ⟨hc, htext⟩ := not_or.1 (mt List.mem_cons.2 hzero)
    rw [List.foldlM_cons] at hfold
    obtain ⟨s₁, hs₁, hrest⟩ := Option.bind_eq_some_iff.1 hfold
    exact ih (h.step (Ne.symm hc) hs₁) htext hrest

/-- **The reducer reads the records of an object as the mapper wrote them, for all keys with commas
and for all numbers, exactly when no key is empty or has a semicolon or a NUL.** -/
theorem parseObject_records_iff {es : List (Bytes × ℤ)}
    (hrange : ∀ e ∈ es, -2 ^ 31 ≤ e.2 ∧ e.2 < 2 ^ 31) :
    parseObject .empty (es.flatMap record) = some (keyValues es) ↔
      ∀ e ∈ es, Readable e.1 ∧ e.1 ≠ [] := by
  constructor
  · intro hparse e he
    obtain ⟨s, hs, hinput⟩ := Option.map_eq_some_iff.1 hparse
    have hstart : ReadsKeys { input := .empty } :=
      ⟨by simp [Dict.keys, Dict.empty], ⟨List.not_mem_nil, List.not_mem_nil⟩,
        ⟨List.not_mem_nil, List.not_mem_nil⟩⟩
    have hreads : ReadsKeys s := hstart.foldlM
      (fun hzero => by simpa using List.mem_takeWhile_imp hzero) hs
    refine hreads.input e.1 ?_
    rw [hinput, keyValues, Dict.mem_keys_foldl_push]
    exact .inr (List.mem_map.2 ⟨e, he, rfl⟩)
  · intro hkeys
    have hall : es.filter (·.1 ≠ []) = es :=
      List.filter_eq_self.2 fun e he => decide_eq_true (hkeys e he).2
    rw [parseObject_records (fun e he => (hkeys e he).1) hrange, foldl_addEntry, hall, keyValues]

/-- A comma in a key, a negative number, and a key that occurs twice. -/
theorem parseObject_commas :
    parseObject .empty ([(ascii "a,b", -7), (ascii "c", 12), (ascii "a,b", 3)].flatMap record) =
        some (keyValues [(ascii "a,b", -7), (ascii "c", 12), (ascii "a,b", 3)]) ∧
      (keyValues [(ascii "a,b", -7), (ascii "c", 12), (ascii "a,b", 3)]).entries =
        [(ascii "a,b", [-7, 3]), (ascii "c", [12])] := by
  refine ⟨(parseObject_records_iff (by decide)).2 ?_, by decide⟩
  unfold Readable
  decide

/-! ### Counting words -/

/-- The words of a text, with repetitions. -/
def words (text : Bytes) : List Bytes := split space text

/-- The record of a word. -/
def countOf (text word : Bytes) : Bytes × ℤ := (word, (words text).count word)

/-- The words of a text, each once, in the order in which the mapper visits them. -/
def distinctWords (text : Bytes) : List Bytes := (keyValues (mapFunction text)).keys

theorem mem_distinctWords {text word : Bytes} : word ∈ distinctWords text ↔ word ∈ words text := by
  rw [distinctWords, keyValues, Dict.mem_keys_foldl_push]
  simp [Dict.keys, Dict.empty, mapFunction, words]

theorem nodup_distinctWords (text : Bytes) : (distinctWords text).Nodup :=
  (keyValues (mapFunction text)).nodup

theorem entries_keyValues (text : Bytes) :
    (keyValues (mapFunction text)).entries =
      (distinctWords text).map fun word => (word, List.replicate ((words text).count word) 1) := by
  refine Dict.entries_eq_map fun word hword => ?_
  have hmem : word ∈ (mapFunction text).map Prod.fst := by
    simpa [mapFunction, Function.comp_def, words] using mem_distinctWords.1 hword
  have hvalues : ((mapFunction text).filter (·.1 = word)).map Prod.snd =
      List.replicate ((words text).count word) 1 := by
    rw [mapFunction, List.filter_map, List.map_map, List.eq_replicate_iff]
    constructor
    · rw [List.length_map, List.count_eq_countP, List.countP_eq_length_filter]
      refine congrArg List.length (List.filter_congr fun w _ => ?_)
      rw [Bool.eq_iff_iff, beq_iff_eq]
      exact decide_eq_true_iff
    · simp
  rw [keyValues, Dict.get?_foldl_push, if_pos hmem, Dict.get?_empty, hvalues]
  rfl

theorem foldlM_addInt {ns : List ℕ} {a : ℕ} (h : a + ns.sum < 2 ^ 31) :
    (ns.map Nat.cast).foldlM addInt (a : ℤ) = some ((a + ns.sum : ℕ) : ℤ) := by
  induction ns generalizing a with
  | nil => simp
  | cons n ns ih =>
    rw [List.sum_cons] at h
    have hstep : addInt a n = some ((a + n : ℕ) : ℤ) := by
      rw [addInt, if_pos (by omega), Nat.cast_add]
    rw [List.map_cons, List.foldlM_cons, hstep, Option.bind_eq_bind, Option.bind_some,
      ih (by omega), List.sum_cons, Nat.add_assoc]

theorem reduceFunction_cast {ns : List ℕ} (h : ns.sum < 2 ^ 31) (key : Bytes) :
    reduceFunction key (ns.map Nat.cast) = some (key, (ns.sum : ℤ)) := by
  have hsum := foldlM_addInt (a := 0) (by rwa [Nat.zero_add])
  rw [Nat.zero_add] at hsum
  rw [reduceFunction, ← Nat.cast_zero, hsum]
  rfl

/-! ### The objects of a text -/

section Mapper

variable (partition : Bytes → ℕ)

/-- The words of a group in a text, with their counts. -/
def groupCounts (g : ℕ) (text : Bytes) : List (Bytes × ℤ) :=
  ((distinctWords text).filter (partition · = g)).map (countOf text)

variable {partition} {uniqueKey : ℕ → String} {text : Bytes}

/-- What the objects have after some words. -/
structure Written (partition : Bytes → ℕ) (uniqueKey : ℕ → String) (text : Bytes) (ws : List Bytes)
    (ephe : EpheObjs) : Prop where
  keys : ∀ g, g ∈ ephe.keys ↔ ∃ w ∈ ws, partition w = g
  object : ∀ g obj, ephe.get? g = some obj →
    (∃ i, obj.1 = toString g ++ ":" ++ uniqueKey i) ∧
      obj.2 = ((ws.filter (partition · = g)).map (countOf text)).flatMap record

theorem Written.step {ws : List Bytes} {ephe ephe' : EpheObjs} {w : Bytes}
    (h : Written partition uniqueKey text ws ephe) (hcount : (words text).count w < 2 ^ 31)
    (hstep : addRecord partition uniqueKey ephe (w, List.replicate ((words text).count w) 1) =
      some ephe') : Written partition uniqueKey text (ws ++ [w]) ephe' := by
  have hones : List.replicate ((words text).count w) (1 : ℤ) =
      (List.replicate ((words text).count w) 1).map Nat.cast := by simp
  have hsum : (List.replicate ((words text).count w) 1).sum < 2 ^ 31 := by simpa using hcount
  have hreduce := reduceFunction_cast hsum w
  rw [addRecord, hones, hreduce, Option.bind_some] at hstep
  simp only [List.sum_replicate, smul_eq_mul, mul_one, Option.ite_none_right_eq_some,
    Option.some.injEq] at hstep
  obtain ⟨-, rfl⟩ := hstep
  refine ⟨fun g => ?_, fun g obj hobj => ?_⟩
  · rw [Dict.mem_keys_set, h.keys]
    simp [or_comm, eq_comm, or_and_right, exists_or]
  · rw [Dict.get?_set] at hobj
    split_ifs at hobj with hg
    · obtain rfl := Option.some.inj hobj
      subst hg
      cases hget : ephe.get? (partition w) with
      | some old =>
        obtain ⟨hname, htext⟩ := h.object _ old hget
        refine ⟨hname, ?_⟩
        simp [htext, countOf]
      | none =>
        -- the first word of its group
        have hnew : ws.filter (partition · = partition w) = [] := by
          refine List.filter_eq_nil_iff.2 fun v hv heq => ?_
          refine Dict.get?_eq_none_iff.1 hget ((h.keys _).2 ⟨v, hv, of_decide_eq_true heq⟩)
        refine ⟨⟨_, rfl⟩, ?_⟩
        simp [hnew, countOf]
    · obtain ⟨hname, htext⟩ := h.object g obj hobj
      refine ⟨hname, ?_⟩
      rw [htext, List.filter_append, List.filter_cons_of_neg (by simpa using Ne.symm hg),
        List.filter_nil, List.append_nil]

theorem Written.foldlM {ws ws' : List Bytes} {ephe ephe' : EpheObjs}
    (h : Written partition uniqueKey text ws ephe)
    (hcount : ∀ w ∈ ws', (words text).count w < 2 ^ 31)
    (hfold : (ws'.map fun w => (w, List.replicate ((words text).count w) 1)).foldlM
      (addRecord partition uniqueKey) ephe = some ephe') :
    Written partition uniqueKey text (ws ++ ws') ephe' := by
  induction ws' generalizing ws ephe with
  | nil =>
    obtain rfl := Option.some.inj hfold
    rwa [List.append_nil]
  | cons w ws' ih =>
    rw [List.map_cons, List.foldlM_cons] at hfold
    obtain ⟨ephe₁, hstep, hrest⟩ := Option.bind_eq_some_iff.1 hfold
    have hnext := ih (h.step (hcount w List.mem_cons_self) hstep)
      (fun v hv => hcount v (List.mem_cons_of_mem w hv)) hrest
    rwa [List.append_assoc, List.singleton_append] at hnext

/-- The mapper sends one object for each group of its words, with the records of the group. -/
theorem mapHandle_eq_some {objs : List (String × Bytes)} (hlength : (words text).length < 2 ^ 31)
    (h : mapHandle partition uniqueKey text = some objs) :
    ∃ (gs : List ℕ) (name : ℕ → String), gs.Nodup ∧
      (∀ g, g ∈ gs ↔ ∃ w ∈ words text, partition w = g) ∧
      (∀ g ∈ gs, ∃ i, name g = toString g ++ ":" ++ uniqueKey i) ∧
      objs = gs.map fun g => (name g, (groupCounts partition g text).flatMap record) := by
  obtain ⟨ephe, hephe, rfl⟩ := Option.map_eq_some_iff.1 h
  rw [epheObjs, entries_keyValues] at hephe
  have hempty : Written partition uniqueKey text [] .empty :=
    ⟨fun g => by simp [Dict.keys, Dict.empty], fun g obj hobj => by cases hobj⟩
  have hwritten := hempty.foldlM
    (fun w _ => lt_of_le_of_lt List.count_le_length hlength) hephe
  rw [List.nil_append] at hwritten
  refine ⟨ephe.keys, fun g => ((ephe.get? g).getD default).1, ephe.nodup, fun g => ?_,
    fun g hg => ?_, Dict.values_eq_map fun g hg => ?_⟩
  · simp only [hwritten.keys, mem_distinctWords]
  · obtain ⟨obj, hobj⟩ := Dict.mem_keys_iff.1 hg
    simpa only [hobj, Option.getD_some] using (hwritten.object g obj hobj).1
  · obtain ⟨obj, hobj⟩ := Dict.mem_keys_iff.1 hg
    simp only [hobj, Option.getD_some, groupCounts]
    rw [← (hwritten.object g obj hobj).2]

end Mapper

/-! ### The result of a group -/

section Reducer

variable (partition : Bytes → ℕ) (g : ℕ)

/-- The order in which the reducer visits the words. -/
def wordLe (w w' : Bytes) : Prop := w.map UInt8.toNat ≤ w'.map UInt8.toNat

instance wordLe.decidable : DecidableRel wordLe := fun w w' =>
  inferInstanceAs (Decidable (w.map UInt8.toNat ≤ w'.map UInt8.toNat))

instance wordLe.total : Std.Total wordLe := ⟨fun w _ => le_total (w.map UInt8.toNat) _⟩

instance wordLe.trans : IsTrans Bytes wordLe := ⟨fun _ _ _ h h' => le_trans h h'⟩

theorem wordLe_antisymm {w w' : Bytes} (h : wordLe w w') (h' : wordLe w' w) : w = w' :=
  List.map_injective_iff.2 (fun _ _ => UInt8.toNat_inj.1) (le_antisymm h h')

/-- The words of all texts. -/
def allWords (texts : List Bytes) : List Bytes := texts.flatMap words

/-- The words of a group, in their order. -/
def resultWords (texts : List Bytes) : List Bytes :=
  ((allWords texts).dedup.filter fun w => w ≠ [] ∧ partition w = g).insertionSort wordLe

/-- The words of a group, each with the number of its occurrences in all texts. -/
def resultText (texts : List Bytes) : Bytes :=
  (resultWords partition g texts).flatMap fun w =>
    w ++ toStringNat ((allWords texts).count w)

variable {partition g}

/-- The order of the texts does not matter. -/
theorem resultText_perm {texts texts' : List Bytes} (h : texts.Perm texts') :
    resultText partition g texts = resultText partition g texts' := by
  have hwords : (allWords texts).Perm (allWords texts') := h.flatMap_right _
  have hresult : resultWords partition g texts = resultWords partition g texts' := by
    refine List.Perm.eq_of_pairwise (fun _ _ _ _ => wordLe_antisymm)
      (List.pairwise_insertionSort wordLe _) (List.pairwise_insertionSort wordLe _) ?_
    exact (List.perm_insertionSort _ _).trans
      ((hwords.dedup.filter _).trans (List.perm_insertionSort _ _).symm)
  simp only [resultText, hresult, hwords.count_eq]

/-- What the reducer reads. -/
def readCounts (partition : Bytes → ℕ) (g : ℕ) (texts : List Bytes) : Dict Bytes (List ℤ) :=
  (texts.flatMap (groupCounts partition g)).foldl addEntry .empty

theorem mem_groupCounts {text : Bytes} {e : Bytes × ℤ} :
    e ∈ groupCounts partition g text ↔
      e.1 ∈ words text ∧ partition e.1 = g ∧ e = countOf text e.1 := by
  simp only [groupCounts, List.mem_map, List.mem_filter, mem_distinctWords, decide_eq_true_eq]
  constructor
  · rintro ⟨w, ⟨hw, hg⟩, rfl⟩
    exact ⟨hw, hg, rfl⟩
  · rintro ⟨hw, hg, he⟩
    exact ⟨e.1, ⟨hw, hg⟩, he.symm⟩

theorem parse_texts {texts : List Bytes} (hread : ∀ text ∈ texts, Readable text)
    (hlength : (allWords texts).length < 2 ^ 31) :
    (texts.map fun text => (groupCounts partition g text).flatMap record).foldlM parseObject
        .empty = some (readCounts partition g texts) := by
  unfold readCounts
  generalize (Dict.empty : Dict Bytes (List ℤ)) = m
  induction texts generalizing m with
  | nil => rfl
  | cons text texts ih =>
    rw [allWords, List.flatMap_cons, List.length_append] at hlength
    have hparse : parseObject m ((groupCounts partition g text).flatMap record) =
        some ((groupCounts partition g text).foldl addEntry m) := by
      refine parseObject_records (fun e he => ?_) (fun e he => ?_) m
      · -- a word has no other bytes than its text
        obtain ⟨hsemi, hzero⟩ := hread text List.mem_cons_self
        have hsub := (GetLine.mem_split (mem_groupCounts.1 he).1).2
        exact ⟨fun h => hsemi (hsub _ h), fun h => hzero (hsub _ h)⟩
      · have hcount : (words text).count e.1 ≤ (words text).length := List.count_le_length
        rw [(mem_groupCounts.1 he).2.2, countOf]
        constructor <;> push_cast <;> omega
    rw [List.map_cons, List.foldlM_cons, hparse, Option.bind_eq_bind, Option.bind_some,
      ih (fun t ht => hread t (List.mem_cons_of_mem text ht)) (by rw [allWords]; omega),
      List.flatMap_cons, List.foldl_append]

theorem mem_keys_readCounts {texts : List Bytes} {w : Bytes} :
    w ∈ (readCounts partition g texts).keys ↔ w ∈ allWords texts ∧ w ≠ [] ∧ partition w = g := by
  rw [readCounts, foldl_addEntry, Dict.mem_keys_foldl_push]
  simp only [Dict.keys, Dict.empty, List.map_nil, List.not_mem_nil, false_or, List.mem_map,
    List.mem_filter, List.mem_flatMap, mem_groupCounts, decide_eq_true_eq, allWords]
  constructor
  · rintro ⟨e, ⟨⟨text, htext, hw, hg, -⟩, hne⟩, rfl⟩
    exact ⟨⟨text, htext, hw⟩, hne, hg⟩
  · rintro ⟨⟨text, htext, hw⟩, hne, hg⟩
    exact ⟨countOf text w, ⟨⟨text, htext, hw, hg, rfl⟩, hne⟩, rfl⟩

/-- The counts of a word in the texts that have it. -/
def countsOf (texts : List Bytes) (w : Bytes) : List ℕ :=
  texts.flatMap fun text =>
    if (words text).count w = 0 then [] else [(words text).count w]

theorem sum_countsOf (texts : List Bytes) (w : Bytes) :
    (countsOf texts w).sum = (allWords texts).count w := by
  induction texts with
  | nil => rfl
  | cons text texts ih =>
    have happ : allWords (text :: texts) = words text ++ allWords texts := List.flatMap_cons
    rw [countsOf, List.flatMap_cons, List.sum_append, ← countsOf, ih, happ, List.count_append]
    split_ifs with hw
    · rw [hw, List.sum_nil]
    · rw [List.sum_singleton]

theorem filter_groupCounts {w : Bytes} (hw : partition w = g) (text : Bytes) :
    (groupCounts partition g text).filter (·.1 = w) =
      if w ∈ words text then [countOf text w] else [] := by
  have hcomp : (fun e : Bytes × ℤ => decide (e.1 = w)) ∘ countOf text = fun v => decide (v = w) :=
    rfl
  rw [groupCounts, List.filter_map, hcomp, List.filter_eq, List.map_replicate]
  split_ifs with hmem
  · have hone : ((distinctWords text).filter (partition · = g)).count w = 1 :=
      List.count_eq_one_of_mem ((nodup_distinctWords text).filter _)
        (List.mem_filter.2 ⟨mem_distinctWords.2 hmem, decide_eq_true hw⟩)
    rw [hone, List.replicate_one]
  · have hzero : ((distinctWords text).filter (partition · = g)).count w = 0 :=
      List.count_eq_zero.2 fun h => hmem (mem_distinctWords.1 (List.mem_filter.1 h).1)
    rw [hzero, List.replicate_zero]

theorem get?_readCounts {texts : List Bytes} {w : Bytes}
    (hw : w ∈ (readCounts partition g texts).keys) :
    (readCounts partition g texts).get? w = some ((countsOf texts w).map Nat.cast) := by
  obtain ⟨hmem, hne, hg⟩ := mem_keys_readCounts.1 hw
  have hkeys : w ∈ ((texts.flatMap (groupCounts partition g)).filter (·.1 ≠ [])).map Prod.fst := by
    rw [readCounts, foldl_addEntry, Dict.mem_keys_foldl_push] at hw
    exact hw.resolve_left (by simp [Dict.keys, Dict.empty])
  have hvalues : ((texts.flatMap (groupCounts partition g)).filter (·.1 = w)).map Prod.snd =
      (countsOf texts w).map Nat.cast := by
    rw [List.filter_flatMap, List.map_flatMap, countsOf, List.map_flatMap]
    congr 1
    funext text
    rw [filter_groupCounts hg]
    by_cases hw : w ∈ words text
    · rw [if_pos hw, if_neg (List.count_pos_iff.2 hw).ne']
      rfl
    · rw [if_neg hw, if_pos (List.count_eq_zero.2 hw)]
      rfl
  have hfilter : ((texts.flatMap (groupCounts partition g)).filter (·.1 ≠ [])).filter (·.1 = w) =
      (texts.flatMap (groupCounts partition g)).filter (·.1 = w) := by
    rw [List.filter_filter]
    refine List.filter_congr fun e _ => ?_
    by_cases he : e.1 = w
    · simp [he, hne]
    · simp [he]
  rw [readCounts, foldl_addEntry, Dict.get?_foldl_push, if_pos hkeys, hfilter, hvalues]
  rfl

/-- The reducer goes through the words of the group in their order. -/
theorem sorted_readCounts (texts : List Bytes) :
    (readCounts partition g texts).entries.insertionSort keyLe =
      (resultWords partition g texts).map fun w => (w, (countsOf texts w).map Nat.cast) := by
  have hperm : (readCounts partition g texts).keys.Perm
      ((allWords texts).dedup.filter fun w => w ≠ [] ∧ partition w = g) := by
    refine (List.perm_ext_iff_of_nodup (readCounts partition g texts).nodup
      ((List.nodup_dedup _).filter _)).2 fun w => ?_
    have hmem : w ∈ (readCounts partition g texts).keys ↔
        w ∈ allWords texts ∧ w ≠ [] ∧ partition w = g := mem_keys_readCounts
    rw [Dict.keys] at hmem
    simp [hmem]
  have hsort : (readCounts partition g texts).keys.insertionSort wordLe =
      resultWords partition g texts :=
    List.Perm.eq_of_pairwise (fun _ _ _ _ => wordLe_antisymm) (List.pairwise_insertionSort _ _)
      (List.pairwise_insertionSort _ _)
      ((List.perm_insertionSort _ _).trans (hperm.trans (List.perm_insertionSort _ _).symm))
  have hentries : (readCounts partition g texts).entries =
      (readCounts partition g texts).keys.map fun w => (w, (countsOf texts w).map Nat.cast) :=
    Dict.entries_eq_map fun w hw => get?_readCounts hw
  rw [← hsort, hentries]
  exact (List.map_insertionSort wordLe keyLe _ _ fun _ _ _ _ => Iff.rfl).symm

theorem foldlM_writeResult {texts ws : List Bytes} (hlength : (allWords texts).length < 2 ^ 31)
    {text : Bytes}
    (hcapacity : (text ++ ws.flatMap fun w =>
      w ++ toStringNat ((allWords texts).count w)).length ≤ reduceCapacity) :
    (ws.map fun w => (w, (countsOf texts w).map Nat.cast)).foldlM writeResult text =
      some (text ++ ws.flatMap fun w => w ++ toStringNat ((allWords texts).count w)) := by
  induction ws generalizing text with
  | nil => simp
  | cons w ws ih =>
    have hcount : (countsOf texts w).sum < 2 ^ 31 := by
      rw [sum_countsOf]
      exact lt_of_le_of_lt List.count_le_length hlength
    rw [List.flatMap_cons, ← List.append_assoc] at hcapacity
    have hwrite : writeResult text (w, (countsOf texts w).map Nat.cast) =
        some (text ++ (w ++ toStringNat ((allWords texts).count w))) := by
      rw [List.length_append] at hcapacity
      rw [writeResult, reduceFunction_cast hcount, Option.bind_some, toStringInt_natCast,
        sum_countsOf, ← List.append_assoc, if_pos]
      rw [List.append_assoc]
      exact le_trans (Nat.le_add_right _ _) hcapacity
    rw [List.map_cons, List.foldlM_cons, hwrite, Option.bind_eq_bind, Option.bind_some,
      ih hcapacity, List.flatMap_cons, List.append_assoc, List.append_assoc]

/-- The names and objects of a list, one after the other. -/
theorem objectArgs_flatMap {α : Type} (name obj : α → Bytes) (l : List α) :
    objectArgs (l.flatMap fun a => [name a, obj a]) = l.map obj := by
  induction l with
  | nil => rfl
  | cons a l ih => simpa [objectArgs] using ih

theorem even_length_flatMap {α : Type} (name obj : α → Bytes) (l : List α) :
    (l.flatMap fun a => [name a, obj a]).length % 2 = 0 := by
  have hlength : (l.flatMap fun a => [name a, obj a]).length = 2 * l.length := by
    simp [List.length_flatMap, mul_comm]
  omega

/-- The reducer of a group counts the words of its group in all texts. -/
theorem reduceHandle_eq {α : Type} {name obj : α → Bytes} {texts : List Bytes} {a : α} {l : List α}
    (hargs : (a :: l).map obj =
      texts.map fun text => (groupCounts partition g text).flatMap record)
    (hread : ∀ text ∈ texts, Readable text) (hlength : (allWords texts).length < 2 ^ 31)
    (hcapacity : (resultText partition g texts).length ≤ reduceCapacity) :
    reduceHandle ((a :: l).flatMap fun a => [name a, obj a]) =
      some (ascii "reduce" ++ groupName (name a), resultText partition g texts) := by
  have hwrite : ((resultWords partition g texts).map fun w =>
        (w, (countsOf texts w).map Nat.cast)).foldlM writeResult [] =
      some ([] ++ resultText partition g texts) :=
    foldlM_writeResult hlength (by rwa [List.nil_append])
  have heven := even_length_flatMap name obj (a :: l)
  have hobjs := objectArgs_flatMap name obj (a :: l)
  rw [List.flatMap_cons, List.cons_append] at heven hobjs ⊢
  rw [reduceHandle, if_neg (not_not.2 heven)]
  simp only [hobjs, hargs, parse_texts hread hlength, Option.bind_eq_bind, Option.bind_some,
    sorted_readCounts, hwrite]
  rfl

end Reducer

end Demeter.MapReduce
