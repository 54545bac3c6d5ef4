import Demeter.Lib.Dict

/-!
# Tables of waiting requests

A table keeps, under each key, the requests that wait for it, in the order in which they came.
`Dict.push` registers a request; when the key is answered, all its requests are served and the key
is erased.

* `waiting t k` are the requests that wait for `k`, `all t` all waiting requests;
* `all_push` and `all_erase` are the accounting: registering adds one request, serving a key takes
  away exactly the requests that waited for it.
-/

namespace Waiting

open Dict

variable {κ ρ : Type*}

/-- All waiting requests. -/
def all (t : Dict κ (List ρ)) : List ρ := t.values.flatten

/-- Entries with distinct labels: only one has the label of a given entry. -/
theorem filter_label_eq {α β : Type*} [DecidableEq β] {label : α → β} {l : List α}
    (hl : (l.map label).Nodup) {x : α} (hx : x ∈ l) :
    l.filter (fun y => label y = label x) = [x] := by
  induction l with
  | nil => cases hx
  | cons y l ih =>
    rw [List.map_cons, List.nodup_cons] at hl
    rcases List.mem_cons.1 hx with rfl | hx
    · rw [List.filter_cons_of_pos (by simp), List.filter_eq_nil_iff.2]
      intro z hz
      simpa using fun hlabel => hl.1 (List.mem_map.2 ⟨z, hz, hlabel⟩)
    · have hy : label y ≠ label x := fun hlabel => hl.1 (List.mem_map.2 ⟨x, hx, hlabel.symm⟩)
      rw [List.filter_cons_of_neg (by simpa using hy), ih hl.2 hx]

variable [DecidableEq κ]

/-- The requests that wait for a key. -/
def waiting (t : Dict κ (List ρ)) (k : κ) : List ρ := (t.get? k).getD []

theorem waiting_push (t : Dict κ (List ρ)) (k k' : κ) (r : ρ) :
    waiting (t.push k r) k' = if k' = k then waiting t k ++ [r] else waiting t k' := by
  unfold waiting
  rw [get?_push]
  split_ifs <;> rfl

theorem waiting_eq_nil_of_notMem {t : Dict κ (List ρ)} {k : κ} (h : k ∉ t.keys) :
    waiting t k = [] := by
  rw [waiting, get?_eq_none_iff.2 h]
  rfl

/-- Serving a key takes away exactly the requests that waited for it. -/
theorem all_erase (t : Dict κ (List ρ)) (k : κ) :
    (waiting t k ++ all (t.erase k)).Perm (all t) := by
  obtain ⟨l, hl⟩ := t
  simp only [waiting, get?, all, values, erase]
  induction l with
  | nil => rfl
  | cons e l ih =>
    obtain ⟨k', v⟩ := e
    rw [List.map_cons, List.nodup_cons] at hl
    by_cases hk : k' = k
    · subst hk
      have htail : l.filter (fun e => !decide (e.1 = k')) = l := by
        rw [List.filter_eq_self]
        intro e he
        have hne : e.1 ≠ k' := fun h => hl.1 (List.mem_map.2 ⟨e, he, h⟩)
        simpa using hne
      simp [htail]
    · have hne : k ≠ k' := Ne.symm hk
      simp only [List.lookup_cons, beq_eq_false_iff_ne.2 hne, List.filter_cons, ne_eq, hk,
        not_false_eq_true, decide_true, if_true, List.map_cons, List.flatten_cons]
      refine (List.perm_append_comm_assoc _ _ _).trans ?_
      exact (ih hl.2).append_left v

/-- Registering adds one request. -/
theorem all_push (t : Dict κ (List ρ)) (k : κ) (r : ρ) :
    (all (t.push k r)).Perm (r :: all t) := by
  have hpush := all_erase (t.push k r) k
  have herase : (t.push k r).erase k = t.erase k := erase_set t k _
  rw [waiting_push, if_pos rfl, herase] at hpush
  refine hpush.symm.trans ?_
  have hmiddle : (waiting t k ++ [r] ++ all (t.erase k)).Perm
      (r :: (waiting t k ++ all (t.erase k))) := by
    rw [List.append_assoc]
    exact List.perm_middle
  exact hmiddle.trans ((all_erase t k).cons r)

end Waiting
