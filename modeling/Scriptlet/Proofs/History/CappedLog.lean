/-
  Scriptlet.Proofs.History.CappedLog

  A history is a log of which the last records are kept.

  The store has a list of records and an index of their places. Below the cap the
  index gets one more place, and beyond it every place moves, so it is built anew.
  Either way it is the index of the records that are there (`Store.Holds`), and
  what the store answers follows from the log alone: how many records there are,
  which ones are the newest, and which one was last under an id
  (`history_refines_cappedLog`).
-/
import Scriptlet.History.Journal
import Mathlib.Data.List.DropRight

namespace Scriptlet

namespace Store

/-! ## The records that are kept -/

/-- The records that a cap leaves of a log: the last `cap` of them, and all of them
    if it is not positive. -/
def kept (cap : Int) (log : List Record) : List Record :=
  if cap ≤ 0 then log else log.rtake cap.toNat

theorem kept_of_nonpos {cap : Int} (h : cap ≤ 0) (log : List Record) : kept cap log = log :=
  if_pos h

theorem kept_of_pos {cap : Int} (h : 0 < cap) (log : List Record) :
    kept cap log = log.drop (log.length - cap.toNat) :=
  if_neg (by omega)

/-- A record behind the log is kept with those of the log that there is room
    for. -/
theorem kept_concat {cap : Int} (h : 0 < cap) (log : List Record) (r : Record) :
    kept cap (log ++ [r]) =
      (kept cap log ++ [r]).drop ((kept cap log ++ [r]).length - cap.toNat) := by
  rw [kept_of_pos h, kept_of_pos h]
  have hroom : 1 ≤ cap.toNat := by omega
  have hlength : (log ++ [r]).length - cap.toNat ≤ log.length := by
    rw [List.length_append, List.length_singleton]
    omega
  rw [List.drop_append_of_le_length hlength, List.drop_append_of_le_length, List.drop_drop]
  · -- Both sides drop as many records in front, counted from either log.
    congr 2
    simp only [List.length_append, List.length_drop, List.length_singleton]
    omega
  · simp only [List.length_append, List.length_drop, List.length_singleton]
    omega

/-! ## The index -/

theorem lookup_filter_ne {index : List (Bytes × Nat)} {id other : Bytes} (h : other ≠ id) :
    (index.filter fun entry => entry.1 != id).lookup other = index.lookup other := by
  induction index with
  | nil => rfl
  | cons entry index ih =>
    obtain ⟨key, i⟩ := entry
    -- An entry of another id stays, and it is the only one that may answer.
    by_cases hkey : key = id
    · subst hkey
      rw [List.filter_cons_of_neg (by simp), ih, List.lookup_cons, beq_false_of_ne h]
    · rw [List.filter_cons_of_pos (by simpa using hkey), List.lookup_cons, List.lookup_cons, ih]

/-- The place of an id in an index is the last that it was given. -/
theorem lookup_place (index : List (Bytes × Nat)) (id other : Bytes) (i : Nat) :
    (place index id i).lookup other = if other = id then some i else index.lookup other := by
  rw [place, List.lookup_cons]
  by_cases h : other = id
  · simp [h]
  · rw [beq_false_of_ne h, if_neg h, lookup_filter_ne h]

/-- The place of the last record is the last one in the index. -/
theorem indexFrom_concat (i : Nat) (index : List (Bytes × Nat)) (rs : List Record) (r : Record) :
    indexFrom i index (rs ++ [r]) = place (indexFrom i index rs) r.id (i + rs.length) := by
  induction rs generalizing i index with
  | nil => rfl
  | cons x rs ih =>
    rw [List.cons_append, indexFrom, indexFrom, ih, List.length_cons]
    congr 1
    omega

/-- The index never leads out of the records. -/
theorem lt_length_of_lookup {rs : List Record} {id : Bytes} {i : Nat}
    (h : (indexFrom 0 [] rs).lookup id = some i) : i < rs.length := by
  -- From the last record, whose place is the greatest.
  induction rs using List.reverseRecOn with
  | nil => cases h
  | append_singleton rs r ih =>
    rw [indexFrom_concat, lookup_place] at h
    rw [List.length_append, List.length_singleton]
    by_cases hid : id = r.id
    · rw [if_pos hid, Option.some.injEq] at h
      omega
    · rw [if_neg hid] at h
      have hbefore := ih h
      omega

/-- The index leads to the last record of every id. -/
theorem lookup_indexFrom (rs : List Record) (id : Bytes) :
    ((indexFrom 0 [] rs).lookup id).bind (fun i => rs[i]?) =
      rs.reverse.find? fun r => r.id == id := by
  induction rs using List.reverseRecOn with
  | nil => rfl
  | append_singleton rs r ih =>
    rw [indexFrom_concat, lookup_place, List.reverse_append, List.reverse_singleton,
      List.singleton_append]
    by_cases hid : id = r.id
    · rw [if_pos hid, List.find?_cons_of_pos (by simp [hid])]
      simp
    · rw [if_neg hid, List.find?_cons_of_neg (by simpa using Ne.symm hid), ← ih]
      -- Where the index leads, the records before `r` stand.
      refine Option.bind_congr fun i hi => ?_
      exact List.getElem?_append_left (lt_length_of_lookup hi)

/-! ## What a store holds -/

/-- The store has the records that the cap leaves of the log, and their index. -/
structure Holds (s : Store) (cap : Int) (log : List Record) : Prop where
  limit : s.cap = cap
  records : s.records = kept cap log
  index : s.index = indexFrom 0 [] s.records

namespace Holds

variable {s : Store} {cap : Int} {log : List Record}

theorem empty (cap : Int) : (Store.empty cap).Holds cap [] where
  limit := rfl
  records := by simp [Store.empty, kept]
  index := rfl

/-- One more record is one more in the log, whether others go for it or not. -/
theorem add (h : s.Holds cap log) (r : Record) : (s.add r).Holds cap (log ++ [r]) := by
  obtain ⟨hcap, hrecords, hindex⟩ := h
  unfold Store.add
  -- The record fits, or the oldest one goes and the index is built anew.
  by_cases hfits : s.cap ≤ 0 ∨ ((s.records ++ [r]).length : Int) ≤ s.cap
  · rw [if_pos (by simpa using hfits)]
    refine ⟨hcap, ?_, ?_⟩
    · show s.records ++ [r] = kept cap (log ++ [r])
      -- A cap that is off keeps everything, one that is on has room.
      by_cases hoff : cap ≤ 0
      · rw [kept_of_nonpos hoff, hrecords, kept_of_nonpos hoff]
      · have hroom : (s.records ++ [r]).length - cap.toNat = 0 := by omega
        rw [kept_concat (by omega), ← hrecords, hroom, List.drop_zero]
    · show place s.index r.id ((s.records ++ [r]).length - 1) = indexFrom 0 [] (s.records ++ [r])
      rw [indexFrom_concat, hindex]
      simp
  · rw [if_neg (by simpa using hfits)]
    have hon : 0 < cap := by omega
    refine ⟨hcap, ?_, rfl⟩
    show (s.records ++ [r]).drop ((s.records ++ [r]).length - s.cap.toNat) = kept cap (log ++ [r])
    rw [kept_concat hon, ← hrecords, hcap]

theorem foldl_add (h : s.Holds cap log) (rs : List Record) :
    (rs.foldl Store.add s).Holds cap (log ++ rs) := by
  induction rs generalizing s log with
  | nil => simpa using h
  | cons r rs ih =>
    have hrest := ih (h.add r)
    rwa [List.append_assoc, List.singleton_append] at hrest

theorem ofRecords (cap : Int) (rs : List Record) : (Store.ofRecords cap rs).Holds cap rs :=
  (empty cap).foldl_add rs

theorem size (h : s.Holds cap log) : s.size = (kept cap log).length := by
  rw [Store.size, h.records]

theorem list (h : s.Holds cap log) (limit : Int) :
    s.list limit =
      if 0 < limit then (kept cap log).reverse.take limit.toNat else (kept cap log).reverse := by
  rw [Store.list, h.records]

/-- Under an id the store has the last record of the log with it, if that is kept. -/
theorem get? (h : s.Holds cap log) (id : Bytes) :
    s.get? id = (kept cap log).reverse.find? fun r => r.id == id := by
  rw [Store.get?, h.index, lookup_indexFrom, h.records]

theorem get?_eq_none_iff (h : s.Holds cap log) (id : Bytes) :
    s.get? id = none ↔ ∀ r ∈ kept cap log, r.id ≠ id := by
  rw [h.get?, List.find?_eq_none]
  simp

theorem lt_length_of_lookup (h : s.Holds cap log) {id : Bytes} {i : Nat}
    (hi : s.index.lookup id = some i) : i < s.records.length := by
  rw [h.index] at hi
  exact Store.lt_length_of_lookup hi

end Holds

end Store

/-! ## Appends -/

/-- The record as an append takes it: one without an id gets a fresh one. -/
def Record.identified (fresh : Bytes) (r : Record) : Record :=
  if r.id.isEmpty then { r with id := fresh } else r

@[simp]
theorem Record.status_identified (fresh : Bytes) (r : Record) :
    (r.identified fresh).status = r.status := by
  unfold identified
  split <;> rfl

namespace Journal

/-- The answers to appends that are made one after another, each with the id that
    is fresh at that time, and the journal in the end. -/
def appendAll (j : Journal) :
    List (Bytes × Record) → List (Except HistoryProblem Record) × Journal
  | [] => ([], j)
  | (fresh, r) :: calls =>
    let (answer, j) := j.append fresh r
    let (answers, j) := j.appendAll calls
    (answer :: answers, j)

/-- The records that were accepted, in order. -/
def accepted (answers : List (Except HistoryProblem Record)) : List Record :=
  answers.filterMap Except.toOption

@[simp]
theorem accepted_error (problem : HistoryProblem) : accepted [.error problem] = [] := rfl

variable {j : Journal} {fresh : Bytes} {r : Record}

/-- An append without a status is refused and changes nothing. -/
theorem append_of_no_status (h : r.status = []) :
    j.append fresh r = (.error .missingStatus, j) := by
  have hstatus : ((r.identified fresh).status).isEmpty = true := by simp [h]
  exact if_pos hstatus

/-! An append with a status goes by what the journal is kept in, and by what the
file makes of the record. -/

/-- In memory an append with a status succeeds. -/
theorem append_memory (hstatus : r.status ≠ []) (hmemory : j.storage = .memory) :
    j.append fresh r =
      (.ok (r.identified fresh), ⟨j.store.add (r.identified fresh), .memory⟩) := by
  obtain ⟨store, storage⟩ := j
  subst hmemory
  have hgoes : ¬ ((r.identified fresh).status).isEmpty = true := by simpa using hstatus
  exact if_neg hgoes

/-- On a file an append succeeds if the record can be spliced into it. -/
theorem append_file {content : Option Bytes} (hstatus : r.status ≠ [])
    (hfile : j.storage = .file content) :
    j.append fresh r =
      match stored (content.getD []) (r.identified fresh) with
      | .ok written =>
        (.ok (r.identified fresh), ⟨j.store.add (r.identified fresh), .file (some written)⟩)
      | .error problem => (.error problem, ⟨j.store, .file (some (content.getD []))⟩) := by
  obtain ⟨store, storage⟩ := j
  subst hfile
  have hgoes : ¬ ((r.identified fresh).status).isEmpty = true := by simpa using hstatus
  exact if_neg hgoes

/-- What an append can do to the store: add the record that it answers with, or
    nothing. -/
theorem append_store (j : Journal) (fresh : Bytes) (r : Record) :
    ((j.append fresh r).1 = .ok (r.identified fresh) ∧ r.status ≠ [] ∧
      (j.append fresh r).2.store = j.store.add (r.identified fresh)) ∨
    ∃ problem, (j.append fresh r).1 = .error problem ∧ (j.append fresh r).2.store = j.store := by
  by_cases hstatus : r.status = []
  · rw [append_of_no_status hstatus]
    exact .inr ⟨_, rfl, rfl⟩
  -- By what the journal is kept in.
  cases hstorage : j.storage with
  | memory =>
    rw [append_memory hstatus hstorage]
    exact .inl ⟨rfl, hstatus, rfl⟩
  | file content =>
    rw [append_file hstatus hstorage]
    cases stored (content.getD []) (r.identified fresh) with
    | ok written => exact .inl ⟨rfl, hstatus, rfl⟩
    | error problem => exact .inr ⟨problem, rfl, rfl⟩

/-- An append puts the record that it answers with behind the log. -/
theorem holds_append {cap : Int} {log : List Record} (h : j.store.Holds cap log) (fresh : Bytes)
    (r : Record) :
    (j.append fresh r).2.store.Holds cap (log ++ accepted [(j.append fresh r).1]) := by
  rcases append_store j fresh r with ⟨hanswer, -, hstore⟩ | ⟨problem, hanswer, hstore⟩
  · rw [hanswer, hstore]
    exact h.add _
  · rw [hanswer, hstore]
    rwa [accepted_error, List.append_nil]

/-- Any number of appends puts what was accepted behind the log. -/
theorem holds_appendAll {cap : Int} {log : List Record} (h : j.store.Holds cap log)
    (calls : List (Bytes × Record)) :
    (j.appendAll calls).2.store.Holds cap (log ++ accepted (j.appendAll calls).1) := by
  induction calls generalizing j log with
  | nil => simpa [appendAll, accepted] using h
  | cons call calls ih =>
    obtain ⟨fresh, r⟩ := call
    -- The first answer is part of the log that the other appends start from.
    have hrest := ih (holds_append h fresh r)
    rw [List.append_assoc, accepted, accepted, ← List.filterMap_append] at hrest
    exact hrest

/-- What is accepted are the records as they were taken, in order. -/
theorem accepted_appendAll (j : Journal) (calls : List (Bytes × Record)) :
    (accepted (j.appendAll calls).1).Sublist
      (calls.map fun call => call.2.identified call.1) := by
  induction calls generalizing j with
  | nil => exact .slnil
  | cons call calls ih =>
    obtain ⟨fresh, r⟩ := call
    have hrest := ih (j.append fresh r).2
    rcases append_store j fresh r with ⟨hanswer, -, -⟩ | ⟨problem, hanswer, -⟩
    · simp only [appendAll, accepted, hanswer, List.map_cons]
      -- The record of this append is accepted, or it is left out of the list.
      exact hrest.cons_cons _
    · simp only [appendAll, accepted, hanswer, List.map_cons]
      exact hrest.cons _

/-- In memory a record is refused for one reason only. -/
theorem appendAll_memory (hmemory : j.storage = .memory) (calls : List (Bytes × Record)) :
    (j.appendAll calls).1 = calls.map fun call =>
      if call.2.status = [] then .error .missingStatus else .ok (call.2.identified call.1) := by
  induction calls generalizing j with
  | nil => rfl
  | cons call calls ih =>
    obtain ⟨fresh, r⟩ := call
    -- Only the status decides, and no append moves the journal to a file.
    by_cases hstatus : r.status = []
    · have hrest := ih hmemory
      simp only [appendAll, append_of_no_status hstatus, hrest, List.map_cons, if_pos hstatus]
    · have hrest := ih (j := ⟨j.store.add (r.identified fresh), .memory⟩) rfl
      simp only [appendAll, append_memory hstatus hmemory, hrest, List.map_cons, if_neg hstatus]

end Journal

/-! ## The history as a log -/

/-- A history is a capped log. After any appends to a store of loaded records, the
    log is what was loaded and then what was accepted, and the store answers from
    the records that the cap leaves of it: their number, the newest of them, and
    the last one under an id, if there is one. The index never leads out of the
    records. What is accepted are the records of the appends, in order, those without
    an id having got one. An append without a status changes nothing, and in memory
    every other one is accepted. -/
theorem history_refines_cappedLog (cap : Int) (loaded : List Record) (storage : Storage)
    (calls : List (Bytes × Record)) :
    let j : Journal := ⟨.ofRecords cap loaded, storage⟩
    let answers := (j.appendAll calls).1
    let after := (j.appendAll calls).2
    let rs := Store.kept cap (loaded ++ Journal.accepted answers)
    after.store.size = rs.length ∧
    (∀ limit : Int, after.store.list limit =
      if 0 < limit then rs.reverse.take limit.toNat else rs.reverse) ∧
    (∀ id, after.store.get? id = rs.reverse.find? fun r => r.id == id) ∧
    (∀ id, after.store.get? id = none ↔ ∀ r ∈ rs, r.id ≠ id) ∧
    (∀ id i, after.store.index.lookup id = some i → i < after.store.records.length) ∧
    (Journal.accepted answers).Sublist (calls.map fun call => call.2.identified call.1) ∧
    (∀ fresh r, r.status = [] → after.append fresh r = (.error .missingStatus, after)) ∧
    (storage = .memory → answers = calls.map fun call =>
      if call.2.status = [] then .error .missingStatus else .ok (call.2.identified call.1)) := by
  intro j answers after rs
  have hloaded : j.store.Holds cap loaded := .ofRecords cap loaded
  -- All answers of the store follow from what it holds.
  have hafter : after.store.Holds cap (loaded ++ Journal.accepted answers) :=
    Journal.holds_appendAll hloaded calls
  exact ⟨hafter.size, hafter.list, hafter.get?, hafter.get?_eq_none_iff,
    fun _ _ hi => hafter.lt_length_of_lookup hi, Journal.accepted_appendAll j calls,
    fun _ _ h => Journal.append_of_no_status h,
    fun hmemory => Journal.appendAll_memory hmemory calls⟩

end Scriptlet
