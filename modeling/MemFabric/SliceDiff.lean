/-
What the searches for new ranks and slices report.

`FindNewRemoteRanks` and `FindNewRemoteSlices` compare a snapshot of the store with the known
records, report what is added and removed to a callback, and go on from the new records whatever
it returns.  A record that is replaced is reported as added only, and nothing is reported about
records behind the end of a snapshot.
-/
import MemFabric.TransWatch

namespace Trans

open List TransitionSystem

/-- The `StoredSliceInfo` of a record. -/
def sliceOf (data : Bytes) : Bytes := data.take storedSliceInfoSize

/-- `addStoreSs` of `ExtraSliceChangeInfo`, and `removeStoreSs`. -/
def addedSlices (cs : List RecordChange) : List Bytes := cs.filterMap fun c => c.added.map sliceOf

def removedSlices (cs : List RecordChange) : List Bytes :=
  cs.filterMap fun c => c.removed.map sliceOf

/-- The data that are reported as added, for devices as for slices, each with its place. -/
def reported (lastTime values : List StoredRecord) : List (ℕ × Bytes) :=
  (changes lastTime values).zipIdx.filterMap fun c => c.1.added.map fun data => (c.2, data)

def normalSlice (r : StoredRecord) : Option Bytes :=
  if r.status = normal then some (sliceOf r.data) else none

def normalSlices (records : List StoredRecord) : Multiset Bytes :=
  (records.filterMap normalSlice : List Bytes)

/-- The helper, the last snapshot, what was reported since the start, and what was reported to a
callback that succeeded. -/
structure SearchState where
  known : List StoredRecord
  latest : List StoredRecord
  added : Multiset Bytes
  removed : Multiset Bytes
  imported : List (ℕ × Bytes)

/-- A search with the snapshot that it reads and with what the callback returns. -/
def searchSystem : TransitionSystem SearchState (List StoredRecord × Bool) where
  start := ⟨[], [], 0, 0, []⟩
  next s e := some
    { known := knownAfter s.known e.1
      latest := e.1
      added := s.added + addedSlices (changes s.known e.1)
      removed := s.removed + removedSlices (changes s.known e.1)
      imported := if e.2 then s.imported ++ reported s.known e.1 else s.imported }

/-- The snapshot is not shorter, and a normal record in the place of a normal one is the same. -/
def Steady (s : SearchState) (e : List StoredRecord × Bool) : Prop :=
  s.known.length ≤ e.1.length ∧ ∀ p ∈ s.known.zip e.1,
    p.1.status = normal → p.2.status = normal → p.1.data = p.2.data
  deriving Decidable

/-- The callback succeeds if there is something to import. -/
def Imported (s : SearchState) (e : List StoredRecord × Bool) : Prop :=
  reported s.known e.1 = [] ∨ e.2 = true
  deriving Decidable

/-- Every normal record of the next snapshot that was not imported is reported. -/
def SearchState.Retried (s : SearchState) : Prop :=
  ∀ (values : List StoredRecord) (i : ℕ) (r : StoredRecord), values[i]? = some r →
    r.status = normal → (i, r.data) ∉ s.imported → (i, r.data) ∈ reported s.known values

/-! ### One record -/

variable {cur new : StoredRecord} {known values : List StoredRecord} {s : SearchState}

theorem compareRecord_balance
    (h : cur.status = normal → new.status = normal → cur.data = new.data) :
    normalSlice (compareRecord cur new).known = normalSlice new ∧
      (((compareRecord cur new).added.map sliceOf).toList : Multiset Bytes) +
        (normalSlice cur).toList =
      ((compareRecord cur new).removed.map sliceOf).toList + (normalSlice new).toList := by
  by_cases hcur : cur.status = normal <;> by_cases hnew : new.status = normal
  · simp [compareRecord, normalSlice, hcur, hnew, h hcur hnew]
  all_goals simp [compareRecord, normalSlice, hcur, hnew, abnormal_ne_normal]

theorem enterRecord_balance (new : StoredRecord) :
    normalSlice (enterRecord new).known = normalSlice new ∧
      (((enterRecord new).added.map sliceOf).toList : Multiset Bytes) =
      ((enterRecord new).removed.map sliceOf).toList + (normalSlice new).toList := by
  by_cases hnew : new.status = normal <;> simp [enterRecord, normalSlice, hnew, abnormal_ne_normal]

/-! ### Snapshots -/

theorem coe_filterMap_cons {α β : Type*} (f : α → Option β) (a : α) (l : List α) :
    (((a :: l).filterMap f : List β) : Multiset β) = (f a).toList + (l.filterMap f : List β) := by
  cases h : f a <;> simp [h]

theorem compareRecords_balance (hlen : known.length ≤ values.length)
    (hsteady : ∀ p ∈ known.zip values,
      p.1.status = normal → p.2.status = normal → p.1.data = p.2.data) :
    let cs := zipWith compareRecord known values ++ (values.drop known.length).map enterRecord
    normalSlices (cs.map RecordChange.known) = normalSlices values ∧
      (addedSlices cs : Multiset Bytes) + normalSlices known =
        removedSlices cs + normalSlices values := by
  induction known generalizing values with
  | nil =>
    simp only [zipWith_nil_left, length_nil, drop_zero, nil_append]
    clear hlen hsteady
    induction values with
    | nil => exact ⟨rfl, rfl⟩
    | cons new values ih =>
      obtain ⟨hknown, hbal⟩ := enterRecord_balance new
      simp only [normalSlices, addedSlices, removedSlices, map_cons, coe_filterMap_cons] at ih ⊢
      rw [hknown, ih.1, hbal, add_assoc, ih.2]
      exact ⟨rfl, add_add_add_comm _ _ _ _⟩
  | cons cur known ih =>
    cases values with
    | nil => nomatch hlen
    | cons new values =>
      obtain ⟨hfirst, hrest⟩ := forall_mem_cons.mp hsteady
      obtain ⟨hknown, hbal⟩ := compareRecord_balance hfirst
      have ih := ih (Nat.le_of_succ_le_succ hlen) hrest
      simp only [normalSlices, addedSlices, removedSlices, zipWith_cons_cons, length_cons,
        drop_succ_cons, cons_append, map_cons, coe_filterMap_cons] at ih ⊢
      rw [hknown, ih.1, add_add_add_comm, hbal, ih.2]
      exact ⟨rfl, add_add_add_comm _ _ _ _⟩

theorem snapshot_balance {e : List StoredRecord × Bool} (h : Steady s e) :
    normalSlices (knownAfter s.known e.1) = normalSlices e.1 ∧
      (addedSlices (changes s.known e.1) : Multiset Bytes) + normalSlices s.known =
        removedSlices (changes s.known e.1) + normalSlices e.1 := by
  by_cases hsame : s.known = e.1
  · simp [knownAfter, addedSlices, removedSlices, changes, hsame]
  rw [knownAfter, if_neg hsame, drop_eq_nil_of_le h.1, append_nil, changes, if_neg hsame]
  exact compareRecords_balance h.1 h.2

/-- As long as no snapshot is shorter than what is known and no normal record is replaced, the
slices added are those removed and the normal ones of the last snapshot. -/
theorem added_eq_of_steady (hs : searchSystem.ReachableBy Steady s) :
    s.added = s.removed + normalSlices s.latest := by
  suffices h : s.added = s.removed + normalSlices s.latest ∧
      normalSlices s.known = normalSlices s.latest from h.1
  refine hs.invariant (I := fun s => s.added = s.removed + normalSlices s.latest ∧
    normalSlices s.known = normalSlices s.latest) ⟨rfl, rfl⟩ ?_
  rintro s s' e ⟨hadded, hknown⟩ hsteady hnext
  obtain rfl := Option.some.inj hnext
  obtain ⟨hafter, hbal⟩ := snapshot_balance hsteady
  refine ⟨?_, hafter⟩
  show s.added + addedSlices (changes s.known e.1) = s.removed + _ + normalSlices e.1
  rw [hadded, ← hknown, add_assoc, add_comm (normalSlices s.known), hbal, add_assoc]

/-! ### Imports -/

theorem mem_reported_iff {i : ℕ} {data : Bytes} :
    (i, data) ∈ reported known values ↔
      ∃ new, values[i]? = some new ∧ (changeOf known[i]? new).added = some data := by
  by_cases hsame : known = values
  · subst hsame
    simp only [reported, changes, if_true, zipIdx_nil, filterMap_nil, not_mem_nil, false_iff]
    rintro ⟨new, hnew, hadded⟩
    rw [hnew, changeOf, Option.elim, compareRecord_self] at hadded
    cases hadded
  simp only [reported, mem_filterMap, Option.map_eq_some_iff, Prod.mk.injEq, Prod.exists,
    mk_mem_zipIdx_iff_getElem?, changes_getElem? hsame]
  constructor
  · rintro ⟨c, j, ⟨new, hnew, rfl⟩, data', hadded, rfl, rfl⟩
    exact ⟨new, hnew, hadded⟩
  · rintro ⟨new, hnew, hadded⟩
    exact ⟨_, i, ⟨new, hnew, rfl⟩, data, hadded, rfl, rfl⟩

/-- As long as no callback fails that was given something to import, every normal record that was
not imported is reported. -/
theorem retried_of_imported (hs : searchSystem.ReachableBy Imported s) : s.Retried := by
  have h : ∀ i r, s.known[i]? = some r → r.status = normal → (i, r.data) ∈ s.imported := by
    refine hs.invariant (I := fun s => ∀ i r, s.known[i]? = some r → r.status = normal →
      (i, r.data) ∈ s.imported) nofun ?_
    intro s s' e h himp hnext i r hr hnormal
    obtain rfl := Option.some.inj hnext
    have hkeep : ∀ p ∈ s.imported,
        p ∈ if e.2 then s.imported ++ reported s.known e.1 else s.imported := by
      intro p hp
      split
      · exact mem_append_left _ hp
      · exact hp
    obtain hknown | ⟨new, hnew, hadded⟩ := known_or_added_getElem? hr hnormal
    · exact hkeep _ (h i r hknown hnormal)
    have hrep := mem_reported_iff.mpr ⟨new, hnew, hadded⟩
    rcases himp with hnone | hok
    · rw [hnone] at hrep
      cases hrep
    show _ ∈ if e.2 then _ else _
    rw [if_pos hok]
    exact mem_append_right _ hrep
  intro values i r hr hnormal hnot
  refine mem_reported_iff.mpr ⟨r, hr, ?_⟩
  have hknown := changeOf_normal s.known[i]? hnormal
  rcases changeOf_known (by rwa [hknown]) with hcur | hadded
  · rw [hknown] at hcur
    exact absurd (h i r hcur hnormal) hnot
  · rwa [hknown] at hadded

/-! ### Runs -/

/-- Two slices are added, and one is removed. -/
theorem added_eq_three_searches :
    ∃ s, searchSystem.ReachableBy Steady s ∧ s.added = s.removed + normalSlices s.latest ∧
      s.added = {[1], [2]} ∧ s.removed = {[1]} := by
  refine exists_reachableBy [([⟨normal, [1]⟩], true), ([⟨normal, [1]⟩, ⟨normal,
    [2]⟩], false), ([⟨abnormal, [1]⟩, ⟨normal, [2]⟩], true)] (fun s => (s.added, s.removed)) ({[1],
    [2]}, {[1]}) ?_ fun s hreach heq => ?_
  · decide +kernel
  obtain ⟨hadded, hrem⟩ := Prod.mk.inj heq
  exact ⟨added_eq_of_steady hreach, hadded, hrem⟩

/-- A slice is replaced by another one, and the one behind it is cut off: both stay reported. -/
theorem replaced_and_cut_off :
    ∃ s, searchSystem.Reachable s ∧ s.added = {[1], [2], [3]} ∧ s.removed = 0 ∧
      normalSlices s.latest = {[3]} := by
  refine exists_reachable [([⟨normal, [1]⟩, ⟨normal, [2]⟩], true), ([⟨normal,
    [3]⟩], true)] (fun s => (s.added, s.removed, normalSlices s.latest)) ({[1], [2], [3]}, 0, {[3]})
    ?_ fun s _ heq => ?_
  · decide +kernel
  obtain ⟨hadded, heq⟩ := Prod.mk.inj heq
  exact ⟨hadded, Prod.mk.inj heq⟩

/-- The callback succeeds, and the next one has nothing to import. -/
theorem retried_after_import :
    ∃ s, searchSystem.ReachableBy Imported s ∧ s.imported = [(0, [1])] ∧ s.Retried := by
  refine exists_reachableBy [([⟨normal, [1]⟩], true), ([⟨normal, [1]⟩], false)]
    SearchState.imported [(0, [1])] ?_ fun s hreach himp => ?_
  · decide +kernel
  exact ⟨himp, retried_of_imported hreach⟩

/-- The callback fails, and the next search with the same snapshot reports nothing. -/
theorem failed_import_not_retried :
    ∃ s, searchSystem.Reachable s ∧ s.imported = [] ∧ reported s.known [⟨normal, [1]⟩] = [] ∧
      ¬ s.Retried := by
  refine exists_reachable [([⟨normal, [1]⟩], false)] (fun s => (s.imported,
    reported s.known [⟨normal, [1]⟩])) ([], []) ?_ fun s _ heq => ?_
  · decide +kernel
  obtain ⟨himp, hrep⟩ := Prod.mk.inj heq
  refine ⟨himp, hrep, fun h => ?_⟩
  have hagain := h [⟨normal, [1]⟩] 0 ⟨normal, [1]⟩ rfl rfl (by simp [himp])
  rw [hrep] at hagain
  cases hagain

end Trans
