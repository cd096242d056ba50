/-
The watch thread of a trans entry.

Every loop compares the records of the remote devices and then of the remote slices with the
ones it knows.  New devices are imported into the entity; for slices that are gone, the ranks
they belonged to are removed from it, by the id alone.
-/
import MemFabric.FaultHandler
import MemFabric.MemEntity

namespace Trans

open Option List

open Hybm

/-! ### Comparing the records -/

/-- A record of the store: its flag and its data. -/
structure StoredRecord where
  status : UInt8
  data : Bytes
  deriving DecidableEq

/-- What is found out about a record: what is known of it from now on, and the data that are added
and removed. -/
structure RecordChange where
  known : StoredRecord
  added : Option Bytes
  removed : Option Bytes

/-- The body of the loops over the records that were there before. -/
def compareRecord (cur new : StoredRecord) : RecordChange :=
  if cur.status = normal ∧ new.status = normal then
    if cur.data ≠ new.data then ⟨⟨cur.status, new.data⟩, some new.data, none⟩
    else ⟨cur, none, none⟩
  else if cur.status = normal ∧ new.status ≠ normal then
    ⟨⟨abnormal, cur.data⟩, none, some cur.data⟩
  else if cur.status ≠ normal ∧ new.status = normal then
    ⟨⟨normal, new.data⟩, some new.data, none⟩
  else ⟨cur, none, none⟩

/-- The body of the loops over the records that are new. -/
def enterRecord (new : StoredRecord) : RecordChange :=
  if new.status = normal then ⟨⟨normal, new.data⟩, some new.data, none⟩
  else ⟨⟨abnormal, new.data⟩, none, none⟩

/-- The changes from the known records to a snapshot; nothing is looked at if they are equal. -/
def changes (lastTime values : List StoredRecord) : List RecordChange :=
  if lastTime = values then []
  else
    List.zipWith compareRecord lastTime values ++ (values.drop lastTime.length).map enterRecord

/-- The known records after a snapshot.  Records behind its end stay known. -/
def knownAfter (lastTime values : List StoredRecord) : List StoredRecord :=
  if lastTime = values then lastTime
  else (changes lastTime values).map RecordChange.known ++ lastTime.drop values.length

/-- `ExtraDeviceChangeInfo`: the descriptors to import.  What is gone is not reported. -/
def extraDeviceChangeInfo (lastTime values : List StoredRecord) : List StoredRecord × List Bytes :=
  (knownAfter lastTime values, (changes lastTime values).filterMap RecordChange.added)

/-- `sizeof(StoredSliceInfo)`, which is in front of the descriptor of a slice. -/
def storedSliceInfoSize : ℕ := 48

/-- `StoredSliceInfo::rankId`. -/
def storedRankId (info : Bytes) : ℕ := field 40 2 info

/-- `ExtraSliceChangeInfo`: the descriptors to import, and the infos of the removed slices. -/
def extraSliceChangeInfo (lastTime values : List StoredRecord) :
    List StoredRecord × List Bytes × List Bytes :=
  (knownAfter lastTime values, ((changes lastTime values).filterMap RecordChange.added).map
      fun data => data.drop storedSliceInfoSize,
    ((changes lastTime values).filterMap RecordChange.removed).map
      fun data => data.take storedSliceInfoSize)

/-! ### The loop -/

/-- The watch thread; `latest` is the last snapshot of the devices that it has seen. -/
structure WatchState where
  entity : MemEntity
  remoteDeviceInfoLastTime : List StoredRecord
  remoteSlicesInfoLastTime : List StoredRecord
  times : ℕ
  latest : List StoredRecord

def succeeded (out : Option ImportOutcome) : Option MemEntity :=
  out.bind fun o => if o.result = .ok then some o.entity else none

/-- `WatchTaskFindNewRanks` with a snapshot of the device records, which may not have been read. -/
def findNewRanks (s : WatchState) (env : ImportEnv) : Option (List StoredRecord) → Option WatchState
  | none => some s
  | some values =>
    let (known, addInfo) := extraDeviceChangeInfo s.remoteDeviceInfoLastTime values
    let entity :=
      if addInfo = [] then some s.entity
      else succeeded (s.entity.hybmImport env addInfo none true)
    entity.map fun e =>
      { s with entity := e, remoteDeviceInfoLastTime := known, latest := values }

/-- `RemoveRanks`; what a removal returns is only logged. -/
def removeRanks (e : MemEntity) (ranks : List ℕ) : MemEntity :=
  ranks.foldl (fun e rank => (e.removeImported rank).2) e

/-- The rank ids that `WatchTaskFindNewSlices` removes, each once. -/
def ranksToRemove (lastTime values : List StoredRecord) : List ℕ :=
  ((extraSliceChangeInfo lastTime values).2.2.map storedRankId).dedup

/-- `WatchTaskFindNewSlices` with a snapshot of the slice records. -/
def findNewSlices (s : WatchState) (env : ImportEnv) : Option (List StoredRecord) →
    Option WatchState
  | none => some s
  | some values =>
    let (known, addInfo, _) := extraSliceChangeInfo s.remoteSlicesInfoLastTime values
    let cleaned := removeRanks s.entity (ranksToRemove s.remoteSlicesInfoLastTime values)
    let entity :=
      if addInfo = [] then some cleaned
      else succeeded (cleaned.hybmImport env addInfo (some (addInfo.map fun _ => 0)) false)
    entity.map fun e => { s with entity := e, remoteSlicesInfoLastTime := known }

/-- What happens to the thread: the first search before it starts, and its loop, with or without
a server and with what is read from the store. -/
inductive WatchEvent
  | start (env : ImportEnv) (devices : Option (List StoredRecord))
  | loop (server : Bool) (env : ImportEnv) (devices slices : Option (List StoredRecord))

def watchTaskOneLoop (s : WatchState) (server : Bool) (env : ImportEnv)
    (devices slices : Option (List StoredRecord)) : Option WatchState :=
  if server = false then some { s with times := 0 }
  else
    (findNewRanks s env devices).bind fun s =>
      (if 2 ≤ s.times then findNewSlices s env slices else some s).map fun s =>
        { s with times := s.times + 1 }

def watchSystem (entity : MemEntity) : TransitionSystem WatchState WatchEvent where
  start := ⟨entity, [], [], 0, []⟩
  next s
    | .start env devices => findNewRanks s env devices
    | .loop server env devices slices => watchTaskOneLoop s server env devices slices

/-- Every rank that is normal in the last snapshot is imported. -/
def RanksImported (s : WatchState) : Prop :=
  ∀ r ∈ s.latest, r.status = normal → (s.entity.importedRanks.lookup (exportRankId r.data)).isSome

/-- The slices that a loop removes are of no rank id that a normal device has. -/
def unreused (s : WatchState) : WatchEvent → Prop
  | .start _ _ => True
  | .loop server _ devices slices => server = true → 2 ≤ s.times →
      ∀ values ∈ slices, ∀ rank ∈ ranksToRemove s.remoteSlicesInfoLastTime values,
        ∀ r ∈ (devices.map (knownAfter s.remoteDeviceInfoLastTime)).getD
          s.remoteDeviceInfoLastTime, r.status = normal → exportRankId r.data ≠ rank

instance (s : WatchState) : ∀ e, Decidable (unreused s e)
  | .start _ _ => inferInstanceAs (Decidable True)
  | .loop _ _ _ _ => inferInstanceAs (Decidable (_ → _))

/-! ### Imports only add ranks -/

def Keeps (e e' : MemEntity) : Prop :=
  ∀ rank, (e.importedRanks.lookup rank).isSome → (e'.importedRanks.lookup rank).isSome

theorem Keeps.refl (e : MemEntity) : Keeps e e := fun _ h => h

theorem Keeps.trans {e₁ e₂ e₃ : MemEntity} (h₁ : Keeps e₁ e₂) (h₂ : Keeps e₂ e₃) : Keeps e₁ e₃ :=
  fun rank h => h₂ rank (h₁ rank h)

variable {e e' : MemEntity} {env : ImportEnv} {addresses : Option (List ℕ)} {out : ImportOutcome}
  {infos : List Bytes} {cur new r : StoredRecord} {lastTime values : List StoredRecord}
  {s s' : WatchState}

theorem Keeps.of_eq (h : e'.importedRanks = e.importedRanks) : Keeps e e' := by
  intro rank hrank
  rwa [h]

theorem lookup_putRank (e : MemEntity) (info : Bytes) (rank : ℕ) :
    (e.putRank info).importedRanks.lookup rank =
      if rank = exportRankId info then some info else e.importedRanks.lookup rank := by
  rw [MemEntity.putRank, OrderedMap.lookup_insert, Function.update_apply]

theorem keeps_putRank (e : MemEntity) (info : Bytes) : Keeps e (e.putRank info) := by
  intro rank h
  rw [lookup_putRank]
  split
  · rfl
  · exact h

theorem keeps_putMemory (e : MemEntity) (key : Bytes) : Keeps e (e.putMemory key) :=
  Keeps.of_eq rfl

theorem keeps_precheck (desc : List ExchangeInfoReader) :
    ∀ e : MemEntity, Keeps e (e.importForTransportPrecheck desc).entity := by
  induction desc with
  | nil => exact Keeps.refl
  | cons r desc ih =>
    intro e
    rw [MemEntity.importForTransportPrecheck]
    split
    · exact Keeps.refl e
    split
    · split
      · exact Keeps.refl e
      · exact (keeps_putRank e _).trans (ih _)
    split
    · split
      · exact Keeps.refl e
      · exact (keeps_putMemory e _).trans (ih _)
    · exact Keeps.refl e

theorem keeps_importExchangeInfo {desc : List ExchangeInfoReader}
    (h : e.importExchangeInfo env desc addresses = some out) : Keeps e out.entity := by
  have hentity : Keeps e (if e.transport then e.importForTransport env desc
      else ⟨.ok, e, false, desc⟩).entity := by
    split
    · rw [(importForTransport_keeps e env desc).2]
      exact keeps_precheck desc e
    · exact Keeps.refl e
  rw [MemEntity.importExchangeInfo] at h
  split at h
  · rw [← some_inj.mp h]
    exact Keeps.refl e
  split at h
  · rw [← some_inj.mp h]
    exact Keeps.refl e
  extract_lets t at h
  change Keeps e t.entity at hentity
  split at h
  · rwa [← some_inj.mp h]
  split at h
  · rwa [← some_inj.mp h]
  split at h
  · rwa [← some_inj.mp h]
  split at h
  · rwa [← some_inj.mp h]
  · obtain ⟨seg, -, rfl⟩ := map_eq_some_iff.mp h
    exact hentity

theorem foldl_putRank (infos : List Bytes) : ∀ e : MemEntity,
    Keeps e (infos.foldl MemEntity.putRank e) ∧
      ∀ info ∈ infos, ((infos.foldl MemEntity.putRank e).importedRanks.lookup
        (exportRankId info)).isSome := by
  induction infos with
  | nil => exact fun e => ⟨Keeps.refl e, nofun⟩
  | cons info infos ih =>
    intro e
    obtain ⟨hkeeps, hall⟩ := ih (e.putRank info)
    refine ⟨(keeps_putRank e info).trans hkeeps, fun info' hinfo' => ?_⟩
    rcases mem_cons.mp hinfo' with rfl | hinfo'
    · apply hkeeps
      rw [lookup_putRank, if_pos rfl]
      rfl
    · exact hall info' hinfo'

theorem importForTransportManager_ranks (e : MemEntity) (env : ImportEnv) :
    (e.importForTransportManager env).2.importedRanks = e.importedRanks := by
  rw [MemEntity.importForTransportManager]
  split
  · rfl
  extract_lets ret
  split
  · rfl
  · rfl

theorem exportRankId_take (info : Bytes) :
    exportRankId (info.take entityExportInfoSize) = exportRankId info := by
  rw [exportRankId, exportRankId, field, field, drop_take, take_take]
  rfl

theorem mapM_read_eq_some : ∀ {reads : List (Bytes × ExchangeInfoReader)},
    (infos.map ExchangeInfoReader.reset).mapM (fun r => r.read entityExportInfoSize) = some reads →
      reads.map Prod.fst = infos.map fun info => info.take entityExportInfoSize := by
  induction infos with
  | nil =>
    intro reads h
    rw [← some_inj.mp h]
    rfl
  | cons info infos ih =>
    intro reads h
    rw [map_cons, mapM_cons] at h
    obtain ⟨first, hfirst, h⟩ := bind_eq_some_iff.mp h
    obtain ⟨rest, hrest, h⟩ := bind_eq_some_iff.mp h
    obtain ⟨data, hdata, rfl⟩ := map_eq_some_iff.mp hfirst
    obtain ⟨-, hdata⟩ := ite_none_left_eq_some.mp hdata
    rw [← some_inj.mp h, map_cons, map_cons, ih hrest, ← some_inj.mp hdata]
    rfl

theorem importEntityExchangeInfo_ranks
    (h : e.importEntityExchangeInfo env (infos.map ExchangeInfoReader.reset) addresses = some out)
    (hok : out.result = .ok) :
    Keeps e out.entity ∧
      ∀ info ∈ infos, (out.entity.importedRanks.lookup (exportRankId info)).isSome := by
  rw [MemEntity.importEntityExchangeInfo] at h
  split at h
  · exact absurd (ok_of_eq_some h hok) (by simp)
  split at h
  · exact absurd (ok_of_eq_some h hok) (by simp)
  rename_i reads hreads
  -- Whatever is returned from here on, the ranks are those that have been put in.
  have hranks : out.entity.importedRanks =
      ((reads.map Prod.fst).foldl MemEntity.putRank e).importedRanks := by
    dsimp only at h
    split at h
    · rw [← some_inj.mp h]
    split at h
    · rw [← some_inj.mp h, importForTransportManager_ranks]
    split at h
    · rw [← some_inj.mp h, importForTransportManager_ranks]
    split at h
    all_goals rw [← some_inj.mp h, importForTransportManager_ranks]
  obtain ⟨hkeeps, hall⟩ := foldl_putRank (reads.map Prod.fst) e
  refine ⟨hkeeps.trans (Keeps.of_eq hranks), fun info hinfo => ?_⟩
  rw [hranks, ← exportRankId_take]
  apply hall
  rw [mapM_read_eq_some hreads]
  exact mem_map_of_mem hinfo

theorem succeeded_eq_some {out : Option ImportOutcome} (h : succeeded out = some e) :
    ∃ o, out = some o ∧ o.result = .ok ∧ o.entity = e := by
  obtain ⟨o, ho, h⟩ := bind_eq_some_iff.mp h
  obtain ⟨hok, h⟩ := ite_none_right_eq_some.mp h
  exact ⟨o, ho, hok, some_inj.mp h⟩

theorem hybmImport_ranks (h : succeeded (e.hybmImport env infos none true) = some e') :
    Keeps e e' ∧ ∀ info ∈ infos, (e'.importedRanks.lookup (exportRankId info)).isSome := by
  obtain ⟨out, hout, hok, rfl⟩ := succeeded_eq_some h
  rw [MemEntity.hybmImport] at hout
  split at hout
  · exact absurd (ok_of_eq_some hout hok) (by simp)
  · exact importEntityExchangeInfo_ranks hout hok

theorem keeps_hybmImport (h : succeeded (e.hybmImport env infos addresses false) = some e') :
    Keeps e e' := by
  obtain ⟨out, hout, hok, rfl⟩ := succeeded_eq_some h
  rw [MemEntity.hybmImport] at hout
  split at hout
  · exact absurd (ok_of_eq_some hout hok) (by simp)
  · exact keeps_importExchangeInfo hout

theorem lookup_removeImported {rank rank' : ℕ} (hne : rank' ≠ rank) :
    (e.removeImported rank).2.importedRanks.lookup rank' = e.importedRanks.lookup rank' := by
  rw [MemEntity.removeImported]
  split_ifs
  · rfl
  · rfl
  · rfl
  · rw [OrderedMap.lookup_erase, Function.update_of_ne hne]
  · rfl

theorem lookup_removeRanks {ranks : List ℕ} {rank : ℕ} (hrank : rank ∉ ranks) :
    ∀ e : MemEntity, (removeRanks e ranks).importedRanks.lookup rank =
      e.importedRanks.lookup rank := by
  induction ranks with
  | nil => exact fun _ => rfl
  | cons first ranks ih =>
    intro e
    rw [mem_cons, not_or] at hrank
    exact (ih hrank.2 _).trans (lookup_removeImported hrank.1)

/-! ### The known devices -/

theorem abnormal_ne_normal : abnormal ≠ normal := by decide

theorem compareRecord_known (h : (compareRecord cur new).known.status = normal) :
    (compareRecord cur new).known = cur ∨
      (compareRecord cur new).added = some (compareRecord cur new).known.data := by
  rw [compareRecord] at h ⊢
  split_ifs at h ⊢ with hboth hdata hgone hback
  · exact .inr rfl
  · exact .inl rfl
  · exact absurd h abnormal_ne_normal
  · exact .inr rfl
  · exact .inl rfl

theorem compareRecord_normal (h : new.status = normal) : (compareRecord cur new).known = new := by
  obtain ⟨status, data⟩ := new
  obtain rfl : status = normal := h
  rw [compareRecord]
  split_ifs with hboth hdata hgone hback
  · rw [hboth.1]
  · obtain ⟨curStatus, curData⟩ := cur
    rw [not_not] at hdata
    exact congrArg₂ StoredRecord.mk hboth.1 hdata
  · exact absurd rfl hgone.2
  · rfl
  · exact absurd ⟨fun hcur => hboth ⟨hcur, rfl⟩, rfl⟩ hback

theorem enterRecord_known (h : (enterRecord new).known.status = normal) :
    (enterRecord new).added = some (enterRecord new).known.data := by
  rw [enterRecord] at h ⊢
  split_ifs at h ⊢
  · rfl
  · exact absurd h abnormal_ne_normal

theorem enterRecord_normal (h : new.status = normal) : (enterRecord new).known = new := by
  rw [enterRecord, if_pos h, ← h]

def changeOf (cur : Option StoredRecord) (new : StoredRecord) : RecordChange :=
  cur.elim (enterRecord new) fun cur => compareRecord cur new

theorem compareRecord_self (r : StoredRecord) : compareRecord r r = ⟨r, none, none⟩ := by
  by_cases h : r.status = normal <;> simp [compareRecord, h]

theorem changeOf_known {cur : Option StoredRecord} (h : (changeOf cur new).known.status = normal) :
    cur = some (changeOf cur new).known ∨
      (changeOf cur new).added = some (changeOf cur new).known.data := by
  cases cur with
  | none => exact .inr (enterRecord_known h)
  | some cur => exact (compareRecord_known h).imp_left fun heq => congrArg some heq.symm

theorem changeOf_normal (cur : Option StoredRecord) (h : new.status = normal) :
    (changeOf cur new).known = new := by
  cases cur with
  | none => exact enterRecord_normal h
  | some cur => exact compareRecord_normal h

theorem changes_getElem? (hne : lastTime ≠ values) (i : ℕ) :
    (changes lastTime values)[i]? = values[i]?.map (changeOf lastTime[i]?) := by
  rw [changes, if_neg hne]
  clear hne
  -- Along both lists: a record is compared with the known one, or comes behind these.
  induction lastTime generalizing values i with
  | nil =>
    rw [zipWith_nil_left, nil_append, length_nil, drop_zero, getElem?_map]
    rfl
  | cons cur lastTime ih =>
    cases values with
    | nil => simp
    | cons new values =>
      cases i with
      | zero => simp [changeOf]
      | succ i => simpa using ih i

theorem knownAfter_getElem? (lastTime values : List StoredRecord) (i : ℕ) :
    (knownAfter lastTime values)[i]? =
      (values[i]?.map fun new => (changeOf lastTime[i]? new).known).or lastTime[i]? := by
  by_cases hne : lastTime = values
  · rw [knownAfter, if_pos hne, hne]
    cases h : values[i]? with
    | none => rfl
    | some r => simp [changeOf, compareRecord_self]
  have hlen : (changes lastTime values).length = values.length := by
    simp only [changes, if_neg hne, length_append, length_zipWith, length_map, length_drop]
    omega
  rw [knownAfter, if_neg hne, getElem?_append, length_map, hlen]
  split
  · next hi => simp [changes_getElem? hne, getElem?_eq_getElem hi]
  next hi =>
  rw [getElem?_eq_none (not_lt.mp hi), getElem?_drop, Nat.add_sub_cancel' (not_lt.mp hi)]
  rfl

theorem known_or_added_getElem? {i : ℕ} (hr : (knownAfter lastTime values)[i]? = some r)
    (hnormal : r.status = normal) :
    lastTime[i]? = some r ∨
      ∃ new, values[i]? = some new ∧ (changeOf lastTime[i]? new).added = some r.data := by
  rw [knownAfter_getElem?] at hr
  cases hnew : values[i]? with
  | none =>
    rw [hnew] at hr
    exact .inl hr
  | some new =>
    rw [hnew] at hr
    obtain rfl := some.inj hr
    exact (changeOf_known hnormal).imp_right fun hadded => ⟨new, rfl, hadded⟩

theorem known_or_added (hr : r ∈ knownAfter lastTime values) (hnormal : r.status = normal) :
    r ∈ lastTime ∨ r.data ∈ (changes lastTime values).filterMap RecordChange.added := by
  by_cases hne : lastTime = values
  · rw [knownAfter, if_pos hne] at hr
    exact .inl hr
  obtain ⟨i, hi⟩ := mem_iff_getElem?.mp hr
  rcases known_or_added_getElem? hi hnormal with hlast | ⟨new, hnew, hadded⟩
  · exact .inl (mem_of_getElem? hlast)
  refine .inr (mem_filterMap.mpr ⟨_, mem_of_getElem? (i := i) ?_, hadded⟩)
  rw [changes_getElem? hne, hnew]
  rfl

theorem normal_known (hr : r ∈ values) (hnormal : r.status = normal) :
    r ∈ knownAfter lastTime values := by
  obtain ⟨i, hi⟩ := mem_iff_getElem?.mp hr
  refine mem_of_getElem? (i := i) ?_
  rw [knownAfter_getElem?, hi, map_some, changeOf_normal _ hnormal]
  rfl

/-! ### The invariant -/

/-- All normal records that are known are imported, and so are those of the last snapshot, which
are among them. -/
structure WatchInv (s : WatchState) : Prop where
  known : ∀ r ∈ s.remoteDeviceInfoLastTime, r.status = normal →
    (s.entity.importedRanks.lookup (exportRankId r.data)).isSome
  latest : ∀ r ∈ s.latest, r.status = normal → r ∈ s.remoteDeviceInfoLastTime

theorem WatchInv.ranksImported (h : WatchInv s) : RanksImported s :=
  fun r hr hnormal => h.known r (h.latest r hr hnormal) hnormal

theorem WatchInv.findNewRanks {devices : Option (List StoredRecord)} (h : WatchInv s)
    (hs : Trans.findNewRanks s env devices = some s') :
    WatchInv s' ∧ s'.times = s.times ∧ s'.remoteSlicesInfoLastTime = s.remoteSlicesInfoLastTime ∧
      s'.remoteDeviceInfoLastTime = (devices.map (knownAfter s.remoteDeviceInfoLastTime)).getD
        s.remoteDeviceInfoLastTime := by
  cases devices with
  | none =>
    obtain rfl := some_inj.mp hs
    exact ⟨h, rfl, rfl, rfl⟩
  | some values =>
    obtain ⟨e, he, rfl⟩ := map_eq_some_iff.mp hs
    refine ⟨⟨fun r hr hnormal => ?_, fun r hr hnormal => normal_known hr hnormal⟩, rfl, rfl, rfl⟩
    have hentity : Keeps s.entity e ∧
        ∀ info ∈ (changes s.remoteDeviceInfoLastTime values).filterMap RecordChange.added,
          (e.importedRanks.lookup (exportRankId info)).isSome := by
      split at he
      · rename_i hnil
        obtain rfl := some_inj.mp he
        rw [hnil]
        exact ⟨Keeps.refl _, nofun⟩
      · exact hybmImport_ranks he
    rcases known_or_added hr hnormal with hr | hr
    · exact hentity.1 _ (h.known r hr hnormal)
    · exact hentity.2 _ hr

theorem WatchInv.findNewSlices {slices : Option (List StoredRecord)} (h : WatchInv s)
    (hok : ∀ values ∈ slices, ∀ rank ∈ ranksToRemove s.remoteSlicesInfoLastTime values,
      ∀ r ∈ s.remoteDeviceInfoLastTime, r.status = normal → exportRankId r.data ≠ rank)
    (hs : Trans.findNewSlices s env slices = some s') : WatchInv s' := by
  cases slices with
  | none =>
    obtain rfl := some_inj.mp hs
    exact h
  | some values =>
    obtain ⟨e, he, rfl⟩ := map_eq_some_iff.mp hs
    refine ⟨fun r hr hnormal => ?_, h.latest⟩
    have hkeeps : Keeps (removeRanks s.entity (ranksToRemove s.remoteSlicesInfoLastTime values))
        e := by
      split at he
      · obtain rfl := some_inj.mp he
        exact Keeps.refl _
      · exact keeps_hybmImport he
    apply hkeeps
    rw [lookup_removeRanks fun hmem => hok values rfl _ hmem r hr hnormal rfl]
    exact h.known r hr hnormal

theorem watchInv_next {entity : MemEntity} {e : WatchEvent} (h : WatchInv s) (hok : unreused s e)
    (hs : (watchSystem entity).next s e = some s') : WatchInv s' := by
  cases e with
  | start env devices => exact (h.findNewRanks hs).1
  | loop server env devices slices =>
    change watchTaskOneLoop s server env devices slices = some s' at hs
    rw [watchTaskOneLoop] at hs
    split at hs
    · obtain rfl := some_inj.mp hs
      exact ⟨h.known, h.latest⟩
    rename_i hserver
    obtain ⟨s₁, hs₁, hs⟩ := bind_eq_some_iff.mp hs
    obtain ⟨s₂, hs₂, rfl⟩ := map_eq_some_iff.mp hs
    obtain ⟨h₁, htimes, hslices, hdevices⟩ := h.findNewRanks hs₁
    have h₂ : WatchInv s₂ := by
      split at hs₂
      · rename_i htwo
        refine h₁.findNewSlices ?_ hs₂
        rw [hslices, hdevices]
        exact hok (by simpa using hserver) (by rwa [← htimes])
      · obtain rfl := some_inj.mp hs₂
        exact h₁
    exact ⟨h₂.known, h₂.latest⟩

/-- While no slice goes away whose rank id a normal device has, all normal devices of the last
snapshot stay imported. -/
theorem imported_of_unreused {entity : MemEntity} {s : WatchState}
    (hs : (watchSystem entity).ReachableBy unreused s) : RanksImported s := by
  have hstart : WatchInv (watchSystem entity).start :=
    ⟨fun r hr => absurd hr not_mem_nil, nofun⟩
  refine WatchInv.ranksImported (hs.invariant (I := WatchInv) hstart ?_)
  intro s s' e h hok hnext
  exact watchInv_next h hok hnext

/-! ### Runs -/

/-- The record of a device; two clients with one rank id differ in their version. -/
def deviceRecord (status : UInt8) (version rank : ℕ) : StoredRecord where
  status := status
  data := Bytes.le 8 entityExportInfoMagic ++ Bytes.le 8 version ++ Bytes.le 2 rank ++
    List.replicate 102 0 ++ bareRecord entityExportInfoMagic unifiedExchangeSegInfoSize

def sliceRecord (status : UInt8) (rank : ℕ) : StoredRecord where
  status := status
  data := List.replicate 40 0 ++ Bytes.le 2 rank ++ List.replicate 6 0 ++
    bareRecord hbmSliceExportInfoMagic sliceExportTransportKeySize ++
    bareRecord hbmSliceExportInfoMagic unifiedExchangeSegInfoSize

/-- A client with rank id 1 and its slice, until the slice is imported in the third loop. -/
def firstClientLoops : List WatchEvent :=
  List.replicate 3 (.loop true .succeeding (some [deviceRecord normal 1 1])
    (some [sliceRecord normal 1]))

/-- The client has died, and one with rank id 2 has come. -/
theorem imported_of_unreused_new_rank : ∃ s, (watchSystem (transEntity true)).ReachableBy unreused s ∧
    s.latest = [deviceRecord abnormal 1 1, deviceRecord normal 2 2] ∧ RanksImported s := by
  refine TransitionSystem.exists_reachableBy (firstClientLoops ++ [.loop true .succeeding (some
    [deviceRecord abnormal 1 1, deviceRecord normal 2 2]) (some [sliceRecord abnormal 1])])
    WatchState.latest [deviceRecord abnormal 1 1, deviceRecord normal 2 2] ?_
    fun s hreach hlatest => ?_
  · decide +kernel
  exact ⟨hlatest, imported_of_unreused hreach⟩

/-- A client takes over the rank id of one that died, and is removed in its place. -/
theorem reused_rank_removed : ∃ s, (watchSystem (transEntity true)).Reachable s ∧
    s.latest = [deviceRecord normal 2 1] ∧ s.entity.importedRanks.lookup 1 = none ∧
    ¬ RanksImported s := by
  refine TransitionSystem.exists_reachable (firstClientLoops ++ [.loop true .succeeding (some
    [deviceRecord normal 2 1]) (some [sliceRecord abnormal 1])]) (fun s => (s.latest,
    s.entity.importedRanks.lookup 1)) ([deviceRecord normal 2 1], none) ?_ fun s _ heq => ?_
  · decide +kernel
  rw [Prod.mk.injEq] at heq
  refine ⟨heq.1, heq.2, fun himp => ?_⟩
  have hrank := himp (deviceRecord normal 2 1) (by rw [heq.1]; exact mem_cons_self) rfl
  rw [show exportRankId (deviceRecord normal 2 1).data = 1 by decide +kernel, heq.2] at hrank
  cases hrank

end Trans
