/-
What an entity imports from the descriptors of other ranks.

`hybm_import` hands the descriptors to `ImportExchangeInfo`, or with the flag for entities to
`ImportEntityExchangeInfo`.  Both read the transport part of every descriptor first; the one
then gives all segment parts to the segment that the first one belongs to, the other gives the
first one to the HBM segment.
-/
import MemFabric.ExchangeInfo

namespace Hybm

open ExchangeInfoReader List Option

/-- `hybm_scene`. -/
inductive Scene
  | default
  | trans
  | shm
  deriving DecidableEq

/-- `sizeof(EntityExportInfo)`. -/
def entityExportInfoSize : ℕ := 120

/-- `sizeof(SliceExportTransportKey)`. -/
def sliceExportTransportKeySize : ℕ := 248

/-- `MemEntityDefault`.  Records are kept as the memory they were copied from. -/
structure MemEntity where
  initialized : Bool
  scene : Scene
  rankId : ℕ
  rankCount : ℕ
  role : ℕ
  globalUniqueAddress : Bool
  /-- There is a transport manager. -/
  transport : Bool
  transportPrepared : Bool
  importedRanks : OrderedMap ℕ Bytes
  importedMemories : OrderedMap ℕ (List Bytes)
  hbmSegment : Option MemSegment
  dramSegment : Option MemSegment

/-- The fields of `EntityExportInfo`. -/
def exportRankId (info : Bytes) : ℕ := field 16 2 info

def exportRole (info : Bytes) : ℕ := field 18 2 info

def exportNic (info : Bytes) : Bytes := ((info.drop 24).take 64).takeWhile (· ≠ 0)

def exportTag (info : Bytes) : Bytes := ((info.drop 88).take 32).takeWhile (· ≠ 0)

/-- The reading of the transport parts: what is returned, the entity, whether an entity was among
the descriptors, and the readers behind what they have read. -/
structure TransportImport where
  result : Result
  entity : MemEntity
  importInfoEntity : Bool
  readers : List ExchangeInfoReader

/-- What a call leaves: what it returns, the entity, the addresses, and the infos that it has given
to `Import` of a segment. -/
structure ImportOutcome where
  result : Result
  entity : MemEntity
  addresses : Option (List ℕ)
  given : List (SegmentSide × Bytes)

namespace MemEntity

variable (e : MemEntity) (env : ImportEnv)

def segment : SegmentSide → Option MemSegment
  | .hbm => e.hbmSegment
  | .dram => e.dramSegment

def putRank (info : Bytes) : MemEntity :=
  { e with importedRanks := e.importedRanks.insert (exportRankId info) info }

/-- A memory key is added to those of its rank, or takes their place. -/
def putMemory (key : Bytes) : MemEntity :=
  let rank := field 8 2 key
  let before := if e.globalUniqueAddress then [] else (e.importedMemories.lookup rank).getD []
  { e with importedMemories := e.importedMemories.insert rank (before ++ [key.drop 24]) }

def importForTransportPrecheck (e : MemEntity) : List ExchangeInfoReader → TransportImport
  | [] => ⟨.ok, e, false, []⟩
  | r :: rest =>
    match r.test 8 with
    | none => ⟨.error, e, false, r :: rest⟩
    | some magic =>
      if Bytes.leValue magic = entityExportInfoMagic then
        match r.read entityExportInfoSize with
        | none => ⟨.error, e, false, r :: rest⟩
        | some (info, r') =>
          let next := (e.putRank info).importForTransportPrecheck rest
          { next with importInfoEntity := true, readers := r' :: next.readers }
      else if Bytes.leValue magic = dramSliceExportInfoMagic ∨
          Bytes.leValue magic = hbmSliceExportInfoMagic then
        match r.read sliceExportTransportKeySize with
        | none => ⟨.error, e, false, r :: rest⟩
        | some (key, r') =>
          let next := (e.putMemory key).importForTransportPrecheck rest
          { next with readers := r' :: next.readers }
      else ⟨.error, e, false, r :: rest⟩

def importForTagManager : Result :=
  firstError (e.importedRanks.entries.map fun rank => env.addRankTag rank.1 (exportTag rank.2))

/-- The options for `ConnectWithOptions`: role, nic and memory keys of each rank, without those of
the own role if that is not a peer. -/
def transOptions : List (ℕ × ℕ × Bytes × List Bytes) :=
  (e.importedRanks.entries.filter fun rank => e.role = 0 ∨ exportRole rank.2 ≠ e.role).map
    fun rank => (rank.1, exportRole rank.2, exportNic rank.2,
      (e.importedMemories.lookup rank.1).getD [])

def importForTransport (desc : List ExchangeInfoReader) : TransportImport :=
  let t := e.importForTransportPrecheck desc
  if t.result ≠ .ok then t
  else if t.importInfoEntity ∧ t.entity.importForTagManager env ≠ .ok then
    { t with result := .error }
  else if env.connectWithOptions t.entity.transOptions ≠ .ok then
    { t with result := env.connectWithOptions t.entity.transOptions }
  else if t.importInfoEntity then { t with result := env.updateHybmDeviceInfo }
  else t

/-- All infos go to one segment; `none` if there is no such segment to be called. -/
def importInto (side : SegmentSide) (infos : List Bytes)
    (addresses : Option (List ℕ)) : Option ImportOutcome :=
  (e.segment side).map fun seg =>
    { result := (seg.importInfos e.rankId env infos addresses).1
      entity := e
      addresses := (seg.importInfos e.rankId env infos addresses).2
      given := infos.map fun info => (side, info) }

def importExchangeInfo (desc : List ExchangeInfoReader)
    (addresses : Option (List ℕ)) : Option ImportOutcome :=
  if e.initialized = false then some ⟨.notInitialized, e, addresses, []⟩
  else if env.setThreadAclDevice ≠ .ok then some ⟨.error, e, addresses, []⟩
  else
    let t := if e.transport then e.importForTransport env desc else ⟨.ok, e, false, desc⟩
    if t.result ≠ .ok then some ⟨t.result, t.entity, addresses, []⟩
    else
      match t.readers with
      -- Without a descriptor the pointer is null.
      | [] => some ⟨.error, t.entity, addresses, []⟩
      | first :: rest =>
        if first.leftBytes = 0 then some ⟨.ok, t.entity, addresses, []⟩
        else
          match first.test 8 with
          | none => some ⟨.ok, t.entity, addresses, []⟩
          | some magic =>
            t.entity.importInto env (if isDramSlice (Bytes.leValue magic) then .dram else .hbm)
              ((first :: rest).map ExchangeInfoReader.leftToString) addresses

/-- The options for `Prepare` and `UpdateRankOptions`. -/
def prepareOptions : List (ℕ × ℕ × Bytes) :=
  e.importedRanks.entries.map fun rank => (exportRankId rank.2, exportRole rank.2, exportNic rank.2)

def importForTransportManager : Result × MemEntity :=
  if e.transport = false then (.ok, e)
  else
    let ret :=
      if e.transportPrepared then env.updateRankOptions e.prepareOptions
      else if env.prepare e.prepareOptions ≠ .ok then env.prepare e.prepareOptions
      else env.connect
    if ret ≠ .ok then (ret, e) else (.ok, { e with transportPrepared := true })

def importEntityExchangeInfo (desc : List ExchangeInfoReader)
    (addresses : Option (List ℕ)) : Option ImportOutcome :=
  if e.initialized = false then some ⟨.notInitialized, e, addresses, []⟩
  else
    match desc.mapM fun r => r.read entityExportInfoSize with
    | none => some ⟨.invalidParam, e, addresses, []⟩
    | some reads =>
      let e' := (reads.map Prod.fst).foldl putRank e
      if e'.importForTagManager env ≠ .ok then some ⟨.error, e', addresses, []⟩
      else
        let t := e'.importForTransportManager env
        if t.1 ≠ .ok then some ⟨.error, t.2, addresses, []⟩
        else if e.scene ≠ .trans then some ⟨.ok, t.2, addresses, []⟩
        else
          match t.2.hbmSegment, reads with
          | none, _ => some ⟨.error, t.2, addresses, []⟩
          | some _, [] => some ⟨.invalidParam, t.2, addresses, []⟩
          | some seg, (_, r) :: _ =>
            let out := seg.importInfos e.rankId env [r.leftToString] none
            some ⟨if out.1 = .ok then .ok else .error, t.2, addresses, [(.hbm, r.leftToString)]⟩

/-- `hybm_import`; `exportEntity` is the flag `HYBM_FLAG_EXPORT_ENTITY`. -/
def hybmImport (allExInfo : List Bytes)
    (addresses : Option (List ℕ)) (exportEntity : Bool) : Option ImportOutcome :=
  if allExInfo = [] then some ⟨.invalidParam, e, addresses, []⟩
  else
    let readers := allExInfo.map ExchangeInfoReader.reset
    if exportEntity then e.importEntityExchangeInfo env readers addresses
    else e.importExchangeInfo env readers addresses

/-- `RemoveImported` of a segment; `HybmDevUserLegacySegment` takes every rank. -/
def segmentRemoveImported (rank : ℕ) : Option MemSegment → Result
  | none => .ok
  | some .devUserLegacy => .ok
  | some (.vmmBased _ false) => .ok
  | some _ => if e.rankCount ≤ rank then .invalidParam else .ok

/-- `RemoveImported`, as `hybm_remove_imported` calls it with one rank. -/
def removeImported (rank : ℕ) : Result × MemEntity :=
  if e.initialized = false then (.notInitialized, e)
  else if e.segmentRemoveImported rank e.hbmSegment ≠ .ok then
    (e.segmentRemoveImported rank e.hbmSegment, e)
  else if e.segmentRemoveImported rank e.dramSegment ≠ .ok then
    (e.segmentRemoveImported rank e.dramSegment, e)
  else if e.transport then
    (.ok,
      { e with
        importedRanks := e.importedRanks.erase rank
        importedMemories := e.importedMemories.erase rank })
  else (.ok, e)

end MemEntity

/-! ### Descriptors -/

/-- A descriptor: its transport part and its segment part. -/
structure Descriptor where
  header : Bytes
  part : Bytes

def TransportHeader (header : Bytes) : Prop :=
  (header.length = entityExportInfoSize ∧ magicOf header = entityExportInfoMagic) ∨
    (header.length = sliceExportTransportKeySize ∧
      (magicOf header = dramSliceExportInfoMagic ∨ magicOf header = hbmSliceExportInfoMagic))
  deriving Decidable

def SegmentPart (part : Bytes) : Prop :=
  8 ≤ part.length ∧ magicOf part ∈ [entityExportInfoMagic, hbmSliceExportInfoMagic,
    dramSliceExportInfoMagic, vmmBaseHbmSliceExportInfoMagic, vmmBaseDramSliceExportInfoMagic]
  deriving Decidable

namespace Descriptor

def bytes (d : Descriptor) : Bytes := d.header ++ d.part

def side (d : Descriptor) : SegmentSide := if isDramSlice (magicOf d.part) then .dram else .hbm

/-- What an entity like this one exports: in the trans scene an entity goes with the record of its
device, and a slice has a memory key if there is a transport. -/
def Valid (e : MemEntity) (exportEntity : Bool) (d : Descriptor) : Prop :=
  if exportEntity then
    d.header.length = entityExportInfoSize ∧ magicOf d.header = entityExportInfoMagic ∧
      if e.scene = .trans then SegmentPart d.part ∧ magicOf d.part = entityExportInfoMagic
      else d.part = []
  else
    (if e.transport then TransportHeader d.header else d.header = []) ∧
      (d.part = [] ∨ SegmentPart d.part)

instance (e : MemEntity) (exportEntity : Bool) (d : Descriptor) :
    Decidable (d.Valid e exportEntity) := by
  unfold Valid
  infer_instance

/-- The address that belongs to the descriptor, if its segment returns one. -/
def addressIn (e : MemEntity) (env : ImportEnv) (d : Descriptor) : Option ℕ :=
  (e.segment d.side).bind fun seg => seg.addressOf env d.part

def reader (d : Descriptor) : ExchangeInfoReader := ⟨d.bytes, d.header.length⟩

end Descriptor

/-- Every segment part has been given to `Import` once, of the segment that it is for, and the
addresses are those of the descriptors. -/
structure ImportOutcome.Complete (e : MemEntity) (env : ImportEnv) (descs : List Descriptor)
    (addresses : Option (List ℕ)) (exportEntity : Bool) (out : ImportOutcome) : Prop where
  given : out.given.Perm ((descs.filter fun d => d.part ≠ []).map fun d => (d.side, d.part))
  addresses : exportEntity = false → out.addresses =
    addresses.map fun before => List.zipWith (fun d a => (d.addressIn e env).getD a) descs before

/-- All segment parts are for one segment or there are none, and in the trans scene an entity comes
alone. -/
def Uniform (e : MemEntity) (exportEntity : Bool) (descs : List Descriptor) : Prop :=
  if exportEntity then e.scene = .trans → descs.length ≤ 1
  else (∀ d ∈ descs, d.part = []) ∨ ∃ side, ∀ d ∈ descs, d.part ≠ [] ∧ d.side = side

/-- The entity is not initialised, or the segment for the first part is not there or does not take
what it is given. -/
def MemEntity.Refuses (e : MemEntity) (exportEntity : Bool) (descs : List Descriptor) : Prop :=
  e.initialized = false ∨ ∃ first ∈ descs.head?, first.part ≠ [] ∧
    ∀ seg ∈ e.segment first.side,
      ¬ seg.Takes e.rankId (if exportEntity then [first.part] else descs.map Descriptor.part)

/-- Whenever the import returns `BM_OK` it is complete. -/
def ImportsAll (e : MemEntity) (exportEntity : Bool) (descs : List Descriptor)
    (addresses : Option (List ℕ)) : Prop :=
  ∀ env out, e.hybmImport env (descs.map Descriptor.bytes) addresses exportEntity = some out →
    out.result = .ok → out.Complete e env descs addresses exportEntity

/-! ### The transport parts -/

variable {d : Descriptor} {descs : List Descriptor} {e e' : MemEntity} {env : ImportEnv}
  {f : Descriptor → Option ℕ} {before : List ℕ} {addresses : Option (List ℕ)} {out : ImportOutcome}

theorem test_eight (h : 8 ≤ d.header.length) :
    (ExchangeInfoReader.reset d.bytes).test 8 = some (d.header.take 8) := by
  rw [reset, Descriptor.bytes, test_zero, take_append_of_le_length h]
  rw [length_append]
  omega

theorem read_header (d : Descriptor) :
    (ExchangeInfoReader.reset d.bytes).read d.header.length = some (d.header, d.reader) :=
  read_append

theorem leValue_take_eight (data : Bytes) : Bytes.leValue (data.take 8) = magicOf data := by
  rw [magicOf, field, drop_zero]

/-- The segments and the rank stay as they are. -/
structure MemEntity.SameSegments (e e' : MemEntity) : Prop where
  rankId : e'.rankId = e.rankId
  hbm : e'.hbmSegment = e.hbmSegment
  dram : e'.dramSegment = e.dramSegment

theorem importForTransportPrecheck_valid :
    ∀ {e : MemEntity}, (∀ d ∈ descs, TransportHeader d.header) →
      let t := e.importForTransportPrecheck (descs.map fun d => reset d.bytes)
      t.result = .ok ∧ t.readers = descs.map Descriptor.reader ∧ e.SameSegments t.entity := by
  induction descs with
  | nil =>
    intro e _
    exact ⟨rfl, rfl, rfl, rfl, rfl⟩
  | cons d descs ih =>
    intro e h
    have hd := h d mem_cons_self
    have hrest : ∀ d ∈ descs, TransportHeader d.header :=
      fun d hd => h d (mem_cons_of_mem _ hd)
    simp only [map_cons, MemEntity.importForTransportPrecheck]
    rcases hd with ⟨hlength, hmagic⟩ | ⟨hlength, hmagic⟩
    · have hread := read_header d
      rw [hlength] at hread
      rw [test_eight (by rw [hlength]; decide)]
      simp only [leValue_take_eight, hmagic, if_true, hread]
      obtain ⟨hres, hreaders, hsame⟩ := ih (e := e.putRank d.header) hrest
      exact ⟨hres, by rw [hreaders], hsame.rankId, hsame.hbm, hsame.dram⟩
    have hread := read_header d
    rw [hlength] at hread
    have hne : magicOf d.header ≠ entityExportInfoMagic := by
      rcases hmagic with hmagic | hmagic <;> rw [hmagic] <;> decide
    rw [test_eight (by rw [hlength]; decide)]
    simp only [leValue_take_eight, hne, hmagic, if_true, if_false, hread]
    obtain ⟨hres, hreaders, hsame⟩ := ih (e := e.putMemory d.header) hrest
    exact ⟨hres, by rw [hreaders], hsame.rankId, hsame.hbm, hsame.dram⟩

theorem importForTagManager_succeeding (e : MemEntity) :
    e.importForTagManager .succeeding = .ok := by
  refine firstError_eq_ok_iff.mpr fun answer hanswer => ?_
  exact (mem_map.mp hanswer).elim fun _ h => h.2.symm

theorem importForTransport_keeps (e : MemEntity) (env : ImportEnv)
    (desc : List ExchangeInfoReader) :
    (e.importForTransport env desc).readers = (e.importForTransportPrecheck desc).readers ∧
      (e.importForTransport env desc).entity = (e.importForTransportPrecheck desc).entity := by
  rw [MemEntity.importForTransport]
  split_ifs <;> exact ⟨rfl, rfl⟩

theorem reset_eq_reader (h : d.header = []) : ExchangeInfoReader.reset d.bytes = d.reader := by
  rw [Descriptor.reader, reset, h, length_nil]

/-! ### The addresses -/

theorem addressOf_nil (seg : MemSegment) (env : ImportEnv) : seg.addressOf env [] = none := by
  cases seg with
  | devLegacy | connBased | devUserLegacy => rfl
  | vmmBased segType shared =>
    cases segType <;> simp [MemSegment.addressOf, vmmKeeps, field, Bytes.leValue]

theorem addressIn_of_part_nil (h : d.part = []) : d.addressIn e env = none := by
  rw [Descriptor.addressIn, h]
  cases e.segment d.side with
  | none => rfl
  | some seg => exact addressOf_nil seg env

theorem writeAddresses_eq_zipWith (h : before.length = descs.length) :
    MemSegment.writeAddresses (descs.map f) before =
      List.zipWith (fun d a => (f d).getD a) descs before := by
  rw [MemSegment.writeAddresses, zipWith_map_left, length_map, drop_of_length_le h.le, append_nil]

theorem zipWith_getD_none (h : before.length = descs.length) (hf : ∀ d ∈ descs, f d = none) :
    List.zipWith (fun d a => (f d).getD a) descs before = before := by
  induction descs generalizing before with
  | nil =>
    rw [zipWith_nil_left]
    exact (eq_nil_of_length_eq_zero h).symm
  | cons d descs ih =>
    cases before with
    | nil => rfl
    | cons a before =>
      rw [zipWith_cons_cons, hf d mem_cons_self, getD_none,
        ih (Nat.succ.inj h) fun d hd => hf d (mem_cons_of_mem _ hd)]

/-! ### The segment parts -/

theorem transport_of_valid (env : ImportEnv) (hvalid : ∀ d ∈ descs, d.Valid e false) :
    let desc := descs.map fun d => reset d.bytes
    let t := if e.transport then e.importForTransport env desc else ⟨.ok, e, false, desc⟩
    t.readers = descs.map Descriptor.reader ∧ e.SameSegments t.entity ∧
      (env = .succeeding → t.result = .ok) := by
  intro desc t
  by_cases htrans : e.transport = true
  · have hhdr : ∀ d ∈ descs, TransportHeader d.header := by
      intro d hd
      simpa [Descriptor.Valid, htrans] using (hvalid d hd).1
    obtain ⟨hres, hreaders, hsame⟩ := importForTransportPrecheck_valid (e := e) hhdr
    obtain ⟨hkeep, hentity⟩ := importForTransport_keeps e env desc
    simp only [t, htrans, if_true, hkeep, hentity]
    refine ⟨hreaders, hsame, ?_⟩
    rintro rfl
    rw [MemEntity.importForTransport]
    simp only [desc, hres, importForTagManager_succeeding, ne_eq, not_true_eq_false, and_false,
      if_false]
    simp only [ImportEnv.succeeding, not_true_eq_false, if_false]
    split
    · rfl
    · exact hres
  simp only [t, htrans]
  refine ⟨map_congr_left fun d hd => reset_eq_reader ?_, ⟨rfl, rfl, rfl⟩, fun _ => rfl⟩
  have hd := (hvalid d hd).1
  simpa [htrans] using hd

theorem leftBytes_reader (d : Descriptor) : d.reader.leftBytes = d.part.length :=
  leftBytes_append

theorem leftToString_reader (d : Descriptor) : d.reader.leftToString = d.part :=
  leftToString_append

theorem test_reader (h : 8 ≤ d.part.length) : d.reader.test 8 = some (d.part.take 8) := by
  apply test_append
  rw [length_append]
  omega

theorem MemEntity.SameSegments.segment (h : e.SameSegments e') (side : SegmentSide) :
    e'.segment side = e.segment side := by
  cases side with
  | hbm => exact h.hbm
  | dram => exact h.dram

theorem complete_of_part_nil (hlength : ∀ before ∈ addresses, before.length = descs.length)
    (hempty : ∀ d ∈ descs, d.part = []) :
    ImportOutcome.Complete e env descs addresses false ⟨.ok, e', addresses, []⟩ where
  given := by
    rw [filter_eq_nil_iff.mpr fun d hd => by simp [hempty d hd], map_nil]
  addresses := by
    intro _
    cases addresses with
    | none => rfl
    | some before =>
      rw [map_some, zipWith_getD_none (hlength before rfl) fun d hd =>
        addressIn_of_part_nil (hempty d hd)]

theorem complete_of_importInfos {side : SegmentSide} {seg : MemSegment} {rankId : ℕ}
    (hlength : ∀ before ∈ addresses, before.length = descs.length)
    (hside : ∀ d ∈ descs, d.part ≠ [] ∧ d.side = side) (hseg : e.segment side = some seg)
    (hok : (seg.importInfos rankId env (descs.map Descriptor.part) addresses).1 = .ok) :
    ImportOutcome.Complete e env descs addresses false
      ⟨(seg.importInfos rankId env (descs.map Descriptor.part) addresses).1, e',
        (seg.importInfos rankId env (descs.map Descriptor.part) addresses).2,
        (descs.map Descriptor.part).map fun info => (side, info)⟩ where
  given := by
    have hall : descs.filter (fun d => d.part ≠ []) = descs :=
      filter_eq_self.mpr fun d hd => by simp [(hside d hd).1]
    rw [hall, List.map_map]
    refine List.Perm.of_eq (map_congr_left fun d hd => ?_)
    rw [Function.comp, (hside d hd).2]
  addresses := by
    intro _
    have haddr : ∀ d ∈ descs, seg.addressOf env d.part = d.addressIn e env := by
      intro d hd
      rw [Descriptor.addressIn, (hside d hd).2, hseg, bind_some]
    dsimp only
    rw [MemSegment.importInfos_addresses hok, List.map_map]
    cases addresses with
    | none => rfl
    | some before =>
      rw [map_some, map_some, ← writeAddresses_eq_zipWith (hlength before rfl)]
      congr 2
      exact map_congr_left haddr

theorem ok_of_eq_some {o : ImportOutcome} (h : some o = some out) (hok : out.result = .ok) :
    o.result = .ok := by
  rwa [some_inj.mp h]

/-- What is behind the checks and the transport parts: without a part of the first descriptor
nothing is imported, otherwise all parts go to the segment of the first one. -/
def importParts (env : ImportEnv) (e' : MemEntity) (first : Descriptor) (descs : List Descriptor)
    (addresses : Option (List ℕ)) : Option ImportOutcome :=
  if first.part = [] then some ⟨.ok, e', addresses, []⟩
  else e'.importInto env first.side (descs.map Descriptor.part) addresses

theorem importExchangeInfo_parts (hvalid : ∀ d ∈ descs, d.Valid e false) :
    ∃ result e', e.SameSegments e' ∧ (env = .succeeding → result = .ok) ∧
      e.importExchangeInfo env (descs.map fun d => reset d.bytes) addresses =
        if e.initialized = false then some ⟨.notInitialized, e, addresses, []⟩
        else if env.setThreadAclDevice ≠ .ok then some ⟨.error, e, addresses, []⟩
        else if result ≠ .ok then some ⟨result, e', addresses, []⟩
        else
          match descs.head? with
          | none => some ⟨.error, e', addresses, []⟩
          | some first => importParts env e' first descs addresses := by
  obtain ⟨hreaders, hsame, hok⟩ := transport_of_valid env hvalid
  rw [MemEntity.importExchangeInfo]
  extract_lets t
  change t.readers = _ at hreaders
  change e.SameSegments t.entity at hsame
  refine ⟨t.result, t.entity, hsame, hok, ?_⟩
  clear_value t
  rw [hreaders]
  cases descs with
  | nil => rfl
  | cons d descs =>
    simp only [map_cons, leftBytes_reader, head?_cons, importParts]
    by_cases hnil : d.part = []
    · simp [hnil]
    have hpart : SegmentPart d.part := (hvalid d mem_cons_self).2.resolve_left hnil
    have hparts : (descs.map Descriptor.reader).map leftToString =
        descs.map Descriptor.part := by
      rw [List.map_map]
      exact map_congr_left fun d _ => leftToString_reader d
    rw [if_neg fun hzero => hnil (eq_nil_of_length_eq_zero hzero), if_neg hnil,
      test_reader hpart.1, leftToString_reader, hparts]
    rfl

theorem importParts_complete (hsame : e.SameSegments e')
    (hlength : ∀ before ∈ addresses, before.length = descs.length)
    {first : Descriptor} (hfirst : first ∈ descs) (huniform : Uniform e false descs)
    (hout : importParts env e' first descs addresses = some out) (hok : out.result = .ok) :
    out.Complete e env descs addresses false := by
  simp only [Uniform, Bool.false_eq_true, if_false] at huniform
  unfold importParts at hout
  rcases huniform with hempty | ⟨side, hside⟩
  · rw [if_pos (hempty first hfirst)] at hout
    obtain rfl := some_inj.mp hout
    exact complete_of_part_nil hlength hempty
  obtain ⟨hne, hd⟩ := hside first hfirst
  rw [if_neg hne, hd, MemEntity.importInto, hsame.segment] at hout
  obtain ⟨seg, hseg, rfl⟩ := map_eq_some_iff.mp hout
  exact complete_of_importInfos hlength hside hseg hok

/-- If the calls succeed and the parts are taken, then the import is complete only if the parts are
all for one segment. -/
theorem uniform_of_importParts (hsame : e.SameSegments e') {first : Descriptor}
    (htaken : first.part ≠ [] → ∃ seg ∈ e.segment first.side,
      seg.Takes e.rankId (descs.map Descriptor.part))
    (hall : ∀ out, importParts .succeeding e' first descs addresses = some out →
      out.result = .ok → out.Complete e .succeeding descs addresses false) :
    Uniform e false descs := by
  simp only [Uniform, Bool.false_eq_true, if_false]
  unfold importParts at hall
  by_cases hnil : first.part = []
  · rw [if_pos hnil] at hall
    have hgiven := map_eq_nil_iff.mp (perm_nil.mp (hall _ rfl rfl).given.symm)
    exact .inl fun d hd => by simpa using filter_eq_nil_iff.mp hgiven d hd
  obtain ⟨seg, hseg, htakes⟩ := htaken hnil
  rw [if_neg hnil, MemEntity.importInto, hsame.segment, mem_def.mp hseg, hsame.rankId] at hall
  have hok := @MemSegment.ok_of_takes seg e.rankId (descs.map Descriptor.part) addresses htakes
  have hgiven := (hall _ rfl hok).given
  rw [List.map_map] at hgiven
  -- every part was given, and to one segment
  have hfilter : descs.filter (fun d => d.part ≠ []) = descs := by
    refine filter_eq_self.mpr (length_filter_eq_length_iff.mp ?_)
    simpa using hgiven.length_eq.symm
  refine .inr ⟨first.side, fun d hd => ⟨by simpa using filter_eq_self.mp hfilter d hd, ?_⟩⟩
  rw [hfilter] at hgiven
  obtain ⟨d', -, heq⟩ := mem_map.mp (hgiven.mem_iff.mpr (mem_map_of_mem hd))
  exact (Prod.mk.inj heq).1.symm

theorem importExchangeInfo_iff (hlength : ∀ before ∈ addresses, before.length = descs.length)
    (hvalid : ∀ d ∈ descs, d.Valid e false) :
    (∀ env out, e.importExchangeInfo env (descs.map fun d => reset d.bytes) addresses = some out →
      out.result = .ok → out.Complete e env descs addresses false) ↔
      Uniform e false descs ∨ e.Refuses false descs := by
  constructor
  · intro hall
    by_contra hnot
    obtain ⟨hmixed, htaken⟩ := not_or.mp hnot
    simp only [MemEntity.Refuses, not_or, Bool.not_eq_false, not_exists, not_and,
      Bool.false_eq_true, if_false] at htaken
    obtain ⟨hinit, htaken⟩ := htaken
    obtain ⟨result, e', hsame, hresult, himport⟩ :=
      @importExchangeInfo_parts descs e .succeeding addresses hvalid
    rw [hresult rfl] at himport
    cases hfirst : descs.head? with
    | none =>
      rw [head?_eq_none_iff.mp hfirst] at hmixed
      exact hmixed (.inl nofun)
    | some first =>
      simp only [hinit, hfirst, ImportEnv.succeeding, Bool.true_eq_false, ne_eq, not_true_eq_false,
        if_false] at himport
      refine hmixed (@uniform_of_importParts descs e e' addresses hsame first (fun hne => ?_)
        fun out hout => ?_)
      · simpa using htaken first hfirst hne
      · exact hall .succeeding out (himport.trans hout)
  intro hcondition env out hout hok
  obtain ⟨result, e', hsame, -, himport⟩ := @importExchangeInfo_parts descs e env addresses hvalid
  rw [himport] at hout
  split at hout
  · exact absurd (ok_of_eq_some hout hok) (by simp)
  next hinit =>
  split at hout
  · exact absurd (ok_of_eq_some hout hok) (by simp)
  split at hout
  · next hres => exact absurd (ok_of_eq_some hout hok) hres
  split at hout
  · exact absurd (ok_of_eq_some hout hok) (by simp)
  next first hfirst =>
  rcases hcondition with huniform | hinit' | ⟨first', hfirst', hne, hrefuses⟩
  · exact importParts_complete hsame hlength (mem_of_mem_head? hfirst) huniform hout hok
  · exact absurd hinit' hinit
  obtain rfl := some_inj.mp (hfirst.symm.trans hfirst')
  rw [importParts, if_neg hne, MemEntity.importInto, hsame.segment] at hout
  obtain ⟨seg, hseg, rfl⟩ := map_eq_some_iff.mp hout
  have htakes := @MemSegment.takes_of_ok _ _ _ _ addresses hok
  rw [hsame.rankId] at htakes
  exact absurd htakes (hrefuses seg hseg)

theorem mapM_read_header (h : ∀ d ∈ descs, d.header.length = entityExportInfoSize) :
    ((descs.map fun d => ExchangeInfoReader.reset d.bytes).mapM
      fun r => r.read entityExportInfoSize) = some (descs.map fun d => (d.header, d.reader)) := by
  induction descs with
  | nil => rfl
  | cons d descs ih =>
    have hd := read_header d
    rw [h d mem_cons_self] at hd
    rw [map_cons, mapM_cons, hd, ih fun d hd => h d (mem_cons_of_mem _ hd)]
    rfl

theorem importForTransportManager_keeps (e : MemEntity) (env : ImportEnv) :
    e.SameSegments (e.importForTransportManager env).2 := by
  unfold MemEntity.importForTransportManager
  split
  · exact ⟨rfl, rfl, rfl⟩
  · dsimp only
    split_ifs <;> exact ⟨rfl, rfl, rfl⟩

theorem importForTransportManager_succeeding (e : MemEntity) :
    (e.importForTransportManager .succeeding).1 = .ok := by
  unfold MemEntity.importForTransportManager
  split
  · rfl
  · simp [ImportEnv.succeeding]

theorem foldl_putRank_keeps (infos : List Bytes) (e : MemEntity) :
    e.SameSegments (infos.foldl MemEntity.putRank e) := by
  induction infos generalizing e with
  | nil => exact ⟨rfl, rfl, rfl⟩
  | cons info infos ih =>
    obtain ⟨hrank, hhbm, hdram⟩ := ih (e.putRank info)
    exact ⟨hrank, hhbm, hdram⟩

/-- In the trans scene an entity comes with the record of its device, for the HBM segment. -/
theorem hbm_of_valid (hd : d.Valid e true) (hscene : e.scene = .trans) :
    d.part ≠ [] ∧ d.side = .hbm := by
  have hpart : SegmentPart d.part ∧ magicOf d.part = entityExportInfoMagic := by
    simpa [Descriptor.Valid, hscene] using hd.2.2
  refine ⟨fun hnil => ?_, ?_⟩
  · have hlength := hpart.1.1
    rw [hnil] at hlength
    cases hlength
  · rw [Descriptor.side, hpart.2]
    rfl

/-- What is given to the HBM segment by an import of entities that succeeds. -/
theorem importEntityExchangeInfo_given (hvalid : ∀ d ∈ descs, d.Valid e true)
    (hout : e.importEntityExchangeInfo env (descs.map fun d => reset d.bytes) addresses = some out)
    (hok : out.result = .ok) :
    e.initialized = true ∧ (e.scene ≠ .trans ∧ out.given = [] ∨ e.scene = .trans ∧
      ∃ seg ∈ e.segment .hbm, ∃ first ∈ descs.head?,
        (seg.importInfos e.rankId env [first.part] none).1 = .ok ∧
          out.given = [(.hbm, first.part)]) := by
  rw [MemEntity.importEntityExchangeInfo, mapM_read_header fun d hd => (hvalid d hd).1] at hout
  dsimp only at hout
  split_ifs at hout with hinit htag htrans hscene
  iterate 3 exact absurd (ok_of_eq_some hout hok) (by simp)
  · exact ⟨Bool.not_eq_false _ ▸ hinit, .inl ⟨hscene, by rw [← some_inj.mp hout]⟩⟩
  refine ⟨Bool.not_eq_false _ ▸ hinit, .inr ⟨not_not.mp hscene, ?_⟩⟩
  have hseg : ((descs.map fun d => (d.header, d.reader)).map Prod.fst |>.foldl MemEntity.putRank e
      |>.importForTransportManager env).2.hbmSegment = e.hbmSegment := by
    rw [(importForTransportManager_keeps _ env).hbm, (foldl_putRank_keeps _ e).hbm]
  rw [hseg] at hout
  cases hhbm : e.hbmSegment with
  | none =>
    rw [hhbm] at hout
    exact absurd (ok_of_eq_some hout hok) (by simp)
  | some seg =>
    rw [hhbm] at hout
    cases descs with
    | nil => exact absurd (ok_of_eq_some hout hok) (by simp)
    | cons first rest =>
      refine ⟨seg, hhbm, first, rfl, ?_, ?_⟩
      · have hok := ok_of_eq_some hout hok
        rw [leftToString_reader] at hok
        by_contra hfail
        rw [if_neg hfail] at hok
        cases hok
      · rw [← some_inj.mp hout, leftToString_reader]

theorem importEntityExchangeInfo_succeeding (hvalid : ∀ d ∈ descs, d.Valid e true)
    (hinit : e.initialized = true) (hscene : e.scene = .trans) {seg : MemSegment}
    (hseg : e.hbmSegment = some seg) {first : Descriptor} (hfirst : descs.head? = some first)
    (htakes : seg.Takes e.rankId [first.part]) :
    ∃ out, e.importEntityExchangeInfo .succeeding (descs.map fun d => reset d.bytes) addresses =
      some out ∧ out.result = .ok ∧ out.given = [(.hbm, first.part)] := by
  obtain ⟨rest, rfl⟩ := head?_eq_some_iff.mp hfirst
  have hkept : (((first :: rest).map fun d => (d.header, d.reader)).map Prod.fst
      |>.foldl MemEntity.putRank e |>.importForTransportManager .succeeding).2.hbmSegment =
        some seg := by
    rw [(importForTransportManager_keeps _ _).hbm, (foldl_putRank_keeps _ e).hbm, hseg]
  rw [MemEntity.importEntityExchangeInfo, mapM_read_header fun d hd => (hvalid d hd).1]
  dsimp only
  rw [if_neg (by simp [hinit]), if_neg (by simp [importForTagManager_succeeding]),
    if_neg (by simp [importForTransportManager_succeeding]), if_neg (by simp [hscene]), hkept]
  refine ⟨_, rfl, ?_, ?_⟩
  · simp only [leftToString_reader, MemSegment.ok_of_takes htakes, if_true]
  · simp only [leftToString_reader]

theorem importEntityExchangeInfo_iff (hvalid : ∀ d ∈ descs, d.Valid e true) :
    (∀ env out, e.importEntityExchangeInfo env (descs.map fun d => reset d.bytes) addresses =
      some out → out.result = .ok → out.Complete e env descs addresses true) ↔
      Uniform e true descs ∨ e.Refuses true descs := by
  -- in the trans scene every descriptor has a part for the HBM segment
  have hparts : e.scene = .trans →
      (descs.filter fun d => d.part ≠ []).map (fun d => (d.side, d.part)) =
        descs.map fun d => (.hbm, d.part) := by
    intro hscene
    rw [filter_eq_self.mpr fun d hd => by simpa using (hbm_of_valid (hvalid d hd) hscene).1]
    exact map_congr_left fun d hd => by rw [(hbm_of_valid (hvalid d hd) hscene).2]
  constructor
  · intro hall
    by_contra hnot
    obtain ⟨hmany, htaken⟩ := not_or.mp hnot
    simp only [Uniform, if_true, Classical.not_imp, not_le] at hmany
    obtain ⟨hscene, hmany⟩ := hmany
    obtain ⟨first, hfirst⟩ : ∃ first, descs.head? = some first := by
      cases descs with
      | nil => cases hmany
      | cons first rest => exact ⟨first, rfl⟩
    obtain ⟨hne, hside⟩ := hbm_of_valid (hvalid first (mem_of_mem_head? hfirst)) hscene
    simp only [MemEntity.Refuses, not_or, Bool.not_eq_false, not_exists, not_and, if_true]
      at htaken
    have htaken' := htaken.2 first hfirst hne
    simp only [not_forall, not_not] at htaken'
    obtain ⟨seg, hseg, htakes⟩ := htaken'
    rw [hside] at hseg
    obtain ⟨out, hout, hok, hgiven⟩ := @importEntityExchangeInfo_succeeding descs e addresses
      hvalid htaken.1 hscene seg hseg first hfirst htakes
    have hlength := (hall _ out hout hok).given.length_eq
    rw [hgiven, hparts hscene, length_map, length_singleton] at hlength
    omega
  intro hcondition env out hout hok
  refine ⟨?_, nofun⟩
  obtain ⟨hinit, hcases⟩ := importEntityExchangeInfo_given hvalid hout hok
  rcases hcases with ⟨hscene, hgiven⟩ | ⟨hscene, seg, hseg, first, hfirst, himport, hgiven⟩
  · -- outside the trans scene the descriptors end with the entity
    have hempty : ∀ d ∈ descs, d.part = [] := by
      intro d hd
      simpa [Descriptor.Valid, hscene] using (hvalid d hd).2.2
    rw [hgiven, filter_eq_nil_iff.mpr fun d hd => by simp [hempty d hd], map_nil]
  rw [hgiven, hparts hscene]
  rcases hcondition with huniform | hinit' | ⟨first', hfirst', -, hrefuses⟩
  · simp only [Uniform, if_true] at huniform
    obtain ⟨rest, rfl⟩ := head?_eq_some_iff.mp hfirst
    have hone := huniform hscene
    rw [length_cons] at hone
    rw [eq_nil_of_length_eq_zero (by omega : rest.length = 0)]
    exact .refl _
  · rw [hinit] at hinit'
    cases hinit'
  · obtain rfl := some_inj.mp (hfirst.symm.trans hfirst')
    rw [(hbm_of_valid (hvalid _ (mem_of_mem_head? hfirst)) hscene).2] at hrefuses
    exact absurd (MemSegment.takes_of_ok himport) (hrefuses seg hseg)

/-- An import that returns `BM_OK` is complete, whatever the calls answer, exactly if the parts are
all for one segment, and entities come one at a time in the trans scene, or the import is refused
for its form. -/
theorem import_complete_iff {e : MemEntity} {descs : List Descriptor}
    {addresses : Option (List ℕ)} {exportEntity : Bool}
    (hlength : ∀ before ∈ addresses, before.length = descs.length)
    (hvalid : ∀ d ∈ descs, d.Valid e exportEntity) :
    ImportsAll e exportEntity descs addresses ↔
      Uniform e exportEntity descs ∨ e.Refuses exportEntity descs := by
  cases descs with
  | nil =>
    refine iff_of_true (fun env out hout hok => ?_) (.inl ?_)
    · exact absurd (ok_of_eq_some hout hok) (by simp)
    · cases exportEntity with
      | true => exact fun _ => zero_le_one
      | false => exact .inl nofun
  | cons first rest =>
    simp only [ImportsAll, MemEntity.hybmImport, map_cons, reduceCtorEq, if_false]
    cases exportEntity with
    | true =>
      simp only [if_true]
      simpa [Function.comp_def] using
        @importEntityExchangeInfo_iff (first :: rest) e addresses hvalid
    | false =>
      simp only [Bool.false_eq_true, if_false]
      simpa [Function.comp_def] using
        @importExchangeInfo_iff (first :: rest) e addresses hlength hvalid

/-! ### Runs -/

def bareRecord (magic size : ℕ) : Bytes := Bytes.le 8 magic ++ List.replicate (size - 8) 0

/-- An entity of the trans scene whose DRAM segment is VMM based. -/
def transEntity (transport : Bool) : MemEntity where
  initialized := true
  scene := .trans
  rankId := 0
  rankCount := 4
  role := 0
  globalUniqueAddress := false
  transport := transport
  transportPrepared := false
  importedRanks := .empty
  importedMemories := .empty
  hbmSegment := some .devUserLegacy
  dramSegment := some (.vmmBased .dram true)

/-- Two HBM slices. -/
theorem import_complete_two_slices :
    let slice : Descriptor := ⟨bareRecord hbmSliceExportInfoMagic sliceExportTransportKeySize,
      bareRecord hbmSliceExportInfoMagic unifiedExchangeSegInfoSize⟩
    ∃ out, (transEntity true).hybmImport .succeeding ([slice, slice].map Descriptor.bytes)
        (some [0, 0]) false = some out ∧ out.result = .ok ∧
      out.Complete (transEntity true) .succeeding [slice, slice] (some [0, 0]) false := by
  intro slice
  have hrun : ((transEntity true).hybmImport .succeeding ([slice, slice].map Descriptor.bytes)
      (some [0, 0]) false).map ImportOutcome.result = some .ok := by decide +kernel
  obtain ⟨out, hout, hok⟩ := map_eq_some_iff.mp hrun
  have huniform : Uniform (transEntity true) false [slice, slice] :=
    .inr ⟨.hbm, by decide +kernel⟩
  exact ⟨out, hout, hok,
    (import_complete_iff (by simp) (by decide +kernel)).mpr (.inl huniform) _ out hout hok⟩

theorem incomplete_of_sides {e : MemEntity} {env : ImportEnv} {descs : List Descriptor}
    {addresses : Option (List ℕ)} {exportEntity : Bool} (sides : List SegmentSide)
    (hrun : (e.hybmImport env (descs.map Descriptor.bytes) addresses exportEntity).map
      (fun out => (out.result, out.given.map Prod.fst)) = some (.ok, sides))
    (hsides : ¬ sides.Perm ((descs.filter fun d => d.part ≠ []).map Descriptor.side)) :
    ∃ out, e.hybmImport env (descs.map Descriptor.bytes) addresses exportEntity = some out ∧
      out.result = .ok ∧ ¬ out.Complete e env descs addresses exportEntity := by
  obtain ⟨out, hout, hrun⟩ := map_eq_some_iff.mp hrun
  obtain ⟨hok, rfl⟩ := Prod.mk.inj hrun
  refine ⟨out, hout, hok, fun hcomplete => hsides ?_⟩
  have hgiven := hcomplete.given.map Prod.fst
  rwa [List.map_map] at hgiven

/-- A DRAM slice in front of an HBM slice, and two entities. -/
theorem import_incomplete :
    let slices : List Descriptor :=
      [⟨[], bareRecord vmmBaseDramSliceExportInfoMagic unifiedExchangeSegInfoSize⟩,
        ⟨[], bareRecord hbmSliceExportInfoMagic unifiedExchangeSegInfoSize⟩]
    let entity : Descriptor := ⟨bareRecord entityExportInfoMagic entityExportInfoSize,
      bareRecord entityExportInfoMagic unifiedExchangeSegInfoSize⟩
    (∀ d ∈ slices, d.Valid (transEntity false) false) ∧
      (∃ out, (transEntity false).hybmImport .succeeding (slices.map Descriptor.bytes)
          (some [0, 0]) false = some out ∧ out.result = .ok ∧
        ¬ out.Complete (transEntity false) .succeeding slices (some [0, 0]) false) ∧
      entity.Valid (transEntity false) true ∧
      ∃ out, (transEntity false).hybmImport .succeeding ([entity, entity].map Descriptor.bytes)
          none true = some out ∧ out.result = .ok ∧
        ¬ out.Complete (transEntity false) .succeeding [entity, entity] none true := by
  intro slices entity
  refine ⟨by decide +kernel, incomplete_of_sides [.dram, .dram] ?_ ?_, by decide +kernel,
    incomplete_of_sides [.hbm] ?_ ?_⟩
  all_goals decide +kernel

/-! ### Memory keys -/

/-- The rank and the memory key of each slice among the descriptors. -/
def sliceKeys (desc : List ExchangeInfoReader) : List (ℕ × Bytes) :=
  desc.filterMap fun r => (r.test 8).bind fun magic =>
    if Bytes.leValue magic = entityExportInfoMagic then none
    else (r.read sliceExportTransportKeySize).map fun x => (field 8 2 x.1, x.1.drop 24)

/-- `live` has the slices that were imported and not removed since. -/
structure KeysState where
  entity : MemEntity
  live : List (ℕ × Bytes)

inductive KeysStep
  | importForTransport (env : ImportEnv) (desc : List ExchangeInfoReader)
  | removeImported (rank : ℕ)

/-- The calls that succeed, for an entity without imports. -/
def keysSystem (e : MemEntity) : TransitionSystem KeysState KeysStep where
  start := ⟨{ e with importedMemories := .empty }, []⟩
  next s
    | .importForTransport env desc =>
      let t := s.entity.importForTransport env desc
      if t.result = .ok then some ⟨t.entity, s.live ++ sliceKeys desc⟩ else none
    | .removeImported rank =>
      let r := s.entity.removeImported rank
      if r.1 = .ok then some ⟨r.2, s.live.filter fun x => x.1 ≠ rank⟩ else none

/-- With `globalUniqueAddress`, a rank exports one slice. -/
def oneSlice (s : KeysState) : KeysStep → Bool
  | .importForTransport _ desc => s.entity.globalUniqueAddress →
      ∀ x ∈ s.live ++ sliceKeys desc, ∀ y ∈ s.live ++ sliceKeys desc, x.1 = y.1 → x = y
  | .removeImported _ => true

def Covers (e : MemEntity) (live : List (ℕ × Bytes)) : Prop :=
  ∀ x ∈ live, x.2 ∈ (e.importedMemories.lookup x.1).getD []

theorem covers_putMemory {e : MemEntity} {live : List (ℕ × Bytes)} {key : Bytes}
    (h : Covers e live) (hone : e.globalUniqueAddress = true →
      ∀ x ∈ live, x.1 = field 8 2 key → x = (field 8 2 key, key.drop 24)) :
    Covers (e.putMemory key) (live ++ [(field 8 2 key, key.drop 24)]) := by
  intro x hx
  rw [MemEntity.putMemory, OrderedMap.lookup_insert]
  by_cases hrank : x.1 = field 8 2 key
  · rw [hrank, Function.update_self, getD_some]
    rcases mem_append.mp hx with hx | hx
    · split_ifs with hunique
      · rw [hone hunique x hx hrank]
        exact mem_cons_self
      · exact mem_append_left _ (hrank ▸ h x hx)
    · rw [mem_singleton.mp hx]
      exact mem_append_right _ mem_cons_self
  · rw [Function.update_of_ne hrank]
    refine h x ((mem_append.mp hx).resolve_right fun hx => hrank ?_)
    rw [mem_singleton.mp hx]

theorem covers_precheck {e : MemEntity} {live : List (ℕ × Bytes)}
    {desc : List ExchangeInfoReader} (h : Covers e live)
    (hone : e.globalUniqueAddress = true →
      ∀ x ∈ live ++ sliceKeys desc, ∀ y ∈ live ++ sliceKeys desc, x.1 = y.1 → x = y)
    (hok : (e.importForTransportPrecheck desc).result = .ok) :
    Covers (e.importForTransportPrecheck desc).entity (live ++ sliceKeys desc) := by
  induction desc generalizing e live with
  | nil =>
    rw [sliceKeys, filterMap_nil, append_nil]
    exact h
  | cons r desc ih =>
    rw [MemEntity.importForTransportPrecheck] at hok ⊢
    cases htest : r.test 8 with
    | none => simp [htest] at hok
    | some magic =>
      simp only [htest] at hok ⊢
      split_ifs at hok ⊢ with hentity hslice
      · cases hread : r.read entityExportInfoSize with
        | none => simp [hread] at hok
        | some x =>
          have hkeys : sliceKeys (r :: desc) = sliceKeys desc := by
            simp [sliceKeys, htest, hentity]
          rw [hkeys] at hone ⊢
          simp only [hread] at hok ⊢
          exact ih (e := e.putRank x.1) h hone hok
      · cases hread : r.read sliceExportTransportKeySize with
        | none => simp [hread] at hok
        | some x =>
          have hkeys : live ++ sliceKeys (r :: desc) =
              live ++ [(field 8 2 x.1, x.1.drop 24)] ++ sliceKeys desc := by
            simp [sliceKeys, htest, hentity, hread]
          rw [hkeys] at hone ⊢
          simp only [hread] at hok ⊢
          refine ih (covers_putMemory h fun hunique y hy hrank => ?_) hone hok
          exact hone hunique y (by simp [hy]) _ (by simp) hrank

/-- The transport gets the keys of all slices of a rank, if it has one slice or there is no
`globalUniqueAddress`. -/
theorem keys_complete_of_oneSlice {e : MemEntity} {s : KeysState}
    (h : (keysSystem e).ReachableBy (fun s a => oneSlice s a = true) s) :
    ∀ option ∈ s.entity.transOptions, ∀ x ∈ s.live, x.1 = option.1 → x.2 ∈ option.2.2.2 := by
  have hcovers : Covers s.entity s.live := by
    refine TransitionSystem.ReachableBy.invariant (I := fun s => Covers s.entity s.live)
      (fun _ hx => absurd hx not_mem_nil) ?_ h
    intro s s' a hs ha hnext
    cases a with
    | importForTransport env desc =>
      obtain ⟨hok, rfl⟩ := of_guard hnext
      have hprecheck : (s.entity.importForTransportPrecheck desc).result = .ok := by
        by_contra hne
        rw [MemEntity.importForTransport, if_pos hne] at hok
        exact hne hok
      dsimp only
      rw [(importForTransport_keeps s.entity env desc).2]
      exact covers_precheck hs (of_decide_eq_true ha) hprecheck
    | removeImported rank =>
      obtain ⟨-, rfl⟩ := of_guard hnext
      intro x hx
      obtain ⟨hx, hne⟩ := mem_filter.mp hx
      have hlook : (s.entity.removeImported rank).2.importedMemories.lookup x.1 =
          s.entity.importedMemories.lookup x.1 := by
        rw [MemEntity.removeImported]
        split_ifs
        all_goals simp [OrderedMap.lookup_erase, of_decide_eq_true hne]
      rw [hlook]
      exact hs x hx
  intro option hoption x hx hrank
  obtain ⟨rank, -, rfl⟩ := mem_map.mp hoption
  exact hrank ▸ hcovers x hx

/-- In one call the entity of rank 0 and some of its slices, with their magics and keys. -/
def importSlices (slices : List (ℕ × UInt8)) : KeysStep :=
  .importForTransport .succeeding ((bareRecord entityExportInfoMagic entityExportInfoSize ::
      slices.map fun x => bareRecord x.1 24 ++ replicate 224 x.2).map ExchangeInfoReader.reset)

/-- The keys that are live, and those that the transport gets, by their first bytes. -/
def seenKeys (s : KeysState) : List UInt8 × List (List UInt8) :=
  (s.live.map fun x => x.2.headD 0,
    s.entity.transOptions.map fun option => option.2.2.2.map fun key => key.headD 0)

theorem keys_complete_separate_calls :
    ∃ s, (keysSystem (transEntity true)).ReachableBy (fun s a => oneSlice s a = true) s ∧
      seenKeys s = ([2, 3], [[2, 3]]) ∧
      ∀ option ∈ s.entity.transOptions, ∀ x ∈ s.live, x.1 = option.1 → x.2 ∈ option.2.2.2 := by
  refine TransitionSystem.exists_reachableBy [importSlices [(dramSliceExportInfoMagic, 1)],
    .removeImported 0, importSlices [(dramSliceExportInfoMagic, 2)],
    importSlices [(hbmSliceExportInfoMagic, 3)]] seenKeys ([2, 3], [[2, 3]]) ?_
    fun s hreach hseen => ⟨hseen, keys_complete_of_oneSlice hreach⟩
  decide +kernel

/-- With a `globalUniqueAddress` only the key of the last slice is kept. -/
theorem unique_address_drops_key :
    ∃ s, (keysSystem { transEntity true with globalUniqueAddress := true }).Reachable s ∧
      ¬ ∀ option ∈ s.entity.transOptions, ∀ x ∈ s.live, x.1 = option.1 → x.2 ∈ option.2.2.2 := by
  refine TransitionSystem.exists_reachable
    [importSlices [(dramSliceExportInfoMagic, 1), (hbmSliceExportInfoMagic, 2)]]
    (fun s => decide (∀ option ∈ s.entity.transOptions, ∀ x ∈ s.live, x.1 = option.1 →
      x.2 ∈ option.2.2.2)) false ?_ fun s _ hseen => of_decide_eq_false hseen
  decide +kernel

end Hybm
