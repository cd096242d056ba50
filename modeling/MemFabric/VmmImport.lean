/-
Slices of one rank in the address manager of another.

`ExportInner` describes a slice by a record that begins with a magic number, one for host and
one for device memory.  `Import` of another rank takes the records with its own magic number and
enters their regions with the manager of virtual addresses.  The memory type of a region is
taken from the magic number, but it is compared with that of another class of segments.
-/
import MemFabric.DataOperator
import MemFabric.ExchangeInfo
import MemFabric.SegmentSpace

namespace Hybm

open List VaManager Option

/-! ### What the manager infers -/

/-- What is read behind the end of a map that is empty. -/
structure PastEnd where
  allocated : AllocatedGvaInfo
  reserved : ReservedGvaInfo

/-- The element that `upper_bound` and a step back lead to, or the first one. -/
def OrderedMap.atOrBefore {ν : Type} (m : OrderedMap ℕ ν) (va : ℕ) (pastEnd : ν) : ν :=
  match m.upTo va with
  | some (_, info) => info
  | none =>
    match m.entries.head? with
    | some (_, info) => info
    | none => pastEnd

/-- `ReservedGvaInfo::Contains`. -/
def ReservedGvaInfo.contains (info : ReservedGvaInfo) (addr : ℕ) : Bool :=
  info.start ≤ addr ∧ addr < info.endAddress

inductive AddressCategory
  | globalDevice
  | globalHost
  | localDevice
  | localHost
  deriving DecidableEq

def copyDirectionTable : AddressCategory → AddressCategory → CopyDirection
  | .globalDevice, .globalDevice => .globalDeviceToGlobalDevice
  | .globalDevice, .globalHost => .globalDeviceToGlobalHost
  | .globalDevice, .localDevice => .globalDeviceToLocalDevice
  | .globalDevice, .localHost => .globalDeviceToLocalHost
  | .globalHost, .globalDevice => .globalHostToGlobalDevice
  | .globalHost, .globalHost => .globalHostToGlobalHost
  | .globalHost, .localDevice => .globalHostToLocalDevice
  | .globalHost, .localHost => .globalHostToLocalHost
  | .localDevice, .globalDevice => .localDeviceToGlobalDevice
  | .localDevice, .globalHost => .localDeviceToGlobalHost
  | .localHost, .globalDevice => .localHostToGlobalDevice
  | .localHost, .globalHost => .localHostToGlobalHost
  | _, _ => .butt

/-- The row and column of the table for memory of a type. -/
def MemType.category : MemType → AddressCategory
  | .device => .globalDevice
  | _ => .globalHost

namespace VaManager

variable (m : VaManager) (reserved : ReservedMap) (pastEnd : PastEnd)

/-- `GetMemType`.  An address that is found as a local one has the type that the global address
before it has. -/
def getMemType (va : ℕ) : MemType :=
  if va = 0 then .device
  else
    let alloc := OrderedMap.atOrBefore m.allocatedLookupMapByGva va pastEnd.allocated
    if alloc.contains va then alloc.base.memType
    else if (OrderedMap.atOrBefore m.allocatedLookupMapByLva va pastEnd.allocated).containsByLva va
      then alloc.base.memType
    else
      let res := OrderedMap.atOrBefore reserved va pastEnd.reserved
      if res.contains va then res.memType else .butt

def classifyAddress (va : ℕ) : AddressCategory :=
  match m.getMemType reserved pastEnd va with
  | .device => .globalDevice
  | .host => .globalHost
  | .butt => if Vmm.isHbm va then .localDevice else .localHost

def inferCopyDirection (srcVa dstVa : ℕ) : CopyDirection :=
  copyDirectionTable (m.classifyAddress reserved pastEnd srcVa)
    (m.classifyAddress reserved pastEnd dstVa)

end VaManager

theorem OrderedMap.atOrBefore_eq {ν : Type} {m : OrderedMap ℕ ν} {va k : ℕ} {v : ν}
    (hk : m.lookup k = some v) (hle : k ≤ va)
    (hfree : ∀ {k' v'}, m.lookup k' = some v' → k < k' → va < k') (pastEnd : ν) :
    atOrBefore m va pastEnd = v := by
  rw [atOrBefore, OrderedMap.upTo_eq hk hle hfree]

namespace VaState.Indexed

variable {s : VaState} {r : AllocatedGvaInfo} {va : ℕ}

theorem lt_of_lt_gva (h : s.Indexed) (hr : r ∈ s.live) (hhi : va < r.base.gva + r.base.size)
    {k : ℕ} {r' : AllocatedGvaInfo} (hk : s.manager.allocatedLookupMapByGva.lookup k = some r')
    (hlt : r.base.gva < k) : va < k := by
  obtain ⟨hr', rfl⟩ := (h.byGva k r').mp hk
  have hsymm : Std.Symm AllocatedGvaInfo.DisjointFrom := ⟨fun _ _ => Or.symm⟩
  have hne : r ≠ r' := fun heq => hlt.ne (by rw [heq])
  have hapart : r.DisjointFrom r' := h.disjoint.forall hr hr' hne
  rw [AllocatedGvaInfo.DisjointFrom] at hapart
  omega

theorem classifyAddress (h : s.Indexed) (hr : r ∈ s.live) (hbutt : r.base.memType ≠ .butt)
    (hne : r.base.gva ≠ 0) (hlo : r.base.gva ≤ va) (hhi : va < r.base.gva + r.base.size)
    (reserved : ReservedMap) (pastEnd : PastEnd) :
    s.manager.classifyAddress reserved pastEnd va = r.base.memType.category := by
  have hcont : r.contains va = true := by
    rw [AllocatedGvaInfo.contains, Nat.mod_eq_of_lt (h.bound r hr).2, decide_eq_true_eq]
    exact ⟨hlo, hhi⟩
  have htype : s.manager.getMemType reserved pastEnd va = r.base.memType := by
    rw [getMemType, if_neg (by omega)]
    rw [OrderedMap.atOrBefore_eq ((h.byGva _ r).mpr ⟨hr, rfl⟩) hlo (h.lt_of_lt_gva hr hhi),
      if_pos hcont]
  rw [VaManager.classifyAddress, htype]
  cases hmem : r.base.memType with
  | device | host => rfl
  | butt => exact absurd hmem hbutt

theorem exists_mem_add (h : s.Indexed) {info : AllocatedGvaInfo}
    (hwrap : info.base.gva + info.base.size < 2 ^ 64)
    (hok : (s.manager.addVaInfo info).1 = .ok) (hexclusive : Exclusive s.live info) :
    info.base.gva ≠ 0 ∧ ∃ r ∈ (s.add info).live, r.base = info.base ∧ r.rankId = info.rankId := by
  have hgva : info.base.gva ≠ 0 := by
    intro hzero
    rw [addVaInfo, if_pos hzero] at hok
    cases hok
  refine ⟨hgva, ?_⟩
  by_cases hnew : ∀ r ∈ s.live, r.base ≠ info.base
  · refine ⟨info, ?_, rfl, rfl⟩
    rw [VaState.add, if_pos ⟨hok, hnew⟩]
    exact mem_append_right _ (mem_singleton.mpr rfl)
  push Not at hnew
  obtain ⟨r, hr, hbase⟩ := hnew
  refine ⟨r, ?_, hbase, ?_⟩
  · rw [VaState.add, if_neg fun hall => hall.2 r hr hbase]
    exact hr
  -- The overlap that is found is the region itself, and it was found to be the same.
  rcases h.checkOverlap hwrap with ⟨hfound, hmem⟩ | ⟨-, hdisj⟩
  · have hsame : (s.manager.checkOverlap info.base.gva info.base.size
        info.base.memType).2.same info = true := by
      by_contra hnot
      rw [addVaInfo, if_neg hgva, if_neg hexclusive.1] at hok
      split at hok
      · cases hok
      · rw [if_pos ⟨hfound, by simpa using hnot⟩] at hok
        cases hok
    rw [AllocatedGvaInfo.same, decide_eq_true_eq] at hsame
    have heq := h.eq_of_gva hmem hr (hsame.1.trans (by rw [hbase]))
    rw [← heq]
    exact hsame.2.2
  have hapart := hdisj r hr (by rw [hbase])
  have hpos := Nat.pos_of_ne_zero hexclusive.1
  rw [AllocatedGvaInfo.DisjointFrom, hbase] at hapart
  omega

end VaState.Indexed

theorem VaState.mem_add_of_mem {s : VaState} {r info : AllocatedGvaInfo} (hr : r ∈ s.live) :
    r ∈ (s.add info).live := by
  rw [VaState.add]
  split
  · exact mem_append_left _ hr
  · exact hr

namespace Vmm

/-! ### Export -/

structure HostSdmaExportInfo where
  magic : ℕ
  segmentType : ℕ
  version : ℕ
  vAddress : ℕ
  sliceIndex : ℕ
  sdid : ℕ
  serverId : ℕ
  superPodId : ℕ
  rankId : ℕ
  devId : ℕ
  size : ℕ
  shareHandle : Bytes
  deriving DecidableEq

/-- The size of a `MemShareHandle`. -/
def shareHandleSize : ℕ := 128

namespace HostSdmaExportInfo

/-- The integers of the record, each with its width in bytes. -/
def fields (info : HostSdmaExportInfo) : List (ℕ × ℕ) :=
  [(8, info.magic), (4, info.segmentType), (4, info.version), (8, info.vAddress),
    (4, info.sliceIndex), (4, info.sdid), (4, info.serverId), (4, info.superPodId),
    (4, info.rankId), (4, info.devId), (8, info.size)]

/-- `Serialize`: the record as memory. -/
def serialize (info : HostSdmaExportInfo) : Bytes :=
  Bytes.encodeFields info.fields ++ info.shareHandle

def deserialize (data : Bytes) : Option HostSdmaExportInfo :=
  if data.length ≠ unifiedExchangeSegInfoSize then none
  else
    match Bytes.decodeFields [8, 4, 4, 8, 4, 4, 4, 4, 4, 4, 8] data with
    | [magic, segmentType, version, vAddress, sliceIndex, sdid, serverId, superPodId, rankId, devId,
        size] =>
      some ⟨magic, segmentType, version, vAddress, sliceIndex, sdid, serverId, superPodId, rankId,
        devId, size, data.drop 56⟩
    | _ => none

/-- The values are those of the fixed-width fields. -/
structure Fits (info : HostSdmaExportInfo) : Prop where
  fields : ∀ f ∈ info.fields, f.2 < 256 ^ f.1
  handle : info.shareHandle.length = shareHandleSize

theorem deserialize_serialize {info : HostSdmaExportInfo} (h : info.Fits) :
    deserialize info.serialize = some info := by
  have hlen : info.serialize.length = unifiedExchangeSegInfoSize := by
    rw [serialize, length_append, Bytes.length_encodeFields, h.handle]
    rfl
  have hfields : Bytes.decodeFields [8, 4, 4, 8, 4, 4, 4, 4, 4, 4, 8] info.serialize =
      info.fields.map Prod.snd := Bytes.decodeFields_encodeFields h.fields info.shareHandle
  have hdrop : info.serialize.drop 56 = info.shareHandle :=
    drop_left' (Bytes.length_encodeFields _)
  rw [deserialize, if_neg (not_not.mpr hlen), hfields, hdrop]
  rfl

end HostSdmaExportInfo

/-- What a process knows of its device. -/
structure LocalDevice where
  logicDeviceId : ℕ
  sdid : ℕ
  serverId : ℕ
  superPodId : ℕ

/-- What the driver answers to an export: the handle of `HalMemExport`, and whether
`HalMemTransShareableHandle` and `HalMemShareHandleSetAttribute` succeed. -/
structure ExportAnswers where
  shareHandle : Option { handle : Bytes // handle.length = shareHandleSize }
  translated : Bool
  attributeSet : Bool

def exportMagic (segType : SegType) : ℕ :=
  if segType = .dram then vmmBaseDramSliceExportInfoMagic else vmmBaseHbmSliceExportInfoMagic

/-- `SEGMENT_TYPE_VMM` and `EXPORT_INFO_VERSION` are both 1. -/
def exportInfo (o : Options) (d : LocalDevice) (x : Slice) (handle : Bytes) :
    HostSdmaExportInfo where
  magic := exportMagic o.segType
  segmentType := 1
  version := 1
  vAddress := x.vAddress
  sliceIndex := x.index % 2 ^ 32
  sdid := d.sdid % 2 ^ 32
  serverId := d.serverId % 2 ^ 32
  superPodId := d.superPodId % 2 ^ 32
  rankId := o.rankId
  devId := d.logicDeviceId % 2 ^ 32
  size := x.size
  shareHandle := handle

/-- `ExportInner`: what it puts into `exportMap_`. -/
def exportInner (o : Options) (d : LocalDevice) (ans : ExportAnswers) (x : Slice) : Option Bytes :=
  if !o.shared then none
  else
    match ans.shareHandle with
    | none => none
    | some handle =>
      if !ans.translated then none
      else if !ans.attributeSet then none
      else some (exportInfo o d x handle.1).serialize

/-! ### Import -/

/-- What an import is answered: whether the host reaches the device of a record
(`CanLocalHostReaches`), whether it is the own one, and what `RtEnableP2P` gives in the first and
in the second loop. -/
structure ImportAnswers where
  reaches : HostSdmaExportInfo → Bool
  ownDevice : HostSdmaExportInfo → Bool
  enabled : HostSdmaExportInfo → Bool
  enabledAgain : HostSdmaExportInfo → Bool

section Import

variable (o : Options) (ans : ImportAnswers)

def asksP2P (info : HostSdmaExportInfo) : Bool :=
  o.segType = .hbm ∧ info.rankId ≠ o.rankId ∧ ans.reaches info

/-- The first loop of `Import`: the records of the own kind that are not empty. -/
def collectInfos : List Bytes → Except Result (List HostSdmaExportInfo)
  | [] => .ok []
  | data :: rest =>
    match HostSdmaExportInfo.deserialize data with
    | none => .error .invalidParam
    | some info =>
      if info.magic ≠ exportMagic o.segType ∨ info.size = 0 then collectInfos rest
      else if asksP2P o ans info ∧ ans.enabled info = false then .error .dlFunctionFailed
      else (collectInfos rest).map (info :: ·)

/-- The region of a record: its type is decided by the magic number of the legacy segment. -/
def importedInfo (info : HostSdmaExportInfo) : AllocatedGvaInfo :=
  AddCall.info (.addVaInfoFromExternal ⟨info.vAddress, info.size,
    if info.magic = hbmSliceExportInfoMagic then .device else .host, 0⟩ o.rankId info.rankId)

/-- The last loop of `Import`. -/
def enterInfos : List HostSdmaExportInfo → VaState → Result × VaState
  | [], s => (.ok, s)
  | info :: rest, s =>
    if info.rankId = o.rankId then enterInfos rest s
    else if (s.manager.addVaInfo (importedInfo o info)).1 ≠ .ok then
      ((s.manager.addVaInfo (importedInfo o info)).1, s)
    else enterInfos rest (s.add (importedInfo o info))

/-- `Import`. -/
def importSlices (allExInfo : List Bytes) (s : VaState) : Result × VaState :=
  if !o.shared then (.ok, s)
  else
    match collectInfos o ans allExInfo with
    | .error ret => (ret, s)
    | .ok infos =>
      if infos.any fun info =>
          asksP2P o ans info && !ans.ownDevice info && !ans.enabledAgain info then
        (.dlFunctionFailed, s)
      else enterInfos o infos s

end Import

/-! ### The property -/

/-- The address that `AllocLocalMemory` gives to a slice, and its size, are within the part of the
range that belongs to the rank; a rank is below the number of ranks. -/
structure Options.Owns (o : Options) (x : Slice) : Prop where
  within : o.localVirtualBase ≤ x.vAddress ∧ x.vAddress + x.size ≤ o.localVirtualBase + o.maxSize
  rank : o.rankId < invalidRankId

/-- The record of the slice is among those that a segment of another rank imports with success, and
it is not one that the segment skips. -/
structure Accepts (o : Options) (x : Slice) (exInfo : Bytes) (i : Options) (ans : ImportAnswers)
    (allExInfo : List Bytes) (s : VaState) : Prop where
  mem : exInfo ∈ allExInfo
  shared : i.shared = true
  kind : exportMagic i.segType = exportMagic o.segType
  size : x.size ≠ 0
  rank : i.rankId ≠ o.rankId
  ok : (importSlices i ans allExInfo s).1 = .ok

/-- The region that is recorded for the slice has its type, size and owner, and the direction of a
copy between an address of the slice and any other one is the one for its type. -/
structure Agrees (o : Options) (x : Slice) (m : VaManager) : Prop where
  recorded : ∃ r, m.allocatedLookupMapByGva.lookup x.vAddress = some r ∧
    r.base.memType = o.memType ∧ r.base.size = x.size ∧ r.rankId = o.rankId
  direction : ∀ reserved pastEnd va other, x.vAddress ≤ va → va < x.vAddress + x.size →
    m.inferCopyDirection reserved pastEnd va other =
      copyDirectionTable o.memType.category (m.classifyAddress reserved pastEnd other) ∧
    m.inferCopyDirection reserved pastEnd other va =
      copyDirectionTable (m.classifyAddress reserved pastEnd other) o.memType.category

/-- The regions of the records, one after the other, end below the end of the addresses and keep
clear of what the manager does not check. -/
def EntersExclusive (o : Options) : List HostSdmaExportInfo → VaState → Prop
  | [], _ => True
  | info :: rest, s =>
    if info.rankId = o.rankId then EntersExclusive o rest s
    else (info.vAddress + info.size < 2 ^ 64 ∧ Exclusive s.live (importedInfo o info)) ∧
      EntersExclusive o rest (s.add (importedInfo o info))

def ImportsExclusive (o : Options) (ans : ImportAnswers) (allExInfo : List Bytes) (s : VaState) :
    Prop :=
  ∀ infos, collectInfos o ans allExInfo = .ok infos → EntersExclusive o infos s

/-! ### Proof -/

variable {o i : Options} {x : Slice} {s : VaState} {ans : ImportAnswers}

theorem Options.Owns.fits (h : o.Owns x) (d : LocalDevice) {handle : Bytes}
    (hhandle : handle.length = shareHandleSize) : (exportInfo o d x handle).Fits := by
  obtain ⟨⟨-, hhi⟩, hrank⟩ := h
  have hend := o.fits
  have hbase : o.localVirtualBase = o.globalVirtualAddress + o.maxSize * o.rankId := rfl
  have hinvalid : invalidRankId = 2 ^ 32 - 1 := rfl
  have hmagic : exportMagic o.segType < 256 ^ 8 := by
    unfold exportMagic
    split
    · decide
    · decide
  refine ⟨?_, hhandle⟩
  simp only [HostSdmaExportInfo.fields, exportInfo, forall_mem_cons]
  refine ⟨hmagic, by decide, by decide, ?_, ?_, ?_, ?_, ?_, ?_, ?_, ?_, nofun⟩ <;> omega

theorem exportInner_spec (h : o.Owns x) {d : LocalDevice} {answers : ExportAnswers} {exInfo : Bytes}
    (hexport : exportInner o d answers x = some exInfo) :
    ∃ info, HostSdmaExportInfo.deserialize exInfo = some info ∧
      info.magic = exportMagic o.segType ∧ info.vAddress = x.vAddress ∧ info.size = x.size ∧
      info.rankId = o.rankId := by
  obtain ⟨-, hexport⟩ := ite_none_left_eq_some.mp hexport
  split at hexport
  · cases hexport
  next handle _ =>
    obtain ⟨-, hexport⟩ := ite_none_left_eq_some.mp hexport
    obtain ⟨-, hexport⟩ := ite_none_left_eq_some.mp hexport
    obtain rfl := some.inj hexport
    exact ⟨_, HostSdmaExportInfo.deserialize_serialize (h.fits d handle.2), rfl, rfl, rfl, rfl⟩

theorem mem_collectInfos {data : Bytes} {info : HostSdmaExportInfo}
    (hdata : HostSdmaExportInfo.deserialize data = some info)
    (hmagic : info.magic = exportMagic i.segType) (hsize : info.size ≠ 0) :
    ∀ {allExInfo infos}, data ∈ allExInfo → collectInfos i ans allExInfo = .ok infos →
      info ∈ infos := by
  intro allExInfo
  induction allExInfo with
  | nil => nofun
  | cons first rest ih =>
    intro infos hmem hcoll
    rw [collectInfos] at hcoll
    split at hcoll
    · cases hcoll
    next other hother =>
      split at hcoll
      · next hskip =>
        refine ih ((mem_cons.mp hmem).resolve_left fun heq => ?_) hcoll
        rw [← heq, hdata] at hother
        obtain rfl := some.inj hother
        rcases hskip with hne | hzero
        · exact hne hmagic
        · exact hsize hzero
      split at hcoll
      · cases hcoll
      cases hrest : collectInfos i ans rest with
      | error ret =>
        rw [hrest] at hcoll
        cases hcoll
      | ok kept =>
        rw [hrest] at hcoll
        obtain rfl := Except.ok.inj hcoll
        rcases mem_cons.mp hmem with heq | hmem
        · rw [← heq, hdata] at hother
          exact mem_cons.mpr (.inl (some.inj hother))
        · exact mem_cons_of_mem _ (ih hmem hrest)

theorem enterInfos_spec : ∀ {infos : List HostSdmaExportInfo} {s : VaState}, s.Indexed →
    EntersExclusive i infos s → (enterInfos i infos s).1 = .ok →
    (enterInfos i infos s).2.Indexed ∧ (∀ r ∈ s.live, r ∈ (enterInfos i infos s).2.live) ∧
      ∀ info ∈ infos, info.rankId ≠ i.rankId → info.vAddress ≠ 0 ∧
        ∃ r ∈ (enterInfos i infos s).2.live, r.base = (importedInfo i info).base ∧
          r.rankId = (importedInfo i info).rankId := by
  intro infos
  induction infos with
  | nil => exact fun h _ _ => ⟨h, fun _ hr => hr, nofun⟩
  | cons first rest ih =>
    intro s h hexclusive hok
    rw [EntersExclusive] at hexclusive
    rw [enterInfos] at hok ⊢
    split at hok
    · next hown =>
      rw [if_pos hown] at hexclusive ⊢
      obtain ⟨hidx, hlive, hent⟩ := ih h hexclusive hok
      refine ⟨hidx, hlive, fun info hmem hne => ?_⟩
      rcases mem_cons.mp hmem with rfl | hmem
      · exact absurd hown hne
      · exact hent info hmem hne
    next hother =>
    rw [if_neg hother] at hexclusive ⊢
    obtain ⟨⟨hwrap, hfirst⟩, hexclusive⟩ := hexclusive
    split at hok
    · next hfail => exact absurd hok hfail
    next hadded =>
    rw [if_neg hadded]
    rw [ne_eq, not_not] at hadded
    obtain ⟨hgva, r, hr, hbase, hrank⟩ := h.exists_mem_add hwrap hadded hfirst
    obtain ⟨hidx, hlive, hent⟩ := ih (h.add hwrap fun _ => hfirst) hexclusive hok
    refine ⟨hidx, fun y hy => hlive y (VaState.mem_add_of_mem hy), fun info hmem hne => ?_⟩
    rcases mem_cons.mp hmem with rfl | hmem
    · exact ⟨hgva, r, hlive r hr, hbase, hrank⟩
    · exact hent info hmem hne

theorem collectInfos_error_ne : ∀ {allExInfo ret}, collectInfos i ans allExInfo = .error ret →
    ret ≠ .ok := by
  intro allExInfo
  induction allExInfo with
  | nil => nofun
  | cons first rest ih =>
    intro ret h
    rw [collectInfos] at h
    split at h
    · obtain rfl := Except.error.inj h
      nofun
    split at h
    · exact ih h
    split at h
    · obtain rfl := Except.error.inj h
      nofun
    cases hrest : collectInfos i ans rest with
    | error other =>
      rw [hrest] at h
      obtain rfl := Except.error.inj h
      exact ih hrest
    | ok kept =>
      rw [hrest] at h
      cases h

theorem importSlices_ok {allExInfo : List Bytes} (hshared : i.shared = true)
    (hok : (importSlices i ans allExInfo s).1 = .ok) :
    ∃ infos, collectInfos i ans allExInfo = .ok infos ∧
      importSlices i ans allExInfo s = enterInfos i infos s := by
  unfold importSlices at hok ⊢
  rw [if_neg (by simp [hshared])] at hok ⊢
  cases hcoll : collectInfos i ans allExInfo with
  | error ret =>
    rw [hcoll] at hok
    exact absurd hok (collectInfos_error_ne hcoll)
  | ok infos =>
    rw [hcoll] at hok
    dsimp only at hok ⊢
    refine ⟨infos, rfl, ?_⟩
    split at hok
    · cases hok
    · next hreach => rw [if_neg hreach]

theorem exportMagic_ne (segType : SegType) : exportMagic segType ≠ hbmSliceExportInfoMagic := by
  unfold exportMagic
  split
  · decide
  · decide

section

variable {exInfo : Bytes} {allExInfo : List Bytes} {d : LocalDevice} {answers : ExportAnswers}

theorem Accepts.live (h : Accepts o x exInfo i ans allExInfo s) (hs : s.Indexed) (howns : o.Owns x)
    (hexport : exportInner o d answers x = some exInfo)
    (hexclusive : ImportsExclusive i ans allExInfo s) :
    (importSlices i ans allExInfo s).2.Indexed ∧ x.vAddress ≠ 0 ∧
      ∃ r ∈ (importSlices i ans allExInfo s).2.live,
        r.base = ⟨x.vAddress, x.size, .host, 0⟩ ∧ r.rankId = o.rankId := by
  obtain ⟨info, hread, hmagic, hva, hsize, hrank⟩ := exportInner_spec howns hexport
  obtain ⟨infos, hcoll, himport⟩ := importSlices_ok h.shared h.ok
  have hmem := mem_collectInfos hread (hmagic.trans h.kind.symm) (hsize ▸ h.size) h.mem hcoll
  obtain ⟨hidx, -, hent⟩ := enterInfos_spec hs (hexclusive infos hcoll) (himport ▸ h.ok)
  obtain ⟨hgva, r, hr, hbase, howner⟩ := hent info hmem (hrank ▸ h.rank.symm)
  rw [himport]
  refine ⟨hidx, hva ▸ hgva, r, hr, ?_, ?_⟩
  · rw [hbase]
    show BaseAllocatedGvaInfo.mk info.vAddress info.size _ 0 = _
    rw [if_neg (hmagic ▸ exportMagic_ne o.segType), hva, hsize]
  · rw [howner]
    show (if info.rankId ≠ invalidRankId then info.rankId else i.rankId) = o.rankId
    rw [hrank, if_pos howns.rank.ne]

/-- Where the entered regions keep clear of the other ones, the region of an imported slice has its
type, size and owner, and the direction of every copy from and to it is right, exactly if it is host
memory. -/
theorem agrees_iff (howns : o.Owns x) (hexport : exportInner o d answers x = some exInfo)
    (hs : vaSystem.ReachableBy exclusive s) (hexclusive : ImportsExclusive i ans allExInfo s)
    (haccepts : Accepts o x exInfo i ans allExInfo s) :
    Agrees o x (importSlices i ans allExInfo s).2.manager ↔ o.segType ≠ .hbm := by
  obtain ⟨hidx, hgva, r, hr, hbase, howner⟩ :=
    haccepts.live (.of_exclusive hs) howns hexport hexclusive
  have hlook := (hidx.byGva x.vAddress r).mpr ⟨hr, by rw [hbase]⟩
  constructor
  · rintro ⟨⟨other, hother, htype, -⟩, -⟩ hhbm
    rw [hlook] at hother
    obtain rfl := some.inj hother
    rw [hbase, Options.memType, if_pos hhbm] at htype
    cases htype
  intro hhbm
  have hhost : o.memType = .host := if_neg hhbm
  have hclass : ∀ reserved pastEnd va, x.vAddress ≤ va → va < x.vAddress + x.size →
      (importSlices i ans allExInfo s).2.manager.classifyAddress reserved pastEnd va =
        o.memType.category := by
    intro reserved pastEnd va hlo hhi
    rw [hidx.classifyAddress hr (by simp [hbase]) (by rw [hbase]; exact hgva)
      (by rw [hbase]; exact hlo) (by rw [hbase]; exact hhi) reserved pastEnd, hbase, hhost]
  refine ⟨⟨r, hlook, by rw [hbase, hhost], by rw [hbase], howner⟩, ?_⟩
  intro reserved pastEnd va other hlo hhi
  rw [inferCopyDirection, inferCopyDirection, hclass reserved pastEnd va hlo hhi]
  exact ⟨rfl, rfl⟩

end

/-! ### Two ranks -/

def pageSegment (segType : SegType) (rank : Fin 2) : Options where
  segType := segType
  maxSize := largePageSize
  rankId := rank
  shared := true
  globalVirtualAddress := gvmStartAddr
  fits := by
    have hrank := rank.isLt
    norm_num [gvmStartAddr, largePageSize]
    omega

def pageOfRankOne : Slice := ⟨0, 0, gvmStartAddr + largePageSize, largePageSize⟩

def someDevice : LocalDevice := ⟨0, 0, 0, 0⟩

def exportGranted : ExportAnswers :=
  ⟨some ⟨List.replicate shareHandleSize 0, length_replicate⟩, true, true⟩

def importGranted : ImportAnswers := ⟨fun _ => true, fun _ => false, fun _ => true, fun _ => true⟩

def pageInfo (segType : SegType) : HostSdmaExportInfo :=
  exportInfo (pageSegment segType 1) someDevice pageOfRankOne (List.replicate shareHandleSize 0)

theorem pageOfRankOne_owned (segType : SegType) : (pageSegment segType 1).Owns pageOfRankOne where
  within := by
    have hbase : (pageSegment segType 1).localVirtualBase = gvmStartAddr + largePageSize := by
      norm_num [Options.localVirtualBase, pageSegment]
    rw [hbase]
    exact ⟨le_rfl, le_rfl⟩
  rank := by
    show 1 < invalidRankId
    decide

theorem collectInfos_page (segType : SegType) :
    collectInfos (pageSegment segType 0) importGranted [(pageInfo segType).serialize] =
      .ok [pageInfo segType] := by
  have hread : HostSdmaExportInfo.deserialize (pageInfo segType).serialize =
      some (pageInfo segType) :=
    HostSdmaExportInfo.deserialize_serialize
      ((pageOfRankOne_owned segType).fits someDevice length_replicate)
  rw [collectInfos, hread]
  cases segType with
  | hbm | dram | other => rfl

/-- Rank 0 imports the page of rank 1 of a host segment. -/
theorem agrees_host_page :
    (importSlices (pageSegment .dram 0) importGranted [(pageInfo .dram).serialize] ⟨.new, []⟩).1 =
        .ok ∧
      Agrees (pageSegment .dram 1) pageOfRankOne (importSlices (pageSegment .dram 0) importGranted
        [(pageInfo .dram).serialize] ⟨.new, []⟩).2.manager := by
  have hok : (importSlices (pageSegment .dram 0) importGranted [(pageInfo .dram).serialize]
      ⟨.new, []⟩).1 = .ok := by decide +kernel
  have hs : vaSystem.ReachableBy exclusive ⟨.new, []⟩ := .start
  have hexport : exportInner (pageSegment .dram 1) someDevice exportGranted pageOfRankOne =
      some (pageInfo .dram).serialize := rfl
  have hexclusive : ImportsExclusive (pageSegment .dram 0) importGranted
      [(pageInfo .dram).serialize] ⟨.new, []⟩ := by
    intro infos hinfos
    rw [collectInfos_page] at hinfos
    obtain rfl := Except.ok.inj hinfos
    exact ⟨⟨by decide +kernel, by decide, nofun⟩, trivial⟩
  exact ⟨hok, (agrees_iff (pageOfRankOne_owned .dram) hexport hs hexclusive
    ⟨mem_singleton.mpr rfl, rfl, rfl, by decide, by decide, hok⟩).mpr nofun⟩

/-- A device slice is entered as host memory. -/
theorem device_slice_entered_as_host :
    exportInner (pageSegment .hbm 1) someDevice exportGranted pageOfRankOne =
        some (pageInfo .hbm).serialize ∧
      (importSlices (pageSegment .hbm 0) importGranted [(pageInfo .hbm).serialize]
        ⟨.new, []⟩).1 = .ok ∧
      ((importSlices (pageSegment .hbm 0) importGranted [(pageInfo .hbm).serialize]
        ⟨.new, []⟩).2.manager.allocatedLookupMapByGva.lookup pageOfRankOne.vAddress).map
          (fun r => r.base.memType) = some .host ∧
      (pageSegment .hbm 1).memType = .device ∧
      (importSlices (pageSegment .hbm 0) importGranted [(pageInfo .hbm).serialize]
        ⟨.new, []⟩).2.manager.inferCopyDirection OrderedMap.empty ⟨.unset, .unset⟩
          pageOfRankOne.vAddress 4096 = .globalHostToLocalHost := by
  refine ⟨rfl, ?_, ?_, rfl, ?_⟩
  · decide +kernel
  · decide +kernel
  · decide +kernel

end Vmm

end Hybm
