/-
Exchange descriptors and the segments that import them.

A descriptor is a transport part and a segment part, one behind the other, each of which begins
with a magic number.  `ExchangeInfoReader` reads it piece by piece; what is left in the end goes
to the `Import` of a segment.  Of the four kinds of segments `HybmVmmBasedSegment` and
`HybmDevLegacySegment` skip infos that are not for them, `HybmConnBasedSegment` looks at their
length only.
-/
import MemFabric.Bytes
import MemFabric.VaManager

namespace Hybm

open List

/-- A little-endian field of a record that was copied as memory. -/
def field (offset width : ℕ) (data : Bytes) : ℕ := Bytes.leValue ((data.drop offset).take width)

/-! ### Magic numbers -/

def entityExportInfoMagic : ℕ := 0xAABB1234FFFFEE00

def hbmSliceExportInfoMagic : ℕ := 0xAABB1234FFFFEE01

def dramSliceExportInfoMagic : ℕ := 0xAABB1234FFFFEE02

def vmmBaseHbmSliceExportInfoMagic : ℕ := 0xAABB1234FFFFEE03

def vmmBaseDramSliceExportInfoMagic : ℕ := 0xAABB1234FFFFEE04

def magicOf (data : Bytes) : ℕ := field 0 8 data

def isDramSlice (magic : ℕ) : Bool :=
  magic = dramSliceExportInfoMagic ∨ magic = vmmBaseDramSliceExportInfoMagic

/-! ### The reader -/

/-- `ExchangeInfoReader`: a descriptor, and how far it has been read. -/
structure ExchangeInfoReader where
  desc : Bytes
  readOffset : ℕ

namespace ExchangeInfoReader

def reset (info : Bytes) : ExchangeInfoReader := ⟨info, 0⟩

variable (r : ExchangeInfoReader)

/-- `Test`: the next bytes, which stay unread. -/
def test (length : ℕ) : Option Bytes :=
  if r.desc.length < r.readOffset + length then none
  else some ((r.desc.drop r.readOffset).take length)

def read (length : ℕ) : Option (Bytes × ExchangeInfoReader) :=
  (r.test length).map fun data => (data, { r with readOffset := r.readOffset + length })

def leftBytes : ℕ :=
  if r.desc.length ≤ r.readOffset then 0 else r.desc.length - r.readOffset

def leftToString : Bytes :=
  if r.desc.length ≤ r.readOffset then [] else r.desc.drop r.readOffset

variable {a b : Bytes} {n : ℕ}

theorem test_append (h : a.length + n ≤ (a ++ b).length) :
    test ⟨a ++ b, a.length⟩ n = some (b.take n) := by
  rw [test, if_neg (Nat.not_lt.mpr h), drop_left]

theorem test_zero (h : n ≤ a.length) : test ⟨a, 0⟩ n = some (a.take n) := by
  rw [test, if_neg (by dsimp only; omega), drop_zero]

theorem read_append : read ⟨a ++ b, 0⟩ a.length = some (a, ⟨a ++ b, a.length⟩) := by
  rw [read, test_zero (by simp), take_left]
  simp

theorem leftBytes_append : leftBytes ⟨a ++ b, a.length⟩ = b.length := by
  rw [leftBytes]
  split
  · rename_i hle
    dsimp only at hle
    rw [length_append] at hle
    omega
  · simp

theorem leftToString_append : leftToString ⟨a ++ b, a.length⟩ = b := by
  rw [leftToString]
  split
  · rename_i hle
    dsimp only at hle
    rw [length_append] at hle
    exact (eq_nil_of_length_eq_zero (by omega)).symm
  · exact drop_left

end ExchangeInfoReader

/-! ### The writer -/

/-- `sizeof(desc)`. -/
def descSize : ℕ := 512

/-- How a call with a check and a `copy_n` ends: it returns -1, or it copies within the
descriptor, or past it. -/
inductive Copied (α : Type)
  | refused
  | within (value : α)
  | outside

/-- `Append` of `ExchangeInfoWriter`.  The length of the data is not part of the check. -/
def append (desc data : Bytes) : Copied Bytes :=
  if descSize < desc.length then .refused
  else if desc.length + data.length ≤ descSize then .within (desc ++ data)
  else .outside

/-- The descriptor after calls of `Append`, and what has been appended; none once a call has
written past the array. -/
def appendAll (desc : Bytes) : List Bytes → Option (Bytes × List Bytes)
  | [] => some (desc, [])
  | data :: rest =>
    match append desc data with
    | .refused => appendAll desc rest
    | .within desc' => (appendAll desc' rest).map fun p => (p.1, data :: p.2)
    | .outside => none

/-- `Read` with the sum of its check, which wraps at 64 bits. -/
def ExchangeInfoReader.read64 (r : ExchangeInfoReader) (length : ℕ) :
    Copied (Bytes × ExchangeInfoReader) :=
  if r.desc.length < (r.readOffset + length) % 2 ^ 64 then .refused
  else (r.read length).elim .outside .within

/-- Without the wrap a read that does not fit is refused. -/
theorem ExchangeInfoReader.read64_eq_read {r : ExchangeInfoReader} {length : ℕ}
    (h : r.readOffset + length < 2 ^ 64) :
    r.read64 length = (r.read length).elim .refused .within := by
  rw [read64, Nat.mod_eq_of_lt h, read, test]
  split
  · rfl
  · rfl

def readAll (r : ExchangeInfoReader) : List ℕ → Option (List Bytes)
  | [] => some []
  | length :: rest =>
    match r.read64 length with
    | .within (data, r') => (readAll r' rest).map (data :: ·)
    | _ => none

/-- What a reader may rely on, during calls of `Append` with these pieces, and then in a `Read`
of `length` bytes from `offset`. -/
def InverseAndBounded (pieces : List Bytes) (offset length : ℕ) : Prop :=
  ∀ before, before <+: pieces → ∃ desc done, appendAll [] before = some (desc, done) ∧
    desc.length ≤ descSize ∧ readAll (.reset desc) (done.map List.length) = some done ∧
    (∀ data, before ++ [data] <+: pieces → descSize < desc.length + data.length →
      append desc data = .refused) ∧
    (desc.length < offset + length → ExchangeInfoReader.read64 ⟨desc, offset⟩ length = .refused)

theorem appendAll_of_fits (desc : Bytes) {pieces : List Bytes}
    (h : (desc ++ pieces.flatten).length ≤ descSize) :
    appendAll desc pieces = some (desc ++ pieces.flatten, pieces) := by
  induction pieces generalizing desc with
  | nil => rw [appendAll, flatten_nil, append_nil]
  | cons data rest ih =>
    rw [flatten_cons, ← append_assoc] at h ⊢
    have hdata : desc.length + data.length ≤ descSize := by
      rw [length_append, length_append] at h
      omega
    rw [appendAll, append, if_neg (by omega), if_pos hdata]
    simp only [ih _ h, Option.map_some]

theorem readAll_flatten (before : Bytes) {pieces : List Bytes}
    (h : (before ++ pieces.flatten).length ≤ descSize) :
    readAll ⟨before ++ pieces.flatten, before.length⟩ (pieces.map List.length) = some pieces := by
  induction pieces generalizing before with
  | nil => rfl
  | cons data rest ih =>
    rw [flatten_cons, ← append_assoc] at h ⊢
    have hlen : before.length + data.length ≤ (before ++ data ++ rest.flatten).length := by
      simp only [length_append]
      omega
    have hsmall : before.length + data.length < 2 ^ 64 := by
      unfold descSize at h
      omega
    have htest : ExchangeInfoReader.test ⟨before ++ data ++ rest.flatten, before.length⟩
        data.length = some data := by
      rw [append_assoc] at hlen ⊢
      rw [ExchangeInfoReader.test_append hlen, take_left]
    rw [map_cons, readAll, ExchangeInfoReader.read64_eq_read hsmall, ExchangeInfoReader.read, htest,
      ← length_append]
    simp only [Option.map_some, Option.elim_some, ih _ h]

/-- Pieces that fit into the descriptor, and a `Read` whose sum does not wrap. -/
theorem inverseAndBounded_of_fits {pieces : List Bytes} {offset length : ℕ}
    (hfits : pieces.flatten.length ≤ descSize) (hwrap : offset + length < 2 ^ 64) :
    InverseAndBounded pieces offset length := by
  intro before hbefore
  have hpart : before.flatten.length ≤ descSize :=
    hbefore.flatten.length_le.trans hfits
  refine ⟨before.flatten, before, appendAll_of_fits [] hpart, hpart,
    readAll_flatten [] hpart, fun data hdata hlong => ?_, fun hpast => ?_⟩
  · have hle := hdata.flatten.length_le
    rw [flatten_append, length_append, flatten_singleton] at hle
    omega
  · rw [ExchangeInfoReader.read64_eq_read hwrap, ExchangeInfoReader.read, ExchangeInfoReader.test,
      if_pos hpast]
    rfl

theorem inverseAndBounded_two_pieces :
    InverseAndBounded [List.replicate 500 7, List.replicate 12 9] 500 13 :=
  inverseAndBounded_of_fits (by decide +kernel) (by decide)

/-- 513 bytes are copied into the array of 512; and with one byte read of one, a length of 2^64 - 1
passes the check. -/
theorem append_outside_and_read_outside :
    ¬ InverseAndBounded [List.replicate 513 0] 0 0 ∧ ¬ InverseAndBounded [[7]] 1 (2 ^ 64 - 1) := by
  constructor
  · intro h
    obtain ⟨desc, done, happend, -⟩ := h _ prefix_rfl
    have hnone : appendAll [] [replicate 513 0] = none := by decide +kernel
    cases hnone.symm.trans happend
  intro h
  obtain ⟨desc, done, happend, -, -, -, hread⟩ := h _ prefix_rfl
  obtain ⟨rfl, -⟩ := Prod.mk.inj (Option.some.inj happend)
  have hpast := hread (by decide)
  have hchecked : ExchangeInfoReader.read64 ⟨[7], 1⟩ (2 ^ 64 - 1) = .outside := rfl
  cases hchecked.symm.trans hpast

/-! ### Segments -/

/-- The segments of an entity, `hbmSegment_` and `dramSegment_`. -/
inductive SegmentSide
  | hbm
  | dram
  deriving DecidableEq

/-- The classes derived from `MemSegment`; `shared` is the option of that name. -/
inductive MemSegment
  | devLegacy
  | devUserLegacy
  | connBased
  | vmmBased (segType : SegmentSide) (shared : Bool)

/-- What the calls out of the segments and of the entity answer. -/
structure ImportEnv where
  setThreadAclDevice : Result
  addRankTag : ℕ → Bytes → Result
  connectWithOptions : List (ℕ × ℕ × Bytes × List Bytes) → Result
  updateRankOptions : List (ℕ × ℕ × Bytes) → Result
  prepare : List (ℕ × ℕ × Bytes) → Result
  connect : Result
  updateHybmDeviceInfo : Result
  /-- The runtime is asked for access to the device of an info. -/
  enableAccess : Bytes → Result
  /-- `AddVaInfoFromExternal`. -/
  addVaInfo : Bytes → Result
  /-- The address at which a slice is opened, zero if it is not reached. -/
  openSlice : Bytes → ℕ

/-- The first answer that is not `BM_OK`. -/
def firstError (answers : List Result) : Result := (answers.find? (· ≠ .ok)).getD .ok

theorem firstError_eq_ok_iff {answers : List Result} :
    firstError answers = .ok ↔ ∀ answer ∈ answers, answer = .ok := by
  rw [firstError]
  constructor
  · intro h answer hmem
    by_contra hne
    cases hfind : answers.find? (· ≠ .ok) with
    | none =>
      have hnot := find?_eq_none.mp hfind answer hmem
      simp [hne] at hnot
    | some first =>
      have hfirst := find?_some hfind
      rw [hfind, Option.getD_some] at h
      simp [h] at hfirst
  · intro h
    rw [find?_eq_none.mpr fun answer hmem => by simp [h answer hmem], Option.getD_none]

/-- `Deserialize` of a record of the given size. -/
def deserialize (size : ℕ) (failure : Result) (info : Bytes) : Result :=
  if info.length = size then .ok else failure

/-- `HbmExportInfo` of `HybmDevLegacySegment`. -/
def hbmExportInfoSize : ℕ := 152

/-- `HostExportInfo` of `HybmConnBasedSegment`. -/
def hostExportInfoSize : ℕ := 56

/-- `UNIFIED_EXCHANGE_SEG_INFO_SIZE`, of the records of the other two classes. -/
def unifiedExchangeSegInfoSize : ℕ := 184

def maxDeviceCount : ℕ := 16

/-- The infos that `HybmVmmBasedSegment` does not skip. -/
def vmmKeeps (segType : SegmentSide) (info : Bytes) : Bool :=
  magicOf info = (match segType with
    | .dram => vmmBaseDramSliceExportInfoMagic
    | .hbm => vmmBaseHbmSliceExportInfoMagic) ∧ field 48 8 info ≠ 0

/-- `ImportDeviceInfo` of `HybmDevUserLegacySegment`. -/
def importDeviceInfo (env : ImportEnv) (info : Bytes) : Result :=
  if info.length ≠ unifiedExchangeSegInfoSize then .error
  else if maxDeviceCount ≤ field 32 2 info then .error
  else env.enableAccess info

/-- `ImportSliceInfo` of `HybmDevUserLegacySegment`. -/
def importSliceInfo (env : ImportEnv) (info : Bytes) : Result :=
  if info.length ≠ unifiedExchangeSegInfoSize then .error
  else if maxDeviceCount ≤ field 40 4 info then .error
  else if env.enableAccess info ≠ .ok then env.enableAccess info
  else if env.openSlice info = 0 then .error
  else env.addVaInfo info

namespace MemSegment

variable (seg : MemSegment) (env : ImportEnv)

/-- What the first loop of `Import` answers for one info. -/
def checkInfo (info : Bytes) : Result :=
  match seg with
  | .devLegacy => deserialize hbmExportInfoSize .invalidParam info
  | .connBased => deserialize hostExportInfoSize .invalidParam info
  | .vmmBased segType shared =>
    if shared = false then .ok
    else if info.length ≠ unifiedExchangeSegInfoSize then .invalidParam
    else if vmmKeeps segType info then env.enableAccess info
    else .ok
  | .devUserLegacy =>
    if magicOf info = entityExportInfoMagic then importDeviceInfo env info
    else if magicOf info = hbmSliceExportInfoMagic then importSliceInfo env info
    else .invalidParam

/-- What the loops behind it answer, one after the other. -/
def enterInfos (rankId : ℕ) (env : ImportEnv) (infos : List Bytes) : List Result :=
  match seg with
  | .devLegacy =>
    let kept := infos.filter fun info => magicOf info = hbmSliceExportInfoMagic
    let others := kept.filter fun info => field 48 4 info ≠ rankId
    (if kept.any fun info => field 48 4 info = rankId then .ok else .invalidParam) ::
      (others.map env.enableAccess ++ others.map env.addVaInfo)
  | .connBased => (infos.filter fun info => field 28 4 info ≠ rankId).map env.addVaInfo
  | .vmmBased segType shared =>
    if shared = false then []
    else
      let kept := infos.filter (vmmKeeps segType)
      kept.map env.enableAccess ++
        (kept.filter fun info => field 40 4 info ≠ rankId).map env.addVaInfo
  | .devUserLegacy => []

/-- The address that `Import` puts into `addresses` for an info. -/
def addressOf (info : Bytes) : Option ℕ :=
  match seg with
  | .devLegacy => none
  | .connBased => none
  | .vmmBased segType shared =>
    if shared ∧ vmmKeeps segType info then some (field 16 8 info) else none
  | .devUserLegacy =>
    if magicOf info = entityExportInfoMagic then some 0
    else if magicOf info = hbmSliceExportInfoMagic then
      some (env.openSlice info ||| ((field 36 2 info + 1) <<< 48))
    else none

/-- Write what is there into the front of the addresses. -/
def writeAddresses (new : List (Option ℕ)) (old : List ℕ) : List ℕ :=
  List.zipWith (fun address before => address.getD before) new old ++ old.drop new.length

/-- `Import`; without addresses the pointer is null. -/
def importInfos (rankId : ℕ) (env : ImportEnv) (infos : List Bytes)
    (addresses : Option (List ℕ)) : Result × Option (List ℕ) :=
  (firstError (infos.map (seg.checkInfo env) ++ seg.enterInfos rankId env infos),
    addresses.map (writeAddresses
      ((infos.takeWhile fun info => seg.checkInfo env info = .ok).map (seg.addressOf env))))

theorem importInfos_addresses {seg : MemSegment} {rankId : ℕ} {env : ImportEnv}
    {infos : List Bytes} {addresses : Option (List ℕ)}
    (h : (seg.importInfos rankId env infos addresses).1 = .ok) :
    (seg.importInfos rankId env infos addresses).2 =
      addresses.map (writeAddresses (infos.map (seg.addressOf env))) := by
  have hall : ∀ info ∈ infos, (decide (seg.checkInfo env info = .ok)) = true := by
    intro info hinfo
    rw [importInfos, firstError_eq_ok_iff] at h
    exact decide_eq_true (h _ (mem_append_left _ (mem_map_of_mem hinfo)))
  rw [importInfos, takeWhile_eq_self_iff.mpr hall]

/-- The infos have the form that the segment asks for; `HybmDevLegacySegment` also looks for the one
of its own rank. -/
def Takes (seg : MemSegment) (rankId : ℕ) (infos : List Bytes) : Prop :=
  match seg with
  | .devLegacy => (∀ info ∈ infos, info.length = hbmExportInfoSize) ∧
      ∃ info ∈ infos, magicOf info = hbmSliceExportInfoMagic ∧ field 48 4 info = rankId
  | .connBased => ∀ info ∈ infos, info.length = hostExportInfoSize
  | .vmmBased _ shared => shared = true → ∀ info ∈ infos, info.length = unifiedExchangeSegInfoSize
  | .devUserLegacy => ∀ info ∈ infos, info.length = unifiedExchangeSegInfoSize ∧
      (magicOf info = entityExportInfoMagic ∧ field 32 2 info < maxDeviceCount ∨
        magicOf info = hbmSliceExportInfoMagic ∧ field 40 4 info < maxDeviceCount)

theorem takes_of_ok {seg : MemSegment} {rankId : ℕ} {env : ImportEnv} {infos : List Bytes}
    {addresses : Option (List ℕ)} (h : (seg.importInfos rankId env infos addresses).1 = .ok) :
    seg.Takes rankId infos := by
  rw [importInfos, firstError_eq_ok_iff] at h
  have hcheck : ∀ info ∈ infos, seg.checkInfo env info = .ok :=
    fun info hinfo => h _ (mem_append_left _ (mem_map_of_mem hinfo))
  cases seg with
  | devLegacy =>
    refine ⟨fun info hinfo => ?_, ?_⟩
    · simpa [checkInfo, deserialize] using hcheck info hinfo
    have hown := h _ (mem_append_right _ mem_cons_self)
    simpa [and_assoc] using hown
  | connBased =>
    intro info hinfo
    simpa [checkInfo, deserialize] using hcheck info hinfo
  | vmmBased segType shared =>
    rintro rfl info hinfo
    by_contra hlength
    simpa [checkInfo, hlength] using hcheck info hinfo
  | devUserLegacy =>
    intro info hinfo
    have hinfo := hcheck info hinfo
    simp only [checkInfo, importDeviceInfo, importSliceInfo] at hinfo
    split_ifs at hinfo with hentity hlength hdevice hslice hlength hdevice
    · exact ⟨not_not.mp hlength, .inl ⟨hentity, not_le.mp hdevice⟩⟩
    · exact ⟨not_not.mp hlength, .inr ⟨hslice, not_le.mp hdevice⟩⟩
    · exact ⟨not_not.mp hlength, .inr ⟨hslice, not_le.mp hdevice⟩⟩

end MemSegment

/-- All calls succeed, and slices are opened at one address. -/
def ImportEnv.succeeding : ImportEnv where
  setThreadAclDevice := .ok
  addRankTag := fun _ _ => .ok
  connectWithOptions := fun _ => .ok
  updateRankOptions := fun _ => .ok
  prepare := fun _ => .ok
  connect := .ok
  updateHybmDeviceInfo := .ok
  enableAccess := fun _ => .ok
  addVaInfo := fun _ => .ok
  openSlice := fun _ => 4096

theorem MemSegment.ok_of_takes {seg : MemSegment} {rankId : ℕ} {infos : List Bytes}
    {addresses : Option (List ℕ)} (h : seg.Takes rankId infos) :
    (seg.importInfos rankId .succeeding infos addresses).1 = .ok := by
  rw [importInfos, firstError_eq_ok_iff]
  intro answer hanswer
  rcases mem_append.mp hanswer with hanswer | hanswer
  · obtain ⟨info, hinfo, rfl⟩ := mem_map.mp hanswer
    cases seg with
    | devLegacy => simp [checkInfo, deserialize, h.1 info hinfo]
    | connBased => simp [checkInfo, deserialize, h info hinfo]
    | vmmBased segType shared =>
      cases shared with
      | false => rfl
      | true => simp [checkInfo, h rfl info hinfo, ImportEnv.succeeding]
    | devUserLegacy =>
      obtain ⟨hlength, ⟨hmagic, hdevice⟩ | ⟨hmagic, hdevice⟩⟩ := h info hinfo
      · simp [checkInfo, importDeviceInfo, hmagic, hlength, not_le.mpr hdevice,
          ImportEnv.succeeding]
      · have hne : hbmSliceExportInfoMagic ≠ entityExportInfoMagic := by decide
        simp [checkInfo, importSliceInfo, hmagic, hne, hlength, not_le.mpr hdevice,
          ImportEnv.succeeding]
  cases seg with
  | devLegacy =>
    rcases mem_cons.mp hanswer with rfl | hanswer
    · obtain ⟨info, hinfo, hmagic, hrank⟩ := h.2
      refine if_pos (any_eq_true.mpr ⟨info, mem_filter.mpr ⟨hinfo, ?_⟩, ?_⟩)
      · exact decide_eq_true hmagic
      · exact decide_eq_true hrank
    · rcases mem_append.mp hanswer with hanswer | hanswer
      · exact (mem_map.mp hanswer).elim fun _ hinfo => hinfo.2.symm
      · exact (mem_map.mp hanswer).elim fun _ hinfo => hinfo.2.symm
  | connBased => exact (mem_map.mp hanswer).elim fun _ hinfo => hinfo.2.symm
  | vmmBased segType shared =>
    cases shared with
    | false => cases hanswer
    | true =>
      rcases mem_append.mp hanswer with hanswer | hanswer
      · exact (mem_map.mp hanswer).elim fun _ hinfo => hinfo.2.symm
      · exact (mem_map.mp hanswer).elim fun _ hinfo => hinfo.2.symm
  | devUserLegacy => cases hanswer

end Hybm
