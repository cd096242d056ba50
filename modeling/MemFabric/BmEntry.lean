/-
Addresses and ranks of a BM object.

`smem_bm_create2` checks the options, reserves a range of addresses for each type of memory and
keeps the two bases.  `smem_bm_ptr_by_mem_type` multiplies by the maximum size of the type, which
the range has for every rank; `GetRankIdByGva` finds the range of an address and divides by the
local size.
-/
import MemFabric.SegmentSpace

namespace Bm

open Option Nat

open Hybm

/-! ### Creation -/

/-- `smem_bm_mem_type`. -/
inductive BmMemType
  | localDevice
  | localHost
  | device
  | host
  deriving DecidableEq

/-- `smem_bm_create_option_t`, without the tags. -/
structure CreateOption where
  maxDramSize : ℕ
  maxHbmSize : ℕ
  localDRAMSize : ℕ
  localHBMSize : ℕ
  dataOpType : ℕ
  flags : ℕ
  dramShmFd : ℤ

/-- `SMEM_LOCAL_DRAM_SIZE_MAX` and `SMEM_LOCAL_HBM_SIZE_MAX`. -/
def localDramSizeMax : ℕ := 2 <<< 40

def localHbmSizeMax : ℕ := 64 <<< 30

/-- `SMEM_BM_FLAG_CREATE_WITH_SHM`. -/
def flagCreateWithShm : ℕ := 1 <<< 8

/-- The bits of `smem_bm_data_op_type`. -/
def dataOpSdma : ℕ := 1

def dataOpHostRdma : ℕ := 2

def dataOpHostTcp : ℕ := 4

def dataOpDeviceRdma : ℕ := 8

def dataOpHostUrma : ℕ := 16

/-- `SMEM_WORLD_SIZE_MAX`. -/
def worldSizeMax : ℕ := 1024

/-- `SmemBmCreateOptionCheck`. -/
def createOptionCheck (option : CreateOption) : Bool :=
  ¬ (option.maxDramSize = 0 ∧ option.maxHbmSize = 0) ∧
    option.localDRAMSize ≤ localDramSizeMax ∧ option.localHBMSize ≤ localHbmSizeMax ∧
    option.localDRAMSize ≤ option.maxDramSize ∧ option.localHBMSize ≤ option.maxHbmSize ∧
    (option.flags &&& flagCreateWithShm = 0 ∨ (0 ≤ option.dramShmFd ∧ 0 < option.localDRAMSize))

/-- `SmemBmDataOpCheck`. -/
def dataOpCheck (dataOpType : ℕ) : Bool :=
  dataOpType &&& (dataOpSdma ||| dataOpHostRdma ||| dataOpHostUrma ||| dataOpHostTcp |||
    dataOpDeviceRdma) ≠ 0

/-- `hybm_options`, as far as an entry and the reservation read them. -/
structure HybmOptions where
  memType : ℕ
  rankCount : ℕ
  rankId : ℕ
  maxHBMSize : ℕ
  maxDRAMSize : ℕ
  deviceVASpace : ℕ
  hostVASpace : ℕ
  dramShmFd : ℤ

/-- `TransHybmMemType`: the bits of `HYBM_MEM_TYPE_HOST` and `HYBM_MEM_TYPE_DEVICE`. -/
def transHybmMemType (dramSize hbmSize : ℕ) : ℕ :=
  (if 0 < dramSize then 2 else 0) ||| (if 0 < hbmSize then 1 else 0)

/-- `SmemBmFillDramFdInOptions`. -/
def fillDramFd (option : CreateOption) : ℤ :=
  if 0 ≤ option.dramShmFd ∧ option.flags &&& flagCreateWithShm ≠ 0 then option.dramShmFd else -1

/-- What is fixed for the process: how it was built, the version of the driver, the chip and the
device. -/
structure Platform where
  ascendNpu : Bool
  gvaV4 : Bool
  soc910C : Bool
  devId : ℤ

/-- The ranks of the manager, as `smem_bm_init` accepts them. -/
structure Manager where
  worldSize : ℕ
  rankId : ℕ
  worldSize_ne : worldSize ≠ 0
  worldSize_le : worldSize ≤ worldSizeMax

/-- What the calls for one segment are answered. -/
structure SegmentReplies where
  reserve : ReserveReplies
  allocated : Bool
  exported : Bool

/-- What the calls of one creation are answered; `mte` tells whether the tags have the operation
type MTE. -/
structure CreateReplies where
  entryCreated : Bool
  urlSize : ℕ
  teamCreated : Bool
  entityCreated : Bool
  mte : Bool
  hbm : SegmentReplies
  dram : SegmentReplies
  entityExported : Bool

/-- `SmemBmEntry`; the address 0 is none. -/
structure Entry where
  coreOptions : HybmOptions
  hostGva : ℕ
  deviceGva : ℕ

namespace HybmOptions

variable (o : HybmOptions)

/-- `InitSegment`, `InitHbmSegment` and `InitDramSegment`: the options of the segments that there
are. -/
def hbmSegment (devId : ℤ) : Option SegmentOptions :=
  if o.memType &&& 1 = 0 then none
  else if o.maxHBMSize = 0 then none
  else some ⟨.hbm, o.maxHBMSize, o.rankId, o.rankCount, devId⟩

def dramSegment (devId : ℤ) : Option SegmentOptions :=
  if o.memType &&& 2 = 0 then none
  else if o.maxDRAMSize = 0 then none
  else some ⟨.dram, o.maxDRAMSize, o.rankId, o.rankCount, devId⟩

/-- `MemSegment::Create`. -/
def hbmKind (p : Platform) (mte : Bool) : SegmentKind :=
  if p.gvaV4 ∧ p.soc910C ∧ ¬ mte then .vmm else .legacy

def dramKind (p : Platform) : SegmentKind :=
  if p.gvaV4 ∧ p.soc910C ∧ o.dramShmFd < 0 then .vmm else .conn

/-- The reservation of one segment by the entity; without a segment the base stays 0. -/
def reserveSegment (segment : Option SegmentOptions) (kind : SegmentKind) (sp : AddressSpace)
    (replies : SegmentReplies) : Option (ℕ × AddressSpace) :=
  match segment with
  | none => some (0, sp)
  | some s =>
    match s.reserveMemorySpace kind false sp replies.reserve with
    | some (some base, sp') => some (base, sp')
    | _ => none

/-- `hybm_alloc_local_memory` and `hybm_export` for a type whose maximum size is not 0. -/
def shareSlice (maxSize localSize : ℕ) (replies : SegmentReplies) : Bool :=
  maxSize = 0 ∨ (localSize % Vmm.largePageSize = 0 ∧ localSize ≤ maxSize ∧ replies.allocated ∧
    replies.exported)

/-- `SmemBmEntry::Initialize`. -/
def initializeEntry (p : Platform) (sp : AddressSpace) (replies : CreateReplies) :
    Option (Entry × AddressSpace) :=
  if ¬ (replies.teamCreated ∧ o.rankId < o.rankCount ∧ replies.entityCreated) then none
  else
    match reserveSegment (o.hbmSegment p.devId) (hbmKind p replies.mte) sp replies.hbm with
    | none => none
    | some (deviceGva, sp1) =>
      match reserveSegment (o.dramSegment p.devId) (o.dramKind p) sp1 replies.dram with
      | none => none
      | some (hostGva, sp2) =>
        if ¬ (shareSlice o.maxHBMSize o.deviceVASpace replies.hbm ∧
          shareSlice o.maxDRAMSize o.hostVASpace replies.dram ∧ replies.entityExported) then none
        else some (⟨o, hostGva, deviceGva⟩, sp2)

end HybmOptions

/-- The options that `smem_bm_create2` hands on. -/
def CreateOption.hybmOptions (option : CreateOption) (manager : Manager) : HybmOptions where
  memType := transHybmMemType option.maxDramSize option.maxHbmSize
  rankCount := manager.worldSize
  rankId := manager.rankId
  maxHBMSize := option.maxHbmSize
  maxDRAMSize := option.maxDramSize
  deviceVASpace := option.localHBMSize
  hostVASpace := option.localDRAMSize
  dramShmFd := fillDramFd option

/-- `smem_bm_create2`: the entry, and the address space afterwards. -/
def create2 (p : Platform) (manager : Manager) (sp : AddressSpace) (replies : CreateReplies)
    (option : CreateOption) : Option (Entry × AddressSpace) :=
  if !createOptionCheck option then none
  else if !dataOpCheck option.dataOpType then none
  else if !replies.entryCreated then none
  else if !p.ascendNpu ∧ option.dataOpType &&& (dataOpSdma ||| dataOpDeviceRdma) ≠ 0 then none
  else if 64 < replies.urlSize then none
  else (option.hybmOptions manager).initializeEntry p sp replies

/-! ### Addresses -/

/-- `AddrInHostGva` and `AddrInDeviceGva`. -/
def addrInGva (gva maxSize rankCount address size : ℕ) : Bool :=
  if gva = 0 then false
  else if (gva + maxSize * rankCount % 2 ^ 64) % 2 ^ 64 < (address + size) % 2 ^ 64 then false
  else gva ≤ address

/-- The quotient as `GetRankIdByGva` returns it; `none` is a division by zero. -/
def rankAt (gva vaSpace address : ℕ) : Option ℕ :=
  if vaSpace = 0 then none else some ((address - gva) / vaSpace % 2 ^ 32)

namespace Entry

variable (e : Entry)

def addrInHostGva (address size : ℕ) : Bool :=
  addrInGva e.hostGva e.coreOptions.maxDRAMSize e.coreOptions.rankCount address size

def addrInDeviceGva (address size : ℕ) : Bool :=
  addrInGva e.deviceGva e.coreOptions.maxHBMSize e.coreOptions.rankCount address size

def getRankIdByGva (gva : ℕ) : Option ℕ :=
  if e.addrInHostGva gva 1 then rankAt e.hostGva e.coreOptions.hostVASpace gva
  else if e.addrInDeviceGva gva 1 then rankAt e.deviceGva e.coreOptions.deviceVASpace gva
  else some (2 ^ 32 - 1)

/-- `smem_bm_ptr_by_mem_type`; the address 0 is none. -/
def ptrByMemType (memType : BmMemType) (peerRankId : ℕ) : ℕ :=
  if e.coreOptions.rankCount ≤ peerRankId then 0
  else
    match memType with
    | .device => (e.deviceGva + e.coreOptions.maxHBMSize * peerRankId % 2 ^ 64) % 2 ^ 64
    | .host => (e.hostGva + e.coreOptions.maxDRAMSize * peerRankId % 2 ^ 64) % 2 ^ 64
    | _ => 0

/-- The maximum size per rank; a rank has no space of the local types. -/
def maxSize : BmMemType → ℕ
  | .device => e.coreOptions.maxHBMSize
  | .host => e.coreOptions.maxDRAMSize
  | _ => 0

/-- Every address of every rank leads back to the rank, and nothing is divided by zero. -/
def Invertible : Prop :=
  (∀ memType r offset, r < e.coreOptions.rankCount → offset < e.maxSize memType →
    e.getRankIdByGva (e.ptrByMemType memType r + offset) = some r) ∧
  ∀ gva, gva < 2 ^ 64 → e.getRankIdByGva gva ≠ none

end Entry

/-! ### What a creation gives -/

/-- A range has room for every rank, or there is none for a maximum size of 0. -/
def RangeOf (gva maxSize rankCount : ℕ) : Prop :=
  (maxSize = 0 ∧ gva = 0) ∨ (0 < maxSize ∧ gva ≠ 0 ∧ gva + maxSize * rankCount < 2 ^ 63)

/-- The two ranges of an entry are within the addresses and apart. -/
structure Entry.Placed (e : Entry) : Prop where
  pos : 0 < e.coreOptions.rankCount
  le : e.coreOptions.rankCount ≤ worldSizeMax
  host : RangeOf e.hostGva e.coreOptions.maxDRAMSize e.coreOptions.rankCount
  device : RangeOf e.deviceGva e.coreOptions.maxHBMSize e.coreOptions.rankCount
  apart : e.hostGva ≠ 0 → e.deviceGva ≠ 0 →
    e.hostGva + e.coreOptions.maxDRAMSize * e.coreOptions.rankCount ≤ e.deviceGva ∨
      e.deviceGva + e.coreOptions.maxHBMSize * e.coreOptions.rankCount ≤ e.hostGva

variable {sp sp' : AddressSpace} {maxSize gva n r offset : ℕ}

/-- A segment that there is has a range afterwards; what was held before is kept apart from it by
the segments of the manager. -/
theorem reserveSegment_spec (hsp : sp.Sound) {rankId rankCnt : ℕ} {segType : Vmm.SegType}
    {devId : ℤ} {segment : Option SegmentOptions} {kind : SegmentKind} {replies : SegmentReplies}
    {base : ℕ} (hsegment : segment =
      if maxSize = 0 then none else some ⟨segType, maxSize, rankId, rankCnt, devId⟩)
    (h : HybmOptions.reserveSegment segment kind sp replies = some (base, sp')) :
    sp'.Sound ∧ RangeOf base maxSize rankCnt ∧ (base ≠ 0 → sp'.Holds base (maxSize * rankCnt)) ∧
      (base ≠ 0 → kind ≠ .legacy →
        ∀ {b t}, sp.Holds b t → base + maxSize * rankCnt ≤ b ∨ b + t ≤ base) := by
  rw [hsegment] at h
  split at h
  · next hzero =>
    obtain ⟨rfl, rfl⟩ := Prod.mk.inj (some.inj h)
    exact ⟨hsp, .inl ⟨hzero, rfl⟩, fun hne => absurd rfl hne, fun hne => absurd rfl hne⟩
  unfold HybmOptions.reserveSegment at h
  dsimp only at h
  split at h
  · next hreserve =>
    obtain ⟨rfl, rfl⟩ := Prod.mk.inj (some.inj h)
    obtain ⟨hsound, hne, hpos, hholds, hapart⟩ :=
      SegmentOptions.reserveMemorySpace_spec hsp hreserve
    rw [mul_comm] at hholds
    refine ⟨hsound, .inr ⟨hpos, hne, hsound.lt_of_holds hholds⟩, fun _ => hholds, fun _ hkind => ?_⟩
    rw [mul_comm maxSize]
    exact hapart hkind
  · cases h

theorem hbmSegment_eq (option : CreateOption) (manager : Manager) (devId : ℤ) :
    (option.hybmOptions manager).hbmSegment devId =
      if option.maxHbmSize = 0 then none
      else some ⟨.hbm, option.maxHbmSize, manager.rankId, manager.worldSize, devId⟩ := by
  unfold HybmOptions.hbmSegment CreateOption.hybmOptions transHybmMemType
  by_cases hzero : option.maxHbmSize = 0
  · simp [hzero]
  have hpos := pos_of_ne_zero hzero
  by_cases hdram : 0 < option.maxDramSize
  · simp [hpos, hdram, hzero]
  · simp [hpos, hdram, hzero]

theorem dramSegment_eq (option : CreateOption) (manager : Manager) (devId : ℤ) :
    (option.hybmOptions manager).dramSegment devId =
      if option.maxDramSize = 0 then none
      else some ⟨.dram, option.maxDramSize, manager.rankId, manager.worldSize, devId⟩ := by
  unfold HybmOptions.dramSegment CreateOption.hybmOptions transHybmMemType
  by_cases hzero : option.maxDramSize = 0
  · by_cases hhbm : 0 < option.maxHbmSize
    · simp [hzero, hhbm]
    · simp [hzero, hhbm]
  have hpos := pos_of_ne_zero hzero
  by_cases hhbm : 0 < option.maxHbmSize
  · simp [hpos, hhbm, hzero]
  · simp [hpos, hhbm, hzero]

theorem dramKind_ne_legacy (o : HybmOptions) (p : Platform) : o.dramKind p ≠ .legacy := by
  unfold HybmOptions.dramKind
  split
  · nofun
  · nofun

theorem create2_spec {p : Platform} {manager : Manager} {replies : CreateReplies}
    {option : CreateOption} {e : Entry} (hsp : sp.Sound)
    (h : create2 p manager sp replies option = some (e, sp')) :
    e.Placed ∧ e.coreOptions = option.hybmOptions manager ∧
      option.localDRAMSize ≤ option.maxDramSize ∧ option.localHBMSize ≤ option.maxHbmSize := by
  obtain ⟨hcheck, h⟩ := ite_none_left_eq_some.mp h
  obtain ⟨-, h⟩ := ite_none_left_eq_some.mp h
  obtain ⟨-, h⟩ := ite_none_left_eq_some.mp h
  obtain ⟨-, h⟩ := ite_none_left_eq_some.mp h
  obtain ⟨-, h⟩ := ite_none_left_eq_some.mp h
  rw [Bool.not_eq_true', Bool.not_eq_false] at hcheck
  obtain ⟨-, -, -, hdram, hhbm, -⟩ := of_decide_eq_true hcheck
  obtain ⟨-, h⟩ := ite_none_left_eq_some.mp h
  split at h
  · cases h
  next deviceGva sp1 hdev =>
    split at h
    · cases h
    next hostGva sp2 hhost =>
      obtain ⟨-, h⟩ := ite_none_left_eq_some.mp h
      obtain ⟨rfl, rfl⟩ := Prod.mk.inj (some.inj h)
      obtain ⟨hsound1, hrange1, hholds1, -⟩ :=
        reserveSegment_spec hsp (hbmSegment_eq option manager p.devId) hdev
      obtain ⟨-, hrange2, -, hapart2⟩ :=
        reserveSegment_spec hsound1 (dramSegment_eq option manager p.devId) hhost
      refine ⟨⟨pos_of_ne_zero manager.worldSize_ne, manager.worldSize_le, hrange2, hrange1,
        fun hhostNe hdeviceNe => ?_⟩, rfl, hdram, hhbm⟩
      exact hapart2 hhostNe (dramKind_ne_legacy _ p) (hholds1 hdeviceNe)

/-! ### The rank of an address -/

theorem addrInGva_iff {a : ℕ} (hne : gva ≠ 0) (hfits : gva + maxSize * n < 2 ^ 63)
    (ha : a < 2 ^ 63) : addrInGva gva maxSize n a 1 = true ↔ gva ≤ a ∧ a < gva + maxSize * n := by
  unfold addrInGva
  rw [if_neg hne, mod_eq_of_lt (show maxSize * n < 2 ^ 64 by omega),
    mod_eq_of_lt (show gva + maxSize * n < 2 ^ 64 by omega),
    mod_eq_of_lt (show a + 1 < 2 ^ 64 by omega)]
  split
  · next hbehind =>
    constructor
    · nofun
    · rintro ⟨-, hlt⟩
      omega
  next hbefore =>
  rw [decide_eq_true_eq]
  constructor
  · intro hle
    exact ⟨hle, by omega⟩
  · exact And.left

theorem addr_lt (hr : r < n) (hoff : offset < maxSize) : maxSize * r + offset < maxSize * n := by
  have hnext := mul_le_mul_left maxSize (succ_le_of_lt hr)
  rw [mul_succ] at hnext
  omega

theorem ptr_eq (h : RangeOf gva maxSize n) (hr : r < n) (hoff : offset < maxSize) :
    (gva + maxSize * r % 2 ^ 64) % 2 ^ 64 = gva + maxSize * r := by
  have hlt := addr_lt hr hoff
  rcases h with ⟨hzero, -⟩ | ⟨-, -, hfits⟩
  · omega
  · rw [mod_eq_of_lt (show maxSize * r < 2 ^ 64 by omega), mod_eq_of_lt (by omega)]

theorem rankAt_self (hr : r < 2 ^ 32) (hoff : offset < maxSize) :
    rankAt gva maxSize (gva + (maxSize * r + offset)) = some r := by
  unfold rankAt
  rw [if_neg (by omega), Nat.add_sub_cancel_left, Nat.mul_add_div (by omega),
    div_eq_of_lt hoff, add_zero, mod_eq_of_lt hr]

theorem eq_maxSize_of_rankAt {vaSpace : ℕ} (hle : vaSpace ≤ maxSize)
    (hzero : rankAt gva vaSpace gva ≠ none)
    (hfirst : vaSpace < maxSize → rankAt gva vaSpace (gva + vaSpace) = some 0) :
    vaSpace = maxSize := by
  have hne : vaSpace ≠ 0 := by
    rintro rfl
    exact hzero rfl
  by_contra hnot
  have hrank := hfirst (by omega)
  unfold rankAt at hrank
  rw [if_neg hne, Nat.add_sub_cancel_left, Nat.div_self (by omega)] at hrank
  exact absurd (some.inj hrank) (by norm_num)

namespace Entry.Placed

variable {e : Entry}

section

variable (h : e.Placed)
include h

section

variable (hr : r < e.coreOptions.rankCount)
include hr

theorem addrInHostGva (hoff : offset < e.coreOptions.maxDRAMSize) :
    e.addrInHostGva (e.hostGva + (e.coreOptions.maxDRAMSize * r + offset)) 1 = true := by
  have hlt := addr_lt hr hoff
  rcases h.host with ⟨hzero, -⟩ | ⟨-, hne, hfits⟩
  · omega
  · exact (addrInGva_iff hne hfits (by omega)).mpr ⟨by omega, by omega⟩

theorem addrInDeviceGva (hoff : offset < e.coreOptions.maxHBMSize) :
    e.addrInHostGva (e.deviceGva + (e.coreOptions.maxHBMSize * r + offset)) 1 = false ∧
      e.addrInDeviceGva (e.deviceGva + (e.coreOptions.maxHBMSize * r + offset)) 1 = true := by
  have hlt := addr_lt hr hoff
  rcases h.device with ⟨hzero, -⟩ | ⟨-, hne, hfits⟩
  · omega
  refine ⟨?_, (addrInGva_iff hne hfits (by omega)).mpr ⟨by omega, by omega⟩⟩
  rw [← Bool.not_eq_true]
  intro hin
  rcases h.host with ⟨-, hzero⟩ | ⟨-, hhost, hhostFits⟩
  · rw [Entry.addrInHostGva, addrInGva, if_pos hzero] at hin
    cases hin
  have hrange := (addrInGva_iff hhost hhostFits (by omega)).mp hin
  rcases h.apart hhost hne with hle | hle
  · omega
  · omega

theorem getRankIdByGva_host (hoff : offset < e.coreOptions.maxDRAMSize) :
    e.getRankIdByGva (e.hostGva + (e.coreOptions.maxDRAMSize * r + offset)) =
      rankAt e.hostGva e.coreOptions.hostVASpace
        (e.hostGva + (e.coreOptions.maxDRAMSize * r + offset)) := by
  rw [Entry.getRankIdByGva, if_pos (h.addrInHostGva hr hoff)]

theorem getRankIdByGva_device (hoff : offset < e.coreOptions.maxHBMSize) :
    e.getRankIdByGva (e.deviceGva + (e.coreOptions.maxHBMSize * r + offset)) =
      rankAt e.deviceGva e.coreOptions.deviceVASpace
        (e.deviceGva + (e.coreOptions.maxHBMSize * r + offset)) := by
  obtain ⟨hhost, hdev⟩ := h.addrInDeviceGva hr hoff
  rw [Entry.getRankIdByGva, hhost, if_neg Bool.false_ne_true, if_pos hdev]

theorem ptrByMemType_host (hoff : offset < e.coreOptions.maxDRAMSize) :
    e.ptrByMemType .host r = e.hostGva + e.coreOptions.maxDRAMSize * r := by
  rw [Entry.ptrByMemType, if_neg (by omega)]
  exact ptr_eq h.host hr hoff

theorem ptrByMemType_device (hoff : offset < e.coreOptions.maxHBMSize) :
    e.ptrByMemType .device r = e.deviceGva + e.coreOptions.maxHBMSize * r := by
  rw [Entry.ptrByMemType, if_neg (by omega)]
  exact ptr_eq h.device hr hoff

end

theorem invertible (hhost : e.coreOptions.hostVASpace = e.coreOptions.maxDRAMSize)
    (hdev : e.coreOptions.deviceVASpace = e.coreOptions.maxHBMSize) : e.Invertible := by
  have hle : e.coreOptions.rankCount ≤ 1024 := h.le
  refine ⟨fun memType r offset hr hoff => ?_, fun gva _ hnone => ?_⟩
  · cases memType with
    | localDevice | localHost => exact absurd hoff (not_lt_zero _)
    | device =>
      rw [h.ptrByMemType_device hr hoff, add_assoc, h.getRankIdByGva_device hr hoff, hdev]
      exact rankAt_self (by omega) hoff
    | host =>
      rw [h.ptrByMemType_host hr hoff, add_assoc, h.getRankIdByGva_host hr hoff, hhost]
      exact rankAt_self (by omega) hoff
  -- An address is in a range only if the range has a size.
  unfold Entry.getRankIdByGva at hnone
  split at hnone
  · next hin =>
    rcases h.host with ⟨-, hzero⟩ | ⟨hpos, -, -⟩
    · rw [Entry.addrInHostGva, addrInGva, if_pos hzero] at hin
      cases hin
    · rw [hhost, rankAt, if_neg hpos.ne'] at hnone
      cases hnone
  split at hnone
  · next hin =>
    rcases h.device with ⟨-, hzero⟩ | ⟨hpos, -, -⟩
    · rw [Entry.addrInDeviceGva, addrInGva, if_pos hzero] at hin
      cases hin
    · rw [hdev, rankAt, if_neg hpos.ne'] at hnone
      cases hnone
  · cases hnone

theorem sizes_of_invertible (hinv : e.Invertible)
    (hhost : e.coreOptions.hostVASpace ≤ e.coreOptions.maxDRAMSize)
    (hdev : e.coreOptions.deviceVASpace ≤ e.coreOptions.maxHBMSize) :
    e.coreOptions.hostVASpace = e.coreOptions.maxDRAMSize ∧
      e.coreOptions.deviceVASpace = e.coreOptions.maxHBMSize := by
  obtain ⟨hrank, hzero⟩ := hinv
  constructor
  · rcases h.host with ⟨hnone, -⟩ | ⟨hpos, -, hfits⟩
    · omega
    have hbase := h.getRankIdByGva_host h.pos hpos
    refine eq_maxSize_of_rankAt hhost (hbase ▸ hzero _ (by omega)) fun hlt => ?_
    have hat := h.getRankIdByGva_host h.pos hlt
    have hfound := hrank .host 0 _ h.pos hlt
    rw [h.ptrByMemType_host h.pos hlt, add_assoc, hat, mul_zero, zero_add] at hfound
    exact hfound
  rcases h.device with ⟨hnone, -⟩ | ⟨hpos, -, hfits⟩
  · omega
  have hbase := h.getRankIdByGva_device h.pos hpos
  rw [mul_zero, add_zero] at hbase
  refine eq_maxSize_of_rankAt hdev (hbase ▸ hzero _ (by omega)) fun hlt => ?_
  have hat := h.getRankIdByGva_device h.pos hlt
  have hfound := hrank .device 0 _ h.pos hlt
  rw [h.ptrByMemType_device h.pos hlt, add_assoc, hat, mul_zero, zero_add] at hfound
  exact hfound

end

end Entry.Placed

/-- The rank of every address of every rank is found, and nothing is divided by zero, exactly if
both local sizes are the maximum sizes. -/
theorem invertible_iff {p : Platform} {manager : Manager} {sp sp' : AddressSpace}
    {replies : CreateReplies} {option : CreateOption} {e : Entry}
    (hreserved : reserveSystem.Reachable sp.reserved) (hheap : Gva.gvaSystem.Reachable sp.heap)
    (h : create2 p manager sp replies option = some (e, sp')) :
    e.Invertible ↔
      option.localDRAMSize = option.maxDramSize ∧ option.localHBMSize = option.maxHbmSize := by
  have hsp : sp.Sound := ⟨reserved_apart hreserved, Gva.GvaHeap.BelowTop.of_reachable hheap⟩
  obtain ⟨hplaced, hoptions, hdram, hhbm⟩ := create2_spec hsp h
  -- The sizes of the entry are those of the option.
  obtain ⟨options, hostGva, deviceGva⟩ := e
  obtain rfl : options = option.hybmOptions manager := hoptions
  constructor
  · intro hinv
    exact hplaced.sizes_of_invertible hinv hdram hhbm
  · rintro ⟨hhostEq, hdeviceEq⟩
    exact hplaced.invertible hhostEq hdeviceEq

/-! ### Runs -/

def vmmPlatform : Platform := ⟨true, true, true, 0⟩

def twoRanks : Manager := ⟨2, 0, by decide, by decide⟩

def freshSpace : AddressSpace := ⟨OrderedMap.empty, [], .new⟩

def segmentGranted (base : ℕ) : SegmentReplies :=
  ⟨⟨true, some base, fun _ => ⟨true, 0⟩⟩, true, true⟩

/-- The device memory is at the beginning of the space, and the host memory behind it. -/
def allGranted : CreateReplies :=
  ⟨true, 0, true, true, false, segmentGranted gvmStartAddr,
    segmentGranted (gvmStartAddr + 2 * Vmm.largePageSize), true⟩

/-- Two pages of host memory and one of device memory per rank, of which the rank brings
`localDRAM`. -/
def twoPages (localDRAM : ℕ) : CreateOption :=
  ⟨2 * Vmm.largePageSize, Vmm.largePageSize, localDRAM, Vmm.largePageSize, dataOpSdma, 0, -1⟩

theorem invertible_with_full_sizes :
    ∃ e sp', create2 vmmPlatform twoRanks freshSpace allGranted
      (twoPages (2 * Vmm.largePageSize)) = some (e, sp') ∧ e.Invertible := by
  have hmade : (create2 vmmPlatform twoRanks freshSpace allGranted
      (twoPages (2 * Vmm.largePageSize))).isSome = true := by decide +kernel
  obtain ⟨⟨e, sp'⟩, h⟩ := isSome_iff_exists.mp hmade
  have hreserved : reserveSystem.Reachable freshSpace.reserved := .start
  have hheap : Gva.gvaSystem.Reachable freshSpace.heap := .start
  exact ⟨e, sp', h, (invertible_iff hreserved hheap h).mpr ⟨rfl, rfl⟩⟩

/-- With a smaller local size an address of rank 0 is given to rank 1, and with none the division is
by zero. -/
theorem wrong_rank_and_division :
    ((create2 vmmPlatform twoRanks freshSpace allGranted (twoPages Vmm.largePageSize)).map
      fun x => x.1.getRankIdByGva (x.1.ptrByMemType .host 0 + Vmm.largePageSize)) = some (some 1) ∧
    ((create2 vmmPlatform twoRanks freshSpace allGranted (twoPages 0)).map
      fun x => x.1.getRankIdByGva (x.1.ptrByMemType .host 0)) = some none := by
  decide +kernel

end Bm
