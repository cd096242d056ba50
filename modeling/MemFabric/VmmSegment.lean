/-
Slices of a segment of virtual memory.

`HybmVmmBasedSegment` hands out the addresses of its range one after the other, maps memory
there and enters the region with the manager of virtual addresses.  A slice is released by its
address: what is mapped there is unmapped and what is entered there is taken out.  The slice of
an empty allocation gets the next address without taking it up.  `Mappings` has what the driver
is asked for, with how often a mapping was taken down; the handles are left out.
-/
import MemFabric.VaManager

namespace Hybm.Vmm

open Function Option Nat List

/-! ### Data -/

/-- `HYBM_LARGE_PAGE_SIZE`. -/
def largePageSize : ℕ := 2 * 1024 * 1024

/-- `HYBM_HBM_START_ADDR` and `HYBM_HBM_END_ADDR`. -/
def hbmStartAddr : ℕ := 0x100000000000

def hbmEndAddr : ℕ := hbmStartAddr + 0x80000000000

def isHbm (addr : ℕ) : Bool := hbmStartAddr ≤ addr && addr < hbmEndAddr

inductive SegType
  | hbm
  | dram
  | other
  deriving DecidableEq

/-- The options of a segment, and its range, which is within the address space once it is
reserved; the address 0 is none. -/
structure Options where
  segType : SegType
  maxSize : ℕ
  rankId : ℕ
  shared : Bool
  globalVirtualAddress : ℕ
  fits : globalVirtualAddress + maxSize * rankId + maxSize < 2 ^ 64

namespace Options

variable (o : Options)

def localVirtualBase : ℕ := o.globalVirtualAddress + o.maxSize * o.rankId

def memType : MemType := if o.segType = .hbm then .device else .host

end Options

/-- `MemSlice`.  The number `id` tells the object from the other ones. -/
structure Slice where
  id : ℕ
  index : ℕ
  vAddress : ℕ
  size : ℕ
  deriving DecidableEq

/-- The region of a slice, as `AddVaInfo` completes it. -/
def Options.info (o : Options) (x : Slice) : AllocatedGvaInfo :=
  AddCall.info (.addVaInfoBase ⟨x.vAddress, x.size, o.memType, x.vAddress⟩ o.rankId)

/-! ### What the driver maps -/

/-- `HalMemMap` and `HalHostRegister`. -/
inductive MapKind
  | map
  | register
  deriving DecidableEq

/-- A mapping that was made for a slice, and the number of times it was taken down. -/
structure Mapping where
  slice : ℕ
  size : ℕ
  unmaps : ℕ
  deriving DecidableEq

/-- The last mapping at each address, and the ones before. -/
structure Mappings where
  current : MapKind → ℕ → Option Mapping
  past : List Mapping

namespace Mappings

variable (ms : Mappings)

def none : Mappings := ⟨fun _ _ => .none, []⟩

def set (kind : MapKind) (addr : ℕ) (mapping : Option Mapping) : MapKind → ℕ → Option Mapping :=
  update ms.current kind (update (ms.current kind) addr mapping)

def map (kind : MapKind) (addr : ℕ) (mapping : Mapping) : Mappings :=
  ⟨ms.set kind addr (some mapping), (ms.current kind addr).toList ++ ms.past⟩

/-- `HalMemUnmap` and `HalHostUnregisterEx`: what was mapped last is taken down. -/
def unmap (kind : MapKind) (addr : ℕ) : Mappings :=
  ⟨ms.set kind addr ((ms.current kind addr).map fun mapping =>
    { mapping with unmaps := mapping.unmaps + 1 }), ms.past⟩

def Made (mapping : Mapping) : Prop :=
  mapping ∈ ms.past ∨ ∃ kind addr, ms.current kind addr = some mapping

end Mappings

/-! ### The segment -/

/-- `slices` and `registerSlices` are the maps of the segment, `created` counts the slices, and
`allocated` and `registered` are the live slices: handed out with success and not released. -/
structure Segment where
  allocatedSize : ℕ
  sliceCount : ℕ
  created : ℕ
  slices : ℕ → Option Slice
  registerSlices : ℕ → Option (Slice × ℕ)
  mappings : Mappings
  va : VaState
  allocated : List Slice
  registered : List Slice

/-- What the driver answers to an allocation: whether `HalMemCreate`, the export, `HalMemMap` and
`HalMemSetAccess` succeed. -/
structure AllocAnswers where
  created : Bool := true
  exported : Bool := true
  mapped : Bool := true
  access : Bool := true

namespace Segment

def start : Segment :=
  ⟨0, 0, 0, fun _ => none, fun _ => none, .none, ⟨.new, []⟩, [], []⟩

variable (o : Options) (s : Segment)

def nextSlice (size : ℕ) : Slice :=
  ⟨s.created, s.sliceCount, o.localVirtualBase + s.allocatedSize, size⟩

/-- A slice is made and put into `slices_`, where one with its index stays. -/
def emplaceSlice (size : ℕ) : Segment :=
  { s with
    sliceCount := (s.sliceCount + 1) % 2 ^ 16
    created := s.created + 1
    slices :=
      if (s.slices s.sliceCount).isSome then s.slices
      else update s.slices s.sliceCount (some (s.nextSlice o size)) }

def mallocEmptySlice (ans : AllocAnswers) : Result × Segment :=
  if o.shared && !ans.exported then (.error, s.emplaceSlice o 0)
  else (.ok, { s.emplaceSlice o 0 with allocated := s.allocated ++ [s.nextSlice o 0] })

/-- The rest of `AllocLocalMemory`, from the mapping on. -/
def mapSlice (size : ℕ) (ans : AllocAnswers) (t : Segment) : Result × Segment :=
  let x := s.nextSlice o size
  let mappings := t.mappings.map .map x.vAddress ⟨x.id, size, 0⟩
  if o.segType = .dram ∧ o.shared = true ∧ ans.access = false then
    (.dlFunctionFailed, { t with mappings := mappings })
  else if (t.va.manager.addVaInfo (o.info x)).1 ≠ .ok then
    ((t.va.manager.addVaInfo (o.info x)).1, { t with
      mappings := mappings.unmap .map x.vAddress
      slices := update t.slices x.index none })
  else
    (.ok, { t with
      mappings := mappings
      va := t.va.add (o.info x)
      allocated := t.allocated ++ [x] })

def allocLocalMemory (size : ℕ) (ans : AllocAnswers) : Result × Segment :=
  if size % largePageSize ≠ 0 ∨ o.maxSize < (size + s.allocatedSize) % 2 ^ 64 then
    (.invalidParam, s)
  else if o.globalVirtualAddress = 0 then (.notInitialized, s)
  else if size = 0 then s.mallocEmptySlice o ans
  else if o.segType = .other then (.invalidParam, s)
  else if !ans.created then (.dlFunctionFailed, s)
  else
    let t := { s.emplaceSlice o size with allocatedSize := (s.allocatedSize + size) % 2 ^ 64 }
    if o.shared && !ans.exported then (.error, t)
    else if !ans.mapped then (.dlFunctionFailed, t)
    else s.mapSlice o size ans t

/-- A slice for memory of the user is made and put into `registerSlices_`. -/
def emplaceRegistered (addr va size : ℕ) (mappings : Mappings) : Segment :=
  let x : Slice := ⟨s.created, s.sliceCount, va, size⟩
  { s with
    sliceCount := (s.sliceCount + 1) % 2 ^ 16
    created := s.created + 1
    registerSlices :=
      if (s.registerSlices s.sliceCount).isSome then s.registerSlices
      else update s.registerSlices s.sliceCount (some (x, addr))
    mappings := mappings
    registered := s.registered ++ [x] }

/-- `RegisterMemory`; `output` is the answer of `HalHostRegister`, if it succeeds. -/
def registerMemory (addr size : ℕ) (output : Option ℕ) : Result × Segment :=
  if isHbm addr then (.ok, s.emplaceRegistered addr addr size s.mappings)
  else
    match output with
    | none => (.error, s)
    | some va => (.ok, s.emplaceRegistered addr va size
        (s.mappings.map .register addr ⟨s.created, size, 0⟩))

/-- `ReleaseSliceMemory`; `pastEnd` is for `RemoveOneVaInfo`. -/
def releaseSliceMemory (pastEnd : Bool) (x : Slice) : Result × Segment :=
  match s.slices x.index with
  | some y =>
    if y ≠ x then (.invalidParam, s)
    else (.ok, { s with
      mappings := s.mappings.unmap .map x.vAddress
      va := s.va.remove pastEnd x.vAddress
      slices := update s.slices x.index none
      allocated := s.allocated.filter (· ≠ x) })
  | none =>
    match s.registerSlices x.index with
    | some (y, realAddr) =>
      if y ≠ x then (.invalidParam, s)
      else (.ok, { s with
        mappings := if isHbm realAddr then s.mappings else s.mappings.unmap .register realAddr
        registerSlices := update s.registerSlices x.index none
        registered := s.registered.filter (· ≠ x) })
    | none => (.invalidParam, s)

end Segment

inductive SegmentStep
  | allocLocalMemory (size : ℕ) (ans : AllocAnswers)
  | registerMemory (addr size : ℕ) (output : Option ℕ)
  | releaseSliceMemory (pastEnd : Bool) (x : Slice)

def segmentSystem (o : Options) : TransitionSystem Segment SegmentStep where
  start := .start
  next s
    | .allocLocalMemory size ans => some (s.allocLocalMemory o size ans).2
    | .registerMemory addr size output => some (s.registerMemory addr size output).2
    | .releaseSliceMemory pastEnd x => some (s.releaseSliceMemory pastEnd x).2

/-! ### The property -/

def Segment.live (s : Segment) : List Slice := s.allocated ++ s.registered

/-- The live slices have their mappings and their entries, and a mapping was taken down exactly
once if its slice is not live, and not yet if it is. -/
structure Intact (o : Options) (s : Segment) : Prop where
  mapped : ∀ x ∈ s.allocated, x.size ≠ 0 →
    s.mappings.current .map x.vAddress = some ⟨x.id, x.size, 0⟩
  entered : ∀ x ∈ s.allocated, x.size ≠ 0 →
    s.va.manager.allocatedLookupMapByGva.lookup x.vAddress = some (o.info x)
  registered : ∀ x ∈ s.registered, ∃ addr, s.registerSlices x.index = some (x, addr) ∧
    (isHbm addr = false → s.mappings.current .register addr = some ⟨x.id, x.size, 0⟩)
  once : ∀ mapping, s.mappings.Made mapping →
    mapping.unmaps = if ∃ x ∈ s.live, x.id = mapping.slice then 0 else 1

/-- A live slice can be released; this removes the slice, and leaves the other ones intact. -/
def Releasable (o : Options) (ok : Segment → SegmentStep → Prop) (s : Segment) : Prop :=
  ∀ pastEnd, ∀ x ∈ s.live, ok s (.releaseSliceMemory pastEnd x) →
    (s.releaseSliceMemory pastEnd x).1 = .ok ∧
      (s.releaseSliceMemory pastEnd x).2.live = s.live.filter (· ≠ x) ∧
      Intact o (s.releaseSliceMemory pastEnd x).2

def Segment.IndexFree (s : Segment) : Prop :=
  s.slices s.sliceCount = none ∧ s.registerSlices s.sliceCount = none

instance (s : Segment) : Decidable s.IndexFree := by
  unfold Segment.IndexFree
  infer_instance

/-- The index of a new slice is free; an allocation does not wrap around, and gets access; what is
registered is not so already; nothing was mapped at the address of a released empty slice. -/
def Orderly (o : Options) (s : Segment) : SegmentStep → Prop
  | .allocLocalMemory size ans => s.IndexFree ∧ size + s.allocatedSize < 2 ^ 64 ∧
      (o.segType = .dram → o.shared = true → ans.access = true)
  | .registerMemory addr _ _ => s.IndexFree ∧ (isHbm addr = false →
      ∀ x ∈ s.registered, (s.registerSlices x.index).map Prod.snd ≠ some addr)
  | .releaseSliceMemory _ x => s.slices x.index = some x → x.size = 0 →
      s.mappings.current .map x.vAddress = none

instance (o : Options) (s : Segment) (a : SegmentStep) : Decidable (Orderly o s a) := by
  unfold Orderly
  split <;> infer_instance

/-! ### Mappings -/

namespace Mappings

variable {ms : Mappings} {kind kind' : MapKind} {addr addr' : ℕ} {mapping found : Mapping}

theorem set_self {mapping : Option Mapping} : ms.set kind addr mapping kind addr = mapping := by
  rw [set, update_self, update_self]

theorem set_of_ne {mapping : Option Mapping} (h : ¬ (kind' = kind ∧ addr' = addr)) :
    ms.set kind addr mapping kind' addr' = ms.current kind' addr' := by
  rw [set]
  by_cases hkind : kind' = kind
  · subst hkind
    rw [update_self, update_of_ne fun heq => h ⟨rfl, heq⟩]
  · rw [update_of_ne hkind]

theorem set_eq_some {mapping : Option Mapping}
    (h : ms.set kind addr mapping kind' addr' = some found) :
    (kind' = kind ∧ addr' = addr ∧ mapping = some found) ∨
      (¬ (kind' = kind ∧ addr' = addr) ∧ ms.current kind' addr' = some found) := by
  by_cases heq : kind' = kind ∧ addr' = addr
  · obtain ⟨rfl, rfl⟩ := heq
    exact .inl ⟨rfl, rfl, set_self.symm.trans h⟩
  · exact .inr ⟨heq, (set_of_ne heq).symm.trans h⟩

theorem map_self : (ms.map kind addr mapping).current kind addr = some mapping :=
  set_self

theorem map_of_ne (h : ¬ (kind' = kind ∧ addr' = addr)) :
    (ms.map kind addr mapping).current kind' addr' = ms.current kind' addr' :=
  set_of_ne h

theorem unmap_of_ne (h : ¬ (kind' = kind ∧ addr' = addr)) :
    (ms.unmap kind addr).current kind' addr' = ms.current kind' addr' :=
  set_of_ne h

theorem map_eq_some (h : (ms.map kind addr mapping).current kind' addr' = some found) :
    (kind' = kind ∧ addr' = addr ∧ found = mapping) ∨
      (¬ (kind' = kind ∧ addr' = addr) ∧ ms.current kind' addr' = some found) := by
  rcases set_eq_some h with ⟨hkind, haddr, heq⟩ | hother
  · exact .inl ⟨hkind, haddr, (some.inj heq).symm⟩
  · exact .inr hother

theorem unmap_self (h : ms.current kind addr = some mapping) :
    (ms.unmap kind addr).current kind addr =
      some ⟨mapping.slice, mapping.size, mapping.unmaps + 1⟩ := by
  show ms.set kind addr _ kind addr = _
  rw [set_self, h]
  rfl

theorem unmap_eq_some (hcur : ms.current kind addr = some mapping)
    (h : (ms.unmap kind addr).current kind' addr' = some found) :
    (kind' = kind ∧ addr' = addr ∧ found = ⟨mapping.slice, mapping.size, mapping.unmaps + 1⟩) ∨
      (¬ (kind' = kind ∧ addr' = addr) ∧ ms.current kind' addr' = some found) := by
  rcases set_eq_some h with ⟨hkind, haddr, -⟩ | hother
  · subst hkind haddr
    exact .inl ⟨rfl, rfl, (some.inj ((unmap_self hcur).symm.trans h)).symm⟩
  · exact .inr hother

theorem unmap_of_none (h : ms.current kind addr = .none) : ms.unmap kind addr = ms := by
  rw [unmap, h, map_none]
  cases ms with
  | mk current past =>
    congr 1
    funext k a
    by_cases heq : k = kind ∧ a = addr
    · obtain ⟨rfl, rfl⟩ := heq
      exact set_self.trans h.symm
    · exact set_of_ne heq

end Mappings

theorem update_none_eq_some {α : Type} {f : ℕ → Option α} {i j : ℕ} {a : α}
    (h : update f i none j = some a) : j ≠ i ∧ f j = some a := by
  simpa using OrderedMap.update_eq_some_iff.mp h

variable {o : Options} {s t : Segment} {x y : Slice}

/-! ### The invariant -/

/-- What lies behind: the slices keep within what has been allocated, and every mapping belongs to
one slice, at one place. -/
structure Inv (o : Options) (s : Segment) : Prop where
  size : s.allocatedSize ≤ o.maxSize
  indexed : s.va.Indexed
  entries : ∀ r, r ∈ s.va.live ↔ ∃ x ∈ s.allocated, x.size ≠ 0 ∧ r = o.info x
  listed : ∀ x ∈ s.allocated, s.slices x.index = some x
  slices : ∀ {i x}, s.slices i = some x → x.index = i ∧ x.id < s.created ∧
    x.vAddress + x.size ≤ o.localVirtualBase + s.allocatedSize ∧
    (x ∈ s.allocated ∨ x.size = 0 ∨ s.mappings.current .map x.vAddress = none)
  registered : ∀ x ∈ s.registered, ∃ addr, s.registerSlices x.index = some (x, addr)
  registerSlices : ∀ {i x addr}, s.registerSlices i = some (x, addr) → x.index = i ∧
    x.id < s.created ∧ x ∈ s.registered ∧ s.slices i = none ∧
    (isHbm addr = false → s.mappings.current .register addr = some ⟨x.id, x.size, 0⟩)
  mapped : ∀ x ∈ s.allocated, x.size ≠ 0 →
    s.mappings.current .map x.vAddress = some ⟨x.id, x.size, 0⟩
  frontier : ∀ {a mapping}, s.mappings.current .map a = some mapping → 0 < a ∧
    a + mapping.size ≤ o.localVirtualBase + s.allocatedSize ∧ 0 < mapping.size
  made : ∀ {mapping}, s.mappings.Made mapping → mapping.slice < s.created ∧
    mapping.unmaps = if ∃ x ∈ s.live, x.id = mapping.slice then 0 else 1
  past : ∀ mapping ∈ s.mappings.past, ∀ x ∈ s.live, x.id ≠ mapping.slice
  place : ∀ {kind a mapping x}, s.mappings.current kind a = some mapping → x ∈ s.live →
    x.id = mapping.slice → (kind = .map ∧ x ∈ s.allocated ∧ a = x.vAddress ∧ x.size ≠ 0) ∨
      (kind = .register ∧ s.registerSlices x.index = some (x, a) ∧ isHbm a = false)
  ids : ∀ {x y}, x ∈ s.live → y ∈ s.live → x.id = y.id → x = y

theorem inv_start : Inv o .start where
  size := zero_le _
  indexed := .of_exclusive .start
  entries := by simp [Segment.start]
  listed := nofun
  slices h := nomatch h
  registered := nofun
  registerSlices h := nomatch h
  mapped := nofun
  frontier h := nomatch h
  made h := by
    rcases h with h | ⟨kind, a, h⟩
    · nomatch h
    · nomatch h
  past := nofun
  place h := nomatch h
  ids h := nomatch h

namespace Inv

theorem lookup (h : Inv o s) (hx : x ∈ s.allocated) (hsize : x.size ≠ 0) :
    s.va.manager.allocatedLookupMapByGva.lookup x.vAddress = some (o.info x) :=
  (h.indexed.byGva _ _).mpr ⟨(h.entries _).mpr ⟨x, hx, hsize, rfl⟩, rfl⟩

theorem intact (h : Inv o s) : Intact o s where
  mapped := h.mapped
  entered := fun _ hx hsize => h.lookup hx hsize
  registered := by
    intro x hx
    obtain ⟨addr, haddr⟩ := h.registered x hx
    obtain ⟨-, -, -, -, hmapped⟩ := h.registerSlices haddr
    exact ⟨addr, haddr, hmapped⟩
  once := fun _ hmade => (h.made hmade).2

theorem id_lt (h : Inv o s) (hx : x ∈ s.live) : x.id < s.created := by
  rcases mem_append.mp hx with hx | hx
  · exact (h.slices (h.listed x hx)).2.1
  · obtain ⟨addr, haddr⟩ := h.registered x hx
    exact (h.registerSlices haddr).2.1

theorem next_free (h : Inv o s) :
    s.mappings.current .map (o.localVirtualBase + s.allocatedSize) = none := by
  cases hcur : s.mappings.current .map (o.localVirtualBase + s.allocatedSize) with
  | none => rfl
  | some mapping =>
    obtain ⟨-, hle, hpos⟩ := h.frontier hcur
    omega

section

variable (h : Inv o s) (hx : x ∈ s.allocated) (hy : y ∈ s.allocated) (hsize : x.size ≠ 0)
  (hsize' : y.size ≠ 0)
include h hx hy hsize hsize'

theorem eq_of_vAddress (heq : x.vAddress = y.vAddress) : x = y := by
  have hmapped := h.mapped x hx hsize
  rw [heq, h.mapped y hy hsize', some_inj] at hmapped
  have hid : y.id = x.id := congrArg Mapping.slice hmapped
  exact h.ids (mem_append_left _ hx) (mem_append_left _ hy) hid.symm

theorem info_eq_iff : o.info x = o.info y ↔ x = y := by
  constructor
  · intro heq
    exact h.eq_of_vAddress hx hy hsize hsize' (congrArg (·.base.gva) heq)
  · rintro rfl
    rfl

end

/-! ### New slices -/

variable {size i addr a : ℕ} {mapping : Mapping} {ans : AllocAnswers} {ms : Mappings} {va : VaState}

theorem emplaceSlice_self (hfree : s.IndexFree) :
    (s.emplaceSlice o size).slices s.sliceCount = some (s.nextSlice o size) := by
  rw [Segment.emplaceSlice, hfree.1]
  exact update_self ..

theorem emplaceSlice_of_ne (hfree : s.IndexFree) (hi : i ≠ s.sliceCount) :
    (s.emplaceSlice o size).slices i = s.slices i := by
  rw [Segment.emplaceSlice, hfree.1]
  exact update_of_ne hi _ _

theorem emplace (h : Inv o s) (hfree : s.IndexFree) (hsize : s.allocatedSize + size ≤ o.maxSize) :
    Inv o { s.emplaceSlice o size with allocatedSize := s.allocatedSize + size } := by
  have hold : ∀ {i}, i ≠ s.sliceCount → (s.emplaceSlice o size).slices i = s.slices i :=
    fun hi => emplaceSlice_of_ne hfree hi
  refine ⟨hsize, h.indexed, h.entries, ?_, ?_, h.registered, ?_, h.mapped, ?_, ?_, h.past,
    h.place, h.ids⟩
  · intro y hy
    have hy := h.listed y hy
    refine (hold fun heq => ?_).trans hy
    rw [heq, hfree.1] at hy
    cases hy
  · intro i y hi
    by_cases heq : i = s.sliceCount
    · subst heq
      obtain rfl := some.inj ((emplaceSlice_self hfree).symm.trans hi)
      refine ⟨rfl, lt_succ_self _, ?_, .inr (.inr h.next_free)⟩
      show o.localVirtualBase + s.allocatedSize + size ≤ _
      exact (add_assoc _ _ _).le
    obtain ⟨hindex, hid, hle, hmapped⟩ := h.slices ((hold heq).symm.trans hi)
    refine ⟨hindex, lt_succ_of_lt hid, ?_, hmapped⟩
    show _ ≤ o.localVirtualBase + (s.allocatedSize + size)
    omega
  · intro i y addr hi
    obtain ⟨hindex, hid, hmem, hnone, hmapped⟩ := h.registerSlices hi
    refine ⟨hindex, lt_succ_of_lt hid, hmem, (hold fun heq => ?_).trans hnone, hmapped⟩
    have hi : s.registerSlices i = some (y, addr) := hi
    rw [heq, hfree.2] at hi
    cases hi
  · intro a mapping ha
    obtain ⟨hpos, hle, hmem⟩ := h.frontier ha
    refine ⟨hpos, ?_, hmem⟩
    show _ ≤ o.localVirtualBase + (s.allocatedSize + size)
    omega
  · intro mapping hmade
    obtain ⟨hlt, hunmaps⟩ := h.made hmade
    exact ⟨lt_succ_of_lt hlt, hunmaps⟩

/-- The slice is newer than all live ones and than all mappings. -/
structure Fresh (s : Segment) (x : Slice) : Prop where
  live : ∀ y ∈ s.live, y.id < x.id
  made : ∀ mapping, s.mappings.Made mapping → mapping.slice < x.id

theorem fresh (h : Inv o s) (hx : x.id = s.created) : Fresh s x where
  live _ hy := hx ▸ h.id_lt hy
  made _ hmade := hx ▸ (h.made hmade).1

theorem mem_live_allocated :
    y ∈ Segment.live { s with allocated := s.allocated ++ [x] } ↔ y ∈ s.live ∨ y = x := by
  simp only [Segment.live, mem_append, mem_singleton]
  tauto

theorem mem_live_registered :
    y ∈ Segment.live { s with registered := s.registered ++ [x] } ↔ y ∈ s.live ∨ y = x := by
  simp only [Segment.live, mem_append, mem_singleton]
  tauto

theorem unmaps_of_fresh (hlive : ∀ {y}, y ∈ t.live ↔ y ∈ s.live ∨ y = x)
    (hlt : mapping.slice < x.id)
    (h : mapping.unmaps = if ∃ y ∈ s.live, y.id = mapping.slice then 0 else 1) :
    mapping.unmaps = if ∃ y ∈ t.live, y.id = mapping.slice then 0 else 1 := by
  rw [h]
  refine if_congr ⟨?_, ?_⟩ rfl rfl
  · rintro ⟨y, hy, hid⟩
    exact ⟨y, hlive.mpr (.inl hy), hid⟩
  rintro ⟨y, hy, hid⟩
  rcases hlive.mp hy with hy | rfl
  · exact ⟨y, hy, hid⟩
  · omega

theorem ids_concat (h : Inv o s) (hlive : ∀ {y}, y ∈ t.live ↔ y ∈ s.live ∨ y = x)
    (hfresh : Fresh s x) (hy : y ∈ t.live) {z : Slice} (hz : z ∈ t.live) (heq : y.id = z.id) :
    y = z := by
  rcases hlive.mp hy with hold | hnew
  · rcases hlive.mp hz with hold' | rfl
    · exact h.ids hold hold' heq
    · exact absurd heq (hfresh.live y hold).ne
  rw [hnew] at heq ⊢
  rcases hlive.mp hz with hold' | hnew'
  · exact absurd heq.symm (hfresh.live z hold').ne
  · exact hnew'.symm

theorem addEmpty (h : Inv o s) (hx : s.slices x.index = some x) (hsize : x.size = 0)
    (hfresh : Fresh s x) : Inv o { s with allocated := s.allocated ++ [x] } where
  size := h.size
  indexed := h.indexed
  entries r := by
    rw [h.entries]
    constructor
    · rintro ⟨y, hy, hr⟩
      exact ⟨y, mem_append_left _ hy, hr⟩
    rintro ⟨y, hy, hne, hr⟩
    rcases mem_append.mp hy with hy | hy
    · exact ⟨y, hy, hne, hr⟩
    · rw [mem_singleton.mp hy] at hne
      exact absurd hsize hne
  listed y hy := by
    rcases mem_append.mp hy with hy | hy
    · exact h.listed y hy
    · rw [mem_singleton.mp hy]
      exact hx
  slices hi := by
    obtain ⟨hindex, hid, hle, hmapped⟩ := h.slices hi
    exact ⟨hindex, hid, hle, hmapped.imp_left (mem_append_left _)⟩
  registered := h.registered
  registerSlices := h.registerSlices
  mapped y hy hne := by
    rcases mem_append.mp hy with hy | hy
    · exact h.mapped y hy hne
    · rw [mem_singleton.mp hy] at hne
      exact absurd hsize hne
  frontier := h.frontier
  made hmade := by
    obtain ⟨hlt, hunmaps⟩ := h.made hmade
    exact ⟨hlt, unmaps_of_fresh mem_live_allocated (hfresh.made _ hmade) hunmaps⟩
  past mapping hmap y hy := by
    rcases mem_live_allocated.mp hy with hy | rfl
    · exact h.past mapping hmap y hy
    · exact (hfresh.made mapping (.inl hmap)).ne'
  place hcur hy hid := by
    rcases mem_live_allocated.mp hy with hy | rfl
    · rcases h.place hcur hy hid with ⟨hkind, hmem, hplace⟩ | hplace
      · exact .inl ⟨hkind, mem_append_left _ hmem, hplace⟩
      · exact .inr hplace
    · exact absurd hid (hfresh.made _ (.inr ⟨_, _, hcur⟩)).ne'
  ids hy hz := h.ids_concat mem_live_allocated hfresh hy hz

/-- What is known of a slice that memory is to be mapped for: nothing was mapped at its address, and
the other slices are below. -/
structure Unmapped (o : Options) (s : Segment) (x : Slice) : Prop where
  listed : s.slices x.index = some x
  free : s.mappings.current .map x.vAddress = none
  below : ∀ {i y}, s.slices i = some y → y ≠ x → y.vAddress + y.size ≤ x.vAddress
  above : x.vAddress + x.size ≤ o.localVirtualBase + s.allocatedSize
  pos : 0 < x.vAddress
  size : x.size ≠ 0

theorem fits (h : Inv o s) (hx : Unmapped o s x) : x.vAddress + x.size < 2 ^ 64 := by
  have hsize := h.size
  have habove := hx.above
  have hfits := o.fits
  rw [Options.localVirtualBase] at habove
  omega

theorem current_of_below (hx : Unmapped o s x) (hi : s.slices i = some y) (hne : y ≠ x)
    (hsize : y.size ≠ 0) :
    (s.mappings.map .map x.vAddress mapping).current .map y.vAddress =
      s.mappings.current .map y.vAddress := by
  have hbelow := hx.below hi hne
  exact Mappings.map_of_ne fun heq => by omega

section

variable (h : Inv o s)
include h

theorem vAddress_ne (hx : Unmapped o s x) (hy : y ∈ s.allocated) (hsize : y.size ≠ 0) :
    y.vAddress ≠ x.vAddress := by
  intro heq
  have hmapped := h.mapped y hy hsize
  rw [heq, hx.free] at hmapped
  cases hmapped

theorem exclusive (hx : Unmapped o s x) : Exclusive s.va.live (o.info x) := by
  refine ⟨hx.size, fun r hr => .inr ?_⟩
  obtain ⟨y, hy, hsize, rfl⟩ := (h.entries r).mp hr
  have hne := h.vAddress_ne hx hy hsize
  refine ⟨fun htype => absurd rfl htype, fun _ => hne, ?_⟩
  simp [AllocatedGvaInfo.same, Options.info, AddCall.info, hne]

/-- The live regions are those of the slices below, so the manager does not refuse this one. -/
theorem add_ok (hx : Unmapped o s x) : (s.va.manager.addVaInfo (o.info x)).1 = .ok := by
  have hbutt : o.memType ≠ .butt := by
    rw [Options.memType]
    split
    · nofun
    · nofun
  have hdisj : ∀ r ∈ s.va.live, r.DisjointFrom (o.info x) := by
    intro r hr
    obtain ⟨y, hy, hsize, rfl⟩ := (h.entries r).mp hr
    refine .inl (hx.below (h.listed y hy) ?_)
    rintro rfl
    exact h.vAddress_ne hx hy hsize rfl
  have hnone := h.indexed.checkOverlap_none (pos_of_ne_zero hx.size) (h.fits hx) hdisj
  rw [VaManager.addVaInfo_of_none hx.pos.ne' hx.size hbutt hnone]

theorem add_live (hx : Unmapped o s x) :
    (s.va.add (o.info x)).live = s.va.live ++ [o.info x] := by
  refine if_pos ⟨h.add_ok hx, fun r hr heq => ?_⟩
  obtain ⟨y, hy, hsize, rfl⟩ := (h.entries r).mp hr
  exact h.vAddress_ne hx hy hsize (congrArg BaseAllocatedGvaInfo.gva heq)

theorem addMapped (hx : Unmapped o s x) (hfresh : Fresh s x) (hid : x.id < s.created) :
    Inv o { s with
      mappings := s.mappings.map .map x.vAddress ⟨x.id, x.size, 0⟩
      va := s.va.add (o.info x)
      allocated := s.allocated ++ [x] } := by
  have hpast : (s.mappings.map .map x.vAddress ⟨x.id, x.size, 0⟩).past = s.mappings.past := by
    rw [Mappings.map, hx.free]
    rfl
  have hcur : ∀ {kind a mapping},
      (s.mappings.map .map x.vAddress ⟨x.id, x.size, 0⟩).current kind a = some mapping →
        (kind = .map ∧ a = x.vAddress ∧ mapping = ⟨x.id, x.size, 0⟩) ∨
          s.mappings.current kind a = some mapping :=
    fun ha => (Mappings.map_eq_some ha).imp_right And.right
  refine ⟨h.size, h.indexed.add (h.fits hx) fun _ => h.exclusive hx, ?_, ?_, ?_, h.registered,
    ?_, ?_, ?_, ?_, ?_, ?_, fun hy hz => h.ids_concat mem_live_allocated hfresh hy hz⟩
  · intro r
    show r ∈ (s.va.add (o.info x)).live ↔ _
    rw [h.add_live hx, mem_append, mem_singleton, h.entries]
    constructor
    · rintro (⟨y, hy, hr⟩ | rfl)
      · exact ⟨y, mem_append_left _ hy, hr⟩
      · exact ⟨x, mem_append_right _ mem_cons_self, hx.size, rfl⟩
    rintro ⟨y, hy, hne, hr⟩
    rcases mem_append.mp hy with hy | hy
    · exact .inl ⟨y, hy, hne, hr⟩
    · exact .inr (mem_singleton.mp hy ▸ hr)
  · intro y hy
    rcases mem_append.mp hy with hy | hy
    · exact h.listed y hy
    · rw [mem_singleton.mp hy]
      exact hx.listed
  · intro i y hi
    obtain ⟨hindex, hid, hle, hmapped⟩ := h.slices hi
    refine ⟨hindex, hid, hle, ?_⟩
    by_cases heq : y = x
    · exact .inl (heq ▸ mem_append_right _ mem_cons_self)
    rcases hmapped with hmem | hsize | hnone
    · exact .inl (mem_append_left _ hmem)
    · exact .inr (.inl hsize)
    by_cases hsize : y.size = 0
    · exact .inr (.inl hsize)
    · exact .inr (.inr ((current_of_below hx hi heq hsize).trans hnone))
  · intro i y addr hi
    obtain ⟨hindex, hid, hmem, hnone, hmapped⟩ := h.registerSlices hi
    refine ⟨hindex, hid, hmem, hnone, fun hhost => ?_⟩
    exact (Mappings.map_of_ne (by simp)).trans (hmapped hhost)
  · intro y hy hsize
    rcases mem_append.mp hy with hy | hy
    · exact (Mappings.map_of_ne fun heq => h.vAddress_ne hx hy hsize heq.2).trans
        (h.mapped y hy hsize)
    · rw [mem_singleton.mp hy]
      exact Mappings.map_self
  · intro a mapping ha
    rcases hcur ha with ⟨-, rfl, rfl⟩ | ha
    · exact ⟨hx.pos, hx.above, pos_of_ne_zero hx.size⟩
    · exact h.frontier ha
  · intro mapping hmade
    have hcases : mapping = ⟨x.id, x.size, 0⟩ ∨ s.mappings.Made mapping := by
      rcases hmade with hmem | ⟨kind, a, ha⟩
      · exact .inr (.inl (hpast ▸ hmem))
      rcases hcur ha with ⟨-, -, rfl⟩ | ha
      · exact .inl rfl
      · exact .inr (.inr ⟨kind, a, ha⟩)
    rcases hcases with rfl | hmade
    · refine ⟨hid, ?_⟩
      rw [if_pos ⟨x, mem_live_allocated.mpr (.inr rfl), rfl⟩]
    · obtain ⟨hlt, hunmaps⟩ := h.made hmade
      exact ⟨hlt, unmaps_of_fresh mem_live_allocated (hfresh.made _ hmade) hunmaps⟩
  · intro mapping hmap y hy
    have hold : mapping ∈ s.mappings.past := hpast ▸ hmap
    rcases mem_live_allocated.mp hy with hy | hnew
    · exact h.past mapping hold y hy
    · rw [hnew]
      exact (hfresh.made mapping (.inl hold)).ne'
  intro kind a mapping y ha hy hid
  rcases hcur ha with ⟨rfl, rfl, rfl⟩ | ha
  · rcases mem_live_allocated.mp hy with hy | rfl
    · exact absurd hid (hfresh.live y hy).ne
    · exact .inl ⟨rfl, mem_append_right _ mem_cons_self, rfl, hx.size⟩
  rcases mem_live_allocated.mp hy with hy | hnew
  · rcases h.place ha hy hid with ⟨hkind, hmem, hplace⟩ | hplace
    · exact .inl ⟨hkind, mem_append_left _ hmem, hplace⟩
    · exact .inr hplace
  · rw [hnew] at hid
    exact absurd hid (hfresh.made _ (.inr ⟨_, _, ha⟩)).ne'

theorem unmapped_next (hfree : s.IndexFree) (hbase : o.globalVirtualAddress ≠ 0)
    (hsize : size ≠ 0) :
    Unmapped o { s.emplaceSlice o size with allocatedSize := s.allocatedSize + size }
      (s.nextSlice o size) where
  listed := emplaceSlice_self hfree
  free := h.next_free
  below {i y} hi hne := by
    have hindex : i ≠ s.sliceCount := by
      rintro rfl
      exact hne (some.inj (hi.symm.trans (emplaceSlice_self hfree)))
    exact (h.slices ((emplaceSlice_of_ne hfree hindex).symm.trans hi)).2.2.1
  above := (add_assoc _ _ _).le
  pos := by
    show 0 < o.globalVirtualAddress + o.maxSize * o.rankId + s.allocatedSize
    omega
  size := hsize

theorem mapSlice (hfree : s.IndexFree) (hbase : o.globalVirtualAddress ≠ 0)
    (hsize : size ≠ 0) (hmax : s.allocatedSize + size ≤ o.maxSize)
    (haccess : o.segType = .dram → o.shared = true → ans.access = true) :
    Inv o (s.mapSlice o size ans
      { s.emplaceSlice o size with allocatedSize := s.allocatedSize + size }).2 := by
  have hempl := h.emplace hfree hmax
  have hx := h.unmapped_next hfree hbase hsize
  have hfresh := @fresh o s (s.nextSlice o size) h rfl
  have hid : (s.nextSlice o size).id < s.created + 1 := lt_succ_self _
  rw [Segment.mapSlice]
  split
  · next href =>
    obtain ⟨hdram, hshared, href⟩ := href
    rw [haccess hdram hshared] at href
    cases href
  · split
    · next href => exact absurd (hempl.add_ok hx) href
    · exact hempl.addMapped hx ⟨hfresh.live, hfresh.made⟩ hid

theorem allocLocalMemory (hfree : s.IndexFree) (hwrap : size + s.allocatedSize < 2 ^ 64)
    (haccess : o.segType = .dram → o.shared = true → ans.access = true) :
    Inv o (s.allocLocalMemory o size ans).2 := by
  rw [Segment.allocLocalMemory, mod_eq_of_lt hwrap, add_comm s.allocatedSize size,
    mod_eq_of_lt hwrap, add_comm size]
  split
  · exact h
  next hvalid =>
  have hmax : s.allocatedSize + size ≤ o.maxSize := by omega
  have hempl := h.emplace hfree hmax
  split
  · exact h
  next hbase =>
  split
  · next hzero =>
    subst hzero
    have hfresh := @fresh o s (s.nextSlice o 0) h rfl
    rw [Segment.mallocEmptySlice]
    split
    · exact hempl
    · exact hempl.addEmpty (emplaceSlice_self hfree) rfl ⟨hfresh.live, hfresh.made⟩
  next hsize =>
  split
  · exact h
  split
  · exact h
  split
  · exact hempl
  split
  · exact hempl
  · exact h.mapSlice hfree hbase hsize hmax haccess

end

/-! ### Memory of the user -/

/-- What `RegisterMemory` does to the mappings: it makes one for memory of the host. -/
structure Registers (s : Segment) (x : Slice) (addr : ℕ) (ms : Mappings) : Prop where
  map : ∀ a, ms.current .map a = s.mappings.current .map a
  self : isHbm addr = false → ms.current .register addr = some ⟨x.id, x.size, 0⟩
  other : ∀ a, (isHbm addr = false → a ≠ addr) →
    ms.current .register a = s.mappings.current .register a
  made : ∀ mapping, ms.Made mapping →
    (isHbm addr = false ∧ mapping = ⟨x.id, x.size, 0⟩) ∨ s.mappings.Made mapping
  past : ∀ mapping ∈ ms.past, s.mappings.Made mapping ∧ ∀ y ∈ s.live, y.id ≠ mapping.slice

theorem registers_hbm (h : Inv o s) (haddr : isHbm addr = true) :
    Registers s x addr s.mappings where
  map _ := rfl
  self hhost := absurd hhost (by simp [haddr])
  other _ _ := rfl
  made _ hmade := .inr hmade
  past mapping hmap := ⟨.inl hmap, h.past mapping hmap⟩

theorem registers_host (h : Inv o s) (haddr : isHbm addr = false)
    (hfree : ∀ y ∈ s.registered, (s.registerSlices y.index).map Prod.snd ≠ some addr) :
    Registers s x addr (s.mappings.map .register addr ⟨x.id, x.size, 0⟩) where
  map _ := Mappings.map_of_ne (by simp)
  self _ := Mappings.map_self
  other a hne := Mappings.map_of_ne fun heq => hne haddr heq.2
  made mapping hmade := by
    rcases hmade with hmem | ⟨kind, a, ha⟩
    · rcases mem_append.mp hmem with hmem | hmem
      · exact .inr (.inr ⟨_, _, mem_toList.mp hmem⟩)
      · exact .inr (.inl hmem)
    · rcases Mappings.map_eq_some ha with ⟨-, -, heq⟩ | ⟨-, ha⟩
      · exact .inl ⟨haddr, heq⟩
      · exact .inr (.inr ⟨kind, a, ha⟩)
  past mapping hmap := by
    rcases mem_append.mp hmap with hmem | hmem
    · have hcur := mem_toList.mp hmem
      refine ⟨.inr ⟨_, _, hcur⟩, fun y hy hid => ?_⟩
      -- The slice of the mapping would be registered for this address.
      rcases h.place hcur hy hid with ⟨hkind, -⟩ | ⟨-, hplace, -⟩
      · cases hkind
      · obtain ⟨-, -, hregistered, -⟩ := h.registerSlices hplace
        exact hfree y hregistered (by rw [hplace]; rfl)
    · exact ⟨.inl hmem, h.past mapping hmem⟩

theorem emplaceRegistered (h : Inv o s) (hindex : s.IndexFree) {va : ℕ}
    (hms : Registers s ⟨s.created, s.sliceCount, va, size⟩ addr ms) (hfree : isHbm addr = false →
      ∀ y ∈ s.registered, (s.registerSlices y.index).map Prod.snd ≠ some addr) :
    Inv o (s.emplaceRegistered addr va size ms) := by
  set x : Slice := ⟨s.created, s.sliceCount, va, size⟩ with hx
  set t := s.emplaceRegistered addr va size ms with ht
  have hlive : ∀ {y}, y ∈ t.live ↔ y ∈ s.live ∨ y = x := mem_live_registered
  have hfresh : Fresh s x := h.fresh rfl
  have hself : t.registerSlices s.sliceCount = some (x, addr) := by
    rw [ht, Segment.emplaceRegistered, hindex.2]
    exact update_self ..
  have hother : ∀ {i}, i ≠ s.sliceCount → t.registerSlices i = s.registerSlices i := by
    intro i hi
    rw [ht, Segment.emplaceRegistered, hindex.2]
    exact update_of_ne hi _ _
  have hold : ∀ {i entry}, s.registerSlices i = some entry → t.registerSlices i = some entry := by
    intro i entry hi
    refine (hother fun heq => ?_).trans hi
    rw [heq, hindex.2] at hi
    cases hi
  refine ⟨h.size, h.indexed, h.entries, h.listed, ?_, ?_, ?_, ?_, ?_, ?_, ?_, ?_,
    fun hy hz => h.ids_concat hlive hfresh hy hz⟩
  · intro i y hi
    obtain ⟨hi, hid, hle, hmapped⟩ := h.slices hi
    exact ⟨hi, lt_succ_of_lt hid, hle,
      hmapped.imp_right (Or.imp_right fun hnone => (hms.map _).trans hnone)⟩
  · intro y hy
    rcases mem_append.mp hy with hy | hy
    · obtain ⟨addr', haddr'⟩ := h.registered y hy
      exact ⟨addr', hold haddr'⟩
    · rw [mem_singleton.mp hy]
      exact ⟨addr, hself⟩
  · intro i y addr' hi
    by_cases heq : i = s.sliceCount
    · subst heq
      obtain ⟨rfl, rfl⟩ := Prod.mk.inj (some.inj (hself.symm.trans hi))
      exact ⟨rfl, lt_succ_self _, mem_append_right _ mem_cons_self, hindex.1, hms.self⟩
    have hi := (hother heq).symm.trans hi
    obtain ⟨hyi, hid, hmem, hnone, hmapped⟩ := h.registerSlices hi
    refine ⟨hyi, lt_succ_of_lt hid, mem_append_left _ hmem, hnone, fun hhost => ?_⟩
    refine (hms.other _ fun hhost' heq => ?_).trans (hmapped hhost)
    refine hfree hhost' y hmem ?_
    rw [hyi, hi, heq]
    rfl
  · intro y hy hsize
    exact (hms.map _).trans (h.mapped y hy hsize)
  · intro a mapping ha
    exact h.frontier ((hms.map a).symm.trans ha)
  · intro mapping hmade
    rcases hms.made mapping hmade with ⟨-, rfl⟩ | hmade
    · refine ⟨lt_succ_self _, ?_⟩
      rw [if_pos ⟨x, hlive.mpr (.inr rfl), rfl⟩]
    · obtain ⟨hlt, hunmaps⟩ := h.made hmade
      exact ⟨lt_succ_of_lt hlt, unmaps_of_fresh hlive hlt hunmaps⟩
  · intro mapping hmap y hy
    obtain ⟨hmade, hnot⟩ := hms.past mapping hmap
    rcases hlive.mp hy with hy | rfl
    · exact hnot y hy
    · exact (hfresh.made mapping hmade).ne'
  intro kind a mapping y ha hy hid
  by_cases hnew : kind = .register ∧ isHbm addr = false ∧ a = addr
  · obtain ⟨rfl, hhost, rfl⟩ := hnew
    obtain rfl := some.inj ((hms.self hhost).symm.trans ha)
    obtain rfl : y = x := h.ids_concat hlive hfresh hy (hlive.mpr (.inr rfl)) hid
    exact .inr ⟨rfl, hself, hhost⟩
  have hcur : s.mappings.current kind a = some mapping := by
    cases kind with
    | map => exact (hms.map a).symm.trans ha
    | register =>
      exact (hms.other a fun hhost heq => hnew ⟨rfl, hhost, heq⟩).symm.trans ha
  rcases hlive.mp hy with hy | rfl
  · rcases h.place hcur hy hid with hplace | ⟨hkind, hplace, hhost⟩
    · exact .inl hplace
    · exact .inr ⟨hkind, hold hplace, hhost⟩
  · exact absurd hid (hfresh.made _ (.inr ⟨_, _, hcur⟩)).ne'

theorem registerMemory (h : Inv o s) (hindex : s.IndexFree) {output : Option ℕ}
    (hfree : isHbm addr = false →
      ∀ y ∈ s.registered, (s.registerSlices y.index).map Prod.snd ≠ some addr) :
    Inv o (s.registerMemory addr size output).2 := by
  unfold Segment.registerMemory
  split
  · next haddr => exact h.emplaceRegistered hindex (h.registers_hbm haddr) hfree
  next haddr =>
  have haddr : isHbm addr = false := by simpa using haddr
  split
  · exact h
  · exact h.emplaceRegistered hindex (h.registers_host haddr (hfree haddr)) hfree

/-! ### Released slices -/

def Known (s : Segment) (x : Slice) : Prop :=
  s.slices x.index = some x ∨ ∃ addr, s.registerSlices x.index = some (x, addr)

/-- What `ReleaseSliceMemory` does to the mappings: it takes down the one of the slice, if the slice
is live and has one. -/
structure Unmaps (s : Segment) (x : Slice) (ms : Mappings) : Prop where
  past : ms.past = s.mappings.past
  none : ∀ {kind a}, s.mappings.current kind a = none → ms.current kind a = none
  other : ∀ {kind a y}, y ∈ s.live → y ≠ x → s.mappings.current kind a = some ⟨y.id, y.size, 0⟩ →
      ms.current kind a = some ⟨y.id, y.size, 0⟩
  current : ∀ {kind a mapping}, ms.current kind a = some mapping →
    (x ∈ s.live ∧ mapping = ⟨x.id, x.size, 1⟩ ∧
      s.mappings.current kind a = some ⟨x.id, x.size, 0⟩) ∨
    (s.mappings.current kind a = some mapping ∧ (x ∈ s.live → x.id ≠ mapping.slice))

/-- The slice without its places in the maps and lists. -/
def drop (s : Segment) (x : Slice) (ms : Mappings) (va : VaState) : Segment :=
  { s with
    mappings := ms
    va := va
    slices := update s.slices x.index Option.none
    registerSlices := update s.registerSlices x.index Option.none
    allocated := s.allocated.filter (· ≠ x)
    registered := s.registered.filter (· ≠ x) }

theorem mem_filter_ne {l : List Slice} : y ∈ l.filter (· ≠ x) ↔ y ∈ l ∧ y ≠ x := by
  simp

theorem live_drop : (drop s x ms va).live = s.live.filter (· ≠ x) := by
  rw [Segment.live, Segment.live, filter_append]
  rfl

theorem index_ne_of_slices (h : Inv o s) (hx : Known s x) (hy : s.slices i = some y) (hne : y ≠ x) :
    i ≠ x.index := by
  rintro rfl
  rcases hx with hx | ⟨addr, hx⟩
  · exact hne (some.inj (hy.symm.trans hx))
  · obtain ⟨-, -, -, hnone, -⟩ := h.registerSlices hx
    exact nomatch hy.symm.trans hnone

theorem index_ne_of_registerSlices (h : Inv o s) (hx : Known s x)
    (hy : s.registerSlices i = some (y, addr)) (hne : y ≠ x) : i ≠ x.index := by
  rintro rfl
  rcases hx with hx | ⟨addr', hx⟩
  · obtain ⟨-, -, -, hnone, -⟩ := h.registerSlices hy
    exact nomatch hx.symm.trans hnone
  · exact hne (congrArg Prod.fst (some.inj (hy.symm.trans hx)))

theorem unmaps_of_drop (hne : ∀ y ∈ s.live, y.id = mapping.slice → y ≠ x)
    (h : mapping.unmaps = if ∃ y ∈ s.live, y.id = mapping.slice then 0 else 1) :
    mapping.unmaps = if ∃ y ∈ (drop s x ms va).live, y.id = mapping.slice then 0 else 1 := by
  rw [h, live_drop]
  refine if_congr ⟨?_, ?_⟩ rfl rfl
  · rintro ⟨y, hy, hid⟩
    exact ⟨y, mem_filter_ne.mpr ⟨hy, hne y hy hid⟩, hid⟩
  · rintro ⟨y, hy, hid⟩
    exact ⟨y, (mem_filter_ne.mp hy).1, hid⟩

theorem dropped (h : Inv o s) (hx : Known s x) (hms : Unmaps s x ms) (hidx : va.Indexed)
    (hents : ∀ r, r ∈ va.live ↔
      r ∈ s.va.live ∧ ¬ (x ∈ s.allocated ∧ x.size ≠ 0 ∧ r = o.info x)) :
    Inv o (drop s x ms va) := by
  have hlive : ∀ {y}, y ∈ (drop s x ms va).live ↔ y ∈ s.live ∧ y ≠ x := by
    intro y
    rw [live_drop, mem_filter_ne]
  have hslices : ∀ {i y}, s.slices i = some y → y ≠ x → (drop s x ms va).slices i = some y :=
    fun hi hne => (update_of_ne (h.index_ne_of_slices hx hi hne) _ _).trans hi
  have hreg : ∀ {i y addr}, s.registerSlices i = some (y, addr) → y ≠ x →
      (drop s x ms va).registerSlices i = some (y, addr) :=
    fun hi hne => (update_of_ne (h.index_ne_of_registerSlices hx hi hne) _ _).trans hi
  refine ⟨h.size, hidx, ?_, ?_, ?_, ?_, ?_, ?_, ?_, ?_, ?_, ?_, ?_⟩
  · intro r
    refine (hents r).trans ?_
    rw [h.entries]
    constructor
    · rintro ⟨⟨y, hy, hsize, rfl⟩, hnot⟩
      refine ⟨y, mem_filter_ne.mpr ⟨hy, ?_⟩, hsize, rfl⟩
      rintro rfl
      exact hnot ⟨hy, hsize, rfl⟩
    rintro ⟨y, hy, hsize, rfl⟩
    obtain ⟨hy, hne⟩ := mem_filter_ne.mp hy
    exact ⟨⟨y, hy, hsize, rfl⟩, fun ⟨hmem, hsize', heq⟩ =>
      hne ((h.info_eq_iff hy hmem hsize hsize').mp heq)⟩
  · intro y hy
    obtain ⟨hy, hne⟩ := mem_filter_ne.mp hy
    exact hslices (h.listed y hy) hne
  · intro i y hi
    obtain ⟨hindex, hi⟩ := update_none_eq_some hi
    obtain ⟨hyi, hid, hle, hmapped⟩ := h.slices hi
    refine ⟨hyi, hid, hle, ?_⟩
    rcases hmapped with hmem | hsize | hnone
    · refine .inl (mem_filter_ne.mpr ⟨hmem, ?_⟩)
      rintro rfl
      exact hindex hyi.symm
    · exact .inr (.inl hsize)
    · exact .inr (.inr (hms.none hnone))
  · intro y hy
    obtain ⟨hy, hne⟩ := mem_filter_ne.mp hy
    obtain ⟨addr, haddr⟩ := h.registered y hy
    exact ⟨addr, hreg haddr hne⟩
  · intro i y addr hi
    obtain ⟨hindex, hi⟩ := update_none_eq_some hi
    obtain ⟨hyi, hid, hmem, hnone, hmapped⟩ := h.registerSlices hi
    have hne : y ≠ x := by
      rintro rfl
      exact hindex hyi.symm
    exact ⟨hyi, hid, mem_filter_ne.mpr ⟨hmem, hne⟩, (update_of_ne hindex _ _).trans hnone,
      fun hhost => hms.other (mem_append_right _ hmem) hne (hmapped hhost)⟩
  · intro y hy hsize
    obtain ⟨hy, hne⟩ := mem_filter_ne.mp hy
    exact hms.other (mem_append_left _ hy) hne (h.mapped y hy hsize)
  · intro a mapping ha
    rcases hms.current ha with ⟨-, rfl, hold⟩ | ⟨hold, -⟩
    · exact @frontier _ _ h _ ⟨x.id, x.size, 0⟩ hold
    · exact h.frontier hold
  · rintro mapping (hmem | ⟨kind, a, ha⟩)
    · have hmem : mapping ∈ s.mappings.past := hms.past ▸ hmem
      obtain ⟨hlt, hunmaps⟩ := h.made (.inl hmem)
      exact ⟨hlt, unmaps_of_drop (fun y hy hid => absurd hid (h.past mapping hmem y hy)) hunmaps⟩
    rcases hms.current ha with ⟨hmem, rfl, hold⟩ | ⟨hold, hne⟩
    · refine ⟨h.id_lt hmem, (if_neg ?_).symm⟩
      rintro ⟨y, hy, hid⟩
      obtain ⟨hy, hne⟩ := hlive.mp hy
      exact hne (h.ids hy hmem hid)
    obtain ⟨hlt, hunmaps⟩ := h.made (.inr ⟨kind, a, hold⟩)
    refine ⟨hlt, unmaps_of_drop (fun y hy hid => ?_) hunmaps⟩
    rintro rfl
    exact hne hy hid
  · intro mapping hmap y hy
    exact h.past mapping (hms.past ▸ hmap) y (hlive.mp hy).1
  · intro kind a mapping y ha hy hid
    obtain ⟨hy, hne⟩ := hlive.mp hy
    rcases hms.current ha with ⟨hmem, rfl, -⟩ | ⟨hold, -⟩
    · exact absurd (h.ids hy hmem hid) hne
    rcases h.place hold hy hid with ⟨hkind, hmem, hplace⟩ | ⟨hkind, hplace, hhost⟩
    · exact .inl ⟨hkind, mem_filter_ne.mpr ⟨hmem, hne⟩, hplace⟩
    · exact .inr ⟨hkind, hreg hplace hne, hhost⟩
  · intro y z hy hz
    exact h.ids (hlive.mp hy).1 (hlive.mp hz).1

theorem place_unique (h : Inv o s) (hx : x ∈ s.live) {kind kind' : MapKind} {a' : ℕ}
    {mapping' : Mapping} (hcur : s.mappings.current kind a = some mapping)
    (hcur' : s.mappings.current kind' a' = some mapping') (hid : x.id = mapping.slice)
    (hid' : x.id = mapping'.slice) : kind = kind' ∧ a = a' := by
  rcases h.place hcur hx hid with ⟨rfl, hmem, rfl, -⟩ | ⟨rfl, hplace, -⟩ <;>
    rcases h.place hcur' hx hid' with ⟨rfl, hmem', rfl, -⟩ | ⟨rfl, hplace', -⟩
  · exact ⟨rfl, rfl⟩
  · obtain ⟨-, -, -, hnone, -⟩ := h.registerSlices hplace'
    exact nomatch (h.listed x hmem).symm.trans hnone
  · obtain ⟨-, -, -, hnone, -⟩ := h.registerSlices hplace
    exact nomatch (h.listed x hmem').symm.trans hnone
  · exact ⟨rfl, congrArg Prod.snd (some.inj (hplace.symm.trans hplace'))⟩

theorem unmaps_mapped (h : Inv o s) (hx : x ∈ s.live) {kind : MapKind}
    (hcur : s.mappings.current kind a = some ⟨x.id, x.size, 0⟩) :
    Unmaps s x (s.mappings.unmap kind a) where
  past := rfl
  none {kind' a'} hnone := by
    refine (Mappings.unmap_of_ne ?_).trans hnone
    rintro ⟨rfl, rfl⟩
    exact nomatch hcur.symm.trans hnone
  other {kind' a' y} hy hne hother := by
    refine (Mappings.unmap_of_ne ?_).trans hother
    rintro ⟨rfl, rfl⟩
    have hid : x.id = y.id :=
      congrArg Mapping.slice (some.inj (hcur.symm.trans hother))
    exact hne (h.ids hy hx hid.symm)
  current {kind' a' mapping} ha := by
    rcases Mappings.unmap_eq_some hcur ha with ⟨rfl, rfl, rfl⟩ | ⟨hne, hold⟩
    · exact .inl ⟨hx, rfl, hcur⟩
    · refine .inr ⟨hold, fun _ hid => hne ?_⟩
      exact h.place_unique hx hold hcur hid rfl

theorem unmaps_nothing (hnot : ∀ {kind a mapping}, s.mappings.current kind a = some mapping →
    x ∈ s.live → x.id ≠ mapping.slice) : Unmaps s x s.mappings where
  past := rfl
  none hnone := hnone
  other _ _ hother := hother
  current ha := .inr ⟨ha, hnot ha⟩

theorem remove_of_none (h : Inv o s) (hnone : s.mappings.current .map a = none) (pastEnd : Bool) :
    s.va.remove pastEnd a = s.va := by
  have hlva : ∀ r ∈ s.va.live, r.base.lva = r.base.gva := by
    intro r hr
    obtain ⟨y, -, -, rfl⟩ := (h.entries r).mp hr
    rfl
  have hlook : s.va.manager.allocatedLookupMapByGva.lookup a = none := by
    rw [eq_none_iff_forall_ne_some]
    intro r hr
    obtain ⟨hlive, rfl⟩ := (h.indexed.byGva _ _).mp hr
    obtain ⟨y, hy, hsize, rfl⟩ := (h.entries r).mp hlive
    exact nomatch (h.mapped y hy hsize).symm.trans hnone
  rw [VaState.remove, VaManager.removeOneVaInfo,
    h.indexed.findOneVaInfo_of_none pastEnd hlva hlook]

theorem mem_remove (h : Inv o s) (hx : x ∈ s.allocated) (hsize : x.size ≠ 0) (pastEnd : Bool)
    (r : AllocatedGvaInfo) : r ∈ (s.va.remove pastEnd x.vAddress).live ↔
      r ∈ s.va.live ∧ ¬ (x ∈ s.allocated ∧ x.size ≠ 0 ∧ r = o.info x) := by
  have hpos : x.vAddress ≠ 0 := (h.frontier (h.mapped x hx hsize)).1.ne'
  rw [VaState.remove, h.indexed.findOneVaInfo_of_lookup pastEnd hpos (h.lookup hx hsize)]
  simp [hx, hsize]

theorem not_registered (h : Inv o s) (hx : s.slices x.index = some x) :
    s.registerSlices x.index = none := by
  rw [eq_none_iff_forall_ne_some]
  rintro ⟨y, addr⟩ hy
  obtain ⟨-, -, -, hnone, -⟩ := h.registerSlices hy
  exact nomatch hx.symm.trans hnone

theorem release_slices (h : Inv o s) (hx : s.slices x.index = some x) (pastEnd : Bool) :
    s.releaseSliceMemory pastEnd x = (.ok,
      drop s x (s.mappings.unmap .map x.vAddress) (s.va.remove pastEnd x.vAddress)) := by
  have hreg := h.not_registered hx
  have hregistered : s.registered.filter (· ≠ x) = s.registered := by
    rw [filter_eq_self]
    intro y hy
    rw [decide_eq_true_iff]
    rintro rfl
    obtain ⟨addr, haddr⟩ := h.registered y hy
    exact nomatch hreg.symm.trans haddr
  simp only [Segment.releaseSliceMemory, hx, ne_eq, not_true_eq_false, if_false, drop]
  rw [hregistered, ← hreg, update_eq_self]

theorem release_registered (h : Inv o s) (hx : s.registerSlices x.index = some (x, addr))
    (pastEnd : Bool) : s.releaseSliceMemory pastEnd x = (.ok,
      drop s x (if isHbm addr then s.mappings else s.mappings.unmap .register addr) s.va) := by
  obtain ⟨-, -, -, hnone, -⟩ := h.registerSlices hx
  have hallocated : s.allocated.filter (· ≠ x) = s.allocated := by
    rw [filter_eq_self]
    intro y hy
    rw [decide_eq_true_iff]
    rintro rfl
    exact nomatch hnone.symm.trans (h.listed y hy)
  simp only [Segment.releaseSliceMemory, hx, hnone, ne_eq, not_true_eq_false, if_false, drop]
  rw [hallocated, ← hnone, update_eq_self]

theorem release_unknown (hx : ¬ Known s x) (pastEnd : Bool) :
    s.releaseSliceMemory pastEnd x = (.invalidParam, s) := by
  unfold Segment.releaseSliceMemory
  split
  · next y hy =>
    refine if_pos ?_
    rintro rfl
    exact hx (.inl hy)
  split
  · next y addr hy =>
    refine if_pos ?_
    rintro rfl
    exact hx (.inr ⟨addr, hy⟩)
  · rfl

theorem drop_slices (h : Inv o s) (hx : s.slices x.index = some x) (pastEnd : Bool)
    (hempty : x.size = 0 → s.mappings.current .map x.vAddress = none) :
    Inv o (drop s x (s.mappings.unmap .map x.vAddress) (s.va.remove pastEnd x.vAddress)) := by
  by_cases hmapped : x ∈ s.allocated ∧ x.size ≠ 0
  · obtain ⟨hmem, hsize⟩ := hmapped
    exact h.dropped (.inl hx) (h.unmaps_mapped (mem_append_left _ hmem) (h.mapped x hmem hsize))
      (h.indexed.remove pastEnd _) (h.mem_remove hmem hsize pastEnd)
  have hnone : s.mappings.current .map x.vAddress = none := by
    obtain ⟨-, -, -, hmem | hsize | hnone⟩ := h.slices hx
    · exact hempty (not_not.mp fun hsize => hmapped ⟨hmem, hsize⟩)
    · exact hempty hsize
    · exact hnone
  rw [Mappings.unmap_of_none hnone, h.remove_of_none hnone]
  refine h.dropped (.inl hx) (unmaps_nothing fun hcur hlive hid => ?_) h.indexed ?_
  · rcases h.place hcur hlive hid with ⟨rfl, -, rfl, -⟩ | ⟨-, hplace, -⟩
    · exact nomatch hcur.symm.trans hnone
    · exact nomatch (h.not_registered hx).symm.trans hplace
  · intro r
    exact ⟨fun hr => ⟨hr, fun hnot => hmapped ⟨hnot.1, hnot.2.1⟩⟩, And.left⟩

theorem drop_registered (h : Inv o s) (hx : s.registerSlices x.index = some (x, addr)) :
    Inv o (drop s x (if isHbm addr then s.mappings else s.mappings.unmap .register addr) s.va) := by
  obtain ⟨-, -, hmem, hnone, hmapped⟩ := h.registerSlices hx
  have hnot : x ∉ s.allocated := fun hmem => nomatch hnone.symm.trans (h.listed x hmem)
  have hms : Unmaps s x (if isHbm addr then s.mappings else s.mappings.unmap .register addr) := by
    split
    · next hhbm =>
      refine unmaps_nothing fun hcur hlive hid => ?_
      rcases h.place hcur hlive hid with ⟨-, hmem, -⟩ | ⟨-, hplace, hhost⟩
      · exact hnot hmem
      · obtain ⟨-, rfl⟩ := Prod.mk.inj (some.inj (hx.symm.trans hplace))
        exact nomatch hhbm.symm.trans hhost
    · next hhost =>
      exact h.unmaps_mapped (mem_append_right _ hmem) (hmapped (by simpa using hhost))
  refine h.dropped (.inr ⟨addr, hx⟩) hms h.indexed fun r => ?_
  exact ⟨fun hr => ⟨hr, fun hmem => hnot hmem.1⟩, And.left⟩

theorem releaseSliceMemory (h : Inv o s) {pastEnd : Bool}
    (hok : Orderly o s (.releaseSliceMemory pastEnd x)) :
    Inv o (s.releaseSliceMemory pastEnd x).2 := by
  by_cases hx : Known s x
  · rcases hx with hx | ⟨addr, hx⟩
    · rw [h.release_slices hx]
      exact h.drop_slices hx pastEnd (hok hx)
    · rw [h.release_registered hx]
      exact h.drop_registered hx
  · rw [release_unknown hx]
    exact h

theorem known (h : Inv o s) (hx : x ∈ s.live) : Known s x := by
  rcases mem_append.mp hx with hx | hx
  · exact .inl (h.listed x hx)
  · exact .inr (h.registered x hx)

theorem releasable (h : Inv o s) : Releasable o (Orderly o) s := by
  intro pastEnd x hx hok
  have hintact := (h.releaseSliceMemory hok).intact
  rcases h.known hx with hx | ⟨addr, hx⟩
  · rw [h.release_slices hx] at hintact ⊢
    exact ⟨rfl, live_drop, hintact⟩
  · rw [h.release_registered hx] at hintact ⊢
    exact ⟨rfl, live_drop, hintact⟩

end Inv

/-! ### Runs -/

theorem inv_next {a : SegmentStep} (h : Inv o s) (hok : Orderly o s a)
    (hnext : (segmentSystem o).next s a = some t) : Inv o t := by
  cases a with
  | allocLocalMemory size ans =>
    obtain ⟨hfree, hwrap, haccess⟩ := hok
    exact some.inj hnext ▸ h.allocLocalMemory hfree hwrap haccess
  | registerMemory addr size output =>
    obtain ⟨hindex, hfree⟩ := hok
    exact some.inj hnext ▸ h.registerMemory hindex hfree
  | releaseSliceMemory pastEnd x =>
    exact some.inj hnext ▸ h.releaseSliceMemory hok

/-- In every state of an orderly run the live slices have their mappings and entries, every other
mapping was taken down exactly once, and a live slice can be released, which removes it alone. -/
theorem intact_of_orderly (o : Options) (s : Segment)
    (h : (segmentSystem o).ReachableBy (Orderly o) s) :
    Intact o s ∧ Releasable o (Orderly o) s := by
  have hinv : Inv o s :=
    TransitionSystem.ReachableBy.invariant inv_start (fun h hok hnext => inv_next h hok hnext) h
  exact ⟨hinv.intact, hinv.releasable⟩

def smallOptions : Options where
  segType := .hbm
  maxSize := 8 * largePageSize
  rankId := 1
  shared := true
  globalVirtualAddress := 0x200000000000
  fits := by decide

def smallBase : ℕ := smallOptions.localVirtualBase

/-- The live slices, what is mapped at an address, and what is entered there. -/
def seen (addr : ℕ) (s : Segment) : List Slice × Option Mapping × Option AllocatedGvaInfo :=
  (s.live, s.mappings.current .map addr, s.va.manager.allocatedLookupMapByGva.lookup addr)

/-- An empty slice is released before the next slice, with two pages, is made; another page and
memory of the user follow, and the two pages are released. -/
def releaseSteps : List SegmentStep :=
  [.allocLocalMemory 0 {}, .releaseSliceMemory false ⟨0, 0, smallBase, 0⟩,
    .allocLocalMemory (2 * largePageSize) {}, .allocLocalMemory largePageSize {},
    .registerMemory 0x1000 64 (some 0x5000),
    .releaseSliceMemory false ⟨1, 1, smallBase, 2 * largePageSize⟩]

theorem intact_after_release : ∃ s,
    (segmentSystem smallOptions).ReachableBy (Orderly smallOptions) s ∧
    s.live = [⟨2, 2, smallBase + 2 * largePageSize, largePageSize⟩, ⟨3, 3, 0x5000, 64⟩] ∧
    s.mappings.current .map smallBase = some ⟨1, 2 * largePageSize, 1⟩ ∧
    Intact smallOptions s ∧ Releasable smallOptions (Orderly smallOptions) s := by
  refine TransitionSystem.exists_reachableBy releaseSteps (seen smallBase) ([⟨2, 2, smallBase + 2 *
    largePageSize, largePageSize⟩, ⟨3, 3, 0x5000, 64⟩], some ⟨1, 2 * largePageSize, 1⟩, none) ?_
    fun s hreach hseen => ?_
  · decide +kernel
  have hseen := Prod.mk.inj hseen
  exact ⟨hseen.1, (Prod.mk.inj hseen.2).1, intact_of_orderly smallOptions s hreach⟩

/-- An empty slice, and one with a page at the same address. -/
def emptySlice : Slice := ⟨0, 0, smallBase, 0⟩

def pageSlice : Slice := ⟨1, 1, smallBase, largePageSize⟩

/-- An empty slice that is released after the next one was allocated takes its mapping and its entry
away. -/
theorem empty_slice_unmaps_next : ∃ s, (segmentSystem smallOptions).Reachable s ∧
    s.live = [emptySlice, pageSlice] ∧
    let s' := (s.releaseSliceMemory false emptySlice).2
    s'.live = [pageSlice] ∧ s'.mappings.current .map smallBase = some ⟨1, largePageSize, 1⟩ ∧
      s'.va.manager.allocatedLookupMapByGva.lookup smallBase = none ∧
      ¬ Releasable smallOptions (fun _ _ => True) s := by
  refine TransitionSystem.exists_reachable [.allocLocalMemory 0 {}, .allocLocalMemory largePageSize
    {}] (fun s => (s.live, seen smallBase (s.releaseSliceMemory false emptySlice).2)) ([emptySlice,
    pageSlice], [pageSlice], some ⟨1, largePageSize, 1⟩, none) ?_ fun s _ hseen => ?_
  · decide +kernel
  obtain ⟨hlive, hseen⟩ := Prod.mk.inj hseen
  obtain ⟨hlive', hseen⟩ := Prod.mk.inj hseen
  obtain ⟨hcur, hlook⟩ := Prod.mk.inj hseen
  refine ⟨hlive, hlive', hcur, hlook, fun h => ?_⟩
  have hempty : emptySlice ∈ s.live := by simp [hlive]
  obtain ⟨-, -, hintact⟩ := h false emptySlice hempty trivial
  -- The page is live, but its mapping was taken down.
  have hmem : pageSlice ∈ (s.releaseSliceMemory false emptySlice).2.live := by simp [hlive']
  have hmade := hintact.once _ (.inr ⟨.map, smallBase, hcur⟩)
  rw [if_pos ⟨pageSlice, hmem, rfl⟩] at hmade
  exact absurd hmade one_ne_zero

end Hybm.Vmm
