/-
The shared memory of a segment of user memory.

`HybmDevUserLegacySegment` makes a name for each registered memory, under which other processes
open it, and opens the memory of other ranks by the names that it imports.  A name goes with
`ReleaseSliceMemory`, an opened address with the removal of its rank, and the destructor takes
all that is left.  An imported address is kept with its rank in the upper sixteen bits.
-/
import MemFabric.VaManager

namespace Hybm.User

open Function List OrderedMap Option

/-! ### Data -/

def maxDeviceCount : ℕ := 16

def invalidSuperPodId : ℕ := 0xFFFFFFFF

def asc910bConnRanks : ℕ := 8

inductive AscendSocType
  | unknown
  | ascend910B
  | ascend910C
  deriving DecidableEq

/-- The options of the segment and what is known of the device; `sdma` and `deviceRdma` are bits
of `dataOpType`. -/
structure Options where
  rankId : ℕ
  sdma : Bool
  deviceRdma : Bool
  socType : AscendSocType
  serverId : ℕ
  superPodId : ℕ
  deviceId : ℕ
  logicDeviceId : ℕ

/-- `HbmExportDeviceInfo`. -/
structure DeviceInfo where
  sdid : ℕ
  pid : ℕ
  serverId : ℕ
  superPodId : ℕ
  rankId : ℕ
  logicDeviceId : ℕ

/-- `HbmExportSliceInfo`. -/
structure SliceInfo where
  serverId : ℕ
  address : ℕ
  size : ℕ
  superPodId : ℕ
  rankId : ℕ
  logicDeviceId : ℕ
  name : String

def Options.canSdmaReaches (o : Options) (superPodId serverId deviceId : ℕ) : Bool :=
  if serverId = o.serverId then
    o.socType ≠ .ascend910B ∨ deviceId / asc910bConnRanks = o.deviceId / asc910bConnRanks
  else if superPodId = invalidSuperPodId ∨ o.superPodId = invalidSuperPodId then false
  else superPodId = o.superPodId

def Options.opens (o : Options) (info : SliceInfo) : Bool :=
  o.sdma && o.canSdmaReaches info.superPodId info.serverId info.logicDeviceId

def tagged (address rankId : ℕ) : ℕ := address ||| ((rankId + 1) <<< 48) % 2 ^ 64

/-- The address without its upper bits: `vAddress_ << 16 >> 16`. -/
def untagged (vAddress : ℕ) : ℕ := ((vAddress <<< 16) % 2 ^ 64) >>> 16

/-- `MemSlice`. -/
structure Slice where
  index : ℕ
  vAddress : ℕ
  size : ℕ
  deriving DecidableEq

structure RegisterSlice where
  slice : Slice
  name : String
  deriving DecidableEq

/-! ### What the driver is asked for -/

def bump {α : Type} [DecidableEq α] (counts : α → ℕ) (a : α) : α → ℕ :=
  update counts a (counts a + 1)

/-- How often a name was made and destroyed, and an address opened and closed. -/
structure Ipc where
  created : String → ℕ
  destroyed : String → ℕ
  opened : ℕ → ℕ
  closed : ℕ → ℕ

namespace Ipc

variable (ipc : Ipc)

def none : Ipc := ⟨fun _ => 0, fun _ => 0, fun _ => 0, fun _ => 0⟩

/-- `RtIpcSetMemoryName`. -/
def create (name : String) : Ipc :=
  { ipc with created := bump ipc.created name }

/-- `RtIpcDestroyMemoryName`. -/
def destroy (name : String) : Ipc :=
  { ipc with destroyed := bump ipc.destroyed name }

/-- `RtIpcOpenMemory`. -/
def openMemory (address : ℕ) : Ipc :=
  { ipc with opened := bump ipc.opened address }

/-- `RtIpcCloseMemory`. -/
def closeMemory (address : ℕ) : Ipc :=
  { ipc with closed := bump ipc.closed address }

end Ipc

/-! ### The segment -/

/-- The segment, with the manager of addresses that it shares with others. -/
structure Segment where
  sliceCount : ℕ
  enablePeerDevices : ℕ → Bool
  registerSlices : OrderedMap ℕ RegisterSlice
  remoteSlices : OrderedMap ℕ RegisterSlice
  rankToRemoteSlices : ℕ → List Slice
  importedDeviceInfo : OrderedMap ℕ DeviceInfo
  importedSliceInfo : String → Option SliceInfo
  registerAddrs : OrderedMap ℕ Unit
  memNames : List String
  va : VaManager
  ipc : Ipc

/-- What one import has done: its result, the segment, and the address for the caller. -/
structure Outcome where
  ret : Result
  segment : Segment
  address : ℕ

/-- What is imported: the text of a device or of a slice, one of the wrong length, or one with
another magic number. -/
inductive Info
  | device (info : DeviceInfo)
  | slice (info : SliceInfo)
  | unreadable
  | unknown

/-- What the driver answers to an import: whether `RtEnableP2P` succeeds, whether
`RtSetIpcMemorySuperPodPid` does for a name, and the address from `RtIpcOpenMemory`. -/
structure ImportAnswers where
  enabled : Bool := true
  pidSet : String → Bool := fun _ => true
  opened : Option ℕ := none

namespace Segment

def start (va : VaManager) : Segment where
  sliceCount := 0
  enablePeerDevices := fun _ => false
  registerSlices := .empty
  remoteSlices := .empty
  rankToRemoteSlices := fun _ => []
  importedDeviceInfo := .empty
  importedSliceInfo := fun _ => none
  registerAddrs := .empty
  memNames := []
  va := va
  ipc := .none

variable (o : Options) (s : Segment)

def addRegistered (addr size : ℕ) (name : String) : Segment :=
  { s with
    memNames := s.memNames ++ [name]
    sliceCount := (s.sliceCount + 1) % 2 ^ 16
    registerSlices := s.registerSlices.emplace s.sliceCount ⟨⟨s.sliceCount, addr, size⟩, name⟩
    ipc := s.ipc.create name }

/-- `RegisterMemory`; `name` is the answer of `RtIpcSetMemoryName`, and `pidSet` tells whether
`RtSetIpcMemorySuperPodPid` succeeds for a device. -/
def registerMemory (addr size : ℕ) (name : Option String) (pidSet : DeviceInfo → Bool) :
    Result × Segment :=
  if addr = 0 ∨ size = 0 then (.invalidParam, s)
  else
    match name with
    | none => (.dlFunctionFailed, s)
    | some name =>
      if s.importedDeviceInfo.entries.any fun remoteDev =>
          o.canSdmaReaches remoteDev.2.superPodId remoteDev.2.serverId remoteDev.2.logicDeviceId &&
            !pidSet remoteDev.2 then
        (.dlFunctionFailed, { s with ipc := (s.ipc.create name).destroy name })
      else (.ok, s.addRegistered addr size name)

/-- `ReleaseSliceMemory`; `destroyed` tells whether `RtIpcDestroyMemoryName` succeeds. -/
def releaseSliceMemory (index : ℕ) (destroyed : Bool) : Result × Segment :=
  match s.registerSlices.lookup index with
  | none => (.invalidParam, s)
  | some pos =>
    if !destroyed then (.dlFunctionFailed, s)
    else (.ok, { s with
      registerSlices := s.registerSlices.erase index
      ipc := s.ipc.destroy pos.name })

/-- Access to a device is enabled, unless it is the own one or was enabled before. -/
def enablePeer (device : ℕ) (enabled : Bool) : Option Segment :=
  if device ≠ o.logicDeviceId ∧ s.enablePeerDevices device = false then
    if enabled then
      some { s with enablePeerDevices := update s.enablePeerDevices device true }
    else none
  else some s

def importDeviceInfo (info : DeviceInfo) (ans : ImportAnswers) : Outcome :=
  if maxDeviceCount ≤ info.logicDeviceId then ⟨.error, s, 0⟩
  else
    match s.enablePeer o info.logicDeviceId ans.enabled with
    | none => ⟨.dlFunctionFailed, s, 0⟩
    | some s =>
      if s.registerSlices.entries.any fun it => !ans.pidSet it.2.name then
        ⟨.dlFunctionFailed, s, 0⟩
      else ⟨.ok, { s with
        importedDeviceInfo := s.importedDeviceInfo.emplace info.rankId info }, 0⟩

/-- The slice of an imported memory at an address that carries the rank. -/
def addRemote (info : SliceInfo) (vAddress : ℕ) : Segment :=
  let remoteSlice : Slice := ⟨s.sliceCount, vAddress, info.size⟩
  { s with
    registerAddrs := s.registerAddrs.insert vAddress ()
    sliceCount := (s.sliceCount + 1) % 2 ^ 16
    rankToRemoteSlices := update s.rankToRemoteSlices info.rankId
      (s.rankToRemoteSlices info.rankId ++ [remoteSlice])
    remoteSlices := s.remoteSlices.emplace s.sliceCount ⟨remoteSlice, info.name⟩
    importedSliceInfo :=
      if (s.importedSliceInfo info.name).isSome then s.importedSliceInfo
      else update s.importedSliceInfo info.name (some info)
    va := (s.va.addVaInfo (AddCall.info (.addVaInfoFromExternal
      ⟨vAddress, info.size, .device, 0⟩ o.rankId info.rankId))).2 }

/-- `ImportSliceInfo` from the check of the address on. -/
def recordSlice (info : SliceInfo) (address : ℕ) : Outcome :=
  if address = 0 then ⟨.error, s, 0⟩
  else
    ⟨(s.va.addVaInfo (AddCall.info (.addVaInfoFromExternal
      ⟨tagged address info.rankId, info.size, .device, 0⟩ o.rankId info.rankId))).1,
      s.addRemote o info (tagged address info.rankId), tagged address info.rankId⟩

def importSliceInfo (info : SliceInfo) (ans : ImportAnswers) : Outcome :=
  if maxDeviceCount ≤ info.logicDeviceId then ⟨.error, s, 0⟩
  else if o.opens info then
    match s.enablePeer o info.logicDeviceId ans.enabled with
    | none => ⟨.dlFunctionFailed, s, 0⟩
    | some s =>
      match ans.opened with
      | none => ⟨.dlFunctionFailed, s, 0⟩
      | some address => { s with ipc := s.ipc.openMemory address }.recordSlice o info address
  else if o.deviceRdma then s.recordSlice o info info.address
  else s.recordSlice o info 0

/-- One text of `Import`. -/
def importInfo (info : Info) (ans : ImportAnswers) : Outcome :=
  match info with
  | .device info => s.importDeviceInfo o info ans
  | .slice info => s.importSliceInfo o info ans
  | .unreadable => ⟨.error, s, 0⟩
  | .unknown => ⟨.invalidParam, s, 0⟩

def rollbackIpcMemory (addresses : List ℕ) : Segment :=
  { s with
    ipc := addresses.foldl
      (fun ipc address => if address ≠ 0 then ipc.closeMemory address else ipc) s.ipc }

/-- The loop of `Import`; `withAddresses` tells whether the caller asks for the addresses, and
`addresses` are those so far. -/
def importLoop (withAddresses : Bool) :
    List (Info × ImportAnswers) → List ℕ → Segment → Result × Segment
  | [], _, s => (.ok, s)
  | (info, ans) :: rest, addresses, s =>
    let out := s.importInfo o info ans
    if out.ret ≠ .ok then
      (out.ret, if withAddresses then out.segment.rollbackIpcMemory addresses else out.segment)
    else importLoop withAddresses rest (addresses ++ [out.address]) out.segment

/-- `Import`. -/
def importAll (withAddresses : Bool) (infos : List (Info × ImportAnswers)) : Result × Segment :=
  importLoop o withAddresses infos [] s

/-- One slice of `RemoveSliceInfo`; `pastEnd` is for `RemoveOneVaInfo`. -/
def removeSlice (pastEnd : Bool) (remoteSlice : Slice) : Segment :=
  let s := { s with
    registerAddrs := s.registerAddrs.erase remoteSlice.vAddress
    va := s.va.removeOneVaInfo pastEnd remoteSlice.vAddress }
  match s.remoteSlices.lookup remoteSlice.index with
  | none => s
  | some rIt =>
    match s.importedSliceInfo rIt.name with
    | none => { s with remoteSlices := s.remoteSlices.erase remoteSlice.index }
    | some info => { s with
        ipc := if o.opens info then s.ipc.closeMemory (untagged remoteSlice.vAddress) else s.ipc
        importedSliceInfo := update s.importedSliceInfo rIt.name none
        remoteSlices := s.remoteSlices.erase remoteSlice.index }

def removeSliceInfo (pastEnd : Bool) (rankId : ℕ) : Segment :=
  let s := (s.rankToRemoteSlices rankId).foldl (fun s x => s.removeSlice o pastEnd x) s
  { s with rankToRemoteSlices := update s.rankToRemoteSlices rankId [] }

/-- One rank of `RemoveImported`. -/
def removeRank (pastEnd : Bool) (rankId : ℕ) : Segment :=
  let s := { s with importedDeviceInfo := s.importedDeviceInfo.erase rankId }
  s.removeSliceInfo o pastEnd rankId

def removeImported (pastEnd : Bool) (ranks : List ℕ) : Segment :=
  ranks.foldl (fun s rankId => s.removeRank o pastEnd rankId) s

def closeMemory (pastEnd : Bool) : Segment :=
  { s with
    ipc := s.registerAddrs.entries.foldl (fun ipc addr => ipc.closeMemory addr.1) s.ipc
    va := s.registerAddrs.entries.foldl (fun va addr => va.removeOneVaInfo pastEnd addr.1) s.va
    registerAddrs := .empty }

def destruct (pastEnd : Bool) : Segment :=
  let s := { s with ipc := s.memNames.foldl Ipc.destroy s.ipc }.closeMemory pastEnd
  { start s.va with ipc := s.ipc }

end Segment

inductive SegmentStep
  | registerMemory (addr size : ℕ) (name : Option String) (pidSet : DeviceInfo → Bool)
  | releaseSliceMemory (index : ℕ) (destroyed : Bool)
  | importAll (withAddresses : Bool) (infos : List (Info × ImportAnswers))
  | removeImported (pastEnd : Bool) (ranks : List ℕ)
  | useManager (va : VaManager)
  | destruct (pastEnd : Bool)

/-- A segment, and whether its destructor has run. -/
structure Lifetime where
  segment : Segment
  gone : Bool

def Segment.after (o : Options) (s : Segment) : SegmentStep → Segment
  | .registerMemory addr size name pidSet => (s.registerMemory o addr size name pidSet).2
  | .releaseSliceMemory index destroyed => (s.releaseSliceMemory index destroyed).2
  | .importAll withAddresses infos => (s.importAll o withAddresses infos).2
  | .removeImported pastEnd ranks => s.removeImported o pastEnd ranks
  | .useManager va => { s with va := va }
  | .destruct pastEnd => s.destruct pastEnd

def SegmentStep.isDestruct : SegmentStep → Bool
  | .destruct _ => true
  | _ => false

/-- The steps of a segment, and of others that use the manager. -/
def segmentSystem (o : Options) : TransitionSystem Lifetime SegmentStep where
  start := ⟨.start .new, false⟩
  next s a := if s.gone then none else some ⟨s.segment.after o a, a.isDestruct⟩

/-! ### The property -/

def Segment.names (s : Segment) : List String := s.registerSlices.entries.map (·.2.name)

def openAddress (o : Options) (imported : String → Option SliceInfo) (x : RegisterSlice) :
    Option ℕ :=
  match imported x.name with
  | some info => if o.opens info then some (untagged x.slice.vAddress) else none
  | none => none

/-- The addresses that were opened for the slices that are imported. -/
def Segment.openAddresses (o : Options) (s : Segment) : List ℕ :=
  s.remoteSlices.entries.filterMap fun x => openAddress o s.importedSliceInfo x.2

/-- What was made and not destroyed is what the segment holds, and in the end nothing is left. -/
structure Paired (o : Options) (s : Lifetime) : Prop where
  names : ∀ name, s.segment.ipc.created name =
    s.segment.ipc.destroyed name + s.segment.names.count name
  addresses : ∀ a, s.segment.ipc.opened a =
    s.segment.ipc.closed a + (s.segment.openAddresses o).count a
  allDestroyed : s.gone = true → ∀ name, s.segment.ipc.destroyed name = s.segment.ipc.created name
  allClosed : s.gone = true → ∀ a, s.segment.ipc.closed a = s.segment.ipc.opened a

/-- The index of an imported slice is free, its name is not imported at the time, and its address
has room for the rank. -/
def InfoOrderly (o : Options) (s : Segment) (info : Info) (ans : ImportAnswers) : Prop :=
  match info with
  | .slice info => s.remoteSlices.lookup s.sliceCount = none ∧
      (s.importedSliceInfo info.name).isNone = true ∧
      (o.opens info = true → ∀ a ∈ ans.opened, a ≠ 0 ∧ a < 2 ^ 48)
  | _ => True

instance (o : Options) (s : Segment) (info : Info) (ans : ImportAnswers) :
    Decidable (InfoOrderly o s info ans) := by
  unfold InfoOrderly
  split <;> infer_instance

/-- All imports of a call are orderly, and none that has an address is rolled back. -/
def ImportOrderly (o : Options) (withAddresses : Bool) :
    List (Info × ImportAnswers) → List ℕ → Segment → Prop
  | [], _, _ => True
  | (info, ans) :: rest, addresses, s =>
    InfoOrderly o s info ans ∧
      if (s.importInfo o info ans).ret = .ok then
        ImportOrderly o withAddresses rest (addresses ++ [(s.importInfo o info ans).address])
          (s.importInfo o info ans).segment
      else withAddresses = true → ∀ a ∈ addresses, a = 0

instance ImportOrderly.decide (o : Options) (withAddresses : Bool) :
    ∀ (infos : List (Info × ImportAnswers)) (addresses : List ℕ) (s : Segment),
      Decidable (ImportOrderly o withAddresses infos addresses s)
  | [], _, _ => .isTrue trivial
  | (info, ans) :: rest, addresses, s =>
    have := ImportOrderly.decide o withAddresses rest
      (addresses ++ [(s.importInfo o info ans).address]) (s.importInfo o info ans).segment
    inferInstanceAs (Decidable (_ ∧ ite _ _ _))

/-- Indices are free and imports are orderly; at the end all names that were made are still
registered, and nothing is imported. -/
def Segment.Orderly (o : Options) (s : Segment) : SegmentStep → Prop
  | .registerMemory _ _ _ _ => s.registerSlices.lookup s.sliceCount = none
  | .importAll withAddresses infos => ImportOrderly o withAddresses infos [] s
  | .destruct _ => s.memNames.Perm s.names ∧ s.remoteSlices.entries.isEmpty = true
  | _ => True

instance (o : Options) (s : Segment) (a : SegmentStep) : Decidable (s.Orderly o a) := by
  unfold Segment.Orderly
  split <;> infer_instance

def Orderly (o : Options) (s : Lifetime) (a : SegmentStep) : Prop := s.segment.Orderly o a

instance (o : Options) (s : Lifetime) (a : SegmentStep) : Decidable (Orderly o s a) :=
  inferInstanceAs (Decidable (s.segment.Orderly o a))

/-! ### Addresses with a rank -/

variable {address : ℕ}

theorem tagged_eq (h : address < 2 ^ 48) (rankId : ℕ) :
    tagged address rankId = (rankId + 1) % 2 ^ 16 * 2 ^ 48 + address := by
  have hshift : ((rankId + 1) <<< 48) % 2 ^ 64 = ((rankId + 1) % 2 ^ 16) <<< 48 := by
    omega
  rw [tagged, hshift, Nat.or_comm, ← Nat.shiftLeft_add_eq_or_of_lt h, Nat.shiftLeft_eq]

theorem untagged_tagged (h : address < 2 ^ 48) (rankId : ℕ) :
    untagged (tagged address rankId) = address := by
  rw [untagged, tagged_eq h, Nat.shiftLeft_eq, Nat.shiftRight_eq_div_pow]
  omega

/-! ### Counts -/

theorem bump_apply {α : Type} [DecidableEq α] (counts : α → ℕ) (a b : α) :
    bump counts a b = counts b + if a = b then 1 else 0 := by
  by_cases h : a = b
  · subst h
    rw [if_pos rfl]
    exact update_self ..
  · rw [if_neg h]
    exact update_of_ne (Ne.symm h) _ _

theorem count_cons_eq {α : Type} [DecidableEq α] (a b : α) (l : List α) :
    (a :: l).count b = l.count b + if a = b then 1 else 0 := by
  simp [count_cons]

variable {o : Options} {s t : Segment} {info : SliceInfo} {lists : ℕ → List Slice}

/-! ### The invariant -/

/-- What lies behind: every imported slice has a name of its own, and is in the list of its rank
once; `lists` are the slices that are still to be removed. -/
structure Inv (o : Options) (s : Segment) (lists : ℕ → List Slice) : Prop where
  names : ∀ name, s.ipc.created name = s.ipc.destroyed name + s.names.count name
  addresses : ∀ a, s.ipc.opened a = s.ipc.closed a + (s.openAddresses o).count a
  remote : ∀ {i x}, s.remoteSlices.lookup i = some x → x.slice.index = i ∧
    ∃ info, s.importedSliceInfo x.name = some info ∧ x.slice ∈ lists info.rankId
  once : ∀ {i j x y}, s.remoteSlices.lookup i = some x → s.remoteSlices.lookup j = some y →
    x.name = y.name → i = j
  listed : ∀ {rankId y}, y ∈ lists rankId → ∃ x info, s.remoteSlices.lookup y.index = some x ∧
    x.slice = y ∧ s.importedSliceInfo x.name = some info ∧ info.rankId = rankId
  nodup : ∀ rankId, (lists rankId).Nodup
  addrs : ∀ {a}, s.registerAddrs.lookup a = some () →
    ∃ i x, s.remoteSlices.lookup i = some x ∧ x.slice.vAddress = a

theorem inv_start (va : VaManager) : Inv o (.start va) fun _ => [] where
  names _ := rfl
  addresses _ := rfl
  remote h := nomatch h
  once h := nomatch h
  listed h := nomatch h
  nodup _ := nodup_nil
  addrs h := nomatch h

namespace Inv

/-! ### Names -/

theorem names_addRegistered (hindex : s.registerSlices.lookup s.sliceCount = none)
    (addr size : ℕ) (name : String) :
    (s.addRegistered addr size name).names.Perm (name :: s.names) := by
  rw [Segment.names, Segment.addRegistered, emplace, hindex]
  exact (insert_perm hindex _).map _

section

variable (h : Inv o s lists) (hindex : s.registerSlices.lookup s.sliceCount = none) (addr size : ℕ)
include h hindex addr size

theorem addRegistered (name : String) : Inv o (s.addRegistered addr size name) lists := by
  refine { h with names := fun name' => ?_ }
  have hcount := (names_addRegistered hindex addr size name).count_eq name'
  rw [hcount, count_cons_eq]
  show bump s.ipc.created name name' = s.ipc.destroyed name' + _
  rw [bump_apply, h.names, Nat.add_assoc]

theorem registerMemory (name : Option String) (pidSet : DeviceInfo → Bool) :
    Inv o (s.registerMemory o addr size name pidSet).2 lists := by
  unfold Segment.registerMemory
  split
  · exact h
  split
  · exact h
  next name =>
  split
  · -- The name is destroyed at once.
    refine { h with names := fun name' => ?_ }
    show bump s.ipc.created name name' = bump s.ipc.destroyed name name' + s.names.count name'
    rw [bump_apply, bump_apply, h.names]
    omega
  · exact h.addRegistered hindex addr size name

end

theorem releaseSliceMemory (h : Inv o s lists) (index : ℕ) (destroyed : Bool) :
    Inv o (s.releaseSliceMemory index destroyed).2 lists := by
  unfold Segment.releaseSliceMemory
  split
  · exact h
  next x hx =>
  split
  · exact h
  refine { h with names := fun name => ?_ }
  have hperm : s.names.Perm (x.name :: (s.registerSlices.erase index).entries.map (·.2.name)) :=
    (perm_erase hx).map _
  have hnames := h.names name
  rw [hperm.count_eq, count_cons_eq] at hnames
  show s.ipc.created name = bump s.ipc.destroyed x.name name +
    ((s.registerSlices.erase index).entries.map (·.2.name)).count name
  rw [bump_apply, hnames]
  omega

/-! ### Imports -/

variable {x : RegisterSlice} {i : ℕ} {ans : ImportAnswers}

theorem openAddress_update {imported : String → Option SliceInfo} {name : String}
    {found : Option SliceInfo} (hne : x.name ≠ name) :
    openAddress o (update imported name found) x = openAddress o imported x := by
  rw [openAddress, openAddress, update_of_ne hne]

theorem name_ne (h : Inv o s lists) (hx : s.remoteSlices.lookup i = some x) {name : String}
    (hname : s.importedSliceInfo name = none) : x.name ≠ name := by
  rintro rfl
  obtain ⟨-, info, hinfo, -⟩ := h.remote hx
  exact nomatch hname.symm.trans hinfo

def remoteSlice (s : Segment) (info : SliceInfo) (vAddress : ℕ) : RegisterSlice :=
  ⟨⟨s.sliceCount, vAddress, info.size⟩, info.name⟩

theorem remoteSlices_addRemote (hindex : s.remoteSlices.lookup s.sliceCount = none)
    (vAddress : ℕ) : (s.addRemote o info vAddress).remoteSlices =
      s.remoteSlices.insert s.sliceCount (remoteSlice s info vAddress) := by
  show s.remoteSlices.emplace s.sliceCount _ = _
  rw [emplace, hindex]
  rfl

theorem importedSliceInfo_addRemote (hname : s.importedSliceInfo info.name = none)
    (vAddress : ℕ) : (s.addRemote o info vAddress).importedSliceInfo =
      update s.importedSliceInfo info.name (some info) := by
  rw [Segment.addRemote, hname]
  rfl

theorem openAddresses_addRemote (h : Inv o s lists)
    (hindex : s.remoteSlices.lookup s.sliceCount = none)
    (hname : s.importedSliceInfo info.name = none) (vAddress : ℕ) :
    ((s.addRemote o info vAddress).openAddresses o).Perm
      ((if o.opens info then [untagged vAddress] else []) ++ s.openAddresses o) := by
  rw [Segment.openAddresses, remoteSlices_addRemote hindex, importedSliceInfo_addRemote hname]
  refine ((insert_perm hindex _).filterMap _).trans (List.Perm.of_eq ?_)
  have hself : openAddress o (update s.importedSliceInfo info.name (some info))
      (remoteSlice s info vAddress) = if o.opens info then some (untagged vAddress) else none := by
    rw [openAddress, show (remoteSlice s info vAddress).name = info.name from rfl, update_self]
    rfl
  have hrest : s.remoteSlices.entries.filterMap
      (fun x => openAddress o (update s.importedSliceInfo info.name (some info)) x.2) =
        s.openAddresses o := by
    refine filterMap_congr fun x hx => ?_
    exact openAddress_update (h.name_ne (mem_entries_iff.mp hx) hname)
  rw [filterMap_cons, hself, hrest]
  by_cases hopens : o.opens info = true
  · simp [hopens]
  · simp [hopens]

theorem addRemote (h : Inv o s s.rankToRemoteSlices)
    (hindex : s.remoteSlices.lookup s.sliceCount = none)
    (hname : s.importedSliceInfo info.name = none) {vAddress : ℕ} {opened : ℕ → ℕ}
    (hopened : ∀ a, opened a = s.ipc.opened a +
      (if o.opens info then [untagged vAddress] else []).count a) :
    Inv o { s.addRemote o info vAddress with ipc := { s.ipc with opened := opened } }
      (s.addRemote o info vAddress).rankToRemoteSlices := by
  set t := s.addRemote o info vAddress with ht
  set x := remoteSlice s info vAddress with hx
  have hremote : t.remoteSlices.lookup = update s.remoteSlices.lookup s.sliceCount (some x) := by
    rw [ht, remoteSlices_addRemote hindex, lookup_insert]
  have himp : t.importedSliceInfo = update s.importedSliceInfo info.name (some info) :=
    importedSliceInfo_addRemote hname vAddress
  have hself : t.remoteSlices.lookup s.sliceCount = some x := by
    rw [hremote, update_self]
  have hfound : t.importedSliceInfo info.name = some info := by
    rw [himp, update_self]
  have hkeep : ∀ {i y}, s.remoteSlices.lookup i = some y → t.remoteSlices.lookup i = some y := by
    intro i y hy
    rw [hremote]
    refine (update_of_ne ?_ _ _).trans hy
    rintro rfl
    exact nomatch hindex.symm.trans hy
  have hkeepInfo : ∀ {i y found}, s.remoteSlices.lookup i = some y →
      s.importedSliceInfo y.name = some found → t.importedSliceInfo y.name = some found := by
    intro i y found hy hinfo
    rw [himp]
    exact (update_of_ne (h.name_ne hy hname) _ _).trans hinfo
  have hcases : ∀ {i y}, t.remoteSlices.lookup i = some y →
      (i = s.sliceCount ∧ y = x) ∨ s.remoteSlices.lookup i = some y := by
    intro i y hy
    rw [hremote] at hy
    rcases update_eq_some_iff.mp hy with ⟨hi, heq⟩ | ⟨-, hy⟩
    · exact .inl ⟨hi, (some.inj heq).symm⟩
    · exact .inr hy
  have hlists : t.rankToRemoteSlices = update s.rankToRemoteSlices info.rankId
      (s.rankToRemoteSlices info.rankId ++ [x.slice]) := rfl
  have hmem : ∀ {rankId y}, y ∈ t.rankToRemoteSlices rankId ↔
      y ∈ s.rankToRemoteSlices rankId ∨ (rankId = info.rankId ∧ y = x.slice) := by
    intro rankId y
    rw [hlists]
    by_cases hr : rankId = info.rankId
    · rw [hr, update_self, mem_append, mem_singleton]
      simp
    · rw [update_of_ne hr]
      simp [hr]
  refine ⟨h.names, fun a => ?_, ?_, ?_, ?_, ?_, ?_⟩
  · have hcount := (h.openAddresses_addRemote hindex hname vAddress).count_eq a
    show opened a = s.ipc.closed a + (t.openAddresses o).count a
    rw [hcount, count_append, hopened, h.addresses]
    omega
  · intro i y hy
    rcases hcases hy with ⟨rfl, rfl⟩ | hy
    · exact ⟨rfl, info, hfound, hmem.mpr (.inr ⟨rfl, rfl⟩)⟩
    · obtain ⟨hi, found, hinfo, hlisted⟩ := h.remote hy
      exact ⟨hi, found, hkeepInfo hy hinfo, hmem.mpr (.inl hlisted)⟩
  · intro i j y z hy hz hname'
    rcases hcases hy with ⟨rfl, rfl⟩ | hy <;> rcases hcases hz with ⟨rfl, rfl⟩ | hz
    · rfl
    · exact absurd hname'.symm (h.name_ne hz hname)
    · exact absurd hname' (h.name_ne hy hname)
    · exact h.once hy hz hname'
  · intro rankId y hy
    rcases hmem.mp hy with hy | ⟨rfl, rfl⟩
    · obtain ⟨z, found, hz, rfl, hinfo, hrank⟩ := h.listed hy
      exact ⟨z, found, hkeep hz, rfl, hkeepInfo hz hinfo, hrank⟩
    · exact ⟨x, info, hself, rfl, hfound, rfl⟩
  · intro rankId
    rw [hlists]
    by_cases hr : rankId = info.rankId
    · subst hr
      rw [update_self, nodup_append]
      refine ⟨h.nodup _, nodup_singleton _, fun y hy z hz => ?_⟩
      rw [mem_singleton.mp hz]
      rintro rfl
      obtain ⟨z, -, hz, -⟩ := h.listed hy
      exact nomatch hindex.symm.trans hz
    · rw [update_of_ne hr]
      exact h.nodup rankId
  intro a ha
  have ha : (s.registerAddrs.insert vAddress ()).lookup a = some () := ha
  rw [lookup_insert] at ha
  rcases update_eq_some_iff.mp ha with ⟨rfl, -⟩ | ⟨-, ha⟩
  · exact ⟨_, x, hself, rfl⟩
  · obtain ⟨i, y, hy, haddr⟩ := h.addrs ha
    exact ⟨i, y, hkeep hy, haddr⟩

theorem enablePeer_eq {device : ℕ} {enabled : Bool} (h : s.enablePeer o device enabled = some t) :
    ∃ peers, t = { s with enablePeerDevices := peers } := by
  unfold Segment.enablePeer at h
  split at h
  · split at h
    · exact ⟨_, (some.inj h).symm⟩
    · cases h
  · exact ⟨_, (some.inj h).symm⟩

theorem enablePeerDevices (h : Inv o s lists) (peers : ℕ → Bool) :
    Inv o { s with enablePeerDevices := peers } lists :=
  { h with }

section

variable (h : Inv o s s.rankToRemoteSlices)
include h

section

variable (hindex : s.remoteSlices.lookup s.sliceCount = none)
  (hname : s.importedSliceInfo info.name = none)
include hindex hname

theorem recordOpened (hopens : o.opens info = true) (hpos : address ≠ 0) (hlt : address < 2 ^ 48) :
    let out := { s with ipc := s.ipc.openMemory address }.recordSlice o info address
    Inv o out.segment out.segment.rankToRemoteSlices := by
  rw [Segment.recordSlice, if_neg hpos]
  refine h.addRemote hindex hname fun a => ?_
  rw [hopens, if_pos rfl, untagged_tagged hlt, count_cons_eq, count_nil, Nat.zero_add]
  exact bump_apply _ _ _

theorem recordUnopened (hopens : o.opens info = false) (address : ℕ) :
    Inv o (s.recordSlice o info address).segment
      (s.recordSlice o info address).segment.rankToRemoteSlices := by
  rw [Segment.recordSlice]
  split
  · exact h
  refine h.addRemote hindex hname fun a => ?_
  rw [hopens]
  rfl

end

theorem importSliceInfo (hok : InfoOrderly o s (.slice info) ans) :
    Inv o (s.importSliceInfo o info ans).segment
      (s.importSliceInfo o info ans).segment.rankToRemoteSlices := by
  obtain ⟨hindex, hname, haddress⟩ := hok
  rw [isNone_iff_eq_none] at hname
  unfold Segment.importSliceInfo
  split
  · exact h
  split
  · next hopens =>
    split
    · exact h
    next t ht =>
    obtain ⟨peers, rfl⟩ := enablePeer_eq ht
    split
    · exact h.enablePeerDevices peers
    next address hopened =>
    obtain ⟨hpos, hlt⟩ := haddress hopens address hopened
    exact (h.enablePeerDevices peers).recordOpened hindex hname hopens hpos hlt
  next hopens =>
  have hopens : o.opens info = false := by simpa using hopens
  split
  · exact h.recordUnopened hindex hname hopens _
  · exact h.recordUnopened hindex hname hopens _

theorem importDeviceInfo (info : DeviceInfo) (ans : ImportAnswers) :
    Inv o (s.importDeviceInfo o info ans).segment
      (s.importDeviceInfo o info ans).segment.rankToRemoteSlices := by
  unfold Segment.importDeviceInfo
  split
  · exact h
  split
  · exact h
  next t ht =>
  obtain ⟨peers, rfl⟩ := enablePeer_eq ht
  split
  · exact h.enablePeerDevices peers
  · exact { h with }

theorem importInfo {info : Info} (hok : InfoOrderly o s info ans) :
    Inv o (s.importInfo o info ans).segment
      (s.importInfo o info ans).segment.rankToRemoteSlices := by
  cases info with
  | device info => exact h.importDeviceInfo info ans
  | slice info => exact h.importSliceInfo hok
  | unreadable | unknown => exact h

end

theorem rollback_of_null : ∀ {addresses : List ℕ}, (∀ a ∈ addresses, a = 0) →
    s.rollbackIpcMemory addresses = s := by
  have hfold : ∀ {addresses : List ℕ} (ipc : Ipc), (∀ a ∈ addresses, a = 0) → addresses.foldl
        (fun ipc address => if address ≠ 0 then ipc.closeMemory address else ipc) ipc = ipc := by
    intro addresses
    induction addresses with
    | nil => exact fun _ _ => rfl
    | cons address rest ih =>
      intro ipc hall
      rw [foldl_cons, if_neg (not_not.mpr (hall address mem_cons_self))]
      exact ih ipc fun a ha => hall a (mem_cons_of_mem _ ha)
  intro addresses hall
  rw [Segment.rollbackIpcMemory, hfold s.ipc hall]

/-- The induction is on the texts that are left; the segment may change with each. -/
theorem importLoop {withAddresses : Bool} : ∀ {infos : List (Info × ImportAnswers)}
    {addresses : List ℕ} {s : Segment}, Inv o s s.rankToRemoteSlices →
      ImportOrderly o withAddresses infos addresses s →
      Inv o (Segment.importLoop o withAddresses infos addresses s).2
        (Segment.importLoop o withAddresses infos addresses s).2.rankToRemoteSlices := by
  intro infos
  induction infos with
  | nil => exact fun h _ => h
  | cons entry rest ih =>
    obtain ⟨info, ans⟩ := entry
    rintro addresses s h ⟨hinfo, hrest⟩
    have hnext := h.importInfo hinfo
    rw [Segment.importLoop]
    by_cases hret : (s.importInfo o info ans).ret = .ok
    · rw [if_pos hret] at hrest
      rw [if_neg (not_not.mpr hret)]
      exact ih hnext hrest
    rw [if_neg hret] at hrest
    rw [if_pos hret]
    split
    · next hwith =>
      rw [rollback_of_null (hrest hwith)]
      exact hnext
    · exact hnext

/-! ### Removed slices -/

theorem removeSlice_eq (hx : s.remoteSlices.lookup x.slice.index = some x)
    (hinfo : s.importedSliceInfo x.name = some info) (pastEnd : Bool) :
    s.removeSlice o pastEnd x.slice = { s with
      registerAddrs := s.registerAddrs.erase x.slice.vAddress
      va := s.va.removeOneVaInfo pastEnd x.slice.vAddress
      ipc := if o.opens info then s.ipc.closeMemory (untagged x.slice.vAddress) else s.ipc
      importedSliceInfo := update s.importedSliceInfo x.name none
      remoteSlices := s.remoteSlices.erase x.slice.index } := by
  simp only [Segment.removeSlice, hx, hinfo]

theorem of_erase (h : Inv o s lists) {j : ℕ} {y : RegisterSlice}
    (hx : s.remoteSlices.lookup i = some x) (hy : (s.remoteSlices.erase i).lookup j = some y) :
    j ≠ i ∧ s.remoteSlices.lookup j = some y ∧ y.name ≠ x.name := by
  rw [lookup_erase] at hy
  rcases update_eq_some_iff.mp hy with ⟨-, hnone⟩ | ⟨hne, hy⟩
  · cases hnone
  · exact ⟨hne, hy, fun hname => hne (h.once hy hx hname)⟩

theorem openAddresses_erase (h : Inv o s lists) (hx : s.remoteSlices.lookup i = some x)
    (hinfo : s.importedSliceInfo x.name = some info) :
    (s.openAddresses o).Perm ((if o.opens info then [untagged x.slice.vAddress] else []) ++
      (s.remoteSlices.erase i).entries.filterMap fun y =>
        openAddress o (update s.importedSliceInfo x.name none) y.2) := by
  refine ((perm_erase hx).filterMap _).trans (List.Perm.of_eq ?_)
  have hself : openAddress o s.importedSliceInfo x =
      if o.opens info then some (untagged x.slice.vAddress) else none := by
    rw [openAddress, hinfo]
  have hrest : ((s.remoteSlices.erase i).entries.filterMap fun y =>
      openAddress o (update s.importedSliceInfo x.name none) y.2) =
        (s.remoteSlices.erase i).entries.filterMap fun y =>
          openAddress o s.importedSliceInfo y.2 := by
    refine filterMap_congr fun y hy => ?_
    obtain ⟨-, -, hname⟩ := h.of_erase hx (mem_entries_iff.mp hy)
    exact openAddress_update hname
  rw [filterMap_cons, hself, hrest]
  by_cases hopens : o.opens info = true
  · simp [hopens]
  · simp [hopens]

theorem removeSlice (h : Inv o s lists) {rankId : ℕ} {y : Slice} {rest : List Slice}
    (hlists : lists rankId = y :: rest) (pastEnd : Bool) :
    Inv o (s.removeSlice o pastEnd y) (update lists rankId rest) := by
  obtain ⟨x, info, hx, rfl, hinfo, rfl⟩ := h.listed (hlists ▸ mem_cons_self)
  obtain ⟨hnot, hnodup⟩ := nodup_cons.mp (hlists ▸ h.nodup info.rankId)
  have hmem : ∀ {r z}, z ∈ update lists info.rankId rest r ↔
      z ∈ lists r ∧ (r = info.rankId → z ≠ x.slice) := by
    intro r z
    by_cases hr : r = info.rankId
    · subst hr
      rw [update_self, hlists, mem_cons]
      constructor
      · intro hz
        exact ⟨.inr hz, fun _ heq => hnot (heq ▸ hz)⟩
      · rintro ⟨hz, hne⟩
        exact hz.resolve_left (hne rfl)
    · rw [update_of_ne hr]
      exact ⟨fun hz => ⟨hz, fun heq => absurd heq hr⟩, And.left⟩
  have hkeep : ∀ {i z}, i ≠ x.slice.index → s.remoteSlices.lookup i = some z →
      (s.remoteSlices.erase x.slice.index).lookup i = some z := by
    intro i z hne hz
    rw [lookup_erase]
    exact (update_of_ne hne _ _).trans hz
  rw [removeSlice_eq hx hinfo]
  refine ⟨?_, fun a => ?_, ?_, ?_, ?_, ?_, ?_⟩
  · -- Closing an address is not seen in the counts of names.
    split
    · exact h.names
    · exact h.names
  · have haddrs := h.addresses a
    rw [(h.openAddresses_erase hx hinfo).count_eq, count_append] at haddrs
    by_cases hopens : o.opens info = true
    · rw [if_pos hopens, count_cons_eq, count_nil] at haddrs
      rw [if_pos hopens]
      show s.ipc.opened a = bump s.ipc.closed (untagged x.slice.vAddress) a + count a _
      rw [bump_apply, haddrs, Nat.zero_add, Nat.add_assoc]
      rfl
    · rw [if_neg hopens, count_nil, Nat.zero_add] at haddrs
      rw [if_neg hopens]
      exact haddrs
  · intro i z hz
    obtain ⟨hne, hz, hname⟩ := h.of_erase hx hz
    obtain ⟨hi, found, hfound, hlisted⟩ := h.remote hz
    refine ⟨hi, found, (update_of_ne hname _ _).trans hfound, hmem.mpr ⟨hlisted, ?_⟩⟩
    intro _ heq
    exact hne (heq ▸ hi.symm)
  · intro i j z z' hz hz' hname
    exact h.once (h.of_erase hx hz).2.1 (h.of_erase hx hz').2.1 hname
  · intro r z hz
    obtain ⟨hz, hnez⟩ := hmem.mp hz
    obtain ⟨z, found, hfind, rfl, hfound, rfl⟩ := h.listed hz
    have hne : z.slice.index ≠ x.slice.index := by
      intro heq
      obtain rfl := some.inj ((heq ▸ hfind).symm.trans hx)
      rw [hinfo, some_inj] at hfound
      exact hnez (by rw [hfound]) rfl
    have hname := (h.of_erase hx (hkeep hne hfind)).2.2
    exact ⟨z, found, hkeep hne hfind, rfl, (update_of_ne hname _ _).trans hfound, rfl⟩
  · intro r
    by_cases hr : r = info.rankId
    · subst hr
      rw [update_self]
      exact hnodup
    · rw [update_of_ne hr]
      exact h.nodup r
  intro a ha
  rw [lookup_erase] at ha
  rcases update_eq_some_iff.mp ha with ⟨-, hnone⟩ | ⟨hne, ha⟩
  · cases hnone
  obtain ⟨i, z, hz, haddr⟩ := h.addrs ha
  refine ⟨i, z, hkeep ?_ hz, haddr⟩
  rintro rfl
  obtain rfl := some.inj (hz.symm.trans hx)
  exact hne haddr.symm

/-- The induction is on the slices of the rank that are left. -/
theorem removeSlices {rankId : ℕ} (pastEnd : Bool) : ∀ {rest : List Slice} {s : Segment}
    {lists : ℕ → List Slice}, Inv o s lists → lists rankId = rest →
      Inv o (rest.foldl (fun s x => s.removeSlice o pastEnd x) s) (update lists rankId []) := by
  intro rest
  induction rest with
  | nil =>
    intro s lists h hlists
    have hupdate : update lists rankId [] = lists := by
      rw [← hlists, update_eq_self]
    rw [hupdate]
    exact h
  | cons y rest ih =>
    intro s lists h hlists
    have hnext := ih (h.removeSlice hlists pastEnd) (update_self ..)
    rw [update_idem] at hnext
    exact hnext

theorem rankToRemoteSlices_removeSlice (pastEnd : Bool) (y : Slice) :
    (s.removeSlice o pastEnd y).rankToRemoteSlices = s.rankToRemoteSlices := by
  unfold Segment.removeSlice
  dsimp only
  split
  · rfl
  · split <;> rfl

theorem rankToRemoteSlices_removeSlices (pastEnd : Bool) : ∀ (slices : List Slice) (s : Segment),
    (slices.foldl (fun s x => s.removeSlice o pastEnd x) s).rankToRemoteSlices =
      s.rankToRemoteSlices := by
  intro slices
  induction slices with
  | nil => exact fun _ => rfl
  | cons y rest ih =>
    intro s
    rw [foldl_cons, ih, rankToRemoteSlices_removeSlice]

theorem removeRank (h : Inv o s s.rankToRemoteSlices) (pastEnd : Bool) (rankId : ℕ) :
    Inv o (s.removeRank o pastEnd rankId) (s.removeRank o pastEnd rankId).rankToRemoteSlices := by
  have hlists : (s.removeRank o pastEnd rankId).rankToRemoteSlices =
      update s.rankToRemoteSlices rankId [] := by
    rw [Segment.removeRank, Segment.removeSliceInfo]
    rw [rankToRemoteSlices_removeSlices]
  have hstart : Inv o { s with importedDeviceInfo := s.importedDeviceInfo.erase rankId }
      s.rankToRemoteSlices :=
    { h with }
  have hend := @removeSlices o rankId pastEnd _ _ _ hstart rfl
  rw [hlists]
  exact { hend with }

theorem removeImported (pastEnd : Bool) : ∀ {ranks : List ℕ} {s : Segment},
    Inv o s s.rankToRemoteSlices → Inv o (s.removeImported o pastEnd ranks)
      (s.removeImported o pastEnd ranks).rankToRemoteSlices := by
  intro ranks
  induction ranks with
  | nil => exact fun h => h
  | cons rankId rest ih => exact fun h => ih (h.removeRank pastEnd rankId)

/-! ### The end -/

theorem foldl_destroy : ∀ (names : List String) (ipc : Ipc) (name : String),
    (names.foldl Ipc.destroy ipc).destroyed name = ipc.destroyed name + names.count name ∧
      (names.foldl Ipc.destroy ipc).created = ipc.created ∧
      (names.foldl Ipc.destroy ipc).opened = ipc.opened ∧
      (names.foldl Ipc.destroy ipc).closed = ipc.closed := by
  intro names
  induction names with
  | nil => exact fun _ _ => ⟨rfl, rfl, rfl, rfl⟩
  | cons head rest ih =>
    intro ipc name
    obtain ⟨hdest, hother⟩ := ih (ipc.destroy head) name
    refine ⟨?_, hother⟩
    rw [foldl_cons, hdest, count_cons_eq]
    show bump ipc.destroyed head name + _ = _
    rw [bump_apply]
    omega

theorem registerAddrs_eq (h : Inv o s lists) (hempty : s.remoteSlices.entries.isEmpty = true) :
    s.registerAddrs.entries = [] := by
  refine eq_nil_iff_forall_not_mem.mpr ?_
  rintro ⟨a, _⟩ ha
  obtain ⟨i, x, hx, -⟩ := h.addrs (mem_entries_iff.mp ha)
  have hmem := mem_entries_iff.mpr hx
  rw [isEmpty_iff.mp hempty] at hmem
  cases hmem

theorem destruct (h : Inv o s lists) (hnames : s.memNames.Perm s.names)
    (hempty : s.remoteSlices.entries.isEmpty = true) (pastEnd : Bool) :
    Inv o (s.destruct pastEnd) fun _ => [] := by
  have hopen : s.openAddresses o = [] := by
    rw [Segment.openAddresses, isEmpty_iff.mp hempty]
    rfl
  have hipc : (s.destruct pastEnd).ipc = s.memNames.foldl Ipc.destroy s.ipc := by
    show s.registerAddrs.entries.foldl _ _ = _
    rw [h.registerAddrs_eq hempty]
    rfl
  have hend := @inv_start o (s.destruct pastEnd).va
  refine { hend with names := fun name => ?_, addresses := fun a => ?_ }
  · obtain ⟨hdest, hmade, -, -⟩ := foldl_destroy s.memNames s.ipc name
    rw [hipc, hdest, hmade, h.names, hnames.count_eq]
    rfl
  obtain ⟨-, -, hopened, hclosed⟩ := foldl_destroy s.memNames s.ipc ""
  have haddrs := h.addresses a
  rw [hopen] at haddrs
  rw [hipc, hopened, hclosed]
  exact haddrs

end Inv

/-! ### Runs -/

variable {a : SegmentStep}

theorem Inv.after (h : Inv o s s.rankToRemoteSlices) (hok : s.Orderly o a) :
    Inv o (s.after o a) (s.after o a).rankToRemoteSlices := by
  cases a with
  | registerMemory addr size name pidSet =>
    have hlists : (s.registerMemory o addr size name pidSet).2.rankToRemoteSlices =
        s.rankToRemoteSlices := by
      unfold Segment.registerMemory
      split
      · rfl
      split
      · rfl
      · split <;> rfl
    rw [Segment.after, hlists]
    exact h.registerMemory hok addr size name pidSet
  | releaseSliceMemory index destroyed =>
    have hlists : (s.releaseSliceMemory index destroyed).2.rankToRemoteSlices =
        s.rankToRemoteSlices := by
      unfold Segment.releaseSliceMemory
      split
      · rfl
      · split <;> rfl
    rw [Segment.after, hlists]
    exact h.releaseSliceMemory index destroyed
  | importAll withAddresses infos => exact Inv.importLoop h hok
  | removeImported pastEnd ranks => exact h.removeImported pastEnd
  | useManager va =>
    exact { h with }
  | destruct pastEnd => exact h.destruct hok.1 hok.2 pastEnd

/-- The invariant of a run; nothing is held after the destructor. -/
structure LifetimeInv (o : Options) (s : Lifetime) : Prop where
  inv : Inv o s.segment s.segment.rankToRemoteSlices
  names : s.gone = true → s.segment.names = []
  openAddresses : s.gone = true → s.segment.openAddresses o = []

theorem LifetimeInv.next {s t : Lifetime} (h : LifetimeInv o s) (hok : Orderly o s a)
    (hnext : (segmentSystem o).next s a = some t) : LifetimeInv o t := by
  obtain ⟨-, hnext⟩ := ite_none_left_eq_some.mp hnext
  obtain rfl := some.inj hnext
  have hinv := h.inv.after hok
  cases a with
  | destruct pastEnd => exact ⟨hinv, fun _ => rfl, fun _ => rfl⟩
  | _ => exact ⟨hinv, nofun, nofun⟩

theorem LifetimeInv.paired {s : Lifetime} (h : LifetimeInv o s) : Paired o s where
  names := h.inv.names
  addresses := h.inv.addresses
  allDestroyed hgone name := by
    have hnames := h.inv.names name
    rw [h.names hgone] at hnames
    exact hnames.symm
  allClosed hgone a := by
    have haddrs := h.inv.addresses a
    rw [h.openAddresses hgone] at haddrs
    exact haddrs.symm

/-- In every state of an orderly run what was made and not destroyed is what the segment holds, and
the destructor leaves nothing. -/
theorem paired_of_orderly (o : Options) (s : Lifetime)
    (h : (segmentSystem o).ReachableBy (Orderly o) s) : Paired o s := by
  have hstart : LifetimeInv o (segmentSystem o).start := ⟨inv_start .new, nofun, nofun⟩
  have hinv : LifetimeInv o s :=
    TransitionSystem.ReachableBy.invariant hstart (fun h hok hnext => h.next hok hnext) h
  exact hinv.paired

/-- A device that reaches the ranks of its server by SDMA and the other ones by RDMA. -/
def localOptions : Options where
  rankId := 0
  sdma := true
  deviceRdma := true
  socType := .ascend910C
  serverId := 1
  superPodId := 7
  deviceId := 0
  logicDeviceId := 0

/-- Memory of a rank on the same server, and of one on another server. -/
def nearSlice : SliceInfo := ⟨1, 0x3000, 64, 7, 2, 0, "near"⟩

def farSlice : SliceInfo := ⟨5, 0x4000, 64, 8, 3, 0, "far"⟩

def seen (name : String) (a b : ℕ) (s : Lifetime) : Bool × (ℕ × ℕ) × (ℕ × ℕ) × (ℕ × ℕ) :=
  (s.gone, (s.segment.ipc.created name, s.segment.ipc.destroyed name),
    (s.segment.ipc.opened a, s.segment.ipc.closed a),
    (s.segment.ipc.opened b, s.segment.ipc.closed b))

theorem paired_after_removal : ∃ s,
    (segmentSystem localOptions).ReachableBy (Orderly localOptions) s ∧ s.gone = true ∧
    s.segment.ipc.created "own" = 1 ∧ s.segment.ipc.opened 0x9000 = 1 ∧ Paired localOptions s := by
  refine TransitionSystem.exists_reachableBy [.registerMemory 0x1000 64 (some "own") fun _ => true,
    .importAll true [(.slice nearSlice, { opened := some 0x9000 }), (.slice farSlice, {})],
    .removeImported false [2, 3], .destruct false] (seen "own" 0x9000 0x4000) (true, (1, 1), (1, 1),
    (0, 0)) ?_ fun s hreach hseen => ?_
  · decide +kernel
  simp only [seen, Prod.mk.injEq] at hseen
  exact ⟨hseen.1, hseen.2.1.1, hseen.2.2.1.1, paired_of_orderly localOptions s hreach⟩

/-- The destructor destroys a released name once more, closes an opened address with the rank in it,
and closes an address that was never opened. -/
theorem released_twice : ∃ s, (segmentSystem localOptions).Reachable s ∧ s.gone = true ∧
    s.segment.ipc.created "own" = 1 ∧ s.segment.ipc.destroyed "own" = 2 ∧
    s.segment.ipc.opened 0x9000 = 1 ∧ s.segment.ipc.closed 0x9000 = 0 ∧
    s.segment.ipc.opened (tagged 0x4000 3) = 0 ∧ s.segment.ipc.closed (tagged 0x4000 3) = 1 ∧
    ¬ Paired localOptions s := by
  refine TransitionSystem.exists_reachable [.registerMemory 0x1000 64 (some "own") fun _ => true,
    .releaseSliceMemory 0 true, .importAll true [(.slice nearSlice, { opened := some 0x9000 }),
    (.slice farSlice, {})], .destruct false] (seen "own" 0x9000 (tagged 0x4000 3)) (true, (1, 2),
    (1, 0), (0, 1)) ?_ fun s _ hseen => ?_
  · decide +kernel
  simp only [seen, Prod.mk.injEq] at hseen
  obtain ⟨hgone, ⟨hmade, hdest⟩, ⟨hopened, hclosed⟩, hopened', hclosed'⟩ := hseen
  refine ⟨hgone, hmade, hdest, hopened, hclosed, hopened', hclosed', fun h => ?_⟩
  have hnames := h.allDestroyed hgone "own"
  omega

end Hybm.User
