/-
The manager of virtual addresses.

`HybmVaManager` enters every region into three indices, by its global address, by its
local address and by its memory type.  `AddVaInfo` looks for an overlap in the list of
one memory type only, and never at the local addresses.
-/
import MemFabric.OrderedMap
import MemFabric.Transition

namespace Hybm

open Option List OrderedMap

/-- `BErrorCode`. -/
inductive Result
  | ok
  | error
  | invalidParam
  | mallocFailed
  | newObjectFailed
  | fileNotAccess
  | dlFunctionFailed
  | timeout
  | underApiUnload
  | notInitialized
  | notSupportFunc
  | notSupported
  deriving DecidableEq

/-- `hybm_mem_type`. -/
inductive MemType
  | device
  | host
  | butt
  deriving DecidableEq

def invalidRankId : ℕ := 2 ^ 32 - 1

structure BaseAllocatedGvaInfo where
  gva : ℕ
  size : ℕ
  memType : MemType
  lva : ℕ
  deriving DecidableEq

structure AllocatedGvaInfo where
  base : BaseAllocatedGvaInfo
  registered : Bool
  localRankId : ℕ
  importedRankId : ℕ
  deriving DecidableEq

namespace AllocatedGvaInfo

def unset : AllocatedGvaInfo where
  base := ⟨0, 0, .device, 0⟩
  registered := false
  localRankId := invalidRankId
  importedRankId := invalidRankId

variable (info : AllocatedGvaInfo)

def contains (addr : ℕ) : Bool :=
  info.base.gva ≤ addr ∧ addr < (info.base.gva + info.base.size) % 2 ^ 64

def containsByLva (addr : ℕ) : Bool :=
  if info.base.lva = 0 then false
  else info.base.lva ≤ addr ∧ addr < (info.base.lva + info.base.size) % 2 ^ 64

/-- `End`. -/
def endAddress : ℕ := (info.base.gva + info.base.size) % 2 ^ 64

def rankId : ℕ :=
  if info.importedRankId ≠ invalidRankId then info.importedRankId else info.localRankId

/-- `operator==`, which compares neither the memory types nor the local addresses. -/
def same (lhs rhs : AllocatedGvaInfo) : Bool :=
  lhs.base.gva = rhs.base.gva ∧ lhs.base.size = rhs.base.size ∧ lhs.rankId = rhs.rankId

end AllocatedGvaInfo

/-- `HybmVaManager`.  A memory type without a list has the empty one. -/
structure VaManager where
  allocatedLookupMapByGva : OrderedMap ℕ AllocatedGvaInfo
  allocatedLookupMapByLva : OrderedMap ℕ AllocatedGvaInfo
  allocatedLookupMapByMemType : MemType → List AllocatedGvaInfo

namespace VaManager

def new : VaManager := ⟨.empty, .empty, fun _ => []⟩

variable (m : VaManager)

def checkOverlap (gva size : ℕ) (memType : MemType) : Bool × AllocatedGvaInfo :=
  match (m.allocatedLookupMapByMemType memType).find? fun info =>
      (info.base.gva ≤ gva ∧ gva < info.endAddress) ∨
        (gva ≤ info.base.gva ∧ info.base.gva < (gva + size) % 2 ^ 64) with
  | some info => (true, info)
  | none => (false, .unset)

def enterVaInfo (info : AllocatedGvaInfo) : VaManager where
  allocatedLookupMapByGva := m.allocatedLookupMapByGva.insert info.base.gva info
  allocatedLookupMapByLva := m.allocatedLookupMapByLva.insert info.base.lva info
  allocatedLookupMapByMemType := Function.update m.allocatedLookupMapByMemType info.base.memType
    (m.allocatedLookupMapByMemType info.base.memType ++ [info])

/-- `AddVaInfo` of a whole record. -/
def addVaInfo (info : AllocatedGvaInfo) : Result × VaManager :=
  if info.base.gva = 0 then (.error, m)
  else if info.base.size = 0 then (.ok, m)
  else if info.base.memType = .butt then (.error, m)
  else
    let old := m.checkOverlap info.base.gva info.base.size info.base.memType
    if old.1 ∧ ¬ old.2.same info then (.error, m)
    else if old.2.same info then (.ok, m)
    else (.ok, m.enterVaInfo info)

/-- `IsGva`.  With an empty map the iterator that is read is the end; `pastEnd` is what
reading it answers. -/
def isGva (pastEnd : Bool) (va : ℕ) : Bool :=
  if va = 0 then false
  else
    match m.allocatedLookupMapByGva.upTo va with
    | some (_, info) => info.contains va
    | none =>
      match m.allocatedLookupMapByGva.entries.head? with
      | some (_, info) => info.contains va
      | none => pastEnd

def getGvaByLva (lva : ℕ) : ℕ :=
  if lva = 0 then 0
  else
    match m.allocatedLookupMapByLva.upTo lva with
    | some (_, info) =>
      if info.containsByLva lva then (info.base.gva + (lva - info.base.lva)) % 2 ^ 64 else 0
    | none => 0

/-- The entry that `RemoveOneVaInfo` takes out, with its key. -/
def findOneVaInfo (pastEnd : Bool) (va : ℕ) : Option (ℕ × AllocatedGvaInfo) :=
  let gva := if m.isGva pastEnd va then va else m.getGvaByLva va
  if gva = 0 then none else (m.allocatedLookupMapByGva.lookup gva).map fun info => (gva, info)

def eraseVaInfo (gva : ℕ) (info : AllocatedGvaInfo) : VaManager where
  allocatedLookupMapByLva :=
    match m.allocatedLookupMapByLva.lookup info.base.lva with
    | some other =>
      if other.base.gva = gva then m.allocatedLookupMapByLva.erase info.base.lva
      else m.allocatedLookupMapByLva
    | none => m.allocatedLookupMapByLva
  allocatedLookupMapByMemType := Function.update m.allocatedLookupMapByMemType info.base.memType
    ((m.allocatedLookupMapByMemType info.base.memType).filter fun item => item.base.gva ≠ gva)
  allocatedLookupMapByGva := m.allocatedLookupMapByGva.erase gva

def removeOneVaInfo (pastEnd : Bool) (va : ℕ) : VaManager :=
  match m.findOneVaInfo pastEnd va with
  | some (gva, info) => m.eraseVaInfo gva info
  | none => m

end VaManager

/-! ### Sequences of calls -/

/-- The ways to add a region. -/
inductive AddCall
  | addVaInfo (info : AllocatedGvaInfo)
  | addVaInfoBase (baseInfo : BaseAllocatedGvaInfo) (localRankId : ℕ)
  | addVaInfoFromExternal (baseInfo : BaseAllocatedGvaInfo) (localRankId importedRankId : ℕ)

/-- The record with which `AddVaInfo` is called in the end. -/
def AddCall.info : AddCall → AllocatedGvaInfo
  | .addVaInfo info => info
  | .addVaInfoBase baseInfo localRankId => ⟨baseInfo, false, localRankId, invalidRankId⟩
  | .addVaInfoFromExternal baseInfo localRankId importedRankId =>
    ⟨baseInfo, importedRankId = invalidRankId, localRankId, importedRankId⟩

inductive VaEvent
  | add (call : AddCall)
  | removeOneVaInfo (pastEnd : Bool) (va : ℕ)

/-- The manager, and the regions that have been added successfully and not been removed. -/
structure VaState where
  manager : VaManager
  live : List AllocatedGvaInfo

namespace VaState

/-- A region that is added once more is the same region. -/
def add (s : VaState) (info : AllocatedGvaInfo) : VaState where
  manager := (s.manager.addVaInfo info).2
  live :=
    if (s.manager.addVaInfo info).1 = .ok ∧ ∀ r ∈ s.live, r.base ≠ info.base
    then s.live ++ [info] else s.live

def remove (s : VaState) (pastEnd : Bool) (va : ℕ) : VaState where
  manager := s.manager.removeOneVaInfo pastEnd va
  live :=
    match s.manager.findOneVaInfo pastEnd va with
    | some (_, info) => s.live.filter (· ≠ info)
    | none => s.live

end VaState

def vaSystem : TransitionSystem VaState VaEvent where
  start := ⟨.new, []⟩
  next s
    | .add call =>
      if call.info.base.gva + call.info.base.size < 2 ^ 64 then some (s.add call.info) else none
    | .removeOneVaInfo pastEnd va => some (s.remove pastEnd va)

/-- The ranges of global addresses of two regions have nothing in common. -/
def AllocatedGvaInfo.DisjointFrom (r r' : AllocatedGvaInfo) : Prop :=
  r.base.gva + r.base.size ≤ r'.base.gva ∨ r'.base.gva + r'.base.size ≤ r.base.gva
  deriving Decidable

/-- The three indices hold exactly the live regions, and these are disjoint. -/
structure VaState.IndicesAgree (s : VaState) : Prop where
  byGva : ∀ r ∈ s.live, s.manager.allocatedLookupMapByGva.lookup r.base.gva = some r
  byMemType : ∀ r ∈ s.live, (s.manager.allocatedLookupMapByMemType r.base.memType).count r = 1
  byLva : ∀ r ∈ s.live, r.base.lva ≠ 0 →
    s.manager.allocatedLookupMapByLva.lookup r.base.lva = some r
  ofGva : ∀ k r, s.manager.allocatedLookupMapByGva.lookup k = some r → r ∈ s.live ∧ r.base.gva = k
  ofMemType : ∀ t, ∀ r ∈ s.manager.allocatedLookupMapByMemType t, r ∈ s.live ∧ r.base.memType = t
  ofLva : ∀ k r, s.manager.allocatedLookupMapByLva.lookup k = some r → r ∈ s.live ∧ r.base.lva = k
  disjoint : s.live.Pairwise AllocatedGvaInfo.DisjointFrom

/-- The region has a size and is, for every live region, either that region again or one apart
from it in what `AddVaInfo` does not check: the range across memory types, the local address, and
what `operator==` leaves out. -/
def Exclusive (live : List AllocatedGvaInfo) (info : AllocatedGvaInfo) : Prop :=
  info.base.size ≠ 0 ∧ ∀ r ∈ live, r.base = info.base ∨
    ((r.base.memType ≠ info.base.memType → r.DisjointFrom info) ∧
      (info.base.lva ≠ 0 → r.base.lva ≠ info.base.lva) ∧ r.same info = false)

instance (live : List AllocatedGvaInfo) (info : AllocatedGvaInfo) :
    Decidable (Exclusive live info) :=
  inferInstanceAs (Decidable (_ ∧ _))

/-- Every region that is added successfully is exclusive. -/
def exclusive (s : VaState) : VaEvent → Prop
  | .add call => (s.manager.addVaInfo call.info).1 = .ok → Exclusive s.live call.info
  | .removeOneVaInfo _ _ => True

instance (s : VaState) : ∀ e, Decidable (exclusive s e)
  | .add _ => inferInstanceAs (Decidable (_ → _))
  | .removeOneVaInfo _ _ => inferInstanceAs (Decidable True)

/-! ### The invariant -/

/-- What the indices are made of: the lists are the live regions in the order in which they were
added. -/
structure VaState.Indexed (s : VaState) : Prop where
  gva : ∀ r ∈ s.live, r.base.gva ≠ 0
  bound : ∀ r ∈ s.live, 0 < r.base.size ∧ r.base.gva + r.base.size < 2 ^ 64
  disjoint : s.live.Pairwise AllocatedGvaInfo.DisjointFrom
  byGva : ∀ k r, s.manager.allocatedLookupMapByGva.lookup k = some r ↔ r ∈ s.live ∧ r.base.gva = k
  byMemType : ∀ t, s.manager.allocatedLookupMapByMemType t =
    s.live.filter fun r => r.base.memType = t
  byLva : ∀ r ∈ s.live, r.base.lva ≠ 0 →
    s.manager.allocatedLookupMapByLva.lookup r.base.lva = some r
  ofLva : ∀ k r, s.manager.allocatedLookupMapByLva.lookup k = some r → r ∈ s.live ∧ r.base.lva = k

theorem VaManager.addVaInfo_of_none {m : VaManager} {info : AllocatedGvaInfo}
    (hgva : info.base.gva ≠ 0) (hsize : info.base.size ≠ 0) (hbutt : info.base.memType ≠ .butt)
    (hnone : m.checkOverlap info.base.gva info.base.size info.base.memType = (false, .unset)) :
    m.addVaInfo info = (.ok, m.enterVaInfo info) := by
  have hunset : AllocatedGvaInfo.unset.same info = false := by
    simp [AllocatedGvaInfo.same, AllocatedGvaInfo.unset, Ne.symm hgva]
  rw [VaManager.addVaInfo, if_neg hgva, if_neg hsize, if_neg hbutt]
  simp [hnone, hunset]

namespace VaState.Indexed

variable {s : VaState} {info : AllocatedGvaInfo}

section

variable (h : s.Indexed)
include h

theorem eq_of_gva {r r' : AllocatedGvaInfo} (hr : r ∈ s.live) (hr' : r' ∈ s.live)
    (heq : r.base.gva = r'.base.gva) : r = r' := by
  have hlook := (h.byGva _ _).mpr ⟨hr, heq⟩
  rw [(h.byGva _ _).mpr ⟨hr', rfl⟩] at hlook
  exact (some_inj.mp hlook).symm

theorem nodup : s.live.Nodup := by
  refine h.disjoint.imp_of_mem ?_
  rintro r r' hr - hdisj rfl
  have hpos := (h.bound r hr).1
  rcases hdisj with hle | hle
  · omega
  · omega

theorem indicesAgree : s.IndicesAgree where
  byGva := fun r hr => (h.byGva _ r).mpr ⟨hr, rfl⟩
  byMemType := by
    intro r hr
    rw [h.byMemType, count_filter (by simp)]
    exact count_eq_one_of_mem h.nodup hr
  byLva := h.byLva
  ofGva := fun k r => (h.byGva k r).mp
  ofMemType := by
    intro t r hr
    rw [h.byMemType, mem_filter] at hr
    exact ⟨hr.1, by simpa using hr.2⟩
  ofLva := h.ofLva
  disjoint := h.disjoint

/-- What `CheckOverlap` finds is a live region of the type, and if it finds nothing then the new
region is apart from all of these. -/
theorem checkOverlap (hwrap : info.base.gva + info.base.size < 2 ^ 64) :
    ((s.manager.checkOverlap info.base.gva info.base.size info.base.memType).1 = true ∧
      (s.manager.checkOverlap info.base.gva info.base.size info.base.memType).2 ∈ s.live) ∨
    (s.manager.checkOverlap info.base.gva info.base.size info.base.memType = (false, .unset) ∧
      ∀ r ∈ s.live, r.base.memType = info.base.memType → r.DisjointFrom info) := by
  rw [VaManager.checkOverlap, h.byMemType]
  split
  · rename_i r hfind
    exact .inl ⟨rfl, (mem_filter.mp (mem_of_find?_eq_some hfind)).1⟩
  rename_i hfind
  refine .inr ⟨rfl, fun r hr htype => ?_⟩
  have hnot := find?_eq_none.mp hfind r (mem_filter.mpr ⟨hr, by simpa using htype⟩)
  obtain ⟨hpos, hbound⟩ := h.bound r hr
  simp only [AllocatedGvaInfo.endAddress, Nat.mod_eq_of_lt hbound, Nat.mod_eq_of_lt hwrap,
    decide_eq_true_eq] at hnot
  rw [AllocatedGvaInfo.DisjointFrom]
  omega

section

variable (hpos : 0 < info.base.size) (hwrap : info.base.gva + info.base.size < 2 ^ 64)
  (hdisj : ∀ r ∈ s.live, r.DisjointFrom info)
include hpos hwrap hdisj

theorem checkOverlap_none :
    s.manager.checkOverlap info.base.gva info.base.size info.base.memType = (false, .unset) := by
  rw [VaManager.checkOverlap, h.byMemType]
  split
  · rename_i r hfind
    have hr := (mem_filter.mp (mem_of_find?_eq_some hfind)).1
    obtain ⟨hposr, hbound⟩ := h.bound r hr
    have hfound := find?_some hfind
    simp only [AllocatedGvaInfo.endAddress, Nat.mod_eq_of_lt hbound, Nat.mod_eq_of_lt hwrap,
      decide_eq_true_eq] at hfound
    have hapart := hdisj r hr
    rw [AllocatedGvaInfo.DisjointFrom] at hapart
    omega
  · rfl

theorem enter (hne : info.base.gva ≠ 0)
    (hlva : info.base.lva ≠ 0 → ∀ r ∈ s.live, r.base.lva ≠ info.base.lva) :
    VaState.Indexed ⟨s.manager.enterVaInfo info, s.live ++ [info]⟩ where
  gva := by
    intro r hr
    rcases mem_append.mp hr with hr | hr
    · exact h.gva r hr
    · rwa [mem_singleton.mp hr]
  bound := by
    intro r hr
    rcases mem_append.mp hr with hr | hr
    · exact h.bound r hr
    · rw [mem_singleton.mp hr]
      exact ⟨hpos, hwrap⟩
  disjoint := by
    rw [pairwise_append]
    refine ⟨h.disjoint, pairwise_singleton _ _, fun r hr r' hr' => ?_⟩
    rw [mem_singleton.mp hr']
    exact hdisj r hr
  byGva := by
    intro k r
    have hgva : ∀ r ∈ s.live, r.base.gva ≠ info.base.gva := by
      intro r hr heq
      have hr' := (h.bound r hr).1
      have happart := hdisj r hr
      rw [AllocatedGvaInfo.DisjointFrom] at happart
      omega
    dsimp only [VaManager.enterVaInfo]
    rw [lookup_insert, update_eq_some_iff, h.byGva, mem_append, mem_singleton, some_inj]
    constructor
    · rintro (⟨rfl, rfl⟩ | ⟨-, hr, hk⟩)
      · exact ⟨.inr rfl, rfl⟩
      · exact ⟨.inl hr, hk⟩
    · rintro ⟨hr | rfl, rfl⟩
      · exact .inr ⟨hgva r hr, hr, rfl⟩
      · exact .inl ⟨rfl, rfl⟩
  byMemType := by
    intro t
    dsimp only [VaManager.enterVaInfo]
    rw [filter_append, filter_singleton, Function.update_apply, h.byMemType, h.byMemType]
    by_cases ht : t = info.base.memType
    · simp [ht]
    · simp [ht, Ne.symm ht]
  byLva := by
    intro r hr hne
    dsimp only [VaManager.enterVaInfo]
    rw [lookup_insert, update_eq_some_iff]
    rcases mem_append.mp hr with hr | hr
    · by_cases heq : r.base.lva = info.base.lva
      · exact absurd heq (hlva (by rwa [← heq]) r hr)
      · exact .inr ⟨heq, h.byLva r hr hne⟩
    · rw [mem_singleton.mp hr]
      exact .inl ⟨rfl, rfl⟩
  ofLva := by
    intro k r hk
    dsimp only [VaManager.enterVaInfo] at hk
    rw [lookup_insert, update_eq_some_iff] at hk
    rcases hk with ⟨rfl, hr⟩ | ⟨-, hk⟩
    · rw [some_inj] at hr
      exact ⟨mem_append_right _ (mem_singleton.mpr hr.symm), congrArg (·.base.lva) hr.symm⟩
    · obtain ⟨hr, hk⟩ := h.ofLva k r hk
      exact ⟨mem_append_left _ hr, hk⟩

end

theorem add (hwrap : info.base.gva + info.base.size < 2 ^ 64)
    (hok : (s.manager.addVaInfo info).1 = .ok → Exclusive s.live info) : (s.add info).Indexed := by
  -- Where the manager does not change, the region is refused, of size zero or a live one again.
  have hkeep : (s.manager.addVaInfo info).2 = s.manager →
      ((s.manager.addVaInfo info).1 = .ok → ∃ r ∈ s.live, r.base = info.base) →
      (s.add info).Indexed := by
    intro hmanager hlive
    rw [VaState.add, if_neg, hmanager]
    · exact h
    rintro ⟨hres, hnone⟩
    obtain ⟨r, hr, heq⟩ := hlive hres
    exact hnone r hr heq
  by_cases hgva : info.base.gva = 0
  · have hadd : s.manager.addVaInfo info = (.error, s.manager) := if_pos hgva
    exact hkeep (by rw [hadd]) (by simp [hadd])
  by_cases hsize : info.base.size = 0
  · have hadd : s.manager.addVaInfo info = (.ok, s.manager) := by
      rw [VaManager.addVaInfo, if_neg hgva, if_pos hsize]
    exact absurd hsize (hok (by rw [hadd])).1
  by_cases hbutt : info.base.memType = .butt
  · have hadd : s.manager.addVaInfo info = (.error, s.manager) := by
      rw [VaManager.addVaInfo, if_neg hgva, if_neg hsize, if_pos hbutt]
    exact hkeep (by rw [hadd]) (by simp [hadd])
  rcases h.checkOverlap hwrap with ⟨hfound, hmem⟩ | ⟨hnone, hdisj⟩
  · by_cases hsame : (s.manager.checkOverlap info.base.gva info.base.size
      info.base.memType).2.same info = true
    · have hadd : s.manager.addVaInfo info = (.ok, s.manager) := by
        rw [VaManager.addVaInfo, if_neg hgva, if_neg hsize, if_neg hbutt]
        simp [hsame]
      refine hkeep (by rw [hadd]) fun hres => ⟨_, hmem, ?_⟩
      rcases (hok hres).2 _ hmem with heq | ⟨-, -, hother⟩
      · exact heq
      · rw [hsame] at hother
        cases hother
    have hadd : s.manager.addVaInfo info = (.error, s.manager) := by
      rw [VaManager.addVaInfo, if_neg hgva, if_neg hsize, if_neg hbutt]
      simp [hfound, hsame]
    exact hkeep (by rw [hadd]) (by simp [hadd])
  have hadd := VaManager.addVaInfo_of_none hgva hsize hbutt hnone
  obtain ⟨-, hapart⟩ := hok (by rw [hadd])
  have hbase : ∀ r ∈ s.live, r.base ≠ info.base := by
    intro r hr heq
    have happart := hdisj r hr (by rw [heq])
    rw [AllocatedGvaInfo.DisjointFrom, heq] at happart
    omega
  rw [VaState.add, if_pos ⟨by rw [hadd], hbase⟩, hadd]
  refine h.enter (Nat.pos_of_ne_zero hsize) hwrap ?_ hgva ?_
  · intro r hr
    by_cases htype : r.base.memType = info.base.memType
    · exact hdisj r hr htype
    · exact ((hapart r hr).resolve_left (hbase r hr)).1 htype
  · intro hlva r hr
    exact ((hapart r hr).resolve_left (hbase r hr)).2.1 hlva

theorem erase (hinfo : info ∈ s.live) :
    VaState.Indexed ⟨s.manager.eraseVaInfo info.base.gva info, s.live.filter (· ≠ info)⟩ := by
  have hgva : ∀ {r}, r ∈ s.live → (r.base.gva = info.base.gva ↔ r = info) := by
    intro r hr
    constructor
    · exact h.eq_of_gva hr hinfo
    · intro heq
      rw [heq]
  have hmem : ∀ {r}, r ∈ s.live.filter (· ≠ info) ↔ r ∈ s.live ∧ r ≠ info := by
    simp
  -- The entry of the local address goes only if it is the one of this region.
  have hlva : ∀ k r, (s.manager.eraseVaInfo info.base.gva info).allocatedLookupMapByLva.lookup k =
      some r ↔ s.manager.allocatedLookupMapByLva.lookup k = some r ∧ r ≠ info := by
    intro k r
    have hkey : s.manager.allocatedLookupMapByLva.lookup k = some info → k = info.base.lva :=
      fun hk => (h.ofLva k info hk).2.symm
    dsimp only [VaManager.eraseVaInfo]
    split
    · rename_i other hother
      have hlive := (h.ofLva _ other hother).1
      split
      · rename_i heq
        rw [(hgva hlive).mp heq] at hother
        rw [lookup_erase, update_eq_some_iff]
        constructor
        · rintro (⟨-, hno⟩ | ⟨hne, hk⟩)
          · cases hno
          refine ⟨hk, ?_⟩
          rintro rfl
          exact hne (hkey hk)
        rintro ⟨hk, hne⟩
        refine .inr ⟨?_, hk⟩
        rintro rfl
        rw [hother, some_inj] at hk
        exact hne hk.symm
      rename_i hne
      rw [iff_self_and]
      rintro hk rfl
      rw [← hkey hk, hk, some_inj] at hother
      exact hne (by rw [hother])
    rename_i hnone
    rw [iff_self_and]
    rintro hk rfl
    rw [← hkey hk, hk] at hnone
    cases hnone
  constructor
  · intro r hr
    exact h.gva r (hmem.mp hr).1
  · intro r hr
    exact h.bound r (hmem.mp hr).1
  · exact h.disjoint.filter _
  · intro k r
    dsimp only [VaManager.eraseVaInfo]
    rw [lookup_erase, update_eq_some_iff, h.byGva, hmem]
    constructor
    · rintro (⟨-, hno⟩ | ⟨hne, hr, rfl⟩)
      · cases hno
      · exact ⟨⟨hr, fun heq => hne ((hgva hr).mpr heq)⟩, rfl⟩
    · rintro ⟨⟨hr, hne⟩, rfl⟩
      exact .inr ⟨fun heq => hne ((hgva hr).mp heq), hr, rfl⟩
  · intro t
    dsimp only [VaManager.eraseVaInfo]
    rw [Function.update_apply, h.byMemType, h.byMemType, List.filter_filter, List.filter_filter]
    split
    · rename_i ht
      refine filter_congr fun r hr => ?_
      simp [ht, hgva hr, Bool.and_comm]
    rename_i ht
    refine filter_congr fun r hr => ?_
    have hother : r.base.memType = t → r ≠ info := by
      rintro hr rfl
      exact ht hr.symm
    simpa using hother
  · intro r hr hne
    obtain ⟨hr, hother⟩ := hmem.mp hr
    exact (hlva _ r).mpr ⟨h.byLva r hr hne, hother⟩
  intro k r hk
  obtain ⟨hk, hother⟩ := (hlva k r).mp hk
  obtain ⟨hr, hk⟩ := h.ofLva k r hk
  exact ⟨hmem.mpr ⟨hr, hother⟩, hk⟩

theorem remove (pastEnd : Bool) (va : ℕ) : (s.remove pastEnd va).Indexed := by
  rw [VaState.remove, VaManager.removeOneVaInfo]
  cases hfind : s.manager.findOneVaInfo pastEnd va with
  | none => exact h
  | some entry =>
    obtain ⟨gva, info⟩ := entry
    obtain ⟨-, hfind⟩ := ite_none_left_eq_some.mp hfind
    obtain ⟨r, hlook, heq⟩ := map_eq_some_iff.mp hfind
    rw [Prod.mk.injEq] at heq
    rw [heq.1, heq.2, h.byGva] at hlook
    rw [← hlook.2]
    exact h.erase hlook.1

theorem findOneVaInfo_of_lookup (pastEnd : Bool) {gva : ℕ} (hgva : gva ≠ 0)
    (hlook : s.manager.allocatedLookupMapByGva.lookup gva = some info) :
    s.manager.findOneVaInfo pastEnd gva = some (gva, info) := by
  obtain ⟨hlive, hkey⟩ := (h.byGva _ _).mp hlook
  obtain ⟨hpos, hbound⟩ := h.bound info hlive
  have hcont : info.contains gva = true := by
    rw [AllocatedGvaInfo.contains, Nat.mod_eq_of_lt hbound, hkey]
    simp [hpos]
  have hisGva : s.manager.isGva pastEnd gva = true := by
    rw [VaManager.isGva, if_neg hgva]
    cases hup : s.manager.allocatedLookupMapByGva.upTo gva with
    | none =>
      have hlt := upTo_eq_none_iff.mp hup gva info hlook
      exact absurd hlt (lt_irrefl gva)
    | some entry =>
      -- no key is nearer than the address itself
      obtain ⟨hentry, hle, hall⟩ := upTo_eq_some hup
      have hsame : entry.1 = gva := le_antisymm hle (hall gva info hlook le_rfl)
      rw [hsame, hlook, some_inj] at hentry
      show entry.2.contains gva = true
      rw [← hentry]
      exact hcont
  rw [VaManager.findOneVaInfo, if_pos hisGva, if_neg hgva, hlook]
  rfl

theorem findOneVaInfo_of_none (pastEnd : Bool) {gva : ℕ}
    (hlva : ∀ r ∈ s.live, r.base.lva = r.base.gva)
    (hlook : s.manager.allocatedLookupMapByGva.lookup gva = none) :
    s.manager.findOneVaInfo pastEnd gva = none := by
  have hfound : s.manager.getGvaByLva gva = 0 ∨ s.manager.getGvaByLva gva = gva := by
    rw [VaManager.getGvaByLva]
    split
    · exact .inl rfl
    split
    · next entry info hup =>
      obtain ⟨hentry, -⟩ := upTo_eq_some hup
      obtain ⟨hlive, -⟩ := h.ofLva _ _ hentry
      obtain ⟨-, hbound⟩ := h.bound info hlive
      split
      · next hcont =>
        rw [AllocatedGvaInfo.containsByLva] at hcont
        split at hcont
        · cases hcont
        rw [hlva info hlive, Nat.mod_eq_of_lt hbound, decide_eq_true_eq] at hcont
        rw [hlva info hlive, Nat.add_sub_cancel' hcont.1]
        exact .inr (Nat.mod_eq_of_lt (hcont.2.trans hbound))
      · exact .inl rfl
    · exact .inl rfl
  have hnone : ∀ found : ℕ, found = 0 ∨ found = gva → (if found = 0 then none else
        (s.manager.allocatedLookupMapByGva.lookup found).map fun info => (found, info)) = none := by
    rintro found (rfl | rfl)
    · rfl
    · rw [hlook, map_none, ite_self]
  rw [VaManager.findOneVaInfo]
  split
  · exact hnone gva (.inr rfl)
  · exact hnone _ hfound

end

end VaState.Indexed

theorem VaState.Indexed.of_exclusive {s : VaState} (hs : vaSystem.ReachableBy exclusive s) :
    s.Indexed := by
  refine hs.invariant (I := VaState.Indexed) ?_ ?_
  · exact ⟨nofun, nofun, .nil, by simp [vaSystem, VaManager.new], fun _ => rfl, nofun,
      by simp [vaSystem, VaManager.new]⟩
  intro s s' e h hok hnext
  cases e with
  | add call =>
    obtain ⟨hwrap, rfl⟩ := of_guard hnext
    exact h.add hwrap hok
  | removeOneVaInfo pastEnd va =>
    rw [← some_inj.mp hnext]
    exact h.remove pastEnd va

/-- In every run whose calls meet `exclusive` the indices agree. -/
theorem indexed_of_exclusive {s : VaState} (hs : vaSystem.ReachableBy exclusive s) :
    s.IndicesAgree :=
  (VaState.Indexed.of_exclusive hs).indicesAgree

/-- A local region, one imported from rank 1, the first one again, and its removal by its local
address. -/
theorem indexed_of_exclusive_four_calls :
    ∃ s, vaSystem.ReachableBy exclusive s ∧
      s.live = [⟨⟨8192, 4096, .host, 0⟩, false, 0, 1⟩] ∧ s.IndicesAgree := by
  refine TransitionSystem.exists_reachableBy [.add (.addVaInfoBase ⟨4096, 4096, .device, 65536⟩ 0),
    .add (.addVaInfoFromExternal ⟨8192, 4096, .host, 0⟩ 0 1), .add (.addVaInfoFromExternal ⟨4096,
    4096, .device, 65536⟩ 0 invalidRankId), .removeOneVaInfo false 65536] VaState.live [⟨⟨8192,
    4096, .host, 0⟩, false, 0, 1⟩] ?_ fun s hreach hlive => ?_
  · decide +kernel
  exact ⟨hlive, indexed_of_exclusive hreach⟩

/-- Two regions of different types are entered at one address. -/
theorem overlap_across_types :
    ∃ s, vaSystem.Reachable s ∧
      s.live = [⟨⟨4096, 4096, .host, 0⟩, false, 0, 1⟩, ⟨⟨4096, 4096, .device, 0⟩, false, 0, 1⟩] ∧
      s.manager.allocatedLookupMapByGva.entries =
        [(4096, ⟨⟨4096, 4096, .device, 0⟩, false, 0, 1⟩)] ∧
      ¬ s.IndicesAgree := by
  refine TransitionSystem.exists_reachable [.add (.addVaInfoFromExternal ⟨4096, 4096, .host, 0⟩ 0
    1), .add (.addVaInfoFromExternal ⟨4096, 4096, .device, 0⟩ 0 1)] (fun s => (s.live,
    s.manager.allocatedLookupMapByGva.entries)) ([⟨⟨4096, 4096, .host, 0⟩, false, 0, 1⟩, ⟨⟨4096,
    4096, .device, 0⟩, false, 0, 1⟩], [(4096, ⟨⟨4096, 4096, .device, 0⟩, false, 0, 1⟩)]) ?_
    fun s _ heq => ?_
  · decide +kernel
  rw [Prod.mk.injEq] at heq
  refine ⟨heq.1, heq.2, fun hagree => ?_⟩
  have hdisj := hagree.disjoint
  rw [heq.1] at hdisj
  nomatch hdisj

end Hybm
