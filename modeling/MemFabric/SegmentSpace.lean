/-
The address space of a memory segment.

A segment reserves one range of addresses for all ranks: from the manager of virtual addresses,
which looks for the first gap among the reserved ranges, or, the legacy device segment, from the
driver in chunks, one below the other.
-/
import MemFabric.GvaHeap
import MemFabric.VmmSegment

namespace Hybm

open Nat Option List OrderedMap

/-- `HYBM_GVM_START_ADDR` and `HYBM_GVM_END_ADDR`, between which the manager reserves. -/
def gvmStartAddr : ℕ := 0x280000000000

def gvmEndAddr : ℕ := 0xA80000000000

/-- `SVM_END_ADDR`, below which the driver reserves. -/
def svmEndAddr : ℕ := Gva.svmMemStart + Gva.svmMemSize - Gva.heapSize

/-! ### The manager -/

structure ReservedGvaInfo where
  start : ℕ
  size : ℕ
  memType : MemType
  localRankId : ℕ
  deriving DecidableEq

namespace ReservedGvaInfo

def unset : ReservedGvaInfo := ⟨0, 0, .device, 0⟩

/-- `End`. -/
def endAddress (info : ReservedGvaInfo) : ℕ := (info.start + info.size) % 2 ^ 64

end ReservedGvaInfo

/-- `reservedLookupMapByGva_`. -/
abbrev ReservedMap := OrderedMap ℕ ReservedGvaInfo

/-- The loop of `FindFreeSpace`, from `current` on. -/
def findGap (endAddr size : ℕ) : ℕ → List (ℕ × ℕ) → Option ℕ
  | current, [] => if size ≤ (endAddr + 2 ^ 64 - current) % 2 ^ 64 then some current else none
  | current, range :: ranges =>
    if current < range.1 ∧ size ≤ range.1 - current then some current
    else findGap endAddr size (max current range.2) ranges

namespace ReservedMap

/-- The used ranges that begin in the space.  The map is in the order of the first addresses, so
that sorting them changes nothing. -/
def usedRanges (m : ReservedMap) (start endAddr : ℕ) : List (ℕ × ℕ) :=
  (m.entries.filter fun e => start ≤ e.2.start ∧ e.2.start < endAddr).map
    fun e => (e.2.start, e.2.endAddress)

def findFreeSpace (m : ReservedMap) (start endAddr size : ℕ) : Option ℕ :=
  if size = 0 ∨ endAddr ≤ start ∨ endAddr - start < size then none
  else if m.usedRanges start endAddr = [] then some start
  else findGap endAddr size start (m.usedRanges start endAddr)

def allocReserveGva (m : ReservedMap) (localRankId size : ℕ) (memType : MemType) :
    ReservedGvaInfo × ReservedMap :=
  if size = 0 then (.unset, m)
  else
    match m.findFreeSpace gvmStartAddr gvmEndAddr size with
    | none => (.unset, m)
    | some freeAddr =>
      let result : ReservedGvaInfo := ⟨freeAddr, size, memType, localRankId⟩
      (result, m.insert freeAddr result)

def freeReserveGva (m : ReservedMap) (addr : ℕ) : ReservedMap :=
  if addr = 0 then m else m.erase addr

/-- The ranges are within the space and have no address in common. -/
structure Apart (m : ReservedMap) : Prop where
  start : ∀ {k info}, m.lookup k = some info → info.start = k
  within : ∀ {k info}, m.lookup k = some info →
    gvmStartAddr ≤ k ∧ 0 < info.size ∧ k + info.size ≤ gvmEndAddr
  apart : ∀ {k info k' info'}, m.lookup k = some info → m.lookup k' = some info' →
    k < k' → k + info.size ≤ k'

/-- From `a` on the size is free: within the space, and apart from every range. -/
structure Gap (m : ReservedMap) (size a : ℕ) : Prop where
  pos : 0 < size
  lo : gvmStartAddr ≤ a
  hi : a + size ≤ gvmEndAddr
  free : ∀ {k info}, m.lookup k = some info → a + size ≤ k ∨ k + info.size ≤ a

end ReservedMap

inductive ReserveStep
  | allocReserveGva (localRankId size : ℕ) (memType : MemType)
  | freeReserveGva (addr : ℕ)

def reserveSystem : TransitionSystem ReservedMap ReserveStep where
  start := OrderedMap.empty
  next m
    | .allocReserveGva localRankId size memType =>
      some (m.allocReserveGva localRankId size memType).2
    | .freeReserveGva addr => some (m.freeReserveGva addr)

/-! ### Gaps -/

theorem findGap_spec {endAddr size : ℕ} (hend : endAddr < 2 ^ 64) :
    ∀ {ranges : List (ℕ × ℕ)} {current a : ℕ}, current ≤ endAddr →
      (∀ r ∈ ranges, r.1 ≤ r.2 ∧ r.2 ≤ endAddr) → ranges.Pairwise (fun r r' => r.1 < r'.1) →
      findGap endAddr size current ranges = some a →
      current ≤ a ∧ a + size ≤ endAddr ∧ ∀ r ∈ ranges, a + size ≤ r.1 ∨ r.2 ≤ a := by
  intro ranges
  induction ranges with
  | nil =>
    intro current a hcur _ _ hgap
    rw [findGap, show endAddr + 2 ^ 64 - current = endAddr - current + 2 ^ 64 by omega,
      add_mod_right, mod_eq_of_lt (by omega)] at hgap
    obtain ⟨hsize, rfl⟩ := of_guard hgap
    exact ⟨le_rfl, by omega, nofun⟩
  | cons range ranges ih =>
    intro current a hcur hranges hsort hgap
    obtain ⟨hle, hrange⟩ := hranges range mem_cons_self
    obtain ⟨hfirst, hsort⟩ := pairwise_cons.mp hsort
    rw [findGap] at hgap
    split at hgap
    · next hfits =>
      obtain rfl := some.inj hgap
      refine ⟨le_rfl, by omega, fun r hr => .inl ?_⟩
      rcases mem_cons.mp hr with rfl | hr
      · omega
      · have hlater := hfirst r hr
        omega
    obtain ⟨hmax, hfits, hapart⟩ := ih (max_le hcur hrange)
      (fun r hr => hranges r (mem_cons_of_mem _ hr)) hsort hgap
    refine ⟨(le_max_left _ _).trans hmax, hfits, fun r hr => ?_⟩
    rcases mem_cons.mp hr with rfl | hr
    · exact .inr ((le_max_right _ _).trans hmax)
    · exact hapart r hr

theorem findGap_le {endAddr size b : ℕ} (hend : endAddr < 2 ^ 64) (hpos : 0 < size)
    (hb : b + size ≤ endAddr) : ∀ {ranges : List (ℕ × ℕ)} {current : ℕ}, current ≤ b →
      (∀ r ∈ ranges, b + size ≤ r.1 ∨ r.2 ≤ b) →
      ∃ a ≤ b, findGap endAddr size current ranges = some a := by
  intro ranges
  induction ranges with
  | nil =>
    intro current hcur _
    refine ⟨current, hcur, if_pos ?_⟩
    rw [show endAddr + 2 ^ 64 - current = endAddr - current + 2 ^ 64 by omega, add_mod_right,
      mod_eq_of_lt (by omega)]
    omega
  | cons range ranges ih =>
    intro current hcur hranges
    rw [findGap]
    split
    · exact ⟨current, hcur, rfl⟩
    next hfits =>
    refine ih (max_le hcur ?_) fun r hr => hranges r (mem_cons_of_mem _ hr)
    -- a gap in front of the range would have been large enough from `current` on
    rcases hranges range mem_cons_self with hbefore | hbehind
    · exact absurd ⟨by omega, by omega⟩ hfits
    · exact hbehind

namespace ReservedMap.Apart

variable {m : ReservedMap}

theorem empty : ReservedMap.Apart OrderedMap.empty where
  start h := nomatch h
  within h := nomatch h
  apart h := nomatch h

section

variable (h : m.Apart)
include h

theorem endAddress {k : ℕ} {info : ReservedGvaInfo} (hinfo : m.lookup k = some info) :
    info.endAddress = k + info.size := by
  obtain ⟨-, -, hend⟩ := h.within hinfo
  rw [ReservedGvaInfo.endAddress, h.start hinfo]
  exact mod_eq_of_lt (hend.trans_lt (by decide))

theorem mem_usedRanges {r : ℕ × ℕ} : r ∈ m.usedRanges gvmStartAddr gvmEndAddr ↔
    ∃ info, m.lookup r.1 = some info ∧ r.2 = r.1 + info.size := by
  rw [usedRanges, List.mem_map]
  constructor
  · rintro ⟨⟨k, info⟩, hmem, rfl⟩
    have hinfo := mem_entries_iff.mp (mem_filter.mp hmem).1
    refine ⟨info, ?_, ?_⟩
    · rw [h.start hinfo]
      exact hinfo
    · rw [h.start hinfo]
      exact h.endAddress hinfo
  rintro ⟨info, hinfo, hend⟩
  obtain ⟨hlo, hpos, hhi⟩ := h.within hinfo
  refine ⟨(r.1, info), mem_filter.mpr ⟨mem_entries_iff.mpr hinfo, ?_⟩, ?_⟩
  · rw [decide_eq_true_eq]
    show gvmStartAddr ≤ info.start ∧ info.start < gvmEndAddr
    rw [h.start hinfo]
    exact ⟨hlo, by omega⟩
  · rw [h.start hinfo, h.endAddress hinfo, ← hend]

theorem sorted_usedRanges :
    (m.usedRanges gvmStartAddr gvmEndAddr).Pairwise fun r r' => r.1 < r'.1 := by
  rw [usedRanges, pairwise_map]
  refine (m.sorted.filter _).imp_of_mem ?_
  rintro ⟨k, info⟩ ⟨k', info'⟩ hmem hmem' hlt
  have hinfo := mem_entries_iff.mp (mem_filter.mp hmem).1
  have hinfo' := mem_entries_iff.mp (mem_filter.mp hmem').1
  rw [h.start hinfo, h.start hinfo']
  exact hlt

theorem findFreeSpace {size a : ℕ} (hfree : m.findFreeSpace gvmStartAddr gvmEndAddr size = some a) :
    m.Gap size a := by
  unfold ReservedMap.findFreeSpace at hfree
  split at hfree
  · cases hfree
  next hsize =>
    have hpos : 0 < size := by omega
    have hgap : gvmStartAddr ≤ a ∧ a + size ≤ gvmEndAddr ∧
        ∀ r ∈ m.usedRanges gvmStartAddr gvmEndAddr, a + size ≤ r.1 ∨ r.2 ≤ a := by
      split at hfree
      · next hempty =>
        obtain rfl := some.inj hfree
        rw [hempty]
        exact ⟨le_rfl, by omega, nofun⟩
      refine findGap_spec (by decide) (by decide) (fun r hr => ?_) h.sorted_usedRanges hfree
      obtain ⟨info, hinfo, hend⟩ := h.mem_usedRanges.mp hr
      obtain ⟨-, -, hhi⟩ := h.within hinfo
      rw [hend]
      exact ⟨le_add_right _ _, hhi⟩
    refine ⟨hpos, hgap.1, hgap.2.1, fun {k info} hinfo => ?_⟩
    exact hgap.2.2 (k, k + info.size) (h.mem_usedRanges.mpr ⟨info, hinfo, rfl⟩)

theorem findFreeSpace_le {size b : ℕ} (hb : m.Gap size b) :
    ∃ a ≤ b, m.findFreeSpace gvmStartAddr gvmEndAddr size = some a := by
  obtain ⟨hpos, hlo, hhi, hfree⟩ := hb
  unfold ReservedMap.findFreeSpace
  rw [if_neg (by omega)]
  split
  · exact ⟨gvmStartAddr, hlo, rfl⟩
  refine findGap_le (by decide) hpos hhi hlo fun r hr => ?_
  obtain ⟨info, hinfo, hend⟩ := h.mem_usedRanges.mp hr
  rw [hend]
  exact hfree hinfo

theorem insert {info : ReservedGvaInfo} (hgap : m.Gap info.size info.start) :
    Apart (OrderedMap.insert m info.start info) := by
  refine ⟨fun {k r} hr => ?_, fun {k r} hr => ?_, fun {k r k' r'} hr hr' hlt => ?_⟩
  · rcases lookup_insert_eq_some_iff.mp hr with ⟨rfl, rfl⟩ | ⟨-, hold⟩
    · rfl
    · exact h.start hold
  · rcases lookup_insert_eq_some_iff.mp hr with ⟨rfl, rfl⟩ | ⟨-, hold⟩
    · exact ⟨hgap.lo, hgap.pos, hgap.hi⟩
    · exact h.within hold
  rcases lookup_insert_eq_some_iff.mp hr with ⟨hk, hnew⟩ | ⟨-, hold⟩
  · rcases lookup_insert_eq_some_iff.mp hr' with ⟨hk', -⟩ | ⟨-, hold'⟩
    · omega
    rw [hk, hnew]
    rcases hgap.free hold' with hle | hle
    · exact hle
    · omega
  rcases lookup_insert_eq_some_iff.mp hr' with ⟨hk', -⟩ | ⟨-, hold'⟩
  · rw [hk']
    rcases hgap.free hold with hle | hle
    · omega
    · exact hle
  · exact h.apart hold hold' hlt

theorem allocReserveGva (localRankId size : ℕ) (memType : MemType) :
    (m.allocReserveGva localRankId size memType).2.Apart ∧
      ∀ {a}, (m.allocReserveGva localRankId size memType).1.start = a → a ≠ 0 →
        (m.allocReserveGva localRankId size memType).2.lookup a =
            some ⟨a, size, memType, localRankId⟩ ∧
          ∀ {k info}, m.lookup k = some info → a + size ≤ k ∨ k + info.size ≤ a := by
  unfold ReservedMap.allocReserveGva
  split
  · exact ⟨h, fun ha hne => absurd ha.symm hne⟩
  split
  · exact ⟨h, fun ha hne => absurd ha.symm hne⟩
  next freeAddr hfree =>
  have hgap := h.findFreeSpace hfree
  refine ⟨@insert m h ⟨freeAddr, size, memType, localRankId⟩ hgap, fun {a} ha _ => ?_⟩
  obtain rfl : freeAddr = a := ha
  exact ⟨lookup_insert_eq_some_iff.mpr (.inl ⟨rfl, rfl⟩), hgap.free⟩

theorem freeReserveGva (addr : ℕ) : (m.freeReserveGva addr).Apart := by
  unfold ReservedMap.freeReserveGva
  split
  · exact h
  have hkeep : ∀ {k info}, (erase m addr).lookup k = some info → m.lookup k = some info :=
    fun hinfo => (lookup_erase_eq_some_iff.mp hinfo).2
  exact ⟨fun hinfo => h.start (hkeep hinfo), fun hinfo => h.within (hkeep hinfo),
    fun hinfo hinfo' => h.apart (hkeep hinfo) (hkeep hinfo')⟩

end

end ReservedMap.Apart

theorem reserved_apart {m : ReservedMap} (h : reserveSystem.Reachable m) : m.Apart := by
  refine h.invariant (I := ReservedMap.Apart) ReservedMap.Apart.empty ?_
  intro m m' a hm _ hnext
  cases a with
  | allocReserveGva localRankId size memType =>
    obtain rfl := some.inj hnext
    exact (hm.allocReserveGva localRankId size memType).1
  | freeReserveGva addr =>
    obtain rfl := some.inj hnext
    exact hm.freeReserveGva addr

theorem ReservedMap.Apart.firstFit {m : ReservedMap} (hm : m.Apart) (localRankId size : ℕ)
    (memType : MemType) :
    match (m.allocReserveGva localRankId size memType).1.start with
    | 0 => (∀ a, ¬ m.Gap size a) ∧ (m.allocReserveGva localRankId size memType).2 = m
    | a => m.Gap size a ∧ (∀ b, m.Gap size b → a ≤ b) ∧
      (m.allocReserveGva localRankId size memType).2 =
        m.insert a ⟨a, size, memType, localRankId⟩ := by
  unfold ReservedMap.allocReserveGva
  split_ifs with hzero
  · exact ⟨fun a hgap => hgap.pos.ne' hzero, rfl⟩
  cases hfree : m.findFreeSpace gvmStartAddr gvmEndAddr size with
  | none =>
    refine ⟨fun b hgap => ?_, rfl⟩
    obtain ⟨a, -, hsome⟩ := hm.findFreeSpace_le hgap
    exact nomatch hfree.symm.trans hsome
  | some freeAddr =>
    have hgap := hm.findFreeSpace hfree
    obtain ⟨a, rfl⟩ := exists_eq_succ_of_ne_zero (hgap.lo.trans_lt' (by decide)).ne'
    refine ⟨hgap, fun b hb => ?_, rfl⟩
    obtain ⟨a', hle, hsome⟩ := hm.findFreeSpace_le hb
    exact (some.inj (hfree.symm.trans hsome)).le.trans hle

/-- The reserved ranges are apart, and a range is reserved at the lowest gap of its size, if there
is one. -/
theorem allocReserveGva_first_fit {m : ReservedMap} (h : reserveSystem.Reachable m)
    (localRankId size : ℕ) (memType : MemType) : m.Apart ∧
      match (m.allocReserveGva localRankId size memType).1.start with
      | 0 => (∀ a, ¬ m.Gap size a) ∧ (m.allocReserveGva localRankId size memType).2 = m
      | a => m.Gap size a ∧ (∀ b, m.Gap size b → a ≤ b) ∧
        (m.allocReserveGva localRankId size memType).2 =
          m.insert a ⟨a, size, memType, localRankId⟩ :=
  ⟨reserved_apart h, (reserved_apart h).firstFit localRankId size memType⟩

/-- The first of two pages is freed, and its place is given out again. -/
theorem allocReserveGva_first_fit_refilled : ∃ m, reserveSystem.Reachable m ∧
    m.entries.map Prod.fst = [gvmStartAddr + 4096] ∧ m.Gap 4096 gvmStartAddr ∧
    (m.allocReserveGva 0 4096 .host).1.start = gvmStartAddr := by
  obtain ⟨m, hm, hseen⟩ := TransitionSystem.exists_of_run (show (reserveSystem.run _
    [.allocReserveGva 0 4096 .host, .allocReserveGva 0 4096 .host,
      .freeReserveGva gvmStartAddr]).map (fun m => (m.entries.map Prod.fst,
        (m.allocReserveGva 0 4096 .host).1.start)) =
      some ([gvmStartAddr + 4096], gvmStartAddr) by decide +kernel)
  obtain ⟨hents, hstart⟩ := Prod.mk.inj hseen
  have hfit := (allocReserveGva_first_fit hm 0 4096 .host).2
  rw [hstart] at hfit
  exact ⟨m, hm, hents, hfit.1, hstart⟩

/-! ### Chunks of the legacy device segment -/

def maxReserveChunk : ℕ := 128 * 2 ^ 30

/-- `GetReserveChunkSize`: the most whole ranks that divide their number and fit a chunk. -/
def getReserveChunkSize (totalSize singleRankSize : ℕ) : ℕ :=
  if totalSize = 0 ∨ singleRankSize = 0 then 0
  else if totalSize ≤ maxReserveChunk then totalSize
  else
    let n := totalSize / singleRankSize
    let baseM := ((List.range' 1 (maxReserveChunk / singleRankSize)).reverse.find?
      fun m => n % m = 0).getD 1
    let result := baseM * singleRankSize
    if totalSize % result ≠ 0 then 0 else result

/-- The answers to one `HalGvaReserveMemory`: whether there is a heap of the driver, and the
address that `VirtAllocGvaMem` gives. -/
structure ChunkReply where
  mgmt : Bool
  retVa : ℕ

/-- What `GvaReserveMemory` asks of the driver: the address of a chunk or a failure, for the number
of the call and the size; and to give a chunk back. -/
structure ChunkDriver (δ : Type) where
  reserve : ℕ → ℕ → δ → Option ℕ × δ
  unreserve : ℕ → δ → δ

/-- How `GvaReserveMemory` ends: in `BM_OK` with the address, in `BM_ERROR`, or in a read of the
last one of no chunks. -/
inductive ReserveEnd (δ : Type)
  | done (address : ℕ) (driver : δ)
  | failed (driver : δ)
  | undefined
  deriving DecidableEq

/-- The loop of `GvaReserveMemory`, with so many calls at most; `chunkMaps` has the last chunk
first.  When a call fails the last chunk is logged, and then only the first one is un-reserved,
before the function returns from within that loop. -/
def reserveChunks {δ : Type} (driver : ChunkDriver δ) (maxChunk size : ℕ) :
    ℕ → δ → ℕ → List ℕ → Option (ReserveEnd δ)
  | 0, d, reserved, chunkMaps =>
    if size ≤ reserved then some (chunkMaps.head?.elim .undefined (.done · d)) else none
  | calls + 1, d, reserved, chunkMaps =>
    if size ≤ reserved then some (chunkMaps.head?.elim .undefined (.done · d))
    else
      let chunk := min maxChunk (size - reserved)
      let r := driver.reserve chunkMaps.length chunk d
      let currentBase := r.1.getD (chunkMaps.headD 0)
      if r.1 = none ∨ currentBase = 0 ∨
          chunkMaps ≠ [] ∧ (currentBase + maxChunk) % 2 ^ 64 ≠ chunkMaps.headD 0 then
        some (chunkMaps.getLast?.elim .undefined fun ptr => .failed (driver.unreserve ptr r.2))
      else
        reserveChunks driver maxChunk size calls r.2 (reserved + chunk) (currentBase :: chunkMaps)

/-- `GvaReserveMemory`.  There is one call for each chunk, or a first one that fails if the chunks
have no size. -/
def gvaReserveMemory {δ : Type} (driver : ChunkDriver δ) (size singleRankSize : ℕ) (d : δ) :
    Option (ReserveEnd δ) :=
  if size = 0 then some (.failed d)
  else
    let maxChunk := getReserveChunkSize size singleRankSize
    reserveChunks driver maxChunk size (max 1 (size / maxChunk)) d 0 []

/-- The address of a chunk that was reserved, where the heap of the driver begins now. -/
def chunkAnswer (r : Bool × Gva.GvaHeap) : Option ℕ × Gva.GvaHeap :=
  (if r.1 then some r.2.start else none, r.2)

/-- The heap of the driver, with what each call is answered. -/
def heapDriver (deviceId : ℤ) (reply : ℕ → ChunkReply) : ChunkDriver Gva.GvaHeap where
  reserve i chunk g :=
    chunkAnswer (g.halGvaReserveMemory chunk deviceId (reply i).mgmt (reply i).retVa)
  unreserve ptr g := g.gvaHeapRemoveReserved ptr

theorem and_mask_eq {x : ℕ} (h : x < 2 ^ 64) : x &&& (2 ^ 64 - 2 ^ 30) = x / 2 ^ 30 * 2 ^ 30 := by
  have hmask : 2 ^ 64 - 2 ^ 30 = (2 ^ 34 - 1) * 2 ^ 30 := by norm_num
  refine eq_of_testBit_eq fun i => ?_
  rw [hmask, testBit_and, testBit_mul_two_pow, testBit_mul_two_pow,
    testBit_two_pow_sub_one, testBit_div_two_pow]
  by_cases hlow : 30 ≤ i
  · by_cases hhigh : i - 30 < 34
    · simp [hlow, hhigh]
    have hzero : x.testBit i = false :=
      Nat.testBit_lt_two_pow (h.trans_le (Nat.pow_le_pow_right (by norm_num) (by omega)))
    simp [hlow, hhigh, hzero]
  · simp [hlow]

theorem le_alignUp {val : ℕ} (h : val < 2 ^ 64) (hne : Gva.alignUp val Gva.heapSize ≠ 0) :
    val ≤ Gva.alignUp val Gva.heapSize := by
  rw [Gva.alignUp, Gva.heapSize, and_mask_eq (mod_lt _ (by norm_num))] at hne ⊢
  have hdiv := div_add_mod ((val + (2 ^ 30 - 1)) % 2 ^ 64) (2 ^ 30)
  have hrest := mod_lt ((val + (2 ^ 30 - 1)) % 2 ^ 64) (show 0 < 2 ^ 30 by norm_num)
  by_cases hwrap : val + (2 ^ 30 - 1) < 2 ^ 64
  · rw [mod_eq_of_lt hwrap] at hdiv hrest ⊢
    omega
  · rw [mod_eq_sub_mod (by omega), mod_eq_of_lt (by omega), div_eq_of_lt (by omega)] at hne
    exact absurd (zero_mul _) hne

theorem halGvaReserveMemory_spec {g : Gva.GvaHeap} (hg : g.BelowTop) {size retVa : ℕ}
    {deviceId : ℤ} {mgmt : Bool} (hsize : size < 2 ^ 64)
    (hok : (g.halGvaReserveMemory size deviceId mgmt retVa).1 = true)
    (hne : (g.halGvaReserveMemory size deviceId mgmt retVa).2.start ≠ 0) :
    (g.halGvaReserveMemory size deviceId mgmt retVa).2.start + size ≤ svmEndAddr := by
  obtain ⟨hzero, -, hstart⟩ := Gva.GvaHeap.reserveChunk_ok hok
  have hle := le_alignUp hsize hzero
  have htop := hg.nextEnd_le
  unfold Gva.GvaHeap.halGvaReserveMemory at hne ⊢
  rw [hstart] at hne ⊢
  unfold svmEndAddr
  omega

theorem chunkAnswer_spec {r : Bool × Gva.GvaHeap} {chunk : ℕ} (hbelow : r.2.BelowTop)
    (hr : r.1 = true → r.2.start ≠ 0 → r.2.start + chunk ≤ svmEndAddr) :
    (chunkAnswer r).2.BelowTop ∧
      ∀ a, (chunkAnswer r).1 = some a → a ≠ 0 → a + chunk ≤ svmEndAddr := by
  refine ⟨hbelow, fun a ha hne => ?_⟩
  obtain ⟨hok, ha⟩ := ite_none_right_eq_some.mp ha
  obtain rfl := some.inj ha
  exact hr hok hne

theorem heapDriver_reserve {g : Gva.GvaHeap} (hg : g.BelowTop) (deviceId : ℤ)
    (reply : ℕ → ChunkReply) (i : ℕ) {chunk : ℕ} (hchunk : chunk < 2 ^ 64) :
    ((heapDriver deviceId reply).reserve i chunk g).2.BelowTop ∧
      ∀ a, ((heapDriver deviceId reply).reserve i chunk g).1 = some a → a ≠ 0 →
        a + chunk ≤ svmEndAddr := by
  have hbelow :
      (g.halGvaReserveMemory chunk deviceId (reply i).mgmt (reply i).retVa).2.BelowTop := by
    unfold Gva.GvaHeap.halGvaReserveMemory
    exact hg.reserveChunk _ deviceId _ _
  have hreserve : (heapDriver deviceId reply).reserve i chunk g =
    chunkAnswer (g.halGvaReserveMemory chunk deviceId (reply i).mgmt (reply i).retVa) := rfl
  rw [hreserve]
  exact chunkAnswer_spec hbelow (halGvaReserveMemory_spec hg hchunk)

/-- What the loop has reserved so far: nothing, or a range whose last chunk is its base.  It goes on
after whole chunks only. -/
def ChunksSoFar (maxChunk size : ℕ) (chunkMaps : List ℕ) (reserved : ℕ) : Prop :=
  reserved ≤ size ∧ match chunkMaps with
  | [] => reserved = 0
  | base :: _ => base ≠ 0 ∧ base + reserved ≤ svmEndAddr ∧ (reserved < size → maxChunk ≤ reserved)

theorem reserveChunks_spec {deviceId : ℤ} {maxChunk size : ℕ} {reply : ℕ → ChunkReply}
    (hsize : size < 2 ^ 64) (hdvd : maxChunk ∣ size ∨ maxChunk = 0) :
    ∀ {calls : ℕ} {g g' : Gva.GvaHeap} {chunkMaps : List ℕ} {reserved address : ℕ}, g.BelowTop →
      ChunksSoFar maxChunk size chunkMaps reserved →
      reserveChunks (heapDriver deviceId reply) maxChunk size calls g reserved chunkMaps =
        some (.done address g') → g'.BelowTop ∧ address + size ≤ svmEndAddr := by
  have hdone : ∀ {g g' : Gva.GvaHeap} {chunkMaps : List ℕ} {reserved address : ℕ}, g.BelowTop →
      ChunksSoFar maxChunk size chunkMaps reserved → size ≤ reserved →
      some (chunkMaps.head?.elim .undefined (ReserveEnd.done · g)) = some (.done address g') →
      g'.BelowTop ∧ address + size ≤ svmEndAddr := by
    intro g g' chunkMaps reserved address hg hsofar hle h
    cases chunkMaps with
    | nil => cases h
    | cons base rest =>
      obtain ⟨hreserved, -, hend, -⟩ := hsofar
      cases h
      exact ⟨hg, by omega⟩
  intro calls
  induction calls with
  | zero =>
    intro g g' chunkMaps reserved address hg hsofar h
    obtain ⟨hle, h⟩ := ite_none_right_eq_some.mp h
    exact hdone hg hsofar hle h
  | succ calls ih =>
    intro g g' chunkMaps reserved address hg hsofar h
    rw [reserveChunks] at h
    split at h
    · next hle => exact hdone hg hsofar hle h
    next hmore =>
    obtain ⟨hg', hchunk⟩ := @heapDriver_reserve g hg deviceId reply chunkMaps.length
      (min maxChunk (size - reserved)) (by omega)
    dsimp only at h
    generalize (heapDriver deviceId reply).reserve chunkMaps.length
      (min maxChunk (size - reserved)) g = r at h hg' hchunk
    obtain ⟨answer, after⟩ := r
    dsimp only at h hg' hchunk
    split at h
    · cases hlast : chunkMaps.getLast? with
      | none => rw [hlast] at h; cases h
      | some ptr => rw [hlast] at h; cases h
    next hgood =>
    rw [not_or, not_or] at hgood
    obtain ⟨hsome, hne, hnext⟩ := hgood
    obtain ⟨a, rfl⟩ := ne_none_iff_exists'.mp hsome
    rw [getD_some] at hne hnext h
    have hend := hchunk a rfl hne
    refine ih hg' ?_ h
    obtain ⟨hreserved, hbefore⟩ := hsofar
    cases chunkMaps with
    | nil =>
      obtain rfl : reserved = 0 := hbefore
      exact ⟨by omega, hne, by omega, fun hlt => by omega⟩
    | cons base rest =>
      obtain ⟨-, hbase, hwhole⟩ := hbefore
      have hwhole := hwhole (by omega)
      refine ⟨by omega, hne, ?_, fun hlt => by omega⟩
      have htop : svmEndAddr < 2 ^ 63 := by decide
      -- Two whole chunks fit the size, so that the addition does not wrap around.
      have hhalf : maxChunk ≤ size - maxChunk := by
        rcases hdvd with hdvd | hzero
        · exact le_of_dvd (by omega) (Nat.dvd_sub hdvd dvd_rfl)
        · omega
      rw [not_and_not_right, headD_cons, mod_eq_of_lt (by omega)] at hnext
      have := hnext (cons_ne_nil base rest)
      omega

theorem dvd_getReserveChunkSize (totalSize singleRankSize : ℕ) :
    getReserveChunkSize totalSize singleRankSize ∣ totalSize ∨
      getReserveChunkSize totalSize singleRankSize = 0 := by
  unfold getReserveChunkSize
  split
  · exact .inr rfl
  split
  · exact .inl dvd_rfl
  dsimp only
  split
  · exact .inr rfl
  · next hrest => exact .inl (dvd_of_mod_eq_zero (not_not.mp hrest))

theorem find_greatest_divisor {n bound : ℕ} (hbound : 0 < bound) :
    ∃ m, (range' 1 bound).reverse.find? (fun m => decide (n % m = 0)) = some m ∧
      IsGreatest {m | 0 < m ∧ m ≤ bound ∧ m ∣ n} m := by
  have hsome : ((range' 1 bound).reverse.find? fun m => decide (n % m = 0)).isSome := by
    refine find?_isSome.mpr ⟨1, mem_reverse.mpr (mem_range'_1.mpr (by omega)), ?_⟩
    simp [Nat.mod_one]
  obtain ⟨m, hm⟩ := isSome_iff_exists.mp hsome
  obtain ⟨hdvd, before, after, hsplit, hbefore⟩ := find?_eq_some_iff_append.mp hm
  have hmem : ∀ {k}, k ∈ before ++ m :: after ↔ 0 < k ∧ k ≤ bound := by
    intro k
    rw [← hsplit, mem_reverse, mem_range'_1]
    omega
  -- the candidates come in descending order
  have hsort : (before ++ m :: after).Pairwise (· > ·) := by
    rw [← hsplit, pairwise_reverse]
    exact pairwise_lt_range' 1 Nat.one_pos
  refine ⟨m, hm, ⟨?_, ?_, dvd_of_mod_eq_zero (of_decide_eq_true hdvd)⟩, ?_⟩
  · exact (hmem.mp (mem_append_right _ mem_cons_self)).1
  · exact (hmem.mp (mem_append_right _ mem_cons_self)).2
  rintro k ⟨hpos, hle, hk⟩
  rcases mem_append.mp (hmem.mpr ⟨hpos, hle⟩) with hk' | hk'
  · have := hbefore k hk'
    simp [mod_eq_zero_of_dvd hk] at this
  rcases mem_cons.mp hk' with rfl | hk'
  · exact le_rfl
  · exact (rel_of_pairwise_cons (pairwise_append.mp hsort).2.1 hk').le

/-- Chunks are as large as they can be. -/
theorem getReserveChunkSize_greatest {s total : ℕ} (hs : 0 < s) (hmax : s ≤ maxReserveChunk)
    (htotal : 0 < total) (hdvd : s ∣ total) :
    getReserveChunkSize total s ∣ total ∧
      (total ≤ maxReserveChunk → getReserveChunkSize total s = total) ∧
      (maxReserveChunk < total → IsGreatest {c | s ∣ c ∧ c ≤ maxReserveChunk ∧ c ∣ total}
        (getReserveChunkSize total s)) ∧
      ((range' 1 (maxReserveChunk / s)).reverse.find? fun m => total / s % m = 0).isSome := by
  obtain ⟨n, rfl⟩ := hdvd
  rw [Nat.mul_div_cancel_left n hs]
  obtain ⟨m, hfind, ⟨hpos, hle, k, rfl⟩, hgreatest⟩ :=
    find_greatest_divisor (n := n) (Nat.div_pos hmax hs)
  rw [hfind]
  unfold getReserveChunkSize
  rw [if_neg (by omega)]
  by_cases hsmall : s * (m * k) ≤ maxReserveChunk
  · rw [if_pos hsmall]
    exact ⟨dvd_rfl, fun _ => rfl, fun hlarge => absurd hsmall (not_le.mpr hlarge), rfl⟩
  have hchunk : m * s ∣ s * (m * k) := ⟨k, by ring⟩
  rw [if_neg hsmall]
  dsimp only
  rw [Nat.mul_div_cancel_left _ hs, hfind, getD_some, mod_eq_zero_of_dvd hchunk,
    if_neg (not_not.mpr rfl)]
  refine ⟨hchunk, fun h => absurd h hsmall, fun _ => ⟨⟨dvd_mul_left s m, ?_, hchunk⟩, ?_⟩, rfl⟩
  · exact (le_div_iff_mul_le hs).mp hle
  -- a multiple of the size that divides the total is a divisor of the quotient
  rintro _ ⟨⟨c, rfl⟩, hc, hdvd⟩
  have hcdvd : c ∣ m * k := (Nat.mul_dvd_mul_iff_left hs).mp hdvd
  have hcpos : 0 < c := pos_of_dvd_of_pos hcdvd ((Nat.mul_pos_iff_of_pos_left hs).mp htotal)
  rw [Nat.mul_comm]
  refine Nat.mul_le_mul_right s (hgreatest ⟨hcpos, (le_div_iff_mul_le hs).mpr ?_, hcdvd⟩)
  rwa [Nat.mul_comm]

theorem getReserveChunkSize_six_ranks :
    getReserveChunkSize (3 * maxReserveChunk) (maxReserveChunk / 2) = maxReserveChunk ∧
    IsGreatest {c | maxReserveChunk / 2 ∣ c ∧ c ≤ maxReserveChunk ∧ c ∣ 3 * maxReserveChunk}
      (getReserveChunkSize (3 * maxReserveChunk) (maxReserveChunk / 2)) := by
  refine ⟨by decide +kernel, ?_⟩
  exact (getReserveChunkSize_greatest (by decide) (by decide) (by decide) (by decide +kernel)).2.2.1
    (by decide)

theorem gvaReserveMemory_spec {g g' : Gva.GvaHeap} (hg : g.BelowTop) {size base : ℕ}
    (hsize : size < 2 ^ 64) {deviceId : ℤ} {singleRankSize : ℕ} {reply : ℕ → ChunkReply}
    (h : gvaReserveMemory (heapDriver deviceId reply) size singleRankSize g =
      some (.done base g')) : g'.BelowTop ∧ base + size ≤ svmEndAddr := by
  unfold gvaReserveMemory at h
  split at h
  · cases h
  exact reserveChunks_spec hsize (dvd_getReserveChunkSize size singleRankSize) hg
    ⟨zero_le _, rfl⟩ h

/-! ### Segments -/

/-- The classes of segments that reserve memory. -/
inductive SegmentKind
  | vmm
  | conn
  | legacy
  deriving DecidableEq

/-- `MemSegmentOptions`, as far as the reservation reads it. -/
structure SegmentOptions where
  segType : Vmm.SegType
  maxSize : ℕ
  rankId : ℕ
  rankCnt : ℕ
  devId : ℤ

/-- What the segments of a process share: the ranges that the manager has reserved, those that
`HalMemAddressReserve` or `mmap` has, and the heap of the driver. -/
structure AddressSpace where
  reserved : ReservedMap
  mapped : List (ℕ × ℕ)
  heap : Gva.GvaHeap

/-- What a reservation is answered: whether the shared memory is prepared (`PrepareShareMemoryFd`),
where the range is reserved (`HalMemAddressReserve`, `mmap`), if it is, and the chunks of the
driver. -/
structure ReserveReplies where
  shareFd : Bool
  base : Option ℕ
  chunks : ℕ → ChunkReply

namespace SegmentOptions

variable (o : SegmentOptions)

/-- The checks of the sizes that the three `ValidateOptions` share. -/
def validSize : Bool :=
  o.maxSize ≠ 0 ∧ o.maxSize % Vmm.largePageSize = 0 ∧ o.rankCnt ≤ (2 ^ 64 - 1) / o.maxSize

def validateOptions : SegmentKind → Bool
  | .vmm => o.validSize
  | .conn => o.segType = .dram ∧ o.validSize
  | .legacy => o.segType = .hbm ∧ 0 ≤ o.devId ∧ o.validSize

def totalSize : ℕ := o.rankCnt * o.maxSize % 2 ^ 64

def memType : MemType := if o.segType = .hbm then .device else .host

/-- What `ReserveMemorySpace` checks before it reserves; `prepared` says that the segment has a
range. -/
def refuses (kind : SegmentKind) (prepared shareFd : Bool) : Bool :=
  prepared || !o.validateOptions kind || match kind with
    | .vmm => o.rankCnt ≤ o.rankId || gvmEndAddr < o.totalSize
    | .conn => !shareFd || gvmEndAddr - gvmStartAddr < o.totalSize
    | .legacy => false

/-- The range that the manager gives. -/
def givenRange (kind : SegmentKind) (sp : AddressSpace) : ReservedGvaInfo × ReservedMap :=
  sp.reserved.allocReserveGva o.rankId o.totalSize (if kind = .conn then .host else o.memType)

/-- The range that the manager gives, and the reservation at its address. -/
def reserveGva (kind : SegmentKind) (sp : AddressSpace) (base : Option ℕ) :
    Option ℕ × AddressSpace :=
  if (o.givenRange kind sp).1.start = 0 then
    (none, { sp with reserved := (o.givenRange kind sp).2 })
  else
    match base with
    | none => (none, { sp with reserved := (o.givenRange kind sp).2 })
    | some address => (if address = (o.givenRange kind sp).1.start then base else none,
        { sp with
          reserved := (o.givenRange kind sp).2
          mapped := (address, o.totalSize) :: sp.mapped })

/-- `ReserveMemorySpace` of the three classes: the base, if it succeeds, and what it leaves. -/
def reserveMemorySpace (kind : SegmentKind) (prepared : Bool) (sp : AddressSpace)
    (replies : ReserveReplies) : Option (Option ℕ × AddressSpace) :=
  if o.refuses kind prepared replies.shareFd then some (none, sp)
  else
    match kind with
    | .vmm | .conn => some (o.reserveGva kind sp replies.base)
    | .legacy =>
      match gvaReserveMemory (heapDriver o.devId replies.chunks) o.totalSize o.maxSize sp.heap with
      | some (.done base heap) =>
        some (if base = 0 then none else some base, { sp with heap := heap })
      | some (.failed heap) => some (none, { sp with heap := heap })
      | _ => none

end SegmentOptions

namespace AddressSpace

/-- The ranges of the manager are apart, and the driver's are below the end of its addresses. -/
structure Sound (sp : AddressSpace) : Prop where
  reserved : sp.reserved.Apart
  heap : sp.heap.BelowTop

/-- The range is one of the manager's or one of the driver's. -/
def Holds (sp : AddressSpace) (base size : ℕ) : Prop :=
  (∃ info, sp.reserved.lookup base = some info ∧ info.size = size) ∨ base + size ≤ svmEndAddr

theorem Sound.lt_of_holds {sp : AddressSpace} (h : sp.Sound) {base size : ℕ}
    (hholds : sp.Holds base size) : base + size < 2 ^ 63 := by
  rcases hholds with ⟨info, hinfo, rfl⟩ | hle
  · exact (h.reserved.within hinfo).2.2.trans_lt (by decide)
  · exact hle.trans_lt (by decide)

end AddressSpace

namespace SegmentOptions

variable {o : SegmentOptions} {sp sp' : AddressSpace} {base : ℕ}

theorem totalSize_of_validSize (h : o.validSize = true) :
    0 < o.maxSize ∧ o.totalSize = o.rankCnt * o.maxSize := by
  unfold validSize at h
  rw [decide_eq_true_eq] at h
  obtain ⟨hne, -, hle⟩ := h
  have hpos := pos_of_ne_zero hne
  refine ⟨hpos, mod_eq_of_lt ?_⟩
  have := (le_div_iff_mul_le hpos).mp hle
  omega

theorem validSize_of_validateOptions {kind : SegmentKind} (h : o.validateOptions kind = true) :
    o.validSize = true := by
  cases kind with
  | vmm => exact h
  | conn =>
    unfold validateOptions at h
    exact (of_decide_eq_true h).2
  | legacy =>
    unfold validateOptions at h
    exact (of_decide_eq_true h).2.2

theorem reserveGva_spec (hsp : sp.Sound) {kind : SegmentKind} {answer : Option ℕ}
    (h : o.reserveGva kind sp answer = (some base, sp')) :
    sp'.Sound ∧ base ≠ 0 ∧ sp'.Holds base o.totalSize ∧
      ∀ {b t}, sp.Holds b t → base + o.totalSize ≤ b ∨ b + t ≤ base := by
  obtain ⟨hapart, hgiven⟩ := hsp.reserved.allocReserveGva o.rankId o.totalSize
    (if kind = .conn then .host else o.memType)
  unfold reserveGva at h
  split at h
  · cases h
  next hne =>
  split at h
  · cases h
  next address =>
  obtain ⟨hbase, rfl⟩ := Prod.mk.inj h
  obtain ⟨rfl, hbase⟩ := ite_none_right_eq_some.mp hbase
  obtain rfl := some.inj hbase
  obtain ⟨hlook, hfree⟩ := hgiven rfl hne
  refine ⟨⟨hapart, hsp.heap⟩, hne, .inl ⟨_, hlook, rfl⟩, fun {b t} hholds => ?_⟩
  rcases hholds with ⟨info, hinfo, rfl⟩ | hle
  · exact hfree hinfo
  -- The manager reserves above the driver.
  have hlo : gvmStartAddr ≤ (o.givenRange kind sp).1.start := (hapart.within hlook).1
  have hends : svmEndAddr ≤ gvmStartAddr := by decide
  omega

/-- A range that is reserved is held, and where the manager gives it, it is apart from all that were
held before. -/
theorem reserveMemorySpace_spec (hsp : sp.Sound) {kind : SegmentKind} {prepared : Bool}
    {replies : ReserveReplies}
    (h : o.reserveMemorySpace kind prepared sp replies = some (some base, sp')) :
    sp'.Sound ∧ base ≠ 0 ∧ 0 < o.maxSize ∧ sp'.Holds base (o.rankCnt * o.maxSize) ∧
      (kind ≠ .legacy → ∀ {b t}, sp.Holds b t → base + o.rankCnt * o.maxSize ≤ b ∨ b + t ≤ base) := by
  unfold reserveMemorySpace at h
  split at h
  · cases h
  next hrefuses =>
  have hvalid : o.validateOptions kind = true := by
    simp only [refuses, Bool.or_eq_true, Bool.not_eq_true', not_or, Bool.not_eq_false] at hrefuses
    exact hrefuses.1.2
  obtain ⟨hpos, htotal⟩ := totalSize_of_validSize (validSize_of_validateOptions hvalid)
  rw [← htotal]
  cases kind with
  | vmm | conn =>
    obtain ⟨hsound, hne, hholds, hapart⟩ := reserveGva_spec hsp (some.inj h)
    exact ⟨hsound, hne, hpos, hholds, fun _ => hapart⟩
  | legacy =>
    dsimp only at h
    split at h
    · next hchunks =>
      obtain ⟨hbase, rfl⟩ := Prod.mk.inj (some.inj h)
      obtain ⟨hne, hbase⟩ := ite_none_left_eq_some.mp hbase
      obtain rfl := some.inj hbase
      obtain ⟨hheap, hend⟩ := gvaReserveMemory_spec hsp.heap (mod_lt _ (by norm_num)) hchunks
      exact ⟨⟨hsp.reserved, hheap⟩, hne, hpos, .inr hend, fun hkind => absurd rfl hkind⟩
    · cases h
    · cases h

end SegmentOptions

/-! ### What a failed reservation leaves -/

section

variable {o : SegmentOptions} {kind : SegmentKind} {prepared : Bool} {sp : AddressSpace}
  {replies : ReserveReplies}

/-- A call that returns an error leaves everything as it was. -/
def SegmentOptions.Releases (o : SegmentOptions) (kind : SegmentKind) (prepared : Bool)
    (sp : AddressSpace) (replies : ReserveReplies) : Prop :=
  ∀ sp', o.reserveMemorySpace kind prepared sp replies = some (none, sp') → sp' = sp

theorem SegmentOptions.reserveMemorySpace_eq (hkind : kind ≠ .legacy)
    (hrefuses : ¬ o.refuses kind prepared replies.shareFd = true) :
    o.reserveMemorySpace kind prepared sp replies = some (o.reserveGva kind sp replies.base) := by
  unfold reserveMemorySpace
  rw [if_neg hrefuses]
  cases kind with
  | vmm | conn => rfl
  | legacy => exact absurd rfl hkind

/-- What fails is released exactly if it fails before the manager is asked, or because the manager
has no room; where the lowest free range is refused, nobody frees it. -/
theorem releases_iff (hkind : kind ≠ .legacy) (hr : reserveSystem.Reachable sp.reserved) :
    o.Releases kind prepared sp replies ↔
      o.refuses kind prepared replies.shareFd = true ∨ (∀ a, ¬ sp.reserved.Gap o.totalSize a) ∨
        ∃ a ∈ replies.base, IsLeast {a | sp.reserved.Gap o.totalSize a} a := by
  unfold SegmentOptions.Releases
  by_cases hrefuses : o.refuses kind prepared replies.shareFd = true
  · refine iff_of_true (fun sp' hsp => ?_) (.inl hrefuses)
    unfold SegmentOptions.reserveMemorySpace at hsp
    rw [if_pos hrefuses] at hsp
    exact (Prod.mk.inj (some.inj hsp)).2.symm
  rw [or_iff_right hrefuses, SegmentOptions.reserveMemorySpace_eq hkind hrefuses]
  have hfit := (reserved_apart hr).firstFit o.rankId o.totalSize
    (if kind = .conn then .host else o.memType)
  unfold SegmentOptions.reserveGva SegmentOptions.givenRange
  generalize sp.reserved.allocReserveGva _ _ _ = given at hfit ⊢
  split at hfit
  · next hzero =>
    obtain ⟨hnone, hkeep⟩ := hfit
    refine iff_of_true (fun sp' hsp => ?_) (.inl hnone)
    rw [if_pos hzero, hkeep] at hsp
    exact (Prod.mk.inj (some.inj hsp)).2.symm
  next hne =>
  obtain ⟨hgap, hlow, hinsert⟩ := hfit
  have hleast : IsLeast {a | sp.reserved.Gap o.totalSize a} given.1.start :=
    ⟨hgap, fun b hb => hlow b hb⟩
  -- the range is a new one, so that the manager is not as before
  have hchanged : given.2 ≠ sp.reserved := by
    intro heq
    rw [hinsert] at heq
    have hold : sp.reserved.lookup given.1.start = some ⟨given.1.start, o.totalSize,
        if kind = .conn then .host else o.memType, o.rankId⟩ := by
      rw [← heq, lookup_insert_eq_some_iff]
      exact .inl ⟨rfl, rfl⟩
    have hpos := hgap.pos
    have := hgap.free hold
    dsimp only at this
    omega
  rw [if_neg hne, or_iff_right fun hnone => hnone _ hgap]
  constructor
  · intro hall
    by_contra hbase
    cases hanswer : replies.base with
    | none =>
      rw [hanswer] at hall
      exact hchanged (congrArg AddressSpace.reserved (hall _ rfl))
    | some address =>
      rw [hanswer] at hall hbase
      dsimp only at hall
      have hother : address ≠ given.1.start := by
        rintro rfl
        exact hbase ⟨_, rfl, hleast⟩
      rw [if_neg hother] at hall
      exact hchanged (congrArg AddressSpace.reserved (hall _ rfl))
  · rintro ⟨a, hbase, ha⟩ sp' hsp
    rw [mem_def.mp hbase] at hsp
    dsimp only at hsp
    rw [if_pos (ha.unique hleast)] at hsp
    cases hsp

end

/-- A page for each of two ranks. -/
def twoRanks : SegmentOptions := ⟨.dram, Vmm.largePageSize, 0, 2, 0⟩

/-- The whole space is reserved, and a second segment finds no room. -/
theorem releases_without_room :
    ∃ m : ReservedMap, m.entries.map Prod.fst = [gvmStartAddr] ∧
      ∃ sp', twoRanks.reserveMemorySpace .conn false ⟨m, [], .new⟩
          ⟨true, none, fun _ => ⟨true, 0⟩⟩ = some (none, sp') ∧ sp' = ⟨m, [], .new⟩ := by
  let m := (ReservedMap.allocReserveGva .empty 0 (gvmEndAddr - gvmStartAddr) .host).2
  have hm : reserveSystem.Reachable m := TransitionSystem.reachable_of_run
    (show reserveSystem.run _ [.allocReserveGva 0 (gvmEndAddr - gvmStartAddr) .host] = some m
      from rfl)
  refine ⟨m, by decide +kernel, _, rfl, ?_⟩
  refine (@releases_iff twoRanks .conn false ⟨m, [], .new⟩ ⟨true, none, fun _ => ⟨true, 0⟩⟩
    (by decide) hm).mpr (.inr (.inl fun a hgap => ?_)) _ rfl
  have hpos := hgap.pos
  have hlo := hgap.lo
  have hhi := hgap.hi
  have hfree := hgap.free (show m.lookup gvmStartAddr =
    some ⟨gvmStartAddr, gvmEndAddr - gvmStartAddr, .host, 0⟩ by decide +kernel)
  dsimp only at hfree
  omega

/-- The range that the manager gives is refused, and nobody frees it. -/
theorem refused_range_stays_reserved : ∃ sp' : AddressSpace,
    twoRanks.reserveMemorySpace .vmm false ⟨.empty, [], .new⟩ ⟨true, none, fun _ => ⟨true, 0⟩⟩ =
      some (none, sp') ∧
    sp'.reserved.entries.map Prod.fst = [gvmStartAddr] ∧
    (sp'.reserved.allocReserveGva 0 twoRanks.totalSize .host).1.start =
      gvmStartAddr + twoRanks.totalSize :=
  ⟨_, rfl, by decide +kernel, by decide +kernel⟩

/-! ### Ranks of addresses -/

namespace SegmentOptions

/-- `MemoryInRange` of the three classes. -/
def memoryInRange (o : SegmentOptions) (base begin size : ℕ) : Bool :=
  if begin < base then false
  else if (base + o.totalSize) % 2 ^ 64 < (begin + size) % 2 ^ 64 then false
  else true

/-- `GetRankIdByAddr` of the three classes, and whether it succeeds. -/
def getRankIdByAddr (o : SegmentOptions) (base addr size : ℕ) : ℕ × Bool :=
  if !o.memoryInRange base addr size then (o.rankId, false)
  else ((addr - base) / o.maxSize % 2 ^ 32, true)

/-- The range lies inside the partition of rank `r`. -/
structure Inside (o : SegmentOptions) (base addr size r : ℕ) : Prop where
  rank : r < o.rankCnt
  begin : base + r * o.maxSize ≤ addr
  stop : addr + size ≤ base + (r + 1) * o.maxSize

end SegmentOptions

/-- The rank that is found for a range has all of it, exactly if the range is within the partition
it begins in. -/
theorem getRankIdByAddr_inside_iff {o : SegmentOptions} {kind : SegmentKind}
    {prepared : Bool} {sp sp' : AddressSpace} {replies : ReserveReplies} {base addr size r : ℕ}
    (hreserved : reserveSystem.Reachable sp.reserved) (hheap : Gva.gvaSystem.Reachable sp.heap)
    (hbase : o.reserveMemorySpace kind prepared sp replies = some (some base, sp'))
    (hcnt : o.rankCnt < 2 ^ 32)
    (hfound : o.getRankIdByAddr base addr size = (r, true)) :
    o.Inside base addr size r ↔
      addr < base + o.rankCnt * o.maxSize ∧ (addr - base) % o.maxSize + size ≤ o.maxSize := by
  have hsp : sp.Sound := ⟨reserved_apart hreserved, Gva.GvaHeap.BelowTop.of_reachable hheap⟩
  obtain ⟨-, -, hpos, -, -⟩ := SegmentOptions.reserveMemorySpace_spec hsp hbase
  unfold SegmentOptions.getRankIdByAddr at hfound
  split_ifs at hfound with hrange
  · cases hfound
  obtain ⟨hr, -⟩ := Prod.mk.inj hfound
  have hle : base ≤ addr := by
    by_contra hlt
    exact hrange (by simp [SegmentOptions.memoryInRange, not_le.mp hlt])
  have hsplit := div_add_mod' (addr - base) o.maxSize
  constructor
  · rintro ⟨hrank, hbegin, hstop⟩
    -- the quotient of a range that ends in the partition is not cut off at 32 bits
    have hquot : (addr - base) / o.maxSize < r + 2 := by
      rw [div_lt_iff_lt_mul hpos, succ_mul]
      omega
    rw [mod_eq_of_lt (by omega)] at hr
    rw [hr] at hsplit
    have hend : (r + 1) * o.maxSize ≤ o.rankCnt * o.maxSize := Nat.mul_le_mul_right _ hrank
    have hmod := mod_lt (addr - base) hpos
    rw [succ_mul] at hstop hend
    omega
  rintro ⟨hend, hone⟩
  have hquot : (addr - base) / o.maxSize < o.rankCnt :=
    (div_lt_iff_lt_mul hpos).mpr (by omega)
  rw [mod_eq_of_lt (by omega)] at hr
  rw [hr] at hquot hsplit
  refine ⟨hquot, by omega, ?_⟩
  rw [succ_mul]
  omega

/-- The replies to a reservation at the beginning of the space. -/
def atStart : ReserveReplies := ⟨true, some gvmStartAddr, fun _ => ⟨true, 0⟩⟩

theorem getRankIdByAddr_inside_second_rank :
    ∃ sp', twoRanks.reserveMemorySpace .vmm false ⟨.empty, [], .new⟩ atStart =
        some (some gvmStartAddr, sp') ∧
      twoRanks.Inside gvmStartAddr (gvmStartAddr + Vmm.largePageSize) Vmm.largePageSize 1 := by
  have hbase : twoRanks.reserveMemorySpace .vmm false ⟨.empty, [], .new⟩ atStart =
    some (some gvmStartAddr, _) := rfl
  have hreserved : reserveSystem.Reachable .empty := .start
  have hheap : Gva.gvaSystem.Reachable .new := .start
  exact ⟨_, hbase,
    (getRankIdByAddr_inside_iff hreserved hheap hbase (by decide) rfl).mpr (by decide)⟩

/-- A range over two partitions, one whose end wraps around, and one behind the last partition. -/
theorem straddling_and_wrapped_ranges :
    ∃ sp', twoRanks.reserveMemorySpace .vmm false ⟨.empty, [], .new⟩ atStart =
        some (some gvmStartAddr, sp') ∧
      twoRanks.getRankIdByAddr gvmStartAddr (gvmStartAddr + 1) Vmm.largePageSize = (0, true) ∧
      twoRanks.getRankIdByAddr gvmStartAddr (gvmStartAddr + 5) (2 ^ 64 - 5) = (0, true) ∧
      twoRanks.getRankIdByAddr gvmStartAddr (gvmStartAddr + 2 * Vmm.largePageSize) 0 = (2, true) :=
  ⟨_, rfl, by decide +kernel⟩

/-! ### What the chunks leave -/

/-- A driver that answers each call with an address or a failure, and holds the chunks that it has
given; a null address is none. -/
def answering (answers : ℕ → Option ℕ) : ChunkDriver (List ℕ) where
  reserve i _ held := (answers i, (answers i).toList.filter (· ≠ 0) ++ held)
  unreserve ptr held := held.erase ptr

/-- The chunks that are held follow each other from the address on, up to the size; or there is no
address and no chunk. -/
def AllOrNothing (maxChunk size : ℕ) : ReserveEnd (List ℕ) → Prop
  | .done address held => held.head? = some address ∧
      held.IsChain (fun a b => b = a + maxChunk) ∧ held.length * maxChunk = size
  | .failed held => held = []
  | .undefined => False

/-- The answer after the `i`-th one is a chunk directly below it. -/
def Below (maxChunk : ℕ) (answers : ℕ → Option ℕ) (i : ℕ) : Prop :=
  ∃ a ∈ answers (i + 1), ∃ b ∈ answers i, a ≠ 0 ∧ b = a + maxChunk ∧ b < 2 ^ 64

/-- The driver gives a first chunk, and then no second one, or all of them one below the other. -/
def Steady (maxChunk n : ℕ) (answers : ℕ → Option ℕ) : Prop :=
  (∃ first ∈ answers 0, first ≠ 0) ∧
    ((1 < n ∧ (answers 1).getD 0 = 0) ∨ ∀ i, i + 1 < n → Below maxChunk answers i)

variable {maxChunk size : ℕ} {answers : ℕ → Option ℕ}

theorem chunk_pos {singleRankSize : ℕ} (hpos : 0 < size) (hdvd : singleRankSize ∣ size) :
    0 < getReserveChunkSize size singleRankSize := by
  obtain ⟨n, rfl⟩ := hdvd
  obtain ⟨hsingle, hn⟩ := Nat.mul_ne_zero_iff.mp hpos.ne'
  unfold getReserveChunkSize
  rw [if_neg (by omega)]
  split
  · exact hpos
  dsimp only
  rw [Nat.mul_div_cancel_left n (pos_of_ne_zero hsingle)]
  cases hfind : (range' 1 (maxReserveChunk / singleRankSize)).reverse.find?
      (fun m => decide (n % m = 0)) with
  | none =>
    rw [getD_none, one_mul, if_neg (by simp)]
    exact pos_of_ne_zero hsingle
  | some m =>
    have hmem := mem_range'_1.mp (mem_reverse.mp (mem_of_find?_eq_some hfind))
    obtain ⟨k, rfl⟩ : m ∣ n := dvd_of_mod_eq_zero (by simpa using find?_some hfind)
    rw [getD_some, mul_comm singleRankSize, mul_right_comm, if_neg (by simp)]
    exact Nat.mul_pos hmem.1 (pos_of_ne_zero hsingle)

/-- What a failed call leaves is nothing only after one chunk, and if it gives none itself. -/
theorem erase_eq_nil_iff {last : ℕ} {before : List ℕ} {answer : Option ℕ} :
    (answer.toList.filter (· ≠ 0) ++ last :: before).erase
        ((last :: before).getLast (cons_ne_nil last before)) = [] ↔
      before = [] ∧ answer.getD 0 = 0 := by
  have hmem : (last :: before).getLast (cons_ne_nil last before) ∈
      answer.toList.filter (· ≠ 0) ++ last :: before :=
    mem_append_right _ (getLast_mem _)
  rw [← length_eq_zero_iff, length_erase_of_mem hmem, length_append, length_cons]
  have hanswer : (answer.toList.filter (· ≠ 0)).length = 0 ↔ answer.getD 0 = 0 := by
    cases answer with
    | none => simp
    | some a => simp
  rw [← hanswer, ← length_eq_zero_iff (l := before)]
  omega

/-- From a state with `k` chunks to go: the loop ends, and leaves all or nothing exactly if the next
answer is none after one chunk, or all chunks are one below the other. -/
theorem reserveChunks_iff (hchunk : 0 < maxChunk) {n k last : ℕ} {before : List ℕ}
    (hn : (last :: before).length + k = n) (hlast : answers before.length = some last) :
    ∃ r, reserveChunks (answering answers) maxChunk (n * maxChunk) k (last :: before)
        ((last :: before).length * maxChunk) (last :: before) = some r ∧
      (AllOrNothing maxChunk (n * maxChunk) r ↔
        (before = [] ∧ 1 < n ∧ (answers 1).getD 0 = 0) ∨
          (last :: before).IsChain (fun a b => b = a + maxChunk) ∧
            ∀ i, before.length ≤ i → i + 1 < n → Below maxChunk answers i) := by
  induction k generalizing last before with
  | zero =>
    refine ⟨_, if_pos (by rw [← hn, add_zero]), ?_⟩
    have hlong : ¬ (before = [] ∧ 1 < n ∧ (answers 1).getD 0 = 0) := by
      rintro ⟨rfl, hlt, -⟩
      rw [length_singleton] at hn
      omega
    have hrest : ∀ i, before.length ≤ i → i + 1 < n → Below maxChunk answers i := by
      intro i hi hlt
      rw [length_cons] at hn
      omega
    have hsize : (last :: before).length * maxChunk = n * maxChunk := by rw [← hn, add_zero]
    simp only [hlong, false_or, and_iff_left hrest]
    exact ⟨fun h => h.2.1, fun h => ⟨rfl, h, hsize⟩⟩
  | succ k ih =>
    have hmore : (last :: before).length * maxChunk + (k + 1) * maxChunk = n * maxChunk := by
      rw [← add_mul, hn]
    have hpass : 0 < (k + 1) * maxChunk := Nat.mul_pos (succ_pos k) hchunk
    have hmin : min maxChunk (n * maxChunk - (last :: before).length * maxChunk) = maxChunk := by
      rw [succ_mul] at hmore
      omega
    rw [reserveChunks, if_neg (by omega)]
    dsimp only [answering]
    rw [hmin]
    -- the next chunk is below the last one exactly if the answer passes the check unwrapped
    have hbelow : Below maxChunk answers before.length ↔
        ∃ a ∈ answers (last :: before).length, a ≠ 0 ∧ last = a + maxChunk ∧ last < 2 ^ 64 := by
      simp only [Below, hlast, mem_some_iff, exists_eq_left', length_cons]
    split_ifs with hfail
    · rw [getLast?_eq_some_getLast (cons_ne_nil last before), Option.elim_some]
      refine ⟨_, rfl, ?_⟩
      have hnot : ¬ ∀ i, before.length ≤ i → i + 1 < n → Below maxChunk answers i := by
        intro hall
        obtain ⟨a, ha, hne, hnext, hwrap⟩ := hbelow.mp
          (hall _ le_rfl (by rw [length_cons] at hn; omega))
        rw [mem_def.mp ha, getD_some] at hfail
        rcases hfail with hnone | hzero | ⟨-, hother⟩
        · cases hnone
        · exact hne hzero
        · rw [← hnext, mod_eq_of_lt hwrap] at hother
          exact hother rfl
      simp only [AllOrNothing, hnot, and_false, or_false]
      rw [erase_eq_nil_iff]
      constructor
      · rintro ⟨rfl, hzero⟩
        exact ⟨rfl, by rw [length_singleton] at hn; omega, hzero⟩
      · rintro ⟨rfl, -, hzero⟩
        exact ⟨rfl, hzero⟩
    rw [not_or, not_or] at hfail
    obtain ⟨hsome, hne, hnext⟩ := hfail
    obtain ⟨a, ha⟩ := ne_none_iff_exists'.mp hsome
    rw [ha, getD_some] at hne hnext ⊢
    have hnext : (a + maxChunk) % 2 ^ 64 = last := by simpa using hnext
    have hheld : (some a).toList.filter (· ≠ 0) ++ last :: before = a :: last :: before := by
      simp [hne]
    rw [hheld, show (last :: before).length * maxChunk + maxChunk =
      (a :: last :: before).length * maxChunk from (succ_mul _ _).symm]
    obtain ⟨r, hr, hiff⟩ := @ih a (last :: before) (by rw [length_cons, ← hn]; omega) ha
    refine ⟨r, hr, hiff.trans ?_⟩
    have hone : ¬ (before = [] ∧ 1 < n ∧ (answers 1).getD 0 = 0) := by
      rintro ⟨rfl, -, hzero⟩
      rw [length_singleton] at ha
      rw [ha, getD_some] at hzero
      exact hne hzero
    have hfirst : Below maxChunk answers before.length ↔ last = a + maxChunk := by
      rw [hbelow, ha]
      simp only [mem_some_iff, exists_eq_left', hne, ne_eq, not_false_eq_true, true_and]
      refine ⟨And.left, fun heq => ⟨heq, ?_⟩⟩
      rw [← hnext]
      exact mod_lt _ (by norm_num)
    simp only [hone, reduceCtorEq, false_and, false_or, isChain_cons_cons]
    constructor
    · rintro ⟨⟨heq, hchain⟩, hall⟩
      refine ⟨hchain, fun i hi hlt => ?_⟩
      rcases hi.eq_or_lt with rfl | hi
      · exact hfirst.mpr heq
      · exact hall i hi hlt
    · rintro ⟨hchain, hall⟩
      have heq := hfirst.mp (hall _ le_rfl (by rw [length_cons] at hn; omega))
      exact ⟨⟨heq, hchain⟩, fun i hi => hall i (le_of_succ_le hi)⟩

/-- The reservation takes at most as many calls as there are chunks, and it is all or nothing
exactly if the driver is steady. -/
theorem gvaReserveMemory_all_or_nothing_iff {singleRankSize : ℕ} (hpos : 0 < size)
    (hdvd : singleRankSize ∣ size) (answers : ℕ → Option ℕ) :
    ∃ r, reserveChunks (answering answers) (getReserveChunkSize size singleRankSize) size
        (size / getReserveChunkSize size singleRankSize) [] 0 [] = some r ∧
      gvaReserveMemory (answering answers) size singleRankSize [] = some r ∧
      (AllOrNothing (getReserveChunkSize size singleRankSize) size r ↔
        Steady (getReserveChunkSize size singleRankSize)
          (size / getReserveChunkSize size singleRankSize) answers) := by
  have hchunk := chunk_pos hpos hdvd
  obtain ⟨n, hn⟩ := (dvd_getReserveChunkSize size singleRankSize).resolve_right hchunk.ne'
  rw [gvaReserveMemory, if_neg hpos.ne']
  generalize getReserveChunkSize size singleRankSize = maxChunk at hchunk hn ⊢
  obtain rfl : size = n * maxChunk := by rw [hn, mul_comm]
  rw [Nat.mul_div_cancel n hchunk]
  obtain ⟨n, rfl⟩ : ∃ k, n = k + 1 :=
    exists_eq_succ_of_ne_zero (Nat.pos_of_mul_pos_right hpos).ne'
  dsimp only
  rw [Nat.mul_div_cancel _ hchunk, Nat.max_eq_right (by omega)]
  suffices hall : ∃ r,
      reserveChunks (answering answers) maxChunk ((n + 1) * maxChunk) (n + 1) [] 0 [] = some r ∧
        (AllOrNothing maxChunk ((n + 1) * maxChunk) r ↔ Steady maxChunk (n + 1) answers) by
    obtain ⟨r, hr, hiff⟩ := hall
    exact ⟨r, hr, hr, hiff⟩
  rw [reserveChunks, if_neg (by omega)]
  dsimp only [answering]
  have hmin : min maxChunk ((n + 1) * maxChunk - 0) = maxChunk := by
    rw [succ_mul]
    omega
  rw [hmin]
  split_ifs with hfail
  · refine ⟨_, rfl, iff_of_false id ?_⟩
    rintro ⟨⟨first, hfirst, hne⟩, -⟩
    rw [length_nil, mem_def.mp hfirst] at hfail
    simp [hne] at hfail
  rw [not_or, not_or] at hfail
  obtain ⟨hsome, hne, -⟩ := hfail
  obtain ⟨first, hfirst⟩ := ne_none_iff_exists'.mp hsome
  rw [hfirst, getD_some] at hne ⊢
  rw [length_nil] at hfirst
  have hheld : (some first).toList.filter (· ≠ 0) ++ [] = [first] := by simp [hne]
  obtain ⟨r, hr, hiff⟩ := @reserveChunks_iff maxChunk answers hchunk (n + 1) n first []
    (by rw [length_singleton, add_comm]) hfirst
  rw [length_singleton, one_mul] at hr
  rw [hheld, zero_add]
  refine ⟨r, hr, hiff.trans ?_⟩
  simp [Steady, hfirst, hne]

/-- Two chunks, the second one below the first. -/
theorem gvaReserveMemory_two_chunks :
    ∃ r, gvaReserveMemory (answering fun i => some ((3 - i) * maxReserveChunk))
        (2 * maxReserveChunk) maxReserveChunk [] = some r ∧
      AllOrNothing maxReserveChunk (2 * maxReserveChunk) r := by
  have hchunk : getReserveChunkSize (2 * maxReserveChunk) maxReserveChunk = maxReserveChunk := by
    decide +kernel
  obtain ⟨r, -, hr, hiff⟩ := @gvaReserveMemory_all_or_nothing_iff (2 * maxReserveChunk)
    maxReserveChunk (by decide) (dvd_mul_left _ _) fun i => some ((3 - i) * maxReserveChunk)
  rw [hchunk] at hiff
  refine ⟨r, hr, hiff.mpr ⟨⟨_, rfl, by decide⟩, .inr fun i hi => ?_⟩⟩
  have hdiv : 2 * maxReserveChunk / maxReserveChunk = 2 := by decide
  obtain rfl : i = 0 := by omega
  exact ⟨_, rfl, _, rfl, by decide⟩

/-- A third call that fails. -/
theorem second_chunk_stays_reserved :
    ∃ r, gvaReserveMemory (answering fun i => if i < 2 then some ((5 - i) * maxReserveChunk)
        else none) (3 * maxReserveChunk) maxReserveChunk [] = some r ∧
      ¬ AllOrNothing maxReserveChunk (3 * maxReserveChunk) r :=
  ⟨.failed [4 * maxReserveChunk], by decide +kernel, by simp [AllOrNothing]⟩

end Hybm
