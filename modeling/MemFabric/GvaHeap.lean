/-
The heap of global virtual addresses.

Chunks of addresses are reserved one below the other (`HalGvaReserveMemory`), and ranges are
taken from them at addresses that the caller chooses (`HalGvaAlloc`, `HalGvaOpen`).  A request
is checked against the lowest and the highest address ever reserved and against the recorded
ranges, but not against the chunks; `GvaHeapRemoveReserved` takes the ranges of one chunk out
until it meets one that ends behind it.
-/
import MemFabric.OrderedMap
import MemFabric.Transition

namespace Hybm.Gva

open Option OrderedMap

/-! ### The manager -/

/-- `DEVMM_MAP_ALIGN_SIZE`, `DEVMM_HEAP_SIZE`, `DEVMM_SVM_MEM_SIZE` and `DEVMM_SVM_MEM_START`. -/
def mapAlignSize : ℕ := 0x200000

def heapSize : ℕ := 2 ^ 30

def svmMemSize : ℕ := 2 ^ 43

def svmMemStart : ℕ := 0x100000000000

/-- `ALIGN_UP`, for a power of two. -/
def alignUp (val al : ℕ) : ℕ := ((val + (al - 1)) % 2 ^ 64) &&& (2 ^ 64 - al)

/-- `GvaHeap`: `tree` has the ranges that are taken and `reserved` the chunks, by their first
addresses. -/
structure GvaHeap where
  inited : Bool
  deviceId : ℤ
  start : ℕ
  endAddr : ℕ
  tree : OrderedMap ℕ ℕ
  reserved : OrderedMap ℕ ℕ

namespace GvaHeap

def new : GvaHeap := ⟨false, -1, 0, 0, .empty, .empty⟩

variable (g : GvaHeap)

def initGvaHeapMgmt (st ed : ℕ) (deviceId : ℤ) : Bool × GvaHeap :=
  if g.inited then
    if ed ≠ g.start then (false, g)
    else if deviceId ≠ g.deviceId then (false, g)
    else (true, { g with start := st, reserved := g.reserved.insert st ed })
  else (true, ⟨true, deviceId, st, ed, .empty, OrderedMap.empty.insert st ed⟩)

def gvaHeapCheckInRange (key len : ℕ) : Bool :=
  (match g.tree.lowerBound key with
    | some (l, _) => key ≤ l && l < (key + len) % 2 ^ 64
    | none => false) ||
  (match g.tree.below key with
    | some (l, r) => l ≤ key && key < r
    | none => false)

def tryUpdateGvaHeap (va len : ℕ) : Bool × GvaHeap :=
  if !g.inited then (false, g)
  else if va < g.start ∨ g.endAddr < (va + len) % 2 ^ 64 then (false, g)
  else if g.gvaHeapCheckInRange va len then (false, g)
  else (true, { g with tree := g.tree.insert va ((va + len) % 2 ^ 64) })

def removeInGvaHeap (va : ℕ) : Bool × GvaHeap :=
  if !g.inited then (false, g)
  else ((g.tree.lookup va).isSome, { g with tree := g.tree.erase va })

def gvaHeapRemoveReserved (va : ℕ) : GvaHeap :=
  if !g.inited then g
  else
    match g.reserved.lookup va with
    | none => g
    | some ed =>
      let vaList := (g.tree.fromWhile va fun it => it.2 ≤ ed).map Prod.fst
      { g with tree := g.tree.eraseAll vaList, reserved := g.reserved.erase va }

/-! ### Calls -/

/-- Where the next chunk ends: below the chunks so far, or at the top. -/
def nextEnd : ℕ := if g.inited then g.start else svmMemStart + svmMemSize - heapSize

/-- `HalGvaReserveMemory` with the size rounded up; `mgmt` tells whether there is a heap of the
driver, and `retVa` is the answer of `VirtAllocGvaMem`. -/
def reserveChunk (allocSize : ℕ) (deviceId : ℤ) (mgmt : Bool) (retVa : ℕ) : Bool × GvaHeap :=
  if allocSize = 0 ∨ svmMemSize / 2 < allocSize then (false, g)
  else if !mgmt then (false, g)
  else if g.inited ∧ g.start < allocSize then (false, g)
  else if retVa ≠ g.nextEnd - allocSize then (false, g)
  else g.initGvaHeapMgmt (g.nextEnd - allocSize) (g.nextEnd - allocSize + allocSize) deviceId

def halGvaReserveMemory (size : ℕ) (deviceId : ℤ) (mgmt : Bool) (retVa : ℕ) : Bool × GvaHeap :=
  g.reserveChunk (alignUp size heapSize) deviceId mgmt retVa

/-- `HalGvaAlloc` and `OpenGvaMalloc`; `advised` tells whether `HybmIoctlAllocAnddAdvice`
succeeds. -/
def halGvaAlloc (va size : ℕ) (advised : Bool) : Bool × GvaHeap :=
  if va % mapAlignSize ≠ 0 ∨ size % mapAlignSize ≠ 0 then (false, g)
  else if !(g.tryUpdateGvaHeap va size).1 then (false, (g.tryUpdateGvaHeap va size).2)
  else if !advised then (false, ((g.tryUpdateGvaHeap va size).2.removeInGvaHeap va).2)
  else (true, (g.tryUpdateGvaHeap va size).2)

def halGvaFree (address : ℕ) : Bool × GvaHeap := g.removeInGvaHeap address

/-- `HalGvaOpen`; `mapped` tells whether `HybmMapShareMemory` succeeds. -/
def halGvaOpen (address size : ℕ) (advised mapped : Bool) : Bool × GvaHeap :=
  if !(g.halGvaAlloc address size advised).1 then (false, (g.halGvaAlloc address size advised).2)
  else if !mapped then (false, ((g.halGvaAlloc address size advised).2.halGvaFree address).2)
  else (true, (g.halGvaAlloc address size advised).2)

/-- `HalGvaClose`; `unmapped` tells whether `HybmUnmapShareMemory` succeeds. -/
def halGvaClose (address : ℕ) (unmapped : Bool) : Bool × GvaHeap :=
  if !unmapped then (false, g) else g.halGvaFree address

end GvaHeap

inductive GvaStep
  | halGvaReserveMemory (size : ℕ) (deviceId : ℤ) (mgmt : Bool) (retVa : ℕ)
  | halGvaUnreserveMemory (address : ℕ)
  | halGvaAlloc (address size : ℕ) (advised : Bool)
  | halGvaOpen (address size : ℕ) (advised mapped : Bool)
  | halGvaFree (address : ℕ)
  | halGvaClose (address : ℕ) (unmapped : Bool)

def gvaSystem : TransitionSystem GvaHeap GvaStep where
  start := .new
  next g
    | .halGvaReserveMemory size deviceId mgmt retVa =>
      some (g.halGvaReserveMemory size deviceId mgmt retVa).2
    | .halGvaUnreserveMemory address => some (g.gvaHeapRemoveReserved address)
    | .halGvaAlloc address size advised => some (g.halGvaAlloc address size advised).2
    | .halGvaOpen address size advised mapped =>
      some (g.halGvaOpen address size advised mapped).2
    | .halGvaFree address => some (g.halGvaFree address).2
    | .halGvaClose address unmapped => some (g.halGvaClose address unmapped).2

/-! ### The top of the addresses -/

variable {g : GvaHeap} {deviceId : ℤ}

theorem GvaHeap.reserveChunk_ok {allocSize retVa : ℕ} {mgmt : Bool}
    (h : (g.reserveChunk allocSize deviceId mgmt retVa).1 = true) :
    allocSize ≠ 0 ∧ allocSize ≤ svmMemSize / 2 ∧
      (g.reserveChunk allocSize deviceId mgmt retVa).2.start = g.nextEnd - allocSize := by
  unfold reserveChunk at h ⊢
  split at h
  · cases h
  next hsize =>
    rw [not_or, not_lt] at hsize
    split at h
    · cases h
    split at h
    · cases h
    split at h
    · cases h
    next hmgmt hstart hva =>
      rw [if_neg (by rw [not_or, not_lt]; exact hsize), if_neg hmgmt, if_neg hstart, if_neg hva]
      refine ⟨hsize.1, hsize.2, ?_⟩
      unfold initGvaHeapMgmt at h ⊢
      split at h
      · split at h
        · cases h
        split at h
        · cases h
        next hinited hed hdev => rw [if_pos hinited, if_neg hed, if_neg hdev]
      next hinited => rw [if_neg hinited]

theorem GvaHeap.initGvaHeapMgmt_failed {st ed : ℕ}
    (h : ¬ (g.initGvaHeapMgmt st ed deviceId).1 = true) :
    (g.initGvaHeapMgmt st ed deviceId).2 = g := by
  unfold initGvaHeapMgmt at h ⊢
  split
  · split
    · rfl
    split
    · rfl
    next hinited hed hdev =>
    rw [if_pos hinited, if_neg hed, if_neg hdev] at h
    exact absurd rfl h
  · next hinited =>
    rw [if_neg hinited] at h
    exact absurd rfl h

theorem GvaHeap.reserveChunk_failed {allocSize retVa : ℕ} {mgmt : Bool}
    (h : ¬ (g.reserveChunk allocSize deviceId mgmt retVa).1 = true) :
    (g.reserveChunk allocSize deviceId mgmt retVa).2 = g := by
  unfold reserveChunk at h ⊢
  split
  · rfl
  split
  · rfl
  split
  · rfl
  split
  · rfl
  next hsize hmgmt hstart hva =>
  rw [if_neg hsize, if_neg hmgmt, if_neg hstart, if_neg hva] at h
  exact initGvaHeapMgmt_failed h

/-! What allocating, opening and closing a range keep, if entering and removing it keep it. -/

section Rules

variable {I : GvaHeap → Prop} {g : GvaHeap} {va size : ℕ} (h : I g)
  (hremove : ∀ {g : GvaHeap}, I g → I (g.removeInGvaHeap va).2)
include h hremove

theorem halGvaAlloc_rule (hupdate : I (g.tryUpdateGvaHeap va size).2) (advised : Bool) :
    I (g.halGvaAlloc va size advised).2 := by
  unfold GvaHeap.halGvaAlloc
  split
  · exact h
  split
  · exact hupdate
  split
  · exact hremove hupdate
  · exact hupdate

theorem halGvaOpen_rule (hupdate : I (g.tryUpdateGvaHeap va size).2) (advised mapped : Bool) :
    I (g.halGvaOpen va size advised mapped).2 := by
  have hnext := halGvaAlloc_rule h hremove hupdate advised
  unfold GvaHeap.halGvaOpen
  split
  · exact hnext
  split
  · exact hremove hnext
  · exact hnext

theorem halGvaClose_rule (unmapped : Bool) : I (g.halGvaClose va unmapped).2 := by
  unfold GvaHeap.halGvaClose
  split
  · exact h
  · exact hremove h

end Rules

def GvaHeap.BelowTop (g : GvaHeap) : Prop :=
  g.inited = true → g.start ≤ svmMemStart + svmMemSize - heapSize

namespace GvaHeap.BelowTop

variable {g : GvaHeap}

section

variable (h : g.BelowTop)
include h

theorem nextEnd_le : g.nextEnd ≤ svmMemStart + svmMemSize - heapSize := by
  unfold nextEnd
  split
  · next hinited => exact h hinited
  · exact le_rfl

theorem reserveChunk (allocSize : ℕ) (deviceId : ℤ) (mgmt : Bool) (retVa : ℕ) :
    (g.reserveChunk allocSize deviceId mgmt retVa).2.BelowTop := by
  by_cases hok : (g.reserveChunk allocSize deviceId mgmt retVa).1 = true
  · obtain ⟨-, -, hstart⟩ := reserveChunk_ok hok
    intro _
    rw [hstart]
    exact (Nat.sub_le _ _).trans h.nextEnd_le
  · rw [reserveChunk_failed hok]
    exact h

theorem congr {g' : GvaHeap} (hinited : g'.inited = g.inited)
    (hstart : g'.start = g.start) : g'.BelowTop := by
  rw [BelowTop, hinited, hstart]
  exact h

theorem tryUpdateGvaHeap (va len : ℕ) : (g.tryUpdateGvaHeap va len).2.BelowTop := by
  unfold GvaHeap.tryUpdateGvaHeap
  split
  · exact h
  split
  · exact h
  split
  · exact h
  · exact h.congr rfl rfl

theorem removeInGvaHeap (va : ℕ) : (g.removeInGvaHeap va).2.BelowTop := by
  unfold GvaHeap.removeInGvaHeap
  split
  · exact h
  · exact h.congr rfl rfl

theorem gvaHeapRemoveReserved (va : ℕ) : (g.gvaHeapRemoveReserved va).BelowTop := by
  unfold GvaHeap.gvaHeapRemoveReserved
  split
  · exact h
  split
  · exact h
  · exact h.congr rfl rfl

theorem next {g' : GvaHeap} {a : GvaStep} (hnext : gvaSystem.next g a = some g') : g'.BelowTop := by
  cases a with
  | halGvaReserveMemory size deviceId mgmt retVa =>
    obtain rfl := some.inj hnext
    exact h.reserveChunk _ deviceId mgmt retVa
  | halGvaUnreserveMemory address =>
    obtain rfl := some.inj hnext
    exact h.gvaHeapRemoveReserved address
  | halGvaAlloc address size advised =>
    obtain rfl := some.inj hnext
    exact halGvaAlloc_rule h (·.removeInGvaHeap _) (h.tryUpdateGvaHeap _ _) advised
  | halGvaOpen address size advised mapped =>
    obtain rfl := some.inj hnext
    exact halGvaOpen_rule h (·.removeInGvaHeap _) (h.tryUpdateGvaHeap _ _) advised mapped
  | halGvaFree address =>
    obtain rfl := some.inj hnext
    exact h.removeInGvaHeap address
  | halGvaClose address unmapped =>
    obtain rfl := some.inj hnext
    exact halGvaClose_rule h (·.removeInGvaHeap _) unmapped

end

theorem new : GvaHeap.new.BelowTop := by
  intro hinited
  cases hinited

theorem of_reachable (h : gvaSystem.Reachable g) : g.BelowTop :=
  h.invariant (I := GvaHeap.BelowTop) new fun hg _ hnext => hg.next hnext

end GvaHeap.BelowTop

/-! ### The property -/

/-- Every address of a range that is recorded is in a chunk that is reserved, so that the range is
within a chunk or within several adjacent ones. -/
def Contained (g : GvaHeap) : Prop :=
  ∀ l r, g.tree.lookup l = some r → l ≤ r ∧
    ∀ a, l ≤ a → a < r → ∃ st ed, g.reserved.lookup st = some ed ∧ st ≤ a ∧ a < ed

/-- A chunk that is given back has no address in common with a range that stays. -/
def Cleared (g : GvaHeap) : Prop :=
  ∀ va ed, g.reserved.lookup va = some ed →
    ∀ l r, (g.gvaHeapRemoveReserved va).tree.lookup l = some r →
      ∀ a, l ≤ a → a < r → ¬ (va ≤ a ∧ a < ed)

/-- A request that the manager accepts lies within one chunk. -/
def GvaHeap.WithinChunk (g : GvaHeap) (va len : ℕ) : Prop :=
  (g.tryUpdateGvaHeap va len).1 = true →
    ∃ chunk ∈ g.reserved.entries, chunk.1 ≤ va ∧ va + len ≤ chunk.2

instance (g : GvaHeap) (va len : ℕ) : Decidable (g.WithinChunk va len) := by
  unfold GvaHeap.WithinChunk
  infer_instance

def Orderly (g : GvaHeap) : GvaStep → Prop
  | .halGvaAlloc address size _ => g.WithinChunk address size
  | .halGvaOpen address size _ _ => g.WithinChunk address size
  | _ => True

instance (g : GvaHeap) (a : GvaStep) : Decidable (Orderly g a) := by
  unfold Orderly
  split <;> infer_instance

variable {g g' : GvaHeap} {va st ed l r : ℕ}

/-! ### The invariant -/

/-- What lies behind: the chunks do not overlap and are above `start`, and every range is within
one of them. -/
structure Inv (g : GvaHeap) : Prop where
  start : g.start < 2 ^ 64
  chunks : ∀ {st ed}, g.reserved.lookup st = some ed → g.start ≤ st ∧ st < ed ∧ ed < 2 ^ 64
  apart : ∀ {st ed st' ed'}, g.reserved.lookup st = some ed → g.reserved.lookup st' = some ed' →
    st < st' → ed ≤ st'
  within : ∀ {l r}, g.tree.lookup l = some r → l ≤ r ∧
    ∃ st ed, g.reserved.lookup st = some ed ∧ st ≤ l ∧ r ≤ ed
  inited : g.inited = false → ∀ st, g.reserved.lookup st = none

theorem inv_new : Inv .new where
  start := by decide
  chunks h := nomatch h
  apart h := nomatch h
  within h := nomatch h
  inited _ _ := rfl

namespace Inv

theorem contained (h : Inv g) : Contained g := by
  intro l r hl
  obtain ⟨hle, st, ed, hchunk, hst, hed⟩ := h.within hl
  exact ⟨hle, fun a hla har => ⟨st, ed, hchunk, hst.trans hla, har.trans_le hed⟩⟩

theorem chunk_eq (h : Inv g) {st' ed' a : ℕ} (hchunk : g.reserved.lookup st = some ed)
    (hchunk' : g.reserved.lookup st' = some ed') (ha : st ≤ a ∧ a < ed)
    (ha' : st' ≤ a ∧ a < ed') : st = st' ∧ ed = ed' := by
  have hst : st = st' := by
    rcases lt_trichotomy st st' with hlt | heq | hlt
    · have hapart := h.apart hchunk hchunk' hlt
      omega
    · exact heq
    · have hapart := h.apart hchunk' hchunk hlt
      omega
  subst hst
  exact ⟨rfl, some.inj (hchunk.symm.trans hchunk')⟩

/-! ### Reserving a chunk -/

theorem insertChunk (h : Inv g) (hinited : g.inited = true) (hlt : st < g.start) :
    Inv { g with start := st, reserved := g.reserved.insert st g.start } := by
  have hcases : ∀ {st' ed'}, (g.reserved.insert st g.start).lookup st' = some ed' →
      (st' = st ∧ ed' = g.start) ∨ (g.reserved.lookup st' = some ed' ∧ g.start ≤ st') := by
    intro st' ed' hchunk
    rw [lookup_insert] at hchunk
    rcases update_eq_some_iff.mp hchunk with ⟨heq, hsome⟩ | ⟨-, hchunk⟩
    · exact .inl ⟨heq, (some.inj hsome).symm⟩
    · exact .inr ⟨hchunk, (h.chunks hchunk).1⟩
  have hkeep : ∀ {st' ed'}, g.reserved.lookup st' = some ed' →
      (g.reserved.insert st g.start).lookup st' = some ed' := by
    intro st' ed' hchunk
    have hle := (h.chunks hchunk).1
    rw [lookup_insert]
    exact (Function.update_of_ne (by omega) _ _).trans hchunk
  refine ⟨hlt.trans h.start, fun hchunk => ?_, fun hchunk hchunk' hlt' => ?_, fun hrange => ?_,
    fun hnot => ?_⟩
  · rcases hcases hchunk with ⟨rfl, rfl⟩ | ⟨hchunk, hle⟩
    · exact ⟨le_rfl, hlt, h.start⟩
    · obtain ⟨-, hchunk⟩ := h.chunks hchunk
      exact ⟨hlt.le.trans hle, hchunk⟩
  · rcases hcases hchunk with ⟨rfl, rfl⟩ | ⟨hchunk, hle⟩
    · rcases hcases hchunk' with ⟨rfl, -⟩ | ⟨-, hle'⟩
      · exact absurd hlt' (lt_irrefl _)
      · exact hle'
    · rcases hcases hchunk' with ⟨rfl, -⟩ | ⟨hchunk', -⟩
      · omega
      · exact h.apart hchunk hchunk' hlt'
  · obtain ⟨hle, st', ed', hchunk, hin⟩ := h.within hrange
    exact ⟨hle, st', ed', hkeep hchunk, hin⟩
  · exact nomatch hinited.symm.trans hnot

theorem firstChunk (hlt : st < ed) (hed : ed < 2 ^ 64) :
    Inv ⟨true, deviceId, st, ed, .empty, OrderedMap.empty.insert st ed⟩ := by
  have hcases : ∀ {st' ed'}, (empty.insert st ed).lookup st' = some ed' → st' = st ∧ ed' = ed := by
    intro st' ed' hchunk
    rw [lookup_insert] at hchunk
    rcases update_eq_some_iff.mp hchunk with ⟨heq, hsome⟩ | ⟨-, hnone⟩
    · exact ⟨heq, (some.inj hsome).symm⟩
    · cases hnone
  refine ⟨hlt.trans hed, fun hchunk => ?_, fun hchunk hchunk' hlt' => ?_, nofun, nofun⟩
  · obtain ⟨rfl, rfl⟩ := hcases hchunk
    exact ⟨le_rfl, hlt, hed⟩
  obtain ⟨rfl, -⟩ := hcases hchunk
  obtain ⟨rfl, -⟩ := hcases hchunk'
  exact absurd hlt' (lt_irrefl _)

theorem initGvaHeapMgmt (h : Inv g) (hlt : st < ed) (hed : ed < 2 ^ 64) :
    Inv (g.initGvaHeapMgmt st ed deviceId).2 := by
  unfold GvaHeap.initGvaHeapMgmt
  split
  · next hinited =>
    split
    · exact h
    next hstart =>
    obtain rfl : ed = g.start := not_not.mp hstart
    split
    · exact h
    · exact h.insertChunk hinited hlt
  · exact firstChunk hlt hed

theorem nextEnd_lt (h : Inv g) : g.nextEnd < 2 ^ 64 := by
  unfold GvaHeap.nextEnd
  split
  · exact h.start
  · norm_num [svmMemSize, svmMemStart, heapSize]

theorem le_nextEnd {allocSize : ℕ} (hsize : allocSize ≤ svmMemSize / 2)
    (hstart : ¬ (g.inited = true ∧ g.start < allocSize)) : allocSize ≤ g.nextEnd := by
  have htop : svmMemSize / 2 ≤ svmMemStart + svmMemSize - heapSize := by
    norm_num [svmMemSize, svmMemStart, heapSize]
  unfold GvaHeap.nextEnd
  split
  · next hinited => exact not_lt.mp fun hlt => hstart ⟨hinited, hlt⟩
  · exact hsize.trans htop

section

variable (h : Inv g)
include h

theorem reserveChunk (allocSize : ℕ) (deviceId : ℤ) (mgmt : Bool) (retVa : ℕ) :
    Inv (g.reserveChunk allocSize deviceId mgmt retVa).2 := by
  unfold GvaHeap.reserveChunk
  split
  · exact h
  next hsize =>
  rw [not_or, not_lt] at hsize
  split
  · exact h
  split
  · exact h
  next hstart =>
  have hle := le_nextEnd hsize.2 hstart
  split
  · exact h
  -- The chunk ends where the one before begins, or at the top.
  rw [Nat.sub_add_cancel hle]
  exact h.initGvaHeapMgmt (Nat.sub_lt_self (Nat.pos_of_ne_zero hsize.1) hle) h.nextEnd_lt

/-! ### Ranges -/

theorem tryUpdateGvaHeap {len : ℕ} (hok : g.WithinChunk va len) :
    Inv (g.tryUpdateGvaHeap va len).2 := by
  by_cases hacc : (g.tryUpdateGvaHeap va len).1 = true
  · obtain ⟨⟨st, ed⟩, hmem, hst, hed⟩ := hok hacc
    have hchunk := mem_entries_iff.mp hmem
    obtain ⟨-, -, hlt⟩ := h.chunks hchunk
    have hmod : (va + len) % 2 ^ 64 = va + len := Nat.mod_eq_of_lt (by omega)
    unfold GvaHeap.tryUpdateGvaHeap
    split
    · exact h
    split
    · exact h
    split
    · exact h
    refine { h with within := fun hrange => ?_ }
    rw [lookup_insert, hmod] at hrange
    rcases update_eq_some_iff.mp hrange with ⟨rfl, hsome⟩ | ⟨-, hrange⟩
    · obtain rfl := some.inj hsome
      exact ⟨Nat.le_add_right _ _, st, ed, hchunk, hst, hed⟩
    · exact h.within hrange
  unfold GvaHeap.tryUpdateGvaHeap at hacc ⊢
  split
  · exact h
  split
  · exact h
  split
  · exact h
  next hnot hin hfree =>
  rw [if_neg hnot, if_neg hin, if_neg hfree] at hacc
  exact absurd rfl hacc

theorem removeInGvaHeap (va : ℕ) : Inv (g.removeInGvaHeap va).2 := by
  unfold GvaHeap.removeInGvaHeap
  split
  · exact h
  refine { h with within := fun hrange => ?_ }
  exact h.within (lookup_erase_eq_some_iff.mp hrange).2

/-! ### Giving a chunk back -/

section

variable (hchunk : g.reserved.lookup va = some ed)
include hchunk

/-- The iterator passes every range of the chunk: the ranges before it in the chunk end in the
chunk too. -/
theorem mem_vaList (hrange : g.tree.lookup l = some r) (hl : va ≤ l) (hr : r ≤ ed) :
    l ∈ (g.tree.fromWhile va fun it => it.2 ≤ ed).map Prod.fst := by
  refine List.mem_map.mpr ⟨(l, r), mem_fromWhile_iff.mpr ⟨hrange, hl, ?_⟩, rfl⟩
  intro l' r' hrange' hl' hle'
  obtain ⟨hle, st', ed', hchunk', hst', hed'⟩ := h.within hrange'
  obtain ⟨hlr, -⟩ := h.within hrange
  rw [decide_eq_true_eq]
  rcases hle'.eq_or_lt with rfl | hlt'
  · obtain rfl := some.inj (hrange.symm.trans hrange')
    exact hr
  by_cases hempty : r' = l'
  · omega
  -- The range is not empty, so its first address is in both chunks.
  obtain ⟨-, rfl⟩ := @chunk_eq g va ed h st' ed' l' hchunk hchunk' ⟨hl', by omega⟩ ⟨hst', by omega⟩
  exact hed'

theorem lookup_removeReserved :
    (g.gvaHeapRemoveReserved va).tree =
        g.tree.eraseAll ((g.tree.fromWhile va fun it => it.2 ≤ ed).map Prod.fst) ∧
      (g.gvaHeapRemoveReserved va).reserved = g.reserved.erase va := by
  have hinited : g.inited = true := by
    by_contra hnot
    have hnone := h.inited (by simpa using hnot) va
    exact nomatch hchunk.symm.trans hnone
  unfold GvaHeap.gvaHeapRemoveReserved
  rw [hinited, hchunk]
  exact ⟨rfl, rfl⟩

theorem within_of_stays (hrange : (g.gvaHeapRemoveReserved va).tree.lookup l = some r) :
    l ≤ r ∧ ∃ st' ed', st' ≠ va ∧ g.reserved.lookup st' = some ed' ∧ st' ≤ l ∧ r ≤ ed' := by
  rw [(h.lookup_removeReserved hchunk).1, lookup_eraseAll] at hrange
  obtain ⟨hnot, hfound⟩ := ite_none_left_eq_some.mp hrange
  obtain ⟨hle, st', ed', hchunk', hst', hed'⟩ := h.within hfound
  refine ⟨hle, st', ed', ?_, hchunk', hst', hed'⟩
  intro heq
  rw [heq, hchunk, some_inj] at hchunk'
  exact hnot (h.mem_vaList hchunk hfound (heq ▸ hst') (hchunk' ▸ hed'))

end

theorem gvaHeapRemoveReserved (va : ℕ) : Inv (g.gvaHeapRemoveReserved va) := by
  cases hchunk : g.reserved.lookup va with
  | none =>
    have heq : g.gvaHeapRemoveReserved va = g := by
      rw [GvaHeap.gvaHeapRemoveReserved, hchunk]
      simp
    rw [heq]
    exact h
  | some ed =>
    obtain ⟨-, hresv⟩ := h.lookup_removeReserved hchunk
    have hsame : (g.gvaHeapRemoveReserved va).start = g.start ∧
        (g.gvaHeapRemoveReserved va).inited = g.inited := by
      unfold GvaHeap.gvaHeapRemoveReserved
      rw [hchunk]
      split <;> exact ⟨rfl, rfl⟩
    have hof : ∀ {st' ed'}, (g.gvaHeapRemoveReserved va).reserved.lookup st' = some ed' →
        g.reserved.lookup st' = some ed' := by
      intro st' ed' hfound
      rw [hresv] at hfound
      exact (lookup_erase_eq_some_iff.mp hfound).2
    refine ⟨hsame.1 ▸ h.start, fun hfound => hsame.1 ▸ h.chunks (hof hfound),
      fun hfound hfound' => h.apart (hof hfound) (hof hfound'), fun hrange => ?_, fun hnot st => ?_⟩
    · obtain ⟨hle, st', ed', hne, hchunk', hin⟩ := h.within_of_stays hchunk hrange
      refine ⟨hle, st', ed', ?_, hin⟩
      rw [hresv, lookup_erase]
      exact (Function.update_of_ne hne _ _).trans hchunk'
    · exact nomatch hchunk.symm.trans (h.inited (hsame.2 ▸ hnot) va)

theorem cleared : Cleared g := by
  rintro va ed hchunk l r hrange a hla har ⟨hva, hed⟩
  obtain ⟨-, st', ed', hne, hchunk', hst', hed'⟩ := h.within_of_stays hchunk hrange
  obtain ⟨heq, -⟩ := @chunk_eq g va ed h st' ed' a hchunk hchunk' ⟨hva, hed⟩
    ⟨hst'.trans hla, har.trans_le hed'⟩
  exact hne heq.symm

end

end Inv

/-! ### Runs -/

theorem inv_next {a : GvaStep} (h : Inv g) (hok : Orderly g a)
    (hnext : gvaSystem.next g a = some g') : Inv g' := by
  cases a with
  | halGvaReserveMemory size deviceId mgmt retVa =>
    exact some.inj hnext ▸ h.reserveChunk _ deviceId mgmt retVa
  | halGvaUnreserveMemory address =>
    exact some.inj hnext ▸ h.gvaHeapRemoveReserved address
  | halGvaAlloc address size advised =>
    exact some.inj hnext ▸
      halGvaAlloc_rule h (·.removeInGvaHeap _) (h.tryUpdateGvaHeap hok) advised
  | halGvaOpen address size advised mapped =>
    exact some.inj hnext ▸
      halGvaOpen_rule h (·.removeInGvaHeap _) (h.tryUpdateGvaHeap hok) advised mapped
  | halGvaFree address => exact some.inj hnext ▸ h.removeInGvaHeap address
  | halGvaClose address unmapped =>
    exact some.inj hnext ▸ halGvaClose_rule h (·.removeInGvaHeap _) unmapped

/-- If every accepted request lies within one chunk, the recorded ranges lie in reserved chunks, and
giving a chunk back leaves no range in it. -/
theorem contained_of_orderly (g : GvaHeap) (h : gvaSystem.ReachableBy Orderly g) :
    Contained g ∧ Cleared g := by
  have hinv : Inv g :=
    TransitionSystem.ReachableBy.invariant inv_new (fun h hok hnext => inv_next h hok hnext) h
  exact ⟨hinv.contained, hinv.cleared⟩

def top : ℕ := svmMemStart + svmMemSize - heapSize

def twoChunks : List GvaStep :=
  [.halGvaReserveMemory heapSize 0 true (top - heapSize),
    .halGvaReserveMemory heapSize 0 true (top - 2 * heapSize)]

def seen (g : GvaHeap) : List (ℕ × ℕ) × List (ℕ × ℕ) := (g.tree.entries, g.reserved.entries)

theorem contained_after_unreserve : ∃ g, gvaSystem.ReachableBy Orderly g ∧
    g.tree.entries = [(top - heapSize, top - heapSize + mapAlignSize)] ∧
    g.reserved.entries = [(top - heapSize, top)] ∧ Contained g ∧ Cleared g := by
  refine TransitionSystem.exists_reachableBy (twoChunks ++ [.halGvaAlloc (top - heapSize)
    mapAlignSize true, .halGvaOpen (top - 2 * heapSize) mapAlignSize true true,
    .halGvaUnreserveMemory (top - 2 * heapSize)]) seen ([(top - heapSize, top - heapSize +
    mapAlignSize)], [(top - heapSize, top)]) ?_ fun g hreach hseen => ?_
  · decide +kernel
  obtain ⟨htree, hresv⟩ := Prod.mk.inj hseen
  exact ⟨htree, hresv, contained_of_orderly g hreach⟩

theorem not_contained_of_outside {a : ℕ} (hrange : (l, r) ∈ g.tree.entries) (hl : l ≤ a)
    (hr : a < r) (hout : ∀ chunk ∈ g.reserved.entries, ¬ (chunk.1 ≤ a ∧ a < chunk.2)) :
    ¬ Contained g := by
  intro h
  obtain ⟨-, hin⟩ := h l r (mem_entries_iff.mp hrange)
  obtain ⟨st, ed, hchunk, hst, hed⟩ := hin a hl hr
  exact hout (st, ed) (mem_entries_iff.mpr hchunk) ⟨hst, hed⟩

/-- A range is taken from a chunk that was given back, and a range over two chunks stays when one of
them is given back. -/
theorem recorded_outside_chunks :
    (∃ g, gvaSystem.Reachable g ∧
      g.tree.entries = [(top - heapSize, top - heapSize + mapAlignSize)] ∧
      g.reserved.entries = [(top - 2 * heapSize, top - heapSize)] ∧ ¬ Contained g) ∧
    ∃ g, gvaSystem.Reachable g ∧
      g.tree.entries = [(top - heapSize - mapAlignSize, top - heapSize + mapAlignSize)] ∧
      (g.gvaHeapRemoveReserved (top - 2 * heapSize)).tree.entries =
        [(top - heapSize - mapAlignSize, top - heapSize + mapAlignSize)] ∧ ¬ Cleared g := by
  refine ⟨?_, ?_⟩
  · refine TransitionSystem.exists_reachable (twoChunks ++
      [.halGvaUnreserveMemory (top - heapSize), .halGvaAlloc (top - heapSize) mapAlignSize true])
      seen ([(top - heapSize, top - heapSize + mapAlignSize)],
        [(top - 2 * heapSize, top - heapSize)]) ?_ fun g _ hseen => ?_
    · decide +kernel
    obtain ⟨htree, hresv⟩ := Prod.mk.inj hseen
    refine ⟨htree, hresv, ?_⟩
    refine not_contained_of_outside (htree ▸ List.mem_cons_self) le_rfl ?_ ?_
    · exact Nat.lt_add_of_pos_right (by decide)
    · rw [hresv]
      decide +kernel
  refine TransitionSystem.exists_reachable (twoChunks ++
    [.halGvaAlloc (top - heapSize - mapAlignSize) (2 * mapAlignSize) true]) (fun g =>
      (seen g, (g.gvaHeapRemoveReserved (top - 2 * heapSize)).tree.entries))
    (([(top - heapSize - mapAlignSize, top - heapSize + mapAlignSize)],
      [(top - 2 * heapSize, top - heapSize), (top - heapSize, top)]),
      [(top - heapSize - mapAlignSize, top - heapSize + mapAlignSize)]) ?_ fun g _ hseen => ?_
  · decide +kernel
  obtain ⟨hseen, hafter⟩ := Prod.mk.inj hseen
  obtain ⟨htree, hresv⟩ := Prod.mk.inj hseen
  refine ⟨htree, hafter, fun h => ?_⟩
  have hchunk : g.reserved.lookup (top - 2 * heapSize) = some (top - heapSize) :=
    mem_entries_iff.mp (hresv ▸ List.mem_cons_self)
  have hrange := mem_entries_iff.mp (hafter.symm ▸ List.mem_cons_self)
  -- The first address of the range is in the chunk that was given back.
  exact h _ _ hchunk _ _ hrange (top - heapSize - mapAlignSize) le_rfl (by decide +kernel)
    (by decide +kernel)

/-! ### Ranges do not overlap -/

/-- The calls that change the ranges. -/
inductive HeapCall
  | tryUpdate (va len : ℕ)
  | remove (va : ℕ)
  | removeReserved (va : ℕ)

/-- Runs of these calls on a heap with any bounds and chunks, and no ranges. -/
def heapSystem (heap : GvaHeap) : TransitionSystem GvaHeap HeapCall where
  start := { heap with inited := true, tree := .empty }
  next g
    | .tryUpdate va len => some (g.tryUpdateGvaHeap va len).2
    | .remove va => some (g.removeInGvaHeap va).2
    | .removeReserved va => some (g.gvaHeapRemoveReserved va)

/-- A request has a length, and its end does not wrap. -/
def plain : HeapCall → Bool
  | .tryUpdate va len => 0 < len ∧ va + len < 2 ^ 64
  | _ => true

structure RangesApart (g : GvaHeap) : Prop where
  inited : g.inited = true
  pos : ∀ {l r}, g.tree.lookup l = some r → l < r
  apart : ∀ {l r l' r'}, g.tree.lookup l = some r → g.tree.lookup l' = some r' → l < l' → r ≤ l'

def Overlaps (g : GvaHeap) (va len : ℕ) : Prop :=
  ∃ l r, g.tree.lookup l = some r ∧ l < va + len ∧ va < r

namespace RangesApart

variable {len : ℕ} {heap : GvaHeap}

theorem mono (h : RangesApart g) (hinited : g'.inited = g.inited)
    (htree : ∀ {l r}, g'.tree.lookup l = some r → g.tree.lookup l = some r) : RangesApart g' :=
  ⟨hinited.trans h.inited, fun hl => h.pos (htree hl), fun hl hl' => h.apart (htree hl) (htree hl')⟩

/-- Looking at the neighbours is enough. -/
theorem checkInRange_iff (h : RangesApart g) (hlen : 0 < len) (hend : va + len < 2 ^ 64) :
    g.gvaHeapCheckInRange va len = true ↔ Overlaps g va len := by
  rw [GvaHeap.gvaHeapCheckInRange, Nat.mod_eq_of_lt hend, Bool.or_eq_true]
  constructor
  · rintro (hnext | hprev)
    · cases hbound : g.tree.lowerBound va with
      | none => simp [hbound] at hnext
      | some p =>
        simp only [hbound, Bool.and_eq_true, decide_eq_true_eq] at hnext
        have hl := (lowerBound_eq_some hbound).1
        exact ⟨p.1, p.2, hl, hnext.2, hnext.1.trans_lt (h.pos hl)⟩
    cases hbelow : g.tree.below va with
    | none => simp [hbelow] at hprev
    | some p =>
      simp only [hbelow, Bool.and_eq_true, decide_eq_true_eq] at hprev
      exact ⟨p.1, p.2, (below_eq_some hbelow).1, by omega, hprev.2⟩
  rintro ⟨l, r, hl, hlt, hr⟩
  rcases Nat.lt_or_ge l va with hbefore | hafter
  · -- The range begins before the request: it is the last one that does.
    cases hbelow : g.tree.below va with
    | none => exact absurd (below_eq_none_iff.mp hbelow l r hl) (by omega)
    | some p =>
      obtain ⟨hp, hlt', hlast⟩ := below_eq_some hbelow
      rcases (hlast l r hl hbefore).eq_or_lt with rfl | hle
      · obtain rfl := some.inj (hl.symm.trans hp)
        simp only [Bool.and_eq_true, decide_eq_true_eq]
        omega
      · have hapart := h.apart hl hp hle
        omega
  left
  cases hbound : g.tree.lowerBound va with
  | none => exact absurd (lowerBound_eq_none_iff.mp hbound l r hl) (by omega)
  | some p =>
    obtain ⟨-, hle, hfirst⟩ := lowerBound_eq_some hbound
    have hle' := hfirst l r hl hafter
    simp only [Bool.and_eq_true, decide_eq_true_eq]
    omega

theorem tryUpdate (h : RangesApart g) (hlen : 0 < len) (hend : va + len < 2 ^ 64) :
    RangesApart (g.tryUpdateGvaHeap va len).2 := by
  unfold GvaHeap.tryUpdateGvaHeap
  iterate 3
    split
    · exact h
  next _ hfree =>
  rw [h.checkInRange_iff hlen hend] at hfree
  refine ⟨h.inited, fun hl => ?_, fun {l r l' r'} hl hl' hlt => ?_⟩
  · rcases lookup_insert_eq_some_iff.mp hl with ⟨rfl, rfl⟩ | ⟨-, hl⟩
    · omega
    · exact h.pos hl
  rcases lookup_insert_eq_some_iff.mp hl with ⟨rfl, rfl⟩ | ⟨-, hold⟩ <;>
    rcases lookup_insert_eq_some_iff.mp hl' with ⟨rfl, rfl⟩ | ⟨-, hold'⟩
  · exact absurd hlt (lt_irrefl _)
  · have hpos := h.pos hold'
    by_contra hnot
    exact hfree ⟨l', r', hold', by omega, by omega⟩
  · by_contra hnot
    exact hfree ⟨l, r, hold, by omega, by omega⟩
  · exact h.apart hold hold' hlt

theorem next {a : HeapCall} (h : RangesApart g) (ha : plain a = true)
    (hnext : (heapSystem heap).next g a = some g') : RangesApart g' := by
  cases a with
  | tryUpdate va len =>
    obtain ⟨hlen, hend⟩ := of_decide_eq_true ha
    exact some.inj hnext ▸ h.tryUpdate hlen hend
  | remove va =>
    rw [← some.inj hnext, GvaHeap.removeInGvaHeap, if_neg (by simp [h.inited])]
    exact h.mono rfl fun hl => (lookup_erase_eq_some_iff.mp hl).2
  | removeReserved va =>
    rw [← some.inj hnext, GvaHeap.gvaHeapRemoveReserved, if_neg (by simp [h.inited])]
    split
    · exact h
    · refine h.mono rfl fun hl => ?_
      rw [lookup_eraseAll] at hl
      exact (ite_none_left_eq_some.mp hl).2

end RangesApart

/-- The ranges do not overlap, and looking at the two neighbours of a request finds every overlap.
-/
theorem ranges_apart_and_refused_iff (heap g : GvaHeap)
    (h : (heapSystem heap).ReachableBy (fun _ a => plain a = true) g) :
    RangesApart g ∧ ∀ va len, 0 < len → va + len < 2 ^ 64 → g.start ≤ va →
      va + len ≤ g.endAddr → ((g.tryUpdateGvaHeap va len).1 = false ↔ Overlaps g va len) := by
  have hinv : RangesApart g := by
    refine TransitionSystem.ReachableBy.invariant ?_ (fun h ha hnext => h.next ha hnext) h
    exact ⟨rfl, nofun, nofun⟩
  refine ⟨hinv, fun va len hlen hend hstart htop => ?_⟩
  rw [← hinv.checkInRange_iff hlen hend, GvaHeap.tryUpdateGvaHeap, hinv.inited,
    Nat.mod_eq_of_lt hend, if_neg (by decide), if_neg (by omega)]
  split <;> simp_all

/-- Of three requests the second one overlaps the first and is refused. -/
theorem ranges_apart_three_requests :
    ∃ g, (heapSystem ⟨true, 0, 16, 64, .empty, .empty⟩).ReachableBy (fun _ a => plain a = true) g ∧
      g.tree.entries = [(16, 32), (40, 48)] ∧ RangesApart g ∧
      ((g.tryUpdateGvaHeap 31 1).1 = false ↔ Overlaps g 31 1) := by
  refine TransitionSystem.exists_reachableBy
    [.tryUpdate 16 16, .tryUpdate 24 16, .tryUpdate 40 8] (fun g => (g.tree.entries, g.start,
      g.endAddr)) ([(16, 32), (40, 48)], 16, 64) ?_ fun g hreach hseen => ?_
  · decide +kernel
  simp only [Prod.mk.injEq] at hseen
  obtain ⟨hinv, href⟩ := ranges_apart_and_refused_iff _ g hreach
  exact ⟨hseen.1, hinv, href 31 1 (by decide) (by decide) (by omega) (by omega)⟩

end Hybm.Gva
