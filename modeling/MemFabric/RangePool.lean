/-
The range pool from which the swap space is allocated.

`RbtreeRangePool` keeps the free ranges by offset (`addressTree`) and by size (`sizeTree`).
`Allocate` takes the smallest range that is large enough, the one with the least offset among
these, and puts what is left back; `Release` joins a range with its free neighbours.

`Partition` carries a tiling of the space along a run.
-/
import MemFabric.OrderedMap
import MemFabric.Tiling
import MemFabric.Transition

namespace Hybm

open Function OrderedMap Option List

/-- `AllocatedElement`; its allocator is the pool it came from. -/
structure AllocatedElement where
  startAddress : ℕ
  size : ℕ
  deriving DecidableEq

/-- `RbtreeRangePool`.  A range of the size tree is its size and its offset, so the order of
pairs is `RangeSizeFirst`. -/
structure RangePool where
  baseAddress : ℕ
  totalSize : ℕ
  addressTree : OrderedMap ℕ ℕ
  sizeTree : OrderedMap (ℕ ×ₗ ℕ) Unit

/-- `AllocateSizeAlignUp`: the low twelve bits are masked out. -/
def allocateSizeAlignUp (inputSize : ℕ) : ℕ := (inputSize + 4095) % 2 ^ 64 / 4096 * 4096

namespace RangePool

/-- The constructor: all of the space is free. -/
def new (address size : ℕ) : RangePool where
  baseAddress := address
  totalSize := size
  addressTree := .singleton 0 size
  sizeTree := .singleton (toLex (size, 0)) ()

variable (p : RangePool)

def eraseRange (offset size : ℕ) : RangePool :=
  { p with
    sizeTree := p.sizeTree.erase (toLex (size, offset))
    addressTree := p.addressTree.erase offset }

def emplaceRange (offset size : ℕ) : RangePool :=
  { p with
    addressTree := p.addressTree.emplace offset size
    sizeTree := p.sizeTree.emplace (toLex (size, offset)) () }

def canAllocate (size : ℕ) : Bool :=
  (p.sizeTree.lowerBound (toLex (allocateSizeAlignUp size, 0))).isSome

/-- `Allocate`; `none` is the empty element. -/
def allocate (size : ℕ) : Option AllocatedElement × RangePool :=
  let alignedSize := allocateSizeAlignUp size
  match p.sizeTree.lowerBound (toLex (alignedSize, 0)) with
  | none => (none, p)
  | some (sizePos, _) =>
    if p.baseAddress = 0 then (none, p)
    else
      let targetOffset := (ofLex sizePos).2
      let targetSize := (ofLex sizePos).1
      match p.addressTree.lookup targetOffset with
      | none => (none, p)
      | some _ =>
        let rest := p.eraseRange targetOffset targetSize
        (some ⟨p.baseAddress + targetOffset, size⟩,
          if alignedSize < targetSize then
            rest.emplaceRange (targetOffset + alignedSize) (targetSize - alignedSize)
          else rest)

/-- The first half of `Release`: a free range that ends at `offset` is taken out of the trees
and joined with the range.  Returns where the joined range begins, and its size. -/
def joinPrev (offset alignedSize : ℕ) : ℕ × ℕ × RangePool :=
  match p.addressTree.below offset with
  | none => (offset, alignedSize, p)
  | some (prevOffset, prevSize) =>
    if prevOffset + prevSize = offset then
      (prevOffset, alignedSize + prevSize, p.eraseRange prevOffset prevSize)
    else (offset, alignedSize, p)

/-- The second half: likewise for a free range that begins at `behind`. -/
def joinNext (behind finalSize : ℕ) : ℕ × RangePool :=
  match p.addressTree.lookup behind with
  | none => (finalSize, p)
  | some nextSize => (finalSize + nextSize, p.eraseRange behind nextSize)

def release (element : AllocatedElement) : Bool × RangePool :=
  let alignedSize := allocateSizeAlignUp element.size
  if p.baseAddress = 0 ∨ element.startAddress = 0 then (false, p)
  else if element.startAddress < p.baseAddress ∨
      (p.baseAddress + p.totalSize) % 2 ^ 64 ≤ element.startAddress then (false, p)
  else
    let offset := element.startAddress - p.baseAddress
    let prev := p.joinPrev offset alignedSize
    let next := prev.2.2.joinNext (offset + alignedSize) prev.2.1
    (true, next.2.emplaceRange prev.1 next.1)

end RangePool

/-! ### Sequences of calls -/

/-- A pool and the elements it has returned that have not been released. -/
structure PoolState where
  pool : RangePool
  live : List AllocatedElement

inductive PoolEvent
  | allocate (size : ℕ)
  | release (element : AllocatedElement)

/-- The largest size whose aligned size does not wrap around. -/
def maxAllocateSize : ℕ := 2 ^ 64 - 4096

def poolSystem (address size : ℕ) : TransitionSystem PoolState PoolEvent where
  start := ⟨.new address size, []⟩
  next s
    | .allocate size =>
      if 1 ≤ size ∧ size ≤ maxAllocateSize then
        some ⟨(s.pool.allocate size).2, (s.pool.allocate size).1.toList ++ s.live⟩
      else none
    | .release element =>
      if element ∈ s.live then some ⟨(s.pool.release element).2, s.live.erase element⟩ else none

/-! ### The trees and the free tiles -/

/-- The tiles of the space that are free; a tile is labelled with whether it is. -/
def freeOf (tile : ℕ → Option (Bool × ℕ)) (o : ℕ) : Option ℕ :=
  match tile o with
  | some (true, n) => some n
  | _ => none

section FreeOf

variable {tile : ℕ → Option (Bool × ℕ)} {o n : ℕ}

theorem freeOf_eq_some_iff : freeOf tile o = some n ↔ tile o = some (true, n) := by
  rw [freeOf]
  split
  · rename_i m hm
    rw [hm]
    simp
  rename_i hno
  constructor
  · intro h
    cases h
  · intro h
    exact absurd h (hno n)

theorem freeOf_update (x : Option (Bool × ℕ)) :
    freeOf (update tile o x) = update (freeOf tile) o (freeOf (fun _ => x) o) := by
  funext y
  rw [update_apply]
  split
  · rename_i hy
    rw [freeOf, freeOf, hy, update_self]
  · rename_i hy
    rw [freeOf, freeOf, update_of_ne hy]

theorem freeOf_update_free (n : ℕ) :
    freeOf (update tile o (some (true, n))) = update (freeOf tile) o (some n) :=
  freeOf_update _

theorem freeOf_update_live (n : ℕ) :
    freeOf (update tile o (some (false, n))) = update (freeOf tile) o none :=
  freeOf_update _

theorem freeOf_update_none :
    freeOf (update tile o none) = update (freeOf tile) o none :=
  freeOf_update _

end FreeOf

/-- Both trees hold exactly these free ranges. -/
structure RangePool.Holds (p : RangePool) (free : ℕ → Option ℕ) : Prop where
  address : p.addressTree.lookup = free
  size : ∀ o n, p.sizeTree.lookup (toLex (n, o)) = some () ↔ free o = some n

namespace RangePool.Holds

variable {p : RangePool} {free : ℕ → Option ℕ} {o n : ℕ}

theorem eraseRange (h : p.Holds free) (ho : free o = some n) :
    (p.eraseRange o n).Holds (update free o none) := by
  refine ⟨?_, fun o' n' => ?_⟩
  · rw [RangePool.eraseRange, lookup_erase, h.address]
  rw [RangePool.eraseRange, lookup_erase, update_eq_some_iff, update_eq_some_iff, h.size]
  simp only [reduceCtorEq, and_false, false_or, toLex_inj, Prod.mk.injEq, ne_eq, not_and]
  constructor
  · rintro ⟨hne, hfree⟩
    refine ⟨?_, hfree⟩
    rintro rfl
    rw [ho, some_inj] at hfree
    exact hne hfree.symm rfl
  · rintro ⟨hne, hfree⟩
    exact ⟨fun _ => hne, hfree⟩

theorem emplaceRange (h : p.Holds free) (ho : free o = none) :
    (p.emplaceRange o n).Holds (update free o (some n)) := by
  have hsize : p.sizeTree.lookup (toLex (n, o)) = none := by
    rw [eq_none_iff_forall_ne_some]
    intro u hu
    rw [(h.size o n).mp hu] at ho
    cases ho
  have haddress : p.addressTree.lookup o = none := by rw [h.address, ho]
  refine ⟨?_, fun o' n' => ?_⟩
  · rw [RangePool.emplaceRange, lookup_emplace haddress, h.address]
  rw [RangePool.emplaceRange, lookup_emplace hsize, update_eq_some_iff, update_eq_some_iff, h.size]
  simp only [toLex_inj, Prod.mk.injEq, and_true, ne_eq, not_and, some_inj]
  constructor
  · rintro (⟨rfl, rfl⟩ | ⟨hne, hfree⟩)
    · exact .inl ⟨rfl, rfl⟩
    refine .inr ⟨?_, hfree⟩
    rintro rfl
    rw [ho] at hfree
    cases hfree
  · rintro (⟨rfl, rfl⟩ | ⟨hne, hfree⟩)
    · exact .inl ⟨rfl, rfl⟩
    · exact .inr ⟨fun _ => hne, hfree⟩

theorem lowerBound_eq_none_iff (h : p.Holds free) (a : ℕ) :
    p.sizeTree.lowerBound (toLex (a, 0)) = none ↔ ∀ o n, free o = some n → n < a := by
  rw [OrderedMap.lowerBound_eq_none_iff]
  constructor
  · intro hall o n ho
    have hlt := hall (toLex (n, o)) () ((h.size o n).mpr ho)
    rw [Prod.Lex.toLex_lt_toLex] at hlt
    rcases hlt with hlt | ⟨-, hlt⟩
    · exact hlt
    · exact absurd hlt (Nat.not_lt_zero o)
  rintro hall k ⟨⟩ hk
  have hlt := hall (ofLex k).2 (ofLex k).1 ((h.size _ _).mp hk)
  rw [← toLex_ofLex k, Prod.Lex.lt_iff]
  exact .inl hlt

theorem lowerBound_eq_some (h : p.Holds free) {a : ℕ} {k : ℕ ×ₗ ℕ} {u : Unit}
    (hk : p.sizeTree.lowerBound (toLex (a, 0)) = some (k, u)) :
    free (ofLex k).2 = some (ofLex k).1 ∧ a ≤ (ofLex k).1 := by
  obtain ⟨hlook, hle, -⟩ := OrderedMap.lowerBound_eq_some hk
  refine ⟨(h.size _ _).mp hlook, ?_⟩
  rw [Prod.Lex.le_iff] at hle
  rcases hle with hlt | ⟨heq, -⟩
  · exact hlt.le
  · exact heq.le

end RangePool.Holds

/-! ### The invariant -/

def Apart (tile : ℕ → Option (Bool × ℕ)) : Prop :=
  ∀ o n n', tile o = some (true, n) → tile (o + n) ≠ some (true, n')

/-- The space is tiled by the free ranges and the live elements. -/
structure Partition (base total : ℕ) (s : PoolState) (tile : ℕ → Option (Bool × ℕ)) : Prop where
  base_eq : s.pool.baseAddress = base
  total_eq : s.pool.totalSize = total
  tiling : Tiling tile total
  holds : s.pool.Holds (freeOf tile)
  apart : Apart tile
  live : ∀ e ∈ s.live, ∃ o, e.startAddress = base + o ∧
    tile o = some (false, allocateSizeAlignUp e.size)
  owned : ∀ o n, tile o = some (false, n) → ∃ e ∈ s.live, e.startAddress = base + o
  distinct : (s.live.map AllocatedElement.startAddress).Nodup

variable {size : ℕ}

theorem allocateSizeAlignUp_pos (h : 1 ≤ size) (hmax : size ≤ maxAllocateSize) :
    0 < allocateSizeAlignUp size := by
  rw [maxAllocateSize] at hmax
  rw [allocateSizeAlignUp]
  omega

/-! ### Joining free ranges -/

/-- While a range is released: it is a free tile from `cur` on that is in neither tree yet, and
`busy` are the tiles in use. -/
structure Joining (p : RangePool) (base total : ℕ) (busy : ℕ → ℕ → Prop)
    (tile : ℕ → Option (Bool × ℕ)) (cur size : ℕ) : Prop where
  base_eq : p.baseAddress = base
  total_eq : p.totalSize = total
  tiling : Tiling tile total
  here : tile cur = some (true, size)
  holds : p.Holds (update (freeOf tile) cur none)
  busy_iff : ∀ x k, tile x = some (false, k) ↔ busy x k

variable {o n : ℕ}

namespace Joining

variable {p : RangePool} {base total cur size : ℕ} {busy : ℕ → ℕ → Prop}
  {tile : ℕ → Option (Bool × ℕ)}

theorem busy_merge {o o' n n' m : ℕ} (ho : tile o = some (true, n))
    (ho' : tile o' = some (true, n')) (x k : ℕ) :
    update (update tile o' none) o (some (true, m)) x = some (false, k) ↔
      tile x = some (false, k) := by
  rw [update_eq_some_iff, update_eq_some_iff]
  simp only [some.injEq, Prod.mk.injEq, Bool.true_eq_false, false_and, and_false,
    reduceCtorEq, false_or]
  constructor
  · rintro ⟨-, -, hx⟩
    exact hx
  intro hx
  refine ⟨?_, ?_, hx⟩
  · rintro rfl
    rw [ho] at hx
    cases hx
  · rintro rfl
    rw [ho'] at hx
    cases hx

section

variable (h : Joining p base total busy tile cur size)
include h

theorem mergeNext {n : ℕ} (hnext : tile (cur + size) = some (true, n)) :
    Joining (p.eraseRange (cur + size) n) base total busy
      (update (update tile (cur + size) none) cur (some (true, size + n)))
      cur (size + n) := by
  have hpos := h.tiling.pos h.here
  refine ⟨h.base_eq, h.total_eq, h.tiling.merge h.here hnext true, update_self .., ?_,
    fun x k => ?_⟩
  · have hfree : update (freeOf tile) cur none (cur + size) = some n := by
      rw [update_of_ne (by omega), freeOf_eq_some_iff, hnext]
    have herase := h.holds.eraseRange hfree
    rw [freeOf_update_free, freeOf_update_none, update_idem, update_comm (by omega)]
    exact herase
  · rw [busy_merge h.here hnext, h.busy_iff]

theorem mergePrev (ho : tile o = some (true, n)) (hprev : o + n = cur) :
    Joining (p.eraseRange o n) base total busy
      (update (update tile cur none) o (some (true, n + size))) o (n + size) := by
  have hpos := h.tiling.pos ho
  subst hprev
  refine ⟨h.base_eq, h.total_eq, h.tiling.merge ho h.here true, update_self .., ?_, fun x k => ?_⟩
  · have hfree : update (freeOf tile) (o + n) none o = some n := by
      rw [update_of_ne (by omega), freeOf_eq_some_iff, ho]
    rw [freeOf_update_free, freeOf_update_none, update_idem]
    exact h.holds.eraseRange hfree
  · rw [busy_merge ho h.here, h.busy_iff]

theorem joinPrev (happart : ∀ o n n', tile o = some (true, n) → tile (o + n) = some (true, n') →
      o = cur ∨ o + n = cur) :
    ∃ tile', Joining (p.joinPrev cur size).2.2 base total busy tile'
        (p.joinPrev cur size).1 (p.joinPrev cur size).2.1 ∧
      (p.joinPrev cur size).1 + (p.joinPrev cur size).2.1 = cur + size ∧
      ∀ o n n', tile' o = some (true, n) → tile' (o + n) = some (true, n') →
        o = (p.joinPrev cur size).1 := by
  have hlook : ∀ o n, p.addressTree.lookup o = some n ↔ o ≠ cur ∧ tile o = some (true, n) := by
    intro o n
    rw [h.holds.address, update_eq_some_iff, freeOf_eq_some_iff]
    simp
  rw [RangePool.joinPrev]
  split
  · rename_i hbelow
    rw [below_eq_none_iff] at hbelow
    refine ⟨tile, h, rfl, fun o n n' ho hnext => ?_⟩
    rcases happart o n n' ho hnext with hcur | hend
    · exact hcur
    have hpos := h.tiling.pos ho
    have hle := hbelow o n ((hlook o n).mpr ⟨by omega, ho⟩)
    omega
  rename_i o n hbelow
  obtain ⟨ho, hlt, hgreatest⟩ := below_eq_some hbelow
  obtain ⟨hne, ho⟩ := (hlook o n).mp ho
  split
  · rename_i hend
    rw [Nat.add_comm size n]
    refine ⟨_, h.mergePrev ho hend, by dsimp only; omega, fun q m m' hq hnext => ?_⟩
    rw [update_eq_some_iff, update_eq_some_iff] at hq hnext
    simp only [reduceCtorEq, and_false, false_or] at hq hnext
    rcases hq with ⟨hq, -⟩ | ⟨-, hqcur, hq⟩
    · exact hq
    rcases hnext with ⟨hqm, -⟩ | ⟨-, hqm, hnext⟩
    · rcases happart q m n hq (hqm ▸ ho) with hcur | hcur
      · exact absurd hcur hqcur
      · omega
    · rcases happart q m m' hq hnext with hcur | hcur
      · exact absurd hcur hqcur
      · exact absurd hcur hqm
  refine ⟨tile, h, rfl, fun q m m' hq hnext => ?_⟩
  rcases happart q m m' hq hnext with hcur | hqm
  · exact hcur
  -- A free tile that ends at `cur` would be the greatest one in front of it.
  have hpos := h.tiling.pos hq
  have hle := hgreatest q m ((hlook q m).mpr ⟨by omega, hq⟩) (by omega)
  rcases Nat.lt_or_eq_of_le hle with hlt' | rfl
  · have hdisj := h.tiling.disjoint hq ho hlt'
    omega
  rw [ho] at hq
  simp only [some.injEq, Prod.mk.injEq, true_and] at hq
  omega

theorem joinNext
    (happart : ∀ o n n', tile o = some (true, n) → tile (o + n) = some (true, n') → o = cur) :
    ∃ tile', Joining (p.joinNext (cur + size) size).2 base total busy tile' cur
        (p.joinNext (cur + size) size).1 ∧ Apart tile' := by
  have hpos := h.tiling.pos h.here
  have hlook : p.addressTree.lookup (cur + size) = freeOf tile (cur + size) := by
    rw [h.holds.address, update_of_ne (by omega)]
  rw [RangePool.joinNext]
  split
  · rename_i hnone
    refine ⟨tile, h, fun o n n' ho hnext => ?_⟩
    obtain rfl := happart o n n' ho hnext
    rw [h.here] at ho
    simp only [some.injEq, Prod.mk.injEq, true_and] at ho
    rw [← ho, ← freeOf_eq_some_iff, ← hlook, hnone] at hnext
    cases hnext
  rename_i n hsome
  rw [hlook, freeOf_eq_some_iff] at hsome
  refine ⟨_, h.mergeNext hsome, fun o m m' ho hnext => ?_⟩
  rw [update_eq_some_iff, update_eq_some_iff] at ho hnext
  simp only [some.injEq, Prod.mk.injEq, true_and, reduceCtorEq, and_false, false_or] at ho hnext
  rcases ho with ⟨rfl, rfl⟩ | ⟨hocur, -, ho⟩
  · rcases hnext with ⟨hend, -⟩ | ⟨-, -, hnext⟩
    · omega
    rw [← Nat.add_assoc] at hnext
    have hcur := happart (o + size) n m' hsome hnext
    omega
  · rcases hnext with ⟨hend, -⟩ | ⟨-, -, hnext⟩
    · exact hocur (happart o m size ho (hend ▸ h.here))
    · exact hocur (happart o m m' ho hnext)

end

end Joining

namespace Partition

variable {base total : ℕ} {s : PoolState} {tile : ℕ → Option (Bool × ℕ)}

theorem start (base : ℕ) (htotal : 0 < total) :
    Partition base total (poolSystem base total).start
      (fun o => if o = 0 then some (true, total) else none) where
  base_eq := rfl
  total_eq := rfl
  tiling := Tiling.whole true htotal
  holds := by
    have hfree : freeOf (fun o => if o = 0 then some (true, total) else none) =
        update (fun _ => none) 0 (some total) := by
      funext o
      rw [update_apply, freeOf]
      by_cases h : o = 0
      · rw [if_pos h, if_pos h]
      · rw [if_neg h, if_neg h]
    rw [hfree]
    refine ⟨lookup_singleton _ _, fun o n => ?_⟩
    show (singleton _ _).lookup _ = _ ↔ _
    rw [OrderedMap.lookup_singleton, OrderedMap.update_eq_some_iff, OrderedMap.update_eq_some_iff]
    simp [eq_comm, and_comm]
  apart := by
    intro o n n' ho hnext
    have hpos := (Tiling.whole true htotal).pos ho
    dsimp only at hnext
    rw [if_neg (by omega)] at hnext
    cases hnext
  live := by
    intro e he
    cases he
  owned := by
    intro o n ho
    split at ho <;> exact nomatch ho
  distinct := nodup_nil

section

variable (h : Partition base total s tile)
include h

theorem occupy {o n size : ℕ} (ho : tile o = some (true, n))
    {p : RangePool} {tile' : ℕ → Option (Bool × ℕ)} (hbase : p.baseAddress = base)
    (htotal : p.totalSize = total) (htiling : Tiling tile' total) (hholds : p.Holds (freeOf tile'))
    (hapart : Apart tile')
    (hlive : ∀ x k, tile' x = some (false, k) ↔
      (x = o ∧ k = allocateSizeAlignUp size) ∨ tile x = some (false, k)) :
    Partition base total ⟨p, ⟨base + o, size⟩ :: s.live⟩ tile' where
  base_eq := hbase
  total_eq := htotal
  tiling := htiling
  holds := hholds
  apart := hapart
  live := by
    intro e he
    rcases mem_cons.mp he with rfl | he
    · exact ⟨o, rfl, (hlive _ _).mpr (.inl ⟨rfl, rfl⟩)⟩
    · obtain ⟨x, hx, hlx⟩ := h.live e he
      exact ⟨x, hx, (hlive _ _).mpr (.inr hlx)⟩
  owned := by
    intro x k hx
    rcases (hlive x k).mp hx with ⟨rfl, -⟩ | hx
    · exact ⟨_, mem_cons_self, rfl⟩
    · obtain ⟨e, he, hex⟩ := h.owned x k hx
      exact ⟨e, mem_cons_of_mem _ he, hex⟩
  distinct := by
    rw [List.map_cons, List.nodup_cons, List.mem_map]
    refine ⟨?_, h.distinct⟩
    rintro ⟨e, he, heq⟩
    obtain ⟨x, hx, hlx⟩ := h.live e he
    have hxo : x = o := by
      simp only at heq
      omega
    rw [hxo, ho] at hlx
    cases hlx

theorem allocate (hbase : base ≠ 0) (hsize : 1 ≤ size) (hmax : size ≤ maxAllocateSize) :
    ∃ tile', Partition base total
      ⟨(s.pool.allocate size).2, (s.pool.allocate size).1.toList ++ s.live⟩ tile' := by
  have hpos := allocateSizeAlignUp_pos hsize hmax
  rw [RangePool.allocate]
  split
  · exact ⟨tile, h⟩
  rename_i k u hk
  obtain ⟨hfree, hle⟩ := h.holds.lowerBound_eq_some hk
  have ho := freeOf_eq_some_iff.mp hfree
  have hlook : s.pool.addressTree.lookup (ofLex k).2 = some (ofLex k).1 := by
    rw [h.holds.address, hfree]
  have herase := h.holds.eraseRange hfree
  rw [h.base_eq, if_neg hbase]
  simp only [hlook, toList_some, singleton_append]
  generalize (ofLex k).2 = o at *
  generalize (ofLex k).1 = n at *
  by_cases hlt : allocateSizeAlignUp size < n
  · rw [if_pos hlt]
    generalize ha : allocateSizeAlignUp size = a at *
    have hgap : freeOf tile (o + a) = none := by
      rw [eq_none_iff_forall_ne_some]
      intro m hm
      rw [freeOf_eq_some_iff, h.tiling.gap ho (by omega) (by omega)] at hm
      cases hm
    have hrest : update (freeOf tile) o none (o + a) = none := by
      rw [update_of_ne (by omega), hgap]
    refine ⟨_, h.occupy ho h.base_eq h.total_eq (h.tiling.split ho hpos hlt false true) ?_ ?_ ?_⟩
    · rw [freeOf_update_free, freeOf_update_live]
      exact herase.emplaceRange hrest
    · intro x m m' hx hnext
      rw [update_eq_some_iff, update_eq_some_iff] at hx hnext
      simp only [some.injEq, Prod.mk.injEq, Bool.false_eq_true, false_and, and_false,
        true_and, false_or] at hx hnext
      rcases hx with ⟨rfl, rfl⟩ | ⟨-, hxo, hx⟩
      · -- Behind what is left lies what lay behind the free range.
        have hend : o + a + (n - a) = o + n := by omega
        rw [hend] at hnext
        rcases hnext with ⟨heq, -⟩ | ⟨-, -, hnext⟩
        · omega
        · exact h.apart o n m' ho hnext
      rcases hnext with ⟨heq, -⟩ | ⟨-, -, hnext⟩
      · rcases lt_or_gt_of_ne hxo with hlt' | hlt'
        · have := h.tiling.disjoint hx ho hlt'
          omega
        · have := h.tiling.disjoint ho hx hlt'
          omega
      · exact h.apart x m m' hx hnext
    intro x j
    have hnone := h.tiling.gap ho (show o < o + a by omega) (by omega)
    rw [update_eq_some_iff, update_eq_some_iff]
    simp only [some.injEq, Prod.mk.injEq, Bool.true_eq_false, false_and, and_false,
      true_and, false_or]
    constructor
    · rintro ⟨-, ⟨rfl, rfl⟩ | ⟨-, hx⟩⟩
      · exact .inl ⟨rfl, ha.symm⟩
      · exact .inr hx
    rintro (⟨rfl, rfl⟩ | hx)
    · exact ⟨by omega, .inl ⟨rfl, ha.symm⟩⟩
    refine ⟨?_, .inr ⟨?_, hx⟩⟩
    · rintro rfl
      rw [hnone] at hx
      cases hx
    · rintro rfl
      rw [ho] at hx
      cases hx
  rw [if_neg hlt]
  have hn : n = allocateSizeAlignUp size := by omega
  refine ⟨_, h.occupy ho h.base_eq h.total_eq (h.tiling.relabel ho false) ?_ ?_ ?_⟩
  · rw [freeOf_update_live]
    exact herase
  · intro x m m' hx hnext
    rw [update_eq_some_iff] at hx hnext
    simp only [some.injEq, Prod.mk.injEq, Bool.false_eq_true, false_and, and_false,
      false_or] at hx hnext
    exact h.apart x m m' hx.2 hnext.2
  intro x j
  rw [update_eq_some_iff, some.injEq, Prod.mk.injEq, ← hn]
  constructor
  · rintro (⟨rfl, -, rfl⟩ | ⟨-, hx⟩)
    · exact .inl ⟨rfl, rfl⟩
    · exact .inr hx
  rintro (⟨rfl, rfl⟩ | hx)
  · exact .inl ⟨rfl, rfl, rfl⟩
  refine .inr ⟨?_, hx⟩
  rintro rfl
  rw [ho] at hx
  cases hx

theorem eq_of_startAddress {e e' : AllocatedElement}
    (he : e ∈ s.live) (he' : e' ∈ s.live) (heq : e.startAddress = e'.startAddress) : e = e' :=
  inj_on_of_nodup_map h.distinct he he' heq

theorem release (hbase : base ≠ 0)
    (hwrap : base + total < 2 ^ 64) {e : AllocatedElement} (he : e ∈ s.live) :
    (s.pool.release e).1 = true ∧
      ∃ tile', Partition base total ⟨(s.pool.release e).2, s.live.erase e⟩ tile' := by
  obtain ⟨o, haddr, ho⟩ := h.live e he
  have hpos := h.tiling.pos ho
  have hle := h.tiling.le ho
  have hoff : e.startAddress - base = o := by omega
  rw [RangePool.release]
  simp only [h.base_eq, h.total_eq, hoff]
  rw [if_neg (by omega), if_neg (by rw [Nat.mod_eq_of_lt hwrap]; omega)]
  refine ⟨rfl, ?_⟩
  dsimp only
  generalize allocateSizeAlignUp e.size = a at *
  have hjoin : Joining s.pool base total
      (fun x k => tile x = some (false, k) ∧ x ≠ o) (update tile o (some (true, a)))
      o a := by
    refine ⟨h.base_eq, h.total_eq, h.tiling.relabel ho true, update_self .., ?_, fun x k => ?_⟩
    · have hfree : freeOf tile o = none := by rw [freeOf, ho]
      rw [freeOf_update_free, update_idem, ← hfree, update_eq_self]
      exact h.holds
    · rw [update_eq_some_iff]
      simp [and_comm]
  -- Free tiles of before are apart, so only the released one can have free neighbours.
  have happart : ∀ x n n', update tile o (some (true, a)) x = some (true, n) →
      update tile o (some (true, a)) (x + n) = some (true, n') → x = o ∨ x + n = o := by
    intro x n n' hx hnext
    rw [update_eq_some_iff] at hx hnext
    rcases hx with ⟨hx, -⟩ | ⟨-, hx⟩
    · exact .inl hx
    rcases hnext with ⟨hx', -⟩ | ⟨-, hnext⟩
    · exact .inr hx'
    · exact absurd hnext (h.apart x n n' hx)
  obtain ⟨tile₁, hprev, hstop, happart₁⟩ := hjoin.joinPrev happart
  generalize s.pool.joinPrev o a = prev at *
  obtain ⟨cur, size, p⟩ := prev
  rw [← hstop]
  obtain ⟨tile₂, hnext, happart₂⟩ := hprev.joinNext happart₁
  have hother : ∀ {e' o'}, e' ∈ s.live → e'.startAddress = base + o' →
      (e' ∈ s.live.erase e ↔ o' ≠ o) := by
    intro e' o' he' haddr'
    rw [(List.Nodup.of_map _ h.distinct).mem_erase_iff]
    constructor
    · rintro ⟨hne, -⟩ rfl
      exact hne (h.eq_of_startAddress he' he (haddr'.trans haddr.symm))
    intro hne
    refine ⟨?_, he'⟩
    rintro rfl
    omega
  refine ⟨tile₂, hnext.base_eq, hnext.total_eq, hnext.tiling, ?_, happart₂, ?_, ?_, ?_⟩
  · have hholds := hnext.holds.emplaceRange (n := (p.joinNext (cur + size) size).1) (update_self ..)
    rw [update_idem, ← freeOf_eq_some_iff.mpr hnext.here, update_eq_self] at hholds
    exact hholds
  · intro e' he'
    obtain ⟨o', haddr', ho'⟩ := h.live e' (mem_of_mem_erase he')
    refine ⟨o', haddr', (hnext.busy_iff _ _).mpr ⟨ho', ?_⟩⟩
    exact (hother (mem_of_mem_erase he') haddr').mp he'
  · intro x n hx
    obtain ⟨hx, hne⟩ := (hnext.busy_iff x n).mp hx
    obtain ⟨e', he', haddr'⟩ := h.owned x n hx
    exact ⟨e', (hother he' haddr').mpr hne, haddr'⟩
  · exact h.distinct.sublist (erase_sublist.map _)

theorem allocate_eq_none_iff (hbase : base ≠ 0) (size : ℕ) :
    (s.pool.allocate size).1 = none ↔
      ∀ o n, freeOf tile o = some n → n < allocateSizeAlignUp size := by
  rw [← h.holds.lowerBound_eq_none_iff, RangePool.allocate]
  split
  · rename_i hnone
    simp [hnone]
  rename_i k u hk
  have hlook : s.pool.addressTree.lookup (ofLex k).2 = some (ofLex k).1 := by
    rw [h.holds.address, (h.holds.lowerBound_eq_some hk).1]
  rw [h.base_eq, if_neg hbase]
  simp [hlook, hk]

end

end Partition

/-! ### The pool partitions its space -/

namespace PoolState

def ranges (s : PoolState) : List (ℕ × ℕ) :=
  s.pool.addressTree.entries ++
    s.live.map fun e => (e.startAddress - s.pool.baseAddress, allocateSizeAlignUp e.size)

/-- What the pool guarantees between two calls. -/
structure Partitioned (s : PoolState) : Prop where
  mirrored : ∀ o n, (o, n) ∈ s.pool.addressTree.entries ↔
    (toLex (n, o), ()) ∈ s.pool.sizeTree.entries
  placed : ∀ e ∈ s.live, s.pool.baseAddress ≤ e.startAddress
  within : ∀ r ∈ s.ranges, 0 < r.2 ∧ r.1 + r.2 ≤ s.pool.totalSize
  disjoint : s.ranges.Pairwise fun r r' => r.1 + r.2 ≤ r'.1 ∨ r'.1 + r'.2 ≤ r.1
  cover : ∀ x < s.pool.totalSize, ∃ r ∈ s.ranges, r.1 ≤ x ∧ x < r.1 + r.2
  apart : ∀ r ∈ s.pool.addressTree.entries, ∀ r' ∈ s.pool.addressTree.entries, r.1 + r.2 ≠ r'.1
  fails_iff : ∀ size, 1 ≤ size → size ≤ maxAllocateSize → ((s.pool.allocate size).1 = none ↔
      ∀ r ∈ s.pool.addressTree.entries, r.2 < allocateSizeAlignUp size)
  released : ∀ e ∈ s.live, (s.pool.release e).1 = true
  whole : s.live = [] → s.pool.addressTree.entries = [(0, s.pool.totalSize)] ∧
    s.pool.sizeTree.entries = [(toLex (s.pool.totalSize, 0), ())]

end PoolState

namespace Partition

variable {base total : ℕ} {s : PoolState} {tile : ℕ → Option (Bool × ℕ)}

section

variable (h : Partition base total s tile)
include h

theorem mem_entries_iff : (o, n) ∈ s.pool.addressTree.entries ↔ tile o = some (true, n) := by
  rw [OrderedMap.mem_entries_iff, h.holds.address, freeOf_eq_some_iff]

theorem mem_ranges_iff : (o, n) ∈ s.ranges ↔ ∃ l, tile o = some (l, n) := by
  rw [PoolState.ranges, List.mem_append, h.mem_entries_iff, List.mem_map]
  constructor
  · rintro (hfree | ⟨e, he, heq⟩)
    · exact ⟨true, hfree⟩
    obtain ⟨o', haddr, ho'⟩ := h.live e he
    rw [h.base_eq, haddr, Nat.add_sub_cancel_left, Prod.mk.injEq] at heq
    rw [← heq.1, ← heq.2]
    exact ⟨false, ho'⟩
  rintro ⟨l, hl⟩
  cases l with
  | true => exact .inl hl
  | false =>
    obtain ⟨e, he, haddr⟩ := h.owned o n hl
    obtain ⟨o', haddr', ho'⟩ := h.live e he
    have heq : o' = o := by omega
    rw [heq, hl, some_inj, Prod.mk.injEq] at ho'
    refine .inr ⟨e, he, ?_⟩
    rw [h.base_eq, haddr, Nat.add_sub_cancel_left, ← ho'.2]

theorem nodup_ranges : (s.ranges.map Prod.fst).Nodup := by
  rw [PoolState.ranges, List.map_append, List.map_map, List.nodup_append]
  refine ⟨?_, ?_, ?_⟩
  · exact (pairwise_map.mpr s.pool.addressTree.sorted).imp fun hlt => hlt.ne
  · refine List.Nodup.map_on ?_ (List.Nodup.of_map _ h.distinct)
    intro e he e' he' heq
    obtain ⟨o, haddr, -⟩ := h.live e he
    obtain ⟨o', haddr', -⟩ := h.live e' he'
    refine h.eq_of_startAddress he he' ?_
    simp only [comp, h.base_eq] at heq
    omega
  intro x hx y hy hxy
  obtain ⟨⟨o, n⟩, hfree, rfl⟩ := mem_map.mp hx
  obtain ⟨e, he, rfl⟩ := mem_map.mp hy
  obtain ⟨o', haddr, ho'⟩ := h.live e he
  simp only [comp, h.base_eq, haddr, Nat.add_sub_cancel_left] at hxy
  rw [← hxy, h.mem_entries_iff.mp hfree] at ho'
  cases ho'

theorem freeOf_of_live_nil (htotal : 0 < total)
    (hlive : s.live = []) : freeOf tile = update (fun _ => none) 0 (some total) := by
  have hfree : ∀ {o l n}, tile o = some (l, n) → l = true := by
    intro o l n ho
    cases l with
    | true => rfl
    | false =>
      obtain ⟨e, he, -⟩ := h.owned o n ho
      rw [hlive] at he
      cases he
  obtain ⟨⟨l, n⟩, hn⟩ := isSome_iff_exists.mp (h.tiling.start htotal)
  obtain rfl := hfree hn
  -- A second tile would be free and begin where the first one ends.
  have hwhole : n = total := by
    by_contra hne
    have hle := h.tiling.le hn
    obtain ⟨⟨l', n'⟩, hn'⟩ := isSome_iff_exists.mp (h.tiling.next hn (by omega))
    obtain rfl := hfree hn'
    exact h.apart 0 n n' hn hn'
  funext o
  rw [update_apply]
  split
  · rename_i ho
    rw [ho, freeOf_eq_some_iff, hn, hwhole]
  rw [eq_none_iff_forall_ne_some]
  intro m hm
  rw [freeOf_eq_some_iff] at hm
  have hpos := h.tiling.pos hm
  have hle := h.tiling.le hm
  have hdisj := h.tiling.disjoint hn hm (by omega)
  omega

theorem partitioned (hbase : base ≠ 0) (htotal : 0 < total)
    (hwrap : base + total < 2 ^ 64) : s.Partitioned where
  mirrored := by
    intro o n
    rw [OrderedMap.mem_entries_iff, OrderedMap.mem_entries_iff, h.holds.address, h.holds.size]
  placed := by
    intro e he
    obtain ⟨o, haddr, -⟩ := h.live e he
    rw [h.base_eq, haddr]
    exact Nat.le_add_right base o
  within := by
    rintro ⟨o, n⟩ hr
    obtain ⟨l, ho⟩ := h.mem_ranges_iff.mp hr
    rw [h.total_eq]
    exact ⟨h.tiling.pos ho, h.tiling.le ho⟩
  disjoint := by
    refine (pairwise_map.mp h.nodup_ranges).imp_of_mem ?_
    rintro ⟨o, n⟩ ⟨o', n'⟩ hr hr' hne
    obtain ⟨l, ho⟩ := h.mem_ranges_iff.mp hr
    obtain ⟨l', ho'⟩ := h.mem_ranges_iff.mp hr'
    rcases lt_or_gt_of_ne hne with hlt | hlt
    · exact .inl (h.tiling.disjoint ho ho' hlt)
    · exact .inr (h.tiling.disjoint ho' ho hlt)
  cover := by
    intro x hx
    rw [h.total_eq] at hx
    obtain ⟨o, l, n, ho, hlo, hhi⟩ := h.tiling.cover hx
    exact ⟨(o, n), h.mem_ranges_iff.mpr ⟨l, ho⟩, hlo, hhi⟩
  apart := by
    rintro ⟨o, n⟩ hr ⟨o', n'⟩ hr' heq
    rw [h.mem_entries_iff] at hr hr'
    dsimp only at heq
    rw [← heq] at hr'
    exact h.apart o n n' hr hr'
  fails_iff := by
    intro size _ _
    rw [h.allocate_eq_none_iff hbase]
    constructor
    · rintro hall ⟨o, n⟩ hr
      exact hall o n (freeOf_eq_some_iff.mpr (h.mem_entries_iff.mp hr))
    · intro hall o n ho
      exact hall (o, n) (h.mem_entries_iff.mpr (freeOf_eq_some_iff.mp ho))
  released := fun _ he => (h.release hbase hwrap he).1
  whole := by
    intro hlive
    have hfree := h.freeOf_of_live_nil htotal hlive
    have haddress : s.pool.addressTree = .singleton 0 total := by
      apply ext_lookup
      rw [h.holds.address, hfree, OrderedMap.lookup_singleton]
    have hsize : s.pool.sizeTree = .singleton (toLex (total, 0)) () := by
      apply ext_lookup
      rw [OrderedMap.lookup_singleton]
      funext k
      ext ⟨⟩
      have hk := h.holds.size (ofLex k).2 (ofLex k).1
      rw [Prod.mk.eta, toLex_ofLex, hfree, update_eq_some_iff] at hk
      rw [hk, update_eq_some_iff, ← ofLex_inj, ofLex_toLex, Prod.ext_iff]
      simp [eq_comm, and_comm]
    rw [haddress, hsize, h.total_eq]
    exact ⟨rfl, rfl⟩

end

end Partition

/-- After any calls the trees agree, the free ranges and the live allocations tile the space, no two
free ranges are adjacent, and `Allocate` fails only when no free range is large enough. -/
theorem poolSystem_partitioned {base total : ℕ} (hbase : base ≠ 0) (htotal : 0 < total)
    (hwrap : base + total < 2 ^ 64) {s : PoolState} (hs : (poolSystem base total).Reachable s) :
    s.pool.totalSize = total ∧ s.Partitioned := by
  have hinv : ∃ tile, Partition base total s tile := by
    refine TransitionSystem.ReachableBy.invariant
      (I := fun s => ∃ tile, Partition base total s tile) ⟨_, Partition.start base htotal⟩ ?_ hs
    rintro s s' e ⟨tile, h⟩ - hnext
    cases e with
    | allocate size =>
      obtain ⟨hsize, rfl⟩ := of_guard hnext
      exact h.allocate hbase hsize.1 hsize.2
    | release element =>
      obtain ⟨he, rfl⟩ := of_guard hnext
      exact (h.release hbase hwrap he).2
  obtain ⟨tile, h⟩ := hinv
  exact ⟨h.total_eq, h.partitioned hbase htotal hwrap⟩

/-- Two allocations, the first of which is released. -/
theorem poolSystem_partitioned_first_released : ∃ s, (poolSystem 4096 16384).Reachable s ∧
    s.ranges = [(0, 4096), (12288, 4096), (4096, 8192)] ∧ s.Partitioned := by
  refine TransitionSystem.exists_reachable [.allocate 1, .allocate 5000, .release ⟨4096, 1⟩]
    PoolState.ranges [(0, 4096), (12288, 4096), (4096, 8192)] ?_ fun s hreach hranges => ?_
  · decide +kernel
  exact ⟨hranges, (poolSystem_partitioned (by decide) (by decide) (by decide) hreach).2⟩

/-! ### Sizes of any width -/

/-- The calls with sizes of any width. -/
def poolCalls (address size : ℕ) : TransitionSystem PoolState PoolEvent where
  start := ⟨.new address size, []⟩
  next s
    | .allocate size =>
      if size < 2 ^ 64 then
        some ⟨(s.pool.allocate size).2, (s.pool.allocate size).1.toList ++ s.live⟩
      else none
    | .release element =>
      if element ∈ s.live then some ⟨(s.pool.release element).2, s.live.erase element⟩ else none

def Moderate (_ : PoolState) : PoolEvent → Prop
  | .allocate size => 1 ≤ size ∧ size ≤ maxAllocateSize
  | .release _ => True

instance (s : PoolState) : ∀ e, Decidable (Moderate s e)
  | .allocate _ => inferInstanceAs (Decidable (_ ∧ _))
  | .release _ => inferInstanceAs (Decidable True)

theorem size_of_mem_allocate {p : RangePool} {e : AllocatedElement} (h : e ∈ (p.allocate size).1) :
    e.size = size := by
  rw [RangePool.allocate] at h
  dsimp only at h
  split at h
  · cases h
  split at h
  · cases h
  split at h
  · cases h
  · rw [← some_inj.mp h]

section

variable {base total : ℕ} {s : PoolState} (hbase : base ≠ 0) (htotal : 0 < total)
  (hwrap : base + total < 2 ^ 64) (hs : (poolCalls base total).ReachableBy Moderate s)
include hbase htotal hwrap hs

theorem partition_of_moderate : (∃ tile, Partition base total s tile) ∧
    ∀ e ∈ s.live, e.size ≤ maxAllocateSize := by
  refine TransitionSystem.ReachableBy.invariant (T := poolCalls base total)
    (I := fun s => (∃ tile, Partition base total s tile) ∧
      ∀ e ∈ s.live, e.size ≤ maxAllocateSize) ⟨⟨_, .start base htotal⟩, nofun⟩ ?_ hs
  rintro s s' e ⟨⟨tile, h⟩, hsizes⟩ hok hnext
  cases e with
  | allocate size =>
    obtain ⟨-, rfl⟩ := of_guard hnext
    refine ⟨h.allocate hbase hok.1 hok.2, fun e he => ?_⟩
    rcases mem_append.mp he with he | he
    · exact (size_of_mem_allocate (mem_toList.mp he)).le.trans hok.2
    · exact hsizes e he
  | release element =>
    obtain ⟨he, rfl⟩ := of_guard hnext
    exact ⟨(h.release hbase hwrap he).2, fun e he => hsizes e (mem_of_mem_erase he)⟩

/-- With sizes between 1 and the largest one whose aligned size does not wrap around, an element is
within the pool and apart from the other ones. -/
theorem sound_of_moderate : s.Partitioned ∧
    (∀ e ∈ s.live, base ≤ e.startAddress ∧ e.startAddress + e.size ≤ base + total) ∧
    s.live.Pairwise fun e e' => e.startAddress + e.size ≤ e'.startAddress ∨
      e'.startAddress + e'.size ≤ e.startAddress := by
  obtain ⟨⟨tile, h⟩, hsizes⟩ := partition_of_moderate hbase htotal hwrap hs
  have hpart := h.partitioned hbase htotal hwrap
  have hsize : ∀ e ∈ s.live, base ≤ e.startAddress ∧ e.size ≤ allocateSizeAlignUp e.size := by
    intro e he
    have hmax := hsizes e he
    rw [maxAllocateSize] at hmax
    refine ⟨h.base_eq ▸ hpart.placed e he, ?_⟩
    rw [allocateSizeAlignUp]
    omega
  refine ⟨hpart, fun e he => ?_, ?_⟩
  · obtain ⟨hplaced, hle⟩ := hsize e he
    have hend := (hpart.within _ (mem_append_right _ (mem_map_of_mem he))).2
    rw [h.base_eq, h.total_eq] at hend
    exact ⟨hplaced, by omega⟩
  have hdisj := (pairwise_append.mp hpart.disjoint).2.1
  rw [pairwise_map] at hdisj
  refine hdisj.imp_of_mem fun {e e'} he he' happart => ?_
  obtain ⟨hplaced, hle⟩ := hsize e he
  obtain ⟨hplaced', hle'⟩ := hsize e' he'
  rw [h.base_eq] at happart
  omega

end

theorem sound_of_moderate_two_sizes : ∃ s, (poolCalls 4096 16384).ReachableBy Moderate s ∧
    s.live = [⟨8192, 5000⟩, ⟨4096, 1⟩] ∧ s.Partitioned := by
  obtain ⟨s, hs, hlive⟩ := TransitionSystem.exists_of_run_restrict
    (show (((poolCalls 4096 16384).restrict Moderate).run (poolCalls 4096 16384).start
      [.allocate 1, .allocate 5000]).map PoolState.live = some [⟨8192, 5000⟩, ⟨4096, 1⟩] by
        decide +kernel)
  exact ⟨s, hs, hlive, (sound_of_moderate (by decide) (by decide) (by decide) hs).1⟩

/-- A larger size is aligned to 0, and its element takes no space. -/
theorem wrapped_size_shares_address : ∃ s, (poolCalls 4096 16384).Reachable s ∧
    s.live = [⟨4096, 4096⟩, ⟨4096, 2 ^ 64 - 1⟩] := by
  refine TransitionSystem.exists_of_run (show ((poolCalls 4096 16384).run _
    [.allocate (2 ^ 64 - 1), .allocate 4096]).map _ = some _ from ?_)
  decide +kernel

end Hybm
