/-
The data of an all-gather: units in the order of their arrival.

Each rank appends a unit, its rank number in four bytes and its send buffer.  A rank that reads
the whole value sorts the units and copies the send buffers out (`SortGatherRecv`).  All sizes
and positions are `uint32_t`, and an access outside a buffer is given as `none`.

`sortGatherRecv_units` says that where nothing overflows and the rank numbers differ, the
result is the send buffers in ascending order of the rank numbers.
-/
import MemFabric.Bytes
import MemFabric.Blocks

namespace GroupEngine

open List Nat

open Blocks

/-- `SMEM_GATHER_PREFIX_SIZE`. -/
def gatherPrefixSize : ℕ := 4

/-- The buffer a rank appends: `GatherFillRank`, and the send buffer behind it. -/
def gatherUnit (rank : ℕ) (send : Bytes) : Bytes := Bytes.le gatherPrefixSize rank ++ send

/-- Read `len` bytes at `pos`. -/
def readAt (src : Bytes) (pos len : ℕ) : Option Bytes :=
  if pos + len ≤ src.length then some ((src.drop pos).take len) else none

/-- Overwrite the bytes of `dst` from `pos` on. -/
def copyAt (dst : Bytes) (pos : ℕ) (data : Bytes) : Option Bytes :=
  if pos + data.length ≤ dst.length then
    some (dst.take pos ++ data ++ dst.drop (pos + data.length))
  else
    none

/-- `offset[i]`: the rank number of unit `i`, and where its send buffer starts. -/
def gatherOffset (vec : Bytes) (preSize i : ℕ) : Option (ℕ × ℕ) :=
  let unitSize := (preSize + gatherPrefixSize) % 2 ^ 32
  let idx := i * unitSize % 2 ^ 32
  (readAt vec idx 4).map fun rank => (Bytes.leValue rank, (idx + gatherPrefixSize) % 2 ^ 32)

/-- The order of `std::pair<uint32_t, uint32_t>`. -/
def OffsetLe (a b : ℕ × ℕ) : Prop := a.1 < b.1 ∨ (a.1 = b.1 ∧ a.2 ≤ b.2)

instance : DecidableRel OffsetLe := fun _ _ => inferInstanceAs (Decidable (_ ∨ _))

/-- The second loop: copy the send buffers to their places, from place `i` on. -/
def copySorted (vec : Bytes) (preSize : ℕ) : List (ℕ × ℕ) → ℕ → Bytes → Option Bytes
  | [], _, recvBuf => some recvBuf
  | offset :: rest, i, recvBuf =>
    (readAt vec offset.2 preSize).bind fun data =>
      (copyAt recvBuf (preSize * i % 2 ^ 32) data).bind fun recvBuf =>
        copySorted vec preSize rest (i + 1) recvBuf

def sortGatherRecv (vec : Bytes) (preSize rankSize : ℕ) (recvBuf : Bytes) : Option Bytes :=
  ((List.range rankSize).mapM (gatherOffset vec preSize)).bind fun offset =>
    copySorted vec preSize (offset.insertionSort OffsetLe) 0 recvBuf

/-! ### The sorted result -/

instance : Std.Total OffsetLe := ⟨fun a b => by
  simp only [OffsetLe]
  omega⟩

instance : IsTrans (ℕ × ℕ) OffsetLe := ⟨fun a b c => by
  simp only [OffsetLe]
  omega⟩

theorem OffsetLe.antisymm (a b : ℕ × ℕ) (hab : OffsetLe a b) (hba : OffsetLe b a) : a = b := by
  simp only [OffsetLe] at hab hba
  exact Prod.ext (by omega) (by omega)

section Units

variable {ι : Type*} {rank : ι → ℕ} {send : ι → Bytes} {size : ℕ} {l : List ι}

theorem length_gatherUnit {send : Bytes} (h : send.length = size) (rank : ℕ) :
    (gatherUnit rank send).length = size + gatherPrefixSize := by
  rw [gatherUnit, length_append, Bytes.le_length, h, add_comm]

/-- The value after the ranks of `l` have appended, in this order. -/
def gatherUnits (rank : ι → ℕ) (send : ι → Bytes) (l : List ι) : Bytes :=
  l.flatMap fun i => gatherUnit (rank i) (send i)

theorem length_gatherUnits (rank : ι → ℕ) (hsend : ∀ i, (send i).length = size) (l : List ι) :
    (gatherUnits rank send l).length = l.length * (size + gatherPrefixSize) :=
  length_flatMap_block fun i _ => length_gatherUnit (hsend i) (rank i)

theorem readAt_gatherUnits (hsend : ∀ i, (send i).length = size) {j : ℕ} {i : ι}
    (hj : l[j]? = some i) :
    readAt (gatherUnits rank send l) (j * (size + gatherPrefixSize)) 4 =
        some (Bytes.le 4 (rank i)) ∧
      readAt (gatherUnits rank send l) (j * (size + gatherPrefixSize) + gatherPrefixSize) size =
        some (send i) := by
  have hlt : j < l.length := (List.getElem?_eq_some_iff.mp hj).1
  have hlen := length_gatherUnits rank hsend l
  have hblock : j * (size + gatherPrefixSize) + (size + gatherPrefixSize) ≤
      l.length * (size + gatherPrefixSize) := by
    rw [← succ_mul]
    exact mul_le_mul_right _ hlt
  have hdrop : (gatherUnits rank send l).drop (j * (size + gatherPrefixSize)) =
      gatherUnit (rank i) (send i) ++ gatherUnits rank send (l.drop (j + 1)) :=
    drop_flatMap_block (fun i _ => length_gatherUnit (hsend i) (rank i)) hj
  have hhead : (Bytes.le gatherPrefixSize (rank i)).length = gatherPrefixSize :=
    Bytes.le_length gatherPrefixSize (rank i)
  constructor
  · show readAt _ _ gatherPrefixSize = some (Bytes.le gatherPrefixSize (rank i))
    rw [readAt, if_pos (by omega), hdrop, gatherUnit, append_assoc,
      take_append_of_le_length hhead.ge, take_of_length_le hhead.le]
  rw [readAt, if_pos (by omega), ← drop_drop, hdrop, gatherUnit, append_assoc,
    drop_append_of_le_length hhead.ge, drop_of_length_le hhead.le,
    nil_append, take_append_of_le_length (hsend i).ge,
    take_of_length_le (hsend i).le]

/-- What `offset` holds for a rank and the position of its unit. -/
def unitOffset (rank : ι → ℕ) (size : ℕ) (p : ι × ℕ) : ℕ × ℕ :=
  (rank p.1, p.2 * (size + gatherPrefixSize) + gatherPrefixSize)

theorem gatherOffset_gatherUnits (hsend : ∀ i, (send i).length = size)
    (hrank : ∀ i, rank i < 2 ^ 32) (hfits : (size + gatherPrefixSize) * l.length < 2 ^ 32)
    {j : ℕ} {i : ι} (hj : l[j]? = some i) :
    gatherOffset (gatherUnits rank send l) size j = some (unitOffset rank size (i, j)) := by
  have hlt : j < l.length := (List.getElem?_eq_some_iff.mp hj).1
  have hblock : j * (size + gatherPrefixSize) + (size + gatherPrefixSize) ≤
      (size + gatherPrefixSize) * l.length := by
    rw [← succ_mul, mul_comm (size + gatherPrefixSize)]
    exact mul_le_mul_right _ hlt
  have hunit : (size + gatherPrefixSize) % 2 ^ 32 = size + gatherPrefixSize :=
    mod_eq_of_lt (by omega)
  have hidx : j * (size + gatherPrefixSize) % 2 ^ 32 = j * (size + gatherPrefixSize) :=
    mod_eq_of_lt (by omega)
  have hdata : (j * (size + gatherPrefixSize) + gatherPrefixSize) % 2 ^ 32 =
      j * (size + gatherPrefixSize) + gatherPrefixSize :=
    mod_eq_of_lt (by omega)
  simp only [gatherOffset, unitOffset, hunit, hidx, hdata, (readAt_gatherUnits hsend hj).1,
    Option.map_some, Bytes.leValue_le_of_lt (show rank i < 256 ^ 4 from hrank i)]

theorem copySorted_eq {vec : Bytes} {rank : ι → ℕ} {sorted : List (ι × ℕ)}
    (hread : ∀ p ∈ sorted, readAt vec (unitOffset rank size p).2 size = some (send p.1))
    (hsend : ∀ i, (send i).length = size) (i : ℕ) (done rest : Bytes)
    (hdone : done.length = size * i) (hrest : rest.length = size * sorted.length)
    (hfits : size * (i + sorted.length) < 2 ^ 32) :
    copySorted vec size (sorted.map (unitOffset rank size)) i (done ++ rest) =
      some (done ++ sorted.flatMap fun p => send p.1) := by
  induction sorted generalizing i done rest with
  | nil =>
    rw [length_nil, mul_zero, length_eq_zero_iff] at hrest
    rw [hrest, map_nil, copySorted, flatMap_nil]
  | cons p sorted ih =>
    rw [length_cons] at hrest hfits
    have hpos : size * i % 2 ^ 32 = size * i := by
      refine mod_eq_of_lt (lt_of_le_of_lt ?_ hfits)
      exact mul_le_mul_left _ (by omega)
    have hroom : size ≤ rest.length := by
      rw [hrest]
      exact Nat.le_mul_of_pos_right _ (Nat.succ_pos _)
    have hcopy : copyAt (done ++ rest) (size * i) (send p.1) =
        some ((done ++ send p.1) ++ rest.drop size) := by
      rw [copyAt, if_pos (by rw [length_append]; have := hsend p.1; omega), hsend p.1,
        ← hdone, take_left', drop_append, drop_of_length_le (by omega)]
      · simp
      · rfl
    rw [map_cons, copySorted, hread p mem_cons_self, Option.bind_some, hpos, hcopy,
      Option.bind_some, ih (fun q hq => hread q (mem_cons_of_mem p hq)), flatMap_cons,
      append_assoc]
    · rw [length_append, hdone, hsend p.1, mul_succ]
    · rw [length_drop, hrest, Nat.mul_succ, Nat.add_sub_cancel]
    · rwa [add_right_comm, add_assoc]

theorem sortGatherRecv_units (hsend : ∀ i, (send i).length = size)
    (hrank : ∀ i, rank i < 2 ^ 32) (hinj : Function.Injective rank) (hnodup : l.Nodup)
    (hfits : (size + gatherPrefixSize) * l.length < 2 ^ 32) {recvBuf : Bytes}
    (hrecv : recvBuf.length = size * l.length) :
    sortGatherRecv (gatherUnits rank send l) size l.length recvBuf =
      some ((sortByKey rank l).flatMap send) := by
  -- every unit, with the position it arrived at
  have hmem : ∀ p ∈ l.zipIdx, l[p.2]? = some p.1 := fun p hp =>
    mem_zipIdx_iff_getElem?.mp hp
  have hfst : l.zipIdx.map Prod.fst = l := zipIdx_map_fst 0 l
  have hoff : (range l.length).mapM (gatherOffset (gatherUnits rank send l) size) =
      some (l.zipIdx.map (unitOffset rank size)) := by
    rw [range_eq_range', ← zipIdx_map_snd 0 l]
    exact mapM_map_eq_some fun p hp => gatherOffset_gatherUnits hsend hrank hfits (hmem p hp)
  have hsort : (l.zipIdx.map (unitOffset rank size)).insertionSort OffsetLe =
      (sortByKey (fun p => rank p.1) l.zipIdx).map (unitOffset rank size) := by
    refine insertionSort_map_eq OffsetLe.antisymm ?_
    intro p hp q hq hle
    rcases lt_or_eq_of_le hle with hlt | heq
    · exact .inl hlt
    -- one rank, so one unit
    have hpos : p.2 = q.2 := by
      rw [← List.getElem?_inj (List.getElem?_eq_some_iff.mp (hmem p hp)).1 hnodup,
        hmem p hp, hmem q hq, hinj heq]
    refine .inr ⟨heq, ?_⟩
    simp only [unitOffset, hpos, le_refl]
  have hperm := perm_sortByKey (fun p : ι × ℕ => rank p.1) l.zipIdx
  have hlen : (sortByKey (fun p : ι × ℕ => rank p.1) l.zipIdx).length = l.length := by
    rw [hperm.length_eq, length_zipIdx]
  have hroom : size * (0 + (sortByKey (fun p : ι × ℕ => rank p.1) l.zipIdx).length) < 2 ^ 32 := by
    rw [hlen, zero_add]
    exact lt_of_le_of_lt (mul_le_mul_right _ (le_add_right _ _)) hfits
  have hread : ∀ p ∈ sortByKey (fun p : ι × ℕ => rank p.1) l.zipIdx,
      readAt (gatherUnits rank send l) (unitOffset rank size p).2 size = some (send p.1) := by
    intro p hp
    exact (readAt_gatherUnits hsend (hmem p (mem_sortByKey.mp hp))).2
  have hcopy := copySorted_eq hread hsend 0 [] recvBuf rfl (by rw [hlen, hrecv]) hroom
  rw [nil_append, nil_append] at hcopy
  rw [sortGatherRecv, hoff, Option.bind_some, hsort, hcopy]
  -- in ascending order, the units belong to the ranks in ascending order
  have hranks : (sortByKey (fun p : ι × ℕ => rank p.1) l.zipIdx).map Prod.fst =
      sortByKey rank l := by
    refine eq_sortByKey (fun i _ j _ h => hinj h) ?_ ?_
    · exact (hperm.map Prod.fst).trans (List.Perm.of_eq hfst)
    · rw [pairwise_map]
      exact pairwise_sortByKey _ l.zipIdx
  rw [← hranks, flatMap_map]

end Units

end GroupEngine
