/-
The pages that a registration covers.

`RegisterLocalMemories` rounds its ranges to pages of the device (`AlignMemory`), sorts them and
combines those that overlap or touch (`CombineMemories`).
-/
import Mathlib

namespace Trans

open List

def npuPageSize : ℕ := 2 * 1024 * 1024

/-- `AlignMemory`; `x & NPU_PAGE_MASK` is `x` less its remainder. -/
def alignMemory (m : ℕ × ℕ) : ℕ × ℕ :=
  let alignPtr := m.1 - m.1 % npuPageSize
  let size := ((m.2 + (m.1 - alignPtr)) % 2 ^ 64 + (npuPageSize - 1)) % 2 ^ 64
  (alignPtr, size - size % npuPageSize)

/-- The loop of `CombineMemories`. -/
def combineFrom (current : ℕ × ℕ) : List (ℕ × ℕ) → List (ℕ × ℕ)
  | [] => [current]
  | m :: rest =>
    if m.1 ≤ (current.1 + current.2) % 2 ^ 64 then
      let diff := (m.1 + 2 ^ 64 - current.1) % 2 ^ 64
      if 2 ^ 64 - 1 - m.2 < diff then current :: combineFrom m rest
      else combineFrom (current.1, max current.2 ((diff + m.2) % 2 ^ 64)) rest
    else current :: combineFrom m rest

/-- `CombineMemories`, which is not called with an empty list. -/
def combineMemories (input : List (ℕ × ℕ)) : List (ℕ × ℕ) :=
  match input.mergeSort fun m m' => toLex m ≤ toLex m' with
  | [] => []
  | current :: rest => combineFrom current rest

def Covers (m : ℕ × ℕ) (a : ℕ) : Prop := m.1 ≤ a ∧ a < m.1 + m.2

/-- A range of whole pages below `2 ^ 64`. -/
structure WholePages (m : ℕ × ℕ) : Prop where
  first : npuPageSize ∣ m.1
  size : npuPageSize ∣ m.2
  pos : 0 < m.2
  bound : m.1 + m.2 < 2 ^ 64

/-- The range is not empty, and its end rounded to a page is below `2 ^ 64`. -/
def Roundable (m : ℕ × ℕ) : Prop :=
  0 < m.2 ∧ (m.1 + m.2 + (npuPageSize - 1)) / npuPageSize * npuPageSize < 2 ^ 64

/-- Ranges of whole pages in ascending order with gaps, which cover the pages that are touched. -/
structure IsPageClosure (input output : List (ℕ × ℕ)) : Prop where
  whole : ∀ m ∈ output, WholePages m
  apart : output.Pairwise fun m m' => m.1 + m.2 < m'.1
  covers : ∀ a, (∃ m ∈ output, Covers m a) ↔
    ∃ m ∈ input, ∃ b, Covers m b ∧ a / npuPageSize = b / npuPageSize

variable {m current : ℕ × ℕ} {rest input : List (ℕ × ℕ)}

/-- Nothing wraps around: the range is from the page of the first address to the end rounded up. -/
theorem alignMemory_eq (h : Roundable m) :
    alignMemory m = (m.1 / npuPageSize * npuPageSize,
      (m.1 + m.2 + (npuPageSize - 1)) / npuPageSize * npuPageSize -
        m.1 / npuPageSize * npuPageSize) := by
  obtain ⟨hpos, hround⟩ := h
  simp only [alignMemory, npuPageSize, Prod.mk.injEq] at hround ⊢
  omega

theorem wholePages_alignMemory (h : Roundable m) : WholePages (alignMemory m) := by
  rw [alignMemory_eq h]
  obtain ⟨hpos, hround⟩ := h
  refine ⟨dvd_mul_left _ _, Nat.dvd_sub (dvd_mul_left _ _) (dvd_mul_left _ _), ?_, ?_⟩
  · simp only [npuPageSize]
    omega
  have hle : m.1 / npuPageSize ≤ (m.1 + m.2 + (npuPageSize - 1)) / npuPageSize :=
    Nat.div_le_div_right (by omega)
  exact (Nat.add_sub_cancel' (Nat.mul_le_mul_right _ hle)).trans_lt hround

theorem covers_alignMemory (h : Roundable m) (a : ℕ) :
    Covers (alignMemory m) a ↔ ∃ b, Covers m b ∧ a / npuPageSize = b / npuPageSize := by
  rw [alignMemory_eq h]
  obtain ⟨hpos, hround⟩ := h
  simp only [Covers, npuPageSize] at hround ⊢
  constructor
  · intro ha
    -- the address itself, or the nearest one in the range
    refine ⟨max m.1 (min a (m.1 + m.2 - 1)), ?_, ?_⟩
    · omega
    · omega
  · rintro ⟨b, hb, hpage⟩
    omega

theorem WholePages.merge (h : WholePages current) (hm : WholePages m) (hle : current.1 ≤ m.1) :
    WholePages (current.1, max current.2 (m.1 - current.1 + m.2)) where
  first := h.first
  size := by
    rcases max_cases current.2 (m.1 - current.1 + m.2) with ⟨heq, -⟩ | ⟨heq, -⟩
    · rw [heq]
      exact h.size
    · rw [heq]
      exact (Nat.dvd_sub hm.first h.first).add hm.size
  pos := lt_max_of_lt_left h.pos
  bound := by
    have hend := h.bound
    have hend' := hm.bound
    dsimp only
    omega

theorem combineFrom_spec (hcur : WholePages current)
    (hrest : ∀ m ∈ rest, WholePages m ∧ current.1 ≤ m.1)
    (hsorted : rest.Pairwise fun m m' => m.1 ≤ m'.1) :
    (∀ m ∈ combineFrom current rest, WholePages m ∧ current.1 ≤ m.1) ∧
      (combineFrom current rest).Pairwise (fun m m' => m.1 + m.2 < m'.1) ∧
      ∀ a, (∃ m ∈ combineFrom current rest, Covers m a) ↔
        Covers current a ∨ ∃ m ∈ rest, Covers m a := by
  induction rest generalizing current with
  | nil => simp [combineFrom, hcur]
  | cons m rest ih =>
    obtain ⟨⟨hm, hle⟩, hrest⟩ := forall_mem_cons.mp hrest
    obtain ⟨hfirst, hsorted⟩ := pairwise_cons.mp hsorted
    have hend := hcur.bound
    have hend' := hm.bound
    have hdiff : (m.1 + 2 ^ 64 - current.1) % 2 ^ 64 = m.1 - current.1 := by omega
    have hsum : (m.1 - current.1 + m.2) % 2 ^ 64 = m.1 - current.1 + m.2 := by omega
    rw [combineFrom, Nat.mod_eq_of_lt hend, hdiff]
    dsimp only
    rw [hsum]
    split
    · next htouch =>
      rw [if_neg (by omega)]
      obtain ⟨hall, hapart, hcovers⟩ := ih (hcur.merge hm hle) hrest hsorted
      refine ⟨hall, hapart, fun a => ?_⟩
      rw [hcovers, exists_mem_cons_iff, ← or_assoc]
      refine or_congr_left ?_
      simp only [Covers]
      omega
    next hgap =>
    have hrest : ∀ m' ∈ rest, WholePages m' ∧ m.1 ≤ m'.1 :=
      fun m' hm' => ⟨(hrest m' hm').1, hfirst m' hm'⟩
    obtain ⟨hall, hapart, hcovers⟩ := ih hm hrest hsorted
    refine ⟨?_, pairwise_cons.mpr ⟨fun m' hm' => ?_, hapart⟩, fun a => ?_⟩
    · rw [forall_mem_cons]
      exact ⟨⟨hcur, le_rfl⟩, fun m' hm' => (hall m' hm').imp_right hle.trans⟩
    · have hle' := (hall m' hm').2
      omega
    · rw [exists_mem_cons_iff, hcovers, exists_mem_cons_iff]

/-- What comes out are ranges of whole pages, in order and with a gap between any two, and together
they are the pages that the ranges touch. -/
theorem combineMemories_aligned (hne : input ≠ []) (hinput : ∀ m ∈ input, Roundable m) :
    IsPageClosure input (combineMemories (input.map alignMemory)) := by
  let le : ℕ × ℕ → ℕ × ℕ → Bool := fun m m' => toLex m ≤ toLex m'
  have hperm := mergeSort_perm (input.map alignMemory) le
  have hwhole : ∀ m ∈ (input.map alignMemory).mergeSort le, WholePages m := by
    intro m' hm'
    obtain ⟨m, hm, rfl⟩ := mem_map.mp (hperm.mem_iff.mp hm')
    exact wholePages_alignMemory (hinput m hm)
  have hsorted : ((input.map alignMemory).mergeSort le).Pairwise fun m m' => m.1 ≤ m'.1 := by
    refine (pairwise_mergeSort (fun m₁ m₂ m₃ h₁ h₂ => ?_) (fun m₁ m₂ => ?_) _).imp ?_
    · exact decide_eq_true ((of_decide_eq_true h₁).trans (of_decide_eq_true h₂))
    · simpa [le] using le_total (toLex m₁) (toLex m₂)
    · intro m m' hle
      exact (Prod.Lex.le_iff'.mp (of_decide_eq_true hle)).1
  have hcovers : ∀ a, (∃ m ∈ (input.map alignMemory).mergeSort le, Covers m a) ↔
      ∃ m ∈ input, ∃ b, Covers m b ∧ a / npuPageSize = b / npuPageSize := by
    intro a
    simp only [hperm.mem_iff, mem_map, exists_exists_and_eq_and]
    refine exists_congr fun m => and_congr_right fun hm => ?_
    exact covers_alignMemory (hinput m hm) a
  rw [combineMemories]
  split
  · next hnil =>
    rw [hnil] at hperm
    exact absurd (map_eq_nil_iff.mp hperm.nil_eq.symm) hne
  next current rest hsort =>
  change (input.map alignMemory).mergeSort le = _ at hsort
  rw [hsort] at hwhole hsorted hcovers
  obtain ⟨hfirst, hsorted⟩ := pairwise_cons.mp hsorted
  obtain ⟨hcur, hrest⟩ := forall_mem_cons.mp hwhole
  obtain ⟨hall, hapart, hunion⟩ :=
    combineFrom_spec hcur (fun m hm => ⟨hrest m hm, hfirst m hm⟩) hsorted
  refine ⟨fun m hm => (hall m hm).1, hapart, fun a => ?_⟩
  rw [hunion, ← hcovers, exists_mem_cons_iff]

/-- A range inside a page, one across the boundary behind it, and one far from both. -/
theorem combineMemories_three_ranges :
    IsPageClosure [(2 ^ 30, 1), (4096, 64), (2 ^ 21 - 1, 2)]
      (combineMemories ([(2 ^ 30, 1), (4096, 64), (2 ^ 21 - 1, 2)].map alignMemory)) :=
  combineMemories_aligned (by simp) (by simp [Roundable, npuPageSize])

end Trans
