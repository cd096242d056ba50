/-
Numbers of a group: `AllocNumber` and `ReleaseNumber` of n ranks.

The numbers in use are the bits of one value in the store, which both functions change in a
loop of `Cas` calls.  `AllocNumber` goes round until a `Cas` has succeeded, `ReleaseNumber` while
one succeeds; its first one expects the key to be absent, so it fails, and the bit stays set.
-/
import MemFabric.Bitmap
import MemFabric.SequentialMap
import MemFabric.SharedState
import MemFabric.Transition

namespace GroupEngine

open Function Finset Option

open ConfigStore SharedState

variable {n : ℕ}

/-- `SMEM_GROUP_CAS_ALLOC_NUM_KEY`. -/
def allocNumKey : Key := Bytes.ofString "AT_NUM"

/-- `SMEM_ALLOC_NUM_SIZE`. -/
def allocNumSize : ℕ := 1024

/-- `SMEM_ALLOC_NUM_BUF_LEN`. -/
def allocNumBufLen : ℕ := (allocNumSize + 7) / 8

def zeroBitmap : Bytes := List.replicate allocNumBufLen 0

/-! ### Ranks -/

/-- The `Cas` a rank is about to make: in `AllocNumber` for `num`, or in `ReleaseNumber`
of `val`. -/
inductive NumberPc
  | idle
  | alloc (expect value : Bytes) (num : ℕ)
  | release (val : ℕ) (expect value : Bytes)
  deriving DecidableEq

/-- A rank.  `released` has the numbers that were taken out of `allocedSet_`; the code
does not keep them. -/
structure NumberRank where
  pc : NumberPc
  allocedSet : Finset ℕ
  released : Finset ℕ
  deriving DecidableEq

abbrev NumberState (n : ℕ) := SharedState SeqMap NumberRank n

/-- The body of the loop of `AllocNumber` up to the `Cas`; without a free number the
function returns `SM_ERROR`. -/
def allocLoop (expect value : Bytes) : NumberPc :=
  let value := if expect.length ≠ 0 then expect else value
  match (List.range allocNumSize).find? fun i => !value.bit i with
  | none => .idle
  | some num => .alloc expect (value.flip num) num

/-- The body of the loop of `ReleaseNumber` up to the `Cas`; if the bit is clear the
function returns `SM_OK`. -/
def releaseLoop (val : ℕ) (expect value : Bytes) : NumberPc :=
  let value := if expect.length ≠ 0 then expect else value
  if value.bit val then .release val expect (value.flip val) else .idle

/-- `ReleaseNumber` up to its first `Cas`; a number that the rank does not have gives
`SM_OBJECT_NOT_EXISTS`. -/
def NumberRank.beginRelease (r : NumberRank) (val : ℕ) : NumberRank :=
  if val ∈ r.allocedSet then
    { pc := releaseLoop val [] (zeroBitmap.flip val)
      allocedSet := r.allocedSet.erase val
      released := insert val r.released }
  else r

inductive NumberStep (n : ℕ)
  | alloc (i : Fin n)
  | release (i : Fin n) (val : ℕ)
  | cas (i : Fin n)

def numberNext (s : NumberState n) : NumberStep n → Option (NumberState n)
  | .alloc i =>
    if (s.rank i).pc = .idle then
      some (s.move i { s.rank i with pc := allocLoop [] zeroBitmap } s.store)
    else none
  | .release i val =>
    if (s.rank i).pc = .idle then some (s.move i ((s.rank i).beginRelease val) s.store) else none
  | .cas i =>
    let r := s.rank i
    let old := (s.store allocNumKey).getD []
    match r.pc with
    | .idle => none
    | .alloc expect value num =>
      let store := (s.store.cas allocNumKey expect value).1
      -- while (ret != 0 || old != expect)
      if old = expect then
        some (s.move i { r with pc := .idle, allocedSet := insert num r.allocedSet } store)
      else some (s.move i { r with pc := allocLoop old value } store)
    | .release val expect value =>
      let store := (s.store.cas allocNumKey expect value).1
      -- while (ret == 0 && old == expect)
      if old = expect then some (s.move i { r with pc := releaseLoop val old value } store)
      else some (s.move i { r with pc := .idle } store)

def numberSystem (n : ℕ) (store : SeqMap) : TransitionSystem (NumberState n) (NumberStep n) where
  start := ⟨store, fun _ => ⟨.idle, ∅, ∅⟩⟩
  next := numberNext

/-! ### Ownership -/

/-- Bit `num` of the shared bitmap. -/
def taken (store : SeqMap) (num : ℕ) : Bool := ((store allocNumKey).getD []).bit num

/-- A bit is set if and only if exactly one rank has the number, and no two ranks have
one number. -/
def NumbersOwned (s : NumberState n) : Prop :=
  (∀ num < allocNumSize, taken s.store num = true ↔ ∃! i, num ∈ (s.rank i).allocedSet) ∧
    ∀ i j num, num ∈ (s.rank i).allocedSet → num ∈ (s.rank j).allocedSet → i = j

def NumberRank.used (r : NumberRank) : Finset ℕ := r.allocedSet ∪ r.released

/-- The bitmap that a `Cas` is to put in place differs from the expected one in a bit that is
clear there.  An allocation that has seen a bitmap, and a release, need one to be there. -/
def NumberPc.Ok (store : SeqMap) : NumberPc → Prop
  | .idle => True
  | .alloc expect value num =>
    num < allocNumSize ∧ ((expect = [] ∧ value = zeroBitmap.flip num) ∨
        (expect.length = allocNumBufLen ∧ expect.bit num = false ∧ value = expect.flip num ∧
          store allocNumKey ≠ none))
  | .release _ expect _ => expect = [] ∧ store allocNumKey ≠ none

structure NumberInv (s : NumberState n) : Prop where
  length : ∀ value, s.store allocNumKey = some value → value.length = allocNumBufLen
  bits : ∀ num < allocNumSize, taken s.store num = true ↔ ∃ i, num ∈ (s.rank i).used
  bound : ∀ i, ∀ num ∈ (s.rank i).used, num < allocNumSize
  unique : ∀ i j num, num ∈ (s.rank i).used → num ∈ (s.rank j).used → i = j
  apart : ∀ i, Disjoint (s.rank i).allocedSet (s.rank i).released
  pcs : ∀ i, (s.rank i).pc.Ok s.store

variable {store : SeqMap}

theorem NumberPc.Ok.update {pc : NumberPc} (h : pc.Ok store) (value : Bytes) :
    pc.Ok (Function.update store allocNumKey (some value)) := by
  have hkey : Function.update store allocNumKey (some value) allocNumKey ≠ none := by
    nofun
  cases pc with
  | idle => trivial
  | alloc expect value num =>
    exact ⟨h.1, h.2.imp_right fun h => ⟨h.1, h.2.1, h.2.2.1, hkey⟩⟩
  | release val expect value => exact ⟨h.1, hkey⟩

theorem taken_of_none (h : store allocNumKey = none) (num : ℕ) : taken store num = false := by
  rw [taken, h]
  exact Nat.zero_testBit _

theorem byte_lt {num : ℕ} (h : num < allocNumSize) : num / 8 < allocNumBufLen := by
  simp only [allocNumSize, allocNumBufLen] at *
  omega

theorem zeroBitmap_length : zeroBitmap.length = allocNumBufLen := by
  rw [zeroBitmap, List.length_replicate]

theorem bit_zeroBitmap_flip {num : ℕ} (h : num < allocNumSize) (j : ℕ) :
    (zeroBitmap.flip num).bit j = decide (num = j) := by
  have hbyte : num / 8 < zeroBitmap.length := zeroBitmap_length ▸ byte_lt h
  rw [Bytes.bit_flip hbyte, zeroBitmap, Bytes.bit_replicate_zero, Bool.false_xor]

theorem allocLoop_cases (expect value : Bytes) : allocLoop expect value = .idle ∨
    ∃ num < allocNumSize, (if expect.length ≠ 0 then expect else value).bit num = false ∧
      allocLoop expect value =
        .alloc expect ((if expect.length ≠ 0 then expect else value).flip num) num := by
  unfold allocLoop
  dsimp only
  split
  case h_1 => exact .inl rfl
  case h_2 num hfind =>
    refine .inr ⟨num, List.mem_range.mp (List.mem_of_find?_eq_some hfind), ?_, rfl⟩
    simpa using List.find?_some hfind

-- from here on only `allocLoop_cases` is used, and the search is not unfolded
attribute [local irreducible] allocLoop

theorem allocLoop_ok {expect value : Bytes} (h : (expect = [] ∧ value = zeroBitmap) ∨
      (expect.length = allocNumBufLen ∧ store allocNumKey ≠ none)) :
    (allocLoop expect value).Ok store := by
  obtain hidle | ⟨num, hnum, hclear, heq⟩ := allocLoop_cases expect value
  · rw [hidle]
    exact True.intro
  rw [heq]
  refine ⟨hnum, ?_⟩
  rcases h with ⟨rfl, rfl⟩ | ⟨hlen, hkey⟩
  · exact .inl ⟨rfl, rfl⟩
  have hne : expect.length ≠ 0 := by
    rw [hlen]
    decide
  rw [if_pos hne] at hclear ⊢
  exact .inr ⟨hlen, hclear, rfl, hkey⟩

theorem releaseLoop_begin {val : ℕ} (h : val < allocNumSize) :
    releaseLoop val [] (zeroBitmap.flip val) =
      .release val [] ((zeroBitmap.flip val).flip val) := by
  have hset : (zeroBitmap.flip val).bit val = true := by
    rw [bit_zeroBitmap_flip h, decide_eq_true rfl]
  exact if_pos hset

namespace NumberInv

variable {s : NumberState n} {i : Fin n} {r : NumberRank}

theorem moveWithin (hinv : NumberInv s) (hused : r.used = (s.rank i).used)
    (hapart : Disjoint r.allocedSet r.released) (hpc : r.pc.Ok s.store) :
    NumberInv (s.move i r s.store) := by
  have hkeep : ∀ j, ((s.move i r s.store).rank j).used = (s.rank j).used :=
    map_move NumberRank.used hused
  refine ⟨hinv.length, ?_, ?_, ?_, ?_, ?_⟩
  · simp only [hkeep]
    exact hinv.bits
  · simp only [hkeep]
    exact hinv.bound
  · simp only [hkeep]
    exact hinv.unique
  · exact forall_move (p := fun _ (r : NumberRank) => Disjoint r.allocedSet r.released) hapart
      fun j _ => hinv.apart j
  · exact forall_move (p := fun _ (r : NumberRank) => r.pc.Ok s.store) hpc fun j _ => hinv.pcs j

theorem movePc (hinv : NumberInv s) {pc : NumberPc} (hpc : pc.Ok s.store) :
    NumberInv (s.move i { s.rank i with pc := pc } s.store) :=
  hinv.moveWithin rfl (hinv.apart i) hpc

theorem beginRelease (hinv : NumberInv s) (val : ℕ) :
    NumberInv (s.move i ((s.rank i).beginRelease val) s.store) := by
  by_cases hval : val ∈ (s.rank i).allocedSet
  · have hmem : val ∈ (s.rank i).used := mem_union_left _ hval
    have hlt : val < allocNumSize := hinv.bound i val hmem
    have hkey : s.store allocNumKey ≠ none := by
      intro hnone
      have hset := (hinv.bits val hlt).mpr ⟨i, hmem⟩
      rw [taken_of_none hnone] at hset
      cases hset
    rw [NumberRank.beginRelease, if_pos hval, releaseLoop_begin hlt]
    refine hinv.moveWithin ?_ ?_ ⟨rfl, hkey⟩
    · show (s.rank i).allocedSet.erase val ∪ insert val (s.rank i).released = _
      rw [union_insert, ← insert_union, insert_erase hval]
      rfl
    · rw [disjoint_insert_right]
      exact ⟨notMem_erase _ _, disjoint_of_subset_left (erase_subset _ _) (hinv.apart i)⟩
  · rw [NumberRank.beginRelease, if_neg hval]
    exact hinv.movePc (hinv.pcs i)

variable {expect value : Bytes} {num : ℕ}

theorem taken_allocated (hinv : NumberInv s) (hok : NumberPc.Ok s.store (.alloc expect value num))
    (hold : (s.store allocNumKey).getD [] = expect) :
    num < allocNumSize ∧ value.length = allocNumBufLen ∧ taken s.store num = false ∧
      ∀ j, value.bit j = (taken s.store j ^^ decide (num = j)) := by
  obtain ⟨hnum, ⟨rfl, rfl⟩ | ⟨hlen, hclear, rfl, -⟩⟩ := hok
  · have hnone : s.store allocNumKey = none := by
      cases hkey : s.store allocNumKey with
      | none => rfl
      | some value =>
        -- an empty value is no bitmap
        have hlen := hinv.length value hkey
        rw [hkey, getD_some] at hold
        rw [hold] at hlen
        cases hlen
    refine ⟨hnum, (Bytes.flip_length _ _).trans zeroBitmap_length, taken_of_none hnone num, ?_⟩
    intro j
    rw [bit_zeroBitmap_flip hnum, taken_of_none hnone, Bool.false_xor]
  · refine ⟨hnum, (Bytes.flip_length _ _).trans hlen, ?_, fun j => ?_⟩
    · rw [taken, hold, hclear]
    · rw [taken, hold, Bytes.bit_flip (hlen ▸ byte_lt hnum)]

theorem allocated (hinv : NumberInv s) (hpc : (s.rank i).pc = .alloc expect value num)
    (hold : (s.store allocNumKey).getD [] = expect) :
    NumberInv (s.move i
      { s.rank i with pc := .idle, allocedSet := insert num (s.rank i).allocedSet }
      (update s.store allocNumKey (some value))) := by
  obtain ⟨hnum, hlen, hclear, hbit⟩ := hinv.taken_allocated (hpc ▸ hinv.pcs i) hold
  have hfree : ∀ j, num ∉ (s.rank j).used := by
    intro j hj
    have hset := (hinv.bits num hnum).mpr ⟨j, hj⟩
    rw [hclear] at hset
    cases hset
  have hused : ∀ j k, k ∈ ((s.move i
      { s.rank i with pc := .idle, allocedSet := insert num (s.rank i).allocedSet }
      (update s.store allocNumKey (some value))).rank j).used ↔
      k ∈ (s.rank j).used ∨ (j = i ∧ k = num) := by
    intro j k
    rcases eq_or_ne j i with rfl | hne
    · rw [move_rank_self, NumberRank.used, insert_union, mem_insert, or_comm]
      exact or_congr_right (iff_and_self.mpr fun _ => rfl)
    · rw [move_rank_of_ne hne]
      exact ⟨.inl, fun h => h.resolve_right fun h => hne h.1⟩
  refine ⟨fun v hv => ?_, fun k hk => ?_, fun j k hj => ?_, fun j l k hj hl => ?_, ?_, ?_⟩
  · rw [move_store, update_self, some_inj] at hv
    rw [← hv, hlen]
  · have htaken : taken (update s.store allocNumKey (some value)) k = value.bit k := by
      rw [taken, update_self, getD_some]
    rw [move_store, htaken, hbit]
    simp only [hused]
    rcases eq_or_ne k num with rfl | hne
    · rw [hclear, decide_eq_true rfl]
      exact iff_of_true rfl ⟨i, .inr ⟨rfl, rfl⟩⟩
    · rw [decide_eq_false hne.symm, Bool.xor_false, hinv.bits k hk]
      exact exists_congr fun j => ⟨.inl, fun h => h.resolve_right fun h => hne h.2⟩
  · rcases (hused j k).mp hj with hj | ⟨-, rfl⟩
    · exact hinv.bound j k hj
    · exact hnum
  · rcases (hused j k).mp hj with hj' | ⟨hji, hk⟩
    · rcases (hused l k).mp hl with hl' | ⟨-, hk⟩
      · exact hinv.unique j l k hj' hl'
      · exact absurd (hk ▸ hj') (hfree j)
    · rcases (hused l k).mp hl with hl' | ⟨hli, -⟩
      · exact absurd (hk ▸ hl') (hfree l)
      · rw [hji, hli]
  · refine forall_move (p := fun _ (r : NumberRank) => Disjoint r.allocedSet r.released) ?_
      fun j _ => hinv.apart j
    exact disjoint_insert_left.mpr ⟨fun h => hfree i (mem_union_right _ h), hinv.apart i⟩
  · exact forall_move (p := fun _ (r : NumberRank) => r.pc.Ok _) trivial
      fun j _ => (hinv.pcs j).update value

theorem cas_failed (hinv : NumberInv s) (hpc : (s.rank i).pc = .alloc expect value num)
    (hold : (s.store allocNumKey).getD [] ≠ expect) :
    NumberInv (s.move i
      { s.rank i with pc := allocLoop ((s.store allocNumKey).getD []) value } s.store) := by
  have hok : NumberPc.Ok s.store (.alloc expect value num) := hpc ▸ hinv.pcs i
  refine hinv.movePc (allocLoop_ok (.inr ?_))
  cases hkey : s.store allocNumKey with
  | none =>
    -- an absent key counts as empty, and that is what the first round expects
    rw [hkey, getD_none] at hold
    rcases hok.2 with ⟨hempty, -⟩ | ⟨-, -, -, hpres⟩
    · exact absurd hempty.symm hold
    · exact absurd hkey hpres
  | some old => exact ⟨hinv.length old hkey, by simp⟩

theorem cas (hinv : NumberInv s) {s' : NumberState n} (h : numberNext s (.cas i) = some s') :
    NumberInv s' := by
  cases hpc : (s.rank i).pc with
  | idle => simp [numberNext, hpc] at h
  | alloc expect value num =>
    simp only [numberNext, hpc] at h
    by_cases hold : (s.store allocNumKey).getD [] = expect
    · rw [if_pos hold, SeqMap.cas, if_pos hold] at h
      exact some_inj.mp h ▸ hinv.allocated hpc hold
    · rw [if_neg hold, SeqMap.cas, if_neg hold] at h
      exact some_inj.mp h ▸ hinv.cas_failed hpc hold
  | release val expect value =>
    obtain ⟨rfl, hkey⟩ : NumberPc.Ok s.store (.release val expect value) := hpc ▸ hinv.pcs i
    -- there is a bitmap, so the `Cas` that expects none fails and the loop ends
    have hold : (s.store allocNumKey).getD [] ≠ [] := by
      obtain ⟨old, hsome⟩ := ne_none_iff_exists'.mp hkey
      have hlen := hinv.length old hsome
      rw [hsome, getD_some]
      rintro rfl
      cases hlen
    simp only [numberNext, hpc] at h
    rw [if_neg hold, SeqMap.cas, if_neg hold] at h
    exact some_inj.mp h ▸ hinv.movePc True.intro

end NumberInv

theorem numberInv_of_reachable (hstore : store allocNumKey = none) {s : NumberState n}
    (hs : (numberSystem n store).Reachable s) : NumberInv s := by
  have hstart : NumberInv (numberSystem n store).start :=
    { length := fun value h => by cases hstore.symm.trans h
      bits := fun num _ => by
        rw [show taken (numberSystem n store).start.store num = false from
          taken_of_none hstore num]
        exact iff_of_false Bool.false_ne_true fun ⟨_, h⟩ => notMem_empty num h
      bound := fun _ num h => (notMem_empty num h).elim
      unique := fun _ _ num h => (notMem_empty num h).elim
      apart := fun _ => disjoint_empty_left _
      pcs := fun _ => trivial }
  refine hs.invariant hstart ?_
  intro s s' a hinv _ hnext
  cases a with
  | alloc i =>
    obtain ⟨-, rfl⟩ := of_guard hnext
    exact hinv.movePc (allocLoop_ok (.inl ⟨rfl, rfl⟩))
  | release i val =>
    obtain ⟨-, rfl⟩ := of_guard hnext
    exact hinv.beginRelease val
  | cas i => exact hinv.cas hnext

/-- Bits and owners agree exactly as long as no number was released. -/
theorem numbersOwned_iff {store : SeqMap} (hstore : store allocNumKey = none)
    {s : NumberState n} (hs : (numberSystem n store).Reachable s) :
    NumbersOwned s ↔ ∀ i, (s.rank i).released = ∅ := by
  have hinv := numberInv_of_reachable hstore hs
  have hunique : ∀ i j num, num ∈ (s.rank i).allocedSet → num ∈ (s.rank j).allocedSet → i = j :=
    fun i j num hi hj => hinv.unique i j num (mem_union_left _ hi) (mem_union_left _ hj)
  constructor
  · rintro ⟨howned, -⟩ i
    rw [eq_empty_iff_forall_notMem]
    intro num hnum
    have hused : num ∈ (s.rank i).used := mem_union_right _ hnum
    have hlt := hinv.bound i num hused
    -- the bit is still set, and nobody has the number
    obtain ⟨j, hj, -⟩ := (howned num hlt).mp ((hinv.bits num hlt).mpr ⟨i, hused⟩)
    obtain rfl := hinv.unique i j num hused (mem_union_left _ hj)
    exact disjoint_left.mp (hinv.apart i) hj hnum
  intro hnone
  refine ⟨fun num hnum => ?_, hunique⟩
  rw [hinv.bits num hnum]
  constructor
  · rintro ⟨i, hi⟩
    rw [NumberRank.used, hnone i, union_empty] at hi
    exact ⟨i, hi, fun j hj => hunique j i num hj hi⟩
  · rintro ⟨i, hi, -⟩
    exact ⟨i, mem_union_left _ hi⟩

/-- Two ranks with numbers 0 and 1, allocated at the same time. -/
theorem numbersOwned_after_two_allocations :
    ∃ s : NumberState 2, (s.rank 0).allocedSet = {0} ∧ (s.rank 1).allocedSet = {1} ∧
      NumbersOwned s := by
  have hrun : ((numberSystem 2 fun _ => none).run (numberSystem 2 fun _ => none).start
      [.alloc 0, .alloc 1, .cas 0, .cas 1, .cas 1]).map
      (fun s => (s.rank 0, s.rank 1)) = some (⟨.idle, {0}, ∅⟩, ⟨.idle, {1}, ∅⟩) := by
    decide +kernel
  obtain ⟨s, hs, heq⟩ := TransitionSystem.exists_of_run hrun
  obtain ⟨h0, h1⟩ := Prod.mk.inj heq
  refine ⟨s, by rw [h0], by rw [h1], ?_⟩
  refine (numbersOwned_iff rfl hs).mpr fun i => ?_
  match i with
  | 0 => rw [h0]
  | 1 => rw [h1]

/-- One rank allocates number 0 and releases it.  No call is under way, nobody has the
number, its bit is set, and the next allocation gives number 1. -/
theorem released_number_stays_taken :
    ∃ s s' : NumberState 1, (numberSystem 1 fun _ => none).run (numberSystem 1 fun _ => none).start
        [.alloc 0, .cas 0, .release 0 0, .cas 0] = some s ∧
      s.rank 0 = ⟨.idle, ∅, {0}⟩ ∧ taken s.store 0 = true ∧ ¬ NumbersOwned s ∧
      (numberSystem 1 fun _ => none).run s [.alloc 0, .cas 0, .cas 0] = some s' ∧
      (s'.rank 0).allocedSet = {1} := by
  have hrun : ((numberSystem 1 fun _ => none).run (numberSystem 1 fun _ => none).start
      [.alloc 0, .cas 0, .release 0 0, .cas 0]).map
      (fun s => (s.rank 0, taken s.store 0,
        ((numberSystem 1 fun _ => none).run s [.alloc 0, .cas 0, .cas 0]).map
          fun s' => (s'.rank 0).allocedSet)) =
      some (⟨.idle, ∅, {0}⟩, true, some {1}) := by
    decide +kernel
  obtain ⟨s, hs, heq⟩ := map_eq_some_iff.mp hrun
  obtain ⟨hrank, heq⟩ := Prod.mk.inj heq
  obtain ⟨htaken, hagain⟩ := Prod.mk.inj heq
  obtain ⟨s', hs', hset⟩ := map_eq_some_iff.mp hagain
  refine ⟨s, s', hs, hrank, htaken, ?_, hs', hset⟩
  rintro ⟨howned, -⟩
  obtain ⟨i, hi, -⟩ := (howned 0 (by decide)).mp htaken
  rw [Subsingleton.elim i 0, hrank] at hi
  exact notMem_empty 0 hi

end GroupEngine
