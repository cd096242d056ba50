/-
The barrier after its sequence number has wrapped.

Two ranks that go through the barrier call by call reach every call number: the first one deletes
the keys of the call before the previous one, the second one opens the call, and both return
(`inStep_next`).  The calls 0, 1 and 2 delete nothing, so the keys of sequence number 2^32 - 2
stay from the first lap on.  When the second lap comes to them, the first rank counts 3 and finds
the wait key already set: it returns alone (`wrapped_barrier_returns_early`).
-/
import MemFabric.GroupBarrierSafety

namespace GroupEngine

open Function

open ConfigStore SharedState SeqMap

/-- The group: two ranks of version 0 and an empty store. -/
abbrev pair : TransitionSystem (BarrierState 2) (Fin 2) := barrierSystem 2 0 fun _ => none

/-- The first sequence number whose keys are never deleted. -/
def leftSn : ℕ := 2 ^ 32 - 2

/-- The keys of a finished call with sequence number `leftSn`. -/
def Leftover (store : SeqMap) : Prop :=
  store (groupKey 0 leftSn .barrierAdd) = some (Decimal.ofInt 2) ∧
    store (groupKey 0 leftSn .barrierWait) = some groupSetStr

/-- Both ranks have returned from call `k`. -/
structure InStep (s : BarrierState 2) (k : ℕ) : Prop where
  reach : pair.ReachableBy FewCalls s
  ranks : ∀ i, s.rank i = ⟨groupSn k, .add, k, k⟩
  leftover : leftSn ≤ k → Leftover s.store

/-- The first rank waits in call `k + 1`, and the second one has not begun it. -/
structure FirstWaits (s : BarrierState 2) (k : ℕ) : Prop where
  reach : pair.ReachableBy FewCalls s
  first : s.rank 0 = ⟨groupSn (k + 1), .get, k + 1, k⟩
  second : s.rank 1 = ⟨groupSn k, .add, k, k⟩
  counter : s.store (groupKey 0 (groupSn (k + 1)) .barrierAdd) = some (Decimal.ofInt 1)
  leftover : leftSn ≤ k → Leftover s.store

variable {s : BarrierState 2} {k : ℕ}

theorem Leftover.update {store : SeqMap} (h : Leftover store) {sn : ℕ} (hsn : leftSn ≠ sn)
    (role : KeyRole) (value : Option Bytes) :
    Leftover (update store (groupKey 0 sn role) value) :=
  ⟨(update_of_ne (groupKey_ne_of_sn hsn _ _) ..).trans h.1,
    (update_of_ne (groupKey_ne_of_sn hsn _ _) ..).trans h.2⟩

theorem groupSn_ne_leftSn (hk : leftSn ≤ k) (hlimit : k < barrierLimit) :
    leftSn ≠ groupSn (k + 1) ∧ leftSn ≠ groupSn (k + 1) - removeInterval := by
  simp only [leftSn, barrierLimit, groupSn, removeInterval] at *
  omega

/-! ### The steps of one rank -/

section Steps

variable {i : Fin 2} {sn a f : ℕ}

theorem barrierNext_get (hi : s.rank i = ⟨sn, .get, a, f⟩)
    (hkey : s.store (groupKey 0 sn .barrierWait) = some groupSetStr) :
    barrierNext 0 s i = some (s.move i ⟨sn, .add, a, f + 1⟩ s.store) := by
  simp only [barrierNext, hi, get_of_some hkey, if_true]

theorem fewCalls_of_ne {pc : BarrierPc} (hpc : pc ≠ .add) (hi : s.rank i = ⟨sn, pc, a, f⟩) :
    FewCalls s i := by
  intro hadd
  rw [hi] at hadd
  exact absurd hadd hpc

section

variable (h : pair.ReachableBy FewCalls s)
include h

theorem reach_removeAdd {val : ℤ} (hi : s.rank i = ⟨sn, .removeAdd val, a, f⟩) :
    pair.ReachableBy FewCalls (s.move i ⟨sn, .removeWait val, a, f⟩
      (update s.store (groupKey 0 (sn - removeInterval) .barrierAdd) none)) := by
  refine h.next (a := i) (fewCalls_of_ne (by simp) hi) ?_
  simp only [barrierSystem, barrierNext, hi, remove_fst]

theorem reach_removeWait {val : ℤ} (hi : s.rank i = ⟨sn, .removeWait val, a, f⟩) :
    pair.ReachableBy FewCalls (s.move i ⟨sn, barrierWaitPc 2 val, a, f⟩
      (update s.store (groupKey 0 (sn - removeInterval) .barrierWait) none)) := by
  refine h.next (a := i) (fewCalls_of_ne (by simp) hi) ?_
  simp only [barrierSystem, barrierNext, hi, remove_fst]

theorem reach_set (hi : s.rank i = ⟨sn, .set, a, f⟩) :
    pair.ReachableBy FewCalls (s.move i ⟨sn, .get, a, f⟩
      (update s.store (groupKey 0 sn .barrierWait) (some groupSetStr))) := by
  refine h.next (a := i) (fewCalls_of_ne (by simp) hi) ?_
  simp only [barrierSystem, barrierNext, hi, SeqMap.set]

theorem reach_get (hi : s.rank i = ⟨sn, .get, a, f⟩)
    (hkey : s.store (groupKey 0 sn .barrierWait) = some groupSetStr) :
    pair.ReachableBy FewCalls (s.move i ⟨sn, .add, a, f + 1⟩ s.store) :=
  h.next (a := i) (fewCalls_of_ne (by simp) hi) (barrierNext_get hi hkey)

end

end Steps

/-! ### Call after call -/

theorem InStep.inv (h : InStep s k) : BarrierInv 0 s k := by
  obtain ⟨top, hinv⟩ := barrierInv_of_reachable (by decide) 0 (fun _ => ⟨rfl, rfl⟩) h.reach
  have hle := (hinv.ranks 0).le_top
  have hbegun := hinv.begun
  simp only [h.ranks] at hle hbegun
  rcases Nat.eq_zero_or_pos top with h0 | hpos
  · rwa [show k = top by omega]
  · obtain ⟨-, rfl⟩ := hbegun hpos
    exact hinv

theorem InStep.first (h : InStep s k) (hlimit : k < barrierLimit) : ∃ t, FirstWaits t k := by
  have hinv := h.inv
  have hfew : FewCalls s 0 := by
    intro _
    rw [h.ranks]
    exact hlimit
  have hadd : pair.next s 0 = some (s.move 0 ((s.rank 0).added 2 1) (update s.store
      (groupKey 0 (groupSn (k + 1)) .barrierAdd) (some (Decimal.ofInt 1)))) := by
    simp only [barrierSystem, barrierNext, h.ranks, nextSn_groupSn,
      add_of_none (hinv.fresh hlimit hinv.addKeys)]
  have hreach := h.reach.next hfew hadd
  have hsecond : (1 : Fin 2) ≠ 0 := by decide
  rcases barrierAddedPc_cases 2 1 (groupSn (k + 1)) with ⟨-, hlt, hpc⟩ | ⟨-, hpc⟩
  · -- it deletes the two keys of call `k - 1` on the way
    have hrank : (s.rank 0).added 2 1 = ⟨groupSn (k + 1), .removeAdd 1, k + 1, k⟩ := by
      simp only [BarrierRank.added, h.ranks, nextSn_groupSn, hpc]
    rw [hrank] at hreach
    have hreach := reach_removeWait (reach_removeAdd hreach move_rank_self) move_rank_self
    refine ⟨_, hreach, move_rank_self, ?_, ?_, fun hk => ?_⟩
    · rw [move_rank_of_ne hsecond, move_rank_of_ne hsecond, move_rank_of_ne hsecond, h.ranks]
    · have hne : groupSn (k + 1) ≠ groupSn (k + 1) - removeInterval := by
        simp only [removeInterval] at *
        omega
      simp only [move_store]
      rw [update_groupKey_of_role (by decide), update_of_ne (groupKey_ne_of_sn hne _ _),
        update_self]
    · obtain ⟨hnew, hold⟩ := groupSn_ne_leftSn hk hlimit
      exact (((h.leftover hk).update hnew _ _).update hold _ _).update hold _ _
  have hrank : (s.rank 0).added 2 1 = ⟨groupSn (k + 1), .get, k + 1, k⟩ := by
    simp only [BarrierRank.added, h.ranks, nextSn_groupSn, hpc]
    rfl
  rw [hrank] at hreach
  refine ⟨_, hreach, move_rank_self, ?_, update_self .., fun hk => ?_⟩
  · rw [move_rank_of_ne hsecond, h.ranks]
  · exact (h.leftover hk).update (groupSn_ne_leftSn hk hlimit).1 _ _

theorem FirstWaits.second_comes (h : FirstWaits s k) (hlimit : k < barrierLimit) :
    ∃ t, InStep t (k + 1) := by
  have hfew : FewCalls s 1 := by
    intro _
    rw [h.second]
    exact hlimit
  have hadd : pair.next s 1 = some (s.move 1 ⟨groupSn (k + 1), .set, k + 1, k⟩
      (update s.store (groupKey 0 (groupSn (k + 1)) .barrierAdd) (some (Decimal.ofInt 2)))) := by
    simp only [barrierSystem, barrierNext, h.second, nextSn_groupSn,
      add_of_ofInt h.counter (by decide), BarrierRank.added]
    rfl
  have hreach := h.reach.next hfew hadd
  have hreach := reach_set hreach move_rank_self
  have hreach := reach_get hreach move_rank_self (update_self ..)
  have hne : (0 : Fin 2) ≠ 1 := by decide
  have hreach := reach_get (i := 0) hreach
    (by rw [move_rank_of_ne hne, move_rank_of_ne hne, move_rank_of_ne hne, h.first])
    (update_self ..)
  refine ⟨_, hreach, fun i => ?_, fun hk => ?_⟩
  · fin_cases i
    · exact move_rank_self
    · exact (move_rank_of_ne hne.symm).trans move_rank_self
  rcases Nat.eq_or_lt_of_le hk with heq | hlt
  · -- this is the call whose keys stay
    have hsn : groupSn (k + 1) = leftSn := by
      simp only [groupSn, leftSn] at *
      omega
    simp only [Leftover, move_store, hsn]
    refine ⟨?_, update_self ..⟩
    rw [update_groupKey_of_role (by decide), update_self]
  · have hsn := (groupSn_ne_leftSn (Nat.le_of_lt_succ hlt) hlimit).1
    exact ((h.leftover (Nat.le_of_lt_succ hlt)).update hsn _ _).update hsn _ _

theorem inStep_exists (k : ℕ) (hk : k ≤ barrierLimit) : ∃ s, InStep s k := by
  induction k with
  | zero => exact ⟨pair.start, .start, fun _ => rfl, nofun⟩
  | succ k ih =>
    obtain ⟨s, hs⟩ := ih (Nat.le_of_succ_le hk)
    obtain ⟨t, ht⟩ := hs.first hk
    exact ht.second_comes hk

theorem wrapped_barrier_returns_early : ∃ s, pair.Reachable s ∧ ¬ NoEarlyReturn s := by
  obtain ⟨s, hs⟩ := inStep_exists barrierLimit le_rfl
  obtain ⟨hcnt, hwait⟩ := hs.leftover (by decide)
  have hsn : groupSn (barrierLimit + 1) = leftSn := by decide
  obtain ⟨t, ht⟩ : ∃ t, t = s.move 0 ⟨leftSn, .get, barrierLimit + 1, barrierLimit⟩
      (update s.store (groupKey 0 leftSn .barrierAdd) (some (Decimal.ofInt 3))) :=
    ⟨_, rfl⟩
  have hadd : pair.next s 0 = some t := by
    simp only [barrierSystem, barrierNext, hs.ranks, nextSn_groupSn, hsn,
      add_of_ofInt hcnt (by decide), BarrierRank.added, ht]
    rfl
  have hfirst : t.rank 0 = ⟨leftSn, .get, barrierLimit + 1, barrierLimit⟩ := by
    rw [ht, move_rank_self]
  have hsecond : t.rank 1 = s.rank 1 := by
    rw [ht, move_rank_of_ne (by decide)]
  have hopen : t.store (groupKey 0 leftSn .barrierWait) = some groupSetStr := by
    rw [ht, move_store, update_groupKey_of_role (by decide), hwait]
  refine ⟨_, (hs.reach.reachable.next trivial hadd).next (a := 0) trivial
    (barrierNext_get hfirst hopen), fun hsafe => ?_⟩
  have hle := hsafe 0 1
  rw [move_rank_self, move_rank_of_ne (by decide), hsecond, hs.ranks] at hle
  exact absurd hle (Nat.not_succ_le_self _)

end GroupEngine
