/-
`GroupSnClean`: a rank that leaves removes the keys of its last two calls.

The ranks of one group run barriers and all-gathers, one call at a time.  A rank in no call may
run `GroupSnClean`, which removes keys one by one, and makes no more calls with this version.
-/
import MemFabric.GroupBarrier
import MemFabric.GroupGather

namespace GroupEngine

open Option

open ConfigStore SharedState

variable {n : ℕ}

/-! ### Barriers, all-gathers and the cleanup in one system -/

/-- A rank: its barriers, its all-gathers, and the keys that its `GroupSnClean` has still to
remove if it was called. -/
structure CollectiveRank where
  barrier : BarrierRank
  gather : GatherRank
  cleaning : Option (List Key)
  deriving DecidableEq

abbrev CollectiveState (n : ℕ) := SharedState SeqMap CollectiveRank n

def CollectiveRank.Idle (r : CollectiveRank) : Prop :=
  r.barrier.pc = .add ∧ r.gather.pc = .append ∧ r.cleaning = none
  deriving Decidable

/-- The sequence numbers a loop of `GroupSnClean` goes through: at most `REMOVE_INTERVAL`,
down to zero. -/
def cleanSns (sn : ℕ) : List ℕ :=
  ((List.range removeInterval).takeWhile fun i => ¬ sn < i).map (sn - ·)

/-- The keys `GroupSnClean` removes, in order. -/
def groupSnClean (version : ℤ) (allGatherGroupSn barrierGroupSn : ℕ) : List Key :=
  ((cleanSns allGatherGroupSn).flatMap fun sn =>
      [groupKey version sn .gatherAdd, groupKey version sn .gatherWait]) ++
    (cleanSns barrierGroupSn).flatMap fun sn =>
      [groupKey version sn .barrierAdd, groupKey version sn .barrierWait]

def barriersOf (s : CollectiveState n) : BarrierState n := ⟨s.store, fun j => (s.rank j).barrier⟩

def gathersOf (s : CollectiveState n) : GatherState n := ⟨s.store, fun j => (s.rank j).gather⟩

inductive CollectiveStep (n : ℕ)
  | barrier (i : Fin n)
  | gather (i : Fin n) (fails : Option Bool)
  | clean (i : Fin n)
  | remove (i : Fin n)

/-- One store operation of rank `i`, or its call of `GroupSnClean`. -/
def collectiveNext (g : GatherGroup n) (s : CollectiveState n) :
    CollectiveStep n → Option (CollectiveState n)
  | .barrier i =>
    if (s.rank i).gather.pc = .append ∧ (s.rank i).cleaning = none then
      (barrierNext g.version (barriersOf s) i).map fun t =>
        s.move i { s.rank i with barrier := t.rank i } t.store
    else none
  | .gather i fails =>
    if (s.rank i).barrier.pc = .add ∧ (s.rank i).cleaning = none then
      let next := match fails with
        | none => g.perform (gathersOf s) i
        | some lost => some (g.fail (gathersOf s) i lost)
      next.map fun t => s.move i { s.rank i with gather := t.rank i } t.store
    else none
  | .clean i =>
    let r := s.rank i
    if r.Idle then
      some (s.move i
        { r with
          cleaning := some
            (groupSnClean g.version r.gather.allGatherGroupSn r.barrier.barrierGroupSn) }
        s.store)
    else none
  | .remove i =>
    match (s.rank i).cleaning with
    | some (key :: keys) =>
      some (s.move i { s.rank i with cleaning := some keys } (s.store.remove key).1)
    | _ => none

def collectiveSystem (g : GatherGroup n) (store : SeqMap) :
    TransitionSystem (CollectiveState n) (CollectiveStep n) where
  start := ⟨store, fun _ => ⟨⟨0, .add, 0, 0⟩, ⟨0, .append, 0, []⟩, none⟩⟩
  next := collectiveNext g

/-! ### Keys that are still to be read -/

/-- The keys rank `r` has still to read in the barrier it is in. -/
def BarrierRank.toRead (version : ℤ) (r : BarrierRank) : List Key :=
  if r.pc = .add then [] else [groupKey version r.barrierGroupSn .barrierWait]

/-- The keys rank `r` has still to read in the all-gather it is in. -/
def GatherRank.toRead (version : ℤ) (r : GatherRank) : List Key :=
  match r.pc with
  | .append => []
  | .getData => [groupKey version r.allGatherGroupSn .gatherAdd]
  | _ => [groupKey version r.allGatherGroupSn .gatherWait,
      groupKey version r.allGatherGroupSn .gatherAdd]

/-- Rank `j` has to read `key` in a call that all ranks have made. -/
def Pending (g : GatherGroup n) (s : CollectiveState n) (j : Fin n) (key : Key) : Prop :=
  (key ∈ (s.rank j).barrier.toRead g.version ∧
      ∀ l, (s.rank j).barrier.adds ≤ (s.rank l).barrier.adds) ∨
    (key ∈ (s.rank j).gather.toRead g.version ∧
      ∀ l, (s.rank j).gather.calls ≤ (s.rank l).gather.calls)

/-- The key that `GroupSnClean` removes next is not pending. -/
def RemovesNoPending (g : GatherGroup n) (s : CollectiveState n) : Prop :=
  ∀ i key keys, (s.rank i).cleaning = some (key :: keys) → ∀ j, ¬ Pending g s j key

/-- The rank has made call `k` of the barrier and is not in it any more. -/
def BarrierRank.Left (k : ℕ) (r : BarrierRank) : Prop :=
  k ≤ r.adds ∧ (r.adds = k → r.pc = .add)

/-- The rank has made call `k` of the all-gather and is not in it any more. -/
def GatherRank.Left (k : ℕ) (r : GatherRank) : Prop :=
  k ≤ r.calls ∧ (r.calls = k → r.pc = .append)
  deriving Decidable

instance (k : ℕ) (r : BarrierRank) : Decidable (r.Left k) := inferInstanceAs (Decidable (_ ∧ _))

/-- A rank cleans up only when all ranks have left its last barrier and its last
all-gather. -/
def AllLeft (s : CollectiveState n) : CollectiveStep n → Prop
  | .clean i => ∀ j, (s.rank j).barrier.Left (s.rank i).barrier.adds ∧
      (s.rank j).gather.Left (s.rank i).gather.calls
  | _ => True

instance (s : CollectiveState n) : (a : CollectiveStep n) → Decidable (AllLeft s a)
  | .clean _ => inferInstanceAs (Decidable (∀ _, _))
  | .barrier _ | .gather _ _ | .remove _ => inferInstanceAs (Decidable True)

/-! ### Calls that were left are not entered again -/

variable {i : Fin n} {k : ℕ} {g : GatherGroup n} {s : CollectiveState n}

theorem BarrierRank.Left.next {version : ℤ} {s s' : BarrierState n} (h : (s.rank i).Left k)
    (hn : barrierNext version s i = some s') : (s'.rank i).Left k := by
  -- inside a call the rank is in a later one, and stays in it until it returns
  have hinside : ∀ {r : BarrierRank} {store : SeqMap}, (s.rank i).pc ≠ .add →
      some (s.move i r store) = some s' → r.adds = (s.rank i).adds → (s'.rank i).Left k := by
    intro r store hpc hmove hadds
    rw [← some_inj.mp hmove]
    rw [move_rank_self, BarrierRank.Left, hadds]
    exact ⟨h.1, fun heq => absurd (h.2 heq) hpc⟩
  cases hpc : (s.rank i).pc with
  | add =>
    simp only [barrierNext, hpc] at hn
    split at hn
    case h_2 => cases hn
    case h_1 store val hadd =>
      rw [← some_inj.mp hn, move_rank_self]
      have hle := h.1
      exact ⟨Nat.le_succ_of_le hle, fun heq => absurd heq (Nat.lt_succ_of_le hle).ne'⟩
  | removeAdd val | removeWait val | set =>
    simp only [barrierNext, hpc] at hn
    exact hinside (by simp [hpc]) hn rfl
  | get =>
    simp only [barrierNext, hpc] at hn
    split at hn
    case h_2 => cases hn
    case h_1 store value hget =>
      obtain ⟨-, hn⟩ := ite_none_right_eq_some.mp hn
      exact hinside (by simp [hpc]) hn rfl

theorem GatherRank.Left.inside {r r' : GatherRank} (h : r.Left k) (hpc : r.pc ≠ .append)
    (hcalls : r'.calls = r.calls) : r'.Left k :=
  ⟨hcalls ▸ h.1, fun heq => absurd (h.2 (hcalls.symm.trans heq)) hpc⟩

theorem GatherRank.Left.begun {r : GatherRank} (h : r.Left k) (pc : GatherPc) :
    (r.begun pc).Left k :=
  ⟨Nat.le_succ_of_le h.1, fun heq => absurd heq (Nat.lt_succ_of_le h.1).ne'⟩

theorem GatherRank.Left.perform {s s' : GatherState n} (h : (s.rank i).Left k)
    (hn : g.perform s i = some s') : (s'.rank i).Left k := by
  have hinside : ∀ {r : GatherRank} {store : SeqMap}, (s.rank i).pc ≠ .append →
      some (s.move i r store) = some s' → r.calls = (s.rank i).calls → (s'.rank i).Left k := by
    intro r store hpc hmove hcalls
    rw [← some_inj.mp hmove, move_rank_self]
    exact h.inside hpc hcalls
  cases hpc : (s.rank i).pc with
  | append =>
    simp only [GatherGroup.perform, hpc, SeqMap.append] at hn
    rw [← some_inj.mp hn, move_rank_self]
    exact h.begun _
  | removeAdd val | removeWait val | set =>
    simp only [GatherGroup.perform, hpc] at hn
    exact hinside (by simp [hpc]) hn rfl
  | getWait =>
    simp only [GatherGroup.perform, hpc] at hn
    split at hn
    case h_2 => cases hn
    case h_1 store value hget =>
      refine hinside (by simp [hpc]) hn ?_
      split <;> rfl
  | getData =>
    simp only [GatherGroup.perform, hpc] at hn
    split at hn
    case h_2 => cases hn
    case h_1 store output hget =>
      refine hinside (by simp [hpc]) hn ?_
      split <;> rfl

theorem GatherRank.Left.fail {s : GatherState n} (h : (s.rank i).Left k) (lost : Bool) :
    ((g.fail s i lost).rank i).Left k := by
  cases hpc : (s.rank i).pc <;> simp only [GatherGroup.fail, hpc] <;> rw [move_rank_self]
  case append => exact h.begun _
  all_goals exact h.inside (by simp [hpc]) rfl

/-! ### The rank that cleans up makes no more calls -/

/-- All ranks have left the last calls of a rank that cleans up, and of the barriers and
all-gathers that follow it makes none. -/
def CleanInv (s : CollectiveState n) : Prop :=
  ∀ i, (s.rank i).cleaning ≠ none → ∀ j, (s.rank j).barrier.Left (s.rank i).barrier.adds ∧
      (s.rank j).gather.Left (s.rank i).gather.calls

theorem CleanInv.move (hinv : CleanInv s) {r : CollectiveRank} {store : SeqMap}
    (hclean : r.cleaning = none) (hbar : ∀ k, (s.rank i).barrier.Left k → r.barrier.Left k)
    (hgather : ∀ k, (s.rank i).gather.Left k → r.gather.Left k) : CleanInv (s.move i r store) := by
  intro l hl
  have hne : l ≠ i := by
    rintro rfl
    rw [move_rank_self] at hl
    exact hl hclean
  rw [move_rank_of_ne hne] at hl ⊢
  refine forall_move (p := fun _ (r : CollectiveRank) => r.barrier.Left _ ∧ r.gather.Left _) ?_
    fun j _ => hinv l hl j
  exact ⟨hbar _ (hinv l hl i).1, hgather _ (hinv l hl i).2⟩

theorem CleanInv.setCleaning (hinv : CleanInv s)
    (hi : ∀ j, (s.rank j).barrier.Left (s.rank i).barrier.adds ∧
      (s.rank j).gather.Left (s.rank i).gather.calls) (cleaning : Option (List Key))
    (store : SeqMap) : CleanInv (s.move i { s.rank i with cleaning := cleaning } store) := by
  have hbar : ∀ j, ((s.move i { s.rank i with cleaning := cleaning } store).rank j).barrier =
      (s.rank j).barrier := map_move CollectiveRank.barrier rfl
  have hgather : ∀ j, ((s.move i { s.rank i with cleaning := cleaning } store).rank j).gather =
      (s.rank j).gather := map_move CollectiveRank.gather rfl
  intro l hl j
  rw [hbar j, hgather j, hbar l, hgather l]
  rcases eq_or_ne l i with rfl | hne
  · exact hi j
  · rw [move_rank_of_ne hne] at hl
    exact hinv l hl j

theorem cleanInv_next {s' : CollectiveState n} {a : CollectiveStep n} (hinv : CleanInv s)
    (hleft : AllLeft s a) (hn : collectiveNext g s a = some s') : CleanInv s' := by
  cases a with
  | barrier i =>
    obtain ⟨⟨-, hclean⟩, hn⟩ := ite_none_right_eq_some.mp hn
    obtain ⟨t, ht, rfl⟩ := map_eq_some_iff.mp hn
    exact hinv.move hclean (fun k h => BarrierRank.Left.next (s := barriersOf s) h ht) fun _ h => h
  | gather i fails =>
    obtain ⟨⟨-, hclean⟩, hn⟩ := ite_none_right_eq_some.mp hn
    obtain ⟨t, ht, rfl⟩ := map_eq_some_iff.mp hn
    refine hinv.move hclean (fun _ h => h) fun k h => ?_
    cases fails with
    | none => exact GatherRank.Left.perform (s := gathersOf s) h ht
    | some lost =>
      rw [← some_inj.mp ht]
      exact GatherRank.Left.fail (s := gathersOf s) h lost
  | clean i =>
    obtain ⟨-, rfl⟩ := of_guard hn
    exact hinv.setCleaning hleft _ _
  | remove i =>
    simp only [collectiveNext] at hn
    split at hn
    case h_2 => cases hn
    case h_1 key keys hclean =>
      exact some_inj.mp hn ▸ hinv.setCleaning (hinv i (by simp [hclean])) _ _

/-- If every rank has left the calls of the rank that cleans up, no key is removed that a rank has
to read in a call that all ranks have made. -/
theorem removesNoPending_of_allLeft (g : GatherGroup n) (store : SeqMap) {s : CollectiveState n}
    (hs : (collectiveSystem g store).ReachableBy AllLeft s) : RemovesNoPending g s := by
  have hstart : CleanInv (collectiveSystem g store).start := fun _ h => absurd rfl h
  have hinv : CleanInv s := hs.invariant hstart fun hinv hleft hn => cleanInv_next hinv hleft hn
  intro i key keys hclean j hpend
  obtain ⟨hbar, hgather⟩ := hinv i (by simp [hclean]) j
  -- in a call that rank `i` has made as well, rank `j` is not any more
  rcases hpend with ⟨hread, hall⟩ | ⟨hread, hall⟩
  · have hpc := hbar.2 (le_antisymm (hall i) hbar.1)
    rw [BarrierRank.toRead, if_pos hpc] at hread
    exact List.not_mem_nil hread
  · have hpc := hgather.2 (le_antisymm (hall i) hgather.1)
    rw [GatherRank.toRead, hpc] at hread
    exact List.not_mem_nil hread

/-- After a barrier from which both ranks have returned, rank 1 removes its wait key. -/
theorem removesNoPending_after_barrier :
    ∃ s : CollectiveState 2, (∃ keys, (s.rank 1).cleaning =
        some (groupKey 0 1 .barrierWait :: keys)) ∧ (s.rank 0).barrier.returns = 1 ∧
      RemovesNoPending barePair s := by
  have hrun : (((collectiveSystem barePair fun _ => none).restrict AllLeft).run
      (collectiveSystem barePair fun _ => none).start
      [.barrier 0, .barrier 1, .barrier 1, .barrier 1, .barrier 0, .clean 1, .remove 1,
        .remove 1, .remove 1]).map
      (fun s => ((s.rank 1).cleaning.map List.head?, (s.rank 0).barrier.returns)) =
      some (some (some (groupKey 0 1 .barrierWait)), 1) := by
    decide +kernel
  obtain ⟨s, hs, heq⟩ := TransitionSystem.exists_of_run_restrict hrun
  obtain ⟨hclean, hret⟩ := Prod.mk.inj heq
  obtain ⟨keys, hkeys, hhead⟩ := map_eq_some_iff.mp hclean
  obtain ⟨rest, rfl⟩ := List.head?_eq_some_iff.mp hhead
  exact ⟨s, ⟨rest, hkeys⟩, hret, removesNoPending_of_allLeft barePair (fun _ => none) hs⟩

/-- A rank that comes back from a barrier and cleans up at once takes the wait key away from a rank
that has not read it. -/
theorem cleanup_removes_wait_key :
    ∃ s s' : CollectiveState 2,
      (collectiveSystem barePair fun _ => none).run (collectiveSystem barePair fun _ => none).start
        [.barrier 0, .barrier 1, .barrier 1, .barrier 1, .clean 1, .remove 1, .remove 1,
          .remove 1] = some s ∧
      (s.rank 1).barrier.returns = 1 ∧ ¬ RemovesNoPending barePair s ∧
      (collectiveSystem barePair fun _ => none).next s (.remove 1) = some s' ∧
      (collectiveSystem barePair fun _ => none).next s' (.barrier 0) = none := by
  have hrun : ((collectiveSystem barePair fun _ => none).run
      (collectiveSystem barePair fun _ => none).start
      [.barrier 0, .barrier 1, .barrier 1, .barrier 1, .clean 1, .remove 1, .remove 1,
        .remove 1]).map
      (fun s => ([(s.rank 0).barrier, (s.rank 1).barrier], (s.rank 1).cleaning.map List.head?,
        ((collectiveSystem barePair fun _ => none).next s (.remove 1)).map fun s' =>
          ((collectiveSystem barePair fun _ => none).next s' (.barrier 0)).isNone)) =
      some ([⟨1, .get, 1, 0⟩, ⟨1, .add, 1, 1⟩], some (some (groupKey 0 1 .barrierWait)),
        some true) := by
    decide +kernel
  obtain ⟨s, hs, heq⟩ := map_eq_some_iff.mp hrun
  simp only [Prod.mk.injEq, List.cons.injEq, and_true] at heq
  obtain ⟨⟨h0, h1⟩, hclean, hnext⟩ := heq
  obtain ⟨s', hs', hblocked⟩ := map_eq_some_iff.mp hnext
  obtain ⟨keys, hkeys, hhead⟩ := map_eq_some_iff.mp hclean
  obtain ⟨rest, rfl⟩ := List.head?_eq_some_iff.mp hhead
  refine ⟨s, s', hs, by rw [h1], fun hsafe => ?_, hs', isNone_iff_eq_none.mp hblocked⟩
  refine hsafe 1 _ rest hkeys 0 (.inl ⟨?_, fun l => ?_⟩)
  · rw [h0]
    exact List.mem_singleton.mpr rfl
  match l with
  | 0 => exact le_rfl
  | 1 => rw [h0, h1]

end GroupEngine
