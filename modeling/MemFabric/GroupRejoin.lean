/-
Events for a rank that has joined again.

`GroupLeave` sets `groupStoped_`, which ends the listener, and nothing takes it back.  A listener
that runs skips an event that reads like the one before it.
-/
import MemFabric.GroupMembership

namespace GroupEngine

open ConfigStore SharedState

variable {n : ℕ} {s s' : MemberState n} {i : Fin n}

/-- Rank `i` does not begin to leave. -/
def Stays (i : Fin n) (_ : MemberState n) (a : MemberStep n) : Prop := a ≠ .leave i

/-- The listener runs, takes what is delivered and processes it. -/
def Processes (s : MemberState n) (i : Fin n) : Prop :=
  (s.rank i).groupStoped = false ∧
    (∀ value, (s.rank i).listener = .queued value → (s.rank i).joined = true →
      ∃ s', memberNext s (.take i) = some s' ∧ (s'.rank i).listener = .taken value) ∧
    (∀ value, (s.rank i).listener = .taken value → (s.rank i).pc = .idle →
      ∃ s', memberNext s (.enter i) = some s' ∧ (s'.rank i).listener = .entered value) ∧
    ∀ value e store tmpVal, (s.rank i).listener = .entered value →
      JoinLeaveEvent.parse value = some e → value ≠ (s.rank i).prevEvent →
      s.store.add dynamicSizeKey 0 = (store, .number tmpVal) →
      ∃ s', memberNext s (.process i) = some s' ∧
        (s'.rank i).groupVersion = wrap32 ((splitSizeAndVersion tmpVal).1 + 1) ∧
        (s'.rank i).rankSize = toUInt32 (if e.join then (splitSizeAndVersion tmpVal).2 + 1
          else (splitSizeAndVersion tmpVal).2 - 1)

theorem groupStoped_casEvent (value : Bytes) (j : Fin n) :
    ((s.casEvent value).rank j).groupStoped = (s.rank j).groupStoped := by
  rw [MemberState.casEvent]
  split_ifs
  · dsimp only [wakeListeners]
    split_ifs <;> rfl
  · rfl

theorem groupStoped_next {a : MemberStep n} (ha : a ≠ .leave i) (h : memberNext s a = some s') :
    (s'.rank i).groupStoped = (s.rank i).groupStoped := by
  -- the rank that moves keeps the flag, and the `Cas` only wakes listeners
  cases a with
  | leave j =>
    obtain ⟨-, rfl⟩ := of_guard h
    rw [move_rank_of_ne fun hij => ha (by rw [hij])]
  | cas j cbOk =>
    rw [memberNext, memberCas] at h
    split at h <;> cases h
    all_goals
      refine (map_move Member.groupStoped ?_ i).trans (groupStoped_casEvent _ i)
      rfl
  | join j | read j _ | update j | remove j | watch j | deliver j | take j | enter j | process j =>
    simp only [memberNext, memberRead, memberUpdate, memberRemove, memberProcess] at h
    repeat' split at h
    all_goals cases h
    all_goals
      refine map_move Member.groupStoped ?_ i
      rfl

/-- As long as a rank has not left, its listener runs, and an event other than the last one moves
its version and its size to what the dynamic-size key says. -/
theorem processes_of_stays (h : (memberSystem n).ReachableBy (Stays i) s) : Processes s i := by
  have hruns : (s.rank i).groupStoped = false := by
    refine h.invariant (I := fun s => (s.rank i).groupStoped = false) rfl ?_
    intro s s' a hs ha hnext
    rw [groupStoped_next ha hnext, hs]
  refine ⟨hruns, ?_, ?_, ?_⟩
  · intro value hvalue hjoined
    simp only [memberNext, hvalue, hjoined, hruns]
    exact ⟨_, rfl, by rw [move_rank_self]; rfl⟩
  · intro value hvalue hpc
    simp only [memberNext, hvalue, hpc]
    exact ⟨_, rfl, by rw [move_rank_self]⟩
  · intro value e store tmpVal hvalue hparse hne hadd
    simp only [memberNext, memberProcess, hvalue, hparse, if_neg hne, hadd]
    exact ⟨_, rfl, by rw [move_rank_self], by rw [move_rank_self]⟩

def watchingRun (i : Fin 2) : List (MemberStep 2) :=
  [.join i, .cas i true, .read i true, .update i, .remove i, .watch i]

/-- Rank `j` announces that it joins, and rank `i` is about to process it. -/
def announcedRun (i j : Fin 2) : List (MemberStep 2) :=
  [.join j, .cas j true, .deliver i, .take i, .enter i]

theorem processes_first_join : ∃ s, (memberSystem 2).ReachableBy (Stays 0) s ∧
    ∃ s', memberNext s (.process 0) = some s' ∧ (s'.rank 0).groupVersion = 2 := by
  have hrun : ((memberSystem 2).run (memberSystem 2).start (watchingRun 0 ++ announcedRun 0 1)).map
      (fun s => ((s.rank 0).listener, (s.rank 0).prevEvent, (s.store.add dynamicSizeKey 0).2)) =
      some (.entered (JoinLeaveEvent.toText ⟨true, 1⟩), [], .number (2 ^ 30 + 1)) := by
    decide +kernel
  obtain ⟨s, hs, hseen⟩ := Option.map_eq_some_iff.mp hrun
  simp only [Prod.mk.injEq] at hseen
  have hreach : (memberSystem 2).ReachableBy (Stays 0) s :=
    TransitionSystem.ReachableBy.run .start (by simp [watchingRun, announcedRun, Stays]) hs
  obtain ⟨s', hnext, hver, -⟩ := (processes_of_stays hreach).2.2.2 _ ⟨true, 1⟩ _ _ hseen.1
    (by decide +kernel) (by rw [hseen.2.1]; decide +kernel) (Prod.ext rfl hseen.2.2)
  exact ⟨s, hreach, s', hnext, hver.trans (by decide +kernel)⟩

/-- A rank leaves and joins again, and its listener stays stopped; another one skips the second
attempt of a rank to join. -/
theorem rejoined_without_listener :
    (∃ s, (memberSystem 2).Reachable s ∧
      ((s.rank 0).joined, (s.rank 0).groupStoped) = (true, true)) ∧
    ∃ s, (memberSystem 2).Reachable s ∧
      ((s.rank 0).groupStoped, (s.rank 0).listener, (s.rank 0).groupVersion,
        (memberNext s (.process 0)).map fun s' => (s'.rank 0).groupVersion) =
      (false, .entered (JoinLeaveEvent.toText ⟨true, 1⟩), 2, some 2) := by
  constructor
  · refine TransitionSystem.exists_of_run (show ((memberSystem 2).run _ (watchingRun 0 ++
      [.leave 0, .cas 0 true, .update 0, .remove 0, .join 0, .cas 0 true, .read 0 true, .update 0,
        .remove 0])).map _ = some _ from ?_)
    decide +kernel
  refine TransitionSystem.exists_of_run (show ((memberSystem 2).run _ (watchingRun 0 ++
    announcedRun 0 1 ++ [.process 0, .read 1 false, .remove 1, .watch 0] ++
      announcedRun 0 1)).map _ = some _ from ?_)
  decide +kernel

end GroupEngine
