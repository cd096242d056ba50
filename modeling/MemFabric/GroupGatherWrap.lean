/-
All-gather after the sequence number has wrapped.

Rank 0 of `bytePair` calls 2^32 times while its Append fails (`alone_exists`), and the
number has wrapped.  Then rank 1 makes its first call, and call 2^32 + 1 of rank 0 finds its
unit under the same key.  The call of rank 0 returns `SM_OK` with the first send buffer of
rank 1 (`wrapped_gather_mixes_calls`).
-/
import MemFabric.GroupGather

namespace GroupEngine

open Function GatherGroup

open ConfigStore SharedState

abbrev byteSystem : TransitionSystem (GatherState 2) (GatherEvent 2) :=
  gatherSystem bytePair fun _ => none

/-- The Append of `k` calls of rank 0 has failed; rank 1 has made none. -/
structure Alone (s : GatherState 2) (k : ℕ) : Prop where
  reach : byteSystem.Reachable s
  first : s.rank 0 = ⟨groupSn k, .append, k, []⟩
  second : s.rank 1 = ⟨0, .append, 0, []⟩
  empty : s.store = fun _ => none

/-! ### The steps of a rank -/

section Steps

variable {s : GatherState 2} {i : Fin 2} {sn k : ℕ} {received : List (ℕ × Option Bytes)}

/-- The value of call `k` with the unit of rank `i` behind it. -/
def appended (s : GatherState 2) (i : Fin 2) (sn k : ℕ) : Bytes :=
  (s.store (groupKey 0 sn .gatherAdd)).getD [] ++ bytePair.input i k

section

variable (h : byteSystem.Reachable s)
include h

theorem reach_append (hi : s.rank i = ⟨sn, .append, k, received⟩) :
    byteSystem.Reachable (s.move i ⟨nextSn sn,
      bytePair.addedPc (appended s i (nextSn sn) (k + 1)).length (nextSn sn), k + 1, received⟩
      (update s.store (groupKey 0 (nextSn sn) .gatherAdd)
        (some (appended s i (nextSn sn) (k + 1))))) := by
  refine h.next (a := .perform i) trivial ?_
  simp only [gatherSystem, perform, hi, SeqMap.append, GatherRank.begun]
  rfl

theorem reach_received (hi : s.rank i = ⟨sn, .set, k, received⟩)
    {output : Bytes} (hkey : s.store (groupKey 0 sn .gatherAdd) = some output)
    (hlen : output.length = bytePair.inputSize * 2) :
    ∃ t, byteSystem.Reachable t ∧
      (k, sortGatherRecv output 1 2 (bytePair.recvBuf i k)) ∈ (t.rank i).received := by
  obtain ⟨t, ht⟩ : ∃ t, t = s.move i ⟨sn, .getWait, k, received⟩
      (update s.store (groupKey 0 sn .gatherWait) (some groupSetStr)) := ⟨_, rfl⟩
  have hset : byteSystem.next s (.perform i) = some t := by
    simp only [gatherSystem, perform, hi, SeqMap.set_fst, ht]
    rfl
  have hopen : t.store (groupKey 0 sn .gatherWait) = some groupSetStr := by
    rw [ht, move_store, update_self]
  have hdata : t.store (groupKey 0 sn .gatherAdd) = some output := by
    rw [ht, move_store, update_groupKey_of_role (by decide), hkey]
  have hti : t.rank i = ⟨sn, .getWait, k, received⟩ := by
    rw [ht, move_rank_self]
  have hwait : byteSystem.next t (.perform i) =
      some (t.move i ⟨sn, .getData, k, received⟩ t.store) := by
    simp only [gatherSystem, perform, hti]
    rw [show bytePair.version = 0 from rfl, SeqMap.get_of_some hopen]
    simp only [if_true]
  have hget : byteSystem.next (t.move i ⟨sn, .getData, k, received⟩ t.store) (.perform i) =
      some ((t.move i ⟨sn, .getData, k, received⟩ t.store).move i
        ⟨sn, .append, k, (k, sortGatherRecv output 1 2 (bytePair.recvBuf i k)) :: received⟩
        t.store) := by
    simp only [gatherSystem, perform, move_rank_self]
    rw [show bytePair.version = 0 from rfl, move_store, SeqMap.get_of_some hdata]
    simp only [hlen, if_true, GatherRank.returned]
    rfl
  refine ⟨_, ((h.next trivial hset).next trivial hwait).next trivial hget, ?_⟩
  rw [move_rank_self]
  exact List.mem_cons_self

end

end Steps

theorem alone_exists (k : ℕ) : ∃ s, Alone s k := by
  induction k with
  | zero => exact ⟨byteSystem.start, .start, rfl, rfl, rfl⟩
  | succ k ih =>
    obtain ⟨s, hs⟩ := ih
    have hfail : byteSystem.next s (.fail 0 false) =
        some (s.move 0 ⟨groupSn (k + 1), .append, k + 1, []⟩ s.store) := by
      simp only [gatherSystem, fail, hs.first, GatherRank.begun, nextSn_groupSn]
      rfl
    refine ⟨_, hs.reach.next trivial hfail, move_rank_self, ?_, hs.empty⟩
    rw [move_rank_of_ne (by decide), hs.second]

/-! ### The first call of rank 1 -/

theorem wrapped_gather_mixes_calls :
    ∃ s, byteSystem.Reachable s ∧ (2 ^ 32 + 1, some [20, 11]) ∈ (s.rank 0).received ∧
      bytePair.gathered (2 ^ 32 + 1) = [20, 21] ∧ ¬ GatherAgrees bytePair s := by
  obtain ⟨s, hs⟩ := alone_exists (2 ^ 32)
  -- rank 1 appends its first unit, and waits
  have hreach := reach_append hs.reach hs.second
  obtain ⟨t, ht⟩ : ∃ t, t = s.move 1 ⟨1, .getWait, 1, []⟩ (update s.store
      (groupKey 0 1 .gatherAdd) (some [1, 0, 0, 0, 11])) := ⟨_, rfl⟩
  have hfirst : appended s 1 (nextSn 0) (0 + 1) = [1, 0, 0, 0, 11] := by
    rw [appended, show nextSn 0 = 1 from rfl, hs.empty]
    decide
  rw [hfirst] at hreach
  have hreach : byteSystem.Reachable t := ht ▸ hreach
  -- the unit of rank 0 makes the value of call 1 complete
  have hzero : t.rank 0 = ⟨0, .append, 2 ^ 32, []⟩ := by
    rw [ht, move_rank_of_ne (by decide), hs.first]
    rfl
  have hkey : t.store (groupKey 0 1 .gatherAdd) = some [1, 0, 0, 0, 11] := by
    rw [ht, move_store, update_self]
  have hvalue : appended t 0 (nextSn 0) (2 ^ 32 + 1) = [1, 0, 0, 0, 11, 0, 0, 0, 0, 20] := by
    rw [appended, show nextSn 0 = 1 from rfl, hkey]
    decide
  obtain ⟨u, hu⟩ : ∃ u, u = t.move 0 ⟨1, .set, 2 ^ 32 + 1, []⟩ (update t.store
      (groupKey 0 1 .gatherAdd) (some [1, 0, 0, 0, 11, 0, 0, 0, 0, 20])) := ⟨_, rfl⟩
  have hreach := reach_append hreach hzero
  rw [hvalue] at hreach
  have hreach : byteSystem.Reachable u := hu ▸ hreach
  have hset : u.rank 0 = ⟨1, .set, 2 ^ 32 + 1, []⟩ := by
    rw [hu, move_rank_self]
  have hwhole : u.store (groupKey 0 1 .gatherAdd) = some [1, 0, 0, 0, 11, 0, 0, 0, 0, 20] := by
    rw [hu, move_store, update_self]
  obtain ⟨v, hv, hrecv⟩ := reach_received hreach hset hwhole rfl
  have hmixed : sortGatherRecv [1, 0, 0, 0, 11, 0, 0, 0, 0, 20] 1 2
      (bytePair.recvBuf 0 (2 ^ 32 + 1)) = some [20, 11] := by
    decide
  have hgath : bytePair.gathered (2 ^ 32 + 1) = [20, 21] := by
    decide
  refine ⟨v, hv, hrecv, hgath, fun hagrees => ?_⟩
  have heq := hagrees 0 _ hrecv
  rw [hgath] at heq
  cases heq

end GroupEngine
