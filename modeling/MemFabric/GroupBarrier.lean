/-
Barriers of a group: `SmemNetGroupEngine::GroupBarrier()` run by n ranks.

Each rank calls the barrier again and again, and one step is one store operation of one rank, so
the ranks interleave freely.  A call that fails is not a step: the runs are those whose calls
return `SM_OK`.  A rank counts the `Add`s it performed and the calls it returned from.

`NoEarlyReturn` and `DeletesNoPending` are what the barrier is for.  They are proved in
`GroupBarrierSafety.lean` for call numbers within `barrierLimit`; `GroupBarrierWrap.lean` shows
what happens one call later.
-/
import MemFabric.GroupKeys
import MemFabric.SharedState
import MemFabric.Transition

namespace GroupEngine

open ConfigStore

variable {n : ℕ}

/-! ### The ranks and their steps -/

/-- The next store operation of a rank; `val` is what its `Add` returned. -/
inductive BarrierPc
  | add
  | removeAdd (val : ℤ)
  | removeWait (val : ℤ)
  | set
  | get
  deriving DecidableEq

/-- A rank: `barrierGroupSn_`, where it is in the call, and how many `Add`s it
performed and calls it returned from. -/
structure BarrierRank where
  barrierGroupSn : ℕ
  pc : BarrierPc
  adds : ℕ
  returns : ℕ
  deriving DecidableEq

abbrev BarrierState (n : ℕ) := SharedState SeqMap BarrierRank n

/-- The last rank sets the wait key, the others go and wait for it. -/
def barrierWaitPc (size : ℕ) (val : ℤ) : BarrierPc :=
  if val = size then .set else .get

def barrierAddedPc (size : ℕ) (val : ℤ) (sn : ℕ) : BarrierPc :=
  if val = 1 ∧ removeInterval < sn then .removeAdd val else barrierWaitPc size val

/-- The rank after the `Add` of its next call returned `val`. -/
def BarrierRank.added (size : ℕ) (r : BarrierRank) (val : ℤ) : BarrierRank :=
  { r with
    barrierGroupSn := nextSn r.barrierGroupSn
    pc := barrierAddedPc size val (nextSn r.barrierGroupSn)
    adds := r.adds + 1 }

/-- The next store operation of rank `i`, with the local work that follows it. -/
def barrierNext (version : ℤ) (s : BarrierState n) (i : Fin n) : Option (BarrierState n) :=
  let r := s.rank i
  let removeSn := r.barrierGroupSn - removeInterval
  match r.pc with
  | .add =>
    match s.store.add (groupKey version (nextSn r.barrierGroupSn) .barrierAdd) 1 with
    | (store, .number val) =>
      some (s.move i (r.added n val) store)
    | _ => none
  | .removeAdd val =>
    some (s.move i { r with pc := .removeWait val }
      (s.store.remove (groupKey version removeSn .barrierAdd)).1)
  | .removeWait val =>
    some (s.move i { r with pc := barrierWaitPc n val }
      (s.store.remove (groupKey version removeSn .barrierWait)).1)
  | .set =>
    some (s.move i { r with pc := .get }
      (s.store.set (groupKey version r.barrierGroupSn .barrierWait) groupSetStr).1)
  | .get =>
    match s.store.get (groupKey version r.barrierGroupSn .barrierWait) with
    | (store, .found value) =>
      if value = groupSetStr then
        some (s.move i { r with pc := .add, returns := r.returns + 1 } store)
      else
        none
    | _ => none

def barrierSystem (n : ℕ) (version : ℤ) (store : SeqMap) :
    TransitionSystem (BarrierState n) (Fin n) where
  start := ⟨store, fun _ => ⟨0, .add, 0, 0⟩⟩
  next := barrierNext version

def NoBarrierKeys (version : ℤ) (store : SeqMap) : Prop :=
  ∀ sn, store (groupKey version sn .barrierAdd) = none ∧
    store (groupKey version sn .barrierWait) = none

/-! ### What is to be shown -/

/-- No rank has returned from a call whose `Add` another rank has not performed. -/
def NoEarlyReturn (s : BarrierState n) : Prop :=
  ∀ i j, (s.rank i).returns ≤ (s.rank j).adds

/-- Rank `j` has to read the wait key of call `k`: some rank has begun the call,
and `j` has not returned from it. -/
def StillToRead (s : BarrierState n) (j : Fin n) (k : ℕ) : Prop :=
  (s.rank j).returns < k ∧ ∃ l, k ≤ (s.rank l).adds

/-- A rank about to delete a wait key deletes none that is still to be read. -/
def DeletesNoPending (version : ℤ) (s : BarrierState n) : Prop :=
  ∀ i val, (s.rank i).pc = .removeWait val → ∀ j k, StillToRead s j k →
    groupKey version ((s.rank i).barrierGroupSn - removeInterval) .barrierWait ≠
      groupKey version (groupSn k) .barrierWait

/-- The calls before the first one that finds keys of an earlier lap. -/
def barrierLimit : ℕ := 2 ^ 33 - 3

/-- The rank is inside a call, or the call it begins is within the limit. -/
def FewCalls (s : BarrierState n) (i : Fin n) : Prop :=
  (s.rank i).pc = .add → (s.rank i).adds < barrierLimit
  deriving Decidable

end GroupEngine
