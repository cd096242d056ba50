/-
All-gather of a group: `SmemNetGroupEngine::GroupAllGather` run by n ranks.

As for the barrier, a step is one store operation of one rank.  It may fail or time out, or
only its reply is lost (`fail`): the call then returns `SM_ERROR`, or goes on if it was the
deletion of an old key.  A rank records the number of each call that returned `SM_OK` and what
its receive buffer held then.
-/
import MemFabric.GatherFormat
import MemFabric.GroupKeys
import MemFabric.SharedState
import MemFabric.Transition

namespace GroupEngine

open List Option

open ConfigStore SharedState Blocks SeqMap

variable {n : ℕ}

/-! ### The ranks and their steps -/

/-- A group of ranks with different rank numbers, and the buffers of their calls;
the sizes do not overflow. -/
structure GatherGroup (n : ℕ) where
  version : ℤ
  rank : Fin n → ℕ
  sendSize : ℕ
  send : Fin n → ℕ → Bytes
  recvBuf : Fin n → ℕ → Bytes
  rank_lt : ∀ i, rank i < 2 ^ 32
  rank_injective : Function.Injective rank
  send_length : ∀ i k, (send i k).length = sendSize
  recvBuf_length : ∀ i k, (recvBuf i k).length = sendSize * n
  fits : (sendSize + gatherPrefixSize) * n < 2 ^ 32

/-- The next store operation of a rank; `val` is what its `Append` returned. -/
inductive GatherPc
  | append
  | removeAdd (val : ℕ)
  | removeWait (val : ℕ)
  | set
  | getWait
  | getData
  deriving DecidableEq

/-- A rank: `allGatherGroupSn_`, where it is in the call, how many calls it has
begun, and the receive buffers of those that returned `SM_OK`. -/
structure GatherRank where
  allGatherGroupSn : ℕ
  pc : GatherPc
  calls : ℕ
  received : List (ℕ × Option Bytes)
  deriving DecidableEq

abbrev GatherState (n : ℕ) := SharedState SeqMap GatherRank n

def GatherGroup.inputSize (g : GatherGroup n) : ℕ := g.sendSize + gatherPrefixSize

/-- What rank `i` appends in call `k`. -/
def GatherGroup.input (g : GatherGroup n) (i : Fin n) (k : ℕ) : Bytes :=
  gatherUnit (g.rank i) (g.send i k)

/-- The last rank sets the wait key, the others go and wait for it. -/
def GatherGroup.waitPc (g : GatherGroup n) (val : ℕ) : GatherPc :=
  if val = g.inputSize * n then .set else .getWait

def GatherGroup.addedPc (g : GatherGroup n) (val sn : ℕ) : GatherPc :=
  if val = g.inputSize ∧ removeInterval < sn then .removeAdd val else g.waitPc val

def GatherRank.failed (r : GatherRank) : GatherRank := { r with pc := .append }

/-- The rank has begun a call with `++allGatherGroupSn_`, and goes on to `pc`. -/
def GatherRank.begun (r : GatherRank) (pc : GatherPc) : GatherRank :=
  { r with allGatherGroupSn := nextSn r.allGatherGroupSn, pc := pc, calls := r.calls + 1 }

/-- The call has returned `SM_OK` with this receive buffer. -/
def GatherRank.returned (r : GatherRank) (recvBuf : Option Bytes) : GatherRank :=
  { r with pc := .append, received := (r.calls, recvBuf) :: r.received }

/-- The next store operation of rank `i`, with the local work that follows it. -/
def GatherGroup.perform (g : GatherGroup n) (s : GatherState n) (i : Fin n) :
    Option (GatherState n) :=
  let r := s.rank i
  let removeSn := r.allGatherGroupSn - removeInterval
  match r.pc with
  | .append =>
    let sn := nextSn r.allGatherGroupSn
    match s.store.append (groupKey g.version sn .gatherAdd) (g.input i (r.calls + 1)) with
    | (store, .length val) => some (s.move i (r.begun (g.addedPc val sn)) store)
    | _ => none
  | .removeAdd val =>
    some (s.move i { r with pc := .removeWait val }
      (s.store.remove (groupKey g.version removeSn .gatherAdd)).1)
  | .removeWait val =>
    some (s.move i { r with pc := g.waitPc val }
      (s.store.remove (groupKey g.version removeSn .gatherWait)).1)
  | .set =>
    some (s.move i { r with pc := .getWait }
      (s.store.set (groupKey g.version r.allGatherGroupSn .gatherWait) groupSetStr).1)
  | .getWait =>
    match s.store.get (groupKey g.version r.allGatherGroupSn .gatherWait) with
    | (store, .found value) =>
      some (s.move i (if value = groupSetStr then { r with pc := .getData } else r.failed) store)
    | _ => none
  | .getData =>
    match s.store.get (groupKey g.version r.allGatherGroupSn .gatherAdd) with
    | (store, .found output) =>
      some (s.move i (if output.length = g.inputSize * n then
          r.returned (sortGatherRecv output g.sendSize n (g.recvBuf i r.calls))
        else
          r.failed) store)
    | _ => none

/-- The store after the next operation of rank `i`. -/
def GatherGroup.performed (g : GatherGroup n) (s : GatherState n) (i : Fin n) : SeqMap :=
  let r := s.rank i
  let removeSn := r.allGatherGroupSn - removeInterval
  match r.pc with
  | .append =>
    (s.store.append (groupKey g.version (nextSn r.allGatherGroupSn) .gatherAdd)
      (g.input i (r.calls + 1))).1
  | .removeAdd _ => (s.store.remove (groupKey g.version removeSn .gatherAdd)).1
  | .removeWait _ => (s.store.remove (groupKey g.version removeSn .gatherWait)).1
  | .set => (s.store.set (groupKey g.version r.allGatherGroupSn .gatherWait) groupSetStr).1
  | .getWait | .getData => s.store

/-- The next store operation of rank `i` fails, or its reply is lost.  The results of the
deletions are ignored; any other failure ends the call. -/
def GatherGroup.fail (g : GatherGroup n) (s : GatherState n) (i : Fin n) (lost : Bool) :
    GatherState n :=
  let r := s.rank i
  let store := if lost then g.performed s i else s.store
  match r.pc with
  | .append => s.move i (r.begun .append) store
  | .removeAdd val => s.move i { r with pc := .removeWait val } store
  | .removeWait val => s.move i { r with pc := g.waitPc val } store
  | .set | .getWait | .getData => s.move i r.failed store

inductive GatherEvent (n : ℕ)
  | perform (i : Fin n)
  | fail (i : Fin n) (lost : Bool)

def gatherSystem (g : GatherGroup n) (store : SeqMap) :
    TransitionSystem (GatherState n) (GatherEvent n) where
  start := ⟨store, fun _ => ⟨0, .append, 0, []⟩⟩
  next s
    | .perform i => g.perform s i
    | .fail i lost => some (g.fail s i lost)

/-! ### What is to be shown -/

/-- The send buffers of call `k`, in ascending order of the rank numbers. -/
def GatherGroup.gathered (g : GatherGroup n) (k : ℕ) : Bytes :=
  (sortByKey g.rank (List.finRange n)).flatMap fun i => g.send i k

/-- Every call that returned `SM_OK` received the send buffers of that call. -/
def GatherAgrees (g : GatherGroup n) (s : GatherState n) : Prop :=
  ∀ i, ∀ e ∈ (s.rank i).received, e.2 = some (g.gathered e.1)

/-- The rank is inside a call, or the call it begins is one of the first 2^32. -/
def FewGathers (s : GatherState n) : GatherEvent n → Prop
  | .perform i | .fail i _ => (s.rank i).pc = .append → (s.rank i).calls < 2 ^ 32

instance (s : GatherState n) (e : GatherEvent n) : Decidable (FewGathers s e) := by
  cases e <;> exact inferInstanceAs (Decidable (_ → _))

/-! ### The invariant -/

/-- The value of call `k`: the units of ranks that have begun it, each once. -/
def HoldsUnits (g : GatherGroup n) (s : GatherState n) (k : ℕ) : Prop :=
  ∀ value, s.store (groupKey g.version (groupSn k) .gatherAdd) = some value →
    ∃ l : List (Fin n), l.Nodup ∧ (∀ i ∈ l, k ≤ (s.rank i).calls) ∧
      value = gatherUnits g.rank (g.send · k) l

structure GatherRank.Ok (g : GatherGroup n) (r : GatherRank) : Prop where
  sn_eq : r.allGatherGroupSn = groupSn r.calls
  calls_le : r.calls ≤ 2 ^ 32
  inside : r.pc ≠ .append → 0 < r.calls
  agrees : ∀ e ∈ r.received, e.2 = some (g.gathered e.1)

structure GatherInv (g : GatherGroup n) (s : GatherState n) : Prop where
  ranks : ∀ i, (s.rank i).Ok g
  data : ∀ k, 0 < k → k ≤ 2 ^ 32 → HoldsUnits g s k

variable {g : GatherGroup n} {s : GatherState n} {i : Fin n} {r : GatherRank} {store : SeqMap}

theorem groupSn_injective {k k' : ℕ} (hk : 0 < k) (hk' : 0 < k') (hle : k ≤ 2 ^ 32)
    (hle' : k' ≤ 2 ^ 32) (h : groupSn k = groupSn k') : k = k' := by
  simp only [groupSn] at h
  omega

theorem gatherKey_ne {k k' : ℕ} (hk : 0 < k) (hk' : 0 < k') (hle : k ≤ 2 ^ 32)
    (hle' : k' ≤ 2 ^ 32) (h : k ≠ k') :
    groupKey g.version (groupSn k) .gatherAdd ≠ groupKey g.version (groupSn k') .gatherAdd :=
  groupKey_ne_of_sn (fun hsn => h (groupSn_injective hk hk' hle hle' hsn)) _ _

theorem calls_le_move (h : (s.rank i).calls ≤ r.calls) (j : Fin n) :
    (s.rank j).calls ≤ ((s.move i r store).rank j).calls :=
  forall_move (p := fun j (r : GatherRank) => (s.rank j).calls ≤ r.calls) h (fun _ _ => le_rfl) j

theorem GatherInv.move (hinv : GatherInv g s) (hok : r.Ok g) (hcalls : (s.rank i).calls ≤ r.calls)
    (hdata : ∀ k, 0 < k → k ≤ 2 ^ 32 → ∀ value,
      store (groupKey g.version (groupSn k) .gatherAdd) = some value →
      s.store (groupKey g.version (groupSn k) .gatherAdd) = some value ∨
        ∃ l : List (Fin n), l.Nodup ∧ (∀ j ∈ l, k ≤ ((s.move i r store).rank j).calls) ∧
          value = gatherUnits g.rank (g.send · k) l) :
    GatherInv g (s.move i r store) where
  ranks := forall_move (p := fun _ (r : GatherRank) => r.Ok g) hok fun j _ => hinv.ranks j
  data k hpos hle value hvalue := by
    rcases hdata k hpos hle value hvalue with hold | hnew
    · obtain ⟨l, hnodup, hl, heq⟩ := hinv.data k hpos hle value hold
      exact ⟨l, hnodup, fun j hj => (hl j hj).trans (calls_le_move hcalls j), heq⟩
    · exact hnew

theorem GatherInv.moveInside (hinv : GatherInv g s) (hok : r.Ok g)
    (hcalls : (s.rank i).calls ≤ r.calls)
    (hstore : ∀ sn value, store (groupKey g.version sn .gatherAdd) = some value →
      s.store (groupKey g.version sn .gatherAdd) = some value) : GatherInv g (s.move i r store) :=
  hinv.move hok hcalls fun k _ _ value hvalue => .inl (hstore (groupSn k) value hvalue)

theorem GatherRank.Ok.goto (h : r.Ok g) (hin : r.pc ≠ .append) (pc : GatherPc) :
    GatherRank.Ok g { r with pc := pc } :=
  ⟨h.sn_eq, h.calls_le, fun _ => h.inside hin, h.agrees⟩

theorem GatherRank.Ok.begun (h : r.Ok g) (hfew : r.calls < 2 ^ 32) (pc : GatherPc) :
    (r.begun pc).Ok g where
  sn_eq := by
    show nextSn r.allGatherGroupSn = groupSn (r.calls + 1)
    rw [h.sn_eq, nextSn_groupSn]
  calls_le := hfew
  inside _ := Nat.succ_pos _
  agrees := h.agrees

theorem some_of_removed {key key' : Key} {m : SeqMap} {value : Bytes}
    (h : (m.remove key').1 key = some value) : m key = some value := by
  rw [remove_fst, Function.update_apply] at h
  split at h
  case isTrue => cases h
  case isFalse => exact h

theorem perm_finRange {l : List (Fin n)} (hnodup : l.Nodup) (hlen : l.length = n) :
    l.Perm (List.finRange n) := by
  have huniv : l.toFinset = Finset.univ := by
    refine Finset.eq_univ_of_card _ ?_
    rw [toFinset_card_of_nodup hnodup, hlen, Fintype.card_fin]
  rw [perm_ext_iff_of_nodup hnodup (nodup_finRange n)]
  intro i
  have hi : i ∈ l.toFinset := huniv ▸ Finset.mem_univ i
  exact ⟨fun _ => mem_finRange i, fun _ => mem_toFinset.mp hi⟩

theorem sortGatherRecv_full {k : ℕ} {l : List (Fin n)} (hnodup : l.Nodup)
    (hlen : (gatherUnits g.rank (g.send · k) l).length = g.inputSize * n) :
    sortGatherRecv (gatherUnits g.rank (g.send · k) l) g.sendSize n (g.recvBuf i k) =
      some (g.gathered k) := by
  have hall : l.length = n := by
    rw [length_gatherUnits g.rank (g.send_length · k), GatherGroup.inputSize, Nat.mul_comm] at hlen
    exact Nat.eq_of_mul_eq_mul_left (by simp [gatherPrefixSize]) hlen
  have hfits : (g.sendSize + gatherPrefixSize) * l.length < 2 ^ 32 := by
    rw [hall]
    exact g.fits
  have hrecv : (g.recvBuf i k).length = g.sendSize * l.length := by
    rw [hall, g.recvBuf_length]
  have hsort := sortGatherRecv_units (g.send_length · k) g.rank_lt g.rank_injective hnodup
    hfits hrecv
  rw [hall] at hsort
  rw [hsort, GatherGroup.gathered,
    sortByKey_eq_of_perm (fun i _ j _ h => g.rank_injective h) (perm_finRange hnodup hall)]

theorem GatherInv.returned (hinv : GatherInv g s) (hin : (s.rank i).pc ≠ .append) {output : Bytes}
    (hkey : s.store (groupKey g.version (s.rank i).allGatherGroupSn .gatherAdd) = some output)
    (hlen : output.length = g.inputSize * n) :
    ((s.rank i).returned (sortGatherRecv output g.sendSize n
      (g.recvBuf i (s.rank i).calls))).Ok g := by
  have hok := hinv.ranks i
  rw [hok.sn_eq] at hkey
  obtain ⟨l, hnodup, -, rfl⟩ := hinv.data _ (hok.inside hin) hok.calls_le output hkey
  refine ⟨hok.sn_eq, hok.calls_le, fun h => absurd rfl h, ?_⟩
  intro e he
  rcases mem_cons.mp he with rfl | he
  · exact sortGatherRecv_full hnodup hlen
  · exact hok.agrees e he

/-! ### Steps -/

theorem GatherInv.append (hinv : GatherInv g s) (hfew : (s.rank i).calls < 2 ^ 32) (pc : GatherPc) :
    GatherInv g (s.move i ((s.rank i).begun pc) (s.store.append
      (groupKey g.version (groupSn ((s.rank i).calls + 1)) .gatherAdd)
      (g.input i ((s.rank i).calls + 1))).1) := by
  refine hinv.move ((hinv.ranks i).begun hfew pc) (Nat.le_succ _) ?_
  intro k hpos hle value hvalue
  simp only [SeqMap.append] at hvalue
  rcases eq_or_ne k ((s.rank i).calls + 1) with rfl | hne
  · right
    rw [Function.update_self, some_inj] at hvalue
    -- the units that were there, and the one of rank `i` behind them
    have hold : ∃ l : List (Fin n), l.Nodup ∧ (∀ j ∈ l, (s.rank i).calls + 1 ≤ (s.rank j).calls) ∧
        (s.store (groupKey g.version (groupSn ((s.rank i).calls + 1)) .gatherAdd)).getD [] =
          gatherUnits g.rank (g.send · ((s.rank i).calls + 1)) l := by
      cases hkey : s.store (groupKey g.version (groupSn ((s.rank i).calls + 1)) .gatherAdd) with
      | none => exact ⟨[], nodup_nil, fun j hj => absurd hj not_mem_nil, rfl⟩
      | some old => exact hinv.data _ hpos hle old hkey
    obtain ⟨l, hnodup, hl, heq⟩ := hold
    have hnot : i ∉ l := fun hi => absurd (hl i hi) (Nat.not_succ_le_self _)
    refine ⟨l ++ [i], ?_, ?_, ?_⟩
    · exact nodup_append.mpr ⟨hnodup, nodup_singleton i, fun a ha b hb => by
        rw [mem_singleton] at hb
        rintro rfl
        exact hnot (hb ▸ ha)⟩
    · intro j hj
      rcases mem_append.mp hj with hj | hj
      · exact (hl j hj).trans (calls_le_move (Nat.le_succ _) j)
      · rw [mem_singleton.mp hj, move_rank_self]
        exact le_rfl
    · rw [← hvalue, heq, gatherUnits, gatherUnits, flatMap_append, flatMap_singleton]
      rfl
  · left
    rwa [Function.update_of_ne (gatherKey_ne hpos (Nat.succ_pos _) hle hfew hne)] at hvalue

theorem GatherInv.perform (hinv : GatherInv g s) (hfew : FewGathers s (.perform i))
    {s' : GatherState n} (h : g.perform s i = some s') : GatherInv g s' := by
  have hok := hinv.ranks i
  cases hpc : (s.rank i).pc with
  | append =>
    simp only [GatherGroup.perform, hpc, hok.sn_eq, nextSn_groupSn] at h
    rw [← some_inj.mp h]
    exact hinv.append (hfew hpc) _
  | removeAdd val | removeWait val =>
    simp only [GatherGroup.perform, hpc, some_inj] at h
    rw [← h]
    exact hinv.moveInside (hok.goto (by simp [hpc]) _) le_rfl fun _ _ => some_of_removed
  | set =>
    simp only [GatherGroup.perform, hpc, some_inj] at h
    rw [← h]
    refine hinv.moveInside (hok.goto (by simp [hpc]) _) le_rfl fun sn value hvalue => ?_
    rwa [set_fst, update_groupKey_of_role (by decide)] at hvalue
  | getWait =>
    cases hkey : s.store (groupKey g.version (s.rank i).allGatherGroupSn .gatherWait) with
    | none => simp [GatherGroup.perform, hpc, SeqMap.get, hkey] at h
    | some value =>
      simp only [GatherGroup.perform, hpc, get_of_some hkey, some_inj] at h
      rw [← h]
      split
      · exact hinv.moveInside (hok.goto (by simp [hpc]) _) le_rfl fun _ _ => id
      · exact hinv.moveInside (hok.goto (by simp [hpc]) _) le_rfl fun _ _ => id
  | getData =>
    cases hkey : s.store (groupKey g.version (s.rank i).allGatherGroupSn .gatherAdd) with
    | none => simp [GatherGroup.perform, hpc, SeqMap.get, hkey] at h
    | some output =>
      simp only [GatherGroup.perform, hpc, get_of_some hkey, some_inj] at h
      rw [← h]
      split
      case isTrue hlen =>
        exact hinv.moveInside (hinv.returned (by simp [hpc]) hkey hlen) le_rfl fun _ _ => id
      case isFalse =>
        exact hinv.moveInside (hok.goto (by simp [hpc]) _) le_rfl fun _ _ => id

theorem some_of_performed (hpc : (s.rank i).pc ≠ .append) (sn : ℕ) (value : Bytes)
    (h : g.performed s i (groupKey g.version sn .gatherAdd) = some value) :
    s.store (groupKey g.version sn .gatherAdd) = some value := by
  rw [GatherGroup.performed] at h
  cases hpc' : (s.rank i).pc with
  | append => exact absurd hpc' hpc
  | removeAdd val | removeWait val =>
    simp only [hpc'] at h
    exact some_of_removed h
  | set =>
    simp only [hpc'] at h
    rwa [set_fst, update_groupKey_of_role (by decide)] at h
  | getWait | getData =>
    simp only [hpc'] at h
    exact h

theorem GatherInv.fail (hinv : GatherInv g s) {lost : Bool} (hfew : FewGathers s (.fail i lost)) :
    GatherInv g (g.fail s i lost) := by
  have hok := hinv.ranks i
  have hinside : (s.rank i).pc ≠ .append → ∀ sn value,
      (if lost then g.performed s i else s.store) (groupKey g.version sn .gatherAdd) =
        some value → s.store (groupKey g.version sn .gatherAdd) = some value := by
    intro hpc sn value h
    cases lost with
    | true => exact some_of_performed hpc sn value h
    | false => exact h
  cases hpc : (s.rank i).pc with
  | append =>
    simp only [GatherGroup.fail, hpc]
    cases lost with
    | true =>
      simp only [GatherGroup.performed, hpc, hok.sn_eq, nextSn_groupSn, if_true]
      exact hinv.append (hfew hpc) .append
    | false => exact hinv.moveInside (hok.begun (hfew hpc) _) (Nat.le_succ _) fun _ _ => id
  | removeAdd val | removeWait val | set | getWait | getData =>
    have hne : (s.rank i).pc ≠ .append := by simp [hpc]
    simp only [GatherGroup.fail, hpc]
    exact hinv.moveInside (hok.goto hne _) le_rfl (hinside hne)

/-- The value of a call is the units of ranks that have begun it, each of them once, as long as
sequence numbers are not used again. -/
theorem gatherInv_next {store : SeqMap} (hinv : GatherInv g s) {e : GatherEvent n}
    (hfew : FewGathers s e) {s' : GatherState n} (h : (gatherSystem g store).next s e = some s') :
    GatherInv g s' := by
  cases e with
  | perform i => exact hinv.perform hfew h
  | fail i lost => exact some_inj.mp h ▸ hinv.fail hfew

/-- Every recorded buffer is the send buffers of the n ranks in that call, in ascending order of the
rank numbers. -/
theorem gatherAgrees_of_fewGathers (g : GatherGroup n) {store : SeqMap}
    (hstore : ∀ sn, store (groupKey g.version sn .gatherAdd) = none) {s : GatherState n}
    (hs : (gatherSystem g store).ReachableBy FewGathers s) : GatherAgrees g s := by
  have hstart : GatherInv g (gatherSystem g store).start := by
    refine ⟨fun i => ⟨rfl, Nat.zero_le _, fun h => absurd rfl h, ?_⟩, fun k _ _ value hvalue => ?_⟩
    · nofun
    · exact absurd ((hstore (groupSn k)).symm.trans hvalue) (by simp)
  have hinv : GatherInv g s := hs.invariant hstart fun hinv hfew hnext =>
    gatherInv_next hinv hfew hnext
  exact fun i => (hinv.ranks i).agrees

/-- Two ranks with one byte each, another one in the first call than later. -/
def bytePair : GatherGroup 2 where
  version := 0
  rank i := i
  sendSize := 1
  send i k := [UInt8.ofNat (10 * min k 2 + i)]
  recvBuf _ _ := [0, 0]
  rank_lt := by decide
  rank_injective := by decide
  send_length _ _ := rfl
  recvBuf_length _ _ := rfl
  fits := by decide

def barePair : GatherGroup 2 where
  version := 0
  rank i := i
  sendSize := 0
  send _ _ := []
  recvBuf _ _ := []
  rank_lt i := by omega
  rank_injective _ _ h := Fin.ext h
  send_length _ _ := rfl
  recvBuf_length _ _ := rfl
  fits := by decide

/-- Rank 1 comes first and rank 0 opens the call: both receive both bytes. -/
theorem gatherAgrees_bytePair :
    ∃ s : GatherState 2, (s.rank 0).received = [(1, some [10, 11])] ∧
      (s.rank 1).received = [(1, some [10, 11])] ∧ GatherAgrees bytePair s := by
  have hrun : (((gatherSystem bytePair fun _ => none).restrict FewGathers).run
      (gatherSystem bytePair fun _ => none).start
      [.perform 1, .perform 0, .perform 0, .perform 0, .perform 0, .perform 1, .perform 1]).map
      (fun s => ((s.rank 0).received, (s.rank 1).received)) =
      some ([(1, some [10, 11])], [(1, some [10, 11])]) := by
    decide +kernel
  obtain ⟨s, hs, hval⟩ := TransitionSystem.exists_of_run_restrict hrun
  rw [Prod.mk.injEq] at hval
  exact ⟨s, hval.1, hval.2, gatherAgrees_of_fewGathers bytePair (fun _ => rfl) hs⟩

end GroupEngine
