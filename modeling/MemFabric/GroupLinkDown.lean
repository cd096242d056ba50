/-
Link-down convergence: `SmemNetGroupEngine::LinkDownUpdateMeta` run by the survivors of a group.

Each survivor runs the function once for every dead rank, in an order of its own; a step is the
`Add(0)` that reads the dynamic-size key or the `Cas` that replaces it.  A survivor that reads
another version than its own only moves its own copy on, and the result of the `Cas` is ignored.

`LinkDownInv` says that the key has been replaced `V` times and that a survivor is ahead of it
only while its `Cas` is under way.  From it, `linkDown_converges`: when all survivors are done,
the key and every survivor have come to the same version and size.
-/
import MemFabric.DynamicSize
import MemFabric.SequentialMap
import MemFabric.SharedState
import MemFabric.Transition

namespace GroupEngine

open ConfigStore Finset Function Option SharedState

variable {m k : ℕ}

/-- `SMEM_GROUP_DYNAMIC_SIZE_KEY`. -/
def dynamicSizeKey : Key := Bytes.ofString "DSIZE"

/-! ### The survivors and their steps -/

inductive LinkDownPc
  | add
  | cas (oldVal newVal : ℤ)
  deriving DecidableEq

/-- A survivor: `groupVersion_`, `option_.rankSize`, its next store operation, and
the dead ranks it has not yet processed. -/
structure Survivor (k : ℕ) where
  groupVersion : ℤ
  rankSize : ℕ
  pc : LinkDownPc
  remaining : Finset (Fin k)
  deriving DecidableEq

abbrev LinkDownState (m k : ℕ) := SharedState SeqMap (Survivor k) m

inductive LinkDownStep (m k : ℕ)
  | add (i : Fin m) (downRank : Fin k)
  | cas (i : Fin m)

/-- `--` on a `uint32_t`. -/
def uint32Pred (size : ℕ) : ℕ := (size + (2 ^ 32 - 1)) % 2 ^ 32

/-- `LinkDownUpdateMeta` after its `Add`.  The version is an `int32_t`, and its overflow is
undefined. -/
def Survivor.afterAdd (r : Survivor k) (downRank : Fin k) (tmpVal : ℤ) : Option (Survivor k) :=
  let version := (splitSizeAndVersion tmpVal).1
  let remaining := r.remaining.erase downRank
  let rankSize := uint32Pred r.rankSize
  if ¬ InInt32 (r.groupVersion + 1) then
    none
  else if version ≠ r.groupVersion then
    some ⟨r.groupVersion + 1, rankSize, .add, remaining⟩
  else
    let version := version + 1
    some ⟨version, rankSize, .cas tmpVal (mergeSizeAndVersion version rankSize), remaining⟩

def linkDownNext (s : LinkDownState m k) : LinkDownStep m k → Option (LinkDownState m k)
  | .add i downRank =>
    let r := s.rank i
    if r.pc = .add ∧ downRank ∈ r.remaining then
      match s.store.add dynamicSizeKey 0 with
      | (store, .number tmpVal) =>
        (r.afterAdd downRank tmpVal).map fun r => s.move i r store
      | _ => none
    else
      none
  | .cas i =>
    let r := s.rank i
    match r.pc with
    | .cas oldVal newVal =>
      some (s.move i { r with pc := .add }
        (s.store.cas dynamicSizeKey (Decimal.ofInt oldVal) (Decimal.ofInt newVal)).1)
    | .add => none

/-- All survivors hold the same version and size, and have all dead ranks to process. -/
def linkDownSystem (m k : ℕ) (store : SeqMap) (version : ℤ) (size : ℕ) :
    TransitionSystem (LinkDownState m k) (LinkDownStep m k) where
  start := ⟨store, fun _ => ⟨version, size, .add, univ⟩⟩
  next := linkDownNext

def LinkDownState.Finished (s : LinkDownState m k) : Prop :=
  ∀ i, (s.rank i).pc = .add ∧ (s.rank i).remaining = ∅
  deriving Decidable

/-! ### The invariant -/

def Survivor.processed (r : Survivor k) : ℕ := k - r.remaining.card

/-- A survivor of a group that started with `version` and `size`, when the key holds
`value` and has been replaced `V` times. -/
structure Survivor.Ok (version : ℤ) (size : ℕ) (value : ℤ) (V : ℕ) (r : Survivor k) : Prop where
  inInt32 : InInt32 r.groupVersion
  version_eq : r.groupVersion = version + r.processed
  size_eq : r.rankSize = size - r.processed
  behind : r.pc = .add → r.processed ≤ V
  ahead : ∀ oldVal newVal, r.pc = .cas oldVal newVal →
    0 < r.processed ∧ r.processed ≤ V + 1 ∧ (r.processed = V + 1 → oldVal = value) ∧
      (splitSizeAndVersion oldVal).1 = version + (r.processed - 1 : ℕ) ∧
      newVal = mergeSizeAndVersion r.groupVersion r.rankSize

/-- The key has been replaced `V` times. -/
structure LinkDownInv (version : ℤ) (size : ℕ) (s : LinkDownState m k) (value : ℤ) (V : ℕ) :
    Prop where
  le : V ≤ k
  inInt64 : Decimal.InInt64 value
  key : s.store dynamicSizeKey = some (Decimal.ofInt value)
  split : splitSizeAndVersion value = (version + V, (size : ℤ) - V)
  ranks : ∀ i, (s.rank i).Ok version size value V

section Steps

variable {version : ℤ} {size : ℕ} {s : LinkDownState m k} {value : ℤ} {V : ℕ} {r : Survivor k}

theorem Survivor.processed_le (r : Survivor k) : r.processed ≤ k := Nat.sub_le _ _

theorem uint32Pred_of_pos {a : ℕ} (hpos : 0 < a) (hlt : a < 2 ^ 32) : uint32Pred a = a - 1 := by
  rw [uint32Pred]
  omega

theorem processed_erase {d : Fin k} {r' : Survivor k} (hd : d ∈ r.remaining)
    (hr' : r'.remaining = r.remaining.erase d) : r'.processed = r.processed + 1 := by
  have hpos : 0 < r.remaining.card := card_pos.mpr ⟨d, hd⟩
  have hle : r.remaining.card ≤ k := (card_le_univ _).trans_eq (Fintype.card_fin k)
  rw [Survivor.processed, Survivor.processed, hr', card_erase_of_mem hd]
  omega

/-- A survivor that reads the key is at most as far as the key.  If it is as far, it
goes ahead with a `Cas` of the value it has read. -/
theorem Survivor.Ok.afterAdd (hok : r.Ok version size value V) (hpc : r.pc = .add) {d : Fin k}
    (hd : d ∈ r.remaining) (hV : V ≤ k) (hk : k < size) (hsize : size < 2 ^ 30)
    (hsplit : splitSizeAndVersion value = (version + V, (size : ℤ) - V)) {r' : Survivor k}
    (hafter : r.afterAdd d value = some r') : r'.Ok version size value V := by
  have hbehind := hok.behind hpc
  have hver := hok.version_eq
  have hpred : uint32Pred r.rankSize = size - (r.processed + 1) := by
    rw [hok.size_eq, uint32Pred_of_pos (by omega) (by omega)]
    omega
  simp only [Survivor.afterAdd, hsplit] at hafter
  obtain ⟨hrange, hafter⟩ := ite_none_left_eq_some.mp hafter
  rw [not_not] at hrange
  have hremaining : r'.remaining = r.remaining.erase d := by
    split at hafter <;> rw [← some.inj hafter]
  have hproc := processed_erase hd hremaining
  split at hafter
  · next hne =>
    obtain rfl := some.inj hafter
    refine ⟨hrange, ?_, ?_, fun _ => ?_, fun oldVal newVal h => by cases h⟩
    · rw [hproc, Nat.cast_succ, ← add_assoc, ← hver]
    · rw [hproc, hpred]
    · rw [hproc]
      refine lt_of_le_of_ne hbehind fun heq => hne ?_
      rw [hver, heq]
  next heq =>
  obtain rfl := some.inj hafter
  rw [not_not] at heq
  have hV : V = r.processed := by omega
  refine ⟨heq ▸ hrange, ?_, ?_, fun h => (by cases h), fun oldVal newVal h => ?_⟩
  · rw [hproc, hV, Nat.cast_succ, ← add_assoc]
  · rw [hproc, hpred]
  obtain ⟨rfl, rfl⟩ := LinkDownPc.cas.inj h
  refine ⟨by omega, by omega, fun _ => rfl, ?_, rfl⟩
  rw [hsplit, hproc, Nat.add_sub_cancel, hV]

theorem Survivor.Ok.keyReplaced (hok : r.Ok version size value V) (value' : ℤ) :
    r.Ok version size value' (V + 1) where
  inInt32 := hok.inInt32
  version_eq := hok.version_eq
  size_eq := hok.size_eq
  behind hpc := (hok.behind hpc).trans (Nat.le_succ V)
  ahead oldVal newVal hpc := by
    obtain ⟨hpos, hle, -, hold, hnew⟩ := hok.ahead oldVal newVal hpc
    exact ⟨hpos, hle.trans (Nat.le_succ _), fun h => by omega, hold, hnew⟩

theorem LinkDownInv.add (hinv : LinkDownInv version size s value V) (hk : k < size)
    (hsize : size < 2 ^ 30) {i : Fin m} {d : Fin k} {s' : LinkDownState m k}
    (h : linkDownNext s (.add i d) = some s') : LinkDownInv version size s' value V := by
  obtain ⟨⟨hpc, hd⟩, h⟩ := ite_none_right_eq_some.mp h
  rw [SeqMap.add_of_ofInt hinv.key hinv.inInt64, add_zero] at h
  obtain ⟨r', hafter, rfl⟩ := map_eq_some_iff.mp h
  refine ⟨hinv.le, hinv.inInt64, by rw [move_store, update_self], hinv.split, ?_⟩
  refine forall_move (p := fun _ (r : Survivor k) => r.Ok version size value V) ?_
    fun j _ => hinv.ranks j
  exact (hinv.ranks i).afterAdd hpc hd hinv.le hk hsize hinv.split hafter

theorem LinkDownInv.cas (hinv : LinkDownInv version size s value V) (hk : k < size)
    (hsize : size < 2 ^ 30) {i : Fin m} {s' : LinkDownState m k}
    (h : linkDownNext s (.cas i) = some s') :
    ∃ value' V', LinkDownInv version size s' value' V' := by
  have hok := hinv.ranks i
  cases hpc : (s.rank i).pc with
  | add => simp [linkDownNext, hpc] at h
  | cas oldVal newVal =>
    obtain ⟨hpos, hle, hcur, hold, hnew⟩ := hok.ahead oldVal newVal hpc
    have hproc := (s.rank i).processed_le
    have hVle := hinv.le
    simp only [linkDownNext, hpc, SeqMap.cas, hinv.key, getD_some] at h
    rw [← some_inj.mp h]
    by_cases heq : oldVal = value
    · -- the survivor was ahead by one, and the key follows
      have hV : (s.rank i).processed = V + 1 := by
        rw [heq, hinv.split] at hold
        omega
      have hrank : (((s.rank i).rankSize : ℕ) : ℤ) = (size : ℤ) - (V + 1 : ℕ) := by
        rw [hok.size_eq, hV]
        omega
      have hsplit : splitSizeAndVersion newVal =
          (version + (V + 1 : ℕ), (size : ℤ) - (V + 1 : ℕ)) := by
        rw [hnew, hrank, split_merge hok.inInt32 (by omega) (by omega), hok.version_eq, hV]
      refine ⟨newVal, V + 1, by omega, ?_, ?_, hsplit, ?_⟩
      · rw [hnew, hrank]
        exact inInt64_merge (by omega) (by omega)
      · rw [if_pos (by rw [heq]), move_store, update_self]
      refine forall_move (p := fun _ (r : Survivor k) => r.Ok version size newVal (V + 1)) ?_
        fun j _ => ?_
      · exact ⟨hok.inInt32, hok.version_eq, hok.size_eq, fun _ => hV.le, fun _ _ h => by cases h⟩
      · exact (hinv.ranks j).keyReplaced newVal
    -- the key has moved on since the survivor read it
    have hne : Decimal.ofInt value ≠ Decimal.ofInt oldVal := fun htext =>
      heq (Decimal.ofInt_injective htext).symm
    have hbehind : (s.rank i).processed ≤ V := by
      omega
    rw [if_neg hne]
    refine ⟨value, V, hinv.le, hinv.inInt64, hinv.key, hinv.split, ?_⟩
    refine forall_move (p := fun _ (r : Survivor k) => r.Ok version size value V) ?_
      fun j _ => hinv.ranks j
    exact ⟨hok.inInt32, hok.version_eq, hok.size_eq, fun _ => hbehind, fun _ _ h => by cases h⟩

end Steps

/-! ### Runs -/

theorem linkDownInv_of_reachable {version : ℤ} {size : ℕ} {value : ℤ}
    (hvalue : Decimal.InInt64 value) (hsplit : splitSizeAndVersion value = (version, (size : ℤ)))
    (hk : k < size) {store : SeqMap} (hstore : store dynamicSizeKey = some (Decimal.ofInt value))
    {s : LinkDownState m k} (hs : (linkDownSystem m k store version size).Reachable s) :
    ∃ value V, LinkDownInv version size s value V := by
  have hsize : size < 2 ^ 30 := by
    have hbound := (split_size_bounds value).2
    rw [hsplit] at hbound
    exact Int.ofNat_lt.mp hbound
  have hver : InInt32 version := by
    have hfst : (splitSizeAndVersion value).1 = version := by rw [hsplit]
    rw [← hfst]
    exact inInt32_split_version value
  have hproc : ∀ r : Survivor k, r.remaining = univ → r.processed = 0 := by
    intro r hr
    rw [Survivor.processed, hr, card_univ, Fintype.card_fin, Nat.sub_self]
  have hstart : LinkDownInv version size (linkDownSystem m k store version size).start value 0 := by
    refine ⟨Nat.zero_le k, hvalue, hstore, ?_, fun i => ⟨hver, ?_, ?_, fun _ => ?_, ?_⟩⟩
    · rw [hsplit, Nat.cast_zero, add_zero, sub_zero]
    · rw [hproc _ rfl, Nat.cast_zero, add_zero]
      rfl
    · rw [hproc _ rfl]
      rfl
    · rw [hproc _ rfl]
    · intro oldVal newVal h
      cases h
  refine hs.invariant (I := fun s => ∃ value V, LinkDownInv version size s value V)
    ⟨value, 0, hstart⟩ ?_
  rintro s s' a ⟨value, V, hinv⟩ - hnext
  cases a with
  | add i d => exact ⟨value, V, hinv.add hk hsize hnext⟩
  | cas i => exact hinv.cas hk hsize hnext

/-- When all survivors have processed the `k` dead ranks, the key and each of them
hold version `version + k` and size `size - k`. -/
theorem linkDown_converges (hm : 0 < m) {version : ℤ} {size : ℕ} {value : ℤ}
    (hvalue : Decimal.InInt64 value) (hsplit : splitSizeAndVersion value = (version, (size : ℤ)))
    (hk : k < size) {store : SeqMap} (hstore : store dynamicSizeKey = some (Decimal.ofInt value))
    {s : LinkDownState m k} (hs : (linkDownSystem m k store version size).Reachable s)
    (hfinished : s.Finished) :
    (∃ value', s.store dynamicSizeKey = some (Decimal.ofInt value') ∧
        splitSizeAndVersion value' = (version + k, ((size - k : ℕ) : ℤ))) ∧
      ∀ i, (s.rank i).groupVersion = version + k ∧ (s.rank i).rankSize = size - k := by
  obtain ⟨value', V, hinv⟩ := linkDownInv_of_reachable hvalue hsplit hk hstore hs
  have hproc : ∀ i, (s.rank i).processed = k := by
    intro i
    rw [Survivor.processed, (hfinished i).2, card_empty, Nat.sub_zero]
  have hV : V = k := by
    have hle := hinv.le
    have hbehind := (hinv.ranks ⟨0, hm⟩).behind (hfinished ⟨0, hm⟩).1
    rw [hproc] at hbehind
    omega
  refine ⟨⟨value', hinv.key, ?_⟩, fun i => ⟨?_, ?_⟩⟩
  · rw [hinv.split, hV]
    congr 1
    omega
  · rw [(hinv.ranks i).version_eq, hproc]
  · rw [(hinv.ranks i).size_eq, hproc]

/-- Two survivors of a group of four, and two dead ranks: rank 0 replaces the key twice
while the first `Cas` of rank 1 is under way. -/
theorem linkDown_converges_two :
    ∃ s : LinkDownState 2 2, s.Finished ∧
      (∃ value', s.store dynamicSizeKey = some (Decimal.ofInt value') ∧
        splitSizeAndVersion value' = ((5 : ℤ) + (2 : ℕ), ((4 - 2 : ℕ) : ℤ))) ∧
      ∀ i, (s.rank i).groupVersion = 5 + (2 : ℕ) ∧ (s.rank i).rankSize = 4 - 2 := by
  have hrun : ((linkDownSystem 2 2 (update (fun _ => none) dynamicSizeKey
      (some (Decimal.ofInt (5 * 2 ^ 30 + 4)))) 5 4).run (linkDownSystem 2 2 (update
      (fun _ => none) dynamicSizeKey (some (Decimal.ofInt (5 * 2 ^ 30 + 4)))) 5 4).start
      [.add 1 0, .add 0 1, .cas 0, .add 0 0, .cas 0, .cas 1, .add 1 1]).map
      (fun s => decide s.Finished) = some true := by
    decide +kernel
  obtain ⟨s, hs, hval⟩ := TransitionSystem.exists_of_run hrun
  have hfinished : s.Finished := of_decide_eq_true hval
  exact ⟨s, hfinished, linkDown_converges (by decide) (by decide) (by decide +kernel) (by decide)
    (update_self ..) hs hfinished⟩

end GroupEngine
