/-
Collectives of a subgroup: `GroupBarrier(key, ..)` and `GroupAllGather(key, ..)`.

The keyed collectives run the protocol of the unkeyed ones under store keys that start with a
text of the caller instead of the group version.  A `Collective` is one round of any of the
four, and `requests` are the store requests of a rank in it.
-/
import MemFabric.GroupBarrier
import MemFabric.StoreRefinement

namespace GroupEngine

open List

open ConfigStore SeqMap

/-! ### Rounds and their keys -/

def userGroupKeyLenMax : ℕ := 64

/-- A user key that a keyed collective accepts: a C string, so without NUL, that
is not too long. -/
structure UserKey where
  text : Bytes
  noNul : (0 : UInt8) ∉ text
  short : text.length < userGroupKeyLenMax

/-- The checks at the beginning of a keyed collective.  `key` is the memory at the pointer,
if it is not null: the text ends at the first NUL.  `optionSize` is `option_.rankSize`. -/
def checkUserKey (key : Option Bytes) (optionSize rankSize rankId : ℕ) : Option UserKey :=
  match key with
  | none => none
  | some memory =>
    if h : (memory.takeWhile (· ≠ 0)).length < userGroupKeyLenMax then
      if rankSize ≤ optionSize ∧ rankId < rankSize then
        some ⟨memory.takeWhile (· ≠ 0), fun hmem => by simpa using mem_takeWhile_imp hmem, h⟩
      else none
    else none

/-- Whose collective it is: of all ranks of the group, in some version of it, or of
those that use a key. -/
inductive Scope
  | group (version : ℤ)
  | user (userKey : UserKey)

def Scope.text : Scope → Bytes
  | .group version => Decimal.ofInt version
  | .user userKey => userKey.text

inductive CollectiveOp
  | barrier
  | allGather
  deriving DecidableEq

/-- One round of a collective; `sn` is the counter of the scope after its increment. -/
structure Collective where
  scope : Scope
  op : CollectiveOp
  sn : ℕ

/-- `text + "_" + std::to_string(sn) + suffix`. -/
def collectiveKey (text : Bytes) (sn : ℕ) (role : KeyRole) : Key :=
  text ++ Bytes.ofString "_" ++ Decimal.ofNat sn ++ role.suffix

def CollectiveOp.addRole : CollectiveOp → KeyRole
  | .barrier => .barrierAdd
  | .allGather => .gatherAdd

def CollectiveOp.waitRole : CollectiveOp → KeyRole
  | .barrier => .barrierWait
  | .allGather => .gatherWait

namespace Collective

def addKey (c : Collective) : Key := collectiveKey c.scope.text c.sn c.op.addRole

def waitKey (c : Collective) : Key := collectiveKey c.scope.text c.sn c.op.waitRole

/-- The keys through which the ranks of a round count and wake each other. -/
def keys (c : Collective) : List Key := [c.addKey, c.waitKey]

/-- The keys that the first rank of a round removes.  A barrier removes those of its own
round two before.  An all-gather, keyed or not, removes those of the unkeyed all-gather,
by the group's version and counter. -/
def removedKeys (version : ℤ) (allGatherGroupSn : ℕ) (c : Collective) : List Key :=
  match c.op with
  | .barrier =>
    if removeInterval < c.sn then
      [collectiveKey c.scope.text (c.sn - removeInterval) .barrierAdd,
        collectiveKey c.scope.text (c.sn - removeInterval) .barrierWait]
    else []
  | .allGather =>
    if removeInterval < allGatherGroupSn then
      [groupKey version (allGatherGroupSn - removeInterval) .gatherAdd,
        groupKey version (allGatherGroupSn - removeInterval) .gatherWait]
    else []

def contribute (c : Collective) (input : Bytes) : StoreOp :=
  match c.op with
  | .barrier => .add c.addKey 1
  | .allGather => .append c.addKey input

/-- What a contribution adds to the value that its reply reports. -/
def unit (c : Collective) (input : Bytes) : ℕ :=
  match c.op with
  | .barrier => 1
  | .allGather => input.length

/-- The requests of a rank that takes part in the round among `size` ranks; `val` is the
reply to its contribution. -/
def requests (version : ℤ) (allGatherGroupSn size timeoutMs : ℕ) (c : Collective)
    (input : Bytes) (val : ℤ) : List StoreOp :=
  [c.contribute input] ++ (if val = c.unit input then
      (c.removedKeys version allGatherGroupSn).map StoreOp.remove else []) ++
    (if val = c.unit input * size then [.set c.waitKey groupSetStr] else []) ++
    [.get c.waitKey timeoutMs] ++
    (if c.op = .allGather then [.get c.addKey timeoutMs] else [])

end Collective

/-! ### A key gives back its parts -/

theorem underscore_not_mem_ofNat (n : ℕ) : (95 : UInt8) ∉ Decimal.ofNat n := fun h =>
  absurd (Decimal.isDigit_of_mem_ofNat h) (by decide)

/-- A key gives back its text, its round number and its role, whatever the text of the caller holds.
-/
theorem collectiveKey_injective {text text' : Bytes} {sn sn' : ℕ} {role role' : KeyRole}
    (h : collectiveKey text sn role = collectiveKey text' sn' role') :
    text = text' ∧ sn = sn' ∧ role = role' := by
  have hlen : role.suffix.length = role'.suffix.length := by
    rw [KeyRole.suffix_length, KeyRole.suffix_length]
  obtain ⟨hhead, hsuffix⟩ := append_inj' h hlen
  obtain ⟨htext, hdigits⟩ := Bytes.append_cons_inj hhead
    (underscore_not_mem_ofNat sn) (underscore_not_mem_ofNat sn')
  exact ⟨htext, Decimal.ofNat_injective hdigits, KeyRole.suffix_injective hsuffix⟩

variable {key : Key}

namespace Collective

theorem mem_keys {c : Collective} :
    key ∈ c.keys ↔ ∃ role ∈ [c.op.addRole, c.op.waitRole],
      key = collectiveKey c.scope.text c.sn role := by
  simp [keys, addKey, waitKey]

theorem eq_of_mem_keys {c d : Collective} (hc : key ∈ c.keys) (hd : key ∈ d.keys) :
    c.scope.text = d.scope.text ∧ c.sn = d.sn ∧ c.op = d.op := by
  obtain ⟨role, hrole, rfl⟩ := mem_keys.mp hc
  obtain ⟨role', hrole', heq⟩ := mem_keys.mp hd
  obtain ⟨htext, hsn, rfl⟩ := collectiveKey_injective heq
  refine ⟨htext, hsn, ?_⟩
  -- The four roles are different, so one determines the operation.
  revert hrole hrole'
  cases c.op <;> cases d.op <;> cases role <;> decide

end Collective

/-! ### The key spaces -/

/-- `d` is another collective than `c`, which uses `userKey`: an unkeyed one of the group,
or a keyed one with another user key or of another round. -/
def OtherCollective (version : ℤ) (userKey : UserKey) (c d : Collective) : Prop :=
  d.scope = .group version ∨
    ∃ other, d.scope = .user other ∧ (other.text ≠ userKey.text ∨ d.sn ≠ c.sn)

/-- The keyed collectives of `userKey` have their keys for themselves. -/
def KeysSeparated (version : ℤ) (userKey : UserKey) : Prop :=
  ∀ c d : Collective, c.scope = .user userKey → OtherCollective version userKey c d →
    c.keys.Disjoint d.keys

theorem not_keysSeparated {version : ℤ} {userKey : UserKey}
    (h : userKey.text = Decimal.ofInt version) : ¬ KeysSeparated version userKey := by
  intro hsep
  refine hsep ⟨.user userKey, .barrier, 1⟩ ⟨.group version, .barrier, 1⟩ rfl (.inl rfl)
    (mem_cons_self ..) ?_
  rw [Collective.keys, Collective.addKey, Collective.addKey, Scope.text, Scope.text, h]
  exact mem_cons_self ..

/-- The keys of a user key are apart from all others of the group unless the user key reads like the
group version. -/
theorem keysSeparated_iff (version : ℤ) (userKey : UserKey) :
    KeysSeparated version userKey ↔ userKey.text ≠ Decimal.ofInt version := by
  refine ⟨fun hsep htext => not_keysSeparated htext hsep, ?_⟩
  intro hne c d hscope hother key hc hd
  obtain ⟨htext, hsn, -⟩ := Collective.eq_of_mem_keys hc hd
  rw [hscope] at htext
  rcases hother with hgroup | ⟨other, huser, hdiff⟩
  · rw [hgroup] at htext
    exact hne htext
  rw [huser] at htext
  rcases hdiff with hother | hround
  · exact hother htext.symm
  · exact hround hsn.symm

/-- The keys of a caller who names a subgroup "sub" are apart. -/
theorem keysSeparated_sub :
    KeysSeparated 0 ⟨Bytes.ofString "sub", by decide, by decide⟩ :=
  (keysSeparated_iff 0 ⟨Bytes.ofString "sub", by decide, by decide⟩).mpr (by decide)

/-- Rank 1 alone runs a keyed barrier of one rank with the user key "0" and returns.  The
group of two ranks has version 0: now rank 0 passes its first unkeyed barrier, which
rank 1 has not come to. -/
theorem user_key_opens_group_barrier :
    ∃ userKey, checkUserKey (some (Bytes.ofString "0")) 2 1 0 = some userKey ∧
      ¬ KeysSeparated 0 userKey ∧
      ∃ s : BarrierState 2, (barrierSystem 2 0 (SeqMap.applyAll (fun _ => none)
          (Collective.requests 0 0 1 0 ⟨.user userKey, .barrier, 1⟩ [] 1)).1).run
          (barrierSystem 2 0 (SeqMap.applyAll (fun _ => none)
            (Collective.requests 0 0 1 0 ⟨.user userKey, .barrier, 1⟩ [] 1)).1).start
          [0, 0, 0] = some s ∧ ¬ NoEarlyReturn s := by
  refine ⟨⟨Bytes.ofString "0", by decide, by decide⟩, rfl, not_keysSeparated rfl, ?_⟩
  refine TransitionSystem.exists_run (fun s => ((s.rank 0).returns, (s.rank 1).adds)) (1, 0) ?_
    fun s _ heq hearly => ?_
  · decide +kernel
  obtain ⟨hret, hadds⟩ := Prod.mk.inj heq
  have hle := hearly 0 1
  omega

/-! ### What a rank does to the keys of others -/

namespace Collective

variable {version : ℤ} {allGatherGroupSn timeoutMs : ℕ} {c : Collective} {userKey : UserKey}

theorem key_of_mem_requests {size : ℕ} {input : Bytes} {val : ℤ} {op : StoreOp}
    (h : op ∈ c.requests version allGatherGroupSn size timeoutMs input val) :
    op.key ∈ c.keys ∨ ∃ key ∈ c.removedKeys version allGatherGroupSn, op = .remove key := by
  have hcontribute : (c.contribute input).key = c.addKey := by
    rw [contribute]
    cases c.op <;> rfl
  simp only [requests, mem_append, mem_ite_nil_right, mem_singleton, mem_map] at h
  rcases h with (((rfl | ⟨-, key, hkey, rfl⟩) | ⟨-, rfl⟩) | rfl) | ⟨-, rfl⟩
  · exact .inl (hcontribute ▸ mem_cons_self ..)
  · exact .inr ⟨key, hkey, rfl⟩
  iterate 3 exact .inl (by simp [StoreOp.key, keys])

/-- A keyed all-gather removes the keys of the unkeyed one in place of its own. -/
theorem keyedGather_keys_stay (hne : userKey.text ≠ Decimal.ofInt version)
    (hscope : c.scope = .user userKey) (hop : c.op = .allGather) (hkey : key ∈ c.keys)
    (d : Collective) (allGatherGroupSn : ℕ) : key ∉ d.removedKeys version allGatherGroupSn := by
  intro hmem
  obtain ⟨role, hrole, rfl⟩ := mem_keys.mp hkey
  rw [hop] at hrole
  rw [hscope, removedKeys] at hmem
  split at hmem
  · -- A barrier removes keys of barriers.
    have hbar : role = .barrierAdd ∨ role = .barrierWait := by
      rw [mem_ite_nil_right] at hmem
      rcases mem_pair.mp hmem.2 with heq | heq
      · exact .inl (collectiveKey_injective heq).2.2
      · exact .inr (collectiveKey_injective heq).2.2
    revert hrole
    rcases hbar with rfl | rfl <;> decide
  -- An all-gather removes keys that start with the version.
  rw [mem_ite_nil_right] at hmem
  rcases mem_pair.mp hmem.2 with heq | heq
  · exact hne (collectiveKey_injective heq).1
  · exact hne (collectiveKey_injective heq).1

/-! ### What keyed all-gathers leave behind -/

/-- Round `sn` of the all-gather with a user key. -/
def keyedGather (userKey : UserKey) (sn : ℕ) : Collective := ⟨.user userKey, .allGather, sn⟩

/-- Requests of ranks in collectives, in any order, when `k` rounds of the keyed all-gather are
finished. -/
structure Gathered (version : ℤ) (userKey : UserKey) (k : ℕ) (ops : List StoreOp) : Prop where
  requests : ∀ op ∈ ops, ∃ (c : Collective) (allGatherGroupSn size timeoutMs : ℕ) (input : Bytes)
    (val : ℤ), op ∈ c.requests version allGatherGroupSn size timeoutMs input val
  finished : ∀ sn ∈ Set.Icc 1 k, ∃ input, .append (keyedGather userKey sn).addKey input ∈ ops
  rounds : ∀ op ∈ ops, ∀ sn, op.key ∈ (keyedGather userKey sn).keys → sn ∈ Set.Icc 1 k

def remaining (m : SeqMap) (userKey : UserKey) : Set ℕ :=
  {sn | ∃ key ∈ (keyedGather userKey sn).keys, m key ≠ none}

theorem apply_ne_none {m : SeqMap} {op : StoreOp} (h : m key ≠ none) (hop : op ≠ .remove key) :
    (m.apply op).1 key ≠ none := by
  by_cases hkey : key = op.key
  on_goal 2 => rwa [m.apply_of_ne op hkey]
  subst hkey
  cases op with
  | remove key => exact absurd rfl hop
  | get key _ =>
    rw [SeqMap.apply, SeqMap.get]
    split <;> exact h
  | add key increment =>
    rw [apply, add]
    split
    · simp [StoreOp.key]
    · split <;> simp_all [StoreOp.key]
  | cas key expect value =>
    simp only [apply, cas]
    split <;> simp_all [StoreOp.key]
  | set key value | append key value | write key offset data =>
    simp [SeqMap.apply, SeqMap.set, SeqMap.append, SeqMap.write, StoreOp.key]

variable {k : ℕ} {ops : List StoreOp} {m : SeqMap} {key : Key}

theorem applyAll_present (hops : ∀ op ∈ ops, op ≠ .remove key)
    (h : m key ≠ none ∨ ∃ value, .append key value ∈ ops) : (m.applyAll ops).1 key ≠ none := by
  induction ops generalizing m with
  | nil => exact h.resolve_right (by simp)
  | cons op ops ih =>
    obtain ⟨hop, hops⟩ := forall_mem_cons.mp hops
    refine ih hops ?_
    rcases h with h | ⟨value, hvalue⟩
    · exact .inl (apply_ne_none h hop)
    rcases mem_cons.mp hvalue with rfl | hvalue
    · exact .inl (by simp [apply, append])
    · exact .inr ⟨value, hvalue⟩

theorem applyAll_of_ne (hops : ∀ op ∈ ops, key ≠ op.key) : (m.applyAll ops).1 key = m key := by
  induction ops generalizing m with
  | nil => rfl
  | cons op ops ih =>
    obtain ⟨hop, hops⟩ := forall_mem_cons.mp hops
    exact (ih hops).trans (m.apply_of_ne op hop)

section

variable (hne : userKey.text ≠ Decimal.ofInt version) (hops : Gathered version userKey k ops)
include hne hops

theorem ne_remove_of_gathered {sn : ℕ} (hkey : key ∈ (keyedGather userKey sn).keys) :
    ∀ op ∈ ops, op ≠ .remove key := by
  rintro op hop rfl
  obtain ⟨c, allGatherGroupSn, size, timeoutMs, input, val, hmem⟩ := hops.requests _ hop
  have hcontribute : StoreOp.remove key ≠ c.contribute input := by
    rw [contribute]
    split <;> nofun
  simp only [requests, mem_append, mem_ite_nil_right, mem_singleton, mem_map] at hmem
  rcases hmem with (((heq | ⟨-, key', hkey', heq⟩) | ⟨-, heq⟩) | heq) | ⟨-, heq⟩
  · exact hcontribute heq
  · obtain rfl := StoreOp.remove.inj heq
    exact keyedGather_keys_stay hne rfl rfl hkey c _ hkey'
  all_goals cases heq

theorem remaining_eq :
    remaining (SeqMap.applyAll (fun _ => none) ops).1 userKey = Set.Icc 1 k := by
  ext sn
  constructor
  · rintro ⟨key, hkey, hpres⟩
    -- a key that no request was about is absent
    by_contra hsn
    refine hpres (applyAll_of_ne fun op hop heq => hsn (hops.rounds op hop sn (heq ▸ hkey)))
  intro hsn
  have hkey : (keyedGather userKey sn).addKey ∈ (keyedGather userKey sn).keys := mem_cons_self
  exact ⟨_, hkey, applyAll_present (ne_remove_of_gathered hne hops hkey)
    (.inr (hops.finished sn hsn))⟩

/-- A keyed all-gather keeps to its own keys until the group has made more than two unkeyed ones,
and two rounds at most are left behind until there are more. -/
theorem keyed_cleanup_iff (allGatherGroupSn : ℕ) :
    ((∀ key ∈ (keyedGather userKey k).removedKeys version allGatherGroupSn,
        key ∈ (keyedGather userKey (k - removeInterval)).keys) ↔
      allGatherGroupSn ≤ removeInterval) ∧
    ((remaining (SeqMap.applyAll (fun _ => none) ops).1 userKey).ncard ≤ removeInterval ↔
      k ≤ removeInterval) := by
  constructor
  · constructor
    · intro hown
      by_contra hlt
      have hmem : groupKey version (allGatherGroupSn - removeInterval) .gatherAdd ∈
          (keyedGather userKey k).removedKeys version allGatherGroupSn := by
        simp [removedKeys, keyedGather, not_le.mp hlt]
      obtain ⟨role, -, heq⟩ := mem_keys.mp (hown _ hmem)
      exact hne (collectiveKey_injective heq).1.symm
    · intro hle
      simp [removedKeys, keyedGather, not_lt.mpr hle]
  · rw [remaining_eq hne hops, ← Finset.coe_Icc, Set.ncard_coe_finset, Nat.card_Icc,
      Nat.add_sub_cancel]

end

def subKey : UserKey := ⟨Bytes.ofString "sub", by decide, by decide⟩

/-- The requests of a subgroup of one rank in `k` rounds of its all-gather. -/
def subRounds (allGatherGroupSn k : ℕ) : List StoreOp :=
  (range k).flatMap fun i => (keyedGather subKey (i + 1)).requests 0 allGatherGroupSn 1 0 [7] 1

theorem keyed_cleanup_one_round :
    (remaining (SeqMap.applyAll (fun _ => none) (subRounds 0 1)).1 subKey).ncard ≤
      removeInterval := by
  have hround : subRounds 0 1 = (keyedGather subKey 1).requests 0 0 1 0 [7] 1 := append_nil _
  have hgath : Gathered 0 subKey 1 (subRounds 0 1) := by
    refine ⟨fun op hop => ⟨_, _, _, _, _, _, hround ▸ hop⟩, fun sn hsn => ?_, ?_⟩
    · obtain rfl : sn = 1 := le_antisymm hsn.2 hsn.1
      exact ⟨[7], by decide +kernel⟩
    intro op hop sn hkey
    rcases key_of_mem_requests (hround ▸ hop) with hmem | ⟨_, hnone, -⟩
    · obtain ⟨-, rfl, -⟩ := eq_of_mem_keys hkey hmem
      exact ⟨le_rfl, le_rfl⟩
    · cases hnone
  exact (keyed_cleanup_iff (by decide) hgath 0).2.mpr (by decide)

/-- Nothing of three rounds is removed, but the keys of an unkeyed all-gather are. -/
theorem three_rounds_remain :
    (∀ sn ∈ [1, 2, 3], ∀ key ∈ (keyedGather subKey sn).keys,
      (SeqMap.applyAll (fun _ => none) (subRounds 3 3)).1 key ≠ none) ∧
    .remove (groupKey 0 1 .gatherAdd) ∈ subRounds 3 3 := by
  decide +kernel

end Collective

end GroupEngine
