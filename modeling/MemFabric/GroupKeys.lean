/-
The keys of the unkeyed group operations.

`GroupBarrier` and `GroupAllGather` name the keys of a call after the group
version, the sequence number of the call and a suffix for the key's role.  The
sequence numbers are 32-bit counters, so `groupSn k` is the number the `k`-th
call uses.  `groupKey_injective` says that keys of one version are equal only
for one sequence number and one role.
-/
import MemFabric.SequentialMap

namespace GroupEngine

open ConfigStore

/-- `REMOVE_INTERVAL`: a call deletes the keys of the call two before it. -/
def removeInterval : ℕ := 2

/-- `SMEM_GROUP_SET_STR`. -/
def groupSetStr : Bytes := Bytes.ofString "ok"

/-- `barrierGroupSn_` and `allGatherGroupSn_` in the `k`-th call: both are
`uint32_t` and incremented before use. -/
def groupSn (k : ℕ) : ℕ := k % 2 ^ 32

/-- `++sn` on a `uint32_t`. -/
def nextSn (sn : ℕ) : ℕ := (sn + 1) % 2 ^ 32

theorem nextSn_groupSn (k : ℕ) : nextSn (groupSn k) = groupSn (k + 1) := by
  simp only [nextSn, groupSn]
  omega

/-- The four roles of a key. -/
inductive KeyRole
  | barrierAdd
  | barrierWait
  | gatherAdd
  | gatherWait
  deriving DecidableEq

def KeyRole.suffix : KeyRole → Bytes
  | .barrierAdd => Bytes.ofString "_BA"
  | .barrierWait => Bytes.ofString "_BW"
  | .gatherAdd => Bytes.ofString "_GA"
  | .gatherWait => Bytes.ofString "_GW"

/-- `std::to_string(groupVersion_) + "_" + std::to_string(sn) + suffix`. -/
def groupKey (version : ℤ) (sn : ℕ) (role : KeyRole) : Key :=
  Decimal.ofInt version ++ Bytes.ofString "_" ++ Decimal.ofNat sn ++ role.suffix

theorem KeyRole.suffix_length (role : KeyRole) : role.suffix.length = 3 := by
  cases role <;> rfl

theorem KeyRole.suffix_injective : Function.Injective KeyRole.suffix := by
  intro a b
  cases a <;> cases b <;> decide

variable {version : ℤ} {role role' : KeyRole}

theorem groupKey_injective {sn sn' : ℕ}
    (h : groupKey version sn role = groupKey version sn' role') : sn = sn' ∧ role = role' := by
  have hlen : role.suffix.length = role'.suffix.length := by
    rw [KeyRole.suffix_length, KeyRole.suffix_length]
  obtain ⟨hhead, hsuffix⟩ := List.append_inj' h hlen
  exact ⟨Decimal.ofNat_injective (List.append_cancel_left hhead), KeyRole.suffix_injective hsuffix⟩

theorem groupKey_ne_of_sn {sn sn' : ℕ} (h : sn ≠ sn') (role role' : KeyRole) :
    groupKey version sn role ≠ groupKey version sn' role' := fun he =>
  h (groupKey_injective he).1

theorem groupKey_ne_of_role (h : role ≠ role') (sn sn' : ℕ) :
    groupKey version sn role ≠ groupKey version sn' role' := fun he =>
  h (groupKey_injective he).2

theorem update_groupKey_of_role {m : SeqMap} {value : Option Bytes} (h : role ≠ role')
    (sn sn' : ℕ) :
    Function.update m (groupKey version sn' role') value (groupKey version sn role) =
      m (groupKey version sn role) :=
  Function.update_of_ne (groupKey_ne_of_role h sn sn') ..

end GroupEngine
