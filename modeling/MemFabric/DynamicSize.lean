/-
The dynamic-size key: group version and group size in one number.

`SplitSizeAndVersion` and `MergeSizeAndVersion` keep the size in the low thirty
bits of an `int64_t` and the version above it.

* `split_merge` — a version and a size below 2^30 come back.
* `inInt64_merge` — the packed number is in the range of the store's ADD.

Versions are `int32_t`; `wrap32` is the conversion to that type.
-/
import MemFabric.Decimal

namespace GroupEngine

/-- A value of type `int32_t`. -/
def InInt32 (z : ℤ) : Prop := -2 ^ 31 ≤ z ∧ z < 2 ^ 31 deriving Decidable

/-- Conversion to `int32_t`. -/
def wrap32 (z : ℤ) : ℤ := z.bmod (2 ^ 32)

theorem wrap32_of_inInt32 {z : ℤ} (h : InInt32 z) : wrap32 z = z := by
  obtain ⟨hlo, hhi⟩ := h
  rw [wrap32, Int.bmod_eq_of_le_mul_two] <;> omega

theorem inInt32_wrap32 (z : ℤ) : InInt32 (wrap32 z) := by
  rw [wrap32, InInt32]
  have hlo := Int.le_bmod (x := z) (m := 2 ^ 32) (by decide)
  have hhi := Int.bmod_lt (x := z) (m := 2 ^ 32) (by decide)
  omega

/-- `SplitSizeAndVersion`: the version, and the size. -/
def splitSizeAndVersion (val : ℤ) : ℤ × ℤ :=
  let unsignedVal := (val % 2 ^ 64).toNat
  (wrap32 (unsignedVal >>> 30 : ℕ), (unsignedVal &&& (2 ^ 30 - 1) : ℕ))

def mergeSizeAndVersion (ver size : ℤ) : ℤ :=
  let unsignedVer := (ver % 2 ^ 32).toNat
  let unsignedSize := (size % 2 ^ 32).toNat
  ((unsignedVer <<< 30) ||| unsignedSize : ℕ)

theorem splitSizeAndVersion_eq (val : ℤ) :
    splitSizeAndVersion val = (wrap32 (val % 2 ^ 64 / 2 ^ 30), val % 2 ^ 30) := by
  have hversion : (((val % 2 ^ 64).toNat / 2 ^ 30 : ℕ) : ℤ) = val % 2 ^ 64 / 2 ^ 30 := by omega
  have hsize : (((val % 2 ^ 64).toNat % 2 ^ 30 : ℕ) : ℤ) = val % 2 ^ 30 := by omega
  rw [splitSizeAndVersion, Nat.shiftRight_eq_div_pow, Nat.and_two_pow_sub_one_eq_mod, hversion,
    hsize]

variable {ver size : ℤ}

theorem mergeSizeAndVersion_eq (hsize : 0 ≤ size) (hlt : size < 2 ^ 30) :
    mergeSizeAndVersion ver size = ver % 2 ^ 32 * 2 ^ 30 + size := by
  rw [mergeSizeAndVersion, ← Nat.shiftLeft_add_eq_or_of_lt (by omega), Nat.shiftLeft_eq]
  omega

theorem inInt64_merge (hsize : 0 ≤ size) (hlt : size < 2 ^ 30) :
    Decimal.InInt64 (mergeSizeAndVersion ver size) := by
  rw [mergeSizeAndVersion_eq hsize hlt]
  constructor <;> omega

theorem wrap32_emod (z : ℤ) : wrap32 (z % 2 ^ 32) = wrap32 z := by
  exact Int.emod_bmod z (2 ^ 32)

theorem split_merge (hver : InInt32 ver) (hsize : 0 ≤ size) (hlt : size < 2 ^ 30) :
    splitSizeAndVersion (mergeSizeAndVersion ver size) = (ver, size) := by
  rw [splitSizeAndVersion_eq, mergeSizeAndVersion_eq hsize hlt]
  have hversion : (ver % 2 ^ 32 * 2 ^ 30 + size) % 2 ^ 64 / 2 ^ 30 = ver % 2 ^ 32 := by omega
  have hrest : (ver % 2 ^ 32 * 2 ^ 30 + size) % 2 ^ 30 = size := by omega
  rw [hversion, hrest, wrap32_emod, wrap32_of_inInt32 hver]

theorem split_size_bounds (val : ℤ) :
    0 ≤ (splitSizeAndVersion val).2 ∧ (splitSizeAndVersion val).2 < 2 ^ 30 := by
  rw [splitSizeAndVersion_eq]
  constructor <;> dsimp only <;> omega

theorem inInt32_split_version (val : ℤ) : InInt32 (splitSizeAndVersion val).1 := by
  rw [splitSizeAndVersion_eq]
  exact inInt32_wrap32 _

end GroupEngine
