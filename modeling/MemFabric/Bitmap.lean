/-
Bitmaps in byte strings.

Bit `i` of a byte string is bit `i % 8` of byte `i / 8`.

* `bit_flip` — flipping a bit within the string changes that bit only.
* `bit_replicate_zero` — no bit of a string of zeros is set.
-/
import MemFabric.Bytes

namespace Bytes

/-- Bit `i`, where bits outside the string are clear. -/
def bit (v : Bytes) (i : ℕ) : Bool := (v.getD (i / 8) 0).toNat.testBit (i % 8)

/-- `value[i / 8] ^= 1U << (i % 8)`. -/
def flip (v : Bytes) (i : ℕ) : Bytes := v.modify (i / 8) (· ^^^ UInt8.ofNat (2 ^ (i % 8)))

@[simp] theorem flip_length (v : Bytes) (i : ℕ) : (v.flip i).length = v.length :=
  List.length_modify ..

theorem bit_replicate_zero (n i : ℕ) : bit (List.replicate n 0) i = false := by
  have hbyte : (List.replicate n (0 : UInt8)).getD (i / 8) 0 = 0 := by
    rw [List.getD_eq_getElem?_getD, List.getElem?_replicate]
    split <;> rfl
  rw [bit, hbyte]
  exact Nat.zero_testBit _

theorem testBit_flipped (b : UInt8) {k : ℕ} (hk : k < 8) (j : ℕ) :
    (b ^^^ UInt8.ofNat (2 ^ k)).toNat.testBit j = (b.toNat.testBit j ^^ decide (k = j)) := by
  have hpow : 2 ^ k < 256 := Nat.pow_lt_pow_right (by decide) hk
  rw [UInt8.toNat_xor, Nat.testBit_xor, UInt8.toNat_ofNat_of_lt' hpow, Nat.testBit_two_pow]

theorem getD_flip {v : Bytes} {i : ℕ} (h : i / 8 < v.length) (k : ℕ) :
    (v.flip i).getD k 0 =
      if i / 8 = k then v.getD k 0 ^^^ UInt8.ofNat (2 ^ (i % 8)) else v.getD k 0 := by
  rw [flip, List.getD_eq_getElem?_getD, List.getElem?_modify, List.getD_eq_getElem?_getD]
  split
  case isTrue hk =>
    rw [hk] at h
    rw [List.getElem?_eq_getElem h]
    rfl
  case isFalse => simp

theorem bit_flip {v : Bytes} {i : ℕ} (h : i / 8 < v.length) (j : ℕ) :
    (v.flip i).bit j = (v.bit j ^^ decide (i = j)) := by
  rw [bit, getD_flip h, bit]
  split
  case isTrue hbyte =>
    have hj : i % 8 = j % 8 ↔ i = j := by omega
    rw [testBit_flipped _ (Nat.mod_lt _ (by decide))]
    simp only [hj]
  case isFalse hbyte =>
    have hne : i ≠ j := fun hij => hbyte (by rw [hij])
    rw [decide_eq_false hne, Bool.xor_false]

end Bytes
