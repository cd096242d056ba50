/-
Byte strings and fixed-width little-endian integers.

Keys and values of the configuration store are plain byte strings.  Integers
enter them in two forms: as decimal text (`Decimal.lean`) and, here, as the
little-endian bytes of a machine word (`Bytes.le`, read back by
`Bytes.leValue`).
-/
import Mathlib

/-- A byte string (`std::string`, `std::vector<uint8_t>`). -/
abbrev Bytes := List UInt8

namespace Bytes

open List

def ofString (s : String) : Bytes := s.toList.map fun c => UInt8.ofNat c.toNat

/-- The low `w` bytes of `n`, least significant first. -/
def le : ℕ → ℕ → Bytes
  | 0, _ => []
  | w + 1, n => UInt8.ofNat n :: le w (n / 256)

def leValue : Bytes → ℕ
  | [] => 0
  | b :: bs => b.toNat + 256 * leValue bs

@[simp] theorem le_length (w n : ℕ) : (le w n).length = w := by
  induction w generalizing n with
  | zero => rfl
  | succ w ih => rw [le, length_cons, ih]

theorem leValue_le (w n : ℕ) : leValue (le w n) = n % 256 ^ w := by
  induction w generalizing n with
  | zero => rw [le, leValue, pow_zero, Nat.mod_one]
  | succ w ih =>
    have hbyte : (UInt8.ofNat n).toNat = n % 256 := UInt8.toNat_ofNat'
    rw [le, leValue, ih, hbyte, pow_succ', Nat.mod_mul]

theorem leValue_le_of_lt {w n : ℕ} (h : n < 256 ^ w) : leValue (le w n) = n := by
  rw [leValue_le, Nat.mod_eq_of_lt h]

theorem leValue_lt (bs : Bytes) : leValue bs < 256 ^ bs.length := by
  induction bs with
  | nil => exact Nat.one_pos
  | cons b bs ih =>
    have hb := b.toNat_lt
    rw [leValue, length_cons, pow_succ']
    omega

theorem le_leValue (bs : Bytes) : le bs.length (leValue bs) = bs := by
  induction bs with
  | nil => rfl
  | cons b bs ih =>
    have hb : b.toNat < 256 := b.toNat_lt
    have hlow : UInt8.ofNat (b.toNat + 256 * leValue bs) = b := by
      apply UInt8.toNat_inj.mp
      rw [UInt8.toNat_ofNat']
      omega
    have hhigh : (b.toNat + 256 * leValue bs) / 256 = leValue bs := by omega
    rw [length_cons, leValue, le, hlow, hhigh, ih]

/-! ### Records of integers -/

/-- Integers of the given widths, one behind the other. -/
def encodeFields (fields : List (ℕ × ℕ)) : Bytes := fields.flatMap fun f => le f.1 f.2

/-- Read integers of the given widths, one behind the other. -/
def decodeFields : List ℕ → Bytes → List ℕ
  | [], _ => []
  | w :: widths, data => leValue (data.take w) :: decodeFields widths (data.drop w)

@[simp] theorem encodeFields_cons (f : ℕ × ℕ) (fields : List (ℕ × ℕ)) :
    encodeFields (f :: fields) = le f.1 f.2 ++ encodeFields fields := flatMap_cons

theorem decodeFields_encodeFields {fields : List (ℕ × ℕ)} (h : ∀ f ∈ fields, f.2 < 256 ^ f.1)
    (rest : Bytes) :
    decodeFields (fields.map Prod.fst) (encodeFields fields ++ rest) = fields.map Prod.snd := by
  induction fields with
  | nil => rfl
  | cons f fields ih =>
    rw [map_cons, map_cons, decodeFields, encodeFields_cons, append_assoc,
      take_left' (le_length _ _), drop_left' (le_length _ _),
      leValue_le_of_lt (h f mem_cons_self), ih fun g hg => h g (mem_cons_of_mem _ hg)]

@[simp] theorem length_encodeFields (fields : List (ℕ × ℕ)) :
    (encodeFields fields).length = (fields.map Prod.fst).sum := by
  induction fields with
  | nil => rfl
  | cons f fields ih =>
    rw [encodeFields_cons, length_append, le_length, ih, map_cons, sum_cons]

/-- Memory into which `data` has been read at `offset`. -/
def readInto (memory : Bytes) (offset : ℕ) (data : Bytes) : Bytes :=
  memory.take offset ++ data ++ memory.drop (offset + data.length)

theorem readInto_length {memory data : Bytes} {offset : ℕ}
    (h : offset + data.length ≤ memory.length) :
    (memory.readInto offset data).length = memory.length := by
  simp only [readInto, length_append, length_take, length_drop]
  omega

theorem take_readInto {memory data : Bytes} {offset n : ℕ} (h : offset ≤ memory.length)
    (hn : offset + data.length = n) :
    (memory.readInto offset data).take n = memory.take offset ++ data := by
  exact take_left' (by rw [length_append, length_take, min_eq_left h, hn])

theorem append_cons_inj {a b d e : Bytes} {sep : UInt8} (h : a ++ [sep] ++ d = b ++ [sep] ++ e)
    (hd : sep ∉ d) (he : sep ∉ e) : a = b ∧ d = e := by
  rw [append_assoc, append_assoc, append_eq_append_iff] at h
  rcases h with ⟨t, rfl, ht⟩ | ⟨t, rfl, ht⟩
  · cases t with
    | nil => exact ⟨(append_nil a).symm, (cons.inj ht).2⟩
    | cons c t =>
      have hmem : d = t ++ ([sep] ++ e) := (cons.inj ht).2
      exact absurd (by simp [hmem]) hd
  cases t with
  | nil => exact ⟨append_nil b, (cons.inj ht).2.symm⟩
  | cons c t =>
    have hmem : e = t ++ ([sep] ++ d) := (cons.inj ht).2
    exact absurd (by simp [hmem]) he

end Bytes
