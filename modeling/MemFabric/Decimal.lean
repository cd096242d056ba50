/-
Decimal text: `std::to_string` and a reader built on `strtoll`.

`Decimal.ofInt` prints a 64-bit integer and `Decimal.string2Int` is the reader of the server
and its clients.  The reader is lenient — leading and trailing white space, a plus sign and
leading zeros are accepted, and everything from the first NUL on is ignored — so it is only a
left inverse of the printer:

* `string2Int_ofInt` — every printed 64-bit integer is read back;
* `ofInt_injective` — different integers have different texts.
-/
import MemFabric.Bytes

namespace Decimal

open List

/-- The range of a signed 64-bit integer (`long`, `int64_t`). -/
def InInt64 (z : ℤ) : Prop := -2 ^ 63 ≤ z ∧ z < 2 ^ 63 deriving Decidable

/-- The result of 64-bit arithmetic: the value modulo `2 ^ 64`, signed. -/
def wrap64 (z : ℤ) : ℤ := z.bmod (2 ^ 64)

theorem wrap64_of_inInt64 {z : ℤ} (h : InInt64 z) : wrap64 z = z := by
  obtain ⟨h1, h2⟩ := h
  rw [wrap64, Int.bmod_def]
  split <;> omega

def digit (d : ℕ) : UInt8 := UInt8.ofNat (48 + d)

def ofNat (n : ℕ) : Bytes :=
  if n = 0 then [digit 0] else ((Nat.digits 10 n).reverse).map digit

/-- Decimal text of an integer (`std::to_string`). -/
def ofInt : ℤ → Bytes
  | .ofNat n => ofNat n
  | .negSucc n => 45 :: ofNat (n + 1)

/-- `std::isspace` in the C locale. -/
def isSpace (c : UInt8) : Bool := c == 32 || (9 ≤ c && c ≤ 13)

def isDigit (c : UInt8) : Bool := 48 ≤ c && c ≤ 57

def digitsValue (ds : Bytes) : ℕ := ds.foldl (fun acc c => 10 * acc + (c.toNat - 48)) 0

/-- An optional sign: whether it is a minus, and the text behind it. -/
def splitSign : Bytes → Bool × Bytes
  | [] => (false, [])
  | c :: t => if c = 45 then (true, t) else if c = 43 then (false, t) else (false, c :: t)

/-- `StrUtil::String2Int<long>`: the number a text stands for, if any. -/
def string2Int (str : Bytes) : Option ℤ :=
  -- `c_str()` ends at the first NUL, whatever the length of the string.
  let s := splitSign ((str.takeWhile (· ≠ 0)).dropWhile isSpace)
  let ds := s.2.takeWhile isDigit
  let z : ℤ := if s.1 then -(digitsValue ds : ℤ) else digitsValue ds
  if ds = [] then none
  else if (s.2.dropWhile isDigit).dropWhile isSpace ≠ [] then none
  else if InInt64 z then some z
  else none

/-! ### The text of a number -/

theorem toNat_digit {d : ℕ} (h : d < 10) : (digit d).toNat = 48 + d := by
  rw [digit, UInt8.toNat_ofNat', Nat.mod_eq_of_lt (by omega)]

theorem isDigit_digit {d : ℕ} (h : d < 10) : isDigit (digit d) = true := by
  have hd := toNat_digit h
  rw [isDigit, Bool.and_eq_true, decide_eq_true_iff, decide_eq_true_iff,
    UInt8.le_iff_toNat_le, UInt8.le_iff_toNat_le, hd]
  exact ⟨Nat.le_add_right 48 d, show 48 + d ≤ 57 by omega⟩

theorem isDigit_of_mem_ofNat {n : ℕ} {c : UInt8} (h : c ∈ ofNat n) : isDigit c = true := by
  rw [ofNat] at h
  split at h
  · rw [mem_singleton] at h
    exact h ▸ isDigit_digit (by omega)
  · obtain ⟨d, hd, rfl⟩ := mem_map.mp h
    exact isDigit_digit (Nat.digits_lt_base (by omega) (mem_reverse.mp hd))

theorem ofNat_ne_nil (n : ℕ) : ofNat n ≠ [] := by
  rw [ofNat]
  split
  · exact cons_ne_nil _ _
  · rename_i h
    simpa [Nat.digits_eq_nil_iff_eq_zero] using h

theorem digitsValue_map_digit (ds : List ℕ) (h : ∀ d ∈ ds, d < 10) :
    digitsValue ((ds.reverse).map digit) = Nat.ofDigits 10 ds := by
  induction ds with
  | nil => rfl
  | cons d ds ih =>
    have hd : d < 10 := h d (mem_cons_self ..)
    have ih' := ih fun e he => h e (mem_cons_of_mem _ he)
    rw [digitsValue] at ih' ⊢
    rw [reverse_cons, map_append, foldl_append, ih', map_singleton,
      foldl_cons, foldl_nil, toNat_digit hd, Nat.ofDigits_cons]
    omega

theorem digitsValue_ofNat (n : ℕ) : digitsValue (ofNat n) = n := by
  rw [ofNat]
  split
  · rename_i h
    rw [h]
    decide
  · rw [digitsValue_map_digit _ fun d hd => Nat.digits_lt_base (by omega) hd, Nat.ofDigits_digits]

theorem ofNat_injective : Function.Injective ofNat := fun m n h => by
  rw [← digitsValue_ofNat m, h, digitsValue_ofNat]

theorem minus_not_mem_ofNat (n : ℕ) : (45 : UInt8) ∉ ofNat n := fun h =>
  absurd (isDigit_of_mem_ofNat h) (by decide)

theorem ofInt_injective : Function.Injective ofInt := by
  intro a b h
  cases a with
  | ofNat m =>
    cases b with
    | ofNat n => rw [ofNat_injective h]
    | negSucc n =>
      have hm : ofNat m = 45 :: ofNat (n + 1) := h
      exact absurd (hm ▸ mem_cons_self ..) (minus_not_mem_ofNat m)
  | negSucc m =>
    cases b with
    | ofNat n =>
      have hn : 45 :: ofNat (m + 1) = ofNat n := h
      exact absurd (hn ▸ mem_cons_self ..) (minus_not_mem_ofNat n)
    | negSucc n =>
      have hmn := ofNat_injective (cons.inj h).2
      rw [Nat.succ_injective hmn]

/-! ### Reading a number back -/

theorem takeWhile_isDigit_ofNat (n : ℕ) : (ofNat n).takeWhile isDigit = ofNat n :=
  takeWhile_eq_self_iff.mpr fun _ h => isDigit_of_mem_ofNat h

theorem dropWhile_isDigit_ofNat (n : ℕ) : (ofNat n).dropWhile isDigit = [] :=
  dropWhile_eq_nil_iff.mpr fun _ h => isDigit_of_mem_ofNat h

theorem ne_zero_of_isDigit {c : UInt8} (h : isDigit c = true) : c ≠ 0 := by
  rintro rfl
  cases h

theorem isSpace_of_isDigit {c : UInt8} (h : isDigit c = true) : isSpace c = false := by
  rw [isDigit, Bool.and_eq_true, decide_eq_true_iff, decide_eq_true_iff,
    UInt8.le_iff_toNat_le, UInt8.le_iff_toNat_le] at h
  have h48 : 48 ≤ c.toNat := h.1
  have hne : c ≠ 32 := by
    rintro rfl
    nomatch h48
  have hlt : ¬ c ≤ 13 := by
    exact fun hc => absurd (le_trans h48 hc) (by decide)
  simp [isSpace, hne, hlt]

/-- White space and NULs are absent from a printed integer, so the whole text
reaches the sign. -/
theorem trim_ofNat (n : ℕ) : ((ofNat n).takeWhile (· ≠ 0)).dropWhile isSpace = ofNat n := by
  have htake : (ofNat n).takeWhile (· ≠ 0) = ofNat n :=
    takeWhile_eq_self_iff.mpr fun c h => by
      simpa using ne_zero_of_isDigit (isDigit_of_mem_ofNat h)
  rw [htake]
  rcases hn : ofNat n with _ | ⟨c, t⟩
  · rfl
  have hc : isDigit c = true := isDigit_of_mem_ofNat (n := n) (hn ▸ mem_cons_self ..)
  rw [dropWhile_cons, isSpace_of_isDigit hc]
  rfl

theorem splitSign_ofNat (n : ℕ) : splitSign (ofNat n) = (false, ofNat n) := by
  rcases hn : ofNat n with _ | ⟨c, t⟩
  · rfl
  have hc : isDigit c = true := isDigit_of_mem_ofNat (n := n) (hn ▸ mem_cons_self ..)
  have h45 : c ≠ 45 := by
    rintro rfl
    cases hc
  have h43 : c ≠ 43 := by
    rintro rfl
    cases hc
  rw [splitSign, if_neg h45, if_neg h43]

theorem string2Int_ofNat {n : ℕ} (h : InInt64 n) : string2Int (ofNat n) = some (n : ℤ) := by
  simp only [string2Int, trim_ofNat, splitSign_ofNat, takeWhile_isDigit_ofNat,
    dropWhile_isDigit_ofNat, digitsValue_ofNat]
  rw [if_neg (ofNat_ne_nil n)]
  simp [h]

theorem string2Int_ofInt {z : ℤ} (h : InInt64 z) : string2Int (ofInt z) = some z := by
  cases z with
  | ofNat n => exact string2Int_ofNat h
  | negSucc n =>
    -- The minus is neither NUL nor white space; behind it only digits are left.
    have htrim : ((ofInt (.negSucc n)).takeWhile (· ≠ 0)).dropWhile isSpace
        = 45 :: ofNat (n + 1) := by
      have htake : (ofNat (n + 1)).takeWhile (· ≠ 0) = ofNat (n + 1) :=
        takeWhile_eq_self_iff.mpr fun c h => by
          simpa using ne_zero_of_isDigit (isDigit_of_mem_ofNat h)
      rw [ofInt, takeWhile_cons, if_pos (by decide), htake, dropWhile_cons]
      rfl
    have hsign : splitSign (45 :: ofNat (n + 1)) = (true, ofNat (n + 1)) := rfl
    have hz : -((n + 1 : ℕ) : ℤ) = .negSucc n := rfl
    simp only [string2Int, htrim, hsign, takeWhile_isDigit_ofNat, dropWhile_isDigit_ofNat,
      digitsValue_ofNat]
    rw [if_neg (ofNat_ne_nil (n + 1))]
    simp only [dropWhile_nil, ne_eq, not_true_eq_false, if_false, if_true, hz, h]

end Decimal
