/-
Records of one size in a list.

A list is read as records of `size` elements, one behind the other, and the
first element of a record is its flag.  A record is appended at the end, written
over another one (`patch`), or gets another flag.

* `mem_flagged`, `flagged_append`, `flagged_patch`, `flagged_set` — which records
  have a given flag afterwards.
* `SameOff` — two lists that differ in some records only; writing what one of
  them holds over the other takes a record out of these (`SameOff.patch`).
-/
import Mathlib

namespace Records

open List Nat Finset

variable {α : Type*} {size slot : ℕ} {v data : List α} {flag : α}

/-- Write over the elements from `offset` on. -/
def patch (v : List α) (offset : ℕ) (data : List α) : List α :=
  v.take offset ++ data ++ v.drop (offset + data.length)

variable {offset : ℕ}

theorem length_patch (h : offset + data.length ≤ v.length) :
    (patch v offset data).length = v.length := by
  simp only [patch, length_append, length_take, length_drop]
  omega

theorem getElem?_patch (h : offset + data.length ≤ v.length) (i : ℕ) :
    (patch v offset data)[i]? =
      if offset ≤ i ∧ i < offset + data.length then data[i - offset]? else v[i]? := by
  have htake : (v.take offset).length = offset := by
    rw [length_take]
    omega
  rw [patch, append_assoc]
  by_cases hlo : i < offset
  · rw [if_neg (by omega), getElem?_append_left (by omega), getElem?_take_of_lt hlo]
  rw [getElem?_append_right (by omega), htake]
  by_cases hmid : i < offset + data.length
  · rw [if_pos ⟨by omega, hmid⟩, getElem?_append_left (by omega)]
  rw [if_neg (by omega), getElem?_append_right (by omega), getElem?_drop]
  congr 1
  omega

/-- These elements are found from `offset` on. -/
def Holds (v : List α) (offset : ℕ) (data : List α) : Prop :=
  (v.drop offset).take data.length = data

instance [DecidableEq α] (v : List α) (offset : ℕ) (data : List α) :
    Decidable (Holds v offset data) :=
  inferInstanceAs (Decidable (_ = _))

theorem Holds.le (h : Holds v offset data) (hne : data ≠ []) : offset + data.length ≤ v.length := by
  have hlen := congrArg length h
  rw [length_take, length_drop] at hlen
  have hpos := length_pos_iff.mpr hne
  omega

theorem Holds.getElem? {offset i : ℕ} (h : Holds v offset data) (hlo : offset ≤ i)
    (hhi : i < offset + data.length) : data[i - offset]? = v[i]? := by
  have hget := congrArg (fun l : List α => l[i - offset]?) h
  rw [getElem?_take_of_lt (by omega), getElem?_drop, Nat.add_sub_cancel' hlo] at hget
  exact hget.symm

theorem holds_append {a b : List α} :
    Holds v offset (a ++ b) ↔ Holds v offset a ∧ Holds v (offset + a.length) b := by
  rw [Holds, Holds, Holds, length_append, take_add, drop_drop]
  constructor
  · intro h
    have hlen := congrArg length h
    simp only [length_append, length_take, length_drop] at hlen
    exact append_inj h (by rw [length_take, length_drop]; omega)
  · rintro ⟨ha, hb⟩
    rw [ha, hb]

theorem holds_zero_append (a b : List α) : Holds (a ++ b) 0 a := by
  rw [Holds, drop_zero, take_left]

theorem Holds.patch_eq (h : Holds v offset data) (hne : data ≠ []) : patch v offset data = v := by
  refine ext_getElem? fun i => ?_
  rw [getElem?_patch (h.le hne)]
  split
  next hi => exact h.getElem? hi.1 hi.2
  next => rfl

theorem mul_add_le (h : slot < v.length / size) : slot * size + size ≤ v.length := by
  have hle : (slot + 1) * size ≤ v.length :=
    (mul_le_mul_right size h).trans (div_mul_le_self ..)
  rwa [add_mul, one_mul] at hle

theorem begins_within (hsize : 0 < size) (x : ℕ) :
    slot * size ≤ x * size ∧ x * size < slot * size + size ↔ x = slot := by
  constructor
  · rintro ⟨hle, hlt⟩
    have hle : slot ≤ x := le_of_mul_le_mul_right hle hsize
    have hlt : x < slot + 1 := by
      refine lt_of_mul_lt_mul_right ?_ (zero_le size)
      rwa [add_mul, one_mul]
    omega
  · rintro rfl
    omega

/-! ### Lists that differ in some records -/

/-- The lists have the same length and agree outside of these records. -/
structure SameOff (size : ℕ) (slots : List ℕ) (v w : List α) : Prop where
  length : w.length = v.length
  agree : ∀ i, (∀ x ∈ slots, ¬(x * size ≤ i ∧ i < x * size + size)) → w[i]? = v[i]?

namespace SameOff

variable {slots : List ℕ} {w : List α}

theorem refl (size : ℕ) (slots : List ℕ) (v : List α) : SameOff size slots v v :=
  ⟨rfl, fun _ _ => rfl⟩

theorem eq (h : SameOff size [] v w) : w = v :=
  ext_getElem? fun i => h.agree i nofun

theorem set (h : SameOff size slots v w) (hsize : 0 < size) (hslot : slot ∈ slots) (a : α) :
    SameOff size slots v (w.set (slot * size) a) where
  length := by rw [length_set, h.length]
  agree i hi := by
    have hne : slot * size ≠ i := by
      rintro rfl
      exact hi slot hslot ⟨le_rfl, by omega⟩
    rw [getElem?_set_ne hne, h.agree i hi]

theorem patch (h : SameOff size (slot :: slots) v w) (hdata : data.length = size)
    (hne : data ≠ []) (hholds : Holds v (slot * size) data) :
    SameOff size slots v (Records.patch w (slot * size) data) := by
  have hle : slot * size + data.length ≤ w.length := by
    rw [h.length]
    exact hholds.le hne
  refine ⟨(length_patch hle).trans h.length, fun i hi => ?_⟩
  rw [getElem?_patch hle]
  split
  next hin => exact hholds.getElem? hin.1 hin.2
  next hout =>
    refine h.agree i fun x hx => ?_
    rcases mem_cons.mp hx with rfl | hx
    · rwa [hdata] at hout
    · exact hi x hx

end SameOff

/-! ### Flags -/

variable [DecidableEq α]

def flagged (size : ℕ) (flag : α) (v : List α) : Finset ℕ :=
  (Finset.range (v.length / size)).filter fun x => v[x * size]? = some flag

theorem mem_flagged {x : ℕ} :
    x ∈ flagged size flag v ↔ x < v.length / size ∧ v[x * size]? = some flag := by
  rw [flagged, Finset.mem_filter, Finset.mem_range]

theorem flagged_nil : flagged size flag ([] : List α) = ∅ := by
  rw [flagged, List.length_nil, Nat.zero_div, Finset.range_zero, Finset.filter_empty]

theorem flagged_append (hsize : 0 < size) (hdvd : size ∣ v.length) (hdata : data.length = size)
    (hflag : data[0]? = some flag) :
    flagged size flag (v ++ data) = insert (v.length / size) (flagged size flag v) := by
  have hend : v.length / size * size = v.length := Nat.div_mul_cancel hdvd
  have hslots : (v ++ data).length / size = v.length / size + 1 := by
    rw [length_append, hdata, add_div_right _ hsize]
  ext x
  rw [mem_insert, mem_flagged, mem_flagged, hslots]
  rcases lt_trichotomy x (v.length / size) with hx | rfl | hx
  · have hlt : x * size < v.length := by
      have := mul_add_le hx
      omega
    rw [getElem?_append_left hlt]
    constructor
    · exact fun h => .inr ⟨hx, h.2⟩
    rintro (rfl | h)
    · exact absurd hx (lt_irrefl _)
    · exact ⟨hx.trans (lt_succ_self _), h.2⟩
  · rw [getElem?_append_right (by omega), hend, Nat.sub_self]
    exact ⟨fun _ => .inl rfl, fun _ => ⟨lt_succ_self _, hflag⟩⟩
  constructor
  · rintro ⟨hlt, -⟩
    omega
  rintro (rfl | h)
  · exact absurd hx (lt_irrefl _)
  · exact absurd h.1 (not_lt.mpr hx.le)

theorem flagged_patch (hsize : 0 < size) (hslot : slot < v.length / size)
    (hdata : data.length = size) (hflag : data[0]? = some flag) :
    flagged size flag (patch v (slot * size) data) = insert slot (flagged size flag v) := by
  have hle : slot * size + data.length ≤ v.length := by
    rw [hdata]
    exact mul_add_le hslot
  ext x
  rw [mem_insert, mem_flagged, mem_flagged, length_patch hle, getElem?_patch hle, hdata]
  by_cases hx : x = slot
  · subst hx
    rw [if_pos ((begins_within hsize x).mpr rfl), Nat.sub_self]
    exact ⟨fun _ => .inl rfl, fun _ => ⟨hslot, hflag⟩⟩
  · rw [if_neg fun h => hx ((begins_within hsize x).mp h)]
    exact ⟨.inr, fun h => h.resolve_left hx⟩

theorem flagged_set (hsize : 0 < size) {a : α} (ha : a ≠ flag) (slot : ℕ) :
    flagged size flag (v.set (slot * size) a) = (flagged size flag v).erase slot := by
  ext x
  rw [mem_erase, mem_flagged, mem_flagged, length_set, getElem?_set]
  by_cases hx : x = slot
  · subst hx
    rw [if_pos rfl]
    constructor
    · rintro ⟨-, h⟩
      split at h
      · exact absurd (Option.some.inj h) ha
      · cases h
    · exact fun h => absurd rfl h.1
  have hne : slot * size ≠ x * size := fun h =>
    hx (eq_of_mul_eq_mul_right hsize h).symm
  rw [if_neg hne]
  exact ⟨fun h => ⟨hx, h⟩, And.right⟩

end Records
