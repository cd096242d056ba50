/-
Rings of slots.

A ring of `d` slots is used through two indices that go round.  Seen from outside there are two
counters that only grow, and the indices are the counters modulo `d`; while the counters are less
than `d` apart (`Window`), the indices tell them from each other: `Window.empty_iff`,
`Window.full_iff`, `Window.slot_ne`.
-/
import Mathlib

namespace RingBuffer

variable {d lo hi : ℕ}

/-- The counters of a ring, with one slot free at least. -/
structure Window (d lo hi : ℕ) : Prop where
  le : lo ≤ hi
  lt : hi < lo + d

theorem eq_of_mod_eq (h : Window d lo hi) (hmod : lo % d = hi % d) : lo = hi := by
  have hdvd : d ∣ hi - lo := (Nat.modEq_iff_dvd' h.le).mp hmod
  have hlt : hi - lo < d := by
    have hle := h.le
    have hlt := h.lt
    omega
  have hzero : hi - lo = 0 := Nat.eq_zero_of_dvd_of_lt hdvd hlt
  have hle := h.le
  omega

namespace Window

theorem empty_iff (h : Window d lo hi) : lo % d = hi % d ↔ lo = hi :=
  ⟨eq_of_mod_eq h, fun heq => by rw [heq]⟩

theorem next_index (n : ℕ) : (n % d + 1) % d = (n + 1) % d :=
  Nat.mod_add_mod n d 1

theorem full_iff (h : Window d lo hi) : (hi % d + 1) % d = lo % d ↔ hi + 1 = lo + d := by
  have hle := h.le
  have hlt := h.lt
  rw [next_index]
  constructor
  · intro hmod
    by_contra hne
    have heq := eq_of_mod_eq ⟨by omega, by omega⟩ hmod.symm
    omega
  · intro heq
    rw [heq, Nat.add_mod_right]

theorem push (h : Window d lo hi) (hfull : (hi % d + 1) % d ≠ lo % d) : Window d lo (hi + 1) := by
  have hne : hi + 1 ≠ lo + d := fun heq => hfull (h.full_iff.mpr heq)
  have hle := h.le
  have hlt := h.lt
  exact ⟨by omega, by omega⟩

theorem drop (h : Window d lo hi) {lo' : ℕ} (hlo : lo ≤ lo') (hle : lo' ≤ hi) :
    Window d lo' hi := by
  have hlt := h.lt
  exact ⟨hle, by omega⟩

theorem slot_ne (h : Window d lo hi) {k : ℕ} (hk : lo ≤ k) (hlt : k < hi) : k % d ≠ hi % d := by
  intro hmod
  have heq := eq_of_mod_eq (h.drop hk hlt.le) hmod
  omega

end Window

/-- Go on one index after the other up to `target`; the second number counts. -/
def walk (d target : ℕ) : ℕ → ℕ × ℕ → ℕ × ℕ
  | 0, here => here
  | fuel + 1, here =>
    if here.1 = target then here else walk d target fuel ((here.1 + 1) % d, here.2 + 1)

/-- Within a window one arrives at the counter whose index is looked for. The induction is on the
fuel, which the distance stays within. -/
theorem walk_eq : ∀ {fuel lo : ℕ}, Window d lo hi → hi ≤ lo + fuel →
    walk d (hi % d) fuel (lo % d, lo) = (hi % d, hi) := by
  intro fuel
  induction fuel with
  | zero =>
    intro lo h hfuel
    have heq : lo = hi := le_antisymm h.le hfuel
    rw [heq]
    rfl
  | succ fuel ih =>
    intro lo h hfuel
    by_cases heq : lo = hi
    · subst heq
      exact if_pos rfl
    have hne : lo % d ≠ hi % d := fun hmod => heq (h.empty_iff.mp hmod)
    have hlt : lo < hi := lt_of_le_of_ne h.le heq
    show (if lo % d = hi % d then _ else walk d (hi % d) fuel ((lo % d + 1) % d, lo + 1)) = _
    rw [if_neg hne, Window.next_index]
    exact ih (h.drop (Nat.le_succ lo) hlt) (by omega)

end RingBuffer
