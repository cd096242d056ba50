/-
Tilings of an interval of the natural numbers.

A tiling of `[0, total)` gives, for some of its points, the label and the length of a
tile that begins there.  `Tiling` says what that takes, point by point: a tile begins
where the one before it ends, and none begins inside another one.  That the tiles are
then disjoint and cover the interval is `Tiling.disjoint` and `Tiling.cover`.

Tiles are relabelled, cut in two and joined with the next one (`Tiling.relabel`,
`Tiling.split`, `Tiling.merge`), all by `Tiling.replace`.
-/
import Mathlib

/-- The tiles of `[0, total)`, by the point where they begin. -/
structure Tiling {ι : Type*} (tile : ℕ → Option (ι × ℕ)) (total : ℕ) : Prop where
  start : 0 < total → (tile 0).isSome
  pos : ∀ {o l n}, tile o = some (l, n) → 0 < n
  le : ∀ {o l n}, tile o = some (l, n) → o + n ≤ total
  next : ∀ {o l n}, tile o = some (l, n) → o + n < total → (tile (o + n)).isSome
  gap : ∀ {o l n x}, tile o = some (l, n) → o < x → x < o + n → tile x = none

namespace Tiling

open Option Function

variable {ι : Type*} {tile : ℕ → Option (ι × ℕ)} {total o o' n n' : ℕ} {l l' : ι}

theorem disjoint (h : Tiling tile total) (ho : tile o = some (l, n))
    (ho' : tile o' = some (l', n')) (hlt : o < o') : o + n ≤ o' := by
  by_contra hle
  rw [h.gap ho hlt (by omega)] at ho'
  cases ho'

theorem cover (h : Tiling tile total) {x : ℕ} (hx : x < total) :
    ∃ o l n, tile o = some (l, n) ∧ o ≤ x ∧ x < o + n := by
  induction x with
  | zero =>
    obtain ⟨⟨l, n⟩, hn⟩ := isSome_iff_exists.mp (h.start hx)
    exact ⟨0, l, n, hn, le_rfl, by have := h.pos hn; omega⟩
  | succ x ih =>
    obtain ⟨o, l, n, ho, hlo, hhi⟩ := ih (by omega)
    by_cases hin : x + 1 < o + n
    · exact ⟨o, l, n, ho, by omega, hin⟩
    -- The tile of `x` ends here, so the next one begins here.
    have hend : o + n = x + 1 := by omega
    obtain ⟨⟨l', n'⟩, hn'⟩ := isSome_iff_exists.mp (h.next ho (by omega))
    rw [hend] at hn'
    exact ⟨x + 1, l', n', hn', le_rfl, by have := h.pos hn'; omega⟩

theorem whole (l : ι) (htotal : 0 < total) :
    Tiling (fun o : ℕ => if o = 0 then some (l, total) else none) total := by
  constructor
  · intro _
    rfl
  · intro o l' n ho
    split at ho
    · obtain ⟨rfl, rfl⟩ := Prod.mk.inj (some_inj.mp ho)
      exact htotal
    · cases ho
  · intro o l' n ho
    split at ho
    · obtain ⟨rfl, rfl⟩ := Prod.mk.inj (some_inj.mp ho)
      omega
    · cases ho
  · intro o l' n ho hlt
    split at ho
    · obtain ⟨rfl, rfl⟩ := Prod.mk.inj (some_inj.mp ho)
      omega
    · cases ho
  · intro o l' n x ho hlt _
    exact if_neg (by omega)

/-! ### Changing tiles -/

/-- The tiles of `[o, e)` are replaced by other ones. -/
theorem replace {tile' : ℕ → Option (ι × ℕ)} {e : ℕ} (h : Tiling tile total)
    (ho : (tile o).isSome) (he : e < total → (tile e).isSome) (hle : e ≤ total)
    (hsame : ∀ {x}, x < o ∨ e ≤ x → tile' x = tile x) (hfirst : (tile' o).isSome)
    (hinner : ∀ {x l n}, o ≤ x → x < e → tile' x = some (l, n) → 0 < n ∧ x + n ≤ e ∧
      (x + n < e → (tile' (x + n)).isSome) ∧ ∀ y, x < y → y < x + n → tile' y = none) :
    Tiling tile' total := by
  obtain ⟨⟨l, n⟩, ho⟩ := isSome_iff_exists.mp ho
  -- a tile is a new one, or an old one that does not reach into the interval
  have hcases : ∀ {x k m}, tile' x = some (k, m) → (o ≤ x ∧ x < e) ∨
      (tile x = some (k, m) ∧ (x + m ≤ o ∨ e ≤ x)) := by
    intro x k m hx
    by_cases hlow : x < o
    · rw [hsame (.inl hlow)] at hx
      exact .inr ⟨hx, .inl (h.disjoint hx ho hlow)⟩
    by_cases hhigh : e ≤ x
    · rw [hsame (.inr hhigh)] at hx
      exact .inr ⟨hx, .inr hhigh⟩
    · exact .inl ⟨not_lt.mp hlow, not_le.mp hhigh⟩
  have hsome : ∀ {x}, x ≤ o ∨ e ≤ x → (tile x).isSome → (tile' x).isSome := by
    intro x hx hold
    by_cases hxo : x = o
    · rwa [hxo]
    · rwa [hsame (hx.imp_left fun hx => lt_of_le_of_ne hx hxo)]
  constructor
  · exact fun htotal => hsome (.inl (Nat.zero_le o)) (h.start htotal)
  · intro x k m hx
    rcases hcases hx with ⟨hlow, hhigh⟩ | ⟨hx, -⟩
    · exact (hinner hlow hhigh hx).1
    · exact h.pos hx
  · intro x k m hx
    rcases hcases hx with ⟨hlow, hhigh⟩ | ⟨hx, -⟩
    · exact (hinner hlow hhigh hx).2.1.trans hle
    · exact h.le hx
  · intro x k m hx hlt
    rcases hcases hx with ⟨hlow, hhigh⟩ | ⟨hx, hside⟩
    · obtain ⟨-, hend, hnext, -⟩ := hinner hlow hhigh hx
      rcases lt_or_eq_of_le hend with hin | heq
      · exact hnext hin
      · rw [heq] at hlt ⊢
        exact hsome (.inr le_rfl) (he hlt)
    · exact hsome (by omega) (h.next hx hlt)
  intro x k m y hx hlt hlt'
  rcases hcases hx with ⟨hlow, hhigh⟩ | ⟨hx, hside⟩
  · exact (hinner hlow hhigh hx).2.2.2 y hlt hlt'
  · rw [hsame (by omega)]
    exact h.gap hx hlt hlt'

section

variable (h : Tiling tile total) (ho : tile o = some (l, n))
include h ho

theorem relabel (l' : ι) : Tiling (update tile o (some (l', n))) total := by
  have hpos := h.pos ho
  have hnone : ∀ x, o < x → x < o + n → update tile o (some (l', n)) x = none := by
    intro x hlow hhigh
    rw [update_of_ne (by omega), h.gap ho hlow hhigh]
  refine h.replace (isSome_of_eq_some ho) (h.next ho) (h.le ho)
    (fun hx => update_of_ne (by omega) _ _) (by rw [update_self]; rfl) ?_
  intro x k m hlow hhigh hx
  rcases lt_or_eq_of_le hlow with hlow | rfl
  · nomatch (hnone x hlow hhigh).symm.trans hx
  rw [update_self] at hx
  obtain ⟨rfl, rfl⟩ := Prod.mk.inj (some_inj.mp hx)
  exact ⟨hpos, le_rfl, fun hlt => absurd hlt (lt_irrefl _), hnone⟩

theorem split {a : ℕ} (ha : 0 < a) (han : a < n) (l₁ l₂ : ι) :
    Tiling (update (update tile o (some (l₁, a))) (o + a) (some (l₂, n - a))) total := by
  have hnone : ∀ x, o < x → x < o + n → x ≠ o + a → update (update tile o (some (l₁, a))) (o + a)
      (some (l₂, n - a)) x = none := by
    intro x hlow hhigh hxa
    rw [update_of_ne hxa, update_of_ne (by omega), h.gap ho hlow hhigh]
  have hfirst : update (update tile o (some (l₁, a))) (o + a) (some (l₂, n - a)) o =
      some (l₁, a) := by
    rw [update_of_ne (by omega), update_self]
  refine h.replace (isSome_of_eq_some ho) (h.next ho) (h.le ho) (fun hx => ?_)
    (by rw [hfirst]; rfl) ?_
  · rw [update_of_ne (by omega), update_of_ne (by omega)]
  intro x k m hlow hhigh hx
  by_cases hxa : x = o + a
  · subst hxa
    rw [update_self] at hx
    obtain ⟨rfl, rfl⟩ := Prod.mk.inj (some_inj.mp hx)
    exact ⟨by omega, by omega, fun _ => by omega,
      fun y hlt hlt' => hnone y (by omega) (by omega) (by omega)⟩
  rcases lt_or_eq_of_le hlow with hlow | rfl
  · nomatch (hnone x hlow hhigh hxa).symm.trans hx
  rw [hfirst] at hx
  obtain ⟨rfl, rfl⟩ := Prod.mk.inj (some_inj.mp hx)
  refine ⟨ha, by omega, fun _ => ?_, fun y hlt hlt' => hnone y hlt (by omega) (by omega)⟩
  rw [update_self]
  rfl

theorem merge (hnext : tile (o + n) = some (l', n')) (k : ι) :
    Tiling (update (update tile (o + n) none) o (some (k, n + n'))) total := by
  have hpos := h.pos ho
  have hpos' := h.pos hnext
  have hnone : ∀ x, o < x → x < o + n + n' →
      update (update tile (o + n) none) o (some (k, n + n')) x = none := by
    intro x hlow hhigh
    rw [update_of_ne (by omega), update_apply]
    split
    · rfl
    rename_i hxn
    rcases lt_or_gt_of_ne hxn with hlt | hlt
    · exact h.gap ho hlow hlt
    · exact h.gap hnext hlt hhigh
  refine h.replace (isSome_of_eq_some ho) (h.next hnext) (h.le hnext) (fun hx => ?_)
    (by rw [update_self]; rfl) ?_
  · rw [update_of_ne (by omega), update_of_ne (by omega)]
  intro x j m hlow hhigh hx
  rcases lt_or_eq_of_le hlow with hlow | rfl
  · nomatch (hnone x hlow hhigh).symm.trans hx
  rw [update_self] at hx
  obtain ⟨rfl, rfl⟩ := Prod.mk.inj (some_inj.mp hx)
  refine ⟨by omega, by omega, fun hlt => by omega, fun y hlt hlt' => hnone y hlt (by omega)⟩

end

end Tiling
