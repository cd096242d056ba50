/-
Slots held at places.

Numbered slots lie at places, several at one place: in a free list, with an
owner, on their way from one to the other.  `Slots.Valid held next` says that no
slot is held twice, at one place or at two, and that all of them are below
`next`, the number of slots there are.

* `Valid.sublist` — giving slots up and adding new ones.
* `Valid.transfer` — moving slots from one place to another.
* `Valid.claim` — taking a slot that nobody holds.
-/
import Mathlib

namespace Slots

open Function List

variable {P : Type*}

/-- No slot is held twice, and all are below `next`. -/
structure Valid (held : P → List ℕ) (next : ℕ) : Prop where
  nodup : ∀ p, (held p).Nodup
  unique : ∀ {p q x}, x ∈ held p → x ∈ held q → p = q
  lt : ∀ {p x}, x ∈ held p → x < next

def Free (held : P → List ℕ) (next x : ℕ) : Prop := x < next ∧ ∀ p, x ∉ held p

variable {held held' : P → List ℕ} {next next' : ℕ}

theorem sublist_of_eq {a b : List ℕ} (h : a = b) : a.Sublist b := h ▸ List.Sublist.refl a

theorem Valid.nil (next : ℕ) : Valid (fun _ : P => []) next :=
  ⟨fun _ => nodup_nil, nofun, nofun⟩

theorem Valid.sublist (h : Valid held next) (hsub : ∀ p, (held' p).Sublist (held p))
    (hnext : next ≤ next') : Valid held' next' where
  nodup p := (h.nodup p).sublist (hsub p)
  unique hp hq := h.unique ((hsub _).subset hp) ((hsub _).subset hq)
  lt hp := lt_of_lt_of_le (h.lt ((hsub _).subset hp)) hnext

theorem Valid.transfer (h : Valid held next) {p q : P} (hpq : p ≠ q) (moved : List ℕ)
    {kept : List ℕ} (hp : held p = moved ++ kept) (hp' : (held' p).Sublist kept)
    (hq' : (held' q).Sublist (held q ++ moved))
    (hrest : ∀ x, x ≠ p → x ≠ q → (held' x).Sublist (held x)) (hnext : next ≤ next') :
    Valid held' next' := by
  classical
  have hmoved : ∀ {x}, x ∈ moved → x ∈ held p := fun hx => by
    rw [hp]
    exact mem_append_left _ hx
  have hnodup : (moved ++ kept).Nodup := hp ▸ h.nodup p
  -- First the whole transfer, where every slot still has a place of its own.
  have hall : Valid (update (update held p kept) q (held q ++ moved)) next := by
    have hcases : ∀ {x y}, x ∈ update (update held p kept) q (held q ++ moved) y →
        (y = q ∧ x ∈ moved) ∨ (x ∈ held y ∧ (y = p → x ∉ moved)) := by
      intro x y hx
      rw [update_apply] at hx
      split at hx
      next hy =>
        rcases mem_append.mp hx with hx | hx
        · exact .inr ⟨hy ▸ hx, fun hyp => absurd (hyp.symm.trans hy) hpq⟩
        · exact .inl ⟨hy, hx⟩
      next hy =>
        rw [update_apply] at hx
        split at hx
        next hyp =>
          refine .inr ⟨?_, fun _ hm => disjoint_of_nodup_append hnodup hm hx⟩
          rw [hyp, hp]
          exact mem_append_right _ hx
        next hyp => exact .inr ⟨hx, fun hyp' => absurd hyp' hyp⟩
    refine ⟨fun y => ?_, fun {y z x} hy hz => ?_, fun {y x} hx => ?_⟩
    · rw [update_apply]
      split
      · refine (h.nodup q).append (List.Nodup.of_append_left hnodup) fun x hx hm => ?_
        exact hpq (h.unique (hmoved hm) hx)
      rw [update_apply]
      split
      · exact List.Nodup.of_append_right hnodup
      · exact h.nodup y
    · rcases hcases hy with ⟨rfl, hm⟩ | ⟨hxy, hym⟩ <;> rcases hcases hz with ⟨rfl, hm'⟩ | ⟨hxz, hzm⟩
      · rfl
      · exact absurd hm (hzm (h.unique hxz (hmoved hm)))
      · exact absurd hm' (hym (h.unique hxy (hmoved hm')))
      · exact h.unique hxy hxz
    · rcases hcases hx with ⟨-, hm⟩ | ⟨hx, -⟩
      · exact h.lt (hmoved hm)
      · exact h.lt hx
  refine hall.sublist (fun y => ?_) hnext
  rw [update_apply]
  split
  next hy => exact hy ▸ hq'
  next hy =>
    rw [update_apply]
    split
    next hyp => exact hyp ▸ hp'
    next hyp => exact hrest y hyp hy

theorem Valid.claim (h : Valid held next) {x : ℕ} {p : P} (hx : Free held next' x)
    (hp' : (held' p).Sublist (held p ++ [x])) (hrest : ∀ y, y ≠ p → (held' y).Sublist (held y))
    (hnext : next ≤ next') : Valid held' next' := by
  have hcases : ∀ {y z}, z ∈ held' y → (y = p ∧ z = x) ∨ z ∈ held y := by
    intro y z hz
    by_cases hy : y = p
    · subst hy
      rcases mem_append.mp (hp'.subset hz) with hz | hz
      · exact .inr hz
      · exact .inl ⟨rfl, mem_singleton.mp hz⟩
    · exact .inr ((hrest y hy).subset hz)
  refine ⟨fun y => ?_, fun {y z w} hy hz => ?_, fun {y w} hw => ?_⟩
  · by_cases hy : y = p
    · subst hy
      refine ((h.nodup y).append (nodup_singleton x) fun w hw hwx => ?_).sublist hp'
      exact hx.2 y (mem_singleton.mp hwx ▸ hw)
    · exact (h.nodup y).sublist (hrest y hy)
  · rcases hcases hy with ⟨rfl, rfl⟩ | hwy <;> rcases hcases hz with ⟨rfl, hwx⟩ | hwz
    · rfl
    · exact absurd hwz (hx.2 z)
    · exact absurd (hwx ▸ hwy) (hx.2 y)
    · exact h.unique hwy hwz
  · rcases hcases hw with ⟨-, rfl⟩ | hw
    · exact hx.1
    · exact lt_of_lt_of_le (h.lt hw) hnext

theorem Valid.free_next (h : Valid held next) : Free held (next + 1) next :=
  ⟨Nat.lt_succ_self next, fun _ hx => lt_irrefl next (h.lt hx)⟩

end Slots
