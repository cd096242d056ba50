/-
Ranks over one store.

A `SharedState` is a store and the local states of n ranks.  A step of an interleaving
is an operation of one rank: it leaves another store, and that rank in another local
state (`move`).

* `forall_move` — what holds of every rank after one of them has moved.
* `map_move` — a part of the local states that the step does not touch.
* `card_filter_move` — how a step changes the number of ranks of a kind.
-/
import Mathlib

/-- A store of type `σ` and local states of type `ρ`. -/
structure SharedState (σ ρ : Type*) (n : ℕ) where
  store : σ
  rank : Fin n → ρ

namespace SharedState

open Finset

variable {σ ρ : Type*} {n : ℕ}

/-- Rank `i` has performed an operation that leaves `store`, and is now `r`. -/
def move (s : SharedState σ ρ n) (i : Fin n) (r : ρ) (store : σ) : SharedState σ ρ n :=
  ⟨store, Function.update s.rank i r⟩

variable {s : SharedState σ ρ n} {i : Fin n} {r : ρ} {store : σ}

theorem move_store : (s.move i r store).store = store := rfl

theorem move_rank_self : (s.move i r store).rank i = r := Function.update_self ..

theorem move_rank_of_ne {j : Fin n} (h : j ≠ i) : (s.move i r store).rank j = s.rank j :=
  Function.update_of_ne h ..

theorem move_move {r' : ρ} {store' : σ} :
    (s.move i r store).move i r' store' = s.move i r' store' :=
  congrArg (SharedState.mk store') (Function.update_idem ..)

theorem move_self : s.move i (s.rank i) s.store = s :=
  congrArg (SharedState.mk s.store) (Function.update_eq_self i s.rank)

theorem forall_move {p : Fin n → ρ → Prop} (hi : p i r) (hj : ∀ j ≠ i, p j (s.rank j))
    (j : Fin n) : p j ((s.move i r store).rank j) :=
  (Function.forall_update_iff s.rank p).mpr ⟨hi, hj⟩ j

theorem map_move {α : Type*} (f : ρ → α) (h : f r = f (s.rank i)) (j : Fin n) :
    f ((s.move i r store).rank j) = f (s.rank j) :=
  forall_move (p := fun j r => f r = f (s.rank j)) h (fun _ _ => rfl) j

theorem card_filter_move (s : SharedState σ ρ n) (i : Fin n) (r : ρ) (store : σ)
    (p : Fin n → ρ → Bool) :
    (Finset.univ.filter fun j => p j ((s.move i r store).rank j) = true).card +
        (p i (s.rank i)).toNat =
      (Finset.univ.filter fun j => p j (s.rank j) = true).card + (p i r).toNat := by
  have hsplit : ∀ f : Fin n → ρ, (univ.filter fun j => p j (f j) = true).card =
      (p i (f i)).toNat + ∑ j ∈ univ.erase i, (p j (f j)).toNat := by
    intro f
    rw [card_filter, add_sum_erase _ (fun j => (p j (f j)).toNat) (mem_univ i)]
    refine sum_congr rfl fun j _ => ?_
    cases p j (f j) <;> rfl
  have hrest : ∑ j ∈ univ.erase i, (p j ((s.move i r store).rank j)).toNat =
      ∑ j ∈ univ.erase i, (p j (s.rank j)).toNat :=
    sum_congr rfl fun j hj => by rw [move_rank_of_ne (ne_of_mem_erase hj)]
  rw [hsplit, hsplit, hrest, move_rank_self]
  omega

end SharedState
