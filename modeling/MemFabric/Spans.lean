/-
Ranges of pairs of addresses, byte by byte.

A `Span` relates `len` consecutive addresses on two sides, from `near` and from `far` on, and
`Span.bytes M` lists the pairs it relates; addresses wrap around at `M`.  Cutting a span
(`bytes_add`) and listing several spans (`bytesAll`) keep the list, so whether requests cover
a range exactly once is an equation between two lists.
-/
import Mathlib

/-- `len` addresses from `near` on, against as many from `far` on. -/
structure Span where
  near : ℕ
  far : ℕ
  len : ℕ
  deriving DecidableEq

namespace Span

open List

variable {M : ℕ}

def bytes (M : ℕ) (s : Span) : List (ℕ × ℕ) :=
  (List.range s.len).map fun i => ((s.near + i) % M, (s.far + i) % M)

def bytesAll (M : ℕ) (spans : List Span) : List (ℕ × ℕ) := spans.flatMap (bytes M)

@[simp] theorem length_bytes (s : Span) : (s.bytes M).length = s.len := by
  rw [bytes, length_map, length_range]

@[simp] theorem bytesAll_nil : bytesAll M [] = [] := by simp [bytesAll]

@[simp] theorem bytesAll_cons (s : Span) (spans : List Span) :
    bytesAll M (s :: spans) = s.bytes M ++ bytesAll M spans := flatMap_cons

@[simp] theorem bytesAll_append (spans spans' : List Span) :
    bytesAll M (spans ++ spans') = bytesAll M spans ++ bytesAll M spans' := flatMap_append

theorem bytes_add {near far near' far' m n : ℕ} (hnear : near' % M = (near + m) % M)
    (hfar : far' % M = (far + m) % M) :
    bytes M ⟨near, far, m + n⟩ = bytes M ⟨near, far, m⟩ ++ bytes M ⟨near', far', n⟩ := by
  have hshift : ∀ {a a' : ℕ}, a' % M = (a + m) % M → ∀ i, (a + (m + i)) % M = (a' + i) % M := by
    intro a a' h i
    rw [← Nat.add_assoc, Nat.add_mod, ← h, ← Nat.add_mod]
  simp only [bytes, range_add, map_append, map_map]
  congr 1
  apply map_congr_left
  intro i _
  exact Prod.ext (hshift hnear i) (hshift hfar i)

/-- The memory `m` once the contents of every pair have been moved to its second address. -/
def moved {β : Type*} (pairs : List (ℕ × ℕ)) (m : ℕ → β) : ℕ → β :=
  pairs.foldl (fun m x => Function.update m x.2 (m x.1)) m

theorem moved_perm {β : Type*} {pairs pairs' : List (ℕ × ℕ)} {m : ℕ → β} (hperm : pairs.Perm pairs')
    (hnodup : (pairs.map Prod.snd).Nodup) (hsources : ∀ x ∈ pairs, ∀ y ∈ pairs, x.2 ≠ y.1) :
    moved pairs m = moved pairs' m := by
  refine hperm.foldl_eq' (fun x hx y hy m => ?_) m
  by_cases hxy : x = y
  · rw [hxy]
  have hne : x.2 ≠ y.2 := fun h => hxy (inj_on_of_nodup_map hnodup hx hy h)
  rw [Function.update_of_ne (hsources x hx y hy).symm, Function.update_of_ne
    (hsources y hy x hx).symm, Function.update_comm hne]

theorem bytes_mod (near far n : ℕ) : bytes M ⟨near % M, far % M, n⟩ = bytes M ⟨near, far, n⟩ := by
  simp only [bytes, Nat.mod_add_mod]

end Span

theorem List.flatMap_range_chunks {α : Type*} (l : List α) (c k : ℕ) :
    (List.range k).flatMap (fun i => (l.drop (i * c)).take c) = l.take (k * c) := by
  induction k with
  | zero => rw [range_zero, flatMap_nil, Nat.zero_mul, take_zero]
  | succ k ih =>
    rw [range_succ, flatMap_append, ih, flatMap_singleton, Nat.succ_mul, take_add]
