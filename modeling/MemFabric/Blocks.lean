/-
Lists of blocks of one length, and sorting by a key.

* `drop_flatMap_block` — in a concatenation of blocks of length `c`, block `j`
  starts at `j * c`.
* `sortByKey f l` — `l` in ascending order of `f`.  Where `f` tells the elements
  apart, the result does not depend on the order of `l` (`sortByKey_eq_of_perm`);
  sorting images by an order that agrees with the key is the same
  (`insertionSort_map_eq`).
* `mapM_map_eq_some` — a partial function that is defined on a whole list.
-/
import Mathlib

namespace Blocks

open List

variable {α β : Type*}

/-! ### Blocks -/

section

variable {f : α → List β} {c : ℕ} {l : List α}

theorem length_flatMap_block (h : ∀ x ∈ l, (f x).length = c) :
    (l.flatMap f).length = l.length * c := by
  induction l with
  | nil => rw [flatMap_nil, length_nil, length_nil, Nat.zero_mul]
  | cons x l ih =>
    rw [flatMap_cons, length_append, h x mem_cons_self,
      ih fun y hy => h y (mem_cons_of_mem x hy), length_cons, Nat.succ_mul, Nat.add_comm]

theorem drop_flatMap_block (h : ∀ x ∈ l, (f x).length = c) {j : ℕ} {x : α} (hx : l[j]? = some x) :
    (l.flatMap f).drop (j * c) = f x ++ (l.drop (j + 1)).flatMap f := by
  induction l generalizing j with
  | nil => cases hx
  | cons y l ih =>
    cases j with
    | zero =>
      rw [getElem?_cons_zero, Option.some_inj] at hx
      rw [hx, Nat.zero_mul, drop_zero, flatMap_cons]
      rfl
    | succ j =>
      have hy := h y mem_cons_self
      have hstart : (j + 1) * c = (f y).length + j * c := by
        rw [hy, Nat.succ_mul, Nat.add_comm]
      rw [flatMap_cons, hstart, drop_append, drop_succ_cons]
      rw [drop_eq_nil_of_le (Nat.le_add_right _ _), Nat.add_sub_cancel_left, nil_append]
      exact ih (fun z hz => h z (mem_cons_of_mem y hz)) hx

end

/-! ### Sorting by a key -/

def sortByKey (f : α → ℕ) (l : List α) : List α := l.insertionSort fun a b => f a ≤ f b

theorem perm_sortByKey (f : α → ℕ) (l : List α) : (sortByKey f l).Perm l :=
  perm_insertionSort _ l

theorem pairwise_sortByKey (f : α → ℕ) (l : List α) :
    (sortByKey f l).Pairwise fun a b => f a ≤ f b := by
  have : IsTrans α fun a b => f a ≤ f b := ⟨fun _ _ _ => le_trans⟩
  exact pairwise_insertionSort _ l

variable {f : α → ℕ}

theorem mem_sortByKey {l : List α} {a : α} : a ∈ sortByKey f l ↔ a ∈ l :=
  (perm_sortByKey f l).mem_iff

theorem eq_sortByKey {l l' : List α} (hinj : ∀ a ∈ l, ∀ b ∈ l, f a = f b → a = b)
    (hperm : l'.Perm l) (hsort : l'.Pairwise fun a b => f a ≤ f b) : l' = sortByKey f l := by
  refine List.Perm.eq_of_pairwise ?_ hsort (pairwise_sortByKey f l)
    (hperm.trans (perm_sortByKey f l).symm)
  intro a b ha hb hab hba
  exact hinj a (hperm.mem_iff.mp ha) b (mem_sortByKey.mp hb) (le_antisymm hab hba)

theorem sortByKey_eq_of_perm {l l' : List α} (hinj : ∀ a ∈ l, ∀ b ∈ l, f a = f b → a = b)
    (h : l'.Perm l) : sortByKey f l' = sortByKey f l :=
  eq_sortByKey hinj ((perm_sortByKey f l').trans h) (pairwise_sortByKey f l')

theorem insertionSort_map_eq {r : β → β → Prop} [DecidableRel r] [Std.Total r] [IsTrans β r]
    {g : α → β} {l : List α} (hanti : ∀ a b, r a b → r b a → a = b)
    (hr : ∀ a ∈ l, ∀ b ∈ l, f a ≤ f b → r (g a) (g b)) :
    (l.map g).insertionSort r = (sortByKey f l).map g := by
  refine List.Perm.eq_of_pairwise (fun a b _ _ => hanti a b) (pairwise_insertionSort r _) ?_
    ((perm_insertionSort r _).trans ((perm_sortByKey f l).map g).symm)
  rw [pairwise_map]
  refine (pairwise_sortByKey f l).imp_of_mem ?_
  intro a b ha hb hab
  exact hr a (mem_sortByKey.mp ha) b (mem_sortByKey.mp hb) hab

/-! ### Partial functions over a list -/

theorem mapM_map_eq_some {γ : Type*} {h : γ → α} {f : α → Option β} {g : γ → β} {l : List γ}
    (hf : ∀ c ∈ l, f (h c) = some (g c)) : (l.map h).mapM f = some (l.map g) := by
  induction l with
  | nil => rfl
  | cons c l ih =>
    rw [map_cons, mapM_cons, hf c mem_cons_self, ih fun d hd => hf d (mem_cons_of_mem c hd)]
    rfl

end Blocks
