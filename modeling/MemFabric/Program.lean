/-
Programs that return a status.

A `Program` is a step on a state that returns a status, zero for success as in C.  The
combinators are the shapes of such code: stop at the first failure (`andThen`, `forEach`), clean
up whatever happened (`finish`), try something else (`orElse`), replace a code (`failWith`).

`Triple P p Q E` says that `p`, run where `P` holds, succeeds with `Q` or fails with `E`,
and there is one rule for each combinator.  `Keeps I p` is the case that `I` holds on every
path, and `Runs P p Q` the case that `p` cannot fail.
-/
import Mathlib

abbrev Program (σ ρ : Type*) := σ → ρ × σ

namespace Program

variable {σ ρ α : Type*} [Zero ρ]

def give (r : ρ) : Program σ ρ := fun s => (r, s)

def modify (f : σ → σ) : Program σ ρ := fun s => (0, f s)

def ignore (p : Program σ ρ) : Program σ ρ := fun s => (0, (p s).2)

section

variable [DecidableEq ρ]

/-- Run `q` if `p` succeeds. -/
def andThen (p q : Program σ ρ) : Program σ ρ := fun s =>
  if (p s).1 = 0 then q (p s).2 else p s

def forEach (f : α → Program σ ρ) : List α → Program σ ρ
  | [] => give 0
  | x :: xs => (f x).andThen (forEach f xs)

/-- Run `q` after `p` in any case; a failure of `q` goes before one of `p`. -/
def finish (p q : Program σ ρ) : Program σ ρ := fun s =>
  (if (q (p s).2).1 = 0 then (p s).1 else (q (p s).2).1, (q (p s).2).2)

theorem eq_zero_of_finish {p q : Program σ ρ} {s : σ} (h : (p.finish q s).1 = 0) :
    (p s).1 = 0 ∧ (q (p s).2).1 = 0 := by
  rw [finish] at h
  split at h
  · next hq => exact ⟨h, hq⟩
  · next hq => exact absurd h hq

/-- Run `q` if `p` fails. -/
def orElse (p q : Program σ ρ) : Program σ ρ := fun s =>
  if (p s).1 = 0 then p s else q (p s).2

/-- Every failure is reported as `r`. -/
def failWith (r : ρ) (p : Program σ ρ) : Program σ ρ := fun s =>
  (if (p s).1 = 0 then 0 else r, (p s).2)

end

/-! ### Triples -/

/-- Where `P` holds, `p` succeeds with `Q` or fails with `E`. -/
def Triple (P : σ → Prop) (p : Program σ ρ) (Q E : σ → Prop) : Prop :=
  ∀ s, P s → ((p s).1 = 0 → Q (p s).2) ∧ ((p s).1 ≠ 0 → E (p s).2)

/-- `I` holds after `p`, whether it fails or not. -/
abbrev Keeps (I : σ → Prop) (p : Program σ ρ) : Prop := Triple I p I I

/-- Where `P` holds, `p` succeeds. -/
def Runs (P : σ → Prop) (p : Program σ ρ) (Q : σ → Prop) : Prop := Triple P p Q fun _ => False

variable {P P' Q Q' R E E' F I : σ → Prop} {p q : Program σ ρ} {r : ρ}

theorem Triple.elim (h : Triple P p Q Q) {s : σ} (hs : P s) : Q (p s).2 := by
  by_cases hr : (p s).1 = 0
  · exact (h s hs).1 hr
  · exact (h s hs).2 hr

theorem Runs.apply (h : Runs P p Q) {s : σ} (hs : P s) : (p s).1 = 0 ∧ Q (p s).2 := by
  by_cases hr : (p s).1 = 0
  · exact ⟨hr, (h s hs).1 hr⟩
  · exact ((h s hs).2 hr).elim

namespace Triple

theorem conseq (h : Triple P p Q E) (hP : ∀ s, P' s → P s) (hQ : ∀ s, Q s → Q' s)
    (hE : ∀ s, E s → E' s) : Triple P' p Q' E' := by
  intro s hs
  obtain ⟨hok, hfail⟩ := h s (hP s hs)
  exact ⟨fun hr => hQ _ (hok hr), fun hr => hE _ (hfail hr)⟩

theorem pre (h : Triple P p Q E) (hP : ∀ s, P' s → P s) : Triple P' p Q E :=
  h.conseq hP (fun _ hs => hs) fun _ hs => hs

theorem give_zero (h : ∀ s, P s → Q s) : Triple P (give (0 : ρ)) Q E :=
  fun s hs => ⟨fun _ => h s hs, fun hr => absurd rfl hr⟩

theorem give (hr : r ≠ 0) (h : ∀ s, P s → E s) : Triple P (give r) Q E :=
  fun s hs => ⟨fun hr' => absurd hr' hr, fun _ => h s hs⟩

theorem modify {f : σ → σ} (h : ∀ s, P s → Q (f s)) :
    Triple P (Program.modify f : Program σ ρ) Q E :=
  fun s hs => ⟨fun _ => h s hs, fun hr => absurd rfl hr⟩

variable [DecidableEq ρ]

theorem andThen (hp : Triple P p R E) (hq : Triple R q Q E) : Triple P (p.andThen q) Q E := by
  intro s hs
  unfold Program.andThen
  by_cases hr : (p s).1 = 0
  · rw [if_pos hr]
    exact hq _ ((hp s hs).1 hr)
  · rw [if_neg hr]
    exact ⟨fun h => absurd h hr, fun _ => (hp s hs).2 hr⟩

theorem finish (hp : Triple P p R F) (hq : Triple R q Q E) (hq' : Triple F q E E) :
    Triple P (p.finish q) Q E := by
  intro s hs
  unfold Program.finish
  by_cases hr : (p s).1 = 0
  · have hq := hq _ ((hp s hs).1 hr)
    by_cases hl : (q (p s).2).1 = 0
    · rw [if_pos hl]
      exact ⟨fun _ => hq.1 hl, fun h => absurd hr h⟩
    · rw [if_neg hl]
      exact hq
  -- the failure of `p` is what counts, whatever `q` returns
  have hE : E (q (p s).2).2 := hq'.elim ((hp s hs).2 hr)
  by_cases hl : (q (p s).2).1 = 0
  · rw [if_pos hl]
    exact ⟨fun h => absurd h hr, fun _ => hE⟩
  · rw [if_neg hl]
    exact ⟨fun h => absurd h hl, fun _ => hE⟩

theorem orElse (hp : Triple P p Q F) (hq : Triple F q Q E) : Triple P (p.orElse q) Q E := by
  intro s hs
  unfold Program.orElse
  by_cases hr : (p s).1 = 0
  · rw [if_pos hr]
    exact ⟨(hp s hs).1, fun h => absurd hr h⟩
  · rw [if_neg hr]
    exact hq _ ((hp s hs).2 hr)

theorem failWith (hr : r ≠ 0) (hp : Triple P p Q E) : Triple P (p.failWith r) Q E := by
  intro s hs
  unfold Program.failWith
  by_cases h0 : (p s).1 = 0
  · rw [if_pos h0]
    exact ⟨fun _ => (hp s hs).1 h0, fun h => absurd rfl h⟩
  · rw [if_neg h0]
    exact ⟨fun h => absurd h hr, fun _ => (hp s hs).2 h0⟩

theorem forEach {f : α → Program σ ρ} {J : List α → σ → Prop} {xs : List α}
    (hstep : ∀ done x rest, xs = done ++ x :: rest → Triple (J done) (f x) (J (done ++ [x])) E) :
    Triple (J []) (forEach f xs) (J xs) E := by
  -- `todo` is the part of `xs` that is left
  have hloop : ∀ todo done, xs = done ++ todo →
      Triple (J done) (Program.forEach f todo) (J xs) E := by
    intro todo
    induction todo with
    | nil =>
      intro done hxs
      rw [List.append_nil] at hxs
      subst hxs
      exact give_zero fun _ hs => hs
    | cons x rest ih =>
      intro done hxs
      refine (hstep done x rest hxs).andThen (ih (done ++ [x]) ?_)
      rw [hxs, List.append_assoc, List.singleton_append]
  exact hloop xs [] rfl

theorem forEach_inv {f : α → Program σ ρ} {xs : List α} (hstep : ∀ x ∈ xs, Triple I (f x) I E) :
    Triple I (Program.forEach f xs) I E :=
  forEach (J := fun _ => I) fun done x _ hxs =>
    hstep x (hxs ▸ List.mem_append_right done List.mem_cons_self)

end Triple

end Program
