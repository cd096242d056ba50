/-
Transition systems with a partial step function.

A `TransitionSystem` has a start state and a step function that is undefined where a step is not
enabled; what a step leaves open (a choice, a message, a clock reading) is part of its label.

* `TransitionSystem.run` — perform a list of steps;
* `TransitionSystem.ReachableBy ok` — the states reached by steps that all meet `ok` in the state
  they are taken in; `Reachable` puts no condition.

`ReachableBy.invariant` is the induction rule of every safety proof; `ReachableBy.run` turns an
evaluated run into a reachable state, and `reachableBy_of_run_restrict` one in which `ok` is
evaluated as well.
-/
import Mathlib

/-- A start state and a partial step function. -/
structure TransitionSystem (σ α : Type*) where
  start : σ
  next : σ → α → Option σ

/-- A step that is taken under a condition. -/
theorem of_guard {σ : Type*} {p : Prop} [Decidable p] {s s' : σ}
    (h : (if p then some s else none) = some s') : p ∧ s = s' := by
  rwa [Option.ite_none_right_eq_some, Option.some_inj] at h

namespace TransitionSystem

open Option

variable {σ α : Type*} {T : TransitionSystem σ α}

/-- Perform a list of steps, failing at the first one that is not enabled. -/
def run (T : TransitionSystem σ α) : σ → List α → Option σ
  | s, [] => some s
  | s, a :: as => (T.next s a).bind fun s' => T.run s' as

@[simp] theorem run_nil (s : σ) : T.run s [] = some s := rfl

theorem run_cons {s s' : σ} {a : α} (h : T.next s a = some s') (as : List α) :
    T.run s (a :: as) = T.run s' as := by
  rw [run, h, bind_some]

/-- States reached by steps that all meet `ok` where they are taken. -/
inductive ReachableBy (T : TransitionSystem σ α) (ok : σ → α → Prop) : σ → Prop
  | start : ReachableBy T ok T.start
  | next {s s' : σ} {a : α} : ReachableBy T ok s → ok s a → T.next s a = some s' →
      ReachableBy T ok s'

def Reachable (T : TransitionSystem σ α) : σ → Prop := T.ReachableBy fun _ _ => True

variable {ok : σ → α → Prop} {s : σ}

/-- The invariant rule: what holds at the start and is kept by every step that
meets `ok` holds wherever such steps lead. -/
theorem ReachableBy.invariant {I : σ → Prop} (h0 : I T.start)
    (hstep : ∀ {s s' : σ} {a : α}, I s → ok s a → T.next s a = some s' → I s')
    {s : σ} (h : T.ReachableBy ok s) : I s := by
  induction h with
  | start => exact h0
  | next _ hok hn ih => exact hstep ih hok hn

theorem ReachableBy.mono {ok ok' : σ → α → Prop} (hok : ∀ s a, ok s a → ok' s a)
    (h : T.ReachableBy ok s) : T.ReachableBy ok' s := by
  induction h with
  | start => exact .start
  | next _ ha hn ih => exact ih.next (hok _ _ ha) hn

theorem ReachableBy.reachable (h : T.ReachableBy ok s) : T.Reachable s :=
  h.mono fun _ _ _ => trivial

variable {as : List α}

theorem ReachableBy.run {s s' : σ} (h : T.ReachableBy ok s) (hok : ∀ a ∈ as, ∀ s, ok s a)
    (hr : T.run s as = some s') : T.ReachableBy ok s' := by
  induction as generalizing s with
  | nil =>
    rw [run_nil, some_inj] at hr
    exact hr ▸ h
  | cons a as ih =>
    rw [TransitionSystem.run, bind_eq_some_iff] at hr
    obtain ⟨s₁, h₁, h₂⟩ := hr
    exact ih (h.next (hok a List.mem_cons_self s) h₁)
      (fun b hb => hok b (List.mem_cons_of_mem a hb)) h₂

theorem reachable_of_run (h : T.run T.start as = some s) : T.Reachable s :=
  ReachableBy.run .start (fun _ _ _ => trivial) h

variable {β : Type*}

theorem exists_of_run {f : σ → β} {b : β} (h : (T.run T.start as).map f = some b) :
    ∃ s, T.Reachable s ∧ f s = b := by
  obtain ⟨s, hs, hb⟩ := map_eq_some_iff.mp h
  exact ⟨s, reachable_of_run hs, hb⟩

variable {p : σ → Prop}

theorem exists_run (f : σ → β) (b : β) (h : (T.run s as).map f = some b)
    (hp : ∀ t, T.run s as = some t → f t = b → p t) : ∃ t, T.run s as = some t ∧ p t := by
  obtain ⟨t, ht, hb⟩ := map_eq_some_iff.mp h
  exact ⟨t, ht, hp t ht hb⟩

theorem exists_reachable (as : List α) (f : σ → β) (b : β) (h : (T.run T.start as).map f = some b)
    (hp : ∀ s, T.Reachable s → f s = b → p s) : ∃ s, T.Reachable s ∧ p s := by
  obtain ⟨s, hs, hb⟩ := exists_of_run h
  exact ⟨s, hs, hp s hs hb⟩

/-- The system in which only steps that meet `ok` are enabled. -/
def restrict (T : TransitionSystem σ α) (ok : σ → α → Prop) [∀ s a, Decidable (ok s a)] :
    TransitionSystem σ α where
  start := T.start
  next s a := if ok s a then T.next s a else none

variable [∀ s a, Decidable (ok s a)]

theorem reachableBy_of_run_restrict (h : (T.restrict ok).run T.start as = some s) :
    T.ReachableBy ok s := by
  have hreach : (T.restrict ok).Reachable s := reachable_of_run h
  have hstart : T.ReachableBy ok (T.restrict ok).start := .start
  refine hreach.invariant hstart ?_
  intro s s' a hs _ hnext
  obtain ⟨hok, hnext⟩ := ite_none_right_eq_some.mp hnext
  exact hs.next hok hnext

theorem exists_of_run_restrict {f : σ → β} {b : β}
    (h : ((T.restrict ok).run T.start as).map f = some b) : ∃ s, T.ReachableBy ok s ∧ f s = b := by
  obtain ⟨s, hs, hb⟩ := map_eq_some_iff.mp h
  exact ⟨s, reachableBy_of_run_restrict hs, hb⟩

theorem exists_reachableBy (as : List α) (f : σ → β) (b : β)
    (h : ((T.restrict ok).run T.start as).map f = some b)
    (hp : ∀ s, T.ReachableBy ok s → f s = b → p s) : ∃ s, T.ReachableBy ok s ∧ p s := by
  obtain ⟨s, hs, hb⟩ := exists_of_run_restrict h
  exact ⟨s, hs, hp s hs hb⟩

end TransitionSystem
