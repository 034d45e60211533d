import Mathlib.Logic.Relation
import Mathlib.Order.Basic

/-!
# Deterministic labelled transitions, runs and conditional invariants

A component is given by a partial step function `step : σ → α → Option σ`: the
action `a` is possible in `s` when `step s a` is `some`.  A run is a list of
actions.  Two notions of reachability are used throughout:

* every action that is possible may be taken;
* only the actions that meet a condition on the state before them are taken.

The second one is what a result of the form "in every run whose steps all meet
the condition" talks about.

## Main definitions

* `exec` — the state after a list of actions.
* `ReachWhen` — the states reached by steps that all meet a condition.
* `ReachWhen.invariant` — the invariant rule.
-/

namespace Transition

variable {σ α : Type*}

/-- Run a list of actions, stopping with `none` at the first impossible one. -/
def exec (step : σ → α → Option σ) : σ → List α → Option σ
  | s, [] => some s
  | s, a :: as => (step s a).bind fun s' => exec step s' as

/-- The states reached from `init` by steps `s → s'` under `a` that all satisfy
the condition `ok s a` on the state before the step. -/
inductive ReachWhen (init : σ → Prop) (step : σ → α → Option σ) (ok : σ → α → Prop) : σ → Prop
  | start {s : σ} : init s → ReachWhen init step ok s
  | next {s s' : σ} {a : α} :
      ReachWhen init step ok s → ok s a → step s a = some s' → ReachWhen init step ok s'

/-- The states reached by any steps at all. -/
abbrev Reach (init : σ → Prop) (step : σ → α → Option σ) : σ → Prop :=
  ReachWhen init step fun _ _ => True

variable {init : σ → Prop} {step : σ → α → Option σ} {ok : σ → α → Prop}

/-- A guarded step was possible, and is the one taken. -/
theorem of_guard {p : Prop} [Decidable p] {u t : σ}
    (h : (if p then some u else none) = some t) : p ∧ u = t := by
  rw [Option.ite_none_right_eq_some] at h
  exact ⟨h.1, Option.some.inj h.2⟩

@[simp] theorem exec_nil (s : σ) : exec step s [] = some s := rfl

@[simp] theorem exec_cons (s : σ) (a : α) (as : List α) :
    exec step s (a :: as) = (step s a).bind fun s' => exec step s' as := rfl

theorem exec_append (s : σ) (as bs : List α) :
    exec step s (as ++ bs) = (exec step s as).bind fun s' => exec step s' bs := by
  induction as generalizing s with
  | nil => simp
  | cons a as ih =>
      cases h : step s a with
      | none => simp [h]
      | some s' => simp [h, ih]

/-- **The invariant rule.**  What holds initially, and is preserved by every step
that meets the condition, holds in every state such steps reach. -/
theorem ReachWhen.invariant {I : σ → Prop} (hinit : ∀ s, init s → I s)
    (hstep : ∀ s a s', I s → ok s a → step s a = some s' → I s')
    {s : σ} (h : ReachWhen init step ok s) : I s := by
  induction h with
  | start h => exact hinit _ h
  | next _ hok hs ih => exact hstep _ _ _ ih hok hs

/-- A stronger condition reaches fewer states. -/
theorem ReachWhen.mono {ok' : σ → α → Prop} (himp : ∀ s a, ok s a → ok' s a)
    {s : σ} (h : ReachWhen init step ok s) : ReachWhen init step ok' s := by
  induction h with
  | start h => exact .start h
  | next _ hok hs ih => exact .next ih (himp _ _ hok) hs

theorem ReachWhen.reach {s : σ} (h : ReachWhen init step ok s) : Reach init step s :=
  h.mono fun _ _ _ => trivial

/-- Every action of a list meets the condition when its turn comes. -/
def Allowed (step : σ → α → Option σ) (ok : σ → α → Prop) : σ → List α → Prop
  | _, [] => True
  | s, a :: as => ok s a ∧ match step s a with
    | some s' => Allowed step ok s' as
    | none => True

/-- A run of such actions reaches its last state. -/
theorem ReachWhen.exec {s s' : σ} {as : List α} (h : ReachWhen init step ok s)
    (hok : Allowed step ok s as) (he : exec step s as = some s') : ReachWhen init step ok s' := by
  induction as generalizing s with
  | nil =>
      simp only [exec_nil, Option.some.injEq] at he
      exact he ▸ h
  | cons a as ih =>
      cases hs : step s a with
      | none => simp [hs] at he
      | some t =>
          simp only [Allowed, hs] at hok
          simp only [exec_cons, hs, Option.bind_some] at he
          exact ih (.next h hok.1 hs) hok.2 he

/-- A run from a reached state reaches its last state. -/
theorem Reach.exec {s s' : σ} {as : List α} (h : Reach init step s)
    (he : exec step s as = some s') : Reach init step s' := by
  induction as generalizing s with
  | nil =>
      simp only [exec_nil, Option.some.injEq] at he
      exact he ▸ h
  | cons a as ih =>
      cases hs : step s a with
      | none => simp [hs] at he
      | some t =>
          simp only [exec_cons, hs, Option.bind_some] at he
          exact ih (.next h trivial hs) he

end Transition
