import Emp.Lib.Transition
import Mathlib.Logic.Function.Basic

/-!
# Threads whose programs are made of atomic sections

A thread runs a program on a state that all threads share.  A program is a sequence of sections; a
section runs as a whole, at once, and the sections of different threads interleave in any order.
What a section cannot decide from the state (the outcome of a call into the environment) is given
to it, and a section that has to wait cannot run yet.

To reason about one thread at a time, each thread is given a *hand*: what it has taken out of the
shared state, and what it still owes.  A program is safe when each of its sections, whatever the
others have done before, keeps a given relation between the state and the hands, and changes no
hand but that of its thread.

## Main definitions

* `Program` — programs, with their sequencing as a monad.
* `Threads`, `Threads.step` — threads that run programs, one section or call at a time.
* `Program.Safe` — the sections of a program keep the relation; `Safe.bind` composes programs.
* `Threads.Safe.reach` — safe programs keep it in every run of any number of threads.
-/

/-- A program over the state `σ`: it returns, or goes on with what a section returns.  The section
depends on an answer of the environment, and has to wait where it is `none`. -/
inductive Program (σ L : Type) (α : Type) : Type 1
  | ret (a : α)
  | step {β : Type} (f : L → σ → Option (β × σ)) (k : β → Program σ L α)

namespace Program

variable {σ L α β γ : Type}

/-- `p`, then what `q` makes of its result. -/
def bind : Program σ L α → (α → Program σ L β) → Program σ L β
  | ret a, q => q a
  | step f k, q => step f fun b => (k b).bind q

instance : Monad (Program σ L) where
  pure := ret
  bind := bind

/-- A section as a program. -/
def atomic (f : L → σ → Option (α × σ)) : Program σ L α := step f ret

/-- A section that always runs. -/
def act (f : L → σ → α × σ) : Program σ L α := atomic fun l s => some (f l s)

/-- A section without result. -/
def modify (f : σ → σ) : Program σ L Unit := act fun _ s => ((), f s)

/-- A section that reads. -/
def read (f : σ → α) : Program σ L α := act fun _ s => (f s, s)

/-- An answer of the environment. -/
def ask (f : L → α) : Program σ L α := act fun l s => (f l, s)

/-- A part of a program that depends on a condition. -/
def whenever (c : Prop) [Decidable c] (p : Program σ L Unit) : Program σ L Unit :=
  if c then p else ret ()

@[simp] theorem pure_eq_ret (a : α) : (pure a : Program σ L α) = ret a := rfl

@[simp] theorem ret_bind (a : α) (q : α → Program σ L β) : (ret a >>= q) = q a := rfl

@[simp] theorem step_bind (f : L → σ → Option (γ × σ)) (k : γ → Program σ L α)
    (q : α → Program σ L β) : (step f k >>= q) = step f fun c => k c >>= q := rfl

end Program

/-- The shared state, and what is left of the program of each thread. -/
structure Threads (A σ L : Type) where
  state : σ
  prog : A → Program σ L Unit

/-- A thread that runs nothing is called, or a thread takes its next section. -/
inductive Turn (A C L : Type)
  | call (a : A) (c : C)
  | go (a : A) (answer : L)

namespace Threads

variable {A C σ L : Type} [DecidableEq A]

/-- A turn, with `body` the programs of the calls. -/
def step (body : A → C → Program σ L Unit) (t : Threads A σ L) :
    Turn A C L → Option (Threads A σ L)
  | .call a c =>
      match t.prog a with
      | .ret _ => some ⟨t.state, Function.update t.prog a (body a c)⟩
      | .step _ _ => none
  | .go a answer =>
      match t.prog a with
      | .ret _ => none
      | .step f k => (f answer t.state).map fun r => ⟨r.2, Function.update t.prog a (k r.1)⟩

/-- The thread runs nothing. -/
def Idle (t : Threads A σ L) (a : A) : Prop := t.prog a = .ret ()

end Threads

namespace Program

variable {A σ L H α β : Type} [DecidableEq A]

/-- Whatever the threads do between the sections of a program of `a` that starts with the hand `h`,
each section keeps `I`; a result `x` comes with a hand for which `Q x` holds. -/
def Safe (I : σ → (A → H) → Prop) (a : A) (Q : α → H → Prop) : Program σ L α → H → Prop
  | ret x, h => Q x h
  | step f k, h => ∀ l s hs x t, I s hs → hs a = h → f l s = some (x, t) →
      ∃ h', I t (Function.update hs a h') ∧ Safe I a Q (k x) h'

variable {I : σ → (A → H) → Prop} {a : A} {Q R : α → H → Prop} {h : H}

/-- What a section is to keep: from the hand `h` it gets to a hand for which `Q` holds of its
result. -/
def Keeps (I : σ → (A → H) → Prop) (a : A) (f : L → σ → Option (α × σ)) (h : H)
    (Q : α → H → Prop) : Prop :=
  ∀ l s hs x t, I s hs → hs a = h → f l s = some (x, t) →
    ∃ h', I t (Function.update hs a h') ∧ Q x h'

theorem safe_ret {x : α} (hx : Q x h) : Safe (L := L) I a Q (ret x) h := hx

theorem safe_atomic {f : L → σ → Option (α × σ)} (hf : Keeps I a f h Q) :
    Safe I a Q (atomic f) h := hf

/-- A weaker result. -/
theorem Safe.mono (hQR : ∀ x h, Q x h → R x h) {p : Program σ L α} (hp : Safe I a Q p h) :
    Safe I a R p h := by
  induction p generalizing h with
  | ret x => exact hQR x h hp
  | step f k ih =>
    intro l s hs x t hI ha hft
    obtain ⟨h', hI', hk⟩ := hp l s hs x t hI ha hft
    exact ⟨h', hI', ih x hk⟩

/-- Sequencing. -/
theorem Safe.bind {p : Program σ L α} {q : α → Program σ L β} {S : β → H → Prop}
    (hp : Safe I a Q p h) (hq : ∀ x h, Q x h → Safe I a S (q x) h) :
    Safe I a S (p >>= q) h := by
  induction p generalizing h with
  | ret x => exact hq x h hp
  | step f k ih =>
    intro l s hs x t hI ha hft
    obtain ⟨h', hI', hk⟩ := hp l s hs x t hI ha hft
    exact ⟨h', hI', ih x hk⟩

/-- A section that always runs. -/
theorem safe_act {f : L → σ → α × σ}
    (hf : ∀ l s hs, I s hs → hs a = h →
      ∃ h', I (f l s).2 (Function.update hs a h') ∧ Q (f l s).1 h') :
    Safe I a Q (act f) h := by
  intro l s hs x t hI ha hft
  have heq := Option.some.inj hft
  obtain ⟨h', hI', hQ⟩ := hf l s hs hI ha
  rw [heq] at hI' hQ
  exact ⟨h', hI', hQ⟩

/-- A section that changes nothing; what it reads may be anything that `I` allows. -/
theorem safe_read {f : σ → α} (hf : ∀ s hs, I s hs → hs a = h → Q (f s) h) :
    Safe (L := L) I a Q (read f) h := by
  refine safe_act fun _ s hs hI ha => ⟨h, ?_, hf s hs hI ha⟩
  rw [← ha, Function.update_eq_self]
  exact hI

theorem safe_ask {f : L → α} (hf : ∀ l, Q (f l) h) : Safe I a Q (ask f) h := by
  refine safe_act fun l s hs hI ha => ⟨h, ?_, hf l⟩
  rw [← ha, Function.update_eq_self]
  exact hI

theorem safe_whenever {c : Prop} [Decidable c] {p : Program σ L Unit} {Q : Unit → H → Prop}
    (hp : c → Safe I a Q p h) (hno : ¬ c → Q () h) : Safe I a Q (whenever c p) h := by
  rw [whenever]
  by_cases hc : c
  · rw [if_pos hc]
    exact hp hc
  · rw [if_neg hc]
    exact hno hc

end Program

namespace Threads

variable {A C σ L H : Type} [DecidableEq A]

/-- The relation holds for some hands with which the rest of each program is safe; a program that
has run leaves its thread with `empty`. -/
def Safe (I : σ → (A → H) → Prop) (empty : H) (t : Threads A σ L) : Prop :=
  ∃ hs : A → H, I t.state hs ∧
    ∀ a, Program.Safe I a (fun _ h => h = empty) (t.prog a) (hs a)

variable {I : σ → (A → H) → Prop} {empty : H} {body : A → C → Program σ L Unit}
  {t u : Threads A σ L} {turn : Turn A C L}

theorem Safe.step (ht : t.Safe I empty)
    (hbody : ∀ a c, Program.Safe I a (fun _ h => h = empty) (body a c) empty)
    (hstep : t.step body turn = some u) : u.Safe I empty := by
  obtain ⟨hs, hI, hprog⟩ := ht
  cases turn with
  | call a c =>
    simp only [Threads.step] at hstep
    have ha := hprog a
    cases hp : t.prog a with
    | step f k => simp [hp] at hstep
    | ret x =>
      simp only [hp, Option.some.injEq] at hstep
      rw [hp] at ha
      subst hstep
      refine ⟨hs, hI, fun b => ?_⟩
      dsimp only
      by_cases hb : b = a
      · subst hb
        have hempty : hs b = empty := ha
        rw [Function.update_self, hempty]
        exact hbody b c
      · rw [Function.update_of_ne hb]
        exact hprog b
  | go a answer =>
    simp only [Threads.step] at hstep
    have ha := hprog a
    cases hp : t.prog a with
    | ret x => simp [hp] at hstep
    | step f k =>
      simp only [hp, Option.map_eq_some_iff] at hstep
      obtain ⟨r, hf, hu⟩ := hstep
      rw [hp] at ha
      obtain ⟨h', hI', hk⟩ := ha answer t.state hs r.1 r.2 hI rfl hf
      subst hu
      refine ⟨Function.update hs a h', hI', fun b => ?_⟩
      dsimp only
      by_cases hb : b = a
      · subst hb
        rw [Function.update_self, Function.update_self]
        exact hk
      · rw [Function.update_of_ne hb, Function.update_of_ne hb]
        exact hprog b

/-- **The rule for threads.**  Where all programs are safe, the relation holds in every run. -/
theorem Safe.reach {init : Threads A σ L → Prop} (hinit : ∀ t, init t → t.Safe I empty)
    (hbody : ∀ a c, Program.Safe I a (fun _ h => h = empty) (body a c) empty)
    (h : Transition.Reach init (Threads.step body) t) : t.Safe I empty :=
  Transition.ReachWhen.invariant hinit (fun _ _ _ hs _ hst => hs.step hbody hst) h

end Threads
