import SystemsLabs.Lib.Runs
import Mathlib.Logic.Function.Basic
import Mathlib.Tactic.Common

/-!
# Threads over shared memory

Any number of threads take steps in any order. A step of a thread reads and writes the shared memory
and its own local state. `forall_of_runs` is the proof rule: every thread has an assertion about the
shared memory and its own state, which its own steps establish and the steps of others do not
disturb.
-/

namespace SystemsLabs.Lib

/-- The shared memory, and what each thread has of its own. -/
structure Threads (ι Sh L : Type*) where
  shared : Sh
  locals : ι → L

namespace Threads

variable {ι Sh L A : Type*} [DecidableEq ι] (exec : ι → Sh → L → A → Option (Sh × L))

/-- One thread takes a step. -/
def next (c : Threads ι Sh L) (e : ι × A) : Option (Threads ι Sh L) :=
  (exec e.1 c.shared (c.locals e.1) e.2).map fun r => ⟨r.1, Function.update c.locals e.1 r.2⟩

/-- The interleaving of the threads. -/
def Step (c : Threads ι Sh L) (e : ι × A) (c' : Threads ι Sh L) : Prop := c.next exec e = some c'

variable {exec} {c c' c₀ : Threads ι Sh L} {i : ι} {a : A} {es : List (ι × A)}
  {Cond : Threads ι Sh L → ι × A → Prop} {J : ι → Sh → L → Prop}

/-- What a step does. -/
theorem step_cases (h : c.Step exec (i, a) c') :
    ∃ l, exec i c.shared (c.locals i) a = some (c'.shared, l) ∧
      c'.locals = Function.update c.locals i l := by
  obtain ⟨⟨sh, l⟩, heq, rfl⟩ := Option.map_eq_some_iff.mp h
  exact ⟨l, heq, rfl⟩

/-- **Assertions without interference.** -/
theorem forall_of_runs
    (hown : ∀ c i a sh l, (∀ j, J j c.shared (c.locals j)) → Cond c (i, a) →
      exec i c.shared (c.locals i) a = some (sh, l) → J i sh l)
    (hother : ∀ c i a sh l j, j ≠ i → (∀ k, J k c.shared (c.locals k)) → Cond c (i, a) →
      exec i c.shared (c.locals i) a = some (sh, l) → J j sh (c.locals j))
    (h₀ : ∀ i, J i c₀.shared (c₀.locals i)) (h : Runs (Guarded Cond (Step exec)) c₀ es c) :
    ∀ i, J i c.shared (c.locals i) := by
  refine h.invariant (I := fun c => ∀ i, J i c.shared (c.locals i)) ?_ h₀
  rintro c ⟨i, a⟩ c' hc ⟨hcond, hstep⟩ j
  obtain ⟨l, heq, hlocals⟩ := step_cases hstep
  rw [hlocals]
  by_cases hji : j = i
  · subst hji
    rw [Function.update_self]
    exact hown c j a _ l hc hcond heq
  · rw [Function.update_of_ne hji]
    exact hother c i a _ l j hji hc hcond heq

end Threads

end SystemsLabs.Lib
