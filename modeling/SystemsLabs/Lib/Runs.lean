import Mathlib.Data.List.Basic

/-!
# Finite runs of a labelled transition relation

* `Runs Step s as t` — the labels `as`, taken in order, lead from `s` to `t`.
* `Guarded Cond Step` — the steps of `Step` whose label meets `Cond` in the state before the
  step. A run of `Guarded Cond Step` is a run of `Step` *all of whose steps meet the condition*.
* `Runs.invariant` — the one induction over runs: an invariant of the first state that every
  step keeps holds at the end of every run. `Runs.invariant_labels` — the same for a relation
  between the labels so far and the state.
* `runIf` — a run computed with a step function, as long as the steps meet a condition.
* `WithHistory Step observe` — the steps of `Step`, with a variable that records what has happened.
-/

namespace SystemsLabs.Lib

variable {σ α : Type*}

/-- A finite run: the labels `as`, in order, take the first state to the last. -/
inductive Runs (Step : σ → α → σ → Prop) : σ → List α → σ → Prop
  | nil (s : σ) : Runs Step s [] s
  | snoc {s t u : σ} {as : List α} {a : α} :
      Runs Step s as t → Step t a u → Runs Step s (as ++ [a]) u

/-- The steps whose label meets `Cond` in the state before the step. -/
def Guarded (Cond : σ → α → Prop) (Step : σ → α → σ → Prop) (s : σ) (a : α) (t : σ) : Prop :=
  Cond s a ∧ Step s a t

namespace Runs

variable {Step Step' : σ → α → σ → Prop} {Cond : σ → α → Prop} {s t u : σ} {as bs : List α} {a : α}

/-- A single step is a run. -/
theorem single (h : Step s a t) : Runs Step s [a] t := by
  have := Runs.snoc (Runs.nil s) h
  simpa using this

/-- Runs compose. -/
theorem append (h : Runs Step s as t) (h' : Runs Step t bs u) : Runs Step s (as ++ bs) u := by
  induction h' with
  | nil => simpa using h
  | snoc _ hstep ih =>
      rw [← List.append_assoc]
      exact ih.snoc hstep

/-- A first step in front of a run. -/
theorem cons (h : Step s a t) (h' : Runs Step t as u) : Runs Step s (a :: as) u :=
  (single h).append h'

/-- A run of one relation is a run of every larger one. -/
theorem mono (himp : ∀ s a t, Step s a t → Step' s a t) (h : Runs Step s as t) :
    Runs Step' s as t := by
  induction h with
  | nil => exact .nil _
  | snoc _ hstep ih => exact ih.snoc (himp _ _ _ hstep)

/-- A run whose steps all meet a condition is a run. -/
theorem of_guarded (h : Runs (Guarded Cond Step) s as t) : Runs Step s as t :=
  h.mono fun _ _ _ hg => hg.2

/-- **The invariant rule.** What holds at the start and is kept by every step holds at the end of
every run. -/
theorem invariant {I : σ → Prop} (hstep : ∀ s a t, I s → Step s a t → I t) (h0 : I s)
    (h : Runs Step s as t) : I t := by
  induction h with
  | nil => exact h0
  | snoc _ hlast ih => exact hstep _ _ _ ih hlast

/-- **The invariant rule with the labels so far.** -/
theorem invariant_labels {I : List α → σ → Prop}
    (hstep : ∀ as s a t, I as s → Step s a t → I (as ++ [a]) t) (h0 : I [] s)
    (h : Runs Step s as t) : I as t := by
  induction h with
  | nil => exact h0
  | snoc _ hlast ih => exact hstep _ _ _ _ ih hlast

/-- If the steps are deterministic, so are the runs. -/
theorem unique {t' : σ} (hdet : ∀ s a t t', Step s a t → Step s a t' → t = t')
    (h : Runs Step s as t) (h' : Runs Step s as t') : t = t' := by
  induction h generalizing t' with
  | nil =>
    generalize hnil : ([] : List α) = as at h'
    cases h' with
    | nil => rfl
    | snoc _ _ => exact absurd hnil.symm (by simp)
  | @snoc t u as a _ hlast ih =>
    generalize hcons : as ++ [a] = bs at h'
    cases h' with
    | nil => exact absurd hcons (by simp)
    | snoc hrun hlast' =>
      obtain ⟨rfl, hone⟩ := List.append_inj' hcons rfl
      obtain rfl := List.singleton_inj.mp hone
      obtain rfl := ih hrun
      exact hdet _ _ _ _ hlast hlast'

end Runs

/-! ## Computed runs -/

section runIf

variable (Cond : σ → α → Prop) [∀ s, DecidablePred (Cond s)] (next : σ → α → Option σ)

/-- Take the labels in order as long as they meet the condition. -/
def runIf (s : σ) : List α → Option σ
  | [] => some s
  | a :: as => if Cond s a then (next s a).bind fun t => runIf t as else none

variable {Cond next} (Step : σ → α → σ → Prop) {s t : σ} {as : List α}

/-- What `runIf` computes is a run whose steps all meet the condition. -/
theorem runs_of_runIf (hnext : ∀ s a t, next s a = some t → Step s a t)
    (h : runIf Cond next s as = some t) : Runs (Guarded Cond Step) s as t := by
  induction as generalizing s with
  | nil =>
      obtain rfl := Option.some_inj.mp h
      exact .nil s
  | cons a as ih =>
      unfold runIf at h
      split_ifs at h with hcond
      obtain ⟨u, hu, hrest⟩ := Option.bind_eq_some_iff.mp h
      exact .cons ⟨hcond, hnext _ _ _ hu⟩ (ih hrest)

/-- A computed run, with what is observed at its end. -/
theorem exists_runs_of_runIf {β : Type*} (obs : σ → β) (v : β)
    (hnext : ∀ s a t, next s a = some t → Step s a t)
    (h : (runIf Cond next s as).map obs = some v) :
    ∃ t, Runs (Guarded Cond Step) s as t ∧ obs t = v := by
  obtain ⟨t, hrun, hobs⟩ := Option.map_eq_some_iff.mp h
  exact ⟨t, runs_of_runIf Step hnext hrun, hobs⟩

end runIf

/-! ## History variables -/

section History

variable {η : Type*} (observe : σ → α → σ → η → η)

/-- The steps of `Step` with a history variable, which `observe` updates. -/
def WithHistory (Step : σ → α → σ → Prop) (p : σ × η) (a : α) (q : σ × η) : Prop :=
  Step p.1 a q.1 ∧ q.2 = observe p.1 a q.1 p.2

/-- The step function with a history variable. -/
def nextWithHistory (next : σ → α → Option σ) (p : σ × η) (a : α) : Option (σ × η) :=
  (next p.1 a).map fun t => (t, observe p.1 a t p.2)

variable {observe} {Step : σ → α → σ → Prop} {Cond : σ → α → Prop} {next : σ → α → Option σ}
  {as : List α}

/-- What `nextWithHistory` computes is a step. -/
theorem withHistory_of_next (hnext : ∀ s a t, next s a = some t → Step s a t) (p : σ × η) (a : α)
    (q : σ × η) (h : nextWithHistory observe next p a = some q) :
    WithHistory observe Step p a q := by
  obtain ⟨t, ht, rfl⟩ := Option.map_eq_some_iff.mp h
  exact ⟨hnext _ _ _ ht, rfl⟩

variable (observe) in
/-- The history variable does not restrict the steps: every run has its history. -/
theorem Runs.exists_withHistory {s t : σ} (h : Runs (Guarded Cond Step) s as t) (x : η) :
    ∃ y, Runs (Guarded (fun p a => Cond p.1 a) (WithHistory observe Step)) (s, x) as (t, y) := by
  induction h with
  | nil => exact ⟨x, .nil _⟩
  | @snoc t u _ a _ hstep ih =>
      obtain ⟨y, hrun⟩ := ih
      have hlast : WithHistory observe Step (t, y) a (u, observe t a u y) := ⟨hstep.2, rfl⟩
      exact ⟨_, hrun.snoc ⟨hstep.1, hlast⟩⟩

end History

end SystemsLabs.Lib
