import SystemsLabs.Shlab.Tsh

/-!
# When `sigchld_handler` returns

The loop of `sigchld_handler` ends when `waitpid` fails or returns 0, and the handler compares
`errno` with `ECHILD` in both cases. A call that returns 0 leaves `errno` as it was when the signal
arrived: `HandlerRun.returned_iff` says for which runs the comparison succeeds.

**Assumptions.** Those of `Shlab.Tsh`. `errno` is anything when the shell starts, and any call of
the main thread may set it.
-/

namespace SystemsLabs.Shlab

open Lib

namespace Shell

variable {s s₁ t u : Shell} {es : List Event}

/-- A run of `sigchld_handler`: it starts in `s`, takes the steps `es`, among them those of the
children, and compares `errno` in `u`. -/
structure HandlerRun (s : Shell) (es : List Event) (u t : Shell) : Prop where
  run : ∃ s₁, s.Step (.handler .deliver) s₁ ∧ Runs Step s₁ es u
  loop : Event.handler .checkErrno ∉ es
  check : u.Step (.handler .checkErrno) t

/-- The handler has returned to what it interrupted. -/
def Returned (t : Shell) : Prop := t.handler = none ∧ t.exited = false

/-- A call of `waitpid` has failed, but not for the lack of children. -/
def WaitpidFailed (es : List Event) : Prop :=
  ∃ e, e ≠ echild ∧ Event.handler (.waitpidError e) ∈ es

/-- What holds after the steps `es` of a run that started with `errno`. -/
inductive InHandler (errno : ℤ) (es : List Event) (u : Shell) : Prop
  /-- The loop goes on: no call of `waitpid` has failed. -/
  | loop (handler : u.handler = some .waitpid ∨ ∃ pid, u.handler = some (.deletejob pid))
      (errno_eq : u.errno = errno) (noError : ∀ e, Event.handler (.waitpidError e) ∉ es)
  /-- `waitpid` has returned 0. -/
  | none (handler : u.handler = some .checkErrno) (errno_eq : u.errno = errno)
      (noError : ∀ e, Event.handler (.waitpidError e) ∉ es) (children : u.children ≠ [])
  /-- `waitpid` has failed. -/
  | error (handler : u.handler = some .checkErrno)
      (error : Event.handler (.waitpidError u.errno) ∈ es)
      (children : u.errno = echild → u.children = [])
      (only : ∀ e, Event.handler (.waitpidError e) ∈ es → e = u.errno)

namespace InHandler

variable {errno : ℤ}

/-- Before the comparison no call of `waitpid` has failed. -/
theorem noError (h : InHandler errno es u) (hne : u.handler ≠ some .checkErrno) :
    u.errno = errno ∧ ∀ e, Event.handler (.waitpidError e) ∉ es := by
  cases h with
  | loop _ herrno hno => exact ⟨herrno, hno⟩
  | none hcheck => exact absurd hcheck hne
  | error hcheck => exact absurd hcheck hne

/-- Other steps than a failing `waitpid` do not add to the failures. -/
theorem not_mem_concat {a : Event} (h : ∀ e, Event.handler (.waitpidError e) ∉ es)
    (ha : ∀ e, a ≠ .handler (.waitpidError e)) (e : ℤ) :
    Event.handler (.waitpidError e) ∉ es ++ [a] := by
  intro hmem
  rcases List.mem_append.mp hmem with hmem | hmem
  · exact h e hmem
  · exact ha e (List.mem_singleton.mp hmem).symm

/-- A step of the handler. -/
theorem handlerStep {e : HandlerEvent} (h : InHandler errno es u) (hs : u.handlerStep e = some t)
    (hcheck : e ≠ .checkErrno) : InHandler errno (es ++ [.handler e]) t := by
  cases handlerStep_cases hs with
  | deliver hnone => cases h <;> simp_all
  | @reap pid hwait | @stopped pid hwait =>
    obtain ⟨herrno, hno⟩ := h.noError (by simp [hwait])
    exact .loop (.inr ⟨pid, rfl⟩) herrno (not_mem_concat hno (by simp))
  | waitpidNone hwait hchildren =>
    obtain ⟨herrno, hno⟩ := h.noError (by simp [hwait])
    exact .none rfl herrno (not_mem_concat hno (by simp)) hchildren
  | waitpidError hwait hchildren =>
    obtain ⟨-, hno⟩ := h.noError (by simp [hwait])
    refine .error rfl (by simp) hchildren fun e' he' => ?_
    rcases List.mem_append.mp he' with hmem | hmem
    · exact absurd hmem (hno e')
    · simpa using hmem
  | deletejob hdel =>
    obtain ⟨herrno, hno⟩ := h.noError (by simp [hdel])
    exact .loop (.inl rfl) herrno (not_mem_concat hno (by simp))
  | done | exit => exact absurd rfl hcheck

/-- A child changes its state. -/
theorem setChild {e : KernelEvent} (h : InHandler errno es u) (pid : ℤ) (state : ChildState) :
    InHandler errno (es ++ [.kernel e]) (u.setChild pid state) := by
  cases h with
  | loop hloop herrno hno => exact .loop hloop herrno (not_mem_concat hno (by simp))
  | none hcheck herrno hno hchildren =>
    exact .none hcheck herrno (not_mem_concat hno (by simp)) (by simpa [Shell.setChild])
  | error hcheck herror hchildren honly =>
    refine .error hcheck (List.mem_append_left _ herror) (fun he => ?_) fun e' he' => ?_
    · simp [Shell.setChild, hchildren he]
    · rcases List.mem_append.mp he' with hmem | hmem
      · exact honly e' hmem
      · simp at hmem

/-- A step of the handler, or of the kernel within it. -/
theorem step {a : Event} (h : InHandler errno es u) (hs : u.Step a t)
    (hcheck : a ≠ .handler .checkErrno) : InHandler errno (es ++ [a]) t := by
  cases a with
  | main e =>
    -- the main thread stands still while the handler runs
    have hnone := (step_main hs).1
    cases h <;> simp_all
  | handler e => exact h.handlerStep (step_handler hs) fun he => hcheck (by rw [he])
  | kernel e =>
    obtain ⟨pid, state, rfl⟩ := step_kernel hs
    exact h.setChild pid state

end InHandler

/-- The invariant holds until the handler looks at `errno`. -/
theorem HandlerRun.inHandler (h : HandlerRun s es u t) : InHandler s.errno es u := by
  obtain ⟨⟨s₁, hdeliver, hrun⟩, hloop, -⟩ := h
  have hstart : InHandler s.errno [] s₁ := by
    cases handlerStep_cases (step_handler hdeliver) with
    | deliver => exact .loop (.inl rfl) rfl fun e he => absurd he List.not_mem_nil
  refine hrun.invariant_labels
    (I := fun es u => .handler .checkErrno ∉ es → InHandler s.errno es u) ?_ (fun _ => hstart) hloop
  intro es u a t ih hstep hloop
  rw [List.mem_append, List.mem_singleton, not_or] at hloop
  exact (ih hloop.1).step hstep (Ne.symm hloop.2)

/-- **When the handler returns.** A run of `sigchld_handler`, in any state and with any steps of the
children, returns unless a call of `waitpid` failed for another reason than the lack of children, if
and only if such a call failed, no child is left, or `errno` was `ECHILD` when the signal arrived.
-/
theorem HandlerRun.returned_iff (h : HandlerRun s es u t) :
    (Returned t ∨ WaitpidFailed es) ↔
      (u.children = [] ∨ s.errno = echild ∨ WaitpidFailed es) := by
  have hret : Returned t ↔ u.errno = echild := by
    cases handlerStep_cases (step_handler h.check) with
    | done _ herrno => exact iff_of_true ⟨rfl, h.check.not_exited⟩ herrno
    | exit _ herrno => exact iff_of_false (fun hr => Bool.false_ne_true hr.2.symm) herrno
  have hcheck : u.handler = some .checkErrno := by
    cases handlerStep_cases (step_handler h.check) with
    | done hcheck | exit hcheck => exact hcheck
  rw [hret]
  cases h.inHandler with
  | loop hloop =>
    rcases hloop with hloop | ⟨pid, hloop⟩
    · cases hcheck.symm.trans hloop
    · cases hcheck.symm.trans hloop
  | none _ herrno _ hchildren => simp [herrno, hchildren]
  | error _ herror hchildren =>
    by_cases he : u.errno = echild
    · exact iff_of_true (.inl he) (.inl (hchildren he))
    · have hfailed : WaitpidFailed es := ⟨u.errno, he, herror⟩
      exact iff_of_true (.inr hfailed) (.inr (.inr hfailed))

/-- The states in which a run of the handler starts, compares `errno` and ends, after the steps
`es₀` of the shell. -/
def computeHandlerRun (errno : ℤ) (es₀ es : List Event) : Option (Shell × Shell × Shell) := do
  let s ← runIf (fun _ _ => True) next (init errno) es₀
  let s₁ ← s.next (.handler .deliver)
  let u ← runIf (fun _ _ => True) next s₁ es
  let t ← u.next (.handler .checkErrno)
  return (s, u, t)

/-- A run that is computed is a run. -/
theorem exists_handlerRun {β : Type*} (obs : Shell × Shell × Shell → β) (v : β) {errno : ℤ}
    {es₀ : List Event} (es : List Event) (hloop : Event.handler .checkErrno ∉ es)
    (h : (computeHandlerRun errno es₀ es).map obs = some v) :
    ∃ s u t, Runs Step (init errno) es₀ s ∧ HandlerRun s es u t ∧ obs (s, u, t) = v := by
  obtain ⟨⟨s, u, t⟩, heq, hobs⟩ := Option.map_eq_some_iff.mp h
  unfold computeHandlerRun at heq
  simp only [Option.bind_eq_bind, Option.bind_eq_some_iff, Option.pure_def, Option.some.injEq,
    Prod.mk.injEq] at heq
  obtain ⟨_, hs, s₁, hdeliver, _, hu, _, ht, rfl, rfl, rfl⟩ := heq
  have hrun₀ := (runs_of_runIf Step (fun _ _ _ h => h) hs).of_guarded
  have hrun := (runs_of_runIf Step (fun _ _ _ h => h) hu).of_guarded
  exact ⟨_, _, _, hrun₀, ⟨⟨s₁, hdeliver, hrun⟩, hloop, ht⟩, hobs⟩

/-- A command is started in the background. -/
def startJob (pid : ℤ) : List Event :=
  [.main (.read ⟨some "/bin/true", true, "/bin/true &"⟩), .main .builtinCmd, .main (.fork pid),
    .main .addjob, .main .unblock, .main .report]

/-- The only child terminates, and the loop ends with `ECHILD`. -/
theorem HandlerRun.returned_iff_example : ∃ s es u t,
    HandlerRun s es u t ∧ s.errno = 0 ∧ u.children.length = 0 ∧
      (Returned t ∨ WaitpidFailed es) := by
  obtain ⟨s, u, t, -, hrun, hobs⟩ := exists_handlerRun
    (fun r => (r.1.errno, r.2.1.children.length)) (0, 0)
    [.handler (.waitpid 100), .handler .deletejob, .handler (.waitpidError echild)] (by simp)
    (show (computeHandlerRun 0 (startJob 100 ++ [.kernel (.terminate 100)])
      [.handler (.waitpid 100), .handler .deletejob, .handler (.waitpidError echild)]).map
      (fun r => (r.1.errno, r.2.1.children.length)) = some (0, 0) by decide +kernel)
  obtain ⟨herrno, hchildren⟩ := Prod.mk.inj hobs
  exact ⟨s, _, u, t, hrun, herrno, hchildren,
    hrun.returned_iff.mpr (.inl (List.length_eq_zero_iff.mp hchildren))⟩

/-- One of two children terminates: the last call of `waitpid` returns 0, and the shell exits. -/
theorem exists_not_returned : ∃ es₀ s es u t, Runs Step (init 0) es₀ s ∧ HandlerRun s es u t ∧
    es.getLast? = some (.handler .waitpidNone) ∧ ¬ WaitpidFailed es ∧ ¬ Returned t := by
  obtain ⟨s, u, t, hrun₀, hrun, hobs⟩ := exists_handlerRun (fun r => r.2.2.exited) true
    [.handler (.waitpid 100), .handler .deletejob, .handler .waitpidNone] (by simp)
    (show (computeHandlerRun 0
      (startJob 100 ++ startJob 101 ++ [.kernel (.terminate 100)])
      [.handler (.waitpid 100), .handler .deletejob, .handler .waitpidNone]).map
      (fun r => r.2.2.exited) = some true by decide +kernel)
  refine ⟨_, s, _, u, t, hrun₀, hrun, rfl, by simp [WaitpidFailed], fun hret => ?_⟩
  exact Bool.false_ne_true (hret.2.symm.trans hobs)

end Shell

end SystemsLabs.Shlab
