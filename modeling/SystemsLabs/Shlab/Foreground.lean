import SystemsLabs.Shlab.JobTable

/-!
# Does `eval` wait for foreground commands?

`waitfg` polls the job table for the child, so it waits as long as the child has a slot in state
`FG`. A history variable holds the foreground child that `waitpid` has not reported yet
(`Shell.await`): it is empty whenever `eval` has returned, in the runs in which `addjob` finds a
free slot for every foreground command. With a full table `eval` can return at once
(`Shell.exists_runs_of_full`).

**Assumptions.** Those of `Shlab.Tsh`. `sleep` returns at any time.
-/

namespace SystemsLabs.Shlab

open Lib

namespace Shell

variable {s t : Shell} {w w' : Option ℤ} {es : List Event} {pid : ℤ}

/-- The child of a foreground command, from `fork` until `waitpid` reports it. -/
def await (s : Shell) (e : Event) (_ : Shell) (w : Option ℤ) : Option ℤ :=
  match e with
  | .main (.fork pid) =>
    match s.main with
    | .fork cmd => if cmd.bg then none else some pid
    | _ => w
  | .handler (.waitpid pid) => if w = some pid then none else w
  | _ => w

/-- The steps of the shell with the awaited child. -/
abbrev StepAwait : Shell × Option ℤ → Event → Shell × Option ℤ → Prop := WithHistory await Step

/-- When `eval` has returned, `waitpid` has reported the child that it forked for a foreground
command. -/
def Waited (s : Shell) (w : Option ℤ) : Prop := s.main = .prompt → w = none

/-- `addjob` has a slot for a foreground command. -/
def HasSlot (s : Shell) : Event → Prop
  | .main .addjob =>
    match s.main with
    | .addjob cmd _ => cmd.bg = false → ∃ i, (s.jobs.jobs i).pid = 0
    | _ => True
  | _ => True

instance (s : Shell) : DecidablePred s.HasSlot
  | .main .addjob => by unfold HasSlot; dsimp only; split <;> infer_instance
  | .main (.read _) | .main .eof | .main .builtinCmd | .main (.fork _) | .main .forkError
  | .main .unblock | .main .fgpid | .main .report | .main (.errno _) => isTrue trivial
  | .handler _ | .kernel _ => isTrue trivial

/-- The invariant of runs in which foreground commands get a slot. -/
structure AwaitInv (s : Shell) (w : Option ℤ) : Prop where
  inv : s.Inv
  waiting : ∀ pid, w = some pid → (∃ cmd, s.main = .addjob cmd pid ∧ cmd.bg = false) ∨
    s.main.foreground = some pid ∧ ∃ i, (s.jobs.jobs i).pid = pid ∧ (s.jobs.jobs i).state = .fg
  deleting : ∀ pid, s.handler = some (.deletejob pid) → w ≠ some pid
  forked : ∀ cmd pid, s.main = .addjob cmd pid → cmd.bg = false → w = some pid

/-- No job is awaited at the start. -/
theorem awaitInv_init (errno : ℤ) : AwaitInv (init errno) none where
  inv := inv_init errno
  waiting _ hw := nomatch hw
  deleting _ h := nomatch h
  forked _ _ h := nomatch h

namespace AwaitInv

/-- Away from the steps between `fork` and the end of `waitfg` no child is awaited. -/
theorem eq_none (h : AwaitInv s w) (hmain : ∀ cmd pid, s.main ≠ .addjob cmd pid)
    (hnone : s.main.foreground = none) : w = none := by
  refine Option.eq_none_iff_forall_ne_some.mpr fun pid hw => ?_
  rcases h.waiting pid hw with ⟨cmd, heq, -⟩ | ⟨hfg, -⟩
  · exact hmain cmd pid heq
  · cases hnone.symm.trans hfg

/-- `eval` has returned. -/
theorem waited (h : AwaitInv s w) : Waited s w := by
  intro hmain
  exact h.eq_none (by simp [hmain]) (by rw [hmain]; rfl)

/-- No child is awaited after the step. -/
theorem of_none (ht : t.Inv) (hadd : ∀ cmd pid, t.main = .addjob cmd pid → cmd.bg = true) :
    AwaitInv t none where
  inv := ht
  waiting _ hw := nomatch hw
  deleting _ _ := nofun
  forked cmd pid hmain hbg := nomatch hbg.symm.trans (hadd cmd pid hmain)

/-- The main thread goes on to wait for the same child. -/
theorem of_foreground (h : AwaitInv s w) (ht : t.Inv) (hjobs : t.jobs = s.jobs)
    (hadd : ∀ cmd pid, s.main ≠ .addjob cmd pid) (hadd' : ∀ cmd pid, t.main ≠ .addjob cmd pid)
    (hfg : t.main.foreground = s.main.foreground) (hnone : t.handler = none) : AwaitInv t w where
  inv := ht
  waiting pid hw := by
    rcases h.waiting pid hw with ⟨cmd, heq, -⟩ | ⟨hfg', hslot⟩
    · exact absurd heq (hadd cmd pid)
    · exact .inr ⟨hfg.trans hfg', hjobs ▸ hslot⟩
  deleting _ heq := nomatch hnone.symm.trans heq
  forked cmd pid hmain := absurd hmain (hadd' cmd pid)

/-- Steps that leave the table and the main thread alone and do not start the work on a report. -/
theorem of_main (h : AwaitInv s w) (ht : t.Inv) (hjobs : t.jobs = s.jobs) (hmain : t.main = s.main)
    (hdel : ∀ pid, t.handler = some (.deletejob pid) → s.handler = some (.deletejob pid)) :
    AwaitInv t w where
  inv := ht
  waiting pid hw := by
    rw [hjobs, hmain]
    exact h.waiting pid hw
  deleting pid heq := h.deleting pid (hdel pid heq)
  forked := hmain ▸ h.forked

/-- `addjob` finds a slot for the awaited child. -/
theorem addjob (h : AwaitInv s w) (hs : s.mainStep .addjob = some t) (hnone : s.handler = none)
    (hslot : s.HasSlot (.main .addjob)) (ht : t.Inv) : AwaitInv t w := by
  obtain ⟨cmd, pid, hmain, rfl⟩ := mainStep_addjob hs
  refine ⟨ht, fun p hw => ?_, fun p heq => absurd (hnone.symm.trans heq) (by simp), nofun⟩
  simp only [HasSlot, hmain] at hslot
  rcases h.waiting p hw with ⟨cmd', heq, hbg⟩ | ⟨hfg, -⟩
  · obtain ⟨rfl, rfl⟩ := Main.addjob.inj (hmain.symm.trans heq)
    refine .inr ⟨by simp [Main.foreground, hbg], ?_⟩
    obtain ⟨j, hj⟩ := hslot hbg
    have hpos : 0 < pid := by
      have hok := h.inv.main
      rw [hmain] at hok
      exact hok.2.1
    rcases addjob_cases s.jobs pid (if cmd.bg then .bg else .fg) cmd.cmdline with
      ⟨-, hneg | hfull⟩ | ⟨i, -, -, -, hjobs, -⟩
    · omega
    · exact absurd hj (hfull j)
    · refine ⟨i, ?_⟩
      dsimp only
      rw [hjobs, Function.update_self, hbg]
      exact ⟨rfl, rfl⟩
  · rw [hmain] at hfg
    cases hfg

/-- `waitfg` returns when no slot is in state `FG`, so no child is awaited. -/
theorem fgpid (h : AwaitInv s w) (hs : s.mainStep .fgpid = some t) (hnone : s.handler = none)
    (ht : t.Inv) : AwaitInv t w := by
  have hok := h.inv.main
  cases mainStep_cases hs with
  | slotFg hmain | slotNext hmain | samePid hmain =>
    exact h.of_foreground ht rfl (by simp [hmain]) (by simp) (by rw [hmain]; rfl) hnone
  | @scanEnd pid k hmain hk =>
    rw [hmain] at hok
    have hw : w = none := by
      refine Option.eq_none_iff_forall_ne_some.mpr fun p hw => ?_
      rcases h.waiting p hw with ⟨cmd, heq, -⟩ | ⟨-, i, -, hstate⟩
      · cases hmain.symm.trans heq
      · exact hok.2 i (i.isLt.trans_le hk) hstate
    rw [hw]
    refine of_none ht fun cmd p => ?_
    split_ifs <;> simp
  | @otherPid pid i hmain hpid =>
    rw [hmain] at hok
    have hw : w = none := by
      refine Option.eq_none_iff_forall_ne_some.mpr fun p hw => ?_
      rcases h.waiting p hw with ⟨cmd, heq, -⟩ | ⟨hfg, j, hj, hstate⟩
      · cases hmain.symm.trans heq
      · rw [hmain] at hfg
        obtain rfl := hok.2 j hstate
        exact hpid ((Option.some.inj hfg).trans hj.symm)
    rw [hw]
    exact of_none ht (by simp)

/-- A step of the main thread. -/
theorem mainStep {e : MainEvent} (h : AwaitInv s w) (hs : s.mainStep e = some t)
    (hnone : s.handler = none) (hslot : s.HasSlot (.main e)) (ht : t.Inv) :
    AwaitInv t (s.await (.main e) t w) := by
  cases mainStep_cases hs with
  | addjob => exact h.addjob hs hnone hslot ht
  | slotFg | slotNext | scanEnd | samePid | otherPid => exact h.fgpid hs hnone ht
  | @fork cmd pid hmain =>
    simp only [await, hmain]
    split_ifs with hbg
    · exact of_none ht fun c p heq => (Main.addjob.inj heq).1 ▸ hbg
    · refine ⟨ht, ?_, fun p heq => absurd (hnone.symm.trans heq) (by simp), ?_⟩
      · rintro p ⟨⟩
        exact .inl ⟨cmd, rfl, by simpa using hbg⟩
      · rintro c p ⟨⟩ -
        rfl
  | @unblock cmd pid hmain =>
    have hadd : ∀ c p, (if cmd.bg then Main.report pid else .readState pid 0) ≠ .addjob c p := by
      split_ifs <;> simp
    refine h.of_foreground ht rfl (by simp [hmain]) hadd ?_ hnone
    rw [hmain]
    dsimp only [Main.foreground]
    split_ifs <;> rfl
  | read hmain | builtin hmain | block hmain | report hmain =>
    have hw := h.eq_none (by simp [hmain]) (by rw [hmain]; rfl)
    exact hw ▸ of_none ht (by simp)
  | eof hmain | quit hmain | forkError hmain =>
    have hw := h.eq_none (by simp [hmain]) (by rw [hmain]; rfl)
    exact hw ▸ of_none ht (by simp [hmain])
  | errno => exact h.of_main ht rfl rfl fun _ => id

/-- `waitpid` reports a child, which is not awaited any more. -/
theorem waitpid (h : AwaitInv s w) (hs : s.handlerStep (.waitpid pid) = some t) (ht : t.Inv) :
    AwaitInv t (s.await (.handler (.waitpid pid)) t w) := by
  obtain ⟨hwait, hdel, -⟩ := handlerStep_waitpid hs
  obtain ⟨hmain, -⟩ := handlerStep_main hs
  have hjobs := handlerStep_jobs hs (by simp)
  have hw : ∀ p, s.await (.handler (.waitpid pid)) t w = some p → w = some p ∧ p ≠ pid := by
    intro p hp
    simp only [await] at hp
    split_ifs at hp with heq
    exact ⟨hp, fun hpid => heq (hpid ▸ hp)⟩
  refine ⟨ht, fun p hp => ?_, fun p heq hp => ?_, fun cmd p heq => ?_⟩
  · rw [hjobs, hmain]
    exact h.waiting p (hw p hp).1
  · rw [hdel] at heq
    exact (hw p hp).2 (Handler.deletejob.inj (Option.some.inj heq)).symm
  · -- the handler does not run while `SIGCHLD` is blocked
    have hblocked := h.inv.handler (by simp [hwait])
    have hok := h.inv.main
    rw [← hmain, heq] at hok
    cases hok.1.symm.trans hblocked

/-- `deletejob` clears the slot of a child that is not awaited. -/
theorem deletejob (h : AwaitInv s w) (hs : s.handlerStep .deletejob = some t) (ht : t.Inv) :
    AwaitInv t w := by
  obtain ⟨pid, hdel, rfl⟩ := handlerStep_deletejob hs
  refine ⟨ht, fun p hw => (h.waiting p hw).imp_right fun ⟨hfg, i, hi, hstate⟩ => ?_, nofun,
    h.forked⟩
  refine ⟨hfg, i, ?_⟩
  rcases h.inv.distinct.deletejob (h.inv.deletejob_pos pid hdel) i with ⟨hieq, -⟩ | ⟨-, hpid⟩
  · dsimp only
    rw [hieq]
    exact ⟨hi, hstate⟩
  · exact absurd (by rw [hw, ← hi, hpid]) (h.deleting pid hdel)

/-- A step of the main thread, of the handler or of a child. -/
theorem step {e : Event} (h : AwaitInv s w) (hs : s.Step e t) (hslot : s.HasSlot e) :
    AwaitInv t (s.await e t w) := by
  have ht := h.inv.step hs
  cases e with
  | main e =>
    obtain ⟨hnone, hs⟩ := step_main hs
    exact h.mainStep hs hnone hslot ht
  | handler e =>
    have hs := step_handler hs
    cases e with
    | waitpid pid => exact h.waitpid hs ht
    | deletejob => exact h.deletejob hs ht
    | deliver | waitpidNone | waitpidError | checkErrno =>
      refine h.of_main ht (handlerStep_jobs hs (by simp)) (handlerStep_main hs).1 fun p heq => ?_
      rcases handlerStep_handler hs (by simp) (by simp) p with ⟨hne, -⟩ | hsame
      · exact absurd heq hne
      · exact hsame ▸ heq
  | kernel e =>
    obtain ⟨pid, state, rfl⟩ := step_kernel hs
    exact h.of_main ht rfl rfl fun _ => id

end AwaitInv

/-! ## A full table -/

/-- A step of the main thread outside the handler that forks nothing. -/
theorem stepAwait_main {e : MainEvent} (hexited : s.exited = false) (hnone : s.handler = none)
    (he : ∀ pid, e ≠ .fork pid) (hs : s.mainStep e = some t) :
    StepAwait (s, w) (.main e) (t, w) := by
  refine ⟨by simp [Step, next, hexited, hnone, hs], ?_⟩
  cases e with
  | fork pid => exact absurd rfl (he pid)
  | _ => rfl

/-- Without a slot in state `FG`, `waitfg` returns after one scan. -/
theorem runs_scan (hexited : s.exited = false) (hnone : s.handler = none) (hpid : pid ≠ 0)
    (hfg : ∀ i, (s.jobs.jobs i).state ≠ .fg) (n k : ℕ) (hk : k + n = maxJobs)
    (hmain : s.main = .readState pid k) :
    Runs StepAwait (s, w) (List.replicate (n + 1) (.main .fgpid))
      ({ s with main := .prompt }, w) := by
  induction n generalizing s k with
  | zero =>
    refine .single (stepAwait_main hexited hnone (by simp) ?_)
    simp [mainStep, hmain, hpid, show ¬ k < maxJobs by omega]
  | succ n ih =>
    have hlt : k < maxJobs := by omega
    rw [List.replicate_succ]
    refine .cons (stepAwait_main (t := { s with main := .readState pid (k + 1) }) hexited hnone
      (by simp) ?_) (ih (s := { s with main := .readState pid (k + 1) }) hexited hnone hfg (k + 1)
      (by omega) rfl)
    simp [mainStep, hmain, hlt, hfg]

/-- With a full table, `eval` can return from a foreground command without waiting: `addjob` does
not store the child, and `waitfg` finds no slot in state `FG`. -/
theorem exists_runs_of_full {cmd : Command} (h : AwaitInv s w) (hexited : s.exited = false)
    (hmain : s.main = .addjob cmd pid) (hbg : cmd.bg = false)
    (hfull : ∀ i, (s.jobs.jobs i).pid ≠ 0) :
    ∃ es t, Runs StepAwait (s, w) es (t, some pid) ∧ t.main = .prompt := by
  obtain rfl := h.forked cmd pid hmain hbg
  have hok := h.inv.main
  rw [hmain] at hok
  obtain ⟨hblocked, hpos, -⟩ := hok
  have hnone : s.handler = none := by
    by_contra hne
    exact absurd (h.inv.handler hne) (by simp [hblocked])
  have hjobs : (Shlab.addjob s.jobs pid .fg cmd.cmdline).1 = s.jobs := by
    rcases addjob_cases s.jobs pid .fg cmd.cmdline with ⟨heq, -⟩ | ⟨i, hi, -⟩
    · rw [heq]
    · exact absurd hi (hfull i)
  have hadd : s.mainStep .addjob = some { s with main := .unblock cmd pid } := by
    simp [mainStep, hmain, hbg, hjobs]
  have hunblock : ({ s with main := .unblock cmd pid } : Shell).mainStep .unblock =
      some { s with blocked := false, main := .readState pid 0 } := by
    simp [mainStep, hbg]
  have hfg := h.inv.state_ne_fg (by rw [hmain]; rfl)
  have hscan := runs_scan (s := { s with blocked := false, main := .readState pid 0 })
    (w := some pid) hexited hnone hpos.ne' hfg maxJobs 0 (by simp) rfl
  exact ⟨_, _, .cons (stepAwait_main hexited hnone (by simp) hadd)
    (.cons (stepAwait_main hexited hnone (by simp) hunblock) hscan), rfl⟩

/-! ## Runs -/

/-- The invariant holds in every state of a run in which the table has a free slot for each job. -/
theorem awaitInv_of_guarded {errno : ℤ}
    (h : Runs (Guarded (fun p e => HasSlot p.1 e) StepAwait) (init errno, none) es (s, w)) :
    AwaitInv s w := by
  refine h.invariant (I := fun p => AwaitInv p.1 p.2) ?_ (awaitInv_init errno)
  rintro p e q hinv ⟨hslot, hs, hw⟩
  rw [hw]
  exact hinv.step hs hslot

/-- Every run in which `addjob` finds a slot has its awaited child, and `eval` waits for it. -/
theorem exists_waited {errno : ℤ} (h : Runs (Guarded HasSlot Step) (init errno) es s) :
    ∃ w, Runs StepAwait (init errno, none) es (s, w) ∧ Waited s w := by
  obtain ⟨w, hrun⟩ := h.exists_withHistory await none
  exact ⟨w, hrun.of_guarded, (awaitInv_of_guarded hrun).waited⟩

/-- **Foreground commands are waited for** in every run in which `addjob` finds a slot for each of
them. When it finds none, `eval` can return before `waitpid` has reported the child. -/
theorem waited_of_guarded (errno : ℤ)
    (h : Runs (Guarded (fun p e => HasSlot p.1 e) StepAwait) (init errno, none) es (s, w)) :
    Waited s w ∧ (s.exited = false → ¬ s.HasSlot (.main .addjob) →
      ∃ es t w', Runs StepAwait (s, w) es (t, w') ∧ ¬ Waited t w') := by
  have hinv := awaitInv_of_guarded h
  refine ⟨hinv.waited, fun hexited hslot => ?_⟩
  obtain ⟨cmd, pid, hmain, hbg, hfull⟩ : ∃ cmd pid, s.main = .addjob cmd pid ∧ cmd.bg = false ∧
      ∀ i, (s.jobs.jobs i).pid ≠ 0 := by
    simp only [HasSlot] at hslot
    split at hslot
    · next cmd pid hmain => exact ⟨cmd, pid, hmain, by simpa using hslot⟩
    · exact absurd trivial hslot
  obtain ⟨es, t, hrun, hprompt⟩ := exists_runs_of_full hinv hexited hmain hbg hfull
  exact ⟨es, t, some pid, hrun, fun hwaited => nomatch hwaited hprompt⟩

/-- A command in the foreground. -/
def foregroundJob : List Event :=
  [.main (.read ⟨some "/bin/true", false, "/bin/true"⟩), .main .builtinCmd, .main (.fork 100),
    .main .addjob, .main .unblock, .main .fgpid, .kernel (.terminate 100), .handler .deliver,
    .handler (.waitpid 100), .handler .deletejob, .handler (.waitpidError echild),
    .handler .checkErrno, .main .fgpid]

/-- `eval` returns after the child has been reported. -/
theorem waited_of_guarded_example : ∃ p,
    Runs StepAwait (init 0, none) foregroundJob p ∧ p.1.main = .prompt ∧ p.2 = none := by
  obtain ⟨p, hrun, hmain⟩ := exists_runs_of_runIf StepAwait (fun p => p.1.main) .prompt
    (withHistory_of_next fun _ _ _ h => h)
    (show (runIf (fun p e => HasSlot p.1 e) (nextWithHistory await next)
      (init 0, none) foregroundJob).map (fun p => p.1.main) = some .prompt by decide +kernel)
  exact ⟨p, hrun.of_guarded, hmain, (waited_of_guarded 0 hrun).1 hmain⟩

/-- Sixteen commands in the background fill the table. -/
def fullTable : List Event :=
  (List.range 16).flatMap fun k =>
    [.main (.read ⟨some "/bin/cat", true, "/bin/cat &"⟩), .main .builtinCmd,
      .main (.fork (100 + k)), .main .addjob, .main .unblock, .main .report]

/-- A command in the foreground, for which there is no slot. -/
def seventeenthJob : List Event :=
  [.main (.read ⟨some "/bin/cat", false, "/bin/cat"⟩), .main .builtinCmd, .main (.fork 116),
    .main .addjob, .main .unblock] ++ List.replicate 17 (.main .fgpid)

/-- `eval` returns while the child is running. -/
theorem exists_not_waited : ∃ p, Runs StepAwait (init 0, none) (fullTable ++ seventeenthJob) p ∧
    p.1.main = .prompt ∧ p.2 = some 116 ∧ ¬ Waited p.1 p.2 := by
  obtain ⟨p, hrun, hobs⟩ := exists_runs_of_runIf StepAwait (fun p => (p.1.main, p.2))
    (.prompt, some 116) (withHistory_of_next fun _ _ _ h => h)
    (show (runIf (fun _ _ => True) (nextWithHistory await next)
      (init 0, none) (fullTable ++ seventeenthJob)).map (fun p => (p.1.main, p.2)) =
      some (.prompt, some 116) by decide +kernel)
  obtain ⟨hmain, hw⟩ := Prod.mk.inj hobs
  exact ⟨p, hrun.of_guarded, hmain, hw, fun hwaited => nomatch hw.symm.trans (hwaited hmain)⟩

end Shell

end SystemsLabs.Shlab
