import SystemsLabs.Shlab.JobTable

/-!
# Do stopped jobs stay tracked?

A history variable says what each slot of `jobs` should hold: the job that `addjob` stored, in state
`ST` once `waitpid` has reported a stop, until `waitpid` has reported the termination
(`Shell.expect`). `sigchld_handler` deletes a job whatever `waitpid` reports: the table is as
expected in the runs in which `waitpid` reports no stop of a job, and in no others.

**Assumptions.** Those of `Shlab.Tsh`.
-/

namespace SystemsLabs.Shlab

open Lib

/-- What the slots of `jobs` should hold; nothing is expected of a slot that no job has. -/
abbrev Expected : Type := Fin maxJobs → Option Job

namespace Shell

variable {s t : Shell} {x y : Expected} {es : List Event} {pid : ℤ}

/-- What a report of `waitpid` makes of an expected job. -/
def report (s : Shell) (pid : ℤ) (job : Job) : Option Job :=
  if job.pid = pid then
    if ⟨pid, .zombie⟩ ∈ s.children then none else some { job with state := .st }
  else some job

/-- What should be in the slots after a step: a slot that `addjob` has filled holds the new job, and
a child that `waitpid` reports has stopped or terminated. -/
def expect (s : Shell) (e : Event) (t : Shell) (x : Expected) : Expected :=
  match e with
  | .main .addjob => fun i =>
    if (s.jobs.jobs i).pid = 0 ∧ (t.jobs.jobs i).pid ≠ 0 then some (t.jobs.jobs i) else x i
  | .handler (.waitpid pid) => fun i => (x i).bind (s.report pid)
  | _ => x

/-- The slots hold what they should, but for the job whose report the handler is working on. -/
def Tracked (s : Shell) (x : Expected) : Prop :=
  ∀ i job, x i = some job → s.handler ≠ some (.deletejob job.pid) → s.jobs.jobs i = job

/-- The step is not a call of `waitpid` that reports that a job has stopped. -/
def ReportsNoStop (s : Shell) : Event → Prop
  | .handler (.waitpid pid) => ⟨pid, .zombie⟩ ∈ s.children ∨ ∀ i, (s.jobs.jobs i).pid ≠ pid
  | _ => True

instance (s : Shell) : DecidablePred s.ReportsNoStop
  | .handler (.waitpid pid) =>
    inferInstanceAs (Decidable (⟨pid, .zombie⟩ ∈ s.children ∨ ∀ i, (s.jobs.jobs i).pid ≠ pid))
  | .main _ | .kernel _ => isTrue trivial
  | .handler .deliver | .handler .waitpidNone | .handler (.waitpidError _) | .handler .deletejob
  | .handler .checkErrno => isTrue trivial

/-- The steps of the shell with the expected table. -/
abbrev StepExpect : Shell × Expected → Event → Shell × Expected → Prop := WithHistory expect Step

/-- The invariant of runs without a report of a stop. -/
structure TrackInv (s : Shell) (x : Expected) : Prop where
  inv : s.Inv
  slot : ∀ i job, x i = some job → s.jobs.jobs i = job ∧ job.pid ≠ 0
  deleting : ∀ i job, x i = some job → s.handler ≠ some (.deletejob job.pid)
  complete : ∀ i, (s.jobs.jobs i).pid ≠ 0 →
    x i = some (s.jobs.jobs i) ∨ s.handler = some (.deletejob (s.jobs.jobs i).pid)

/-- The invariant at the start. -/
theorem trackInv_init (errno : ℤ) : TrackInv (init errno) fun _ => none where
  inv := inv_init errno
  slot _ _ h := nomatch h
  deleting _ _ h := nomatch h
  complete _ h := absurd rfl h

namespace TrackInv

/-- Steps that leave the table alone and do not start or end the work on a report. -/
theorem of_jobs (h : TrackInv s x) (ht : t.Inv) (hjobs : t.jobs = s.jobs)
    (hdel : ∀ pid, t.handler ≠ some (.deletejob pid) ∧ s.handler ≠ some (.deletejob pid) ∨
      t.handler = s.handler) : TrackInv t x where
  inv := ht
  slot := hjobs ▸ h.slot
  deleting i job hi hdel' := by
    rcases hdel job.pid with ⟨hne, -⟩ | heq
    · exact hne hdel'
    · exact h.deleting i job hi (heq ▸ hdel')
  complete := by
    rw [hjobs]
    intro i hi
    refine (h.complete i hi).imp_right fun hs => ?_
    rcases hdel (s.jobs.jobs i).pid with ⟨-, hne⟩ | heq
    · exact absurd hs hne
    · exact heq.trans hs

/-- `addjob` stores a job, which is expected from then on. -/
theorem addjob (h : TrackInv s x) (hs : s.mainStep .addjob = some t) (hnone : s.handler = none)
    (ht : t.Inv) : TrackInv t (s.expect (.main .addjob) t x) := by
  obtain ⟨cmd, pid, -, rfl⟩ := mainStep_addjob hs
  have hslot := addjob_jobs s.jobs pid (if cmd.bg then .bg else .fg) cmd.cmdline
  dsimp only [expect]
  generalize (Shlab.addjob s.jobs pid (if cmd.bg then .bg else .fg) cmd.cmdline).1 = l at ht hslot ⊢
  refine ⟨ht, fun i job hi => ?_, fun i job _ => by simp [hnone], fun i hi => .inl ?_⟩
  · dsimp only at hi ⊢
    split_ifs at hi with hnew
    · obtain rfl := Option.some.inj hi
      exact ⟨rfl, hnew.2⟩
    · obtain ⟨heq, hne⟩ := h.slot i job hi
      rw [(hslot i).resolve_right (by rwa [heq])]
      exact ⟨heq, hne⟩
  · dsimp only at hi ⊢
    split_ifs with hnew
    · rfl
    · have hold : (s.jobs.jobs i).pid ≠ 0 := fun hfree => hnew ⟨hfree, hi⟩
      rw [(hslot i).resolve_right hold]
      exact (h.complete i hold).resolve_right (by simp [hnone])

/-- `waitpid` reports a child: it has terminated, or it has no slot. -/
theorem waitpid (h : TrackInv s x) (hs : s.handlerStep (.waitpid pid) = some t)
    (hguard : s.ReportsNoStop (.handler (.waitpid pid))) (ht : t.Inv) :
    TrackInv t (s.expect (.handler (.waitpid pid)) t x) := by
  obtain ⟨hwait, hdel, -⟩ := handlerStep_waitpid hs
  have hjobs := handlerStep_jobs hs (by simp)
  -- an expected job is another one than the reported child, and is still expected
  have hreport : ∀ i job, s.expect (.handler (.waitpid pid)) t x i = some job →
      x i = some job ∧ job.pid ≠ pid := by
    intro i job hi
    obtain ⟨job', hjob', hrep⟩ := Option.bind_eq_some_iff.mp hi
    unfold report at hrep
    split_ifs at hrep with heq hzombie
    · have hslot := (h.slot i job' hjob').1
      exact absurd (by rw [hslot, heq]) ((hguard.resolve_left hzombie) i)
    · obtain rfl := Option.some.inj hrep
      exact ⟨hjob', heq⟩
  refine ⟨ht, fun i job hi => ?_, fun i job hi heq => ?_, fun i hi => ?_⟩
  · rw [hjobs]
    exact h.slot i job (hreport i job hi).1
  · rw [hdel] at heq
    exact (hreport i job hi).2 (Handler.deletejob.inj (Option.some.inj heq)).symm
  · rw [hjobs] at hi ⊢
    rw [hdel]
    by_cases hpid : (s.jobs.jobs i).pid = pid
    · exact .inr (by rw [hpid])
    · have hx := (h.complete i hi).resolve_right (by simp [hwait])
      exact .inl (by simp [expect, report, hx, hpid])

/-- `deletejob` clears the slot of the reported child, which is not expected any more. -/
theorem deletejob (h : TrackInv s x) (hs : s.handlerStep .deletejob = some t) (ht : t.Inv) :
    TrackInv t x := by
  obtain ⟨pid, hdel, rfl⟩ := handlerStep_deletejob hs
  have hslot := h.inv.distinct.deletejob (h.inv.deletejob_pos pid hdel)
  refine ⟨ht, fun i job hi => ?_, fun i job _ => by simp, fun i hi => ?_⟩
  · obtain ⟨heq, hne⟩ := h.slot i job hi
    rcases hslot i with ⟨hieq, -⟩ | ⟨-, hpid⟩
    · exact ⟨hieq.trans heq, hne⟩
    · rw [heq] at hpid
      exact absurd (by rw [hdel, hpid]) (h.deleting i job hi)
  · dsimp only at hi ⊢
    rcases hslot i with ⟨hieq, hpid⟩ | ⟨hieq, -⟩
    · rw [hieq] at hi ⊢
      refine .inl ((h.complete i hi).resolve_right fun heq => ?_)
      exact hpid (Handler.deletejob.inj (Option.some.inj (hdel.symm.trans heq))).symm
    · exact absurd (congrArg Job.pid hieq) hi

/-- A step without a report of a stopped child keeps the invariant. -/
theorem step {e : Event} (h : TrackInv s x) (hs : s.Step e t) (hguard : s.ReportsNoStop e) :
    TrackInv t (s.expect e t x) := by
  have ht := h.inv.step hs
  cases e with
  | main e =>
    obtain ⟨hnone, hs⟩ := step_main hs
    by_cases he : e = .addjob
    · subst he
      exact h.addjob hs hnone ht
    · have hx : s.expect (.main e) t x = x := by
        unfold expect
        split
        · next heq => exact absurd (Event.main.inj heq) he
        · next heq => cases heq
        · rfl
      rw [hx]
      exact h.of_jobs ht (mainStep_jobs hs he) fun _ => .inr (mainStep_handler hs)
  | handler e =>
    have hs := step_handler hs
    cases e with
    | waitpid pid => exact h.waitpid hs hguard ht
    | deletejob => exact h.deletejob hs ht
    | deliver | waitpidNone | waitpidError | checkErrno =>
      exact h.of_jobs ht (handlerStep_jobs hs (by simp))
        (handlerStep_handler hs (by simp) (by simp))
  | kernel e =>
    obtain ⟨pid, state, rfl⟩ := step_kernel hs
    exact h.of_jobs ht rfl fun _ => .inr rfl

/-- The part of the invariant that is asked for. -/
theorem tracked (h : TrackInv s x) : Tracked s x := fun i job hi _ => (h.slot i job hi).1

end TrackInv

/-! ## Runs -/

/-- The invariant holds in every state of a run without such reports. -/
theorem trackInv_of_guarded {errno : ℤ}
    (h : Runs (Guarded (fun p e => ReportsNoStop p.1 e) StepExpect)
      (init errno, fun _ => none) es (s, x)) : TrackInv s x := by
  refine h.invariant (I := fun p => TrackInv p.1 p.2) ?_ (trackInv_init errno)
  rintro p e q hinv ⟨hguard, hs, hx⟩
  rw [hx]
  exact hinv.step hs hguard

/-- Every run without a report of a stop has its expected table, which is the table. -/
theorem exists_tracked {errno : ℤ} (h : Runs (Guarded ReportsNoStop Step) (init errno) es s) :
    ∃ x, Runs StepExpect (init errno, fun _ => none) es (s, x) ∧ Tracked s x := by
  obtain ⟨x, hrun⟩ := h.exists_withHistory expect fun _ => none
  exact ⟨x, hrun.of_guarded, (trackInv_of_guarded hrun).tracked⟩

/-- A report that a job has stopped, and the deletion that follows: the job is not in the table any
more. -/
theorem TrackInv.not_tracked {u v : Shell} (h : TrackInv s x)
    (hguard : ¬ s.ReportsNoStop (.handler (.waitpid pid)))
    (hs : s.Step (.handler (.waitpid pid)) u) (hu : u.Step (.handler .deletejob) v) :
    ¬ Tracked v (s.expect (.handler (.waitpid pid)) u x) := by
  have hs' := step_handler hs
  obtain ⟨hwait, hdel, -⟩ := handlerStep_waitpid hs'
  obtain ⟨hzombie, i, hi⟩ : ⟨pid, .zombie⟩ ∉ s.children ∧ ∃ i, (s.jobs.jobs i).pid = pid := by
    simpa [ReportsNoStop] using hguard
  have huinv := h.inv.step hs
  have hpos := huinv.deletejob_pos pid hdel
  have hx : s.expect (.handler (.waitpid pid)) u x i =
      some { s.jobs.jobs i with state := .st } := by
    have := (h.complete i (by omega)).resolve_right (by simp [hwait])
    simp [expect, report, this, hi, hzombie]
  obtain ⟨pid', hdel', rfl⟩ := handlerStep_deletejob (step_handler hu)
  obtain rfl : pid = pid' := Handler.deletejob.inj (Option.some.inj (hdel.symm.trans hdel'))
  have hjobs := handlerStep_jobs hs' (by simp)
  intro htracked
  have hslot := htracked i _ hx (by simp)
  rcases huinv.distinct.deletejob hpos i with ⟨-, hne⟩ | ⟨hclear, -⟩
  · rw [hjobs] at hne
    exact hne hi
  · have := congrArg Job.pid (hclear.symm.trans hslot)
    simp only [clearjob_pid, hi] at this
    omega

/-- **Stopped jobs stay tracked** in every run in which `waitpid` reports no stop of a job. After
the first such report the next step of the handler removes the job from the table. -/
theorem tracked_of_guarded (errno : ℤ)
    (h : Runs (Guarded (fun p e => ReportsNoStop p.1 e) StepExpect)
      (init errno, fun _ => none) es (s, x)) :
    Tracked s x ∧ ∀ pid p q, ¬ s.ReportsNoStop (.handler (.waitpid pid)) →
      StepExpect (s, x) (.handler (.waitpid pid)) p → StepExpect p (.handler .deletejob) q →
      ¬ Tracked q.1 q.2 := by
  have hinv := trackInv_of_guarded h
  refine ⟨hinv.tracked, ?_⟩
  rintro pid p q hguard ⟨hs, hp⟩ ⟨hu, hq⟩
  rw [show q.2 = p.2 from hq, hp]
  exact hinv.not_tracked hguard hs hu

/-- A job in the background is started and terminates. -/
def backgroundJob : List Event :=
  [.main (.read ⟨some "/bin/true", true, "/bin/true &"⟩), .main .builtinCmd, .main (.fork 100),
    .main .addjob, .main .unblock, .main .report, .kernel (.terminate 100), .handler .deliver,
    .handler (.waitpid 100), .handler .deletejob]

/-- After the termination nothing is expected of its slot. -/
theorem tracked_of_guarded_example : ∃ p,
    Runs StepExpect (init echild, fun _ => none) backgroundJob p ∧
      p.2 0 = none ∧ Tracked p.1 p.2 := by
  obtain ⟨p, hrun, hx⟩ := exists_runs_of_runIf StepExpect (fun p => p.2 0) none
    (withHistory_of_next fun _ _ _ h => h)
    (show (runIf (fun p e => ReportsNoStop p.1 e) (nextWithHistory expect next)
      (init echild, fun _ => none) backgroundJob).map (fun p => p.2 0) = some none by
        decide +kernel)
  exact ⟨p, hrun.of_guarded, hx, (tracked_of_guarded echild hrun).1⟩

/-- A job in the foreground is started and stops. -/
def stoppedJob : List Event :=
  [.main (.read ⟨some "/bin/cat", false, "/bin/cat"⟩), .main .builtinCmd, .main (.fork 100),
    .main .addjob, .main .unblock, .kernel (.stop 100), .handler .deliver, .handler (.waitpid 100),
    .handler .deletejob]

/-- The handler removes the stopped job from the table. -/
theorem exists_not_tracked : ∃ p,
    Runs StepExpect (init echild, fun _ => none) stoppedJob p ∧
      p.2 0 = some ⟨100, 1, .st, "/bin/cat"⟩ ∧ p.1.jobs.jobs 0 = clearjob ∧ ¬ Tracked p.1 p.2 := by
  obtain ⟨p, hrun, hobs⟩ := exists_runs_of_runIf StepExpect
    (fun p => (p.2 0, p.1.jobs.jobs 0, p.1.handler))
    (some ⟨100, 1, .st, "/bin/cat"⟩, clearjob, some .waitpid)
    (withHistory_of_next fun _ _ _ h => h)
    (show (runIf (fun _ _ => True) (nextWithHistory expect next)
      (init echild, fun _ => none) stoppedJob).map
      (fun p => (p.2 0, p.1.jobs.jobs 0, p.1.handler)) =
      some (some ⟨100, 1, .st, "/bin/cat"⟩, clearjob, some .waitpid) by decide +kernel)
  simp only [Prod.mk.injEq] at hobs
  obtain ⟨hx, hjob, hhandler⟩ := hobs
  refine ⟨p, hrun.of_guarded, hx, hjob, fun htracked => ?_⟩
  have := htracked 0 _ hx (by simp [hhandler])
  rw [hjob] at this
  exact absurd this (by decide)

end Shell

end SystemsLabs.Shlab
