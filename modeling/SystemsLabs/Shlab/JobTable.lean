import SystemsLabs.Shlab.Tsh

/-!
# The job table in every interleaving

`Shell.Inv` is what holds between any two steps. Its parts for the main thread (`Shell.MainOk`) say
why the race between `addjob` and the handler cannot happen: the process ID is unreaped and in no
slot from `fork` to `addjob`, as the handler cannot run there. In `waitfg` they follow the scan of
`fgpid` slot by slot: no slot behind the cursor is in state `FG`, since nothing makes one of these.

**Assumptions.** Those of `Shlab.Tsh`. The kernel may give the process ID of a reaped child to a new
one.
-/

namespace SystemsLabs.Shlab

open Lib

/-- The foreground command that `eval` has added and still waits for. -/
def Main.foreground : Main → Option ℤ
  | .unblock cmd pid => if cmd.bg then none else some pid
  | .readState pid _ => some pid
  | .readPid pid _ => some pid
  | _ => none

namespace Shell

variable {s t : Shell} {e : ℤ} {pid : ℤ}

/-- What holds at the point that the main thread has reached. -/
def MainOk (s : Shell) : Main → Prop
  | .fork _ => s.blocked = true
  | .addjob _ pid =>
    s.blocked = true ∧ 0 < pid ∧ s.Unreaped pid ∧ ∀ i, (s.jobs.jobs i).pid ≠ pid
  | .unblock _ pid => s.blocked = true ∧ 0 < pid
  | .readState pid k => 0 < pid ∧ ∀ i, i.val < k → (s.jobs.jobs i).state ≠ .fg
  | .readPid pid k => 0 < pid ∧ ∀ i, (s.jobs.jobs i).state = .fg → i = k
  | _ => True

/-- Steps of others that make no slot a foreground one, and that leave a new child and the slots
alone while `SIGCHLD` is blocked. -/
theorem MainOk.mono {m : Main} (h : s.MainOk m) (hblocked : t.blocked = s.blocked)
    (hfg : ∀ i, (t.jobs.jobs i).state = .fg → (s.jobs.jobs i).state = .fg)
    (hnew : s.blocked = true → t.jobs = s.jobs ∧ ∀ pid, s.Unreaped pid → t.Unreaped pid) :
    t.MainOk m := by
  cases m with
  | fork cmd => exact hblocked.trans h
  | addjob cmd pid =>
    obtain ⟨hb, hpos, hun, hslots⟩ := h
    obtain ⟨hjobs, hunreaped⟩ := hnew hb
    exact ⟨hblocked.trans hb, hpos, hunreaped _ hun, hjobs ▸ hslots⟩
  | unblock cmd pid => exact ⟨hblocked.trans h.1, h.2⟩
  | readState pid k => exact ⟨h.1, fun i hi hstate => h.2 i hi (hfg i hstate)⟩
  | readPid pid k => exact ⟨h.1, fun i hstate => h.2 i (hfg i hstate)⟩
  | prompt => trivial
  | eval cmd => trivial
  | report pid => trivial

/-- The invariant. -/
structure Inv (s : Shell) : Prop where
  distinct : s.jobs.Distinct
  unreaped : ∀ i, (s.jobs.jobs i).pid ≠ 0 → s.Unreaped (s.jobs.jobs i).pid ∨
    s.handler = some (.deletejob (s.jobs.jobs i).pid)
  fg : ∀ i, (s.jobs.jobs i).state = .fg →
    (s.jobs.jobs i).pid ≠ 0 ∧ s.main.foreground = some (s.jobs.jobs i).pid
  main : s.MainOk s.main
  handler : s.handler ≠ none → s.blocked = false
  children_pos : ∀ c ∈ s.children, 0 < c.pid
  deletejob_pos : ∀ pid, s.handler = some (.deletejob pid) → 0 < pid

/-- The invariant at the start. -/
theorem inv_init (errno : ℤ) : (init errno).Inv where
  distinct _ _ h := absurd rfl h
  unreaped _ h := absurd rfl h
  fg _ h := nomatch h
  main := trivial
  handler h := absurd rfl h
  children_pos _ h := nomatch h
  deletejob_pos _ h := nomatch h

namespace Inv

/-- Steps that leave the table and the main thread alone and keep the children. -/
theorem of_unreaped (h : s.Inv) (hjobs : t.jobs = s.jobs) (hmain : t.main = s.main)
    (hblocked : t.blocked = s.blocked) (hhandler : t.handler = s.handler)
    (hunreaped : ∀ pid, s.Unreaped pid → t.Unreaped pid)
    (hpos : ∀ c ∈ t.children, 0 < c.pid) : t.Inv where
  distinct := hjobs ▸ h.distinct
  unreaped i hi := by
    rw [hjobs] at hi ⊢
    rw [hhandler]
    exact (h.unreaped i hi).imp_left (hunreaped _)
  fg := by
    rw [hjobs, hmain]
    exact h.fg
  main := by
    rw [hmain]
    exact h.main.mono hblocked (by rw [hjobs]; exact fun _ => id) fun _ => ⟨hjobs, hunreaped⟩
  handler := by
    rw [hhandler, hblocked]
    exact h.handler
  children_pos := hpos
  deletejob_pos := by
    rw [hhandler]
    exact h.deletejob_pos

/-! ## The children -/

/-- A new state of a child keeps it unreaped. -/
theorem setChild (h : s.Inv) (pid : ℤ) (state : ChildState) : (s.setChild pid state).Inv := by
  refine h.of_unreaped rfl rfl rfl rfl ?_ ?_
  · rintro p ⟨c, hc, rfl⟩
    exact ⟨_, List.mem_map_of_mem hc, Child.set_pid ..⟩
  · intro c hc
    obtain ⟨c, hc', rfl⟩ := List.mem_map.mp hc
    rw [Child.set_pid]
    exact h.children_pos c hc'

/-! ## The main thread -/

/-- While nobody waits for a foreground command, no slot is in state `FG`. -/
theorem state_ne_fg (h : s.Inv) (hnone : s.main.foreground = none) (i : Fin maxJobs) :
    (s.jobs.jobs i).state ≠ .fg := by
  intro hi
  have := (h.fg i hi).2
  rw [hnone] at this
  cases this

/-- Slots in state `FG` are the same slot. -/
theorem fg_unique (h : s.Inv) {i j : Fin maxJobs} (hi : (s.jobs.jobs i).state = .fg)
    (hj : (s.jobs.jobs j).state = .fg) : i = j := by
  obtain ⟨hne, hpid⟩ := h.fg i hi
  exact h.distinct i j hne (Option.some.inj (hpid.symm.trans (h.fg j hj).2))

/-- The main thread moves on, outside the handler. -/
theorem moveTo (h : s.Inv) (hhandler : s.handler = none) (m : Main) (b : Bool)
    (hm : { s with blocked := b }.MainOk m)
    (hfg : ∀ i, (s.jobs.jobs i).state = .fg → m.foreground = some (s.jobs.jobs i).pid) :
    { s with main := m, blocked := b }.Inv where
  distinct := h.distinct
  unreaped := h.unreaped
  fg i hi := ⟨(h.fg i hi).1, hfg i hi⟩
  main := hm
  handler hne := absurd hhandler hne
  children_pos := h.children_pos
  deletejob_pos := h.deletejob_pos

/-- `fork`: no slot holds the new process ID, as it belongs to no unreaped child. -/
theorem fork {cmd : Command} (h : s.Inv) (hhandler : s.handler = none)
    (hmain : s.main = .fork cmd) (hpos : 0 < pid) (hfresh : ¬ s.Unreaped pid) :
    { s with main := .addjob cmd pid, children := ⟨pid, .running⟩ :: s.children }.Inv := by
  have hblocked : s.blocked = true := by
    have := h.main
    rw [hmain] at this
    exact this
  have hslots : ∀ i, (s.jobs.jobs i).pid ≠ pid := by
    intro i hi
    rcases h.unreaped i (by omega) with hun | hdel
    · exact hfresh (hi ▸ hun)
    · rw [hhandler] at hdel
      cases hdel
  have hchildren : { s with children := ⟨pid, .running⟩ :: s.children }.Inv := by
    refine h.of_unreaped rfl rfl rfl rfl ?_ ?_
    · rintro p ⟨c, hc, hp⟩
      exact ⟨c, List.mem_cons_of_mem _ hc, hp⟩
    · exact List.forall_mem_cons.mpr ⟨hpos, h.children_pos⟩
  apply hchildren.moveTo hhandler (.addjob cmd pid) s.blocked
  · exact ⟨hblocked, hpos, ⟨_, List.mem_cons_self, rfl⟩, hslots⟩
  · intro i hi
    exact absurd hi (h.state_ne_fg (by rw [hmain]; rfl) i)

/-- `addjob` runs with `SIGCHLD` blocked: the child cannot have been reaped. -/
theorem addjob {cmd : Command} (h : s.Inv) (hhandler : s.handler = none)
    (hmain : s.main = .addjob cmd pid) :
    { s with
      jobs := (Shlab.addjob s.jobs pid (if cmd.bg then .bg else .fg) cmd.cmdline).1
      main := .unblock cmd pid }.Inv := by
  have hok := h.main
  rw [hmain] at hok
  obtain ⟨hblocked, hpos, hun, hnew⟩ := hok
  have hnofg := h.state_ne_fg (by rw [hmain]; rfl)
  rcases addjob_cases s.jobs pid (if cmd.bg then .bg else .fg) cmd.cmdline with
    ⟨heq, -⟩ | ⟨i, -, -, -, hjobs, -⟩
  · rw [heq]
    exact h.moveTo hhandler (.unblock cmd pid) s.blocked ⟨hblocked, hpos⟩
      fun i hi => absurd hi (hnofg i)
  · constructor
    · exact h.distinct.addjob hnew
    · intro j hj
      dsimp only at hj ⊢
      rw [hjobs] at hj ⊢
      by_cases hji : j = i
      · subst hji
        rw [Function.update_self]
        exact Or.inl hun
      · rw [Function.update_of_ne hji] at hj ⊢
        exact h.unreaped j hj
    · intro j hj
      dsimp only at hj ⊢
      rw [hjobs] at hj ⊢
      by_cases hji : j = i
      · subst hji
        rw [Function.update_self] at hj ⊢
        refine ⟨by dsimp only; omega, ?_⟩
        by_cases hbg : cmd.bg = true
        · rw [if_pos hbg] at hj
          cases hj
        · exact if_neg hbg
      · rw [Function.update_of_ne hji] at hj
        exact absurd hj (hnofg j)
    · exact ⟨hblocked, hpos⟩
    · exact fun hne => absurd hhandler hne
    · exact h.children_pos
    · exact h.deletejob_pos

/-- A read of `fgpid` in `waitfg`: when the scan ends, or the slot in state `FG` is gone at its
second read, no slot is in state `FG`. -/
theorem fgpid (h : s.Inv) (hhandler : s.handler = none) (hs : s.mainStep .fgpid = some t) :
    t.Inv := by
  have hok := h.main
  have hforeground : ∀ i, (s.jobs.jobs i).state = .fg →
      s.main.foreground = some (s.jobs.jobs i).pid := fun i hi => (h.fg i hi).2
  cases mainStep_cases hs with
  | @slotFg pid k hmain hfg =>
    rw [hmain] at hok hforeground
    exact h.moveTo hhandler (.readPid pid k) s.blocked
      ⟨hok.1, fun i hi => h.fg_unique hi hfg⟩ hforeground
  | @slotNext pid k hmain hfg =>
    rw [hmain] at hok hforeground
    obtain ⟨hpos, hscan⟩ := hok
    refine h.moveTo hhandler (.readState pid (k + 1)) s.blocked ⟨hpos, fun i hi => ?_⟩ hforeground
    rcases Nat.lt_succ_iff_lt_or_eq.mp hi with hlt | heq
    · exact hscan i hlt
    · rwa [show i = k from Fin.ext heq]
  | @scanEnd pid k hmain hk =>
    rw [hmain] at hok
    obtain ⟨hpos, hscan⟩ := hok
    rw [if_neg hpos.ne']
    exact h.moveTo hhandler .prompt s.blocked trivial
      fun i hi => absurd hi (hscan i (i.isLt.trans_le hk))
  | @samePid pid k hmain =>
    rw [hmain] at hok hforeground
    exact h.moveTo hhandler (.readState pid 0) s.blocked
      ⟨hok.1, fun i hi => absurd hi (Nat.not_lt_zero _)⟩ hforeground
  | @otherPid pid k hmain hpid =>
    rw [hmain] at hok hforeground
    refine h.moveTo hhandler .prompt s.blocked trivial fun i hi => ?_
    have hpid' := hforeground i hi
    rw [hok.2 i hi] at hpid'
    exact absurd (Option.some.inj hpid') hpid

/-- A step of the main thread keeps the invariant. -/
theorem mainStep {e : MainEvent} (h : s.Inv) (hhandler : s.handler = none)
    (hs : s.mainStep e = some t) : t.Inv := by
  have hok := h.main
  cases mainStep_cases hs with
  | @read cmd hmain =>
    exact h.moveTo hhandler (.eval cmd) s.blocked trivial
      fun i hi => absurd hi (h.state_ne_fg (by rw [hmain]; rfl) i)
  | @block cmd hmain =>
    exact h.moveTo hhandler (.fork cmd) true rfl
      fun i hi => absurd hi (h.state_ne_fg (by rw [hmain]; rfl) i)
  | builtin hmain | report hmain =>
    exact h.moveTo hhandler .prompt s.blocked trivial
      fun i hi => absurd hi (h.state_ne_fg (by rw [hmain]; rfl) i)
  | fork hmain hpos hfresh => exact h.fork hhandler hmain hpos hfresh
  | addjob hmain => exact h.addjob hhandler hmain
  | @unblock cmd pid hmain =>
    rw [hmain] at hok
    by_cases hbg : cmd.bg = true
    · rw [if_pos hbg]
      exact h.moveTo hhandler (.report pid) false trivial
        fun i hi => absurd hi (h.state_ne_fg (by rw [hmain]; exact if_pos hbg) i)
    · rw [if_neg hbg]
      refine h.moveTo hhandler (.readState pid 0) false
        ⟨hok.2, fun i hi => absurd hi (Nat.not_lt_zero _)⟩ ?_
      intro i hi
      have := (h.fg i hi).2
      rw [hmain] at this
      exact (if_neg hbg).symm.trans this
  | slotFg | slotNext | scanEnd | samePid | otherPid => exact h.fgpid hhandler hs
  | eof | quit | forkError | errno =>
    exact h.of_unreaped rfl rfl rfl rfl (fun _ => id) h.children_pos

/-! ## The handler -/

/-- The parts of the invariant that do not depend on the handler, for a step of the handler that
leaves the table alone. -/
theorem of_handler (h : s.Inv) (hjobs : t.jobs = s.jobs) (hmain : t.main = s.main)
    (hblocked : t.blocked = s.blocked) (hunblocked : s.blocked = false)
    (hunreaped : ∀ i, (s.jobs.jobs i).pid ≠ 0 → t.Unreaped (s.jobs.jobs i).pid ∨
      t.handler = some (.deletejob (s.jobs.jobs i).pid))
    (hpos : ∀ c ∈ t.children, 0 < c.pid)
    (hdel : ∀ pid, t.handler = some (.deletejob pid) → 0 < pid) : t.Inv where
  distinct := hjobs ▸ h.distinct
  unreaped := hjobs ▸ hunreaped
  fg := by
    rw [hjobs, hmain]
    exact h.fg
  main := by
    rw [hmain]
    exact h.main.mono hblocked (by rw [hjobs]; exact fun _ => id)
      fun hb => absurd (hb.symm.trans hunblocked) (by decide)
  handler _ := hblocked.trans hunblocked
  children_pos := hpos
  deletejob_pos := hdel

/-- `waitpid` reports a terminated child, which is reaped: only its slot, if it has one, is left to
be deleted. -/
theorem reap (h : s.Inv) (hhandler : s.handler = some .waitpid)
    (hchild : ⟨pid, .zombie⟩ ∈ s.children) :
    { s with
      handler := some (.deletejob pid)
      children := s.children.filter fun c => c.pid ≠ pid }.Inv := by
  refine h.of_handler rfl rfl rfl (h.handler (by simp [hhandler])) ?_ ?_ ?_
  · intro i hi
    by_cases hpid : (s.jobs.jobs i).pid = pid
    · exact Or.inr (by rw [hpid])
    · rcases h.unreaped i hi with ⟨c, hc, hcpid⟩ | hdel
      · exact Or.inl ⟨c, List.mem_filter.mpr ⟨hc, by simpa [hcpid] using hpid⟩, hcpid⟩
      · rw [hhandler] at hdel
        cases hdel
  · intro c hc
    exact h.children_pos c (List.mem_filter.mp hc).1
  · rintro _ ⟨⟩
    exact h.children_pos _ hchild

/-- Outside `deletejob`, the slots hold unreaped children. -/
theorem unreaped_of_ne (h : s.Inv) (hne : ∀ pid, s.handler ≠ some (.deletejob pid))
    (i : Fin maxJobs) (hi : (s.jobs.jobs i).pid ≠ 0) : s.Unreaped (s.jobs.jobs i).pid :=
  (h.unreaped i hi).resolve_right (hne _)

/-- `waitpid` reports a stopped child. -/
theorem report (h : s.Inv) (hhandler : s.handler = some .waitpid)
    (hchild : ⟨pid, .stopped false⟩ ∈ s.children) :
    { s with
      handler := some (.deletejob pid)
      children := s.children.map (Child.set pid (.stopped true)) }.Inv := by
  have hset := h.setChild pid (.stopped true)
  refine h.of_handler rfl rfl rfl (h.handler (by rw [hhandler]; exact Option.some_ne_none _))
    (fun i hi => Or.inl ?_) hset.children_pos ?_
  · exact hset.unreaped_of_ne (fun p => by rw [setChild_handler, hhandler]; simp) i hi
  · rintro _ ⟨⟩
    exact h.children_pos _ hchild

/-- The handler goes on to a point that is not `deletejob`, or returns. -/
theorem leaveLoop (h : s.Inv) (hrun : s.handler ≠ none)
    (hne : ∀ pid, s.handler ≠ some (.deletejob pid)) {next : Option Handler}
    (hnext : ∀ pid, next ≠ some (.deletejob pid)) (e : ℤ) :
    { s with handler := next, errno := e }.Inv :=
  h.of_handler rfl rfl rfl (h.handler hrun) (fun i hi => Or.inl (h.unreaped_of_ne hne i hi))
    h.children_pos fun pid heq => absurd heq (hnext pid)

/-- `deletejob` clears the slot of the child that `waitpid` has reported. -/
theorem deletejob (h : s.Inv) (hhandler : s.handler = some (.deletejob pid)) :
    { s with handler := some .waitpid, jobs := (Shlab.deletejob s.jobs pid).1 }.Inv := by
  have hunblocked := h.handler (by rw [hhandler]; exact Option.some_ne_none _)
  have hslot := h.distinct.deletejob (h.deletejob_pos pid hhandler)
  constructor
  · intro i j hi hij
    rcases hslot i with ⟨hieq, -⟩ | ⟨hieq, -⟩
    · dsimp only at hi hij
      rw [hieq] at hi hij
      rcases hslot j with ⟨hjeq, -⟩ | ⟨hjeq, -⟩
      · rw [hjeq] at hij
        exact h.distinct i j hi hij
      · rw [hjeq] at hij
        exact absurd hij hi
    · exact absurd (congrArg Job.pid hieq) hi
  · intro i hi
    rcases hslot i with ⟨hieq, hne⟩ | ⟨hieq, -⟩
    · dsimp only at hi ⊢
      rw [hieq] at hi ⊢
      rcases h.unreaped i hi with hun | hdel
      · exact Or.inl hun
      · rw [hhandler] at hdel
        exact absurd (Handler.deletejob.inj (Option.some.inj hdel)).symm hne
    · exact absurd (congrArg Job.pid hieq) hi
  · intro i hi
    rcases hslot i with ⟨hieq, -⟩ | ⟨hieq, -⟩
    · dsimp only at hi ⊢
      rw [hieq] at hi ⊢
      exact h.fg i hi
    · dsimp only at hi
      rw [hieq] at hi
      cases hi
  · refine h.main.mono rfl (fun i hi => ?_) fun hb => absurd (hb.symm.trans hunblocked) (by decide)
    rcases hslot i with ⟨hieq, -⟩ | ⟨hieq, -⟩
    · rwa [hieq] at hi
    · rw [hieq] at hi
      cases hi
  · exact fun _ => hunblocked
  · exact h.children_pos
  · exact fun _ heq => nomatch heq

/-- A step of the handler keeps the invariant. -/
theorem handlerStep {e : HandlerEvent} (h : s.Inv) (hs : s.handlerStep e = some t) : t.Inv := by
  cases handlerStep_cases hs with
  | deliver hnone _ hunblocked =>
    exact h.of_handler rfl rfl rfl hunblocked
      (fun i hi => Or.inl (h.unreaped_of_ne (by simp [hnone]) i hi)) h.children_pos
      (by simp)
  | reap hwait hzombie => exact h.reap hwait hzombie
  | stopped hwait _ hstopped => exact h.report hwait hstopped
  | waitpidNone hwait => exact h.leaveLoop (by simp [hwait]) (by simp [hwait]) (by simp) s.errno
  | @waitpidError e hwait => exact h.leaveLoop (by simp [hwait]) (by simp [hwait]) (by simp) e
  | deletejob hdel => exact h.deletejob hdel
  | done hcheck => exact h.leaveLoop (by simp [hcheck]) (by simp [hcheck]) (by simp) s.errno
  | exit => exact h.of_unreaped rfl rfl rfl rfl (fun _ => id) h.children_pos

/-- **One step.** -/
theorem step {e : Event} (h : s.Inv) (hs : s.Step e t) : t.Inv := by
  cases e with
  | main e =>
    obtain ⟨hhandler, hs⟩ := step_main hs
    exact h.mainStep hhandler hs
  | handler e => exact h.handlerStep (step_handler hs)
  | kernel e =>
    obtain ⟨pid, state, rfl⟩ := step_kernel hs
    exact h.setChild pid state

/-- Other steps than those of the main thread change the table by removing jobs. -/
theorem jobs_eq_or {e : Event} (h : s.Inv) (hs : s.Step e t) (he : ∀ e', e ≠ .main e')
    (i : Fin maxJobs) : t.jobs.jobs i = s.jobs.jobs i ∨ (t.jobs.jobs i).pid = 0 := by
  cases e with
  | main e => exact absurd rfl (he e)
  | handler e =>
    have hs := step_handler hs
    by_cases hdel : e = .deletejob
    · subst hdel
      obtain ⟨pid, hdel, rfl⟩ := handlerStep_deletejob hs
      rcases h.distinct.deletejob (h.deletejob_pos pid hdel) i with ⟨heq, -⟩ | ⟨heq, -⟩
      · exact .inl heq
      · exact .inr (congrArg Job.pid heq)
    · exact .inl (by rw [handlerStep_jobs hs hdel])
  | kernel e =>
    obtain ⟨pid, state, rfl⟩ := step_kernel hs
    exact .inl rfl

end Inv

/-! ## Runs -/

/-- The job table is consistent with the children and with what the shell is doing. -/
structure JobTableSafe (s : Shell) : Prop where
  /-- The nonzero process IDs are distinct. -/
  pids_distinct : ∀ i j, (s.jobs.jobs i).pid ≠ 0 → (s.jobs.jobs i).pid = (s.jobs.jobs j).pid → i = j
  /-- No slot holds a reaped child, but between `waitpid` and `deletejob`. -/
  not_reaped : ∀ i, (s.jobs.jobs i).pid ≠ 0 →
    s.Unreaped (s.jobs.jobs i).pid ∨ s.handler = some (.deletejob (s.jobs.jobs i).pid)
  /-- At most one slot is in state `FG`. -/
  fg_unique : ∀ i j, (s.jobs.jobs i).state = .fg → (s.jobs.jobs j).state = .fg → i = j
  /-- When `eval` starts, no slot is in state `FG`. -/
  no_fg : ∀ cmd, s.main = .eval cmd → ∀ i, (s.jobs.jobs i).state ≠ .fg

/-- What the invariant says about the job table. -/
theorem Inv.jobTableSafe (h : s.Inv) : s.JobTableSafe where
  pids_distinct := h.distinct
  not_reaped := h.unreaped
  fg_unique _ _ := h.fg_unique
  no_fg cmd hmain := h.state_ne_fg (by rw [hmain]; rfl)

/-- The invariant holds in every state that is reached. -/
theorem inv_of_runs {errno : ℤ} {es : List Event} (h : Runs Step (init errno) es s) : s.Inv :=
  h.invariant (fun _ _ _ hs hstep => hs.step hstep) (inv_init errno)

/-- **Job-table safety.** In every order of the steps of the shell, its handler and its children,
the job table is safe. -/
theorem jobTable_safe (errno : ℤ) {es : List Event} (h : Runs Step (init errno) es s) :
    s.JobTableSafe :=
  (inv_of_runs h).jobTableSafe

/-- A job terminates before it is added. -/
theorem jobTable_safe_example :
    ∃ s, Runs Step (init echild)
      [.main (.read ⟨some "/bin/true", false, "/bin/true"⟩), .main .builtinCmd, .main (.fork 100),
        .kernel (.terminate 100), .main .addjob] s ∧
      s.main = .unblock ⟨some "/bin/true", false, "/bin/true"⟩ 100 ∧ s.JobTableSafe := by
  obtain ⟨s, hrun, hs⟩ := exists_runs_of_runIf Step Shell.main
    (.unblock ⟨some "/bin/true", false, "/bin/true"⟩ 100) (fun _ _ _ h => h)
    (show (runIf (fun _ _ => True) next (init echild)
      [.main (.read ⟨some "/bin/true", false, "/bin/true"⟩), .main .builtinCmd, .main (.fork 100),
        .kernel (.terminate 100), .main .addjob]).map Shell.main =
      some (.unblock ⟨some "/bin/true", false, "/bin/true"⟩ 100) by decide +kernel)
  exact ⟨s, hrun.of_guarded, hs, jobTable_safe echild hrun.of_guarded⟩

end Shell

end SystemsLabs.Shlab
