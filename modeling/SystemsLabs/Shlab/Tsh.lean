import SystemsLabs.Lib.Runs
import SystemsLabs.Shlab.Jobs

/-!
# The shell and its children (`tsh.c`)

A transition system of three parties. The shell's main thread runs `main` and `eval`, one step
between two points at which a signal can arrive. `sigchld_handler` runs when `SIGCHLD` is pending
and not blocked; the main thread stands still meanwhile, and `SIGCHLD` is blocked until the handler
returns. The kernel keeps the children, which stop, continue and terminate at any time; the signals
of several such events are one pending `SIGCHLD`. All choices that are not the shell's own are in
the events, so a step is a function of the state and the event (`Shell.next`).

**Assumptions.** `sigprocmask` succeeds. `fork` and `waitpid` may fail, with any `errno`, and so may
a call of the main thread that only sets `errno`. The keyboard handlers are left out here
(`Shlab.Keyboard` adds them), and so is what is printed, but for `listjobs` (`Shlab.Listing`).
-/

namespace SystemsLabs.Shlab

/-! ## States -/

/-- What `parseline` makes of a command line; `argv0` is `none` for a blank one. -/
structure Command where
  argv0 : Option String
  bg : Bool
  cmdline : String
  deriving DecidableEq

/-- What `builtin_cmd` does. -/
inductive Builtin
  /-- It exits, or crashes on `argv[0] = NULL`. -/
  | exits
  /-- It runs the command; `fg` and `bg` do nothing. -/
  | runs
  /-- The command is not built in. -/
  | no
  deriving DecidableEq

/-- `builtin_cmd`. -/
def builtinCmd : Option String → Builtin
  | none => .exits
  | some name =>
    if name = "quit" then .exits
    else if name = "jobs" ∨ name = "fg" ∨ name = "bg" then .runs
    else .no

/-- What the main thread does next. -/
inductive Main
  /-- `main`: read a command line. -/
  | prompt
  /-- `eval` has started on a command line. -/
  | eval (cmd : Command)
  /-- `SIGCHLD` is blocked; `Fork` comes next. -/
  | fork (cmd : Command)
  /-- The parent: `addjob` comes next. -/
  | addjob (cmd : Command) (pid : ℤ)
  /-- Unblocking `SIGCHLD` comes next. -/
  | unblock (cmd : Command) (pid : ℤ)
  /-- `waitfg`, in `fgpid`: read `jobs[i].state`. -/
  | readState (pid : ℤ) (i : ℕ)
  /-- `waitfg`, in `fgpid`: read `jobs[i].pid`. -/
  | readPid (pid : ℤ) (i : Fin maxJobs)
  /-- Print the job ID of a background job. -/
  | report (pid : ℤ)
  deriving DecidableEq

/-- What `sigchld_handler` does next. -/
inductive Handler
  | waitpid
  /-- `waitpid` has returned this process ID. -/
  | deletejob (pid : ℤ)
  /-- The loop has ended; compare `errno`. -/
  | checkErrno
  deriving DecidableEq

/-- A child that has not been reaped yet. -/
inductive ChildState
  | running
  /-- Stopped; the flag says whether `waitpid` has reported it. -/
  | stopped (reported : Bool)
  | zombie
  deriving DecidableEq

/-- An entry of the kernel's process table. -/
structure Child where
  pid : ℤ
  state : ChildState
  deriving DecidableEq

/-- The new state of one child, applied to an entry of the table. -/
def Child.set (pid : ℤ) (state : ChildState) (c : Child) : Child :=
  if c.pid = pid then ⟨pid, state⟩ else c

/-- A child keeps its process ID. -/
@[simp] theorem Child.set_pid (pid : ℤ) (state : ChildState) (c : Child) :
    (c.set pid state).pid = c.pid := by
  unfold Child.set
  split_ifs with h
  · exact h.symm
  · rfl

/-- The shell and its children. -/
structure Shell where
  jobs : JobList
  main : Main
  /-- `SIGCHLD` is blocked by the mask that `eval` sets. -/
  blocked : Bool
  pending : Bool
  /-- The run of `sigchld_handler`, if there is one. -/
  handler : Option Handler
  /-- The children that have not been reaped. -/
  children : List Child
  errno : ℤ
  exited : Bool

/-- `ECHILD`. -/
abbrev echild : ℤ := 10

/-- The shell when `main` enters its loop. -/
def Shell.init (errno : ℤ) : Shell where
  jobs := initjobs
  main := .prompt
  blocked := false
  pending := false
  handler := none
  children := []
  errno := errno
  exited := false

/-! ## Steps -/

/-- Steps of the main thread. -/
inductive MainEvent
  /-- `fgets` returns a line, which `parseline` splits. -/
  | read (cmd : Command)
  /-- End of file. -/
  | eof
  /-- `builtin_cmd`, and blocking `SIGCHLD` if the command is not built in. -/
  | builtinCmd
  | fork (pid : ℤ)
  | forkError
  | addjob
  | unblock
  /-- The next read of `fgpid`. -/
  | fgpid
  | report
  /-- A call of the main thread sets `errno`. -/
  | errno (e : ℤ)

/-- Steps of `sigchld_handler`. -/
inductive HandlerEvent
  /-- The signal is delivered. -/
  | deliver
  /-- `waitpid` reports a child. -/
  | waitpid (pid : ℤ)
  /-- `waitpid` returns 0. -/
  | waitpidNone
  /-- `waitpid` fails. -/
  | waitpidError (e : ℤ)
  | deletejob
  | checkErrno

/-- What happens to a child. -/
inductive KernelEvent
  | terminate (pid : ℤ)
  | stop (pid : ℤ)
  | continue (pid : ℤ)

/-- A step of the main thread, of the handler or of the kernel. -/
inductive Event
  | main (e : MainEvent)
  | handler (e : HandlerEvent)
  | kernel (e : KernelEvent)

namespace Shell

/-- A child of this process ID has not been reaped. -/
def Unreaped (s : Shell) (pid : ℤ) : Prop := ∃ c ∈ s.children, c.pid = pid

instance (s : Shell) (pid : ℤ) : Decidable (s.Unreaped pid) :=
  inferInstanceAs (Decidable (∃ c ∈ s.children, c.pid = pid))

/-- A step of the main thread. The kernel gives a child a process ID that no unreaped child has. -/
def mainStep (s : Shell) : MainEvent → Option Shell
  | .read cmd => if s.main = .prompt then some { s with main := .eval cmd } else none
  | .eof => if s.main = .prompt then some { s with exited := true } else none
  | .builtinCmd =>
    match s.main with
    | .eval cmd =>
      match builtinCmd cmd.argv0 with
      | .exits => some { s with exited := true }
      | .runs => some { s with main := .prompt }
      | .no => some { s with main := .fork cmd, blocked := true }
    | _ => none
  | .fork pid =>
    match s.main with
    | .fork cmd =>
      if 0 < pid ∧ ¬ s.Unreaped pid then
        some { s with main := .addjob cmd pid, children := ⟨pid, .running⟩ :: s.children }
      else none
    | _ => none
  | .forkError =>
    match s.main with
    | .fork _ => some { s with exited := true }
    | _ => none
  | .addjob =>
    match s.main with
    | .addjob cmd pid =>
      let state := if cmd.bg then .bg else .fg
      some { s with jobs := (addjob s.jobs pid state cmd.cmdline).1, main := .unblock cmd pid }
    | _ => none
  | .unblock =>
    match s.main with
    | .unblock cmd pid =>
      some { s with blocked := false, main := if cmd.bg then .report pid else .readState pid 0 }
    | _ => none
  | .fgpid =>
    match s.main with
    | .readState pid i =>
      if h : i < maxJobs then
        if (s.jobs.jobs ⟨i, h⟩).state = .fg then some { s with main := .readPid pid ⟨i, h⟩ }
        else some { s with main := .readState pid (i + 1) }
      else some { s with main := if pid = 0 then .readState pid 0 else .prompt }
    | .readPid pid i =>
      some { s with main := if pid = (s.jobs.jobs i).pid then .readState pid 0 else .prompt }
    | _ => none
  | .report =>
    match s.main with
    | .report _ => some { s with main := .prompt }
    | _ => none
  | .errno e => some { s with errno := e }

/-- A step of `sigchld_handler`. -/
def handlerStep (s : Shell) : HandlerEvent → Option Shell
  | .deliver =>
    if s.handler = none ∧ s.pending = true ∧ s.blocked = false then
      some { s with handler := some .waitpid, pending := false }
    else none
  | .waitpid pid =>
    if s.handler = some .waitpid then
      if ⟨pid, .zombie⟩ ∈ s.children then
        some { s with
          handler := some (.deletejob pid)
          children := s.children.filter fun c => c.pid ≠ pid }
      else if ⟨pid, .stopped false⟩ ∈ s.children then
        some { s with
          handler := some (.deletejob pid)
          children := s.children.map (Child.set pid (.stopped true)) }
      else none
    else none
  | .waitpidNone =>
    if s.handler = some .waitpid ∧ s.children ≠ [] ∧
        ∀ c ∈ s.children, c.state ≠ .zombie ∧ c.state ≠ .stopped false then
      some { s with handler := some .checkErrno }
    else none
  | .waitpidError e =>
    if s.handler = some .waitpid ∧ (e = echild → s.children = []) then
      some { s with handler := some .checkErrno, errno := e }
    else none
  | .deletejob =>
    match s.handler with
    | some (.deletejob pid) =>
      some { s with handler := some .waitpid, jobs := (deletejob s.jobs pid).1 }
    | _ => none
  | .checkErrno =>
    if s.handler = some .checkErrno then
      if s.errno = echild then some { s with handler := none } else some { s with exited := true }
    else none

/-- The children after one of them has changed its state. -/
def setChild (s : Shell) (pid : ℤ) (state : ChildState) : Shell :=
  { s with
    children := s.children.map (Child.set pid state)
    pending := true }

/-- The kernel does not touch the handler. -/
@[simp] theorem setChild_handler (s : Shell) (pid : ℤ) (state : ChildState) :
    (s.setChild pid state).handler = s.handler := rfl

/-- A child changes its state, and the shell gets a `SIGCHLD`. -/
def kernelStep (s : Shell) : KernelEvent → Option Shell
  | .terminate pid =>
    if ∃ c ∈ s.children, c.pid = pid ∧ c.state ≠ .zombie then some (s.setChild pid .zombie)
    else none
  | .stop pid =>
    if ⟨pid, .running⟩ ∈ s.children then some (s.setChild pid (.stopped false)) else none
  | .continue pid =>
    if ∃ c ∈ s.children, c.pid = pid ∧ (∃ r, c.state = .stopped r) then
      some (s.setChild pid .running)
    else none

/-- One step. -/
def next (s : Shell) (e : Event) : Option Shell :=
  if s.exited then none
  else
    match e with
    | .main e => if s.handler = none then s.mainStep e else none
    | .handler e => s.handlerStep e
    | .kernel e => s.kernelStep e

/-- The step relation. -/
def Step (s : Shell) (e : Event) (t : Shell) : Prop := s.next e = some t

variable {s t : Shell}

/-- The shell takes no step after it has exited. -/
theorem Step.not_exited {e : Event} (h : s.Step e t) : s.exited = false := by
  unfold Step next at h
  by_contra hexited
  rw [if_pos (by simpa using hexited)] at h
  cases h

/-- The main thread runs only outside of the handler. -/
theorem step_main {e : MainEvent} (h : s.Step (.main e) t) :
    s.handler = none ∧ s.mainStep e = some t := by
  have hexited := h.not_exited
  simp only [Step, next, hexited, Bool.false_eq_true, if_false] at h
  split_ifs at h with hhandler
  exact ⟨hhandler, h⟩

/-- A step of the handler. -/
theorem step_handler {e : HandlerEvent} (h : s.Step (.handler e) t) :
    s.handlerStep e = some t := by
  have hexited := h.not_exited
  simpa only [Step, next, hexited, Bool.false_eq_true, if_false] using h

/-- A step of the kernel changes the state of one child. -/
theorem step_kernel {e : KernelEvent} (h : s.Step (.kernel e) t) :
    ∃ pid state, t = s.setChild pid state := by
  have hexited := h.not_exited
  simp only [Step, next, hexited, Bool.false_eq_true, if_false] at h
  cases e <;> simp only [kernelStep] at h <;> split_ifs at h <;>
    exact ⟨_, _, (Option.some.inj h).symm⟩

/-! ## The steps of the main thread, one by one -/

/-- What a step of the main thread finds and does. -/
inductive MainStep (s : Shell) : MainEvent → Shell → Prop
  | read {cmd : Command} (hmain : s.main = .prompt) :
      MainStep s (.read cmd) { s with main := .eval cmd }
  | eof (hmain : s.main = .prompt) : MainStep s .eof { s with exited := true }
  | quit {cmd : Command} (hmain : s.main = .eval cmd) (hquit : builtinCmd cmd.argv0 = .exits) :
      MainStep s .builtinCmd { s with exited := true }
  | builtin {cmd : Command} (hmain : s.main = .eval cmd) (hruns : builtinCmd cmd.argv0 = .runs) :
      MainStep s .builtinCmd { s with main := .prompt }
  | block {cmd : Command} (hmain : s.main = .eval cmd) (hno : builtinCmd cmd.argv0 = .no) :
      MainStep s .builtinCmd { s with main := .fork cmd, blocked := true }
  | fork {cmd : Command} {pid : ℤ} (hmain : s.main = .fork cmd) (hpos : 0 < pid)
      (hfresh : ¬ s.Unreaped pid) : MainStep s (.fork pid)
        { s with main := .addjob cmd pid, children := ⟨pid, .running⟩ :: s.children }
  | forkError {cmd : Command} (hmain : s.main = .fork cmd) :
      MainStep s .forkError { s with exited := true }
  | addjob {cmd : Command} {pid : ℤ} (hmain : s.main = .addjob cmd pid) :
      MainStep s .addjob { s with
        jobs := (addjob s.jobs pid (if cmd.bg then .bg else .fg) cmd.cmdline).1
        main := .unblock cmd pid }
  | unblock {cmd : Command} {pid : ℤ} (hmain : s.main = .unblock cmd pid) :
      MainStep s .unblock
        { s with blocked := false, main := if cmd.bg then .report pid else .readState pid 0 }
  /-- `fgpid` finds a slot in state `FG`. -/
  | slotFg {pid : ℤ} {i : Fin maxJobs} (hmain : s.main = .readState pid i)
      (hfg : (s.jobs.jobs i).state = .fg) : MainStep s .fgpid { s with main := .readPid pid i }
  /-- `fgpid` goes on to the next slot. -/
  | slotNext {pid : ℤ} {i : Fin maxJobs} (hmain : s.main = .readState pid i)
      (hfg : (s.jobs.jobs i).state ≠ .fg) :
      MainStep s .fgpid { s with main := .readState pid (i + 1) }
  /-- `fgpid` returns 0. -/
  | scanEnd {pid : ℤ} {k : ℕ} (hmain : s.main = .readState pid k) (hk : maxJobs ≤ k) :
      MainStep s .fgpid { s with main := if pid = 0 then .readState pid 0 else .prompt }
  /-- `fgpid` returns the process ID that `waitfg` waits for. -/
  | samePid {pid : ℤ} {i : Fin maxJobs} (hmain : s.main = .readPid pid i)
      (hpid : pid = (s.jobs.jobs i).pid) : MainStep s .fgpid { s with main := .readState pid 0 }
  /-- `fgpid` returns another process ID. -/
  | otherPid {pid : ℤ} {i : Fin maxJobs} (hmain : s.main = .readPid pid i)
      (hpid : pid ≠ (s.jobs.jobs i).pid) : MainStep s .fgpid { s with main := .prompt }
  | report {pid : ℤ} (hmain : s.main = .report pid) : MainStep s .report { s with main := .prompt }
  | errno {e : ℤ} : MainStep s (.errno e) { s with errno := e }

/-- Each step of the main thread is one of these. -/
theorem mainStep_cases {e : MainEvent} (h : s.mainStep e = some t) : s.MainStep e t := by
  cases e with
  | read cmd =>
    simp only [mainStep] at h
    split_ifs at h with hmain
    exact Option.some.inj h ▸ .read hmain
  | eof =>
    simp only [mainStep] at h
    split_ifs at h with hmain
    exact Option.some.inj h ▸ .eof hmain
  | builtinCmd =>
    simp only [mainStep] at h
    split at h
    · next cmd hmain =>
      split at h
      · next hquit => exact Option.some.inj h ▸ .quit hmain hquit
      · next hruns => exact Option.some.inj h ▸ .builtin hmain hruns
      · next hno => exact Option.some.inj h ▸ .block hmain hno
    · cases h
  | fork pid =>
    simp only [mainStep] at h
    split at h
    · next cmd hmain =>
      split_ifs at h with hpid
      exact Option.some.inj h ▸ .fork hmain hpid.1 hpid.2
    · cases h
  | forkError =>
    simp only [mainStep] at h
    split at h
    · next cmd hmain => exact Option.some.inj h ▸ .forkError hmain
    · cases h
  | addjob =>
    simp only [mainStep] at h
    split at h
    · next cmd pid hmain => exact Option.some.inj h ▸ .addjob hmain
    · cases h
  | unblock =>
    simp only [mainStep] at h
    split at h
    · next cmd pid hmain => exact Option.some.inj h ▸ .unblock hmain
    · cases h
  | fgpid =>
    simp only [mainStep] at h
    split at h
    · next pid k hmain =>
      by_cases hk : k < maxJobs
      · rw [dif_pos hk] at h
        split_ifs at h with hfg
        · exact Option.some.inj h ▸ .slotFg (i := ⟨k, hk⟩) hmain hfg
        · exact Option.some.inj h ▸ .slotNext (i := ⟨k, hk⟩) hmain hfg
      · rw [dif_neg hk] at h
        exact Option.some.inj h ▸ .scanEnd hmain (Nat.le_of_not_lt hk)
    · next pid i hmain =>
      by_cases hpid : pid = (s.jobs.jobs i).pid
      · rw [if_pos hpid] at h
        exact Option.some.inj h ▸ .samePid hmain hpid
      · rw [if_neg hpid] at h
        exact Option.some.inj h ▸ .otherPid hmain hpid
    · cases h
  | report =>
    simp only [mainStep] at h
    split at h
    · next pid hmain => exact Option.some.inj h ▸ .report hmain
    · cases h
  | errno e => exact Option.some.inj h ▸ .errno

/-! ## The steps of the handler, one by one -/

/-- What a step of `sigchld_handler` finds and does. -/
inductive HandlerStep (s : Shell) : HandlerEvent → Shell → Prop
  | deliver (hnone : s.handler = none) (hpending : s.pending = true)
      (hunblocked : s.blocked = false) :
      HandlerStep s .deliver { s with handler := some .waitpid, pending := false }
  /-- `waitpid` reports a child that has terminated. -/
  | reap {pid : ℤ} (hwait : s.handler = some .waitpid) (hzombie : ⟨pid, .zombie⟩ ∈ s.children) :
      HandlerStep s (.waitpid pid) { s with
        handler := some (.deletejob pid)
        children := s.children.filter fun c => c.pid ≠ pid }
  /-- `waitpid` reports a child that has stopped. -/
  | stopped {pid : ℤ} (hwait : s.handler = some .waitpid)
      (hzombie : ⟨pid, .zombie⟩ ∉ s.children) (hstopped : ⟨pid, .stopped false⟩ ∈ s.children) :
      HandlerStep s (.waitpid pid) { s with
        handler := some (.deletejob pid)
        children := s.children.map (Child.set pid (.stopped true)) }
  | waitpidNone (hwait : s.handler = some .waitpid) (hchildren : s.children ≠ [])
      (hnone : ∀ c ∈ s.children, c.state ≠ .zombie ∧ c.state ≠ .stopped false) :
      HandlerStep s .waitpidNone { s with handler := some .checkErrno }
  | waitpidError {e : ℤ} (hwait : s.handler = some .waitpid) (he : e = echild → s.children = []) :
      HandlerStep s (.waitpidError e) { s with handler := some .checkErrno, errno := e }
  | deletejob {pid : ℤ} (hdel : s.handler = some (.deletejob pid)) :
      HandlerStep s .deletejob
        { s with handler := some .waitpid, jobs := (deletejob s.jobs pid).1 }
  | done (hcheck : s.handler = some .checkErrno) (herrno : s.errno = echild) :
      HandlerStep s .checkErrno { s with handler := none }
  | exit (hcheck : s.handler = some .checkErrno) (herrno : s.errno ≠ echild) :
      HandlerStep s .checkErrno { s with exited := true }

/-- Each step of the handler is one of these. -/
theorem handlerStep_cases {e : HandlerEvent} (h : s.handlerStep e = some t) :
    s.HandlerStep e t := by
  cases e with
  | deliver =>
    simp only [handlerStep] at h
    split_ifs at h with hguard
    exact Option.some.inj h ▸ .deliver hguard.1 hguard.2.1 hguard.2.2
  | waitpid pid =>
    simp only [handlerStep] at h
    split_ifs at h with hwait hzombie hstopped
    · exact Option.some.inj h ▸ .reap hwait hzombie
    · exact Option.some.inj h ▸ .stopped hwait hzombie hstopped
  | waitpidNone =>
    simp only [handlerStep] at h
    split_ifs at h with hguard
    exact Option.some.inj h ▸ .waitpidNone hguard.1 hguard.2.1 hguard.2.2
  | waitpidError e =>
    simp only [handlerStep] at h
    split_ifs at h with hguard
    exact Option.some.inj h ▸ .waitpidError hguard.1 hguard.2
  | deletejob =>
    simp only [handlerStep] at h
    split at h
    · next pid hdel => exact Option.some.inj h ▸ .deletejob hdel
    · cases h
  | checkErrno =>
    simp only [handlerStep] at h
    split_ifs at h with hcheck herrno
    · exact Option.some.inj h ▸ .done hcheck herrno
    · exact Option.some.inj h ▸ .exit hcheck herrno

/-! ## What the steps leave alone -/

/-- The main thread does not touch the handler. -/
theorem mainStep_handler {e : MainEvent} (h : s.mainStep e = some t) : t.handler = s.handler := by
  cases mainStep_cases h <;> rfl

/-- The main thread changes the job table by `addjob` only. -/
theorem mainStep_jobs {e : MainEvent} (h : s.mainStep e = some t) (he : e ≠ .addjob) :
    t.jobs = s.jobs := by
  cases mainStep_cases h with
  | addjob => exact absurd rfl he
  | _ => rfl

/-- What `addjob` has done. -/
theorem mainStep_addjob (h : s.mainStep .addjob = some t) :
    ∃ cmd pid, s.main = .addjob cmd pid ∧
      t = { s with
        jobs := (addjob s.jobs pid (if cmd.bg then .bg else .fg) cmd.cmdline).1
        main := .unblock cmd pid } := by
  cases mainStep_cases h with
  | addjob hmain => exact ⟨_, _, hmain, rfl⟩

/-- Of the steps of the main thread, only `fork` makes children. -/
theorem mainStep_children {e : MainEvent} (h : s.mainStep e = some t) :
    t.children = s.children ∨
      ∃ pid, e = .fork pid ∧ t.children = ⟨pid, .running⟩ :: s.children := by
  cases mainStep_cases h with
  | fork => exact .inr ⟨_, rfl, rfl⟩
  | _ => exact .inl rfl

/-- The handler makes no children. -/
theorem handlerStep_children {e : HandlerEvent} (h : s.handlerStep e = some t) :
    ∀ c ∈ t.children, ∃ c' ∈ s.children, c'.pid = c.pid := by
  intro c hc
  cases handlerStep_cases h with
  | reap => exact ⟨c, (List.mem_filter.mp hc).1, rfl⟩
  | stopped =>
    obtain ⟨c', hc', rfl⟩ := List.mem_map.mp hc
    exact ⟨c', hc', (Child.set_pid ..).symm⟩
  | _ => exact ⟨c, hc, rfl⟩

/-- A child was there before the step, or has been forked by it. -/
theorem Step.children {e : Event} (h : s.Step e t) :
    ∀ c ∈ t.children, (∃ c' ∈ s.children, c'.pid = c.pid) ∨ e = .main (.fork c.pid) := by
  intro c hc
  cases e with
  | main e =>
    rcases mainStep_children (step_main h).2 with heq | ⟨pid, rfl, heq⟩
    · exact .inl ⟨c, heq ▸ hc, rfl⟩
    · rw [heq] at hc
      rcases List.mem_cons.mp hc with rfl | hc
      · exact .inr rfl
      · exact .inl ⟨c, hc, rfl⟩
  | handler e => exact .inl (handlerStep_children (step_handler h) c hc)
  | kernel e =>
    obtain ⟨pid, state, rfl⟩ := step_kernel h
    obtain ⟨c', hc', rfl⟩ := List.mem_map.mp hc
    exact .inl ⟨c', hc', (Child.set_pid ..).symm⟩

/-- The steps of the handler leave the main thread and the mask alone. -/
theorem handlerStep_main {e : HandlerEvent} (h : s.handlerStep e = some t) :
    t.main = s.main ∧ t.blocked = s.blocked := by
  cases handlerStep_cases h <;> exact ⟨rfl, rfl⟩

/-- The handler changes the job table by `deletejob` only. -/
theorem handlerStep_jobs {e : HandlerEvent} (h : s.handlerStep e = some t) (he : e ≠ .deletejob) :
    t.jobs = s.jobs := by
  cases handlerStep_cases h with
  | deletejob => exact absurd rfl he
  | _ => rfl

/-- What `deletejob` has done. -/
theorem handlerStep_deletejob (h : s.handlerStep .deletejob = some t) :
    ∃ pid, s.handler = some (.deletejob pid) ∧
      t = { s with handler := some .waitpid, jobs := (deletejob s.jobs pid).1 } := by
  cases handlerStep_cases h with
  | deletejob hdel => exact ⟨_, hdel, rfl⟩

/-- `waitpid` reports a child that has terminated, or one that has stopped. -/
theorem handlerStep_waitpid {pid : ℤ} (h : s.handlerStep (.waitpid pid) = some t) :
    s.handler = some .waitpid ∧ t.handler = some (.deletejob pid) ∧
      (⟨pid, .zombie⟩ ∈ s.children ∨
        ⟨pid, .zombie⟩ ∉ s.children ∧ ⟨pid, .stopped false⟩ ∈ s.children) := by
  cases handlerStep_cases h with
  | reap hwait hzombie => exact ⟨hwait, rfl, .inl hzombie⟩
  | stopped hwait hzombie hstopped => exact ⟨hwait, rfl, .inr ⟨hzombie, hstopped⟩⟩

/-- Other steps of the handler do not start or end the work on a report. -/
theorem handlerStep_handler {e : HandlerEvent} (h : s.handlerStep e = some t)
    (he : e ≠ .deletejob) (he' : ∀ pid, e ≠ .waitpid pid) (pid : ℤ) :
    (t.handler ≠ some (.deletejob pid) ∧ s.handler ≠ some (.deletejob pid)) ∨
      t.handler = s.handler := by
  cases handlerStep_cases h with
  | deliver hnone => exact .inl ⟨by simp, by simp [hnone]⟩
  | reap | stopped => exact absurd rfl (he' _)
  | waitpidNone hwait | waitpidError hwait => exact .inl ⟨by simp, by simp [hwait]⟩
  | deletejob => exact absurd rfl he
  | done hcheck => exact .inl ⟨by simp, by simp [hcheck]⟩
  | exit => exact .inr rfl

end Shell

end SystemsLabs.Shlab
