import SystemsLabs.Shlab.JobTable

/-!
# The keyboard handlers (`tsh.c`)

`sigint_handler` and `sigtstp_handler` beside the shell of `Shlab.Tsh`. They interrupt `main`,
`sigchld_handler` and each other between any two steps, and are interrupted by `sigchld_handler`:
the handlers that run form a stack, of which only the first one moves. A child starts in the process
group of the shell and leaves it when it calls `setpgid(0, 0)`.

**Assumptions.** `getpgid` fails if and only if the process does not exist, and `kill` if and only
if the group has no process (`ESRCH`) or none that the shell may signal (`EPERM`: a child that runs
a set-user-ID program such as `sudo` has other credentials than the shell). The processes of a group
are the children of the shell that are in it; what these fork is left out.
-/

namespace SystemsLabs.Shlab

open Lib

/-- `SIGINT` and `SIGTSTP`. -/
inductive Keyboard
  | sigint
  | sigtstp
  deriving DecidableEq

/-- What `sigint_handler` or `sigtstp_handler` does next, with its local variables. -/
inductive KeyPc
  /-- In `fgpid`: read `jobs[i].state`. -/
  | readState (i : ℕ)
  /-- In `fgpid`: read `jobs[i].pid`. -/
  | readPid (i : Fin maxJobs)
  | getpgid (pid : ℤ)
  /-- In `pid2jid`: compare `jobs[i].pid`. -/
  | findJob (pid pgid : ℤ) (i : ℕ)
  /-- In `pid2jid`: read `jobs[i].jid`. -/
  | readJid (pid pgid : ℤ) (i : Fin maxJobs)
  | kill (pid pgid jid : ℤ)
  /-- Print that the job has been signalled. -/
  | printf (pid jid : ℤ)
  deriving DecidableEq

/-- A handler that has started and has not returned. The state of `sigchld_handler` is
`Shell.handler`. -/
inductive Frame
  | sigchld
  | keyboard (sig : Keyboard) (pc : KeyPc)
  deriving DecidableEq

/-- The signal of a keyboard handler. -/
def Frame.sig : Frame → Option Keyboard
  | .sigchld => none
  | .keyboard sig _ => some sig

/-- The shell with its handlers, and the process groups of its children. -/
structure Terminal where
  shell : Shell
  /-- The handlers that run, the last one that started first. -/
  frames : List Frame
  /-- The process group of each child. -/
  group : ℤ → ℤ
  /-- The process group of the shell. -/
  shellGroup : ℤ
  /-- The children that the shell may signal. -/
  maySignal : ℤ → Bool
  /-- A keyboard handler has called `unix_error`. -/
  killed : Bool

/-- The steps of the shell, its handlers and its children. -/
inductive TermEvent
  /-- A step of `main`, of `sigchld_handler` or of the kernel. -/
  | shell (e : Event)
  /-- A child calls `setpgid(0, 0)`. -/
  | setpgid (pid : ℤ)
  /-- A child changes its credentials, and the shell may signal it or not. -/
  | credentials (pid : ℤ) (maySignal : Bool)
  /-- A keyboard signal is delivered. -/
  | press (sig : Keyboard)
  /-- The next step of the keyboard handler that runs. -/
  | key

namespace Terminal

/-- The shell when `main` enters its loop. -/
def init (errno shellGroup : ℤ) : Terminal where
  shell := .init errno
  frames := []
  group _ := shellGroup
  shellGroup := shellGroup
  maySignal _ := true
  killed := false

/-- `getpgid`; it fails if the process does not exist. -/
def getpgid (c : Terminal) (pid : ℤ) : Option ℤ :=
  if c.shell.Unreaped pid then some (c.group pid) else none

/-- There is a process in the group that the shell may signal: a child, or the shell. -/
def CanSignal (c : Terminal) (pgid : ℤ) : Prop :=
  pgid = c.shellGroup ∨
    ∃ child ∈ c.shell.children, c.group child.pid = pgid ∧ c.maySignal child.pid = true

instance (c : Terminal) (pgid : ℤ) : Decidable (c.CanSignal pgid) :=
  inferInstanceAs (Decidable (_ ∨ ∃ _ ∈ _, _))

/-- `unix_error` in a keyboard handler. -/
def unixError (c : Terminal) : Terminal :=
  { c with shell := { c.shell with exited := true }, killed := true }

/-- A step of the handler of a keyboard signal, which is the first of the frames and has the others
below it. `sigint_handler` and `sigtstp_handler` differ in the signal that `Kill` sends. -/
def keyboardHandler (c : Terminal) (sig : Keyboard) (rest : List Frame) : KeyPc → Terminal
  | .readState i =>
    if h : i < maxJobs then
      if (c.shell.jobs.jobs ⟨i, h⟩).state = .fg then
        { c with frames := .keyboard sig (.readPid ⟨i, h⟩) :: rest }
      else { c with frames := .keyboard sig (.readState (i + 1)) :: rest }
    else { c with frames := rest }
  | .readPid i =>
    let pid := (c.shell.jobs.jobs i).pid
    if pid = 0 then { c with frames := rest }
    else { c with frames := .keyboard sig (.getpgid pid) :: rest }
  | .getpgid pid =>
    match c.getpgid pid with
    | some pgid => { c with frames := .keyboard sig (.findJob pid pgid 0) :: rest }
    | none => c.unixError
  | .findJob pid pgid i =>
    if pid < 1 then { c with frames := rest }
    else if h : i < maxJobs then
      if (c.shell.jobs.jobs ⟨i, h⟩).pid = pid then
        { c with frames := .keyboard sig (.readJid pid pgid ⟨i, h⟩) :: rest }
      else { c with frames := .keyboard sig (.findJob pid pgid (i + 1)) :: rest }
    else { c with frames := rest }
  | .readJid pid pgid i =>
    let jid := (c.shell.jobs.jobs i).jid
    if jid = 0 then { c with frames := rest }
    else { c with frames := .keyboard sig (.kill pid pgid jid) :: rest }
  | .kill pid pgid jid =>
    if c.CanSignal pgid then { c with frames := .keyboard sig (.printf pid jid) :: rest }
    else c.unixError
  | .printf _ _ => { c with frames := rest }

/-- `sigint_handler`. -/
def sigintHandler (c : Terminal) (rest : List Frame) (pc : KeyPc) : Terminal :=
  c.keyboardHandler .sigint rest pc

/-- `sigtstp_handler`. -/
def sigtstpHandler (c : Terminal) (rest : List Frame) (pc : KeyPc) : Terminal :=
  c.keyboardHandler .sigtstp rest pc

/-- A step of the shell, of `sigchld_handler` or of the kernel. The main thread runs when no handler
does, and a signal is blocked while its handler runs. The kernel gives a child no process ID that is
the ID of the shell's process group, and the child starts in that group with the credentials of the
shell. -/
def shellStep (c : Terminal) (e : Event) : Option Terminal :=
  match e with
  | .main (.fork pid) =>
    if c.frames = [] ∧ pid ≠ c.shellGroup then
      (c.shell.next e).map fun s =>
        { c with
          shell := s
          group := Function.update c.group pid c.shellGroup
          maySignal := Function.update c.maySignal pid true }
    else none
  | .main _ => if c.frames = [] then (c.shell.next e).map fun s => { c with shell := s } else none
  | .handler .deliver =>
    (c.shell.next e).map fun s => { c with shell := s, frames := .sigchld :: c.frames }
  | .handler _ =>
    match c.frames with
    | .sigchld :: rest =>
      (c.shell.next e).map fun s =>
        { c with shell := s, frames := if s.handler = none then rest else c.frames }
    | _ => none
  | .kernel _ => (c.shell.next e).map fun s => { c with shell := s }

/-- One step. -/
def next (c : Terminal) (e : TermEvent) : Option Terminal :=
  if c.shell.exited then none
  else
    match e with
    | .shell e => c.shellStep e
    | .setpgid pid =>
      if ⟨pid, .running⟩ ∈ c.shell.children then
        some { c with group := Function.update c.group pid pid }
      else none
    | .credentials pid maySignal =>
      if ⟨pid, .running⟩ ∈ c.shell.children then
        some { c with maySignal := Function.update c.maySignal pid maySignal }
      else none
    | .press sig =>
      if ∀ f ∈ c.frames, f.sig ≠ some sig then
        some { c with frames := .keyboard sig (.readState 0) :: c.frames }
      else none
    | .key =>
      match c.frames with
      | .keyboard .sigint pc :: rest => some (c.sigintHandler rest pc)
      | .keyboard .sigtstp pc :: rest => some (c.sigtstpHandler rest pc)
      | _ => none

/-- The step relation. -/
def Step (c : Terminal) (e : TermEvent) (d : Terminal) : Prop := c.next e = some d

/-! ## What the steps do -/

variable {c d : Terminal}

/-- A step of the shell is one of `Shell.Step`. It changes the frames by a `sigchld_handler` that
starts, returns or goes on. -/
theorem shellStep_cases {e : Event} (h : c.shellStep e = some d) :
    c.shell.Step e d.shell ∧ d.shellGroup = c.shellGroup ∧ d.killed = c.killed ∧
      (∀ pid, e = .main (.fork pid) → pid ≠ c.shellGroup) ∧
      ((∃ e', e = .main e') → d.frames = []) ∧
      (d.frames = c.frames ∨ d.frames = .sigchld :: c.frames ∨
        c.frames = .sigchld :: d.frames) := by
  unfold shellStep at h
  split at h
  · next pid =>
    split_ifs at h with hguard
    obtain ⟨s, hs, rfl⟩ := Option.map_eq_some_iff.mp h
    refine ⟨hs, rfl, rfl, ?_, fun _ => hguard.1, .inl rfl⟩
    rintro p ⟨⟩
    exact hguard.2
  · next e hne =>
    split_ifs at h with hguard
    obtain ⟨s, hs, rfl⟩ := Option.map_eq_some_iff.mp h
    refine ⟨hs, rfl, rfl, ?_, fun _ => hguard, .inl rfl⟩
    rintro p ⟨⟩
    exact absurd rfl (hne p)
  · obtain ⟨s, hs, rfl⟩ := Option.map_eq_some_iff.mp h
    exact ⟨hs, rfl, rfl, by simp, by simp, .inr (.inl rfl)⟩
  · split at h
    · next rest hframes =>
      obtain ⟨s, hs, rfl⟩ := Option.map_eq_some_iff.mp h
      refine ⟨hs, rfl, rfl, by simp, by simp, ?_⟩
      dsimp only
      split_ifs
      · exact .inr (.inr hframes)
      · exact .inl rfl
    · cases h
  · obtain ⟨s, hs, rfl⟩ := Option.map_eq_some_iff.mp h
    exact ⟨hs, rfl, rfl, by simp, by simp, .inl rfl⟩

/-- What a step of the terminal is. -/
theorem step_cases {e : TermEvent} (h : c.Step e d) :
    (∃ e', e = .shell e' ∧ c.shellStep e' = some d) ∨
    (∃ pid, e = .setpgid pid ∧ d = { c with group := Function.update c.group pid pid }) ∨
    (∃ pid b, e = .credentials pid b ∧
      d = { c with maySignal := Function.update c.maySignal pid b }) ∨
    (∃ sig, e = .press sig ∧ (∀ f ∈ c.frames, f.sig ≠ some sig) ∧
      d = { c with frames := .keyboard sig (.readState 0) :: c.frames }) ∨
    ∃ sig pc rest, e = .key ∧ c.frames = .keyboard sig pc :: rest ∧
      d = c.keyboardHandler sig rest pc := by
  unfold Step next at h
  split_ifs at h
  cases e with
  | shell e => exact .inl ⟨e, rfl, h⟩
  | setpgid pid =>
    dsimp only at h
    split_ifs at h
    exact .inr (.inl ⟨pid, rfl, (Option.some.inj h).symm⟩)
  | credentials pid b =>
    dsimp only at h
    split_ifs at h
    exact .inr (.inr (.inl ⟨pid, b, rfl, (Option.some.inj h).symm⟩))
  | press sig =>
    dsimp only at h
    split_ifs at h with hsig
    exact .inr (.inr (.inr (.inl ⟨sig, rfl, hsig, (Option.some.inj h).symm⟩)))
  | key =>
    refine .inr (.inr (.inr (.inr ?_)))
    dsimp only at h
    split at h
    · next pc rest hframes => exact ⟨_, pc, rest, rfl, hframes, (Option.some.inj h).symm⟩
    · next pc rest hframes => exact ⟨_, pc, rest, rfl, hframes, (Option.some.inj h).symm⟩
    · cases h

end Terminal

end SystemsLabs.Shlab
