import SystemsLabs.Lib.Lines
import SystemsLabs.Lib.Runs
import SystemsLabs.Shlab.CommandLine
import SystemsLabs.Shlab.JobTable

/-!
# The read/eval loop (`main` of `tsh.c`)

`Shlab.Tsh` lets `fgets` return any command. Here `main` reads its lines from an input, and what
`parseline` makes of them is what the shell goes on with. Signals arrive between any two steps.

* `fork_count` — a command that is not built in is forked once, before the next one is read.
* `commands_in_order` — the lines of a script are evaluated in order, none is lost or read twice,
  and a last line without a newline is not evaluated.

The children share the standard input of the shell. If a child's `execve` fails, it calls `exit`,
which moves the offset of a file back to where the child's copy of the buffer starts; a program that
reads standard input moves it forward. `commands_in_order` is about the runs in which they leave it
alone (`LeftAlone`): with the first of these, lines are read twice (`exists_read_twice`). No read
fails.
-/

namespace SystemsLabs.Shlab

open Lib

/-! ## Reading lines -/

instance (nl : UInt8) (k : ℕ) (line : List UInt8) : Decidable (Complete nl k line) :=
  inferInstanceAs (Decidable (_ = _ ∨ _ = _))

/-- `fgets(cmdline, MAXLINE, stdin)`: the line and the input that is left, or `none` where the end
of the file has been reached, also when there is a line without a newline in front of it. -/
def fgets (stdin : List UInt8) : Option (List UInt8 × List UInt8) :=
  if Complete newline (maxLine - 1) (takeLine newline (maxLine - 1) stdin).1 then
    some (takeLine newline (maxLine - 1) stdin)
  else none

/-- A line that fits is read with its newline. -/
theorem fgets_line {body rest : List UInt8} (hbody : newline ∉ body)
    (hlen : (body ++ [newline]).length < maxLine) :
    fgets (body ++ [newline] ++ rest) = some (body ++ [newline], rest) := by
  rw [List.length_append, List.length_singleton] at hlen
  have htake : takeLine newline (maxLine - 1) (body ++ [newline] ++ rest) =
      (body ++ [newline], rest) := by
    rw [List.append_assoc]
    exact takeLine_line hbody (by omega)
  unfold fgets
  rw [htake]
  exact if_pos (.inl (by simp [Terminated]))

/-- The end of the input. -/
theorem fgets_tail {tail : List UInt8} (htail : newline ∉ tail)
    (hlen : tail.length < maxLine - 1) : fgets tail = none := by
  apply if_neg
  rintro (hterm | hfull)
  · obtain ⟨body, -, -, heq⟩ := exists_body_of_terminated hterm
    rw [heq] at htail
    exact htail (List.mem_append_right _ List.mem_cons_self)
  · have happend := congrArg List.length (takeLine_append newline (maxLine - 1) tail)
    rw [List.length_append] at happend
    omega

/-- To find an argument is not to change the array. -/
theorem nextArg_array (s : Scanner) : s.nextArg.array = s.array := by
  unfold Scanner.nextArg
  dsimp only
  split_ifs <;> rfl

/-- The array keeps its length. -/
theorem length_loop {fuel : ℕ} {s s' : Scanner} (h : Scanner.loop fuel s = some s') :
    s'.array.length = s.array.length := by
  induction fuel generalizing s with
  | zero => cases h
  | succ fuel ih =>
    unfold Scanner.loop at h
    split at h
    · rw [Option.some.inj h]
    · next delim hdelim =>
      rw [ih h, Scanner.takeArg, nextArg_array]
      exact List.length_set

/-- `parseline` keeps the length of its array. -/
theorem length_parseline {array : CBuf maxLine} {cmdline : List UInt8} {p : Parsed}
    (h : parseline array cmdline = some p) : p.array.length = maxLine := by
  unfold parseline at h
  obtain ⟨copy, -, h⟩ := Option.bind_eq_some_iff.mp h
  obtain ⟨s, hloop, h⟩ := Option.bind_eq_some_iff.mp h
  dsimp only at h
  have harray : p.array = s.array := by
    split_ifs at h
    · rw [← Option.some.inj h]
    · rw [← Option.some.inj h]
    · rw [← Option.some.inj h]
  rw [harray, length_loop hloop, nextArg_array]
  unfold blankLast
  dsimp only
  split_ifs
  · exact copy.length_eq
  · exact List.length_set.trans copy.length_eq

/-! ## Standard input -/

/-- The standard input of the shell. The children share the file and its offset. -/
structure Stdin where
  /-- The bytes of the file, or all that is ever written to the pipe or the terminal. -/
  bytes : List UInt8
  /-- It is a file, and not a pipe or a terminal. -/
  seekable : Bool
  offset : ℕ
  /-- What the shell has read and `fgets` has not returned yet. -/
  buffered : List UInt8
  deriving DecidableEq

namespace Stdin

/-- What the shell is still to get, if nobody else moves the offset. -/
def left (s : Stdin) : List UInt8 := s.buffered ++ s.bytes.drop s.offset

/-- The offset is moved forward. -/
def advance (s : Stdin) (n : ℕ) : Stdin := { s with offset := min (s.offset + n) s.bytes.length }

/-- `fgets`, which reads `n` bytes from the file: the line, and the input after it. -/
def fgets (s : Stdin) (n : ℕ) : Option (List UInt8 × Stdin) :=
  (Shlab.fgets (s.buffered ++ (s.bytes.drop s.offset).take n)).map fun r =>
    (r.1, { s.advance n with buffered := r.2 })

/-- A child calls `exit`, which closes its copy of the stream: the offset is moved back to what the
copy has not returned. `lseek` fails on a pipe, and where there is not so much before the offset. -/
def exit (s : Stdin) (copy : List UInt8) : Stdin :=
  if s.seekable ∧ copy.length ≤ s.offset then { s with offset := s.offset - copy.length } else s

variable {s s' : Stdin} {line : List UInt8} {n : ℕ}

/-- How much `fgets` reads does not matter. -/
theorem fgets_left (h : s.fgets n = some (line, s')) :
    Shlab.fgets s.left = some (line, s'.left) := by
  obtain ⟨⟨line', rest⟩, hread, heq⟩ := Option.map_eq_some_iff.mp h
  obtain ⟨rfl, rfl⟩ := Prod.mk.inj heq
  have hsplit : s.left = (s.buffered ++ (s.bytes.drop s.offset).take n) ++
      (s.bytes.drop s.offset).drop n := by
    rw [left, List.append_assoc, List.take_append_drop]
  have hdrop : s.bytes.drop (min (s.offset + n) s.bytes.length) =
      (s.bytes.drop s.offset).drop n := by
    rw [List.drop_drop]
    rcases Nat.le_total (s.offset + n) s.bytes.length with hle | hle
    · rw [Nat.min_eq_left hle]
    · rw [Nat.min_eq_right hle, List.drop_length, List.drop_of_length_le hle]
  unfold Shlab.fgets at hread ⊢
  split_ifs at hread with hc
  obtain ⟨rfl, rfl⟩ := Prod.mk.inj (Option.some.inj hread)
  rw [hsplit, takeLine_append_of_complete hc, if_pos hc, left, advance]
  dsimp only
  rw [hdrop]

/-- An `exit` that moves nothing. -/
theorem exit_eq_self {copy : List UInt8} (h : s.seekable = false ∨ copy = []) :
    s.exit copy = s := by
  unfold exit
  rcases h with h | rfl
  · rw [h]
    exact if_neg fun hs => absurd hs.1 Bool.false_ne_true
  · split_ifs
    · rfl
    · rfl

end Stdin

/-! ## The loop -/

/-- The shell with its input. -/
structure Session where
  shell : Shell
  /-- The static array of `parseline`. -/
  array : CBuf maxLine
  stdin : Stdin
  /-- What a child has got of the shell's `stdin.buffered` when it was forked. -/
  copies : ℤ → List UInt8

/-- A step of the shell, or one that concerns its input. -/
inductive SessionEvent
  /-- `fgets` reads `n` bytes and returns a line, which `parseline` splits. -/
  | read (cmd : Command) (n : ℕ)
  /-- Another step of the shell or the kernel. -/
  | other (e : Event)
  /-- The child's `execve` has failed, and the child calls `exit`. -/
  | exit (pid : ℤ)
  /-- A program that a child runs reads from standard input, or moves the offset. -/
  | move (offset : ℕ)

/-- The step of the shell. -/
def SessionEvent.shell : SessionEvent → Option Event
  | .read cmd _ => some (.main (.read cmd))
  | .other e => some e
  | .exit pid => some (.kernel (.terminate pid))
  | .move _ => none

namespace Session

/-- The shell when `main` enters its loop. -/
def init (errno : ℤ) (array : CBuf maxLine) (seekable : Bool) (bytes : List UInt8) : Session :=
  ⟨.init errno, array, ⟨bytes, seekable, 0, []⟩, fun _ => []⟩

/-- One step: `main` reads a line and `parseline` splits it, or `main` finds the end of the file, or
any other step. -/
def next (c : Session) : SessionEvent → Option Session
  | .read cmd n =>
    match c.stdin.fgets n with
    | some (line, stdin) =>
      match h : parseline c.array line with
      | some p =>
        if cmd = p.command line then
          (c.shell.next (.main (.read cmd))).map fun s =>
            { c with shell := s, array := ⟨p.array, length_parseline h⟩, stdin := stdin }
        else none
      | none => none
    | none => none
  | .other (.main (.read _)) => none
  | .other (.main .eof) =>
    if fgets c.stdin.left = none then
      (c.shell.next (.main .eof)).map fun s => { c with shell := s }
    else none
  | .other (.main (.fork pid)) =>
    (c.shell.next (.main (.fork pid))).map fun s =>
      { c with shell := s, copies := Function.update c.copies pid c.stdin.buffered }
  | .other e => (c.shell.next e).map fun s => { c with shell := s }
  | .exit pid =>
    (c.shell.next (.kernel (.terminate pid))).map fun s =>
      { c with shell := s, stdin := c.stdin.exit (c.copies pid) }
  | .move offset => some { c with stdin := { c.stdin with offset := offset } }

/-- The step relation. -/
def Step (c : Session) (e : SessionEvent) (d : Session) : Prop := c.next e = some d

/-- The children leave the input alone: an `exit` finds a pipe, a terminal or an empty buffer, and
the programs that are run do not read it. -/
def LeftAlone (c : Session) : SessionEvent → Prop
  | .exit pid => c.stdin.seekable = false ∨ c.copies pid = []
  | .move offset => offset = c.stdin.offset
  | .read _ _ | .other _ => True

instance : (c : Session) → (e : SessionEvent) → Decidable (c.LeftAlone e)
  | _, .exit _ => inferInstanceAs (Decidable (_ ∨ _))
  | _, .move _ => inferInstanceAs (Decidable (_ = _))
  | _, .read _ _ => instDecidableTrue
  | _, .other _ => instDecidableTrue

variable {c d : Session} {e : SessionEvent}

/-- A step of the shell, or none. -/
theorem step_shell (h : c.Step e d) :
    (∃ a, e.shell = some a ∧ c.shell.Step a d.shell) ∨ e.shell = none ∧ d.shell = c.shell := by
  unfold Step next at h
  split at h
  · split at h
    · split at h
      · split_ifs at h
        obtain ⟨s, hs, rfl⟩ := Option.map_eq_some_iff.mp h
        exact .inl ⟨_, rfl, hs⟩
      · cases h
    · cases h
  · cases h
  · split_ifs at h
    obtain ⟨s, hs, rfl⟩ := Option.map_eq_some_iff.mp h
    exact .inl ⟨_, rfl, hs⟩
  · obtain ⟨s, hs, rfl⟩ := Option.map_eq_some_iff.mp h
    exact .inl ⟨_, rfl, hs⟩
  · obtain ⟨s, hs, rfl⟩ := Option.map_eq_some_iff.mp h
    exact .inl ⟨_, rfl, hs⟩
  · obtain ⟨s, hs, rfl⟩ := Option.map_eq_some_iff.mp h
    exact .inl ⟨_, rfl, hs⟩
  · obtain rfl := Option.some.inj h
    exact .inr ⟨rfl, rfl⟩

/-- What a step does to the input. -/
theorem step_stdin (h : c.Step e d) :
    (∃ cmd n line p, e = .read cmd n ∧ c.stdin.fgets n = some (line, d.stdin) ∧
      parseline c.array line = some p ∧ cmd = p.command line) ∨
    (∃ a, e = .other a ∧ (∀ cmd, a ≠ .main (.read cmd)) ∧ d.stdin = c.stdin ∧
      (a = .main .eof → fgets c.stdin.left = none)) ∨
    (∃ pid, e = .exit pid ∧ d.stdin = c.stdin.exit (c.copies pid)) ∨
    ∃ offset, e = .move offset ∧ d.stdin = { c.stdin with offset := offset } := by
  unfold Step next at h
  split at h
  · next cmd n =>
    split at h
    · next line stdin hread =>
      split at h
      · next p hp =>
        split_ifs at h with hcmd
        obtain ⟨s, -, rfl⟩ := Option.map_eq_some_iff.mp h
        exact .inl ⟨cmd, n, line, p, rfl, hread, hp, hcmd⟩
      · cases h
    · cases h
  · cases h
  · split_ifs at h with hend
    obtain ⟨s, -, rfl⟩ := Option.map_eq_some_iff.mp h
    exact .inr (.inl ⟨_, rfl, by simp, rfl, fun _ => hend⟩)
  · obtain ⟨s, -, rfl⟩ := Option.map_eq_some_iff.mp h
    exact .inr (.inl ⟨_, rfl, by simp, rfl, by simp⟩)
  · next a hread heof hfork =>
    obtain ⟨s, -, rfl⟩ := Option.map_eq_some_iff.mp h
    exact .inr (.inl ⟨a, rfl, hread, rfl, fun ha => absurd ha heof⟩)
  · next pid =>
    obtain ⟨s, -, rfl⟩ := Option.map_eq_some_iff.mp h
    exact .inr (.inr (.inl ⟨pid, rfl, rfl⟩))
  · next offset =>
    obtain rfl := Option.some.inj h
    exact .inr (.inr (.inr ⟨offset, rfl, rfl⟩))

end Session

/-! ## Commands and forks -/

/-- The command that a step reads. -/
def Event.command : Event → Option Command
  | .main (.read cmd) => some cmd
  | _ => none

/-- A step that forks a child. -/
def Event.isFork : Event → Bool
  | .main (.fork _) => true
  | _ => false

/-- The command is not built in. -/
def Command.isExternal (cmd : Command) : Bool := builtinCmd cmd.argv0 = .no

/-- A step that reads a command that is not built in. -/
def Event.readsExternal : Event → Bool
  | .main (.read cmd) => cmd.isExternal
  | _ => false

/-- How many commands have been read that are still to be forked. -/
def Main.toFork : Main → ℕ
  | .eval cmd => if cmd.isExternal then 1 else 0
  | .fork _ => 1
  | _ => 0

/-- External commands among those that have been read. -/
theorem countP_readsExternal (es : List Event) :
    es.countP Event.readsExternal = (es.filterMap Event.command).countP Command.isExternal := by
  induction es with
  | nil => rfl
  | cons e es ih =>
    cases hcmd : e.command with
    | none =>
      have hno : e.readsExternal = false := by
        unfold Event.readsExternal
        split
        · cases hcmd
        · rfl
      rw [List.filterMap_cons_none hcmd, List.countP_cons, hno, ih]
      rfl
    | some cmd =>
      have hext : e.readsExternal = cmd.isExternal := by
        unfold Event.command at hcmd
        split at hcmd
        · rw [← Option.some.inj hcmd]
          rfl
        · cases hcmd
      rw [List.filterMap_cons_some hcmd, List.countP_cons, List.countP_cons, hext, ih]

namespace Shell

variable {s t : Shell} {es : List Event}

/-- What a step does to the number of commands that are still to be forked. -/
theorem toFork_step {e : Event} (hs : s.Step e t) :
    (if e.isFork then 1 else 0) + t.main.toFork =
      s.main.toFork + (if e.readsExternal then 1 else 0) := by
  cases e with
  | main e =>
    cases mainStep_cases (step_main hs).2 with
    | read hmain =>
      rw [hmain]
      exact Nat.zero_add _ |>.trans (Nat.zero_add _).symm
    | eof | quit | forkError | errno => exact Nat.zero_add _
    | builtin hmain hruns =>
      rw [hmain]
      simp [Event.isFork, Event.readsExternal, Main.toFork, Command.isExternal, hruns]
    | block hmain hno =>
      rw [hmain]
      simp [Event.isFork, Event.readsExternal, Main.toFork, Command.isExternal, hno]
    | @unblock cmd pid hmain =>
      rw [hmain]
      cases cmd.bg with
      | true => rfl
      | false => rfl
    | @scanEnd pid k hmain =>
      rw [hmain]
      by_cases hpid : pid = 0
      · rw [if_pos hpid]
        rfl
      · rw [if_neg hpid]
        rfl
    | fork hmain | addjob hmain | slotFg hmain | slotNext hmain | samePid hmain | otherPid hmain
    | report hmain =>
      rw [hmain]
      rfl
  | handler e =>
    rw [(handlerStep_main (step_handler hs)).1]
    exact Nat.zero_add _
  | kernel e =>
    obtain ⟨pid, state, rfl⟩ := step_kernel hs
    exact Nat.zero_add _

/-- **Forks.** Each command that has been read and is not built in has been forked once, or is the
one that the main thread is at. -/
theorem fork_count {errno : ℤ} (h : Runs Step (init errno) es s) :
    es.countP Event.isFork + s.main.toFork = es.countP Event.readsExternal := by
  apply h.invariant_labels
    (I := fun es s => es.countP Event.isFork + s.main.toFork = es.countP Event.readsExternal)
  · intro as s a t hI hs
    have hstep := toFork_step hs
    rw [List.countP_append, List.countP_append, List.countP_singleton, List.countP_singleton]
    omega
  · rfl

end Shell

/-! ## Scripts -/

/-- The words of a line, each with the number of spaces in front of it. -/
abbrev Args := List (ℕ × Word space quote)

/-- The line. -/
def Args.line (args : Args) : List UInt8 := renderWords args ++ [newline]

/-- What the shell goes on with after such a line. -/
def Args.command (args : Args) : Command where
  argv0 := (commandArgs (args.map (·.2.text))).head?.map ofBytes
  bg := decide (EndsInBackground (args.map (·.2.text)) ∨ args = [])
  cmdline := ofBytes args.line

/-- A line for which `cmdline` and `argv` are large enough. -/
structure Args.Writable (args : Args) : Prop where
  count : args.length < maxArgs
  sep : ∀ a ∈ args.tail, 0 < a.1
  bytes : ∀ a ∈ args, 0 ∉ a.2.text ∧ newline ∉ a.2.text
  length_lt : args.line.length < maxLine

namespace Args

variable {args : Args}

/-- The only newline of a line is the last byte. -/
theorem Writable.newline_not_mem (h : args.Writable) : newline ∉ renderWords args := by
  intro hmem
  rcases mem_renderWords hmem with heq | heq | ⟨a, ha, hmem⟩
  · cases heq
  · cases heq
  · exact (h.bytes a ha).2 hmem

/-- A line of a script is read. -/
theorem Writable.fgets (h : args.Writable) (rest : List UInt8) :
    fgets (args.line ++ rest) = some (args.line, rest) :=
  fgets_line h.newline_not_mem h.length_lt

/-- `parseline` makes the command of such a line, whatever its array holds. -/
theorem Writable.command (h : args.Writable) {array : CBuf maxLine} {p : Parsed}
    (hp : parseline array args.line = some p) : p.command args.line = args.command := by
  have hnul : ∀ a ∈ args, 0 ∉ a.2.text := fun a ha => (h.bytes a ha).1
  obtain ⟨p', hp', -, hargs, hbg, -⟩ :=
    parseline_words array h.length_lt (words_line args h.sep hnul)
  obtain rfl : p' = p := Option.some.inj (hp'.symm.trans hp)
  have hmap : (args.map (·.2)).map Word.text = args.map (·.2.text) := List.map_map
  rw [hmap] at hargs hbg
  have hargv := p'.argv0_eq hargs args.line
  have hbg' : p'.bg = decide (EndsInBackground (args.map (·.2.text)) ∨ args = []) := by
    rw [Bool.eq_iff_iff, hbg, decide_eq_true_iff, List.map_eq_nil_iff]
  unfold Parsed.command Args.command at *
  rw [← hbg', ← hargv]

end Args

namespace Session

variable {c : Session} {es : List SessionEvent} {script : List Args} {tail : List UInt8}

/-- The steps of the shell in a session. -/
def shellSteps (es : List SessionEvent) : List Event := es.filterMap SessionEvent.shell

/-- A step of the shell is the last of them. -/
theorem shellSteps_append_some {e : SessionEvent} {a : Event} (h : e.shell = some a) :
    shellSteps (es ++ [e]) = shellSteps es ++ [a] := by
  rw [shellSteps, List.filterMap_append, List.filterMap_cons_some h, List.filterMap_nil, shellSteps]

/-- Any other step is none of them. -/
theorem shellSteps_append_none {e : SessionEvent} (h : e.shell = none) :
    shellSteps (es ++ [e]) = shellSteps es := by
  rw [shellSteps, List.filterMap_append, List.filterMap_cons_none h, List.filterMap_nil,
    List.append_nil, shellSteps]

/-- The steps of a session are steps of its shell. -/
theorem runs_shell {errno : ℤ} {array : CBuf maxLine} {seekable : Bool} {bytes : List UInt8}
    (h : Runs Step (init errno array seekable bytes) es c) :
    Runs Shell.Step (Shell.init errno) (shellSteps es) c.shell := by
  apply h.invariant_labels
    (I := fun es c => Runs Shell.Step (Shell.init errno) (shellSteps es) c.shell)
  · intro as c e d hc hs
    rcases step_shell hs with ⟨a, ha, hstep⟩ | ⟨ha, hshell⟩
    · rw [shellSteps_append_some ha]
      exact hc.snoc hstep
    · rw [shellSteps_append_none ha, hshell]
      exact hc
  · exact .nil _

/-- How far the script has been read. -/
structure ReadTo (script : List Args) (tail : List UInt8) (k : ℕ) (es : List SessionEvent)
    (c : Session) : Prop where
  le : k ≤ script.length
  commands : (shellSteps es).filterMap Event.command = (script.take k).map Args.command
  left : c.stdin.left = (script.drop k).flatMap Args.line ++ tail
  eof : .main .eof ∈ shellSteps es → k = script.length

/-- The next line of the script is read. -/
theorem ReadTo.read {d : Session} {k n : ℕ} {line : List UInt8} {p : Parsed}
    (h : ReadTo script tail k es c) (hscript : ∀ args ∈ script, args.Writable)
    (htail : newline ∉ tail) (hlen : tail.length < maxLine - 1)
    (hread : c.stdin.fgets n = some (line, d.stdin)) (hp : parseline c.array line = some p) :
    ReadTo script tail (k + 1) (es ++ [.read (p.command line) n]) d := by
  have hline := Stdin.fgets_left hread
  rw [h.left] at hline
  rcases Nat.lt_or_ge k script.length with hk | hk
  · rw [List.drop_eq_getElem_cons hk, List.flatMap_cons, List.append_assoc] at hline
    have hw := hscript script[k] (List.getElem_mem hk)
    rw [hw.fgets] at hline
    obtain ⟨rfl, hleft⟩ := Prod.mk.inj (Option.some.inj hline)
    have hsteps : shellSteps (es ++ [.read (p.command script[k].line) n]) =
        shellSteps es ++ [.main (.read (p.command script[k].line))] := shellSteps_append_some rfl
    refine ⟨hk, ?_, hleft.symm, ?_⟩
    · rw [hsteps, List.filterMap_append, h.commands, List.take_add_one,
        List.getElem?_eq_getElem hk, List.map_append, hw.command hp]
      rfl
    · rw [hsteps]
      intro hmem
      rcases List.mem_append.mp hmem with hmem | hmem
      · have := h.eof hmem
        omega
      · cases List.mem_singleton.mp hmem
  · rw [List.drop_of_length_le hk, List.flatMap_nil, List.nil_append,
      fgets_tail htail hlen] at hline
    cases hline

/-- A step that reads nothing. -/
theorem ReadTo.other {d : Session} {a : Event} {k : ℕ} (h : ReadTo script tail k es c)
    (hscript : ∀ args ∈ script, args.Writable) (hother : ∀ cmd, a ≠ .main (.read cmd))
    (hstdin : d.stdin = c.stdin) (heof : a = .main .eof → fgets c.stdin.left = none)
    {e : SessionEvent} (he : e.shell = some a) : ReadTo script tail k (es ++ [e]) d := by
  refine ⟨h.le, ?_, hstdin ▸ h.left, ?_⟩
  · have hnone : a.command = none := by
      unfold Event.command
      split
      · exact absurd rfl (hother _)
      · rfl
    rw [shellSteps_append_some he, List.filterMap_append, h.commands,
      List.filterMap_cons_none hnone, List.filterMap_nil, List.append_nil]
  · rw [shellSteps_append_some he]
    intro hmem
    rcases List.mem_append.mp hmem with hmem | hmem
    · exact h.eof hmem
    · -- there is no line left
      have hend := heof (List.mem_singleton.mp hmem).symm
      rw [h.left] at hend
      by_contra hne
      have hk : k < script.length := Nat.lt_of_le_of_ne h.le hne
      rw [List.drop_eq_getElem_cons hk, List.flatMap_cons, List.append_assoc,
        (hscript script[k] (List.getElem_mem hk)).fgets] at hend
      cases hend

/-- The invariant of the loop: the shell reads the next line, or does not read. -/
theorem ReadTo.step {d : Session} {e : SessionEvent} {k : ℕ} (h : ReadTo script tail k es c)
    (hscript : ∀ args ∈ script, args.Writable) (htail : newline ∉ tail)
    (hlen : tail.length < maxLine - 1) (hs : Guarded LeftAlone Step c e d) :
    ∃ k', ReadTo script tail k' (es ++ [e]) d := by
  obtain ⟨halone, hs⟩ := hs
  rcases step_stdin hs with ⟨cmd, n, line, p, rfl, hread, hp, rfl⟩ |
    ⟨a, rfl, hother, hstdin, heof⟩ | ⟨pid, rfl, hstdin⟩ | ⟨offset, rfl, hstdin⟩
  · exact ⟨k + 1, h.read hscript htail hlen hread hp⟩
  · exact ⟨k, h.other hscript hother hstdin heof rfl⟩
  · rw [Stdin.exit_eq_self halone] at hstdin
    exact ⟨k, h.other hscript (by simp) hstdin (by simp) rfl⟩
  · have hoffset : offset = c.stdin.offset := halone
    subst hoffset
    have hsteps : shellSteps (es ++ [.move c.stdin.offset]) = shellSteps es :=
      shellSteps_append_none rfl
    exact ⟨k, h.le, hsteps ▸ h.commands, hstdin ▸ h.left, hsteps ▸ h.eof⟩

/-- **The commands of a script, in order.** Whatever signals arrive, and whatever the children do,
if they leave the input alone: the commands that have been read are those of the first lines of the
script, and the other lines are what is left of the input; at the end of the file all lines have
been read, and what stands behind the last newline is not evaluated. At the prompt, each of these
commands that is not built in has been forked once. -/
theorem commands_in_order (errno : ℤ) (array : CBuf maxLine) (seekable : Bool)
    (script : List Args) (tail : List UInt8) (hscript : ∀ args ∈ script, args.Writable)
    (htail : newline ∉ tail) (hlen : tail.length < maxLine - 1)
    (h : Runs (Guarded LeftAlone Step)
      (init errno array seekable (script.flatMap Args.line ++ tail)) es c) :
    ∃ k ≤ script.length,
      (shellSteps es).filterMap Event.command = (script.take k).map Args.command ∧
      c.stdin.left = (script.drop k).flatMap Args.line ++ tail ∧
      (.main .eof ∈ shellSteps es → k = script.length) ∧
      (c.shell.main = .prompt → (shellSteps es).countP Event.isFork =
        ((script.take k).map Args.command).countP Command.isExternal) := by
  have hread : ∃ k, ReadTo script tail k es c := by
    apply h.invariant_labels (I := fun es c => ∃ k, ReadTo script tail k es c)
    · rintro as c e d ⟨k, hk⟩ hs
      exact hk.step hscript htail hlen hs
    · exact ⟨0, Nat.zero_le _, rfl, rfl, fun hmem => absurd hmem List.not_mem_nil⟩
  obtain ⟨k, hk⟩ := hread
  refine ⟨k, hk.le, hk.commands, hk.left, hk.eof, fun hprompt => ?_⟩
  have hcount := Shell.fork_count (runs_shell h.of_guarded)
  rw [hprompt, countP_readsExternal, hk.commands] at hcount
  exact hcount

/-- `jobs`, and `echo 'a b' &`. -/
def twoLines : List Args :=
  [[(0, .bare (cbytes "jobs") (by decide) (by decide) (by decide))],
    [(0, .bare (cbytes "echo") (by decide) (by decide) (by decide)),
      (1, .quoted (cbytes "a b") (by decide)),
      (1, .bare (cbytes "&") (by decide) (by decide) (by decide))]]

/-- The two commands, the second of which is forked, and the end of the file behind `quit`. -/
def twoLinesRun : List SessionEvent :=
  [.read ⟨some "jobs", false, "jobs\n"⟩ 20, .other (.main .builtinCmd),
    .read ⟨some "echo", true, "echo 'a b' &\n"⟩ 4096, .other (.main .builtinCmd),
    .other (.main (.fork 100)), .other (.main .addjob), .other (.kernel (.terminate 100)),
    .other (.main .unblock), .other (.main .report), .other (.main .eof)]

/-- A `quit` without a newline is not read. -/
theorem commands_in_order_example : ∃ c,
    Runs Step (init 0 (CBuf.zero maxLine) true (cbytes "jobs\necho 'a b' &\nquit")) twoLinesRun c ∧
      c.stdin.left = cbytes "quit" ∧
      (shellSteps twoLinesRun).filterMap Event.command = twoLines.map Args.command := by
  obtain ⟨c, hrun, -⟩ := exists_runs_of_runIf Step (fun c => c.shell.exited) true
    (fun _ _ _ h => h) (show (runIf LeftAlone next
      (init 0 (CBuf.zero maxLine) true (cbytes "jobs\necho 'a b' &\nquit")) twoLinesRun).map
      (fun c => c.shell.exited) = some true by decide +kernel)
  have hscript : ∀ args ∈ twoLines, args.Writable := by
    rintro args (_ | ⟨_, _ | ⟨_, hmem⟩⟩)
    · exact ⟨by decide, by decide, by decide, by decide⟩
    · exact ⟨by decide, by decide, by decide, by decide⟩
    · cases hmem
  obtain ⟨k, -, hcommands, hleft, heof, -⟩ :=
    commands_in_order 0 (CBuf.zero maxLine) true twoLines (cbytes "quit") hscript (by decide)
      (by decide) hrun
  have hk := heof (List.mem_of_getLast? rfl)
  subst hk
  exact ⟨c, hrun.of_guarded, hleft, hcommands⟩

/-- The child that is to run `foo`, which does not exist, exits. -/
def readTwiceRun : List SessionEvent :=
  [.read ⟨some "foo", false, "foo\n"⟩ 4096, .other (.main .builtinCmd), .other (.main (.fork 100)),
    .other (.main .addjob), .exit 100, .other (.main .unblock), .other (.handler .deliver),
    .other (.handler (.waitpid 100)), .other (.handler .deletejob),
    .other (.handler (.waitpidError echild)), .other (.handler .checkErrno)] ++
  List.replicate 17 (.other (.main .fgpid)) ++
  [.read ⟨some "jobs", false, "jobs\n"⟩ 0, .other (.main .builtinCmd),
    .read ⟨some "jobs", false, "jobs\n"⟩ 4096]

/-- **A line that is read twice**: the input is a file, the shell has all of it in its buffer, and
the `exit` of the child moves the offset back. -/
theorem exists_read_twice : ∃ c,
    Runs Step (init 0 (CBuf.zero maxLine) true (cbytes "foo\njobs\n")) readTwiceRun c ∧
      ((shellSteps readTwiceRun).filterMap Event.command).map Command.cmdline =
        ["foo\n", "jobs\n", "jobs\n"] := by
  obtain ⟨c, hrun, -⟩ := exists_runs_of_runIf Step (fun c => c.shell.exited) false
    (fun _ _ _ h => h) (show (runIf (fun _ _ => True) next
      (init 0 (CBuf.zero maxLine) true (cbytes "foo\njobs\n")) readTwiceRun).map
      (fun c => c.shell.exited) = some false by decide +kernel)
  exact ⟨c, hrun.of_guarded, by decide +kernel⟩

end Session

end SystemsLabs.Shlab
