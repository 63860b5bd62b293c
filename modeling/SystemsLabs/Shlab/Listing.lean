import SystemsLabs.Shlab.JobTable

/-!
# The `jobs` command (`listjobs` of `tsh.c`)

`listjobs` runs while `SIGCHLD` is not blocked, so `sigchld_handler` may delete a job between any
two of its reads. What has been printed for a slot is then put together from the job and from the
entries of a free slot (`SlotText`). `printf` reads a command line twice, for its length and to copy
it; `clearjob` overwrites only its first byte, in between.

* `Console` — the shell with a run of `listjobs`, one read or one `printf` at a time.
* `listjobs_prints` — whatever the handler does meanwhile, jobs that stay are listed as they are,
  and only the text of a job that goes can be cut or mixed.
-/

namespace SystemsLabs.Shlab

open Lib

/-! ## The run of `listjobs` -/

/-- The number that stands for a state. -/
def JobState.code : JobState → ℤ
  | .undef => 0
  | .fg => 1
  | .bg => 2
  | .st => 3

/-- `"[%d] (%d) "`. -/
def jobHead (jid pid : ℤ) : String := "[" ++ toString jid ++ "] (" ++ toString pid ++ ") "

/-- The text of the `default` branch. -/
def internalError (i : ℕ) (state : ℤ) : String :=
  "listjobs: Internal error: job[" ++ toString i ++ "].state=" ++ toString state ++ " "

/-- A line of which `clearjob` has overwritten the first byte, and nothing else. -/
def overwritten (line : String) : String := String.ofList ('\x00' :: line.toList.tail)

/-- What `printf` copies of a command line whose length it has found before; `now` is the string in
the array. -/
def copied (line now : String) : String := if line ≠ "" ∧ now = "" then overwritten line else line

/-- What `listjobs` does next. -/
inductive ListPc
  /-- Compare `jobs[i].pid` with 0. -/
  | test (i : ℕ)
  /-- Read the arguments of the first `printf`, in any order. -/
  | args (i : Fin maxJobs) (jid pid : Option ℤ)
  /-- `switch (jobs[i].state)`. -/
  | state (i : Fin maxJobs)
  /-- The `default` branch, which reads `jobs[i].state` once more. -/
  | internal (i : Fin maxJobs)
  /-- `printf` finds the length of `jobs[i].cmdline`. -/
  | cmdline (i : Fin maxJobs)
  /-- It has found this line, and copies it. -/
  | copy (i : Fin maxJobs) (line : String)
  deriving DecidableEq

/-- Steps of `listjobs`. -/
inductive ListEvent
  /-- Read `jobs[i].jid` for the first `printf`. -/
  | jid
  /-- Read `jobs[i].pid` for the first `printf`. -/
  | pid
  /-- Any other step. -/
  | next
  deriving DecidableEq

/-- The shell, the run of `listjobs`, if there is one, and what each `printf` has printed. -/
structure Console where
  shell : Shell
  listing : Option ListPc
  out : List String

/-- A step of the shell, or of `listjobs` within it. -/
inductive ConsoleEvent
  | shell (e : Event)
  | listjobs (e : ListEvent)

/-- A step of the main thread outside `listjobs`. -/
def ConsoleEvent.IsMain : ConsoleEvent → Prop
  | .shell (.main _) => True
  | _ => False

instance : DecidablePred ConsoleEvent.IsMain := fun e => by
  unfold ConsoleEvent.IsMain
  split <;> infer_instance

/-- `builtin_cmd` comes next, and calls `listjobs`. -/
def Main.CallsListjobs : Main → Prop
  | .eval cmd => cmd.argv0 = some "jobs"
  | _ => False

instance : DecidablePred Main.CallsListjobs
  | .eval cmd => inferInstanceAs (Decidable (cmd.argv0 = some "jobs"))
  | .prompt | .fork _ | .addjob _ _ | .unblock _ _ | .readState _ _ | .readPid _ _ | .report _ =>
    instDecidableFalse

namespace Console

/-- The shell when `main` enters its loop. -/
def init (errno : ℤ) : Console := ⟨.init errno, none, []⟩

/-- `listjobs` goes on. -/
def goto (c : Console) (pc : ListPc) (printed : List String) : Console :=
  { c with listing := some pc, out := c.out ++ printed }

/-- A step of `listjobs`. -/
def listStep (c : Console) : ListPc → ListEvent → Option Console
  | .test i, .next =>
    if h : i < maxJobs then
      if (c.shell.jobs.jobs ⟨i, h⟩).pid ≠ 0 then some (c.goto (.args ⟨i, h⟩ none none) [])
      else some (c.goto (.test (i + 1)) [])
    else some { c with listing := none }
  | .args i none pid, .jid => some (c.goto (.args i (some (c.shell.jobs.jobs i).jid) pid) [])
  | .args i jid none, .pid => some (c.goto (.args i jid (some (c.shell.jobs.jobs i).pid)) [])
  | .args i (some jid) (some pid), .next => some (c.goto (.state i) [jobHead jid pid])
  | .state i, .next =>
    match (c.shell.jobs.jobs i).state with
    | .bg => some (c.goto (.cmdline i) ["Running "])
    | .fg => some (c.goto (.cmdline i) ["Foreground "])
    | .st => some (c.goto (.cmdline i) ["Stopped "])
    | .undef => some (c.goto (.internal i) [])
  | .internal i, .next =>
    some (c.goto (.cmdline i) [internalError i (c.shell.jobs.jobs i).state.code])
  | .cmdline i, .next => some (c.goto (.copy i (c.shell.jobs.jobs i).cmdline) [])
  | .copy i line, .next =>
    some (c.goto (.test (i + 1)) [copied line (c.shell.jobs.jobs i).cmdline])
  | _, _ => none

/-- A step of the shell. While `listjobs` runs, the main thread does nothing else. -/
def shellStep (c : Console) (e : Event) : Option Console :=
  match e with
  | .main .builtinCmd =>
    if c.listing = none then
      (c.shell.next e).map fun s =>
        { c with
          shell := s
          listing := if c.shell.main.CallsListjobs then some (.test 0) else none }
    else none
  | .main _ =>
    if c.listing = none then (c.shell.next e).map fun s => { c with shell := s } else none
  | _ => (c.shell.next e).map fun s => { c with shell := s }

/-- One step. -/
def next (c : Console) : ConsoleEvent → Option Console
  | .shell e => c.shellStep e
  | .listjobs e =>
    match c.listing with
    | some pc => if c.shell.exited = false ∧ c.shell.handler = none then c.listStep pc e else none
    | none => none

/-- The step relation. -/
def Step (c : Console) (e : ConsoleEvent) (d : Console) : Prop := c.next e = some d

end Console

namespace Console

variable {c d : Console} {J : Fin maxJobs → Job} {i : Fin maxJobs}

/-- What a step of `listjobs` finds and does. -/
inductive ListStep (c : Console) : ListPc → ListEvent → Console → Prop
  | used {i : Fin maxJobs} (hpid : (c.shell.jobs.jobs i).pid ≠ 0) :
      ListStep c (.test i) .next (c.goto (.args i none none) [])
  | free {i : Fin maxJobs} (hpid : (c.shell.jobs.jobs i).pid = 0) :
      ListStep c (.test i) .next (c.goto (.test (i + 1)) [])
  | done {k : ℕ} (hk : maxJobs ≤ k) : ListStep c (.test k) .next { c with listing := none }
  | jid {i : Fin maxJobs} {pid : Option ℤ} :
      ListStep c (.args i none pid) .jid
        (c.goto (.args i (some (c.shell.jobs.jobs i).jid) pid) [])
  | pid {i : Fin maxJobs} {jid : Option ℤ} :
      ListStep c (.args i jid none) .pid
        (c.goto (.args i jid (some (c.shell.jobs.jobs i).pid)) [])
  | head {i : Fin maxJobs} {jid pid : ℤ} :
      ListStep c (.args i (some jid) (some pid)) .next (c.goto (.state i) [jobHead jid pid])
  | bg {i : Fin maxJobs} (hstate : (c.shell.jobs.jobs i).state = .bg) :
      ListStep c (.state i) .next (c.goto (.cmdline i) ["Running "])
  | fg {i : Fin maxJobs} (hstate : (c.shell.jobs.jobs i).state = .fg) :
      ListStep c (.state i) .next (c.goto (.cmdline i) ["Foreground "])
  | st {i : Fin maxJobs} (hstate : (c.shell.jobs.jobs i).state = .st) :
      ListStep c (.state i) .next (c.goto (.cmdline i) ["Stopped "])
  | undef {i : Fin maxJobs} (hstate : (c.shell.jobs.jobs i).state = .undef) :
      ListStep c (.state i) .next (c.goto (.internal i) [])
  | internal {i : Fin maxJobs} :
      ListStep c (.internal i) .next
        (c.goto (.cmdline i) [internalError i (c.shell.jobs.jobs i).state.code])
  | cmdline {i : Fin maxJobs} :
      ListStep c (.cmdline i) .next (c.goto (.copy i (c.shell.jobs.jobs i).cmdline) [])
  | copy {i : Fin maxJobs} {line : String} :
      ListStep c (.copy i line) .next
        (c.goto (.test (i + 1)) [copied line (c.shell.jobs.jobs i).cmdline])

/-- Each step of `listjobs` is one of these. -/
theorem listStep_cases {pc : ListPc} {e : ListEvent} (h : c.listStep pc e = some d) :
    c.ListStep pc e d := by
  unfold listStep at h
  split at h
  · next k =>
    split_ifs at h with hk hpid
    · exact Option.some.inj h ▸ .used (i := ⟨k, hk⟩) hpid
    · exact Option.some.inj h ▸ .free (i := ⟨k, hk⟩) (not_not.mp hpid)
    · exact Option.some.inj h ▸ .done (Nat.le_of_not_lt hk)
  · exact Option.some.inj h ▸ .jid
  · exact Option.some.inj h ▸ .pid
  · exact Option.some.inj h ▸ .head
  · split at h
    · next hstate => exact Option.some.inj h ▸ .bg hstate
    · next hstate => exact Option.some.inj h ▸ .fg hstate
    · next hstate => exact Option.some.inj h ▸ .st hstate
    · next hstate => exact Option.some.inj h ▸ .undef hstate
  · exact Option.some.inj h ▸ .internal
  · exact Option.some.inj h ▸ .cmdline
  · exact Option.some.inj h ▸ .copy
  · cases h

/-- A step of the shell, which may call `listjobs`, or a step of `listjobs`. -/
theorem step_cases {e : ConsoleEvent} (h : c.Step e d) :
    (∃ e', e = .shell e' ∧ c.shell.Step e' d.shell ∧ d.out = c.out ∧
      ((∃ m, e' = .main m) → c.listing = none) ∧
      (d.listing = c.listing ∨ d.listing = some (.test 0) ∧ e' = .main .builtinCmd ∧
        c.shell.main.CallsListjobs)) ∨
    ∃ e' pc, e = .listjobs e' ∧ c.listing = some pc ∧ c.shell.handler = none ∧
      c.ListStep pc e' d := by
  unfold Step next at h
  split at h
  · next e =>
    left
    unfold shellStep at h
    split at h
    · split_ifs at h with hnone hcalls
      · obtain ⟨s, hs, rfl⟩ := Option.map_eq_some_iff.mp h
        exact ⟨_, rfl, hs, rfl, fun _ => hnone, .inr ⟨rfl, rfl, hcalls⟩⟩
      · obtain ⟨s, hs, rfl⟩ := Option.map_eq_some_iff.mp h
        exact ⟨_, rfl, hs, rfl, fun _ => hnone, .inl hnone.symm⟩
    · split_ifs at h with hnone
      obtain ⟨s, hs, rfl⟩ := Option.map_eq_some_iff.mp h
      exact ⟨_, rfl, hs, rfl, fun _ => hnone, .inl rfl⟩
    · next hmain hother =>
      obtain ⟨s, hs, rfl⟩ := Option.map_eq_some_iff.mp h
      refine ⟨_, rfl, hs, rfl, ?_, .inl rfl⟩
      rintro ⟨m, rfl⟩
      exact absurd rfl (hother m)
  · next e =>
    split at h
    · next pc hpc =>
      split_ifs at h with hguard
      exact .inr ⟨e, pc, rfl, hpc, hguard.2, listStep_cases h⟩
    · cases h

/-! ## What holds while `listjobs` runs -/

/-- What holds whenever the shell is at work: the jobs in the table run, and the main thread waits
for `listjobs`. -/
structure Ok (c : Console) : Prop where
  inv : c.shell.Inv
  state : ∀ i, (c.shell.jobs.jobs i).pid ≠ 0 →
    (c.shell.jobs.jobs i).state = .fg ∨ (c.shell.jobs.jobs i).state = .bg
  prompt : c.listing ≠ none → c.shell.main = .prompt

end Console

namespace Shell

variable {s t : Shell}

/-- Other steps than those of the main thread clear slots, and change nothing else in the table. -/
theorem Inv.jobs_fade {e : Event} (h : s.Inv) (hs : s.Step e t) (he : ∀ e', e ≠ .main e')
    (i : Fin maxJobs) : t.jobs.jobs i = s.jobs.jobs i ∨ t.jobs.jobs i = clearjob := by
  cases e with
  | main e => exact absurd rfl (he e)
  | handler e =>
    have hs := step_handler hs
    by_cases hdel : e = .deletejob
    · subst hdel
      obtain ⟨pid, hdel, rfl⟩ := handlerStep_deletejob hs
      rcases h.distinct.deletejob (h.deletejob_pos pid hdel) i with ⟨heq, -⟩ | ⟨heq, -⟩
      · exact .inl heq
      · exact .inr heq
    · exact .inl (by rw [handlerStep_jobs hs hdel])
  | kernel e =>
    obtain ⟨pid, state, rfl⟩ := step_kernel hs
    exact .inl rfl

/-- A step of the main thread leaves the table alone, or adds a job that runs. -/
theorem jobs_of_mainStep {e : MainEvent} (hs : s.mainStep e = some t) (i : Fin maxJobs) :
    t.jobs.jobs i = s.jobs.jobs i ∨ (t.jobs.jobs i).state = .fg ∨ (t.jobs.jobs i).state = .bg := by
  by_cases hadd : e = .addjob
  · subst hadd
    obtain ⟨cmd, pid, -, rfl⟩ := mainStep_addjob hs
    rcases addjob_cases s.jobs pid (if cmd.bg then .bg else .fg) cmd.cmdline with
      ⟨heq, -⟩ | ⟨k, -, -, -, hjobs, -⟩
    · exact .inl (by rw [heq])
    · dsimp only
      rw [hjobs]
      by_cases hik : i = k
      · rw [hik, Function.update_self]
        cases cmd.bg with
        | true => exact .inr (.inr rfl)
        | false => exact .inr (.inl rfl)
      · exact .inl (Function.update_of_ne hik ..)
  · exact .inl (by rw [mainStep_jobs hs hadd])

/-- `builtin_cmd` with `jobs` goes back to the prompt. -/
theorem prompt_of_callsListjobs (hcalls : s.main.CallsListjobs)
    (h : s.mainStep .builtinCmd = some t) : t.main = .prompt := by
  unfold Main.CallsListjobs at hcalls
  cases mainStep_cases h with
  | quit hm hquit =>
    rw [hm] at hcalls
    rw [hcalls] at hquit
    cases hquit
  | builtin hm => rfl
  | block hm hno =>
    rw [hm] at hcalls
    rw [hcalls] at hno
    cases hno

end Shell

namespace Console

variable {c d : Console} {J : Fin maxJobs → Job} {i : Fin maxJobs}

/-- No listing has begun. -/
theorem ok_init (errno : ℤ) : (init errno).Ok where
  inv := Shell.inv_init errno
  state _ h := absurd rfl h
  prompt h := absurd rfl h

/-- `listjobs` leaves the shell alone. -/
theorem ListStep.shell_eq {pc : ListPc} {e : ListEvent} (h : c.ListStep pc e d) :
    d.shell = c.shell := by
  cases h <;> rfl

/-- A step keeps the shell and the listing together. -/
theorem Ok.step {e : ConsoleEvent} (h : c.Ok) (hs : c.Step e d) : d.Ok := by
  rcases step_cases hs with ⟨e, -, hs, -, hmain, hlisting⟩ | ⟨e, pc, -, hpc, -, hs⟩
  · refine ⟨h.inv.step hs, ?_, ?_⟩
    · intro i hi
      by_cases he : ∃ m, e = .main m
      · obtain ⟨m, rfl⟩ := he
        rcases Shell.jobs_of_mainStep (Shell.step_main hs).2 i with heq | hstate
        · rw [heq] at hi ⊢
          exact h.state i hi
        · exact hstate
      · rcases h.inv.jobs_fade hs (fun m hm => he ⟨m, hm⟩) i with heq | heq
        · rw [heq] at hi ⊢
          exact h.state i hi
        · exact absurd (congrArg Job.pid heq) hi
    · intro hne
      rcases hlisting with heq | ⟨-, rfl, hcalls⟩
      · rw [heq] at hne
        cases e with
        | main m => exact absurd (hmain ⟨m, rfl⟩) hne
        | handler e => exact (Shell.handlerStep_main (Shell.step_handler hs)).1.trans (h.prompt hne)
        | kernel e =>
          obtain ⟨pid, state, heq⟩ := Shell.step_kernel hs
          rw [heq]
          exact h.prompt hne
      · exact Shell.prompt_of_callsListjobs hcalls (Shell.step_main hs).2
  · have heq := hs.shell_eq
    exact ⟨heq ▸ h.inv, heq ▸ h.state, fun _ => by
      rw [heq]
      exact h.prompt (by rw [hpc]; exact Option.some_ne_none _)⟩

/-- The shell and the listing fit together in every state that is reached. -/
theorem ok_of_runs {errno : ℤ} {es : List ConsoleEvent} (h : Runs Step (init errno) es c) : c.Ok :=
  h.invariant (fun _ _ _ hc hs => hc.step hs) (ok_init errno)

end Console

/-! ## What is printed for a slot -/

/-- The texts for a job that stays in its slot. -/
def slotLine (job : Job) : List String :=
  if job.pid = 0 then [] else [jobHead job.jid job.pid, "Running ", job.cmdline]

/-- What can be printed for a slot that holds `job` when `listjobs` starts. -/
inductive SlotText (i : Fin maxJobs) (job : Job) : List String → Prop
  /-- The slot was free, or has become free before its first read. -/
  | skipped : SlotText i job []
  /-- The job went before its state was read: the numbers are those of the job or zeros. -/
  | torn {jid pid : ℤ} (hused : job.pid ≠ 0) (hjid : jid = job.jid ∨ jid = 0)
      (hpid : pid = job.pid ∨ pid = 0) :
      SlotText i job [jobHead jid pid, internalError i 0, ""]
  /-- The job went before the length of its command line was found. -/
  | cut (hused : job.pid ≠ 0) : SlotText i job [jobHead job.jid job.pid, "Running ", ""]
  /-- The job went between this and the copying: a zero byte, and the rest of the command line. -/
  | overwritten (hused : job.pid ≠ 0) (hne : job.cmdline ≠ "") :
      SlotText i job [jobHead job.jid job.pid, "Running ", overwritten job.cmdline]
  /-- The job stayed, or went later. -/
  | whole (hused : job.pid ≠ 0) : SlotText i job [jobHead job.jid job.pid, "Running ", job.cmdline]

/-- What has been printed for a slot that holds `now` by this time. -/
structure Told (i : Fin maxJobs) (job now : Job) (text : List String) : Prop where
  slotText : SlotText i job text
  eq_slotLine : now = job → text = slotLine job

/-- What has been read from a field of `job`, or from a slot that is free since. -/
def Seen (field : Job → ℤ) (job now : Job) (v : ℤ) : Prop :=
  v = field job ∨ v = 0 ∧ now = clearjob

/-- What has been printed for the slot that `listjobs` is at, and read from it. -/
def PartOk (job now : Job) : ListPc → List String → Prop
  | .test _, part => part = []
  | .args _ jid pid, part =>
    part = [] ∧ (∀ j, jid = some j → Seen Job.jid job now j) ∧
      ∀ p, pid = some p → Seen Job.pid job now p
  | .state _, part =>
    ∃ jid pid, part = [jobHead jid pid] ∧ Seen Job.jid job now jid ∧ Seen Job.pid job now pid
  | .internal _, part =>
    now = clearjob ∧
      ∃ jid pid, part = [jobHead jid pid] ∧ Seen Job.jid job now jid ∧ Seen Job.pid job now pid
  | .cmdline i, part =>
    part = [jobHead job.jid job.pid, "Running "] ∨
      now = clearjob ∧ ∃ jid pid, part = [jobHead jid pid, internalError i 0] ∧
        Seen Job.jid job now jid ∧ Seen Job.pid job now pid
  | .copy i line, part =>
    part = [jobHead job.jid job.pid, "Running "] ∧
        (line = job.cmdline ∨ line = "" ∧ now = clearjob) ∨
      now = clearjob ∧ line = "" ∧ ∃ jid pid, part = [jobHead jid pid, internalError i 0] ∧
        Seen Job.jid job now jid ∧ Seen Job.pid job now pid

section Slot

variable {i : Fin maxJobs} {job now now' : Job} {text part : List String} {pc : ListPc}

/-- What has been printed of a slot stays true when the slot is cleared. -/
theorem Told.mono (h : Told i job now text) (hnow : now = job ∨ now = clearjob)
    (hfade : now' = now ∨ now' = clearjob) : Told i job now' text := by
  refine ⟨h.slotText, fun heq => h.eq_slotLine ?_⟩
  rcases hfade with rfl | hclear
  · exact heq
  · rcases hnow with hnow | hnow
    · exact hnow
    · rw [hnow, ← heq, hclear]

/-- What has been read of a slot stays true when the slot is cleared. -/
theorem Seen.mono {field : Job → ℤ} {v : ℤ} (h : Seen field job now v)
    (hfade : now' = now ∨ now' = clearjob) : Seen field job now' v := by
  rcases h with h | ⟨h, hnow⟩
  · exact .inl h
  · rcases hfade with rfl | hclear
    · exact .inr ⟨h, hnow⟩
    · exact .inr ⟨h, hclear⟩

/-- The field of the slot, as it is now. -/
theorem seen_now {field : Job → ℤ} (hzero : field clearjob = 0)
    (hnow : now = job ∨ now = clearjob) : Seen field job now (field now) := by
  rcases hnow with rfl | rfl
  · exact .inl rfl
  · exact .inr ⟨hzero, rfl⟩

/-- While the job stays, what has been read is right. -/
theorem Seen.eq {field : Job → ℤ} {v : ℤ} (h : Seen field job now v) (hne : now ≠ clearjob) :
    v = field job :=
  h.resolve_right fun hclear => hne hclear.2

/-- What has been read is the value of the job, or 0. -/
theorem Seen.eq_or {field : Job → ℤ} {v : ℤ} (h : Seen field job now v) :
    v = field job ∨ v = 0 :=
  h.imp_right And.left

/-- The text of the present slot stays right when a slot is cleared. -/
theorem PartOk.mono (h : PartOk job now pc part) (hfade : now' = now ∨ now' = clearjob) :
    PartOk job now' pc part := by
  have hclear : now = clearjob → now' = clearjob := by
    rintro rfl
    exact hfade.elim id id
  cases pc with
  | test k => exact h
  | args i jid pid =>
    obtain ⟨hpart, hjid, hpid⟩ := h
    exact ⟨hpart, fun j hj => (hjid j hj).mono hfade, fun p hp => (hpid p hp).mono hfade⟩
  | state i =>
    obtain ⟨jid, pid, hpart, hjid, hpid⟩ := h
    exact ⟨jid, pid, hpart, hjid.mono hfade, hpid.mono hfade⟩
  | internal i =>
    obtain ⟨hnow, jid, pid, hpart, hjid, hpid⟩ := h
    exact ⟨hclear hnow, jid, pid, hpart, hjid.mono hfade, hpid.mono hfade⟩
  | cmdline i =>
    rcases h with hpart | ⟨hnow, jid, pid, hpart, hjid, hpid⟩
    · exact .inl hpart
    · exact .inr ⟨hclear hnow, jid, pid, hpart, hjid.mono hfade, hpid.mono hfade⟩
  | copy i line =>
    rcases h with ⟨hpart, hline⟩ | ⟨hnow, hline, jid, pid, hpart, hjid, hpid⟩
    · exact .inl ⟨hpart, hline.imp_right fun h => ⟨h.1, hclear h.2⟩⟩
    · exact .inr ⟨hclear hnow, hline, jid, pid, hpart, hjid.mono hfade, hpid.mono hfade⟩

/-- A free slot is skipped. -/
theorem told_nil (hnow : now = job ∨ now = clearjob) (hpid : now.pid = 0) : Told i job now [] := by
  refine ⟨.skipped, ?_⟩
  rintro rfl
  exact (if_pos hpid).symm

/-- The last `printf` for a slot finds the length of the command line. -/
theorem PartOk.copy (h : PartOk job now (.cmdline i) part) (hnow : now = job ∨ now = clearjob) :
    PartOk job now (.copy i now.cmdline) part := by
  rcases h with hpart | ⟨rfl, jid, pid, hpart, hjid, hpid⟩
  · refine .inl ⟨hpart, ?_⟩
    rcases hnow with rfl | rfl
    · exact .inl rfl
    · exact .inr ⟨rfl, rfl⟩
  · exact .inr ⟨rfl, rfl, jid, pid, hpart, hjid, hpid⟩

/-- An empty command line has no first character. -/
theorem copied_empty (now : String) : copied "" now = "" := if_neg fun h => h.1 rfl

/-- A line that is still there is copied. -/
theorem copied_self (line : String) : copied line line = line := if_neg fun h => h.1 h.2

/-- A line that has gone meanwhile. -/
theorem slotText_copied (hused : job.pid ≠ 0) :
    SlotText i job [jobHead job.jid job.pid, "Running ", copied job.cmdline ""] := by
  by_cases hne : job.cmdline = ""
  · rw [hne, copied_empty]
    exact .cut hused
  · rw [copied, if_pos ⟨hne, rfl⟩]
    exact .overwritten hused hne

/-- It copies the line. -/
theorem PartOk.told {line : String} (h : PartOk job now (.copy i line) part) (hused : job.pid ≠ 0)
    (hnow : now = job ∨ now = clearjob) : Told i job now (part ++ [copied line now.cmdline]) := by
  have hne : clearjob ≠ job := by
    rintro rfl
    exact hused rfl
  rcases h with ⟨rfl, rfl | ⟨rfl, rfl⟩⟩ | ⟨rfl, rfl, jid, pid, rfl, hjid, hpid⟩
  · rcases hnow with rfl | rfl
    · rw [copied_self]
      exact ⟨.whole hused, fun _ => (if_neg hused).symm⟩
    · exact ⟨slotText_copied hused, fun heq => absurd heq hne⟩
  · rw [copied_empty]
    exact ⟨.cut hused, fun heq => absurd heq hne⟩
  · rw [copied_empty]
    exact ⟨.torn hused hjid.eq_or hpid.eq_or, fun heq => absurd heq hne⟩

end Slot

/-! ## The run of `listjobs` -/

/-- What has been printed for the first `k` slots of the table `J`. -/
def Printed (J now : Fin maxJobs → Job) (k : ℕ) (out : List String) : Prop :=
  ∃ texts : Fin maxJobs → List String, out = ((List.finRange maxJobs).take k).flatMap texts ∧
    ∀ i : Fin maxJobs, i.val < k → Told i (J i) (now i) (texts i)

/-- Nothing has been printed. -/
theorem printed_zero (J now : Fin maxJobs → Job) : Printed J now 0 [] :=
  ⟨fun _ => [], rfl, fun _ hi => absurd hi (Nat.not_lt_zero _)⟩

/-- The next slot. -/
theorem Printed.snoc {J now : Fin maxJobs → Job} {out text : List String} {i : Fin maxJobs}
    (h : Printed J now i out) (ht : Told i (J i) (now i) text) :
    Printed J now (i + 1) (out ++ text) := by
  obtain ⟨texts, rfl, hall⟩ := h
  refine ⟨Function.update texts i text, ?_, ?_⟩
  · have hget : (List.finRange maxJobs)[i.val]? = some i := by
      rw [List.getElem?_eq_getElem (by rw [List.length_finRange]; exact i.isLt)]
      simp
    rw [List.take_add_one, hget, List.flatMap_append, Option.toList_some, List.flatMap_singleton,
      Function.update_self]
    congr 1
    apply List.flatMap_congr
    intro j hj
    obtain ⟨n, hn, rfl⟩ := List.mem_take_iff_getElem.mp hj
    symm
    apply Function.update_of_ne
    intro heq
    have hval := congrArg Fin.val heq
    rw [List.getElem_finRange] at hval
    rw [← hval] at hn
    exact absurd hn (Nat.not_lt.mpr (Nat.min_le_left _ _))
  · intro j hj
    by_cases hji : j = i
    · rw [hji, Function.update_self]
      exact ht
    · rw [Function.update_of_ne hji]
      apply hall
      have hne : j.val ≠ i.val := fun heq => hji (Fin.ext heq)
      omega

/-- What has been printed stays right when slots are cleared. -/
theorem Printed.mono {J now now' : Fin maxJobs → Job} {k : ℕ} {out : List String}
    (h : Printed J now k out) (hnow : ∀ i, now i = J i ∨ now i = clearjob)
    (hfade : ∀ i, now' i = now i ∨ now' i = clearjob) : Printed J now' k out := by
  obtain ⟨texts, hout, hall⟩ := h
  exact ⟨texts, hout, fun i hi => (hall i hi).mono (hnow i) (hfade i)⟩

/-- The slot that `listjobs` is at. -/
def ListPc.slot : ListPc → Option (Fin maxJobs)
  | .test _ => none
  | .args i _ _ | .state i | .internal i | .cmdline i | .copy i _ => some i

/-- How many slots `listjobs` has dealt with. -/
def ListPc.count : ListPc → ℕ
  | .test k => k
  | .args i _ _ | .state i | .internal i | .cmdline i | .copy i _ => i

namespace Console

variable {c d : Console} {J : Fin maxJobs → Job} {o : List String}

/-- What has been printed since `listjobs` started on the table `J`, when `o` had been printed. -/
structure Listed (J : Fin maxJobs → Job) (o : List String) (c : Console) : Prop where
  fade : ∀ i, c.shell.jobs.jobs i = J i ∨ c.shell.jobs.jobs i = clearjob
  printed : match c.listing with
    | none => ∃ out, c.out = o ++ out ∧ Printed J c.shell.jobs.jobs maxJobs out
    | some pc => pc.count ≤ maxJobs ∧ ∃ out part, c.out = o ++ (out ++ part) ∧
        Printed J c.shell.jobs.jobs pc.count out ∧
        (pc.slot = none → part = []) ∧
        ∀ i, pc.slot = some i → (J i).pid ≠ 0 ∧ PartOk (J i) (c.shell.jobs.jobs i) pc part

/-- `listjobs` starts. -/
theorem Listed.start (h : c.listing = some (.test 0)) : Listed c.shell.jobs.jobs c.out c where
  fade _ := .inl rfl
  printed := by
    rw [h]
    exact ⟨Nat.zero_le _, [], [], by simp, printed_zero _ _, fun _ => rfl, fun _ hi => nomatch hi⟩

/-- Meanwhile the handler clears slots. -/
theorem Listed.mono (h : Listed J o c) (hlisting : d.listing = c.listing) (hout : d.out = c.out)
    (hfade : ∀ i, d.shell.jobs.jobs i = c.shell.jobs.jobs i ∨ d.shell.jobs.jobs i = clearjob) :
    Listed J o d := by
  refine ⟨?_, ?_⟩
  · intro i
    rcases hfade i with heq | hclear
    · rw [heq]
      exact h.fade i
    · exact .inr hclear
  · have hprinted := h.printed
    rw [hlisting, hout]
    split at hprinted
    · obtain ⟨out, heq, hp⟩ := hprinted
      exact ⟨out, heq, hp.mono h.fade hfade⟩
    · obtain ⟨hcount, out, part, heq, hp, hnone, hpart⟩ := hprinted
      refine ⟨hcount, out, part, heq, hp.mono h.fade hfade, hnone, fun i hi => ?_⟩
      obtain ⟨hused, hok⟩ := hpart i hi
      exact ⟨hused, hok.mono (hfade i)⟩

/-- `listjobs` goes on with the slot that it is at. -/
theorem Listed.goOn {pc : ListPc} {i : Fin maxJobs} {out part printed : List String}
    (h : Listed J o c) (hslot : pc.slot = some i) (hcount : pc.count = i)
    (heq : c.out = o ++ (out ++ part)) (hp : Printed J c.shell.jobs.jobs i out)
    (hused : (J i).pid ≠ 0) (hok : PartOk (J i) (c.shell.jobs.jobs i) pc (part ++ printed)) :
    Listed J o (c.goto pc printed) where
  fade := h.fade
  printed := by
    refine ⟨hcount ▸ i.isLt.le, out, part ++ printed, ?_, hcount ▸ hp, ?_, ?_⟩
    · dsimp only [goto]
      rw [heq, List.append_assoc, List.append_assoc]
    · rw [hslot]
      intro hnone
      cases hnone
    · intro j hj
      rw [hslot] at hj
      obtain rfl := Option.some.inj hj
      exact ⟨hused, hok⟩

/-- `listjobs` goes on to the next slot. -/
theorem Listed.nextSlot {i : Fin maxJobs} {out part printed : List String} (h : Listed J o c)
    (heq : c.out = o ++ (out ++ part)) (hp : Printed J c.shell.jobs.jobs i out)
    (ht : Told i (J i) (c.shell.jobs.jobs i) (part ++ printed)) :
    Listed J o (c.goto (.test (i + 1)) printed) where
  fade := h.fade
  printed := by
    refine ⟨i.isLt, out ++ (part ++ printed), [], ?_, hp.snoc ht, fun _ => rfl,
      fun _ hj => nomatch hj⟩
    dsimp only [goto]
    rw [heq, List.append_nil, List.append_assoc, List.append_assoc]

/-- The jobs that `listjobs` finds run. -/
theorem Listed.state (h : Listed J o c) {i : Fin maxJobs} (hrun : (J i).state = .bg) :
    (c.shell.jobs.jobs i = J i ∧ (c.shell.jobs.jobs i).state = .bg ∧
      c.shell.jobs.jobs i ≠ clearjob) ∨ c.shell.jobs.jobs i = clearjob := by
  rcases h.fade i with heq | hclear
  · left
    rw [heq]
    refine ⟨rfl, hrun, ?_⟩
    intro hclear
    rw [hclear] at hrun
    cases hrun
  · exact .inr hclear

/-- `listjobs` finds no job that is stopped or in the foreground. -/
theorem Listed.state_ne (h : Listed J o c) {i : Fin maxJobs} {state : JobState}
    (hrun : (J i).state = .bg) (hbg : state ≠ .bg) (hundef : state ≠ .undef) :
    (c.shell.jobs.jobs i).state ≠ state := by
  rcases h.state hrun with ⟨-, hstate, -⟩ | hclear
  · rw [hstate]
    exact hbg.symm
  · rw [hclear]
    exact hundef.symm

/-- **A step of `listjobs`.** -/
theorem Listed.listStep {pc : ListPc} {e : ListEvent} (h : Listed J o c)
    (hrun : ∀ i, (J i).pid ≠ 0 → (J i).state = .bg) (hpc : c.listing = some pc)
    (hs : c.ListStep pc e d) : Listed J o d := by
  have hprinted := h.printed
  rw [hpc] at hprinted
  obtain ⟨hcount, out, part, heq, hp, hnone, hpart⟩ := hprinted
  cases hs with
  | @used i hpid =>
    obtain rfl := hnone rfl
    have hused : (J i).pid ≠ 0 := by
      rcases h.fade i with hsame | hclear
      · rwa [hsame] at hpid
      · rw [hclear] at hpid
        exact absurd rfl hpid
    exact h.goOn rfl rfl heq hp hused ⟨rfl, by simp, by simp⟩
  | @free i hpid =>
    obtain rfl := hnone rfl
    exact h.nextSlot heq hp (told_nil (h.fade i) hpid)
  | @done k hk =>
    obtain rfl := hnone rfl
    obtain rfl : k = maxJobs := Nat.le_antisymm hcount hk
    exact ⟨h.fade, out, by rw [← List.append_nil out]; exact heq, hp⟩
  | @jid i pid =>
    obtain ⟨hused, hpart, -, hpids⟩ := hpart i rfl
    refine h.goOn rfl rfl heq hp hused ⟨by rw [hpart, List.append_nil], ?_, hpids⟩
    rintro _ ⟨⟩
    exact seen_now rfl (h.fade i)
  | @pid i jid =>
    obtain ⟨hused, hpart, hjids, -⟩ := hpart i rfl
    refine h.goOn rfl rfl heq hp hused ⟨by rw [hpart, List.append_nil], hjids, ?_⟩
    rintro _ ⟨⟩
    exact seen_now rfl (h.fade i)
  | @head i jid pid =>
    obtain ⟨hused, rfl, hjid, hpid⟩ := hpart i rfl
    exact h.goOn rfl rfl heq hp hused ⟨jid, pid, rfl, hjid jid rfl, hpid pid rfl⟩
  | @bg i hstate =>
    obtain ⟨hused, jid, pid, rfl, hjid, hpid⟩ := hpart i rfl
    apply h.goOn rfl rfl heq hp hused
    rcases h.state (hrun i hused) with ⟨-, -, hne⟩ | hclear
    · rw [hjid.eq hne, hpid.eq hne]
      exact .inl rfl
    · rw [hclear] at hstate
      cases hstate
  | @fg i hstate =>
    obtain ⟨hused, -⟩ := hpart i rfl
    exact absurd hstate (h.state_ne (hrun i hused) nofun nofun)
  | @st i hstate =>
    obtain ⟨hused, -⟩ := hpart i rfl
    exact absurd hstate (h.state_ne (hrun i hused) nofun nofun)
  | @undef i hstate =>
    obtain ⟨hused, jid, pid, rfl, hjid, hpid⟩ := hpart i rfl
    apply h.goOn rfl rfl heq hp hused
    rcases h.state (hrun i hused) with ⟨-, hbg, -⟩ | hclear
    · rw [hbg] at hstate
      cases hstate
    · exact ⟨hclear, jid, pid, rfl, hjid, hpid⟩
  | @internal i =>
    obtain ⟨hused, hclear, jid, pid, rfl, hjid, hpid⟩ := hpart i rfl
    apply h.goOn rfl rfl heq hp hused
    refine .inr ⟨hclear, jid, pid, ?_, hjid, hpid⟩
    rw [hclear]
    rfl
  | @cmdline i =>
    obtain ⟨hused, hok⟩ := hpart i rfl
    have hcopy := hok.copy (h.fade i)
    exact h.goOn rfl rfl heq hp hused (by rwa [List.append_nil])
  | @copy i line =>
    obtain ⟨hused, hok⟩ := hpart i rfl
    exact h.nextSlot heq hp (hok.told hused (h.fade i))

/-- **A step while `listjobs` runs**, or after it, before the main thread goes on. -/
theorem Listed.step {e : ConsoleEvent} (h : Listed J o c) (hok : c.Ok)
    (hrun : ∀ i, (J i).pid ≠ 0 → (J i).state = .bg) (hmain : ¬ e.IsMain) (hs : c.Step e d) :
    Listed J o d := by
  rcases step_cases hs with ⟨e, rfl, hs, hout, -, hlisting⟩ | ⟨e, pc, rfl, hpc, -, hs⟩
  · have hne : ∀ m, e ≠ .main m := by
      rintro m rfl
      exact hmain trivial
    rcases hlisting with hsame | ⟨-, rfl, -⟩
    · exact h.mono hsame hout (hok.inv.jobs_fade hs hne)
    · exact absurd rfl (hne _)
  · exact h.listStep hrun hpc hs

/-- **What `listjobs` prints**, whatever `sigchld_handler` does meanwhile: a text for each slot, in
order. The text of a job that stays in the table is its line, and says that it runs. Of a job that
goes, that is printed too, or nothing, or the line without its command or with a zero byte for its
first character, or a line with an internal error, where its numbers may be zeros. -/
theorem listjobs_prints {errno : ℤ} {es es' : List ConsoleEvent}
    (h : Runs Step (init errno) es c) (hstart : c.listing = some (.test 0))
    (hrun : Runs (Guarded (fun _ e => ¬ e.IsMain) Step) c es' d) (hend : d.listing = none) :
    ∃ texts : Fin maxJobs → List String,
      d.out = c.out ++ (List.finRange maxJobs).flatMap texts ∧
      ∀ i, SlotText i (c.shell.jobs.jobs i) (texts i) ∧
        (d.shell.jobs.jobs i = c.shell.jobs.jobs i →
          texts i = slotLine (c.shell.jobs.jobs i)) := by
  have hok := ok_of_runs h
  have hbg : ∀ i, (c.shell.jobs.jobs i).pid ≠ 0 → (c.shell.jobs.jobs i).state = .bg := by
    intro i hi
    have hprompt := hok.prompt (by rw [hstart]; exact Option.some_ne_none _)
    exact (hok.state i hi).resolve_left (hok.inv.state_ne_fg (by rw [hprompt]; rfl) i)
  have hlisted : d.Ok ∧ Listed c.shell.jobs.jobs c.out d := by
    apply hrun.invariant (I := fun d => d.Ok ∧ Listed c.shell.jobs.jobs c.out d)
    · rintro c' e d' ⟨hok', hl⟩ ⟨hmain, hs⟩
      exact ⟨hok'.step hs, hl.step hok' hbg hmain hs⟩
    · exact ⟨hok, Listed.start hstart⟩
  have hprinted := hlisted.2.printed
  rw [hend] at hprinted
  obtain ⟨out, heq, texts, rfl, hall⟩ := hprinted
  refine ⟨texts, ?_, fun i => ?_⟩
  · rw [heq, List.take_of_length_le (by rw [List.length_finRange])]
  · have ht := hall i i.isLt
    exact ⟨ht.slotText, ht.eq_slotLine⟩

/-- Two background jobs, and then `jobs`. -/
def twoJobs : List ConsoleEvent :=
  [.shell (.main (.read ⟨some "a", true, "a &"⟩)), .shell (.main .builtinCmd),
    .shell (.main (.fork 100)), .shell (.main .addjob), .shell (.main .unblock),
    .shell (.main .report),
    .shell (.main (.read ⟨some "b", true, "b &"⟩)), .shell (.main .builtinCmd),
    .shell (.main (.fork 101)), .shell (.main .addjob), .shell (.main .unblock),
    .shell (.main .report),
    .shell (.main (.read ⟨some "jobs", false, "jobs"⟩)), .shell (.main .builtinCmd)]

/-- The first job terminates and is deleted between two reads of `listjobs`. -/
def interrupted : List ConsoleEvent :=
  [.listjobs .next, .listjobs .jid, .shell (.kernel (.terminate 100)), .shell (.handler .deliver),
    .shell (.handler (.waitpid 100)), .shell (.handler .deletejob), .shell (.handler .waitpidNone),
    .shell (.handler .checkErrno), .listjobs .pid, .listjobs .next, .listjobs .next,
    .listjobs .next, .listjobs .next, .listjobs .next, .listjobs .next, .listjobs .pid,
    .listjobs .jid] ++ List.replicate 19 (.listjobs .next)

/-- The numbers printed for the first job are those of no job; the second one stays. -/
theorem listjobs_prints_example : ∃ c d, Runs Step (init echild) twoJobs c ∧
    Runs (Guarded (fun _ e => ¬ e.IsMain) Step) c interrupted d ∧ d.listing = none ∧
    d.out.take 2 = [jobHead 1 0, internalError 0 0] ∧
    ∃ texts : Fin maxJobs → List String, d.out = (List.finRange maxJobs).flatMap texts ∧
      texts 1 = [jobHead 2 101, "Running ", "b &"] := by
  have h : ((runIf (fun _ _ => True) next (init echild) twoJobs).bind fun c =>
      (runIf (fun _ e => ¬ e.IsMain) next c interrupted).map fun d =>
        ((c.listing, c.out, c.shell.jobs.jobs 1), d.listing, d.out.take 2, d.shell.jobs.jobs 1)) =
      some ((some (.test 0), [], ⟨101, 2, .bg, "b &"⟩), none, [jobHead 1 0, internalError 0 0],
        ⟨101, 2, .bg, "b &"⟩) := by
    decide +kernel
  obtain ⟨c, hc, h⟩ := Option.bind_eq_some_iff.mp h
  obtain ⟨d, hd, h⟩ := Option.map_eq_some_iff.mp h
  simp only [Prod.mk.injEq] at h
  obtain ⟨⟨hstart, hout, hjob⟩, hend, htake, hjob'⟩ := h
  have hrun := (runs_of_runIf Step (fun _ _ _ h => h) hc).of_guarded
  have hrun' := runs_of_runIf Step (fun _ _ _ h => h) hd
  obtain ⟨texts, htexts, hall⟩ := listjobs_prints hrun hstart hrun' hend
  rw [hout, List.nil_append] at htexts
  refine ⟨c, d, hrun, hrun', hend, htake, texts, htexts, ?_⟩
  rw [(hall 1).2 (hjob'.trans hjob.symm), hjob]
  rfl

end Console

end SystemsLabs.Shlab
