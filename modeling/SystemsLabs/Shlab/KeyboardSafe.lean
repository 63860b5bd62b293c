import SystemsLabs.Shlab.Keyboard

/-!
# Whom the keyboard handlers signal

A handler looks up the foreground job, asks for its process group and signals the group, and
anything can happen between two of these. `Terminal.Safe` says that the group that a handler is
about to signal is that of the process ID of the job it saw in state `FG`, and that no handler has
terminated the shell. It holds in the runs in which every child whose group a handler asks for
exists and has left the group of the shell, and every group that a handler signals still has a
process that the shell may signal.

**Assumptions.** Those of `Shlab.Keyboard`.
-/

namespace SystemsLabs.Shlab

open Lib

namespace Terminal

variable {c d : Terminal} {fg : Keyboard → Option ℤ} {es : List TermEvent} {sig : Keyboard}
  {pc pc' : KeyPc} {rest : List Frame} {l l' : JobList} {g : ℤ} {pid : ℤ}

/-- The process ID of the job that the handler of each signal last saw in state `FG`. -/
def seen (c : Terminal) (e : TermEvent) (_ : Terminal) (fg : Keyboard → Option ℤ) :
    Keyboard → Option ℤ :=
  match e, c.frames with
  | .key, .keyboard sig (.readState i) :: _ =>
    if h : i < maxJobs then
      if (c.shell.jobs.jobs ⟨i, h⟩).state = .fg then
        Function.update fg sig (some (c.shell.jobs.jobs ⟨i, h⟩).pid)
      else fg
    else fg
  | _, _ => fg

/-- The steps of the terminal with what the handlers have seen. -/
abbrev StepSeen : Terminal × (Keyboard → Option ℤ) → TermEvent →
    Terminal × (Keyboard → Option ℤ) → Prop := WithHistory seen Step

/-- Keyboard signals reach only the foreground job. -/
structure Safe (c : Terminal) (fg : Keyboard → Option ℤ) : Prop where
  /-- A handler that is about to signal a group has seen a job in state `FG`, and the ID of the
  group is the process ID of that job. It is not the group of the shell. -/
  target : ∀ sig pid pgid jid rest, c.frames = .keyboard sig (.kill pid pgid jid) :: rest →
    fg sig = some pgid ∧ pgid ≠ c.shellGroup
  /-- No keyboard handler has terminated the shell. -/
  alive : c.killed = false

/-- A child whose process group a handler asks for exists, and has moved to its own group unless its
job is gone; a group that a handler signals has a process that the shell may signal. -/
def InGroup (c : Terminal) : TermEvent → Prop
  | .key =>
    match c.frames with
    | .keyboard _ (.getpgid pid) :: _ =>
      c.shell.Unreaped pid ∧ ((∃ i, (c.shell.jobs.jobs i).pid = pid) → c.group pid = pid)
    | .keyboard _ (.kill pid _ _) :: _ => c.CanSignal pid
    | _ => True
  | _ => True

instance (c : Terminal) : DecidablePred c.InGroup
  | .key => by unfold InGroup; dsimp only; split <;> infer_instance
  | .shell _ | .setpgid _ | .credentials .. | .press _ => isTrue trivial

/-! ## The invariant -/

/-- What holds at each point of a handler that has seen `fg`, with the shell in group `g`. -/
def FrameOk (l : JobList) (g : ℤ) (fg : Option ℤ) : KeyPc → Prop
  | .readPid i => ∃ pid, fg = some pid ∧ ((l.jobs i).pid = pid ∨ (l.jobs i).pid = 0)
  | .getpgid pid => fg = some pid ∧ pid ≠ 0
  | .findJob pid pgid _ =>
    fg = some pid ∧ pid ≠ 0 ∧ (pgid = pid ∧ pid ≠ g ∨ ∀ i, (l.jobs i).pid ≠ pid)
  | .readJid pid pgid _ => fg = some pid ∧ pgid = pid ∧ pid ≠ g
  | .kill pid pgid _ => fg = some pid ∧ pgid = pid ∧ pid ≠ g
  | _ => True

/-- Jobs that are removed from the table do not matter. -/
theorem FrameOk.mono {fg : Option ℤ} (h : FrameOk l g fg pc)
    (hslot : ∀ i, l'.jobs i = l.jobs i ∨ (l'.jobs i).pid = 0) : FrameOk l' g fg pc := by
  cases pc with
  | readPid i =>
    obtain ⟨pid, hfg, hpid⟩ := h
    refine ⟨pid, hfg, ?_⟩
    rcases hslot i with heq | hfree
    · rwa [heq]
    · exact .inr hfree
  | findJob pid pgid k =>
    obtain ⟨hfg, hne, hown⟩ := h
    refine ⟨hfg, hne, hown.imp_right fun hgone i => ?_⟩
    rcases hslot i with heq | hfree
    · rw [heq]
      exact hgone i
    · rw [hfree]
      exact hne.symm
  | readState i => trivial
  | getpgid pid => exact h
  | readJid pid pgid i => exact h
  | kill pid pgid jid => exact h
  | printf pid jid => trivial

/-- The invariant: what the shell and its handlers have read of the job table is still so, as far as
they rely on it. `fg` remembers the job that a handler has found. -/
structure KeyInv (c : Terminal) (fg : Keyboard → Option ℤ) : Prop where
  inv : c.shell.Inv
  children_ne : ∀ child ∈ c.shell.children, child.pid ≠ c.shellGroup
  frame : ∀ sig pc, .keyboard sig pc ∈ c.frames → FrameOk c.shell.jobs c.shellGroup (fg sig) pc
  /-- No signal has two handlers at a time. -/
  sigs : (c.frames.filterMap Frame.sig).Nodup
  alive : c.killed = false

/-- The invariant at the start. -/
theorem keyInv_init (errno shellGroup : ℤ) : KeyInv (init errno shellGroup) fun _ => none where
  inv := Shell.inv_init errno
  children_ne _ h := nomatch h
  frame _ _ h := nomatch h
  sigs := List.nodup_nil
  alive := rfl

namespace KeyInv

/-- What a handler is about to signal. -/
theorem safe (h : KeyInv c fg) : Safe c fg where
  target sig pid pgid jid rest hframes := by
    obtain ⟨hfg, rfl, hne⟩ := h.frame sig _ (hframes ▸ List.mem_cons_self)
    exact ⟨hfg, hne⟩
  alive := h.alive

/-! ### The shell, `sigchld_handler` and the children -/

/-- A step of the main thread, of `sigchld_handler` or of a child keeps the invariant. -/
theorem shellStep {e : Event} (h : KeyInv c fg) (hs : c.shellStep e = some d) : KeyInv d fg := by
  obtain ⟨hstep, hgroup, hkilled, hfork, hmain, hframes⟩ := shellStep_cases hs
  have hmem : ∀ sig pc, Frame.keyboard sig pc ∈ d.frames → Frame.keyboard sig pc ∈ c.frames := by
    intro sig pc hpc
    rcases hframes with heq | heq | heq
    · exact heq ▸ hpc
    · rw [heq] at hpc
      exact (List.mem_cons.mp hpc).resolve_left (by simp)
    · rw [heq]
      exact List.mem_cons_of_mem _ hpc
  refine ⟨h.inv.step hstep, fun child hchild => ?_, fun sig pc hpc => ?_, ?_, hkilled.trans h.alive⟩
  · rw [hgroup]
    rcases hstep.children child hchild with ⟨child', hchild', heq⟩ | heq
    · exact heq ▸ h.children_ne child' hchild'
    · exact hfork _ heq
  · rw [hgroup]
    refine (h.frame sig pc (hmem sig pc hpc)).mono (h.inv.jobs_eq_or hstep fun e' he => ?_)
    rw [hmain ⟨e', he⟩] at hpc
    exact absurd hpc List.not_mem_nil
  · have : d.frames.filterMap Frame.sig = c.frames.filterMap Frame.sig := by
      rcases hframes with heq | heq | heq <;> rw [heq] <;> rfl
    rw [this]
    exact h.sigs

/-! ### The keyboard handlers -/

/-- No keyboard handler interrupts itself. -/
theorem sigs_cons (h : KeyInv c fg) (hframes : c.frames = .keyboard sig pc :: rest) :
    sig ∉ rest.filterMap Frame.sig ∧ (rest.filterMap Frame.sig).Nodup := by
  have hsigs : (sig :: rest.filterMap Frame.sig).Nodup := by
    simpa [hframes, Frame.sig] using h.sigs
  exact List.nodup_cons.mp hsigs

/-- The handler that runs goes on. -/
theorem goto (h : KeyInv c fg) (hframes : c.frames = .keyboard sig pc :: rest)
    {fg' : Keyboard → Option ℤ} (hfg : ∀ sig', sig' ≠ sig → fg' sig' = fg sig')
    (hok : FrameOk c.shell.jobs c.shellGroup (fg' sig) pc') :
    KeyInv { c with frames := .keyboard sig pc' :: rest } fg' where
  inv := h.inv
  children_ne := h.children_ne
  frame sig' pc'' hmem := by
    rcases List.mem_cons.mp hmem with heq | hrest
    · obtain ⟨rfl, rfl⟩ := Frame.keyboard.inj heq
      exact hok
    · have hne : sig' ≠ sig := by
        rintro rfl
        exact (h.sigs_cons hframes).1 (List.mem_filterMap.mpr ⟨.keyboard sig' pc'', hrest, rfl⟩)
      rw [hfg sig' hne]
      exact h.frame sig' pc'' (hframes ▸ List.mem_cons_of_mem _ hrest)
  sigs := by
    have hsigs := h.sigs
    rwa [hframes] at hsigs
  alive := h.alive

/-- The handler that runs returns. -/
theorem returns (h : KeyInv c fg) (hframes : c.frames = .keyboard sig pc :: rest) :
    KeyInv { c with frames := rest } fg where
  inv := h.inv
  children_ne := h.children_ne
  frame sig' pc' hmem := h.frame sig' pc' (hframes ▸ List.mem_cons_of_mem _ hmem)
  sigs := (h.sigs_cons hframes).2
  alive := h.alive

/-- Another handler starts. -/
theorem press (h : KeyInv c fg) (hsig : ∀ f ∈ c.frames, f.sig ≠ some sig) :
    KeyInv { c with frames := .keyboard sig (.readState 0) :: c.frames } fg where
  inv := h.inv
  children_ne := h.children_ne
  frame sig' pc' hmem := by
    rcases List.mem_cons.mp hmem with heq | hmem
    · obtain ⟨rfl, rfl⟩ := Frame.keyboard.inj heq
      trivial
    · exact h.frame sig' pc' hmem
  sigs := by
    change (sig :: c.frames.filterMap Frame.sig).Nodup
    refine List.nodup_cons.mpr ⟨fun hmem => ?_, h.sigs⟩
    obtain ⟨f, hf, heq⟩ := List.mem_filterMap.mp hmem
    exact hsig f hf heq
  alive := h.alive

/-- **A step of a keyboard handler.** -/
theorem keyboardHandler (h : KeyInv c fg) (hframes : c.frames = .keyboard sig pc :: rest)
    (hguard : c.InGroup .key) : KeyInv (c.keyboardHandler sig rest pc) (c.seen .key d fg) := by
  have hok := h.frame sig pc (hframes ▸ List.mem_cons_self)
  cases pc with
  | readState i =>
    simp only [Terminal.keyboardHandler, seen, hframes]
    split_ifs with hi hstate
    · refine h.goto hframes (fun sig' hne => Function.update_of_ne hne ..) ?_
      exact ⟨_, Function.update_self .., .inl rfl⟩
    · exact h.goto hframes (fun _ _ => rfl) trivial
    · exact h.returns hframes
  | readPid i =>
    obtain ⟨pid, hfg, hpid⟩ := hok
    simp only [Terminal.keyboardHandler, seen, hframes]
    split_ifs with hzero
    · exact h.returns hframes
    · refine h.goto hframes (fun _ _ => rfl) ⟨?_, hzero⟩
      rw [hfg, hpid.resolve_right hzero]
  | getpgid pid =>
    obtain ⟨hfg, hne⟩ := hok
    simp only [InGroup, hframes] at hguard
    obtain ⟨hunreaped, hgroup⟩ := hguard
    simp only [Terminal.keyboardHandler, Terminal.getpgid, if_pos hunreaped, seen, hframes]
    refine h.goto hframes (fun _ _ => rfl) ⟨hfg, hne, ?_⟩
    by_cases hjob : ∃ i, (c.shell.jobs.jobs i).pid = pid
    · obtain ⟨child, hchild, rfl⟩ := hunreaped
      exact .inl ⟨hgroup hjob, h.children_ne child hchild⟩
    · exact .inr fun i hi => hjob ⟨i, hi⟩
  | findJob pid pgid i =>
    obtain ⟨hfg, hne, hown⟩ := hok
    simp only [Terminal.keyboardHandler, seen, hframes]
    split_ifs with hpos hi hpid
    · exact h.returns hframes
    · have hown' := hown.resolve_right fun hgone => hgone _ hpid
      exact h.goto hframes (fun _ _ => rfl) ⟨hfg, hown'⟩
    · exact h.goto hframes (fun _ _ => rfl) ⟨hfg, hne, hown⟩
    · exact h.returns hframes
  | readJid pid pgid i =>
    simp only [Terminal.keyboardHandler, seen, hframes]
    split_ifs with hjid
    · exact h.returns hframes
    · exact h.goto hframes (fun _ _ => rfl) hok
  | kill pid pgid jid =>
    obtain ⟨-, rfl, -⟩ := hok
    simp only [InGroup, hframes] at hguard
    simp only [Terminal.keyboardHandler, if_pos hguard, seen, hframes]
    exact h.goto hframes (fun _ _ => rfl) trivial
  | printf pid jid =>
    simp only [Terminal.keyboardHandler, seen, hframes]
    exact h.returns hframes

/-- A step that meets the condition keeps the invariant. -/
theorem step {e : TermEvent} (h : KeyInv c fg) (hs : c.Step e d) (hguard : c.InGroup e) :
    KeyInv d (c.seen e d fg) := by
  rcases step_cases hs with ⟨e, rfl, hshell⟩ | ⟨pid, rfl, rfl⟩ | ⟨pid, b, rfl, rfl⟩ |
    ⟨sig, rfl, hsig, rfl⟩ | ⟨sig, pc, rest, rfl, hframes, rfl⟩
  · exact h.shellStep hshell
  · exact ⟨h.inv, h.children_ne, h.frame, h.sigs, h.alive⟩
  · exact ⟨h.inv, h.children_ne, h.frame, h.sigs, h.alive⟩
  · exact h.press hsig
  · exact h.keyboardHandler hframes hguard

end KeyInv

/-! ## Runs -/

/-- The keyboard handlers leave the shell alone, or terminate it. -/
theorem keyboardHandler_shell (c : Terminal) (sig : Keyboard) (rest : List Frame) (pc : KeyPc) :
    (c.keyboardHandler sig rest pc).shell = c.shell ∨
      (c.keyboardHandler sig rest pc).shell = { c.shell with exited := true } := by
  cases pc <;> simp only [keyboardHandler, true_or] <;> repeat' split
  all_goals first
    | exact .inl rfl
    | exact .inr rfl

/-- The job table is safe, also when the handlers interrupt each other. -/
theorem jobTableSafe_of_runs {errno shellGroup : ℤ} (h : Runs Step (init errno shellGroup) es c) :
    c.shell.JobTableSafe := by
  have hinv : c.shell.Inv := by
    refine h.invariant (I := fun c => c.shell.Inv) ?_ (Shell.inv_init errno)
    intro c e d hinv hs
    rcases step_cases hs with ⟨e, rfl, hshell⟩ | ⟨pid, rfl, rfl⟩ | ⟨pid, b, rfl, rfl⟩ |
      ⟨sig, rfl, hsig, rfl⟩ | ⟨sig, pc, rest, rfl, hframes, rfl⟩
    · exact hinv.step (shellStep_cases hshell).1
    · exact hinv
    · exact hinv
    · exact hinv
    · rcases keyboardHandler_shell c sig rest pc with heq | heq
      · exact heq ▸ hinv
      · rw [heq]
        exact hinv.of_unreaped rfl rfl rfl rfl (fun _ => id) hinv.children_pos
  exact hinv.jobTableSafe

/-- The invariant holds in every state of a run whose steps meet the condition. -/
theorem keyInv_of_guarded {errno shellGroup : ℤ}
    (h : Runs (Guarded (fun p e => InGroup p.1 e) StepSeen)
      (init errno shellGroup, fun _ => none) es (c, fg)) : KeyInv c fg := by
  refine h.invariant (I := fun p => KeyInv p.1 p.2) ?_ (keyInv_init errno shellGroup)
  rintro p e q hinv ⟨hguard, hs, hfg⟩
  rw [hfg]
  exact hinv.step hs hguard

/-- Every such run has what the handlers have seen, and is safe. -/
theorem exists_safe {errno shellGroup : ℤ}
    (h : Runs (Guarded InGroup Step) (init errno shellGroup) es c) :
    ∃ fg, Runs StepSeen (init errno shellGroup, fun _ => none) es (c, fg) ∧ Safe c fg := by
  obtain ⟨fg, hrun⟩ := h.exists_withHistory seen fun _ => none
  exact ⟨fg, hrun.of_guarded, (keyInv_of_guarded hrun).safe⟩

/-- **Keyboard signals reach only the foreground job** in every run in which the children whose
groups the handlers ask for exist and have left the group of the shell, and the groups that they
signal have a process that the shell may signal. -/
theorem safe_of_guarded (errno shellGroup : ℤ)
    (h : Runs (Guarded (fun p e => InGroup p.1 e) StepSeen)
      (init errno shellGroup, fun _ => none) es (c, fg)) : Safe c fg :=
  (keyInv_of_guarded h).safe

/-- A command in the foreground, up to `waitfg`. -/
def startForeground : List TermEvent :=
  [.shell (.main (.read ⟨some "/bin/cat", false, "/bin/cat"⟩)), .shell (.main .builtinCmd),
    .shell (.main (.fork 100)), .shell (.main .addjob), .shell (.main .unblock)]

/-- A keyboard signal, and its handler up to `Kill`. -/
def interrupt : List TermEvent := [.press .sigint, .key, .key, .key, .key, .key]

/-- The point at which `sigint_handler` signals a group. -/
def aboutToKill (c : Terminal) : Option (ℤ × ℤ) :=
  match c.frames with
  | .keyboard .sigint (.kill pid pgid _) :: _ => some (pid, pgid)
  | _ => none

/-- A handler that is about to signal is on top of the stack. -/
theorem frames_of_aboutToKill {p : ℤ × ℤ} (h : c.aboutToKill = some p) :
    ∃ jid rest, c.frames = .keyboard .sigint (.kill p.1 p.2 jid) :: rest := by
  unfold aboutToKill at h
  split at h
  · next hframes =>
    obtain rfl := Option.some.inj h
    exact ⟨_, _, hframes⟩
  · cases h

/-- The child has left the group of the shell before the signal comes. -/
theorem safe_of_guarded_example : ∃ p,
    Runs StepSeen (init 0 50, fun _ => none) (startForeground ++ [.setpgid 100] ++ interrupt) p ∧
      p.1.aboutToKill = some (100, 100) ∧ Safe p.1 p.2 := by
  obtain ⟨p, hrun, hobs⟩ := exists_runs_of_runIf StepSeen (fun p => p.1.aboutToKill)
    (some (100, 100)) (withHistory_of_next fun _ _ _ h => h)
    (show (runIf (fun p e => InGroup p.1 e) (nextWithHistory seen next)
      (init 0 50, fun _ => none) (startForeground ++ [.setpgid 100] ++ interrupt)).map
      (fun p => p.1.aboutToKill) = some (some (100, 100)) by decide +kernel)
  exact ⟨p, hrun.of_guarded, hobs, safe_of_guarded 0 50 hrun⟩

/-- The signal comes before the child has left the group of the shell, which the handler signals. -/
theorem exists_not_safe : ∃ p,
    Runs StepSeen (init 0 50, fun _ => none) (startForeground ++ interrupt) p ∧
      p.1.aboutToKill = some (100, 50) ∧ p.1.shellGroup = 50 ∧ ¬ Safe p.1 p.2 := by
  obtain ⟨p, hrun, hobs⟩ := exists_runs_of_runIf StepSeen
    (fun p => (p.1.aboutToKill, p.1.shellGroup)) (some (100, 50), 50)
    (withHistory_of_next fun _ _ _ h => h)
    (show (runIf (fun _ _ => True) (nextWithHistory seen next)
      (init 0 50, fun _ => none) (startForeground ++ interrupt)).map
      (fun p => (p.1.aboutToKill, p.1.shellGroup)) = some (some (100, 50), 50) by decide +kernel)
  obtain ⟨hkill, hgroup⟩ := Prod.mk.inj hobs
  obtain ⟨jid, rest, hframes⟩ := frames_of_aboutToKill hkill
  refine ⟨p, hrun.of_guarded, hkill, hgroup, fun hsafe => ?_⟩
  exact (hsafe.target _ _ _ _ _ hframes).2 hgroup.symm

end Terminal

end SystemsLabs.Shlab
