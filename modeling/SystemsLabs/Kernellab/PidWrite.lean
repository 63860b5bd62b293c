import SystemsLabs.Lib.CString
import SystemsLabs.Lib.Traced

/-!
# Asking the kernel for a process (`kernellab.c`, `pidinfo.h`)

`pid_write` copies a message from the user, looks for the process with the ID in this message, and
copies a `pid_info` about it to the address in the message.

* `pidWrite` — what it allocates, frees and copies to the user, in order, and what it returns.
* `Env.Exit` — the ways it can end.
* `Env.AllOrNothing` — it frees all that it allocates, and either tells the user about the process
  and returns `count`, or returns `-EINVAL` and copies nothing out.
* `allOrNothing_iff` — this is so unless the second allocation fails behind the first, or the ID -1
  is found, or `copy_to_user` fails when it has copied a part.

**Scope.** One call, with any outcome of each call of the kernel. That the process is still there
when it is looked at is the kernel's business.
-/

namespace SystemsLabs.Kernellab

open Lib

/-! ## Data -/

/-- A pointer. -/
abbrev Ptr : Type := BitVec 64

/-- `EINVAL`. -/
abbrev einval : ℤ := 22

/-- `struct pid_info`. -/
structure PidInfo where
  pid : ℤ
  comm : CBuf 16
  state : ℤ
  deriving DecidableEq

/-- `sizeof(struct pid_info)`, with four bytes of padding in front of `state`. -/
abbrev sizeofPidInfo : ℕ := 32

/-- `struct sysfs_message`. -/
structure SysfsMessage where
  pid : ℤ
  address : Ptr

/-- A `struct task_struct`. -/
structure TaskStruct where
  pid : ℤ
  /-- The bytes of the array, which a zero byte follows if there is none among them. -/
  comm : List UInt8
  state : ℤ

/-- What `pid_write` is called with, and what the functions that it calls do. -/
structure Env where
  /-- The `int` at the start of `buf`. -/
  buf : BitVec 32
  /-- The number of bytes in `buf`, which is a page at most. -/
  count : ℕ
  /-- The memory that `kmalloc` returns for `mess`, or `NULL`. -/
  mess : Option Ptr
  /-- The memory that `kmalloc` returns for `info`, or `NULL`. -/
  info : Option Ptr
  /-- `kmalloc` does not return memory that is in use. -/
  info_ne_mess : ∀ p ∈ mess, p ∉ info
  /-- What this memory holds when `kmalloc` returns it. -/
  garbage : PidInfo
  /-- The messages at the addresses of the user. -/
  message : Ptr → SysfsMessage
  /-- The number of bytes that `copy_from_user` does not copy. -/
  copyFromUser : ℕ
  /-- The processes, in the order of `for_each_process`. -/
  tasks : List TaskStruct
  /-- The number of bytes that `copy_to_user` does not copy. -/
  copyToUser : ℕ

/-! ## The code -/

/-- What `pid_write` does. -/
inductive Event
  | kmalloc (p : Ptr)
  | kfree (p : Ptr)
  /-- `copy_to_user` copies so many bytes of a `pid_info` to an address. -/
  | copyToUser (address : Ptr) (info : PidInfo) (copied : ℕ)
  deriving DecidableEq

/-- Fill in a `pid_info` for a process. -/
def PidInfo.fill (info : PidInfo) (t : TaskStruct) : PidInfo where
  pid := t.pid
  comm := (info.comm.strncpy t.comm 16).set 15 0
  state := t.state

/-- The loop over the processes, with `test_pid` and `*info`. -/
def forEachProcess (pid : ℤ) : List TaskStruct → ℤ × PidInfo → ℤ × PidInfo
  | [], r => r
  | t :: ts, r => if t.pid = pid then (t.pid, r.2.fill t) else forEachProcess pid ts r

/-- The message, when it has been copied: an `int` is converted to the pointer to it. -/
def Env.request (e : Env) : SysfsMessage := e.message (e.buf.signExtend 64)

/-- `kfree(mess); kfree(info)`. -/
def freeBoth (mess info : Ptr) : Traced Event Empty Unit := do
  Traced.emit (.kfree mess)
  Traced.emit (.kfree info)

/-- `pid_write`. -/
def pidWrite (e : Env) : Traced Event Empty ℤ := do
  match e.mess with
  | none => pure (-einval)
  | some mess =>
    Traced.emit (.kmalloc mess)
    match e.info with
    | none => pure (-einval)
    | some info =>
      Traced.emit (.kmalloc info)
      if e.copyFromUser ≠ 0 then
        freeBoth mess info
        pure (-einval)
      else
        let (testPid, pidInfo) := forEachProcess e.request.pid e.tasks (-1, e.garbage)
        if testPid = -1 then
          freeBoth mess info
          pure (-einval)
        else
          Traced.emit (.copyToUser e.request.address pidInfo (sizeofPidInfo - e.copyToUser))
          if e.copyToUser ≠ 0 then
            freeBoth mess info
            pure (-einval)
          else
            freeBoth mess info
            pure e.count

/-! ## All or nothing -/

/-- What is copied to the user: where, from what, and how many bytes. -/
def copies (trace : List Event) : List (Ptr × PidInfo × ℕ) :=
  trace.filterMap fun
    | .copyToUser address info copied => some (address, info, copied)
    | _ => none

/-- A `pid_info` tells about a process: its name is cut to 15 characters. -/
structure PidInfo.Describes (info : PidInfo) (t : TaskStruct) : Prop where
  pid : info.pid = t.pid
  comm : info.comm.string = some ((untilNul t.comm).take 15)
  state : info.state = t.state

/-- The message can be read, and there is a process with the ID in it. -/
def Env.Found (e : Env) : Prop :=
  e.mess ≠ none ∧ e.info ≠ none ∧ e.copyFromUser = 0 ∧ ∃ t ∈ e.tasks, t.pid = e.request.pid

/-- Nothing fails. -/
def Env.Succeeds (e : Env) : Prop := e.Found ∧ e.copyToUser = 0

/-- All that is allocated is freed once. If nothing fails, the user is told about a process with
this ID and `count` is returned. Otherwise `-EINVAL` is returned, and nothing is copied out. -/
structure Env.AllOrNothing (e : Env) : Prop where
  freed : ∀ p, .kmalloc p ∈ (pidWrite e).trace → (pidWrite e).trace.count (.kfree p) = 1
  returns_iff : (pidWrite e).result = .ok (e.count : ℤ) ↔ e.Succeeds
  success : e.Succeeds → ∃ t ∈ e.tasks, t.pid = e.request.pid ∧ ∃ info, info.Describes t ∧
    copies (pidWrite e).trace = [(e.request.address, info, sizeofPidInfo)]
  failure : ¬ e.Succeeds → (pidWrite e).result = .ok (-einval) ∧
    ∀ c ∈ copies (pidWrite e).trace, c.2.2 = 0

/-- The second allocation does not fail behind the first, the ID -1 is not found, and if
`copy_to_user` is called and fails, then it copies nothing. -/
structure Env.Regular (e : Env) : Prop where
  allocated : e.mess ≠ none → e.info ≠ none
  pid : e.Succeeds → e.request.pid ≠ -1
  copied : e.Found → e.request.pid ≠ -1 → e.copyToUser = 0 ∨ sizeofPidInfo ≤ e.copyToUser

/-! ## The search -/

variable {e : Env} {pid : ℤ} {trace : List Event} {r : ℤ}

/-- The `pid_info` tells about the process that is found. -/
theorem describes_fill (info : PidInfo) (t : TaskStruct) : (info.fill t).Describes t where
  pid := rfl
  comm := CBuf.string_strncpy_set (by decide) info.comm t.comm
  state := rfl

/-- The loop stops at the first process with the ID, if there is one. -/
theorem forEachProcess_cases (pid : ℤ) (tasks : List TaskStruct) (r : ℤ × PidInfo) :
    ((∀ t ∈ tasks, t.pid ≠ pid) ∧ forEachProcess pid tasks r = r) ∨
      ∃ t ∈ tasks, t.pid = pid ∧ forEachProcess pid tasks r = (pid, r.2.fill t) := by
  induction tasks with
  | nil => exact .inl ⟨List.forall_mem_nil _, rfl⟩
  | cons t ts ih =>
    unfold forEachProcess
    by_cases ht : t.pid = pid
    · rw [if_pos ht]
      exact .inr ⟨t, List.mem_cons_self, ht, by rw [ht]⟩
    · rw [if_neg ht]
      rcases ih with ⟨hnone, heq⟩ | ⟨t', hmem, hpid, heq⟩
      · exact .inl ⟨List.forall_mem_cons.mpr ⟨ht, hnone⟩, heq⟩
      · exact .inr ⟨t', List.mem_cons_of_mem t hmem, hpid, heq⟩

/-! ## The exits -/

/-- The ways in which `pid_write` ends: what it has done, and what it returns. -/
inductive Env.Exit (e : Env) : List Event → ℤ → Prop
  | noMess (hmess : e.mess = none) : e.Exit [] (-einval)
  | noInfo {mess : Ptr} (hmess : e.mess = some mess) (hinfo : e.info = none) :
      e.Exit [.kmalloc mess] (-einval)
  | notRead {mess info : Ptr} (hmess : e.mess = some mess) (hinfo : e.info = some info)
      (hfrom : e.copyFromUser ≠ 0) :
      e.Exit [.kmalloc mess, .kmalloc info, .kfree mess, .kfree info] (-einval)
  /-- No process has the ID, or the ID is -1. -/
  | notFound {mess info : Ptr} (hmess : e.mess = some mess) (hinfo : e.info = some info)
      (hfrom : e.copyFromUser = 0)
      (hnone : (∀ t ∈ e.tasks, t.pid ≠ e.request.pid) ∨ e.request.pid = -1) :
      e.Exit [.kmalloc mess, .kmalloc info, .kfree mess, .kfree info] (-einval)
  /-- The process is found, and the `pid_info` is copied or not. -/
  | copy {mess info : Ptr} {t : TaskStruct} (hmess : e.mess = some mess)
      (hinfo : e.info = some info) (hfrom : e.copyFromUser = 0) (ht : t ∈ e.tasks)
      (hpid : t.pid = e.request.pid) (hne : e.request.pid ≠ -1) :
      e.Exit [.kmalloc mess, .kmalloc info,
        .copyToUser e.request.address (e.garbage.fill t) (sizeofPidInfo - e.copyToUser),
        .kfree mess, .kfree info] (if e.copyToUser = 0 then e.count else -einval)

/-- `pid_write` ends in one of these ways. -/
theorem pidWrite_exit (e : Env) :
    ∃ r, (pidWrite e).result = .ok r ∧ e.Exit (pidWrite e).trace r := by
  unfold pidWrite
  cases hmess : e.mess with
  | none => exact ⟨_, rfl, .noMess hmess⟩
  | some mess =>
    cases hinfo : e.info with
    | none => exact ⟨_, rfl, .noInfo hmess hinfo⟩
    | some info =>
      simp only [Traced.emit_bind]
      by_cases hfrom : e.copyFromUser = 0
      · rw [if_neg (not_not.mpr hfrom)]
        rcases forEachProcess_cases e.request.pid e.tasks (-1, e.garbage) with
          ⟨hnone, heq⟩ | ⟨t, ht, hpid, heq⟩
        · rw [heq]
          exact ⟨_, rfl, .notFound hmess hinfo hfrom (.inl hnone)⟩
        · rw [heq]
          dsimp only
          by_cases hne : e.request.pid = -1
          · rw [if_pos hne]
            exact ⟨_, rfl, .notFound hmess hinfo hfrom (.inr hne)⟩
          · have hexit := Env.Exit.copy hmess hinfo hfrom ht hpid hne
            rw [if_neg hne]
            by_cases hto : e.copyToUser = 0
            · rw [if_pos hto] at hexit
              rw [if_neg (not_not.mpr hto)]
              exact ⟨_, rfl, hexit⟩
            · rw [if_neg hto] at hexit
              rw [if_pos hto]
              exact ⟨_, rfl, hexit⟩
      · rw [if_pos hfrom]
        exact ⟨_, rfl, .notRead hmess hinfo hfrom⟩

/-- Both buffers are freed, if both have been allocated. -/
theorem Env.Exit.freed (h : e.Exit trace r) (halloc : e.mess ≠ none → e.info ≠ none) (p : Ptr)
    (hp : .kmalloc p ∈ trace) : trace.count (.kfree p) = 1 := by
  have hne : ∀ {mess info : Ptr}, e.mess = some mess → e.info = some info → info ≠ mess := by
    rintro mess info hmess hinfo rfl
    exact e.info_ne_mess info hmess hinfo
  cases h with
  | noMess => exact absurd hp List.not_mem_nil
  | noInfo hmess hinfo => exact absurd hinfo (halloc (by simp [hmess]))
  | notRead hmess hinfo | notFound hmess hinfo | copy hmess hinfo =>
    have hne := hne hmess hinfo
    obtain rfl | rfl := by simpa using hp
    · simp [hne]
    · simp [hne.symm]

/-- If the message cannot be read or no process has the ID, nothing is copied out. -/
theorem Env.Exit.of_not_found (h : e.Exit trace r) (hfound : ¬ e.Found) :
    copies trace = [] ∧ r = -einval := by
  cases h with
  | noMess => exact ⟨rfl, rfl⟩
  | noInfo => exact ⟨rfl, rfl⟩
  | notRead => exact ⟨rfl, rfl⟩
  | notFound => exact ⟨rfl, rfl⟩
  | copy hmess hinfo hfrom ht hpid =>
    exact absurd ⟨by simp [hmess], by simp [hinfo], hfrom, _, ht, hpid⟩ hfound

/-- If a process has the ID, it is copied, unless the ID is -1. -/
theorem Env.Exit.of_found (h : e.Exit trace r) (hfound : e.Found) :
    (e.request.pid = -1 ∧ copies trace = [] ∧ r = -einval) ∨
      e.request.pid ≠ -1 ∧ ∃ t ∈ e.tasks, t.pid = e.request.pid ∧
        copies trace =
          [(e.request.address, e.garbage.fill t, sizeofPidInfo - e.copyToUser)] ∧
        r = if e.copyToUser = 0 then (e.count : ℤ) else -einval := by
  obtain ⟨hmess', hinfo', hfrom', t', ht', hpid'⟩ := hfound
  cases h with
  | noMess hmess => exact absurd hmess hmess'
  | noInfo hmess hinfo => exact absurd hinfo hinfo'
  | notRead hmess hinfo hfrom => exact absurd hfrom' hfrom
  | notFound hmess hinfo hfrom hnone =>
    rcases hnone with hnone | hpid
    · exact absurd hpid' (hnone t' ht')
    · exact .inl ⟨hpid, rfl, rfl⟩
  | copy hmess hinfo hfrom ht hpid hne => exact .inr ⟨hne, _, ht, hpid, rfl, rfl⟩

/-- No count is taken for `-EINVAL`. -/
theorem count_ne (e : Env) : (e.count : ℤ) ≠ -einval := by
  have hcount := Int.natCast_nonneg e.count
  unfold einval
  omega

/-! ## The contract -/

/-- It holds where nothing of this happens. -/
theorem allOrNothing_of_regular (h : e.Regular) : e.AllOrNothing := by
  obtain ⟨r, hresult, hexit⟩ := pidWrite_exit e
  have hreturns : (pidWrite e).result = .ok (e.count : ℤ) ↔ r = e.count := by
    rw [hresult, Except.ok.injEq]
  refine ⟨hexit.freed h.allocated, ?_, ?_, ?_⟩
  · rw [hreturns]
    by_cases hfound : e.Found
    · rcases hexit.of_found hfound with ⟨hpid, -, hr⟩ | ⟨hne, t, -, -, -, hr⟩
      · refine iff_of_false (fun heq => count_ne e (heq.symm.trans hr)) fun hsucc => ?_
        exact h.pid hsucc hpid
      · rw [hr]
        by_cases hto : e.copyToUser = 0
        · rw [if_pos hto]
          exact iff_of_true rfl ⟨hfound, hto⟩
        · rw [if_neg hto]
          exact iff_of_false (count_ne e).symm fun hsucc => hto hsucc.2
    · obtain ⟨-, hr⟩ := hexit.of_not_found hfound
      exact iff_of_false (fun heq => count_ne e (heq.symm.trans hr)) fun hsucc => hfound hsucc.1
  · intro hsucc
    rcases hexit.of_found hsucc.1 with ⟨hpid, -⟩ | ⟨-, t, ht, hpid, hcopies, -⟩
    · exact absurd hpid (h.pid hsucc)
    · rw [hsucc.2] at hcopies
      exact ⟨t, ht, hpid, _, describes_fill e.garbage t, hcopies⟩
  · intro hfail
    by_cases hfound : e.Found
    · have hto : e.copyToUser ≠ 0 := fun hto => hfail ⟨hfound, hto⟩
      rcases hexit.of_found hfound with ⟨-, hcopies, hr⟩ | ⟨hne, t, -, -, hcopies, hr⟩
      · rw [hcopies, hresult, hr]
        exact ⟨rfl, List.forall_mem_nil _⟩
      · rw [hcopies, hresult, hr, if_neg hto]
        refine ⟨rfl, List.forall_mem_singleton.mpr ?_⟩
        exact Nat.sub_eq_zero_of_le ((h.copied hfound hne).resolve_left hto)
    · obtain ⟨hcopies, hr⟩ := hexit.of_not_found hfound
      rw [hcopies, hresult, hr]
      exact ⟨rfl, List.forall_mem_nil _⟩

/-- It fails where something of this happens. -/
theorem regular_of_allOrNothing (h : e.AllOrNothing) : e.Regular := by
  obtain ⟨r, hresult, hexit⟩ := pidWrite_exit e
  refine ⟨fun hmess hinfo => ?_, fun hsucc hpid => ?_, fun hfound hne => ?_⟩
  · obtain ⟨freed, -, -, -⟩ := h
    generalize (pidWrite e).trace = trace at freed hexit
    cases hexit with
    | noMess hmess' => exact hmess hmess'
    | @noInfo mess hmess' =>
      have hfreed := freed mess (List.mem_singleton_self _)
      exact absurd hfreed (by simp)
    | notRead hmess' hinfo' | notFound hmess' hinfo' | copy hmess' hinfo' =>
      rw [hinfo] at hinfo'
      cases hinfo'
  · have hcount := h.returns_iff.mpr hsucc
    rw [hresult] at hcount
    rcases hexit.of_found hsucc.1 with ⟨-, -, hr⟩ | ⟨hne, -⟩
    · exact count_ne e ((Except.ok.inj hcount).symm.trans hr)
    · exact hne hpid
  · rcases hexit.of_found hfound with ⟨hpid, -⟩ | ⟨-, t, -, -, hcopies, -⟩
    · exact absurd hpid hne
    · by_cases hto : e.copyToUser = 0
      · exact .inl hto
      · have hzero := (h.failure fun hsucc => hto hsucc.2).2
        rw [hcopies] at hzero
        exact .inr (Nat.le_of_sub_eq_zero (hzero _ (List.mem_singleton_self _)))

/-- **`pid_write` is all or nothing** iff the second allocation does not fail behind the first, the
ID -1 is not found, and `copy_to_user` does not fail when it has copied a part. -/
theorem allOrNothing_iff (e : Env) : e.AllOrNothing ↔ e.Regular :=
  ⟨regular_of_allOrNothing, allOrNothing_of_regular⟩

/-! ## A leak -/

/-- The memory for the message is allocated, and no more. -/
def noMemory : Env where
  buf := 0
  count := 4
  mess := some 4096
  info := none
  info_ne_mess := fun _ _ h => nomatch h
  garbage := ⟨0, CBuf.zero 16, 0⟩
  message := fun _ => ⟨1, 0⟩
  copyFromUser := 0
  tasks := [⟨1, cbytes "init", 0⟩]
  copyToUser := 0

/-- It is not freed. -/
theorem not_allOrNothing_noMemory : ¬ noMemory.AllOrNothing := by
  intro h
  exact absurd (h.freed 4096 (by decide)) (by decide)

end SystemsLabs.Kernellab
