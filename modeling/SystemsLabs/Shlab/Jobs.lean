import Mathlib.Data.Fin.Tuple.Basic
import Mathlib.Data.Int.Notation
import Mathlib.Logic.Function.Basic
import Mathlib.Tactic.Common

/-!
# The job list (`tsh.c`)

The array `jobs` and the helper routines that change it. A loop that looks for the first slot of
some kind is `Fin.find?`. `addjob_cases` and `deletejob_cases` say what the two routines can do;
nothing else unfolds them.

**Scope.** The texts of the messages are left out, and `getjobpid`, which nothing calls. `nextjid`
and the job IDs are integers: they stay small (`JobIds`).
-/

namespace SystemsLabs.Shlab

/-- `MAXJOBS`. -/
abbrev maxJobs : ℕ := 16

/-- `UNDEF`, `FG`, `BG` and `ST`. -/
inductive JobState
  | undef
  | fg
  | bg
  | st
  deriving DecidableEq

/-- `struct job_t`. -/
structure Job where
  pid : ℤ
  jid : ℤ
  state : JobState
  cmdline : String
  deriving DecidableEq

/-- `clearjob`: the entries of a free slot. -/
def clearjob : Job := ⟨0, 0, .undef, ""⟩

/-- A cleared slot is free. -/
@[simp] theorem clearjob_pid : clearjob.pid = 0 := rfl

/-- A cleared slot has no state. -/
@[simp] theorem clearjob_state : clearjob.state = .undef := rfl

/-- The globals `jobs` and `nextjid`. -/
structure JobList where
  jobs : Fin maxJobs → Job
  nextjid : ℤ

/-- `initjobs`, with the initial value of `nextjid`. -/
def initjobs : JobList := ⟨fun _ => clearjob, 1⟩

/-- `maxjid`: the largest job ID in use. -/
def maxjid (jobs : Fin maxJobs → Job) : ℤ :=
  (List.finRange maxJobs).foldl (fun max i => if (jobs i).jid > max then (jobs i).jid else max) 0

/-- `addjob`. The flag is its return value. -/
def addjob (l : JobList) (pid : ℤ) (state : JobState) (cmdline : String) : JobList × Bool :=
  if pid < 1 then (l, false)
  else
    match Fin.find? fun i => (l.jobs i).pid = 0 with
    | some i =>
      (⟨Function.update l.jobs i ⟨pid, l.nextjid, state, cmdline⟩,
        if l.nextjid + 1 > maxJobs then 1 else l.nextjid + 1⟩, true)
    | none => (l, false)

/-- `deletejob`. The flag is its return value. -/
def deletejob (l : JobList) (pid : ℤ) : JobList × Bool :=
  if pid < 1 then (l, false)
  else
    match Fin.find? fun i => (l.jobs i).pid = pid with
    | some i =>
      let jobs := Function.update l.jobs i clearjob
      (⟨jobs, maxjid jobs + 1⟩, true)
    | none => (l, false)

/-- `getjobjid`: the index of the slot, if there is one. -/
def getjobjid (l : JobList) (jid : ℤ) : Option (Fin maxJobs) :=
  if jid < 1 then none else Fin.find? fun i => (l.jobs i).jid = jid

/-- `pid2jid`. -/
def pid2jid (l : JobList) (pid : ℤ) : ℤ :=
  if pid < 1 then 0
  else
    match Fin.find? fun i => (l.jobs i).pid = pid with
    | some i => (l.jobs i).jid
    | none => 0

variable {l : JobList} {pid : ℤ} {state : JobState} {cmdline : String} {i : Fin maxJobs}

/-- `addjob` leaves the list alone, or fills the first free slot. -/
theorem addjob_cases (l : JobList) (pid : ℤ) (state : JobState) (cmdline : String) :
    (addjob l pid state cmdline = (l, false) ∧ (pid < 1 ∨ ∀ i, (l.jobs i).pid ≠ 0)) ∨
    ∃ i, (l.jobs i).pid = 0 ∧ 1 ≤ pid ∧ (addjob l pid state cmdline).2 = true ∧
      (addjob l pid state cmdline).1.jobs =
        Function.update l.jobs i ⟨pid, l.nextjid, state, cmdline⟩ ∧
      (addjob l pid state cmdline).1.nextjid =
        if l.nextjid + 1 > maxJobs then 1 else l.nextjid + 1 := by
  unfold addjob
  by_cases hpid : pid < 1
  · rw [if_pos hpid]
    exact Or.inl ⟨rfl, Or.inl hpid⟩
  · rw [if_neg hpid]
    split
    · next i hi =>
      obtain ⟨hfree, -⟩ := Fin.find?_eq_some_iff.mp hi
      exact Or.inr ⟨i, of_decide_eq_true hfree, by omega, rfl, rfl, rfl⟩
    · next hnone =>
      refine Or.inl ⟨rfl, Or.inr fun i => ?_⟩
      exact of_decide_eq_false (Fin.find?_eq_none_iff.mp hnone i)

/-- `addjob` writes to free slots only. -/
theorem addjob_jobs (l : JobList) (pid : ℤ) (state : JobState) (cmdline : String)
    (i : Fin maxJobs) :
    (addjob l pid state cmdline).1.jobs i = l.jobs i ∨ (l.jobs i).pid = 0 := by
  rcases addjob_cases l pid state cmdline with ⟨heq, -⟩ | ⟨k, hk, -, -, hjobs, -⟩
  · exact .inl (by rw [heq])
  · by_cases hik : i = k
    · exact .inr (hik ▸ hk)
    · exact .inl (by rw [hjobs, Function.update_of_ne hik])

/-- `deletejob` clears the first slot with the process ID, if there is one. -/
theorem deletejob_cases (l : JobList) (hpid : 1 ≤ pid) :
    (deletejob l pid = (l, false) ∧ ∀ i, (l.jobs i).pid ≠ pid) ∨
    ∃ i, (l.jobs i).pid = pid ∧ (deletejob l pid).2 = true ∧
      (deletejob l pid).1.jobs = Function.update l.jobs i clearjob ∧
      (deletejob l pid).1.nextjid = maxjid (Function.update l.jobs i clearjob) + 1 := by
  unfold deletejob
  rw [if_neg (by omega)]
  split
  · next i hi =>
    obtain ⟨heq, -⟩ := Fin.find?_eq_some_iff.mp hi
    exact Or.inr ⟨i, of_decide_eq_true heq, rfl, rfl, rfl⟩
  · next hnone =>
    exact Or.inl ⟨rfl, fun i => of_decide_eq_false (Fin.find?_eq_none_iff.mp hnone i)⟩

/-- The slots in use hold different processes. -/
def JobList.Distinct (l : JobList) : Prop :=
  ∀ i j, (l.jobs i).pid ≠ 0 → (l.jobs i).pid = (l.jobs j).pid → i = j

/-- A process that has no slot yet can be added. -/
theorem JobList.Distinct.addjob (h : l.Distinct) (hnew : ∀ i, (l.jobs i).pid ≠ pid) :
    (addjob l pid state cmdline).1.Distinct := by
  rcases addjob_cases l pid state cmdline with ⟨heq, -⟩ | ⟨i, -, -, -, hjobs, -⟩
  · rw [heq]
    exact h
  · intro j k hj hjk
    rw [hjobs] at hj hjk
    by_cases hji : j = i
    · subst hji
      by_cases hki : k = j
      · exact hki.symm
      · rw [Function.update_self, Function.update_of_ne hki] at hjk
        exact absurd hjk.symm (hnew k)
    · rw [Function.update_of_ne hji] at hj hjk
      by_cases hki : k = i
      · subst hki
        rw [Function.update_self] at hjk
        exact absurd hjk (hnew j)
      · rw [Function.update_of_ne hki] at hjk
        exact h j k hj hjk

/-- With distinct processes, `deletejob` clears the slot of the process and leaves the others as
they are. -/
theorem JobList.Distinct.deletejob (h : l.Distinct) (hpid : 1 ≤ pid) (i : Fin maxJobs) :
    ((deletejob l pid).1.jobs i = l.jobs i ∧ (l.jobs i).pid ≠ pid) ∨
      ((deletejob l pid).1.jobs i = clearjob ∧ (l.jobs i).pid = pid) := by
  rcases deletejob_cases l hpid with ⟨heq, hne⟩ | ⟨j, hj, -, hjobs, -⟩
  · rw [heq]
    exact Or.inl ⟨rfl, hne i⟩
  · rw [hjobs]
    by_cases hij : i = j
    · subst hij
      exact Or.inr ⟨Function.update_self .., hj⟩
    · refine Or.inl ⟨Function.update_of_ne hij .., fun hi => hij ?_⟩
      exact h i j (by omega) (hi.trans hj.symm)

end SystemsLabs.Shlab
