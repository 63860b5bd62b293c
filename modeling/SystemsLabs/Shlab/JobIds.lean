import SystemsLabs.Lib.Runs
import SystemsLabs.Shlab.Jobs
import Mathlib.Tactic.NormNum

/-!
# Job IDs over histories of calls

`addjob` takes its job ID from `nextjid`, which wraps to 1 after `MAXJOBS`; `deletejob` sets it to
the largest ID in use plus one. The IDs in use stay distinct as long as no `addjob` stores a job
while `nextjid` is in use (`FreshJid`), and then `getjobjid` and `pid2jid` agree on the slot. While
all IDs are below `nextjid`, which every removal restores, a call cannot fail this
(`JobList.Below.freshJid`): it takes a wrap in a table that is not full.

**Scope.** The histories are those of `addjob` with a positive process ID that is not in the table
and of `deletejob` with any, in any order.
-/

namespace SystemsLabs.Shlab

open Lib

variable {l l' : JobList} {pid : ℤ} {state : JobState} {cmdline : String} {i : Fin maxJobs}

/-! ## Calls -/

/-- A call on the job list. -/
inductive JobCall
  | addjob (pid : ℤ) (state : JobState) (cmdline : String)
  | deletejob (pid : ℤ)

/-- What a call makes of the list. The pids that are added are positive and distinct from those in
the list. -/
def JobList.next (l : JobList) : JobCall → Option JobList
  | .addjob pid state cmdline =>
    if 1 ≤ pid ∧ ∀ i, (l.jobs i).pid ≠ pid then some (addjob l pid state cmdline).1 else none
  | .deletejob pid => some (deletejob l pid).1

/-- A call. -/
def JobList.Call (l : JobList) (c : JobCall) (l' : JobList) : Prop := l.next c = some l'

/-- The call does not store a job under an ID in use. -/
def JobList.FreshJid (l : JobList) : JobCall → Prop
  | .addjob .. =>
    (∃ i, (l.jobs i).pid = 0) → ∀ i, (l.jobs i).pid ≠ 0 → (l.jobs i).jid ≠ l.nextjid
  | .deletejob _ => True

instance (l : JobList) : DecidablePred l.FreshJid
  | .addjob .. => inferInstanceAs (Decidable ((∃ i, (l.jobs i).pid = 0) → ∀ _, _))
  | .deletejob _ => isTrue trivial

/-- The slots in use have distinct job IDs. -/
def JobList.JidsDistinct (l : JobList) : Prop :=
  ∀ i j, (l.jobs i).pid ≠ 0 → (l.jobs j).pid ≠ 0 → (l.jobs i).jid = (l.jobs j).jid → i = j

/-- The job IDs of the slots in use identify the slots. -/
structure JobList.JidsIdentify (l : JobList) : Prop where
  distinct : l.JidsDistinct
  lookup : ∀ i, (l.jobs i).pid ≠ 0 → getjobjid l (pid2jid l (l.jobs i).pid) = some i

/-! ## `maxjid` -/

/-- The maximum is not less than any of the job IDs. -/
theorem le_foldl_maxjid (jobs : Fin maxJobs → Job) (is : List (Fin maxJobs)) (max : ℤ) :
    max ≤ is.foldl (fun max i => if (jobs i).jid > max then (jobs i).jid else max) max ∧
      ∀ i ∈ is, (jobs i).jid ≤
        is.foldl (fun max i => if (jobs i).jid > max then (jobs i).jid else max) max := by
  induction is generalizing max with
  | nil => exact ⟨le_rfl, fun i hi => absurd hi List.not_mem_nil⟩
  | cons j is ih =>
    obtain ⟨hle, hmem⟩ := ih (if (jobs j).jid > max then (jobs j).jid else max)
    rw [List.foldl_cons]
    refine ⟨?_, ?_⟩
    · split_ifs at hle ⊢ <;> omega
    · intro i hi
      rcases List.mem_cons.mp hi with rfl | hi
      · split_ifs at hle ⊢ <;> omega
      · exact hmem i hi

/-- The maximum is not greater than a bound for all of them. -/
theorem foldl_maxjid_le {jobs : Fin maxJobs → Job} {n : ℤ} (h : ∀ i, (jobs i).jid ≤ n)
    (is : List (Fin maxJobs)) {max : ℤ} (hmax : max ≤ n) :
    is.foldl (fun max i => if (jobs i).jid > max then (jobs i).jid else max) max ≤ n := by
  induction is generalizing max with
  | nil => exact hmax
  | cons j is ih =>
    have hj := h j
    rw [List.foldl_cons]
    exact ih (by split_ifs <;> omega)

/-- The largest job ID of an empty table is 0. -/
theorem maxjid_nonneg (jobs : Fin maxJobs → Job) : 0 ≤ maxjid jobs :=
  (le_foldl_maxjid jobs _ 0).1

/-- No job ID is greater. -/
theorem jid_le_maxjid (jobs : Fin maxJobs → Job) (i : Fin maxJobs) : (jobs i).jid ≤ maxjid jobs :=
  (le_foldl_maxjid jobs _ 0).2 i (List.mem_finRange i)

/-! ## The invariant -/

/-- A search finds the only index with the property. -/
theorem find?_eq_some_of_unique {p : Fin maxJobs → Bool} (hi : p i = true)
    (hunique : ∀ j, p j = true → j = i) : Fin.find? p = some i := by
  rw [Fin.find?_eq_some_iff]
  refine ⟨hi, fun j hj => Bool.eq_false_iff.mpr fun hpj => ?_⟩
  exact absurd (hunique j hpj) (ne_of_lt hj)

namespace JobList

/-- Slots in use have a process and a job ID, free slots have neither. -/
structure WellFormed (l : JobList) : Prop where
  distinct : l.Distinct
  free : ∀ i, (l.jobs i).pid = 0 → (l.jobs i).jid = 0
  used : ∀ i, (l.jobs i).pid ≠ 0 → 1 ≤ (l.jobs i).pid ∧ 1 ≤ (l.jobs i).jid
  nextjid_pos : 1 ≤ l.nextjid

/-- The empty table. -/
theorem wellFormed_initjobs : initjobs.WellFormed where
  distinct _ _ h := absurd rfl h
  free _ _ := rfl
  used _ h := absurd rfl h
  nextjid_pos := le_rfl

namespace WellFormed

/-- A job ID determines its slot if the IDs are distinct. -/
theorem jidsIdentify (h : l.WellFormed) (hdistinct : l.JidsDistinct) : l.JidsIdentify where
  distinct := hdistinct
  lookup i hi := by
    obtain ⟨hpid, hjid⟩ := h.used i hi
    have hfind : (Fin.find? fun j => decide ((l.jobs j).pid = (l.jobs i).pid)) = some i :=
      find?_eq_some_of_unique (decide_eq_true rfl) fun j hj =>
        (h.distinct i j hi (of_decide_eq_true hj).symm).symm
    rw [pid2jid, if_neg (by omega), hfind]
    dsimp only
    rw [getjobjid, if_neg (by omega)]
    refine find?_eq_some_of_unique (decide_eq_true rfl) fun j hj => ?_
    have hjid' : (l.jobs j).jid = (l.jobs i).jid := of_decide_eq_true hj
    have hj' : (l.jobs j).pid ≠ 0 := by
      intro hfree
      have := h.free j hfree
      omega
    exact hdistinct j i hj' hi hjid'

/-- A list whose slot `i` is filled stays well formed. -/
theorem store (h : l.WellFormed) (hnew : ∀ i, (l.jobs i).pid ≠ pid)
    (hjobs : (Shlab.addjob l pid state cmdline).1.jobs =
      Function.update l.jobs i ⟨pid, l.nextjid, state, cmdline⟩) (hpid : 1 ≤ pid)
    (hnext : 1 ≤ (Shlab.addjob l pid state cmdline).1.nextjid) :
    (Shlab.addjob l pid state cmdline).1.WellFormed where
  distinct := h.distinct.addjob hnew
  free := by
    rw [hjobs]
    refine (Function.forall_update_iff l.jobs fun _ job => job.pid = 0 → job.jid = 0).mpr
      ⟨fun hfree => ?_, fun j _ => h.free j⟩
    dsimp only at hfree
    omega
  used := by
    rw [hjobs]
    exact (Function.forall_update_iff l.jobs
      fun _ job => job.pid ≠ 0 → 1 ≤ job.pid ∧ 1 ≤ job.jid).mpr
      ⟨fun _ => ⟨hpid, h.nextjid_pos⟩, fun j _ => h.used j⟩
  nextjid_pos := hnext

/-- A new job is added. -/
theorem addjob (h : l.WellFormed) (hnew : ∀ i, (l.jobs i).pid ≠ pid) :
    (Shlab.addjob l pid state cmdline).1.WellFormed := by
  rcases addjob_cases l pid state cmdline with ⟨heq, -⟩ | ⟨i, -, hpid, -, hjobs, hnext⟩
  · rw [heq]
    exact h
  · have hpos := h.nextjid_pos
    refine h.store hnew hjobs hpid ?_
    rw [hnext]
    split_ifs <;> omega

/-- A job is deleted. -/
theorem deletejob (h : l.WellFormed) (pid : ℤ) : (Shlab.deletejob l pid).1.WellFormed := by
  by_cases hpid : 1 ≤ pid
  · have hslot := h.distinct.deletejob hpid
    refine ⟨fun i j hi hij => ?_, fun i hi => ?_, fun i hi => ?_, ?_⟩
    · rcases hslot i with ⟨hieq, -⟩ | ⟨hieq, -⟩
      · rcases hslot j with ⟨hjeq, -⟩ | ⟨hjeq, -⟩
        · rw [hieq, hjeq] at hij
          exact h.distinct i j (hieq ▸ hi) hij
        · rw [hjeq] at hij
          exact absurd hij hi
      · exact absurd (congrArg Job.pid hieq) hi
    · rcases hslot i with ⟨hieq, -⟩ | ⟨hieq, -⟩
      · rw [hieq] at hi ⊢
        exact h.free i hi
      · rw [hieq]
        rfl
    · rcases hslot i with ⟨hieq, -⟩ | ⟨hieq, -⟩
      · rw [hieq] at hi ⊢
        exact h.used i hi
      · exact absurd (congrArg Job.pid hieq) hi
    · rcases deletejob_cases l hpid with ⟨heq, -⟩ | ⟨i, -, -, -, hnext⟩
      · rw [heq]
        exact h.nextjid_pos
      · have := maxjid_nonneg (Function.update l.jobs i clearjob)
        omega
  · rw [Shlab.deletejob, if_pos (by omega)]
    exact h

/-- Either call. -/
theorem call {c : JobCall} (h : l.WellFormed) (hc : l.Call c l') : l'.WellFormed := by
  cases c with
  | addjob pid state cmdline =>
    simp only [Call, next] at hc
    split_ifs at hc with hnew
    obtain rfl := Option.some.inj hc
    exact h.addjob hnew.2
  | deletejob pid =>
    obtain rfl := Option.some.inj hc
    exact h.deletejob pid

end WellFormed

/-! ## Distinct job IDs -/

/-- A new job keeps the IDs distinct if and only if its ID is not in use. -/
theorem JidsDistinct.store_iff {job : Job} (h : l.JidsDistinct) (hi : (l.jobs i).pid = 0)
    (hjob : job.pid ≠ 0) (hjobs : l'.jobs = Function.update l.jobs i job) :
    l'.JidsDistinct ↔ ∀ j, (l.jobs j).pid ≠ 0 → (l.jobs j).jid ≠ job.jid := by
  have hself : l'.jobs i = job := by rw [hjobs, Function.update_self]
  have hother : ∀ j, j ≠ i → l'.jobs j = l.jobs j := by
    intro j hji
    rw [hjobs, Function.update_of_ne hji]
  constructor
  · intro h' j hj hjid
    have hji : j ≠ i := fun heq => hj (heq ▸ hi)
    exact hji (h' j i (by rwa [hother j hji]) (by rwa [hself]) (by rw [hother j hji, hself, hjid]))
  · intro hnew j k hj hk hjk
    by_cases hji : j = i
    · by_cases hki : k = i
      · exact hji.trans hki.symm
      · rw [hji, hself, hother k hki] at hjk
        exact absurd hjk.symm (hnew k (hother k hki ▸ hk))
    · rw [hother j hji] at hj hjk
      by_cases hki : k = i
      · rw [hki, hself] at hjk
        exact absurd hjk (hnew j hj)
      · rw [hother k hki] at hk hjk
        exact h j k hj hk hjk

/-- A removal keeps the IDs distinct. -/
theorem JidsDistinct.deletejob (h : l.JidsDistinct) (hdistinct : l.Distinct) (pid : ℤ) :
    (Shlab.deletejob l pid).1.JidsDistinct := by
  by_cases hpid : 1 ≤ pid
  · have hslot := hdistinct.deletejob hpid
    intro j k hj hk hjk
    rcases hslot j with ⟨hjeq, -⟩ | ⟨hjeq, -⟩
    · rcases hslot k with ⟨hkeq, -⟩ | ⟨hkeq, -⟩
      · rw [hjeq] at hj hjk
        rw [hkeq] at hk hjk
        exact h j k hj hk hjk
      · exact absurd (congrArg Job.pid hkeq) hk
    · exact absurd (congrArg Job.pid hjeq) hj
  · rw [Shlab.deletejob, if_pos (by omega)]
    exact h

/-- **One call** keeps the job IDs distinct if and only if it does not store a job under an ID in
use. -/
theorem jidsIdentify_call_iff {c : JobCall} (hwf : l.WellFormed) (h : l.JidsIdentify)
    (hc : l.Call c l') : l'.JidsIdentify ↔ l.FreshJid c := by
  have hwf' := hwf.call hc
  cases c with
  | addjob pid state cmdline =>
    simp only [Call, next] at hc
    split_ifs at hc with hnew
    obtain rfl := Option.some.inj hc
    rcases addjob_cases l pid state cmdline with ⟨heq, hfull⟩ | ⟨i, hi, hpid, -, hjobs, -⟩
    · rw [heq]
      refine iff_of_true h fun ⟨i, hi⟩ => ?_
      exact absurd hi (hfull.resolve_left (by omega) i)
    · have hiff := h.distinct.store_iff hi (by dsimp only; omega) hjobs
      exact ⟨fun h' _ => hiff.mp h'.distinct,
        fun hfresh => hwf'.jidsIdentify (hiff.mpr (hfresh ⟨i, hi⟩))⟩
  | deletejob pid =>
    obtain rfl := Option.some.inj hc
    exact iff_of_true (hwf'.jidsIdentify (h.distinct.deletejob hwf.distinct pid)) trivial

/-! ## When `nextjid` is in use -/

/-- All IDs in use are below `nextjid`. -/
def Below (l : JobList) : Prop := ∀ i, (l.jobs i).jid < l.nextjid

/-- Then the next ID is not in use. -/
theorem Below.freshJid (h : l.Below) (c : JobCall) : l.FreshJid c := by
  cases c with
  | addjob pid state cmdline => exact fun _ i _ => (h i).ne
  | deletejob pid => trivial

/-- A removal recomputes `nextjid`. -/
theorem below_deletejob (hpid : 1 ≤ pid) (hi : (l.jobs i).pid = pid) :
    (Shlab.deletejob l pid).1.Below := by
  rcases deletejob_cases l hpid with ⟨-, hne⟩ | ⟨i, -, -, hjobs, hnext⟩
  · exact absurd hi (hne i)
  · intro j
    have := jid_le_maxjid (Shlab.deletejob l pid).1.jobs j
    rw [hjobs] at this
    rw [hjobs, hnext]
    omega

/-- After a deletion `nextjid` is greater than every job ID. -/
theorem Below.deletejob (h : l.Below) (pid : ℤ) : (Shlab.deletejob l pid).1.Below := by
  by_cases hpid : 1 ≤ pid
  · by_cases hmem : ∃ i, (l.jobs i).pid = pid
    · obtain ⟨i, hi⟩ := hmem
      exact below_deletejob hpid hi
    · rcases deletejob_cases l hpid with ⟨heq, -⟩ | ⟨i, hi, -⟩
      · rw [heq]
        exact h
      · exact absurd ⟨i, hi⟩ hmem
  · rw [Shlab.deletejob, if_pos (by omega)]
    exact h

/-- A stored job keeps the IDs below `nextjid`, unless its own ID makes `nextjid` wrap. -/
theorem Below.addjob (h : l.Below) (hlt : l.nextjid < maxJobs) :
    (Shlab.addjob l pid state cmdline).1.Below := by
  rcases addjob_cases l pid state cmdline with ⟨heq, -⟩ | ⟨i, -, -, -, hjobs, hnext⟩
  · rw [heq]
    exact h
  · unfold Below
    rw [hjobs, hnext, if_neg (by omega)]
    exact (Function.forall_update_iff l.jobs fun _ job => job.jid < l.nextjid + 1).mpr
      ⟨Int.lt_succ l.nextjid, fun j _ => (h j).trans (Int.lt_succ l.nextjid)⟩

/-- Without a wrap, all IDs stay below `nextjid`. -/
theorem below_of_guarded {calls : List JobCall}
    (h : Runs (Guarded (fun l _ => l.nextjid < (maxJobs : ℤ)) Call) initjobs calls l) :
    l.Below := by
  refine h.invariant (I := Below) ?_ fun i => Int.zero_lt_one
  rintro l c l' hbelow ⟨hlt, hc⟩
  cases c with
  | addjob pid state cmdline =>
    simp only [Call, next] at hc
    split_ifs at hc
    exact Option.some.inj hc ▸ hbelow.addjob hlt
  | deletejob pid => exact Option.some.inj hc ▸ hbelow.deletejob pid

/-- No job ID is larger than `n`, and `nextjid` is at most `n + 1`. -/
structure Within (l : JobList) (n : ℕ) : Prop where
  jid_le : ∀ i, (l.jobs i).jid ≤ n
  nextjid_le : l.nextjid ≤ n + 1

/-- A call adds at most one to `nextjid`. -/
theorem Within.call {c : JobCall} {n : ℕ} (h : l.Within n) (hc : l.Call c l') :
    l'.Within (n + 1) := by
  obtain ⟨hjid, hnext⟩ := h
  have hmono : l.Within (n + 1) :=
    ⟨fun i => (hjid i).trans (by omega), hnext.trans (by omega)⟩
  cases c with
  | addjob pid state cmdline =>
    simp only [Call, next] at hc
    split_ifs at hc
    obtain rfl := Option.some.inj hc
    rcases addjob_cases l pid state cmdline with ⟨heq, -⟩ | ⟨i, -, -, -, hjobs, hnext'⟩
    · rw [heq]
      exact hmono
    · refine ⟨?_, ?_⟩
      · rw [hjobs]
        exact (Function.forall_update_iff l.jobs fun _ job => job.jid ≤ (n + 1 : ℕ)).mpr
          ⟨by exact_mod_cast hnext, fun j _ => hmono.jid_le j⟩
      · rw [hnext']
        split_ifs <;> omega
  | deletejob pid =>
    obtain rfl := Option.some.inj hc
    by_cases hpid : 1 ≤ pid
    · rcases deletejob_cases l hpid with ⟨heq, -⟩ | ⟨i, -, -, hjobs, hnext'⟩
      · rw [heq]
        exact hmono
      · have hcleared : ∀ j, (Function.update l.jobs i clearjob j).jid ≤ n :=
          (Function.forall_update_iff l.jobs fun _ job => job.jid ≤ n).mpr
            ⟨Int.natCast_nonneg n, fun j _ => hjid j⟩
        have hmax : maxjid (Function.update l.jobs i clearjob) ≤ n :=
          foldl_maxjid_le hcleared _ (Int.natCast_nonneg n)
        refine ⟨fun j => ?_, ?_⟩
        · rw [hjobs]
          exact (hcleared j).trans (by omega)
        · rw [hnext']
          omega
    · rw [Shlab.deletejob, if_pos (by omega)]
      exact hmono

/-- Fewer than `2 ^ 31 - 1` calls do not overflow the C `int`s. -/
theorem within_of_runs {calls : List JobCall} (h : Runs Call initjobs calls l) :
    l.Within calls.length := by
  refine h.invariant_labels (I := fun calls l => l.Within calls.length) ?_ ?_
  · intro calls l c l' hwithin hc
    rw [List.length_append, List.length_singleton]
    exact hwithin.call hc
  · exact ⟨fun i => le_rfl, le_rfl⟩

/-! ## Runs -/

/-- The invariant of runs without a collision. -/
theorem wellFormed_of_guarded {calls : List JobCall}
    (h : Runs (Guarded FreshJid Call) initjobs calls l) : l.WellFormed ∧ l.JidsIdentify := by
  refine h.invariant (I := fun l => l.WellFormed ∧ l.JidsIdentify) ?_ ?_
  · rintro l c l' ⟨hwf, hid⟩ ⟨hfresh, hc⟩
    exact ⟨hwf.call hc, (jidsIdentify_call_iff hwf hid hc).mpr hfresh⟩
  · exact ⟨wellFormed_initjobs, wellFormed_initjobs.jidsIdentify fun _ _ h => absurd rfl h⟩

/-- **Job IDs identify jobs** in every history of calls none of which stores a job under an ID in
use, and a further call keeps it so if and only if it does not do that either. -/
theorem jidsIdentify_of_guarded {calls : List JobCall}
    (h : Runs (Guarded FreshJid Call) initjobs calls l) :
    l.JidsIdentify ∧ ∀ c l', l.Call c l' → (l'.JidsIdentify ↔ l.FreshJid c) := by
  obtain ⟨hwf, hid⟩ := wellFormed_of_guarded h
  exact ⟨hid, fun c l' hc => jidsIdentify_call_iff hwf hid hc⟩

/-- Three jobs, of which the second is removed before the third comes. -/
theorem jidsIdentify_of_guarded_example :
    ∃ l, Runs Call initjobs [.addjob 101 .bg "a", .addjob 102 .bg "b", .deletejob 101,
        .addjob 103 .fg "c"] l ∧ pid2jid l 103 = 3 ∧ l.JidsIdentify := by
  obtain ⟨l, hrun, hjid⟩ := exists_runs_of_runIf Call (fun l => pid2jid l 103) 3
    (fun _ _ _ h => h) (show (runIf FreshJid next initjobs [.addjob 101 .bg "a",
      .addjob 102 .bg "b", .deletejob 101, .addjob 103 .fg "c"]).map (fun l => pid2jid l 103) =
      some 3 by decide +kernel)
  exact ⟨l, hrun.of_guarded, hjid, (jidsIdentify_of_guarded hrun).1⟩

/-- Fifteen jobs with the IDs 1 to 15. -/
def fifteen : List JobCall := (List.range 15).map fun k => .addjob (101 + k) .bg ""

/-- After fifteen jobs the third is removed. The next job gets the ID 16, which makes `nextjid` wrap
with a slot free, and the one after it gets the ID 1 of the first job. -/
theorem exists_not_jidsIdentify :
    ∃ l, Runs Call initjobs
      (fifteen ++ [.deletejob 103, .addjob 116 .bg "", .addjob 117 .bg ""]) l ∧
      (l.jobs 0).pid = 101 ∧ (l.jobs 0).jid = 1 ∧ (l.jobs 15).pid = 117 ∧ (l.jobs 15).jid = 1 ∧
      ¬ l.JidsIdentify := by
  obtain ⟨l, hrun, hobs⟩ := exists_runs_of_runIf Call
    (fun l => ((l.jobs 0).pid, (l.jobs 0).jid, (l.jobs 15).pid, (l.jobs 15).jid))
    (101, 1, 117, 1) (fun _ _ _ h => h) (show (runIf (fun _ _ => True) next initjobs
      (fifteen ++ [.deletejob 103, .addjob 116 .bg "", .addjob 117 .bg ""])).map
      (fun l => ((l.jobs 0).pid, (l.jobs 0).jid, (l.jobs 15).pid, (l.jobs 15).jid)) =
      some (101, 1, 117, 1) by decide +kernel)
  simp only [Prod.mk.injEq] at hobs
  obtain ⟨hpid, hjid, hpid', hjid'⟩ := hobs
  refine ⟨l, hrun.of_guarded, hpid, hjid, hpid', hjid', fun h => ?_⟩
  have := h.distinct 0 15 (by omega) (by omega) (hjid.trans hjid'.symm)
  exact absurd this (by decide)

end JobList

end SystemsLabs.Shlab
