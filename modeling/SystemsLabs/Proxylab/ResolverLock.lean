import SystemsLabs.Proxylab.Resolver

/-!
# Is the resolver lock always released?

`open_clientfd_ts` returns from inside its critical section when `gethostbyname` fails, and keeps
`ts_lock`. At the end of a run the lock is safe if and only if no lookup of the run has failed
(`lockSafe_iff`): after a failed lookup, the lock stays with a thread that has returned.

**Assumptions.** Those of `Proxylab.Resolver`. The calls on the lock itself succeed.
-/

namespace SystemsLabs.Proxylab

open Lib

/-! ## Who holds the lock -/

/-- Between the lock call and the return. -/
def Pc.Between : Pc → Prop
  | .gethostbyname _ | .copy _ | .unlock .. | .bcopy .. | .connect .. => True
  | .socket | .lock _ | .returned _ | .undefined => False

/-- Inside the critical section. -/
def Pc.Critical : Pc → Prop
  | .gethostbyname _ | .copy _ | .unlock .. => True
  | .socket | .lock _ | .bcopy .. | .connect .. | .returned _ | .undefined => False

/-- The lock is held only between a lock call and the return, and no thread that has returned holds
it. -/
structure LockSafe {ι : Type*} (c : Threads ι (Resolver ι) Pc) : Prop where
  between : ∀ i, c.shared.tsLock = some i → (c.locals i).Between
  returned : ∀ i rc, c.locals i = .returned rc → c.shared.tsLock ≠ some i

variable {ι : Type*} (hostname : ι → String)

/-- `open_clientfd_ts`, where every call of `gethostbyname` may have another outcome: a step comes
with the answer that a lookup at this moment gets. -/
def openClientfdTsAnswer (i : ι) (sh : Resolver ι) (pc : Pc) (a : Action × Option HostEntry) :
    Option (Resolver ι × Pc) :=
  openClientfdTs (fun _ => a.2) hostname i sh pc a.1

/-- The step is not a lookup that fails. -/
def Answered (e : ι × Action × Option HostEntry) : Prop := e.2.1 = .gethostbyname → e.2.2 ≠ none

variable {hostname} {sh sh' : Resolver ι} {pc pc' : Pc} {a : Action × Option HostEntry} {i : ι}

/-- A thread in the critical section has taken the lock and not released it. -/
theorem Pc.Critical.between (h : pc.Critical) : pc.Between := by
  cases pc with
  | gethostbyname _ => trivial
  | copy _ => trivial
  | unlock _ _ => trivial
  | socket => contradiction
  | lock _ => contradiction
  | bcopy _ _ _ => contradiction
  | connect _ _ => contradiction
  | returned _ => contradiction
  | undefined => contradiction

/-- What a step does with the lock. -/
inductive LockStep (i : ι) (sh : Resolver ι) (pc : Pc) (sh' : Resolver ι) (pc' : Pc) : Prop
  | keep (hlock : sh'.tsLock = sh.tsLock) (hcritical : pc'.Critical ↔ pc.Critical)
  | acquire (hfree : sh.tsLock = none) (hlock : sh'.tsLock = some i) (hcritical : pc'.Critical)
  | release (hcritical : pc.Critical) (hlock : sh'.tsLock = none) (hout : ¬ pc'.Critical)

/-- A thread takes a step: a lookup of it fails, or it keeps, acquires or releases the lock. -/
theorem openClientfdTsAnswer_cases
    (h : openClientfdTsAnswer hostname i sh pc a = some (sh', pc')) :
    (¬ Answered (i, a) ∧ pc.Critical ∧ sh' = sh ∧ pc' = .returned (-2)) ∨
      (Answered (i, a) ∧ LockStep i sh pc sh' pc') := by
  obtain ⟨act, answer⟩ := a
  unfold openClientfdTsAnswer openClientfdTs at h
  dsimp only at h
  split at h
  · obtain ⟨rfl, rfl⟩ := Prod.mk.inj (Option.some.inj h)
    refine .inr ⟨by simp [Answered], .keep rfl ?_⟩
    split_ifs <;> simp [Pc.Critical]
  · split_ifs at h with hfree
    obtain ⟨rfl, rfl⟩ := Prod.mk.inj (Option.some.inj h)
    exact .inr ⟨by simp [Answered], .acquire (Option.isNone_iff_eq_none.mp hfree) rfl trivial⟩
  · obtain ⟨rfl, rfl⟩ := Prod.mk.inj (Option.some.inj h)
    exact .inr ⟨by simp [Answered], .keep rfl Iff.rfl⟩
  · split at h
    · obtain ⟨rfl, rfl⟩ := Prod.mk.inj (Option.some.inj h)
      exact .inl ⟨fun hans => hans rfl rfl, trivial, rfl, rfl⟩
    · obtain ⟨rfl, rfl⟩ := Prod.mk.inj (Option.some.inj h)
      exact .inr ⟨by simp [Answered], .keep rfl Iff.rfl⟩
  · obtain ⟨rfl, rfl⟩ := Prod.mk.inj (Option.some.inj h)
    exact .inr ⟨by simp [Answered], .keep rfl Iff.rfl⟩
  · obtain ⟨rfl, rfl⟩ := Prod.mk.inj (Option.some.inj h)
    exact .inr ⟨by simp [Answered], .release trivial rfl id⟩
  · split_ifs at h
    · split at h
      · obtain ⟨rfl, rfl⟩ := Prod.mk.inj (Option.some.inj h)
        exact .inr ⟨by simp [Answered], .keep rfl Iff.rfl⟩
      · obtain ⟨rfl, rfl⟩ := Prod.mk.inj (Option.some.inj h)
        exact .inr ⟨by simp [Answered], .keep rfl Iff.rfl⟩
    · obtain ⟨rfl, rfl⟩ := Prod.mk.inj (Option.some.inj h)
      exact .inr ⟨by simp [Answered], .keep rfl Iff.rfl⟩
  · obtain ⟨rfl, rfl⟩ := Prod.mk.inj (Option.some.inj h)
    exact .inr ⟨by simp [Answered], .keep rfl Iff.rfl⟩
  · cases h

/-- A thread that has returned takes no step. -/
theorem not_returned_of_step (h : openClientfdTsAnswer hostname i sh pc a = some (sh', pc'))
    (rc : ℤ) : pc ≠ .returned rc := by
  rintro rfl
  cases h

/-! ## Runs -/

variable {c c' : Threads ι (Resolver ι) Pc} {es : List (ι × Action × Option HostEntry)}

/-- The lock has been left behind. -/
def Abandoned (c : Threads ι (Resolver ι) Pc) : Prop :=
  ∃ i rc, c.shared.tsLock = some i ∧ c.locals i = .returned rc

/-- The invariant: the lock belongs to the thread in the critical section, or has been left behind
after a failed lookup. -/
structure LockInv (c : Threads ι (Resolver ι) Pc) (es : List (ι × Action × Option HostEntry)) :
    Prop where
  critical : ∀ i, (c.locals i).Critical → c.shared.tsLock = some i
  owner : ∀ i, c.shared.tsLock = some i → (c.locals i).Critical ∨ Abandoned c
  abandoned : Abandoned c ↔ ∃ e ∈ es, ¬ Answered e

/-- No thread holds the lock. -/
theorem lockInv_init (hostent : Hostent) (addrList : List (List UInt8)) :
    LockInv (⟨⟨none, hostent, addrList⟩, fun _ => .socket⟩ : Threads ι (Resolver ι) Pc) [] where
  critical _ h := h.elim
  owner _ h := nomatch h
  abandoned := by simp [Abandoned]

namespace LockInv

/-- The lock is safe unless it has been left behind. -/
theorem lockSafe_iff_not_abandoned (h : LockInv c es) : LockSafe c ↔ ¬ Abandoned c := by
  constructor
  · rintro hsafe ⟨i, rc, hlock, hret⟩
    exact hsafe.returned i rc hret hlock
  · intro hab
    refine ⟨fun i hlock => ?_, fun i rc hret hlock => hab ⟨i, rc, hlock, hret⟩⟩
    exact ((h.owner i hlock).resolve_right hab).between

/-- A step that is not a failed lookup adds no failed lookup to the history. -/
theorem abandoned_concat (h : LockInv c es) (hans : Answered (i, a)) :
    Abandoned c ↔ ∃ e ∈ es ++ [(i, a)], ¬ Answered e := by
  rw [h.abandoned]
  simp [List.mem_append, or_and_right, exists_or, hans]

/-- The lock stays where it is. -/
theorem keep (h : LockInv c es) (hans : Answered (i, a))
    (hlock : c'.shared.tsLock = c.shared.tsLock)
    (hcritical : ∀ j, (c'.locals j).Critical ↔ (c.locals j).Critical)
    (hreturned : ∀ j rc, c.locals j = .returned rc → c'.locals j = .returned rc) :
    LockInv c' (es ++ [(i, a)]) := by
  have hab : Abandoned c' ↔ Abandoned c := by
    constructor
    · rintro ⟨j, rc, hj, hret⟩
      rcases h.owner j (hlock ▸ hj) with hcrit | hab
      · -- the owner is in the critical section, so it has not returned
        have hcrit' := (hcritical j).mpr hcrit
        rw [hret] at hcrit'
        exact hcrit'.elim
      · exact hab
    · rintro ⟨j, rc, hj, hret⟩
      exact ⟨j, rc, hlock.trans hj, hreturned j rc hret⟩
  refine ⟨fun j hj => ?_, fun j hj => ?_, hab.trans (h.abandoned_concat hans)⟩
  · exact hlock.trans (h.critical j ((hcritical j).mp hj))
  · exact (h.owner j (hlock ▸ hj)).imp (hcritical j).mpr hab.mpr

/-- A thread takes the lock: nobody was in the critical section, and nothing had been left behind.
-/
theorem acquire (h : LockInv c es) (hans : Answered (i, a)) (hfree : c.shared.tsLock = none)
    (hlock : c'.shared.tsLock = some i) (hself : (c'.locals i).Critical)
    (hother : ∀ j, j ≠ i → c'.locals j = c.locals j) : LockInv c' (es ++ [(i, a)]) := by
  have hab : ¬ Abandoned c := by
    rintro ⟨j, rc, hj, -⟩
    exact absurd (hfree.symm.trans hj) (by simp)
  have hab' : ¬ Abandoned c' := by
    rintro ⟨j, rc, hj, hret⟩
    obtain rfl := Option.some.inj (hlock.symm.trans hj)
    rw [hret] at hself
    exact hself
  refine ⟨fun j hj => ?_, fun j hj => ?_,
    iff_of_false hab' ((h.abandoned_concat hans).not.mp hab)⟩
  · by_cases hji : j = i
    · rw [hji, hlock]
    · rw [hother j hji] at hj
      exact absurd (hfree.symm.trans (h.critical j hj)) (by simp)
  · obtain rfl := Option.some.inj (hlock.symm.trans hj)
    exact .inl hself

/-- The thread in the critical section gives the lock back. -/
theorem release (h : LockInv c es) (hans : Answered (i, a)) (hcritical : (c.locals i).Critical)
    (hlock : c'.shared.tsLock = none) (hself : ¬ (c'.locals i).Critical)
    (hother : ∀ j, j ≠ i → c'.locals j = c.locals j) : LockInv c' (es ++ [(i, a)]) := by
  have howner := h.critical i hcritical
  have hab : ¬ Abandoned c := by
    rintro ⟨j, rc, hj, hret⟩
    obtain rfl := Option.some.inj (howner.symm.trans hj)
    rw [hret] at hcritical
    exact hcritical
  have hfree : ∀ j, c'.shared.tsLock ≠ some j := fun j hj =>
    absurd (hlock.symm.trans hj) (by simp)
  have hab' : ¬ Abandoned c' := fun ⟨j, _, hj, _⟩ => hfree j hj
  refine ⟨fun j hj => ?_, fun j hj => absurd hj (hfree j),
    iff_of_false hab' ((h.abandoned_concat hans).not.mp hab)⟩
  have hji : j ≠ i := by
    rintro rfl
    exact hself hj
  rw [hother j hji] at hj
  exact absurd (Option.some.inj ((h.critical j hj).symm.trans howner)) hji

variable [DecidableEq ι]

/-- A failed lookup leaves the lock behind. -/
theorem failed (h : LockInv c es) (hcrit : (c.locals i).Critical) (hans : ¬ Answered (i, a))
    (hsh : c'.shared = c.shared)
    (hlocals : c'.locals = Function.update c.locals i (.returned (-2))) :
    LockInv c' (es ++ [(i, a)]) := by
  have hlock : c'.shared.tsLock = some i := by rw [hsh, h.critical i hcrit]
  have hab : Abandoned c' := ⟨i, -2, hlock, by rw [hlocals, Function.update_self]⟩
  refine ⟨fun j hj => ?_, fun _ _ => .inr hab, iff_of_true hab ⟨_, by simp, hans⟩⟩
  by_cases hji : j = i
  · rw [hji, hlock]
  · rw [hlocals, Function.update_of_ne hji] at hj
    rw [hsh, h.critical j hj]

/-- The other steps neither leave the lock behind nor take it from where it has been left. -/
theorem answered {pc' : Pc} (h : LockInv c es)
    (hstep : LockStep i c.shared (c.locals i) c'.shared pc')
    (hmoves : ∀ rc, c.locals i ≠ .returned rc) (hans : Answered (i, a))
    (hlocals : c'.locals = Function.update c.locals i pc') : LockInv c' (es ++ [(i, a)]) := by
  have hself : c'.locals i = pc' := by rw [hlocals, Function.update_self]
  have hother : ∀ j, j ≠ i → c'.locals j = c.locals j := by
    intro j hji
    rw [hlocals, Function.update_of_ne hji]
  cases hstep with
  | keep hlock hcritical =>
    refine h.keep hans hlock (fun j => ?_) fun j rc hret => ?_
    · by_cases hji : j = i
      · rw [hji, hself, hcritical]
      · rw [hother j hji]
    · have hji : j ≠ i := by
        rintro rfl
        exact hmoves rc hret
      exact (hother j hji).trans hret
  | acquire hfree hlock hcritical =>
    exact h.acquire hans hfree hlock (hself ▸ hcritical) hother
  | release hcritical hlock hout =>
    exact h.release hans hcritical hlock (hself ▸ hout) hother

/-- One step. -/
theorem step (h : LockInv c es) {e : ι × Action × Option HostEntry}
    (hs : Threads.Step (openClientfdTsAnswer hostname) c e c') : LockInv c' (es ++ [e]) := by
  obtain ⟨i, a⟩ := e
  obtain ⟨pc', heq, hlocals⟩ := Threads.step_cases hs
  rcases openClientfdTsAnswer_cases heq with ⟨hans, hcrit, hsh, rfl⟩ | ⟨hans, hstep⟩
  · exact h.failed hcrit hans hsh hlocals
  · exact h.answered hstep (not_returned_of_step heq) hans hlocals

/-- Every run. -/
theorem of_runs (hostent : Hostent) (addrList : List (List UInt8))
    (h : Runs (Threads.Step (openClientfdTsAnswer hostname))
      ⟨⟨none, hostent, addrList⟩, fun _ => .socket⟩ es c) : LockInv c es :=
  h.invariant_labels (I := fun es c => LockInv c es) (fun _ _ _ _ hinv hs => hinv.step hs)
    (lockInv_init hostent addrList)

end LockInv

variable [DecidableEq ι]

/-- **Is the lock always released?** At the end of every run, for any number of threads, the lock is
safe if and only if every lookup of the run has found its host. -/
theorem lockSafe_iff (hostent : Hostent) (addrList : List (List UInt8))
    (h : Runs (Threads.Step (openClientfdTsAnswer hostname))
      ⟨⟨none, hostent, addrList⟩, fun _ => .socket⟩ es c) :
    LockSafe c ↔ ∀ e ∈ es, Answered e := by
  have hinv := LockInv.of_runs hostent addrList h
  rw [hinv.lockSafe_iff_not_abandoned, hinv.abandoned]
  push Not
  exact Iff.rfl

/-- The steps of a thread up to the lookup, which gets this answer. -/
def lookupAnswer (i : Fin 2) (fd : ℤ) (answer : Option HostEntry) :
    List (Fin 2 × Action × Option HostEntry) :=
  [(i, .socket fd, answer), (i, .lock, answer), (i, .gethostbyname, answer)]

/-- A thread in its critical section. -/
theorem lockSafe_iff_example :
    ∃ c, Runs (Threads.Step (openClientfdTsAnswer hosts))
      ⟨⟨none, ⟨.static, 0⟩, []⟩, fun _ => .socket⟩
      (lookupAnswer 0 5 (some (.single [10, 0, 0, 1]))) c ∧
      c.shared.tsLock = some 0 ∧ LockSafe c := by
  obtain ⟨c, hrun, hlock⟩ := exists_runs_of_runIf
    (Threads.Step (openClientfdTsAnswer hosts))
    (fun c => c.shared.tsLock) (some 0) (fun _ _ _ h => h)
    (show (runIf (fun _ _ => True) (Threads.next (openClientfdTsAnswer hosts))
      ⟨⟨none, ⟨.static, 0⟩, []⟩, fun _ => .socket⟩
      (lookupAnswer 0 5 (some (.single [10, 0, 0, 1])))).map (fun c => c.shared.tsLock) =
      some (some 0) by decide +kernel)
  refine ⟨c, hrun.of_guarded, hlock, (lockSafe_iff _ _ hrun.of_guarded).mpr ?_⟩
  simp [lookupAnswer, Answered]

/-- The host is not found: the thread returns with the lock. -/
theorem exists_not_lockSafe :
    ∃ c, Runs (Threads.Step (openClientfdTsAnswer hosts))
      ⟨⟨none, ⟨.static, 0⟩, []⟩, fun _ => .socket⟩ (lookupAnswer 0 5 none) c ∧
      c.shared.tsLock = some 0 ∧ c.locals 0 = .returned (-2) ∧ ¬ LockSafe c := by
  obtain ⟨c, hrun, hobs⟩ := exists_runs_of_runIf
    (Threads.Step (openClientfdTsAnswer hosts))
    (fun c => (c.shared.tsLock, c.locals 0)) (some 0, .returned (-2)) (fun _ _ _ h => h)
    (show (runIf (fun _ _ => True) (Threads.next (openClientfdTsAnswer hosts))
      ⟨⟨none, ⟨.static, 0⟩, []⟩, fun _ => .socket⟩ (lookupAnswer 0 5 none)).map
      (fun c => (c.shared.tsLock, c.locals 0)) = some (some 0, .returned (-2)) by decide +kernel)
  obtain ⟨hlock, hpc⟩ := Prod.mk.inj hobs
  exact ⟨c, hrun.of_guarded, hlock, hpc, fun hsafe => hsafe.returned 0 _ hpc hlock⟩

end SystemsLabs.Proxylab
