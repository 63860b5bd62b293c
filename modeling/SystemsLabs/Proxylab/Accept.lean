import SystemsLabs.Lib.Runs
import Mathlib.Data.Int.Notation
import Mathlib.Data.List.Nodup
import Mathlib.Logic.Function.Basic
import Mathlib.Tactic.Common

/-!
# The accept loop and its threads (`proxy.c`)

`main` passes a connection to a new thread in a slot of an array of `MAXTHREADS` slots, which it
uses in turn. Nothing tells it whether the thread that the slot was last used for has read its
arguments. `Served` says that every thread reads the connection that it was created for; it holds in
runs in which `main` finds that the slot has been read (`served_of_guarded`).

**Assumptions.** `Accept` and `Pthread_create` succeed (their wrappers exit otherwise), and each
store and each read of a field is one step.
-/

namespace SystemsLabs.Proxylab

open Lib

/-- `MAXTHREADS`. -/
abbrev maxThreads : ℕ := 300

/-- `struct sockaddr_in`. -/
structure SockaddrIn where
  sinAddr : BitVec 32
  sinPort : BitVec 16
  deriving DecidableEq

/-- `thread_arg`. -/
structure ThreadArg where
  connfd : ℤ
  clientaddr : SockaddrIn
  deriving DecidableEq

/-- What `main` does next; `arg` holds its variables `connfd` and `clientaddr`. -/
inductive AcceptPc
  | accept
  | storeConnfd (arg : ThreadArg)
  | storeClientaddr (arg : ThreadArg)
  | create
  | advance
  deriving DecidableEq

/-- What a thread does next at the start of `doit`. -/
inductive WorkerPc
  | readConnfd
  | readClientaddr (connfd : ℤ)
  /-- Both arguments have been copied. -/
  | copied (arg : ThreadArg)
  deriving DecidableEq

/-- Whether both arguments have been copied. -/
def WorkerPc.hasCopied : WorkerPc → Bool
  | .copied _ => true
  | _ => false

/-- A thread and the slot that it got a pointer to. -/
structure Worker where
  slot : Fin maxThreads
  pc : WorkerPc
  deriving DecidableEq

/-- `main`, the array `t` and the threads. -/
structure Server where
  t : Fin maxThreads → ThreadArg
  threadId : Fin maxThreads
  main : AcceptPc
  /-- All connections accepted so far. -/
  accepted : List ThreadArg
  /-- All threads created so far. -/
  workers : List Worker

/-- A step of `main` or of a thread. -/
inductive ServerEvent
  /-- The result of `Accept`. -/
  | accept (arg : ThreadArg)
  | storeConnfd
  | storeClientaddr
  | create
  | advance
  /-- A step of thread `k`. -/
  | readConnfd (k : ℕ)
  | readClientaddr (k : ℕ)
  deriving DecidableEq

namespace Server

/-- The server when `main` enters its loop; the array is not initialised. -/
def init (t : Fin maxThreads → ThreadArg) : Server where
  t := t
  threadId := 0
  main := .accept
  accepted := []
  workers := []

/-- One step. -/
def next (s : Server) : ServerEvent → Option Server
  | .accept arg =>
    if s.main = .accept then
      some { s with main := .storeConnfd arg, accepted := s.accepted ++ [arg] }
    else none
  | .storeConnfd =>
    match s.main with
    | .storeConnfd arg =>
      some { s with
        t := Function.update s.t s.threadId { s.t s.threadId with connfd := arg.connfd }
        main := .storeClientaddr arg }
    | _ => none
  | .storeClientaddr =>
    match s.main with
    | .storeClientaddr arg =>
      some { s with
        t := Function.update s.t s.threadId { s.t s.threadId with clientaddr := arg.clientaddr }
        main := .create }
    | _ => none
  | .create =>
    if s.main = .create then
      some { s with main := .advance, workers := s.workers ++ [⟨s.threadId, .readConnfd⟩] }
    else none
  | .advance =>
    if s.main = .advance then
      some { s with
        main := .accept
        threadId := ⟨(s.threadId.val + 1) % maxThreads, Nat.mod_lt _ (by decide)⟩ }
    else none
  | .readConnfd k =>
    match s.workers[k]? with
    | some ⟨slot, .readConnfd⟩ =>
      some { s with workers := s.workers.set k ⟨slot, .readClientaddr (s.t slot).connfd⟩ }
    | _ => none
  | .readClientaddr k =>
    match s.workers[k]? with
    | some ⟨slot, .readClientaddr connfd⟩ =>
      some { s with workers := s.workers.set k ⟨slot, .copied ⟨connfd, (s.t slot).clientaddr⟩⟩ }
    | _ => none

/-- The step relation. -/
def Step (s : Server) (e : ServerEvent) (s' : Server) : Prop := s.next e = some s'

/-! ## The hand-over -/

/-- `main` stores to a slot only when no thread that has a pointer to it is still to read it. -/
def SlotFree (s : Server) (e : ServerEvent) : Prop :=
  e = .storeConnfd → ∀ w ∈ s.workers, w.slot = s.threadId → w.pc.hasCopied = true

instance (s : Server) : DecidablePred s.SlotFree :=
  fun e => inferInstanceAs (Decidable (e = .storeConnfd → ∀ w ∈ s.workers, _))

/-- Every accepted connection goes to one thread. -/
structure Served (s : Server) : Prop where
  /-- The `k`-th thread copies the `k`-th connection, which it was created for. -/
  own : ∀ (k : ℕ) (w : Worker) (arg : ThreadArg), s.workers[k]? = some w → w.pc = .copied arg →
    s.accepted[k]? = some arg
  /-- No two threads copy the same one of different connections. -/
  unique : s.accepted.Nodup → ∀ (j k : ℕ) (w w' : Worker) (arg : ThreadArg),
    s.workers[j]? = some w → w.pc = .copied arg → s.workers[k]? = some w' → w'.pc = .copied arg →
    j = k
  /-- Every connection has a thread, but the one that `main` is handing over. -/
  threads : s.workers.length ≤ s.accepted.length ∧ s.accepted.length ≤ s.workers.length + 1

/-- What holds at the point that `main` has reached. -/
def MainInv (s : Server) : AcceptPc → Prop
  | .accept => s.accepted.length = s.workers.length
  | .storeConnfd arg =>
    s.accepted.length = s.workers.length + 1 ∧ s.accepted[s.workers.length]? = some arg
  | .storeClientaddr arg =>
    s.accepted.length = s.workers.length + 1 ∧ s.accepted[s.workers.length]? = some arg ∧
      (s.t s.threadId).connfd = arg.connfd ∧
      ∀ w ∈ s.workers, w.slot = s.threadId → w.pc.hasCopied = true
  | .create =>
    s.accepted.length = s.workers.length + 1 ∧
      s.accepted[s.workers.length]? = some (s.t s.threadId)
  | .advance => s.accepted.length = s.workers.length

/-- What holds of the `k`-th thread. -/
def WorkerInv (s : Server) (k : ℕ) (slot : Fin maxThreads) : WorkerPc → Prop
  | .readConnfd => s.accepted[k]? = some (s.t slot)
  | .readClientaddr connfd => s.accepted[k]? = some ⟨connfd, (s.t slot).clientaddr⟩
  | .copied arg => s.accepted[k]? = some arg

/-- The invariant. -/
structure Inv (s : Server) : Prop where
  main : s.MainInv s.main
  worker : ∀ k w, s.workers[k]? = some w → s.WorkerInv k w.slot w.pc

/-- The invariant before the first connection. -/
theorem inv_init (t : Fin maxThreads → ThreadArg) : (init t).Inv where
  main := rfl
  worker _ _ h := nomatch h

variable {s s' : Server} {e : ServerEvent} {k : ℕ} {slot : Fin maxThreads} {pc : WorkerPc}

/-- A thread does not notice what happens to the connections after its own, and to other slots. -/
theorem WorkerInv.mono (h : s.WorkerInv k slot pc)
    (hacc : ∀ arg, s.accepted[k]? = some arg → s'.accepted[k]? = some arg)
    (ht : pc.hasCopied = false → s'.t slot = s.t slot) : s'.WorkerInv k slot pc := by
  cases pc with
  | readConnfd => exact hacc _ (by rw [ht rfl]; exact h)
  | readClientaddr connfd => exact hacc _ (by rw [ht rfl]; exact h)
  | copied arg => exact hacc _ h

/-- A store to a slot that nobody is still to read. -/
theorem Inv.store (h : s.Inv) (hfree : ∀ w ∈ s.workers, w.slot = s.threadId → w.pc.hasCopied = true)
    (arg : ThreadArg) (main : AcceptPc) (k : ℕ) (w : Worker) (hw : s.workers[k]? = some w) :
    { s with t := Function.update s.t s.threadId arg, main := main }.WorkerInv k w.slot w.pc := by
  refine (h.worker k w hw).mono (fun _ => id) fun hpc => Function.update_of_ne (fun hslot => ?_) ..
  exact absurd ((hfree w (List.mem_of_getElem? hw) hslot).symm.trans hpc) (by decide)

/-- `main` does not notice that a thread moves on. -/
theorem MainInv.setWorker {m : AcceptPc} {w : Worker} (h : s.MainInv m)
    (hw : s.workers[k]? = some w) (hpc : w.pc.hasCopied = false) (pc : WorkerPc) :
    { s with workers := s.workers.set k ⟨w.slot, pc⟩ }.MainInv m := by
  cases m with
  | accept => exact h.trans List.length_set.symm
  | storeConnfd arg =>
    unfold MainInv
    rw [List.length_set]
    exact h
  | storeClientaddr arg =>
    unfold MainInv
    rw [List.length_set]
    refine ⟨h.1, h.2.1, h.2.2.1, fun x hx hslot => ?_⟩
    rcases List.mem_or_eq_of_mem_set hx with hx | rfl
    · exact h.2.2.2 x hx hslot
    · exact absurd ((h.2.2.2 w (List.mem_of_getElem? hw) hslot).symm.trans hpc) (by decide)
  | create =>
    unfold MainInv
    rw [List.length_set]
    exact h
  | advance => exact h.trans List.length_set.symm

/-- A thread moves on. -/
theorem Inv.setWorker {w : Worker} (h : s.Inv) (hw : s.workers[k]? = some w)
    (hcopied : w.pc.hasCopied = false) (hpc : s.WorkerInv k w.slot pc) :
    { s with workers := s.workers.set k ⟨w.slot, pc⟩ }.Inv where
  main := h.main.setWorker hw hcopied pc
  worker j x hj := by
    dsimp only at hj
    by_cases hjk : k = j
    · subst hjk
      rw [List.getElem?_set_self (List.getElem?_eq_some_iff.mp hw).1] at hj
      obtain rfl := Option.some.inj hj
      exact hpc
    · rw [List.getElem?_set_ne hjk] at hj
      exact h.worker j x hj

/-- **One step**, if the slot that `main` stores to is free. -/
theorem Inv.step (h : s.Inv) (hfree : s.SlotFree e) (hs : s.Step e s') : s'.Inv := by
  unfold Step at hs
  have hmain := h.main
  cases e with
  | accept arg =>
    simp only [next] at hs
    split_ifs at hs with hpc
    obtain rfl := Option.some.inj hs
    rw [hpc] at hmain
    constructor
    · refine ⟨by rw [List.length_append, hmain]; rfl, ?_⟩
      dsimp only
      rw [← hmain, List.getElem?_concat_length]
    · intro k w hw
      refine (h.worker k w hw).mono (fun _ hk => ?_) fun _ => rfl
      exact (List.getElem?_append_left (List.getElem?_eq_some_iff.mp hk).1).trans hk
  | storeConnfd =>
    simp only [next] at hs
    split at hs
    · next arg hpc =>
      obtain rfl := Option.some.inj hs
      rw [hpc] at hmain
      refine ⟨⟨hmain.1, hmain.2, ?_, hfree rfl⟩, h.store (hfree rfl) _ _⟩
      dsimp only
      rw [Function.update_self]
    · cases hs
  | storeClientaddr =>
    simp only [next] at hs
    split at hs
    · next arg hpc =>
      obtain rfl := Option.some.inj hs
      rw [hpc] at hmain
      obtain ⟨hlen, hacc, hconnfd, hcopied⟩ := hmain
      refine ⟨⟨hlen, ?_⟩, h.store hcopied _ _⟩
      dsimp only
      rw [Function.update_self, hconnfd]
      exact hacc
    · cases hs
  | create =>
    simp only [next] at hs
    split_ifs at hs with hpc
    obtain rfl := Option.some.inj hs
    rw [hpc] at hmain
    constructor
    · unfold MainInv
      dsimp only
      rw [hmain.1, List.length_append, List.length_singleton]
    · intro k w hw
      dsimp only at hw
      rw [List.getElem?_append] at hw
      split_ifs at hw with hk
      · exact h.worker k w hw
      · -- the new thread finds the last connection in its slot
        obtain ⟨hlt, rfl⟩ := List.getElem?_eq_some_iff.mp hw
        obtain rfl : k = s.workers.length := by
          simp only [List.length_singleton] at hlt
          omega
        simpa [WorkerInv] using hmain.2
  | advance =>
    simp only [next] at hs
    split_ifs at hs with hpc
    obtain rfl := Option.some.inj hs
    rw [hpc] at hmain
    exact ⟨hmain, h.worker⟩
  | readConnfd k =>
    simp only [next] at hs
    split at hs
    · next slot hw =>
      obtain rfl := Option.some.inj hs
      exact h.setWorker hw rfl (h.worker k _ hw)
    · cases hs
  | readClientaddr k =>
    simp only [next] at hs
    split at hs
    · next slot connfd hw =>
      obtain rfl := Option.some.inj hs
      exact h.setWorker hw rfl (h.worker k _ hw)
    · cases hs

/-- The `k`-th thread copies the `k`-th connection. -/
theorem Inv.own {w : Worker} {arg : ThreadArg} (h : s.Inv) (hw : s.workers[k]? = some w)
    (hpc : w.pc = .copied arg) : s.accepted[k]? = some arg := by
  have := h.worker k w hw
  rwa [hpc] at this

/-- What the invariant says about the threads. -/
theorem Inv.served (h : s.Inv) : s.Served where
  own _ _ _ hw hpc := h.own hw hpc
  unique hnd j k w w' arg hj hjpc hk hkpc := by
    obtain ⟨hjlt, hjeq⟩ := List.getElem?_eq_some_iff.mp (h.own hj hjpc)
    obtain ⟨hklt, hkeq⟩ := List.getElem?_eq_some_iff.mp (h.own hk hkpc)
    exact hnd.getElem_inj_iff.mp (hjeq.trans hkeq.symm)
  threads := by
    have hmain := h.main
    unfold MainInv at hmain
    split at hmain <;> omega

/-! ## Runs -/

/-- **Every connection is served by its own thread**, in every run in which `main` never stores to a
slot that a thread is still to read. -/
theorem served_of_guarded (t : Fin maxThreads → ThreadArg) {es : List ServerEvent}
    (h : Runs (Guarded SlotFree Step) (init t) es s) : s.Served :=
  (h.invariant (fun _ _ _ hs hg => hs.step hg.1 hg.2) (inv_init t)).served

/-- The `k`-th connection of the runs below. -/
def conn (k : ℕ) : ThreadArg := ⟨4 + k, ⟨0x0a000001, BitVec.ofNat 16 (40000 + k)⟩⟩

/-- `main` accepts the connections `ks` and creates their threads. -/
def acceptAll (ks : List ℕ) : List ServerEvent :=
  ks.flatMap fun k => [.accept (conn k), .storeConnfd, .storeClientaddr, .create, .advance]

/-- Two connections, the first of which is read last. -/
theorem served_of_guarded_example :
    ∃ s, Runs Step (init fun _ => conn 0)
      (acceptAll [0, 1] ++ [.readConnfd 1, .readConnfd 0, .readClientaddr 1, .readClientaddr 0]) s ∧
      s.workers = [⟨0, .copied (conn 0)⟩, ⟨1, .copied (conn 1)⟩] ∧ s.Served := by
  obtain ⟨s, hrun, hworkers⟩ := exists_runs_of_runIf Step workers
    [⟨0, .copied (conn 0)⟩, ⟨1, .copied (conn 1)⟩] (fun _ _ _ h => h)
    (show (runIf SlotFree next (init fun _ => conn 0) (acceptAll [0, 1] ++
      [.readConnfd 1, .readConnfd 0, .readClientaddr 1, .readClientaddr 0])).map workers =
      some [⟨0, .copied (conn 0)⟩, ⟨1, .copied (conn 1)⟩] by decide +kernel)
  exact ⟨s, hrun.of_guarded, hworkers, served_of_guarded _ hrun⟩

/-- `main` accepts 301 connections before the first thread runs: it copies the last one. -/
theorem exists_not_served :
    ∃ s, Runs Step (init fun _ => conn 0)
      (acceptAll (List.range 301) ++ [.readConnfd 0, .readClientaddr 0]) s ∧ ¬ s.Served := by
  obtain ⟨s, hrun, hs⟩ := exists_runs_of_runIf Step
    (fun s => (s.workers[0]?.map Worker.pc, s.accepted[0]?))
    (some (.copied (conn 300)), some (conn 0)) (fun _ _ _ h => h)
    (show (runIf (fun _ _ => True) next (init fun _ => conn 0)
      (acceptAll (List.range 301) ++ [.readConnfd 0, .readClientaddr 0])).map
      (fun s => (s.workers[0]?.map Worker.pc, s.accepted[0]?)) =
      some (some (.copied (conn 300)), some (conn 0)) by decide +kernel)
  obtain ⟨hworker, haccepted⟩ := Prod.mk.inj hs
  obtain ⟨w, hw, hpc⟩ := Option.map_eq_some_iff.mp hworker
  refine ⟨s, hrun.of_guarded, fun hserved => ?_⟩
  have := hserved.own 0 w (conn 300) hw hpc
  exact absurd (this.symm.trans haccepted) (by decide)

end Server

end SystemsLabs.Proxylab
