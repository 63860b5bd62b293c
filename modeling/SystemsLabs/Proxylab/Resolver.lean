import SystemsLabs.Lib.Threads
import Mathlib.Data.Fintype.Basic
import Mathlib.Data.Int.Notation

/-!
# Looking up the origin server (`open_clientfd_ts`)

Request threads look up their host names with `gethostbyname`, which fills one static `hostent` and
one static list of addresses. The lock covers the call and the copy of the struct, but the copy
still points to the static list, which `bcopy` reads after the lock has been released.

**Assumptions.** While it looks up a host, `gethostbyname` may write anything to the static data
(`Action.scratch`), and a lookup that fails leaves it so: the C library overwrites the list or frees
it. A lookup that succeeds ends with the addresses of its host in the list. The answer for a host
is a parameter (`dns`). `bcopy` is split into single bytes. Reading a list without a first address,
or behind the bytes of an address, is undefined.
-/

namespace SystemsLabs.Proxylab

open Lib

/-! ## `open_clientfd_ts` -/

/-- The addresses that `gethostbyname` finds for a host, at least one, of `hLength` bytes each. -/
structure HostEntry where
  addrs : List (List UInt8)
  hLength : ℕ
  addrs_ne : addrs ≠ []
  length_eq : ∀ a ∈ addrs, a.length = hLength

/-- The first address, which the proxy connects to. -/
def HostEntry.first (e : HostEntry) : List UInt8 := e.addrs.head e.addrs_ne

/-- A host with one address. -/
def HostEntry.single (addr : List UInt8) : HostEntry :=
  ⟨[addr], addr.length, List.cons_ne_nil _ _, by simp⟩

/-- A pointer to a list of addresses: there is only the static one. -/
inductive AddrList
  | static
  deriving DecidableEq

/-- `struct hostent`. -/
structure Hostent where
  hAddrList : AddrList
  hLength : ℕ
  deriving DecidableEq

/-- What the threads share: the owner of `ts_lock`, and the static data of `gethostbyname`. -/
structure Resolver (ι : Type*) where
  tsLock : Option ι
  hostent : Hostent
  addrList : List (List UInt8)

/-- The list that a pointer points to. -/
def Resolver.deref {ι : Type*} (sh : Resolver ι) : AddrList → List (List UInt8)
  | .static => sh.addrList

/-- What a thread does next in `open_clientfd_ts`, with its local variables. -/
inductive Pc
  | socket
  | lock (clientfd : ℤ)
  | gethostbyname (clientfd : ℤ)
  /-- `p = *shared_hp`. -/
  | copy (clientfd : ℤ)
  | unlock (clientfd : ℤ) (p : Hostent)
  /-- `bcopy` has stored these bytes in `serveraddr`. -/
  | bcopy (clientfd : ℤ) (p : Hostent) (addr : List UInt8)
  | connect (clientfd : ℤ) (addr : List UInt8)
  | returned (rc : ℤ)
  /-- `bcopy` has read where there is no address. -/
  | undefined
  deriving DecidableEq

/-- The steps of a thread. -/
inductive Action
  /-- The result of `socket`. -/
  | socket (fd : ℤ)
  | lock
  /-- `gethostbyname` writes to the static data while it looks up the host. -/
  | scratch (hostent : Hostent) (addrList : List (List UInt8))
  /-- `gethostbyname` returns. -/
  | gethostbyname
  | copy
  | unlock
  /-- `bcopy` copies a byte, or is done. -/
  | bcopy
  /-- The result of `connect`. -/
  | connect (ok : Bool)
  deriving DecidableEq

variable {ι : Type*} (dns : String → Option HostEntry) (hostname : ι → String)

/-- `open_clientfd_ts` in thread `i`. -/
def openClientfdTs (i : ι) (sh : Resolver ι) : Pc → Action → Option (Resolver ι × Pc)
  | .socket, .socket fd => some (sh, if fd < 0 then .returned (-1) else .lock fd)
  | .lock clientfd, .lock =>
    if sh.tsLock.isNone then some ({ sh with tsLock := some i }, .gethostbyname clientfd) else none
  | .gethostbyname clientfd, .scratch hostent addrList =>
    some ({ sh with hostent, addrList }, .gethostbyname clientfd)
  | .gethostbyname clientfd, .gethostbyname =>
    match dns (hostname i) with
    | none => some (sh, .returned (-2))
    | some e =>
      some ({ sh with hostent := ⟨.static, e.hLength⟩, addrList := e.addrs }, .copy clientfd)
  | .copy clientfd, .copy => some (sh, .unlock clientfd sh.hostent)
  | .unlock clientfd p, .unlock => some ({ sh with tsLock := none }, .bcopy clientfd p [])
  | .bcopy clientfd p addr, .bcopy =>
    if addr.length < p.hLength then
      match (sh.deref p.hAddrList).head?.bind fun first => first[addr.length]? with
      | some byte => some (sh, .bcopy clientfd p (addr ++ [byte]))
      | none => some (sh, .undefined)
    else some (sh, .connect clientfd addr)
  | .connect clientfd _, .connect ok => some (sh, .returned (if ok then clientfd else -1))
  | _, _ => none

/-! ## The race -/

/-- The thread has released the lock and still reads the static list. -/
def Copying : Pc → Prop
  | .bcopy _ p addr => addr.length < p.hLength
  | _ => False

/-- The list of addresses that a step of a thread stores to the static data. -/
def stored (host : String) : Action → Option (List (List UInt8))
  | .scratch _ addrList => some addrList
  | .gethostbyname => (dns host).map HostEntry.addrs
  | _ => none

/-- No lookup, whether or not it succeeds, replaces the address that another thread is still
copying. -/
def Undisturbed (c : Threads ι (Resolver ι) Pc) (e : ι × Action) : Prop :=
  ∀ addrs ∈ stored dns (hostname e.1) e.2, ∀ j, j ≠ e.1 → Copying (c.locals j) →
    addrs.head? = (dns (hostname j)).map HostEntry.first

/-- What thread `i` knows at each point. -/
def Knows (i : ι) (sh : Resolver ι) : Pc → Prop
  | .gethostbyname _ => sh.tsLock = some i
  | .copy _ => sh.tsLock = some i ∧ ∃ e, dns (hostname i) = some e ∧
      sh.hostent = ⟨.static, e.hLength⟩ ∧ sh.addrList.head? = some e.first
  | .unlock _ p => sh.tsLock = some i ∧ ∃ e, dns (hostname i) = some e ∧
      p = ⟨.static, e.hLength⟩ ∧ sh.addrList.head? = some e.first
  | .bcopy _ p addr => ∃ e, dns (hostname i) = some e ∧ p = ⟨.static, e.hLength⟩ ∧
      addr.length ≤ e.hLength ∧ addr = e.first.take addr.length ∧
      (addr.length < e.hLength → sh.addrList.head? = some e.first)
  | .connect _ addr => ∃ e, dns (hostname i) = some e ∧ addr = e.first
  | .undefined => False
  | _ => True

instance (pc : Pc) : Decidable (Copying pc) := by
  cases pc <;> unfold Copying <;> infer_instance

instance [Fintype ι] [DecidableEq ι] (c : Threads ι (Resolver ι) Pc) :
    DecidablePred (Undisturbed dns hostname c) :=
  fun e => inferInstanceAs (Decidable (∀ addrs ∈ stored dns (hostname e.1) e.2, ∀ _, _))

variable {dns hostname} {sh sh' : Resolver ι} {pc pc' : Pc} {a : Action} {i j : ι}

/-- The length of an address. -/
theorem HostEntry.length_first (e : HostEntry) : e.first.length = e.hLength :=
  e.length_eq _ (List.head_mem _)

/-- The first address of a host. -/
theorem HostEntry.head?_addrs (e : HostEntry) : e.addrs.head? = some e.first :=
  List.head?_eq_some_head e.addrs_ne

/-- The steps of a thread establish what it knows next. -/
theorem Knows.own (h : Knows dns hostname i sh pc)
    (hs : openClientfdTs dns hostname i sh pc a = some (sh', pc')) :
    Knows dns hostname i sh' pc' := by
  unfold openClientfdTs at hs
  split at hs
  · obtain ⟨rfl, rfl⟩ := Prod.mk.inj (Option.some.inj hs)
    split_ifs <;> trivial
  · split_ifs at hs
    obtain ⟨rfl, rfl⟩ := Prod.mk.inj (Option.some.inj hs)
    rfl
  · obtain ⟨rfl, rfl⟩ := Prod.mk.inj (Option.some.inj hs)
    exact h
  · split at hs
    · obtain ⟨rfl, rfl⟩ := Prod.mk.inj (Option.some.inj hs)
      trivial
    · next e he =>
      obtain ⟨rfl, rfl⟩ := Prod.mk.inj (Option.some.inj hs)
      exact ⟨h, e, he, rfl, e.head?_addrs⟩
  · obtain ⟨rfl, rfl⟩ := Prod.mk.inj (Option.some.inj hs)
    exact h
  · obtain ⟨rfl, rfl⟩ := Prod.mk.inj (Option.some.inj hs)
    obtain ⟨-, e, he, hp, hhead⟩ := h
    exact ⟨e, he, hp, Nat.zero_le _, rfl, fun _ => hhead⟩
  · next clientfd p addr =>
    obtain ⟨e, he, hp, hle, haddr, hhead⟩ := h
    subst hp
    split_ifs at hs with hlt
    · have hlt' : addr.length < e.first.length := e.length_first ▸ hlt
      -- the next byte is that of the own address
      have hbyte : ((sh.deref .static).head?.bind fun first => first[addr.length]?) =
          some e.first[addr.length] := by
        rw [Resolver.deref, hhead hlt, Option.bind_some, List.getElem?_eq_getElem hlt']
      rw [hbyte] at hs
      obtain ⟨rfl, rfl⟩ := Prod.mk.inj (Option.some.inj hs)
      refine ⟨e, he, rfl, ?_, ?_, fun _ => hhead hlt⟩
      · rw [List.length_append, List.length_singleton]
        exact hlt
      · rw [List.length_append, List.length_singleton, List.take_add_one, ← haddr,
          List.getElem?_eq_getElem hlt', Option.toList_some]
    · obtain ⟨rfl, rfl⟩ := Prod.mk.inj (Option.some.inj hs)
      refine ⟨e, he, ?_⟩
      rw [haddr, List.take_of_length_le]
      rw [e.length_first]
      exact Nat.not_lt.mp hlt
  · obtain ⟨rfl, rfl⟩ := Prod.mk.inj (Option.some.inj hs)
    trivial
  · cases hs

/-- A thread that does not hold the lock depends on others only while it copies. -/
theorem Knows.mono (h : Knows dns hostname j sh pc) (hlock : sh.tsLock ≠ some j)
    (hhead : Copying pc → ∀ e, dns (hostname j) = some e → sh.addrList.head? = some e.first →
      sh'.addrList.head? = some e.first) : Knows dns hostname j sh' pc := by
  cases pc with
  | socket => trivial
  | lock fd => trivial
  | gethostbyname fd => exact absurd h hlock
  | copy fd => exact absurd h.1 hlock
  | unlock fd p => exact absurd h.1 hlock
  | bcopy fd p addr =>
    obtain ⟨e, he, rfl, hle, haddr, hstatic⟩ := h
    exact ⟨e, he, rfl, hle, haddr, fun hlt => hhead hlt e he (hstatic hlt)⟩
  | connect fd addr => exact h
  | returned rc => trivial
  | undefined => exact h

/-- The steps of a thread leave alone what the others know, unless a lookup replaces an address. -/
theorem Knows.other (h : Knows dns hostname j sh pc') (hi : Knows dns hostname i sh pc)
    (hji : j ≠ i)
    (hguard : ∀ addrs ∈ stored dns (hostname i) a, Copying pc' →
      addrs.head? = (dns (hostname j)).map HostEntry.first)
    {l : Pc} (hs : openClientfdTs dns hostname i sh pc a = some (sh', l)) :
    Knows dns hostname j sh' pc' := by
  have howner : sh.tsLock = some i → sh.tsLock ≠ some j := by
    intro hlock hlock'
    exact hji (Option.some.inj (hlock'.symm.trans hlock))
  unfold openClientfdTs at hs
  split at hs
  · obtain ⟨rfl, -⟩ := Prod.mk.inj (Option.some.inj hs)
    exact h
  · split_ifs at hs with hfree
    obtain ⟨rfl, -⟩ := Prod.mk.inj (Option.some.inj hs)
    refine h.mono ?_ fun _ _ _ => id
    rw [Option.isNone_iff_eq_none.mp hfree]
    exact fun heq => nomatch heq
  · obtain ⟨rfl, -⟩ := Prod.mk.inj (Option.some.inj hs)
    apply h.mono (howner hi)
    intro hcopying e' he' _
    have hsame := hguard _ rfl hcopying
    rwa [he'] at hsame
  · split at hs
    · obtain ⟨rfl, -⟩ := Prod.mk.inj (Option.some.inj hs)
      exact h
    · next e he =>
      obtain ⟨rfl, -⟩ := Prod.mk.inj (Option.some.inj hs)
      apply h.mono (howner hi)
      intro hcopying e' he' _
      have hsame := hguard e.addrs (by rw [stored, he]; rfl) hcopying
      rwa [he'] at hsame
  · obtain ⟨rfl, -⟩ := Prod.mk.inj (Option.some.inj hs)
    exact h
  · obtain ⟨rfl, -⟩ := Prod.mk.inj (Option.some.inj hs)
    exact h.mono (howner hi.1) fun _ _ _ => id
  · split_ifs at hs
    · split at hs
      · obtain ⟨rfl, -⟩ := Prod.mk.inj (Option.some.inj hs)
        exact h
      · obtain ⟨rfl, -⟩ := Prod.mk.inj (Option.some.inj hs)
        exact h
    · obtain ⟨rfl, -⟩ := Prod.mk.inj (Option.some.inj hs)
      exact h
  · obtain ⟨rfl, -⟩ := Prod.mk.inj (Option.some.inj hs)
    exact h
  · cases hs

/-! ## Runs -/

variable [DecidableEq ι] {c : Threads ι (Resolver ι) Pc} {es : List (ι × Action)}

/-- Every thread that is about to connect has the address of its own host, and no thread has read
where there is no address. -/
structure OwnAddress (dns : String → Option HostEntry) (hostname : ι → String)
    (c : Threads ι (Resolver ι) Pc) : Prop where
  own : ∀ i clientfd addr, c.locals i = .connect clientfd addr →
    ∃ e, dns (hostname i) = some e ∧ addr = e.first
  defined : ∀ i, c.locals i ≠ .undefined

/-- **Undisturbed lookups.** In every run in which no lookup replaces an address that another thread
is still copying, all threads connect to the addresses of their own hosts. -/
theorem ownAddress_of_guarded (hostent : Hostent) (addrList : List (List UInt8))
    (h : Runs (Guarded (Undisturbed dns hostname) (Threads.Step (openClientfdTs dns hostname)))
      ⟨⟨none, hostent, addrList⟩, fun _ => .socket⟩ es c) : OwnAddress dns hostname c := by
  have hknows : ∀ i, Knows dns hostname i c.shared (c.locals i) := by
    refine Threads.forall_of_runs ?_ ?_ ?_ h
    · exact fun c i a sh l hc _ hs => (hc i).own hs
    · exact fun c i a sh l j hji hc hcond hs =>
        (hc j).other (hc i) hji (fun addrs hstored => hcond addrs hstored j hji) hs
    · exact fun _ => trivial
  constructor
  · intro i clientfd addr hpc
    have := hknows i
    rw [hpc] at this
    exact this
  · intro i hpc
    have := hknows i
    rw [hpc] at this
    exact this

/-- Two hosts, with the addresses 10.0.0.1 and 10.0.0.2. -/
def twoHosts : String → Option HostEntry
  | "a" => some (.single [10, 0, 0, 1])
  | "b" => some (.single [10, 0, 0, 2])
  | _ => none

/-- The hosts of two threads. -/
def hosts (i : Fin 2) : String := if i = 0 then "a" else "b"

/-- The steps of a thread up to the end of its critical section. -/
def lookup (i : Fin 2) (fd : ℤ) : List (Fin 2 × Action) :=
  [(i, .socket fd), (i, .lock), (i, .scratch ⟨.static, 0⟩ []), (i, .gethostbyname), (i, .copy),
    (i, .unlock)]

/-- Copying an address of four bytes. -/
def copyAddress (i : Fin 2) : List (Fin 2 × Action) := List.replicate 5 (i, .bcopy)

/-- One lookup after the other. -/
theorem ownAddress_of_guarded_example :
    ∃ c, Runs (Threads.Step (openClientfdTs twoHosts hosts))
      ⟨⟨none, ⟨.static, 0⟩, []⟩, fun _ => .socket⟩
      (lookup 0 5 ++ copyAddress 0 ++ lookup 1 6 ++ copyAddress 1) c ∧
      c.locals 1 = .connect 6 [10, 0, 0, 2] ∧
      OwnAddress twoHosts hosts c := by
  obtain ⟨c, hrun, hpc⟩ := exists_runs_of_runIf
    (Threads.Step (openClientfdTs twoHosts hosts))
    (fun c => c.locals 1) (.connect 6 [10, 0, 0, 2]) (fun _ _ _ h => h)
    (show (runIf (Undisturbed twoHosts hosts)
      (Threads.next (openClientfdTs twoHosts hosts))
      ⟨⟨none, ⟨.static, 0⟩, []⟩, fun _ => .socket⟩
      (lookup 0 5 ++ copyAddress 0 ++ lookup 1 6 ++ copyAddress 1)).map (fun c => c.locals 1) =
      some (.connect 6 [10, 0, 0, 2]) by decide +kernel)
  exact ⟨c, hrun.of_guarded, hpc, ownAddress_of_guarded _ _ hrun⟩

/-- A second lookup between `unlock` and `bcopy`: the first thread connects to the other host. -/
theorem exists_not_ownAddress :
    ∃ c, Runs (Threads.Step (openClientfdTs twoHosts hosts))
      ⟨⟨none, ⟨.static, 0⟩, []⟩, fun _ => .socket⟩ (lookup 0 5 ++ lookup 1 6 ++ copyAddress 0) c ∧
      c.locals 0 = .connect 5 [10, 0, 0, 2] ∧
      ¬ OwnAddress twoHosts hosts c := by
  obtain ⟨c, hrun, hpc⟩ := exists_runs_of_runIf
    (Threads.Step (openClientfdTs twoHosts hosts))
    (fun c => c.locals 0) (.connect 5 [10, 0, 0, 2]) (fun _ _ _ h => h)
    (show (runIf (fun _ _ => True)
      (Threads.next (openClientfdTs twoHosts hosts))
      ⟨⟨none, ⟨.static, 0⟩, []⟩, fun _ => .socket⟩ (lookup 0 5 ++ lookup 1 6 ++ copyAddress 0)).map
      (fun c => c.locals 0) = some (.connect 5 [10, 0, 0, 2]) by decide +kernel)
  refine ⟨c, hrun.of_guarded, hpc, fun hown => ?_⟩
  obtain ⟨e, he, haddr⟩ := hown.own 0 _ _ hpc
  obtain rfl := Option.some.inj he
  exact absurd haddr (by decide)

end SystemsLabs.Proxylab
