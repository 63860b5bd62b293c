import SystemsLabs.Malloclab.FirstFit
import SystemsLabs.Malloclab.Malloc
import SystemsLabs.Lib.Runs
import SystemsLabs.Lib.Except

/-!
# What the client of a package may rely on

`Client` is a program that uses some package: it calls `mm_malloc`, `mm_free` and `mm_realloc`, and
writes into the payloads it holds (`Request`). `Contract pkg Inv` says that the package keeps an
invariant `Inv` between its state and the live payloads, that the invariant gives what a client can
see (`Valid`: aligned payloads inside the heap that do not overlap), and that calls leave the bytes
of the other payloads alone. `ReallocServed` adds `mm_realloc`.

`Contract.runs` carries the invariant through every run.

**Assumptions.** The heap object starts at a multiple of 8 and ends below `2 ^ 32` (`HeapObject`).
Clients ask for at least one byte, and neither the rounding of a request nor the end of a block for
it wraps around (`Room`); they pass live pointers only, and write inside live payloads.
-/

namespace SystemsLabs.Malloclab

open SystemsLabs.Lib

/-- What a client asks for. -/
inductive Request
  /-- Call `mm_malloc(n)`. -/
  | malloc (n : ℕ)
  /-- Call `mm_free(p)`. -/
  | free (p : ℕ)
  /-- Call `mm_realloc(p, n)`. -/
  | realloc (p n : ℕ)
  /-- Write the byte `v` at `a`. -/
  | write (a : ℕ) (v : UInt8)

/-- The package and the pointers in the client's hands, each with the size it asked for. -/
structure Client where
  st : State
  live : List (ℕ × ℕ)

/-- Run one request. -/
def Client.exec (pkg : Package) (c : Client) : Request → Except Stop Client
  | .malloc n => do
    let (s, p) ← pkg.mmMalloc c.st n
    if p = NULL then return { c with st := s }
    return { st := s, live := (p, n) :: c.live }
  | .free p => do
    let s ← pkg.mmFree c.st p
    return { st := s, live := c.live.filter (·.1 ≠ p) }
  | .realloc p n => do
    let (s, q) ← pkg.mmRealloc c.st p n
    if q = NULL then return { c with st := s }
    return { st := s, live := (q, n) :: c.live.filter (·.1 ≠ p) }
  | .write a v => .ok { c with st := { c.st with mem := c.st.mem.store8 a v } }

/-- What a request for `n` bytes may at most take from `mem_sbrk`. -/
def demand (n : ℕ) : ℕ := max (adjust n) FirstFit.chunkSize

/-- The size of a request does not wrap around, nor does the end of a block for it. -/
def Room (s : State) (n : ℕ) : Prop := n + 15 < 2 ^ 32 ∧ NoWrap s (demand n)

instance (s : State) (n : ℕ) : Decidable (Room s n) :=
  inferInstanceAs (Decidable (_ ∧ (_ → _)))

/-- What a client may ask for: non-empty requests in range, releases of live pointers, and writes
inside live payloads. -/
def Client.Admissible (c : Client) : Request → Prop
  | .malloc n => 1 ≤ n ∧ Room c.st n
  | .free p => ∃ b ∈ c.live, b.1 = p
  | .realloc p n => (∃ b ∈ c.live, b.1 = p) ∧ 1 ≤ n ∧ Room c.st n
  | .write a _ => ∃ b ∈ c.live, b.1 ≤ a ∧ a < b.1 + b.2

instance (c : Client) : DecidablePred c.Admissible
  | .malloc _ => inferInstanceAs (Decidable (_ ∧ _))
  | .free p => inferInstanceAs (Decidable (∃ b ∈ c.live, b.1 = p))
  | .realloc p _ => inferInstanceAs (Decidable ((∃ b ∈ c.live, b.1 = p) ∧ _ ∧ _))
  | .write a _ => inferInstanceAs (Decidable (∃ b ∈ c.live, b.1 ≤ a ∧ a < b.1 + b.2))

/-- One admissible request that returns. -/
def Client.Step (pkg : Package) (c : Client) (r : Request) (c' : Client) : Prop :=
  c.Admissible r ∧ c.exec pkg r = .ok c'

/-- What a client can see of the heap. -/
structure Valid (s : State) (live : List (ℕ × ℕ)) : Prop where
  heap : HeapObject s
  start_le : s.memStartBrk + 16 ≤ s.memBrk
  brk_le : s.memBrk ≤ s.memMaxAddr
  payload : ∀ b ∈ live, b.1 % 8 = 0 ∧ s.memStartBrk + 16 ≤ b.1 ∧ b.1 + b.2 ≤ s.memBrk - 4
  disjoint : live.Pairwise fun b d => b.1 + b.2 ≤ d.1 ∨ d.1 + d.2 ≤ b.1
  nodup : (live.map Prod.fst).Nodup

/-- The heap may have grown, and the bytes of these payloads are the same. -/
structure Keeps (live : List (ℕ × ℕ)) (s s' : State) : Prop where
  start_eq : s'.memStartBrk = s.memStartBrk
  brk_le : s.memBrk ≤ s'.memBrk
  mem_eq : ∀ b ∈ live, ∀ a, b.1 ≤ a → a < b.1 + b.2 → s'.mem a = s.mem a

/-- The package serves its clients, with the invariant `Inv` between its state and the live
payloads. -/
structure Contract (pkg : Package) (Inv : State → List (ℕ × ℕ) → Prop) : Prop where
  valid {s live} : Inv s live → Valid s live
  init {s} : HeapObject s → s.memBrk = s.memStartBrk → ∃ s', pkg.mmInit s = .ok (s', 0) ∧
    Inv s' [] ∧ s'.memStartBrk = s.memStartBrk ∧
    s'.memBrk ≤ s.memStartBrk + 16 + FirstFit.chunkSize
  malloc {s live n} : Inv s live → 1 ≤ n → Room s n → ∃ s' p, pkg.mmMalloc s n = .ok (s', p) ∧
    Keeps live s s' ∧ s'.memBrk ≤ s.memBrk + demand n ∧
    (p = NULL → Inv s' live ∧ s.memMaxAddr < s.memBrk + demand n) ∧
    (p ≠ NULL → Inv s' ((p, n) :: live))
  free {s live p n} : Inv s live → (p, n) ∈ live → ∃ s', pkg.mmFree s p = .ok s' ∧
    Inv s' (live.filter (·.1 ≠ p)) ∧ Keeps (live.filter (·.1 ≠ p)) s s' ∧ s'.memBrk = s.memBrk
  write {s live p n m'} : Inv s live → (p, n) ∈ live →
    (∀ a, a < p ∨ p + n ≤ a → m' a = s.mem a) → Inv { s with mem := m' } live

/-- The package serves `mm_realloc`, or gives up: the other payloads are kept, and of the old one as
many bytes as fit. -/
structure ReallocServed (pkg : Package) (Inv : State → List (ℕ × ℕ) → Prop) : Prop where
  realloc {s live p n₀ n} : Inv s live → (p, n₀) ∈ live → 1 ≤ n → Room s n →
    (s.memMaxAddr < s.memBrk + demand n ∧ ∃ msg, pkg.mmRealloc s p n = .error (.exit msg)) ∨
    ∃ s' q, pkg.mmRealloc s p n = .ok (s', q) ∧ q ≠ NULL ∧
      Inv s' ((q, n) :: live.filter (·.1 ≠ p)) ∧ Keeps (live.filter (·.1 ≠ p)) s s' ∧
      s'.memBrk ≤ s.memBrk + demand n ∧ ∀ i, i < n₀ → i < n → s'.mem (q + i) = s.mem (p + i)

variable {pkg : Package} {Inv : State → List (ℕ × ℕ) → Prop} {c c₀ c' : Client} {r : Request}
  {rs : List Request} {s s' : State} {live : List (ℕ × ℕ)}

/-- A client that has just initialised the package on an empty heap. -/
def Client.Initial (pkg : Package) (c : Client) : Prop :=
  c.live = [] ∧ ∃ s, HeapObject s ∧ s.memBrk = s.memStartBrk ∧ pkg.mmInit s = .ok (c.st, 0)

/-! ## Computed runs -/

/-- `mem_init` and `mm_init`. -/
def Client.boot (pkg : Package) (start : ℕ) (bytes : Mem) : Option Client :=
  match pkg.mmInit (memInit start bytes) with
  | .ok (s, rc) => if rc = 0 then some ⟨s, []⟩ else none
  | .error _ => none

/-- Run a request that is admissible and returns. -/
def Client.next (pkg : Package) (c : Client) (r : Request) : Option Client :=
  if c.Admissible r then (c.exec pkg r).toOption else none

/-- A computed run from `mm_init` is a run from an initial state. -/
theorem Client.exists_run {β : Type*} (pkg : Package) (start : ℕ) (bytes : Mem) (rs : List Request)
    (obs : Client → β) (v : β) (hmod : start % 8 = 0) (hpos : 0 < start)
    (hlt : start + maxHeap < 2 ^ 32)
    (h : ((Client.boot pkg start bytes).bind fun c₀ =>
      runIf (fun _ _ => True) (Client.next pkg) c₀ rs).map obs = some v) :
    ∃ c₀ c, Client.boot pkg start bytes = some c₀ ∧ obs c = v ∧ c₀.Initial pkg ∧
      Runs (Client.Step pkg) c₀ rs c := by
  obtain ⟨c, hbind, hobs⟩ := Option.map_eq_some_iff.mp h
  obtain ⟨c₀, hboot, hrun⟩ := Option.bind_eq_some_iff.mp hbind
  have hnext : ∀ c r c', Client.next pkg c r = some c' → Client.Step pkg c r c' := by
    intro c r c' h
    unfold Client.next at h
    split_ifs at h with hadm
    refine ⟨hadm, ?_⟩
    cases hexec : c.exec pkg r with
    | error e => rw [hexec] at h; cases h
    | ok d => rw [hexec] at h; rw [Option.some_inj.mp h]
  refine ⟨c₀, c, hboot, hobs, ?_, (runs_of_runIf (Client.Step pkg) hnext hrun).of_guarded⟩
  unfold Client.boot at hboot
  cases hinit : pkg.mmInit (memInit start bytes) with
  | error e => rw [hinit] at hboot; cases hboot
  | ok res =>
    obtain ⟨s, rc⟩ := res
    rw [hinit] at hboot
    dsimp only at hboot
    split_ifs at hboot with hrc
    obtain rfl := Option.some_inj.mp hboot
    have hmax : add start maxHeap = start + maxHeap := add_eq hlt
    exact ⟨rfl, memInit start bytes, ⟨hmod, hpos, hmax, hmax.trans_lt hlt⟩, rfl, hrc ▸ hinit⟩

namespace Contract

/-- The invariant holds at the start. -/
theorem initial (h : Contract pkg Inv) (h₀ : c.Initial pkg) : Inv c.st c.live := by
  obtain ⟨hlive, s, hheap, hbrk, hinit⟩ := h₀
  obtain ⟨s', hinit', hinv, -⟩ := h.init hheap hbrk
  rw [hinit] at hinit'
  obtain ⟨rfl, -⟩ := Prod.mk.inj (Except.ok.inj hinit')
  rw [hlive]
  exact hinv

/-- **Every admissible request is served** (or `mm_realloc` gives up), and keeps the invariant. -/
theorem serves (h : Contract pkg Inv) (hre : ReallocServed pkg Inv) (hinv : Inv c.st c.live)
    (hadm : c.Admissible r) : (∃ msg, c.exec pkg r = .error (.exit msg)) ∨
      ∃ c', c.exec pkg r = .ok c' ∧ Inv c'.st c'.live := by
  cases r with
  | malloc n =>
    obtain ⟨s', p, hret, -, -, hnull, hsome⟩ := h.malloc hinv hadm.1 hadm.2
    right
    by_cases hp : p = NULL
    · exact ⟨{ c with st := s' }, by simp [Client.exec, hret, hp, ok_bind, pure, Except.pure],
        (hnull hp).1⟩
    · exact ⟨⟨s', (p, n) :: c.live⟩, by simp [Client.exec, hret, hp, ok_bind, pure, Except.pure],
        hsome hp⟩
  | free p =>
    obtain ⟨⟨q, n⟩, hq, rfl⟩ := hadm
    obtain ⟨s', hret, hinv', -⟩ := h.free hinv hq
    exact .inr ⟨⟨s', _⟩, by simp [Client.exec, hret, ok_bind, pure, Except.pure], hinv'⟩
  | realloc p n =>
    obtain ⟨⟨⟨q, n₀⟩, hq, rfl⟩, hn, hroom⟩ := hadm
    rcases hre.realloc hinv hq hn hroom with ⟨-, msg, hret⟩ | ⟨s', i, hret, hi, hinv', -⟩
    · left
      refine ⟨msg, ?_⟩
      simp [Client.exec, hret, Bind.bind, Except.bind]
    · exact .inr ⟨⟨s', _⟩, by simp [Client.exec, hret, hi, ok_bind, pure, Except.pure], hinv'⟩
  | write a v =>
    obtain ⟨⟨p, n⟩, hp, hlo, hhi⟩ := hadm
    refine .inr ⟨_, rfl, h.write hinv hp fun b hb => Mem.store8_apply_of_ne ?_⟩
    dsimp only at hlo hhi
    omega

/-- **The invariant holds in every state that a client can reach.** -/
theorem runs (h : Contract pkg Inv) (hre : ReallocServed pkg Inv) (h₀ : c₀.Initial pkg)
    (hrun : Runs (Client.Step pkg) c₀ rs c) : Inv c.st c.live := by
  refine hrun.invariant (I := fun c => Inv c.st c.live) ?_ (h.initial h₀)
  rintro c r c' hinv ⟨hadm, hexec⟩
  rcases h.serves hre hinv hadm with ⟨msg, herr⟩ | ⟨d, hok, hinv'⟩
  · rw [hexec] at herr
    cases herr
  · rw [hexec] at hok
    obtain rfl := Except.ok.inj hok
    exact hinv'

end Contract

end SystemsLabs.Malloclab
