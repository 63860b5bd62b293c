import SystemsLabs.Malloclab.Malloc
import SystemsLabs.Lib.Runs

/-!
# Runs of a client against the allocator

A client calls `mm_malloc`, calls `mm_free` on a live pointer, or writes a byte of a live payload
(`Op`, `Admissible`). `Config` holds the state of the package together with what the client knows:
the live blocks, each with the size it was requested for, and the blocks that were freed or split
off and not handed out again. Both are read off the calls and the block headers, not off the free
list.

`Abs` ties a configuration to a layout, `Abs.step` shows that every admissible operation returns
and steps the layout, and `exists_abs` carries this through every run from `mm_init`.

**Assumptions.** The heap object starts at a multiple of 8 and ends below `2 ^ 32`
(`Config.Initial`); its first contents may be anything. Clients keep to the interface: they ask for
at least one byte, release live pointers only, and write inside live payloads. Neither the rounding
of a request nor the end of a block for it wraps around (`NoWrap`). `mm_realloc` is left out; it is
the subject of `Realloc` and `ReallocFailure`.
-/

namespace SystemsLabs.Malloclab

open SystemsLabs.Lib

/-! ## Operations and configurations -/

/-- What a client does. -/
inductive Op
  /-- Call `mm_malloc(n)`. -/
  | malloc (n : ℕ)
  /-- Call `mm_free(p)`. -/
  | free (p : ℕ)
  /-- Write the byte `v` at `a`. -/
  | write (a : ℕ) (v : UInt8)

/-- The package and what the client knows about its blocks. -/
structure Config where
  /-- The state of the package. -/
  st : State
  /-- The pointers in the client's hands, each with the size it asked for. -/
  live : List (ℕ × ℕ)
  /-- The blocks freed or split off and not handed out again since. -/
  freed : List ℕ

/-- The size in the header of the block at `p`. -/
def blockSize (s : State) (p : ℕ) : ℕ := (getSize s (hdrp p)).getD 0

/-- The block split off when `p` is handed out again: the part past its new size, if a block fits
there. -/
def Config.splitOff (c : Config) (s' : State) (p : ℕ) : List ℕ :=
  if p ∈ c.freed ∧ blockSize s' p + minBlockSize ≤ blockSize c.st p then [p + blockSize s' p]
  else []

/-- Run one operation. -/
def Config.exec (c : Config) : Op → Option Config
  | .malloc n => do
    let (s', p) ← mmMalloc c.st n
    if p = NULL then return { c with st := s' }
    return { st := s', live := (p, n) :: c.live,
             freed := c.splitOff s' p ++ c.freed.filter (· ≠ p) }
  | .free p => do
    let s' ← mmFree c.st p
    return { st := s', live := c.live.filter (·.1 ≠ p), freed := p :: c.freed }
  | .write a v => some { c with st := { c.st with mem := c.st.mem.store8 a v } }

/-- What a client may do: non-empty requests whose size and address arithmetic does not wrap
around, releases of live pointers, and writes inside live payloads. -/
def Admissible (c : Config) : Op → Prop
  | .malloc n => 1 ≤ n ∧ n + 15 < 2 ^ 32 ∧ NoWrap c.st (adjust n)
  | .free p => ∃ b ∈ c.live, b.1 = p
  | .write a _ => ∃ b ∈ c.live, b.1 ≤ a ∧ a < b.1 + b.2

instance (c : Config) : DecidablePred (Admissible c)
  | .malloc _ => inferInstanceAs (Decidable (_ ∧ _))
  | .free p => inferInstanceAs (Decidable (∃ b ∈ c.live, b.1 = p))
  | .write a _ => inferInstanceAs (Decidable (∃ b ∈ c.live, b.1 ≤ a ∧ a < b.1 + b.2))

/-- One admissible operation. -/
def Step (c : Config) (op : Op) (c' : Config) : Prop := Admissible c op ∧ c.exec op = some c'

/-- `mem_init` and `mm_init`. -/
def Config.boot (start : ℕ) (bytes : Mem) : Option Config := do
  let (s, rc) ← mmInit (memInit start bytes)
  if rc < 0 then none else some { st := s, live := [], freed := [] }

/-- The configuration after `mm_init` on an empty heap: an 8-aligned object of `MAX_HEAP` bytes
somewhere in the address space, holding any bytes. -/
def Config.Initial (c : Config) : Prop :=
  ∃ start bytes, start % 8 = 0 ∧ start + maxHeap < 2 ^ 32 ∧ Config.boot start bytes = some c

/-- Perform an admissible operation. -/
def Config.next (c : Config) (op : Op) : Option Config :=
  if Admissible c op then c.exec op else none

section runIf

variable (Cond : Config → Op → Prop) [∀ c, DecidablePred (Cond c)]

/-- A computed run from `mm_init` is a run from an initial configuration. -/
theorem exists_run {β : Type*} (start : ℕ) (bytes : Mem) (ops : List Op) (obs : Config → β) (v : β)
    (hmod : start % 8 = 0) (hlt : start + maxHeap < 2 ^ 32)
    (h : ((Config.boot start bytes).bind fun c₀ => runIf Cond Config.next c₀ ops).map obs =
      some v) :
    ∃ c₀ c, Config.boot start bytes = some c₀ ∧ obs c = v ∧ c₀.Initial ∧
      Runs (Guarded Cond Step) c₀ ops c := by
  obtain ⟨c, hbind, hobs⟩ := Option.map_eq_some_iff.mp h
  obtain ⟨c₀, hboot, hrun⟩ := Option.bind_eq_some_iff.mp hbind
  have hnext : ∀ c op c', c.next op = some c' → Step c op c' := by
    intro c op c' h
    unfold Config.next at h
    split_ifs at h with hadm
    exact ⟨hadm, h⟩
  exact ⟨c₀, c, hboot, hobs, ⟨start, bytes, hmod, hlt, hboot⟩, runs_of_runIf Step hnext hrun⟩

end runIf

/-! ## Configurations and layouts -/

/-- Some segment of the layout has this kind and this pointer. -/
def Holds (segs : List Seg) (k : Kind) (p : ℕ) : Prop := ∃ x ∈ segs, x.kind = k ∧ x.ptr = p

section holds

variable {s : State} {segs l₁ l₂ : List Seg} {x : Seg} {k : Kind} {p : ℕ}

/-- No block, no payload. -/
@[simp] theorem not_holds_nil : ¬ Holds [] k p := by simp [Holds]

/-- The first block holds the payload, or another one. -/
@[simp] theorem holds_cons : Holds (x :: segs) k p ↔ (x.kind = k ∧ x.ptr = p) ∨ Holds segs k p := by
  simp [Holds]

/-- A block of the one list holds the payload, or one of the other. -/
@[simp] theorem holds_append : Holds (l₁ ++ l₂) k p ↔ Holds l₁ k p ∨ Holds l₂ k p := by
  simp [Holds, or_and_right, exists_or]

/-- A block pointer belongs to one segment only. -/
theorem Blocks.not_holds (h : Blocks s (l₁ ++ x :: l₂)) :
    ¬ Holds l₁ k x.ptr ∧ ¬ Holds l₂ k x.ptr := by
  have htiles := h.tiles.split
  refine ⟨?_, ?_⟩
  · rintro ⟨y, hy, -, hptr⟩
    have hb := htiles.1.bounds hy
    have hs := y.size_ge
    omega
  · rintro ⟨y, hy, -, hptr⟩
    have hb := htiles.2.bounds hy
    have hs := x.size_ge
    omega

/-- The segments of a kind without the one at `x.ptr`. -/
theorem Blocks.holds_ne_iff (h : Blocks s (l₁ ++ x :: l₂)) :
    p ≠ x.ptr ∧ Holds (l₁ ++ x :: l₂) k p ↔ Holds l₁ k p ∨ Holds l₂ k p := by
  obtain ⟨h₁, h₂⟩ := h.not_holds (k := k)
  simp only [holds_append, holds_cons]
  constructor
  · rintro ⟨hne, hl | ⟨-, hx⟩ | hl⟩
    · exact Or.inl hl
    · exact absurd hx.symm hne
    · exact Or.inr hl
  · rintro (hl | hl)
    · exact ⟨fun hp => h₁ (hp ▸ hl), Or.inl hl⟩
    · exact ⟨fun hp => h₂ (hp ▸ hl), Or.inr (Or.inr hl)⟩

end holds

/-- The configuration `c` stands for the layout `segs` with free list `L`. -/
structure Abs (c : Config) (segs L : List Seg) : Prop where
  rep : Rep c.st segs L
  live : ∀ p n, (p, n) ∈ c.live ↔ Holds segs (.live n) p
  live_nodup : (c.live.map Prod.fst).Nodup
  freed : ∀ p, p ∈ c.freed ↔ Holds segs .free p

/-- What an operation does to a layout whose heap ends at `brk`. -/
inductive LayoutStep (segs L : List Seg) (brk : ℕ) : Op → List Seg → List Seg → Prop
  | malloc {n p : ℕ} {segs' L' : List Seg} : MallocStep segs L brk n p segs' L' →
      LayoutStep segs L brk (.malloc n) segs' L'
  | free {p : ℕ} {segs' L' : List Seg} : FreeStep segs L p segs' L' →
      LayoutStep segs L brk (.free p) segs' L'
  | write {a : ℕ} {v : UInt8} : LayoutStep segs L brk (.write a v) segs L

variable {c c₀ c' : Config} {op : Op} {ops : List Op} {s : State} {segs L segs' L' : List Seg}
  {x : Seg} {n m p q : ℕ}

/-! ## What a request does to the blocks -/

namespace MallocStep

/-- A request that is served hands out a block. -/
theorem handed (h : MallocStep segs L s.memBrk n p segs' L') (hp : p ≠ NULL) :
    ∃ x ∈ segs', Handed n p x := by
  cases h with
  | null => exact absurd rfl hp
  | grow x hx => exact ⟨x, by simp, hx⟩
  | exact l₁ l₂ L₁ L₂ f x hsegs hL hbest hsize hx => exact ⟨x, by simp, hx⟩
  | drop l₁ l₂ L₁ L₂ f x r hsegs hL hbest hsize hx => exact ⟨x, by simp, hx⟩
  | split l₁ l₂ L₁ L₂ L₃ L₄ f x r hsegs hL hbest hsize hx => exact ⟨x, by simp, hx⟩

/-- A request that is not served leaves the layout as it is. -/
theorem eq_of_null (h : MallocStep segs L s.memBrk n p segs' L') (hr : Rep s segs L)
    (hp : p = NULL) : segs' = segs ∧ L' = L := by
  have hfree : ∀ f, BestFit L (adjust n) f → f.ptr ≠ NULL := fun f hf =>
    hr.blocks.ptr_ne_null (hr.mem_segs hf.mem)
  cases h with
  | null => exact ⟨rfl, rfl⟩
  | grow x hx =>
      have hle : s.memStartBrk + 16 ≤ s.memBrk := hr.blocks.tiles.le
      simp only [NULL] at hp
      omega
  | exact l₁ l₂ L₁ L₂ f x hsegs hL hbest => exact absurd hp (hfree f hbest)
  | drop l₁ l₂ L₁ L₂ f x r hsegs hL hbest => exact absurd hp (hfree f hbest)
  | split l₁ l₂ L₁ L₂ L₃ L₄ f x r hsegs hL hbest => exact absurd hp (hfree f hbest)

/-- The pointer handed out is that of a best fit, or the break if there is none. -/
theorem fit_or_top (h : MallocStep segs L s.memBrk n p segs' L') (hp : p ≠ NULL) :
    (∃ f, BestFit L (adjust n) f ∧ f.ptr = p) ∨ p = s.memBrk := by
  cases h with
  | null => exact absurd rfl hp
  | grow x hx => exact Or.inr rfl
  | exact l₁ l₂ L₁ L₂ f x hsegs hL hbest => exact Or.inl ⟨f, hbest, rfl⟩
  | drop l₁ l₂ L₁ L₂ f x r hsegs hL hbest => exact Or.inl ⟨f, hbest, rfl⟩
  | split l₁ l₂ L₁ L₂ L₃ L₄ f x r hsegs hL hbest => exact Or.inl ⟨f, hbest, rfl⟩

/-- The pointer handed out is not live. -/
theorem not_live (h : MallocStep segs L s.memBrk n p segs' L') (hr : Rep s segs L) (hp : p ≠ NULL) :
    ¬ Holds segs (.live m) p := by
  rintro ⟨y, hy, hkind, hptr⟩
  rcases h.fit_or_top hp with ⟨f, hbest, hf⟩ | htop
  · have hfree := hr.mem_list.mp hbest.mem
    have heq : y = f := hr.blocks.eq_of_ptr_eq hy hfree.1 (hptr.trans hf.symm)
    rw [Seg.isFree_iff, ← heq, hkind] at hfree
    exact absurd hfree.2 (by simp)
  · have hb := hr.blocks.bounds hy
    have hs := y.size_ge
    omega

/-- The live blocks after a request: those before it and the one handed out. -/
theorem live_iff (h : MallocStep segs L s.memBrk n p segs' L') (hr : Rep s segs L) (hp : p ≠ NULL) :
    Holds segs' (.live m) q ↔ (q = p ∧ m = n) ∨ Holds segs (.live m) q := by
  have hfree : ∀ {f : Seg}, BestFit L (adjust n) f → f.kind = .free := fun hf =>
    Seg.isFree_iff.mp (hr.mem_list.mp hf.mem).2
  cases h with
  | null => exact absurd rfl hp
  | grow x hx =>
      simp only [holds_append, holds_cons, not_holds_nil, hx.kind, hx.ptr, Kind.live.injEq]
      grind
  | exact l₁ l₂ L₁ L₂ f x hsegs hL hbest hsize hx =>
      simp only [hsegs, holds_append, holds_cons, hx.kind, hx.ptr, hfree hbest, Kind.live.injEq,
        reduceCtorEq]
      grind
  | drop l₁ l₂ L₁ L₂ f x r hsegs hL hbest hsize hx hrest =>
      simp only [hsegs, holds_append, holds_cons, hx.kind, hx.ptr, hfree hbest, hrest,
        Kind.live.injEq, reduceCtorEq]
      grind
  | split l₁ l₂ L₁ L₂ L₃ L₄ f x r hsegs hL hbest hsize hx hrest =>
      simp only [hsegs, holds_append, holds_cons, hx.kind, hx.ptr, hfree hbest, hrest,
        Kind.live.injEq, reduceCtorEq]
      grind

/-- The free blocks after a request: those before it without the one handed out, and the part split
off if it is large enough for a block. -/
theorem free_iff (h : MallocStep segs L s.memBrk n p segs' L') (hr : Rep s segs L) (hp : p ≠ NULL) :
    Holds segs' .free q ↔ (q ≠ p ∧ Holds segs .free q) ∨
      ∃ f ∈ segs, f.kind = .free ∧ f.ptr = p ∧ adjust n + 16 ≤ f.size ∧ q = p + adjust n := by
  have hblocks := hr.blocks
  -- the second alternative, once the block at `p` is known
  have hsplit : ∀ {f : Seg}, BestFit L (adjust n) f →
      ((∃ g ∈ segs, g.kind = .free ∧ g.ptr = f.ptr ∧ adjust n + 16 ≤ g.size ∧
        q = f.ptr + adjust n) ↔ adjust n + 16 ≤ f.size ∧ q = f.ptr + adjust n) := by
    intro f hf
    obtain ⟨hmem, hfree⟩ := hr.mem_list.mp hf.mem
    constructor
    · rintro ⟨g, hg, -, hptr, hsize, hq⟩
      rw [hblocks.eq_of_ptr_eq hg hmem hptr] at hsize
      exact ⟨hsize, hq⟩
    · rintro ⟨hsize, hq⟩
      exact ⟨f, hmem, Seg.isFree_iff.mp hfree, rfl, hsize, hq⟩
  cases h with
  | null => exact absurd rfl hp
  | grow x hx =>
      have htop : ∀ y ∈ segs, y.ptr ≠ s.memBrk := by
        intro y hy hptr
        have hb := hblocks.bounds hy
        have hs := y.size_ge
        omega
      simp only [holds_append, holds_cons, not_holds_nil, hx.kind, reduceCtorEq, false_and,
        or_false]
      constructor
      · intro hq
        obtain ⟨y, hy, -, hptr⟩ := id hq
        exact Or.inl ⟨hptr ▸ htop y hy, hq⟩
      · rintro (⟨-, hq⟩ | ⟨y, hy, -, hptr, -⟩)
        · exact hq
        · exact absurd hptr (htop y hy)
  | exact l₁ l₂ L₁ L₂ f x hsegs hL hbest hsize hx =>
      have hno : ¬ adjust n + 16 ≤ f.size := by omega
      rw [hsplit hbest]
      subst hsegs
      rw [hblocks.holds_ne_iff]
      simp only [holds_append, holds_cons, hx.kind, hno, reduceCtorEq, false_and, false_or,
        or_false]
  | drop l₁ l₂ L₁ L₂ f x r hsegs hL hbest hsize hx hrest =>
      have hno : ¬ adjust n + 16 ≤ f.size := by omega
      rw [hsplit hbest]
      subst hsegs
      rw [hblocks.holds_ne_iff]
      simp only [holds_append, holds_cons, hx.kind, hrest, hno, reduceCtorEq, false_and, false_or,
        or_false]
  | split l₁ l₂ L₁ L₂ L₃ L₄ f x r hsegs hL hbest hsize hx hrest hptr =>
      rw [hsplit hbest]
      subst hsegs
      rw [hblocks.holds_ne_iff]
      simp only [holds_append, holds_cons, hx.kind, hrest, hptr, reduceCtorEq, false_and, false_or,
        true_and, hsize]
      grind

end MallocStep

/-! ## Every operation returns and steps the layout -/

/-- `blockSize` of a block is its size. -/
theorem Blocks.blockSize_eq (h : Blocks s segs) (hx : x ∈ segs) (hb : x.IsBlock) :
    blockSize s x.ptr = x.size := by
  unfold blockSize
  rw [h.getSize_eq hx hb, Option.getD_some]

/-- A live payload lies in the extent of its block, between the tags. -/
theorem Abs.payload (h : Abs c segs L) (hp : (p, n) ∈ c.live) :
    ∃ x ∈ segs, x.kind = .live n ∧ x.ptr = p ∧ n + 8 ≤ x.size := by
  obtain ⟨x, hx, hkind, hptr⟩ := (h.live p n).mp hp
  exact ⟨x, hx, hkind, hptr, Seg.live_size hkind⟩

/-- A request. -/
theorem Abs.malloc (h : Abs c segs L) (hn : n + 15 < 2 ^ 32) (hwrap : NoWrap c.st (adjust n)) :
    ∃ c' p segs' L', c.exec (.malloc n) = some c' ∧ mmMalloc c.st n = some (c'.st, p) ∧
      Abs c' segs' L' ∧ MallocStep segs L c.st.memBrk n p segs' L' ∧
      c'.st.memStartBrk = c.st.memStartBrk ∧
      (∀ f, BestFit L (adjust n) f → f.ptr = p → f.size = adjust n + 8 →
        c'.st.mem.load32 (p + adjust n) = f.size) ∧
      ∀ p n, (p, n) ∈ c.live → (p, n) ∈ c'.live ∧
        ∀ a, p ≤ a → a < p + n → c'.st.mem a = c.st.mem a := by
  obtain ⟨s', p, segs', L', hret, hrep, hstep, hlo, hnull, hfooter, hframe⟩ :=
    mmMalloc_spec h.rep hn hwrap
  have hkeep : ∀ q m, (q, m) ∈ c.live → ∀ a, q ≤ a → a < q + m → s'.mem a = c.st.mem a := by
    intro q m hq a hlo' hhi
    obtain ⟨x, hx, hkind, rfl, hsize⟩ := h.payload hq
    have hb := h.rep.blocks.bounds hx
    apply hframe a (by omega)
    intro w hw hfree hext
    have hne : x ≠ w := by
      rintro rfl
      rw [Seg.isFree_iff, hkind] at hfree
      exact absurd hfree (by simp)
    refine h.rep.blocks.not_extent hx hw hne ?_ hext
    unfold Seg.Extent
    omega
  by_cases hp : p = NULL
  · obtain rfl := hnull hp
    obtain ⟨rfl, rfl⟩ := hstep.eq_of_null h.rep hp
    exact ⟨c, p, _, _, by simp [Config.exec, hret, hp], hret, h, hstep, rfl, hfooter,
      fun q m hq => ⟨hq, fun _ _ _ => rfl⟩⟩
  · obtain ⟨x, hx, hhand⟩ := hstep.handed hp
    have hxb : x.IsBlock := by simp [Seg.IsBlock, hhand.kind]
    have hsize' : blockSize s' p = adjust n := by
      rw [← hhand.ptr, hrep.blocks.blockSize_eq hx hxb, hhand.size]
    have hsplit : ∀ q, q ∈ c.splitOff s' p ↔ ∃ f ∈ segs, f.kind = .free ∧ f.ptr = p ∧
        adjust n + 16 ≤ f.size ∧ q = p + adjust n := by
      intro q
      have hsize : ∀ f ∈ segs, f.kind = .free → f.ptr = p → blockSize c.st p = f.size := by
        intro f hf hkind hptr
        rw [← hptr, h.rep.blocks.blockSize_eq hf (by simp [Seg.IsBlock, hkind])]
      unfold Config.splitOff
      rw [hsize']
      constructor
      · intro hq
        split_ifs at hq with hcond
        · obtain ⟨f, hf, hkind, hptr⟩ := (h.freed p).mp hcond.1
          have hle := hcond.2
          rw [hsize f hf hkind hptr] at hle
          exact ⟨f, hf, hkind, hptr, hle, List.mem_singleton.mp hq⟩
        · exact absurd hq List.not_mem_nil
      · rintro ⟨f, hf, hkind, hptr, hle, rfl⟩
        have hfreed : p ∈ c.freed := (h.freed p).mpr ⟨f, hf, hkind, hptr⟩
        rw [if_pos ⟨hfreed, by rwa [hsize f hf hkind hptr]⟩]
        exact List.mem_singleton_self _
    refine ⟨{ st := s', live := (p, n) :: c.live,
              freed := c.splitOff s' p ++ c.freed.filter (· ≠ p) }, p, segs', L',
      by simp [Config.exec, hret, hp], hret, ⟨hrep, ?_, ?_, ?_⟩, hstep, hlo, hfooter,
      fun q m hq => ⟨List.mem_cons_of_mem _ hq, hkeep q m hq⟩⟩
    · intro q m
      rw [hstep.live_iff h.rep hp, ← h.live, List.mem_cons, Prod.mk.injEq]
    · rw [List.map_cons, List.nodup_cons]
      refine ⟨fun hmem => ?_, h.live_nodup⟩
      obtain ⟨⟨q, m⟩, hq, rfl⟩ := List.mem_map.mp hmem
      exact hstep.not_live h.rep hp ((h.live q m).mp hq)
    · intro q
      rw [hstep.free_iff h.rep hp, ← h.freed, List.mem_append, hsplit, List.mem_filter,
        decide_eq_true_iff, or_comm, and_comm]

/-- A release. -/
theorem Abs.free (h : Abs c segs L) (hp : (p, n) ∈ c.live) :
    ∃ c' segs' L', c.exec (.free p) = some c' ∧ Abs c' segs' L' ∧
      LayoutStep segs L c.st.memBrk (.free p) segs' L' ∧
      c'.st.memStartBrk = c.st.memStartBrk ∧
      ∀ q m, (q, m) ∈ c.live → q ≠ p → (q, m) ∈ c'.live ∧
        ∀ a, q ≤ a → a < q + m → c'.st.mem a = c.st.mem a := by
  obtain ⟨x, hx, hkind, rfl⟩ := (h.live p n).mp hp
  obtain ⟨s', segs', L', hret, hrep, hstep, hsame, hframe⟩ := mmFree_spec h.rep hx hkind
  have hother : ∀ y ∈ segs, ∀ m, y.kind = .live m → y.ptr ≠ x.ptr → ∀ a, y.ptr ≤ a →
      a < y.ptr + m → s'.mem a = c.st.mem a := by
    intro y hy m hykind hne a hlo hhi
    have hsize := Seg.live_size hykind
    have hb := h.rep.blocks.bounds hy
    apply hframe a
    intro w hw hcase hext
    have hyw : y ≠ w := by
      rintro rfl
      rcases hcase with hfree | rfl
      · rw [Seg.isFree_iff, hykind] at hfree
        exact absurd hfree (by simp)
      · exact hne rfl
    refine h.rep.blocks.not_extent hy hw hyw ?_ hext
    unfold Seg.Extent
    omega
  refine ⟨{ st := s', live := c.live.filter (·.1 ≠ x.ptr), freed := x.ptr :: c.freed }, segs', L',
    by simp [Config.exec, hret], ⟨hrep, ?_, ?_, ?_⟩, .free hstep, hsame.1, ?_⟩
  · intro q m
    obtain ⟨l₁, l₂, L₁, L₂, y, f, k, hsegs, hL, hy, hptr, hf, hfptr, hfsize⟩ := hstep
    subst hsegs
    rw [List.mem_filter, decide_eq_true_iff, h.live, and_comm, ← hptr,
      h.rep.blocks.holds_ne_iff]
    simp only [holds_append, holds_cons, hf, reduceCtorEq, false_and, false_or]
  · exact h.live_nodup.sublist (List.filter_sublist.map _)
  · intro q
    obtain ⟨l₁, l₂, L₁, L₂, y, f, k, hsegs, hL, hy, hptr, hf, hfptr, hfsize⟩ := hstep
    subst hsegs
    simp only [List.mem_cons, h.freed, holds_append, holds_cons, hf, hy, hfptr, hptr, reduceCtorEq,
      false_and, false_or, true_and, eq_comm (a := q)]
    grind
  · intro q m hq hne
    obtain ⟨y, hy, hykind, rfl⟩ := (h.live q m).mp hq
    exact ⟨List.mem_filter.mpr ⟨hq, by simpa using hne⟩, hother y hy m hykind hne⟩

/-- A write inside a live payload. -/
theorem Abs.write (h : Abs c segs L) (hp : (p, n) ∈ c.live) {a : ℕ} (hlo : p ≤ a) (hhi : a < p + n)
    (v : UInt8) : Abs { c with st := { c.st with mem := c.st.mem.store8 a v } } segs L where
  rep := by
    obtain ⟨x, hx, hkind, rfl, hsize⟩ := h.payload hp
    have hb := h.rep.blocks.bounds hx
    apply h.rep.of_mem
    · intro b h₁ h₂
      exact Mem.store8_apply_of_ne (by omega)
    · intro b h₁ h₂
      exact Mem.store8_apply_of_ne (by omega)
    · intro y hy b hmeta
      apply Mem.store8_apply_of_ne
      rintro rfl
      have hext := hmeta.extent
      have hb' := h.rep.blocks.bounds hy
      rcases h.rep.blocks.disjoint hx hy with rfl | hd | hd
      · rcases hmeta with ⟨-, htag⟩ | ⟨hfree, -⟩
        · unfold Seg.TagByte at htag
          omega
        · rw [Seg.isFree_iff, hkind] at hfree
          exact absurd hfree (by simp)
      · omega
      · omega
  live := h.live
  live_nodup := h.live_nodup
  freed := h.freed

/-- **Every admissible operation returns and steps the layout.** -/
theorem Abs.step (h : Abs c segs L) (ha : Admissible c op) :
    ∃ c' segs' L', c.exec op = some c' ∧ Abs c' segs' L' ∧
      LayoutStep segs L c.st.memBrk op segs' L' ∧ c'.st.memStartBrk = c.st.memStartBrk := by
  cases op with
  | malloc n =>
      obtain ⟨c', p, segs', L', hexec, -, habs, hstep, hlo, -⟩ := h.malloc ha.2.1 ha.2.2
      exact ⟨c', segs', L', hexec, habs, .malloc hstep, hlo⟩
  | free p =>
      obtain ⟨⟨q, n⟩, hp, rfl⟩ := ha
      obtain ⟨c', segs', L', hexec, habs, hstep, hlo, -⟩ := h.free hp
      exact ⟨c', segs', L', hexec, habs, hstep, hlo⟩
  | write a v =>
      obtain ⟨⟨p, n⟩, hp, hlo, hhi⟩ := ha
      exact ⟨_, segs, L, rfl, h.write hp hlo hhi v, .write, rfl⟩

/-- A step of the client steps the layout. -/
theorem Abs.of_step (h : Abs c segs L) (hs : Step c op c') :
    ∃ segs' L', Abs c' segs' L' ∧ LayoutStep segs L c.st.memBrk op segs' L' := by
  obtain ⟨d, segs', L', hexec, habs, hstep, -⟩ := h.step hs.1
  rw [hs.2, Option.some_inj] at hexec
  exact ⟨segs', L', hexec ▸ habs, hstep⟩

/-- After `mm_init` the layout is empty. -/
theorem Config.Initial.abs (h : c.Initial) : Abs c [] [] := by
  obtain ⟨start, bytes, hmod, hlt, hboot⟩ := h
  obtain ⟨s, hret, hrep, -⟩ := mmInit_spec bytes hmod hlt
  have hc : Config.boot start bytes = some { st := s, live := [], freed := [] } := by
    simp [Config.boot, hret]
  obtain rfl := Option.some_inj.mp (hboot.symm.trans hc)
  exact ⟨hrep, by simp, by simp, by simp⟩

/-- **Every reachable configuration stands for a layout.** -/
theorem exists_abs (h₀ : c₀.Initial) (hrun : Runs Step c₀ ops c) : ∃ segs L, Abs c segs L := by
  refine hrun.invariant (I := fun c => ∃ segs L, Abs c segs L) ?_ ⟨[], [], h₀.abs⟩
  rintro c op c' ⟨segs, L, habs⟩ hs
  obtain ⟨segs', L', habs', -⟩ := habs.of_step hs
  exact ⟨segs', L', habs'⟩

end SystemsLabs.Malloclab
