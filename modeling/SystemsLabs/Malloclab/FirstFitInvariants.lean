import SystemsLabs.Malloclab.FirstFitRuns

/-!
# What holds of the heap of `mm-firstfit.c` in every reachable state

* `served_and_kept` — payloads are aligned, inside the heap and apart; every request is served or
  runs out of memory; and no call changes a byte of a payload that stays live, nor `mm_realloc` the
  bytes that it moves.
* `checkheap_silent` — `mm_checkheap` has nothing to report.
* `free_le_live` — no two free blocks are neighbours, so that there is at most one free block more
  than there are live ones.
* `first_fit` — which block a request gets, read off the walk through the heap.
* `live_unique` — the pointers handed out do not depend on any byte of memory.

**Assumptions.** The requests are admissible (`Client.Admissible`): clients keep to the interface,
and no request wraps around.
-/

namespace SystemsLabs.Malloclab.FirstFit

open SystemsLabs.Lib

variable {s s' : State} {segs segs' l₁ l₂ l₁' l₂' new : List Seg} {f x y z : Seg}
  {live : List (ℕ × ℕ)} {a b n n₀ m i j p q maxAddr : ℕ} {c c₀ c' d d₀ : Client} {r : Request}
  {rs rs' : List Request}

/-! ## One request -/

/-- What a request does to the layout of a heap that starts at `start`, and to the live pointers. -/
inductive AbsStep (start : ℕ) :
    List Seg × List (ℕ × ℕ) → Request → List Seg × List (ℕ × ℕ) → Prop
  | malloc {segs segs' : List Seg} {live : List (ℕ × ℕ)} {brk n i : ℕ} :
      Tiles Seg.ptr Seg.size (start + 16) segs brk →
      MallocStep segs brk (start + maxHeap) n i segs' →
      AbsStep start (segs, live) (.malloc n) (segs', if i = NULL then live else (i, n) :: live)
  | free {segs segs' : List Seg} {live : List (ℕ × ℕ)} {brk p : ℕ} :
      Tiles Seg.ptr Seg.size (start + 16) segs brk → FreeStep segs p segs' →
      AbsStep start (segs, live) (.free p) (segs', live.filter (·.1 ≠ p))
  | realloc {segs segs₁ segs' : List Seg} {live : List (ℕ × ℕ)} {brk brk₁ n p q : ℕ} :
      Tiles Seg.ptr Seg.size (start + 16) segs brk →
      MallocStep segs brk (start + maxHeap) n q segs₁ → q ≠ NULL →
      Tiles Seg.ptr Seg.size (start + 16) segs₁ brk₁ → FreeStep segs₁ p segs' →
      AbsStep start (segs, live) (.realloc p n) (segs', (q, n) :: live.filter (·.1 ≠ p))
  | write {segs : List Seg} {live : List (ℕ × ℕ)} {a : ℕ} {v : UInt8} :
      AbsStep start (segs, live) (.write a v) (segs, live)

/-- The payloads that a request does not touch. -/
def untouched (live : List (ℕ × ℕ)) : Request → List (ℕ × ℕ)
  | .malloc _ => live
  | .free p => live.filter (·.1 ≠ p)
  | .realloc p _ => live.filter (·.1 ≠ p)
  | .write _ _ => []

/-- A live pointer has one size. -/
theorem Abs.size_unique (h : Abs s live segs) (hn : (p, n) ∈ live) (hm : (p, m) ∈ live) :
    n = m := by
  obtain ⟨x, hx, hxk, hxp, -⟩ := h.payload hn
  obtain ⟨y, hy, hyk, hyp, -⟩ := h.payload hm
  obtain rfl := h.rep.blocks.eq_of_ptr_eq hx hy (hxp.trans hyp.symm)
  exact Kind.live.inj (hxk.symm.trans hyk)

/-- **One request.** It is served and steps the layout, or it is an `mm_realloc` that finds no
memory. -/
theorem Abs.exec (h : Abs c.st c.live segs) (hadm : c.Admissible r) :
    (∃ p n, r = .realloc p n ∧ mmMalloc c.st n = some (c.st, NULL) ∧ c.exec firstFit r =
      .error (.exit "ERROR: mm_malloc failed in mm_realloc")) ∨
    ∃ c' segs', c.exec firstFit r = .ok c' ∧ Abs c'.st c'.live segs' ∧
      AbsStep c.st.memStartBrk (segs, c.live) r (segs', c'.live) ∧
      c'.st.memStartBrk = c.st.memStartBrk ∧ Keeps (untouched c.live r) c.st c'.st ∧
      ∀ p n, r = .realloc p n → ∃ q, (q, n) ∈ c'.live ∧ ∀ n₀, (p, n₀) ∈ c.live →
        ∀ t, t < n₀ → t < n → c'.st.mem (q + t) = c.st.mem (p + t) := by
  have ht := h.rep.blocks.tiles
  cases r with
  | malloc n =>
    obtain ⟨s', i, segs', hret, hstep, hkeep, -, hnull, habs⟩ := h.malloc hadm.2
    rw [h.heap.max_eq] at hstep
    right
    by_cases hi : i = NULL
    · obtain ⟨rfl, rfl⟩ := hnull hi
      have habs' : AbsStep c.st.memStartBrk (segs', c.live) (.malloc n) (segs', _) :=
        .malloc ht hstep
      rw [if_pos hi] at habs'
      refine ⟨c, segs', ?_, h, habs', rfl, hkeep, fun p n hr => by cases hr⟩
      simp only [Client.exec, firstFit, hret, defined, ok_bind, if_pos hi]
      rfl
    · have habs' : AbsStep c.st.memStartBrk (segs, c.live) (.malloc n) (segs', _) :=
        .malloc ht hstep
      rw [if_neg hi] at habs'
      refine ⟨⟨s', (i, n) :: c.live⟩, segs', ?_, habs hi, habs', hkeep.start_eq, hkeep,
        fun p n hr => by cases hr⟩
      simp only [Client.exec, firstFit, hret, defined, ok_bind, if_neg hi]
      rfl
  | free p =>
    obtain ⟨⟨p, n⟩, hp, rfl⟩ := hadm
    obtain ⟨s', segs', hret, hstep, hkeep, -, habs⟩ := h.free hp
    refine .inr ⟨⟨s', _⟩, segs', ?_, habs, .free ht hstep, hkeep.start_eq, hkeep,
      fun p n hr => by cases hr⟩
    simp only [Client.exec, firstFit, hret, defined, ok_bind]
    rfl
  | realloc p n =>
    obtain ⟨⟨⟨p, n₀⟩, hp, rfl⟩, hn, hroom⟩ := hadm
    rcases h.realloc hp hn hroom with ⟨hnull, -, hret⟩ |
      ⟨s', q, segs₁, segs', hret, hq, hstep, ⟨_, ht₁⟩, hfree, habs, hkeep, -, hdata⟩
    · refine .inl ⟨p, n, rfl, hnull, ?_⟩
      simp only [Client.exec, firstFit, hret]
      rfl
    · rw [h.heap.max_eq] at hstep
      refine .inr ⟨⟨s', _⟩, segs', ?_, habs, .realloc ht hstep hq ht₁ hfree, hkeep.start_eq, hkeep,
        ?_⟩
      · simp only [Client.exec, firstFit, hret, ok_bind, if_neg hq]
        rfl
      · rintro _ _ ⟨⟩
        refine ⟨q, List.mem_cons_self, fun k hk t h₀ h₁ => hdata t ?_ h₁⟩
        rwa [h.size_unique hp hk]
  | write a v =>
    obtain ⟨⟨p, n⟩, hp, hlo, hhi⟩ := hadm
    refine .inr ⟨_, segs, rfl, h.write hp fun b hb => Mem.store8_apply_of_ne ?_, .write, rfl,
      ⟨rfl, le_rfl, by simp [untouched]⟩, fun p n hr => by cases hr⟩
    dsimp only at hlo hhi
    omega

/-- A step of a client steps the layout. -/
theorem Abs.step (h : Abs c.st c.live segs) (hs : Client.Step firstFit c r c') : ∃ segs',
    Abs c'.st c'.live segs' ∧ AbsStep c.st.memStartBrk (segs, c.live) r (segs', c'.live) ∧
      c'.st.memStartBrk = c.st.memStartBrk ∧ Keeps (untouched c.live r) c.st c'.st ∧
      ∀ p n, r = .realloc p n → ∃ q, (q, n) ∈ c'.live ∧ ∀ n₀, (p, n₀) ∈ c.live →
        ∀ t, t < n₀ → t < n → c'.st.mem (q + t) = c.st.mem (p + t) := by
  rcases h.exec hs.1 with ⟨-, -, -, -, herr⟩ | ⟨d, segs', hok, hrest⟩
  · rw [hs.2] at herr
    cases herr
  · rw [hs.2] at hok
    obtain rfl := Except.ok.inj hok
    exact ⟨segs', hrest⟩

/-- **Every run of a client is a run of the abstract allocator** from one free block. -/
theorem exists_abs (h₀ : c₀.Initial firstFit) (hrun : Runs (Client.Step firstFit) c₀ rs c) :
    ∃ x segs, x.kind = .free ∧ x.ptr = c₀.st.memStartBrk + 16 ∧ x.size = chunkSize ∧
      Runs (AbsStep c₀.st.memStartBrk) ([x], []) rs (segs, c.live) ∧ Abs c.st c.live segs ∧
      c.st.memStartBrk = c₀.st.memStartBrk := by
  obtain ⟨hlive, s, hheap, hbrk, hinit⟩ := h₀
  obtain ⟨s', x, hret, hrep, hx, hsize, hheap', hlo⟩ := mmInit_spec hheap hbrk
  obtain rfl : c₀.st = s' := by
    simp only [firstFit, hret, defined] at hinit
    exact (Prod.mk.inj (Except.ok.inj hinit)).1.symm
  refine ⟨x, ?_⟩
  have habs₀ : Abs c₀.st c₀.live [x] :=
    ⟨hheap', hrep, by simp [hlive, hx], by simp [hlive]⟩
  suffices h : ∃ segs, Runs (AbsStep c₀.st.memStartBrk) ([x], []) rs (segs, c.live) ∧
      Abs c.st c.live segs ∧ c.st.memStartBrk = c₀.st.memStartBrk by
    obtain ⟨segs, h⟩ := h
    exact ⟨segs, hx, hrep.blocks.tiles.1, hsize, h⟩
  refine hrun.invariant_labels (I := fun rs c => ∃ segs,
    Runs (AbsStep c₀.st.memStartBrk) ([x], []) rs (segs, c.live) ∧ Abs c.st c.live segs ∧
      c.st.memStartBrk = c₀.st.memStartBrk) ?_ ⟨[x], hlive ▸ .nil _, habs₀, rfl⟩
  rintro rs c r c' ⟨segs, hrun, habs, hstart⟩ hs
  obtain ⟨segs', habs', hstep, hstart', -⟩ := habs.step hs
  exact ⟨segs', hrun.snoc (hstart ▸ hstep), habs', hstart'.trans hstart⟩

/-- The heap never loses its last block. -/
theorem AbsStep.ne_nil {start : ℕ} {A B : List Seg × List (ℕ × ℕ)} (h : AbsStep start A r B)
    (hA : A.1 ≠ []) : B.1 ≠ [] := by
  have hmalloc : ∀ {segs segs' : List Seg} {brk maxAddr n i : ℕ}, segs ≠ [] →
      MallocStep segs brk maxAddr n i segs' → segs' ≠ [] := by
    intro segs segs' brk maxAddr n i hne hstep
    cases hstep with
    | zero => exact hne
    | full => exact hne
    | fit l₁ l₂ new f _ _ _ _ hplaced =>
      obtain ⟨x, rest, rfl, -⟩ := hplaced.head
      simp
    | grow l₁ new x y _ _ _ _ _ _ _ hplaced =>
      obtain ⟨x, rest, rfl, -⟩ := hplaced.head
      simp
  cases h with
  | malloc _ hstep => exact hmalloc hA hstep
  | free _ hstep =>
    obtain ⟨l₁, l₂, l₁', l₂', x, f, y, n, -⟩ := hstep
    simp
  | realloc _ _ _ _ hfree =>
    obtain ⟨l₁, l₂, l₁', l₂', x, f, y, n, -⟩ := hfree
    simp
  | write => exact hA

/-! ## Safety -/

/-- **Every request is served, and payloads are kept.** In every state that a client can reach:
live payloads are aligned, lie between prologue and epilogue and do not overlap; every admissible
request returns, unless it is an `mm_realloc` that finds no memory; a call changes no byte of a
payload that it was not given; and `mm_realloc` moves the old contents, as far as they fit. -/
theorem served_and_kept (h₀ : c₀.Initial firstFit)
    (hrun : Runs (Client.Step firstFit) c₀ rs c) :
    (∀ b ∈ c.live, b.1 % 8 = 0 ∧ c.st.memStartBrk + 16 ≤ b.1 ∧ b.1 + b.2 ≤ c.st.memBrk - 4) ∧
    (c.live.Pairwise fun b d => b.1 + b.2 ≤ d.1 ∨ d.1 + d.2 ≤ b.1) ∧
    (∀ r, c.Admissible r → (∃ c', c.exec firstFit r = .ok c') ∨
      ∃ p n, r = .realloc p n ∧ mmMalloc c.st n = some (c.st, NULL) ∧ c.exec firstFit r =
        .error (.exit "ERROR: mm_malloc failed in mm_realloc")) ∧
    (∀ r c', Client.Step firstFit c r c' → ∀ b ∈ untouched c.live r, ∀ a, b.1 ≤ a →
      a < b.1 + b.2 → c'.st.mem a = c.st.mem a) ∧
    ∀ p n c', Client.Step firstFit c (.realloc p n) c' → ∃ q, (q, n) ∈ c'.live ∧ ∀ n₀,
      (p, n₀) ∈ c.live → ∀ t, t < n₀ → t < n → c'.st.mem (q + t) = c.st.mem (p + t) := by
  obtain ⟨segs, h⟩ := contract.runs reallocServed h₀ hrun
  refine ⟨h.valid.payload, h.valid.disjoint, fun r hadm => ?_, fun r c' hs => ?_,
    fun p n c' hs => ?_⟩
  · rcases h.exec hadm with hfail | ⟨c', -, hok, -⟩
    · exact .inr hfail
    · exact .inl ⟨c', hok⟩
  · obtain ⟨-, -, -, -, hkeep, -⟩ := h.step hs
    exact hkeep.mem_eq
  · obtain ⟨-, -, -, -, -, hmoved⟩ := h.step hs
    exact hmoved p n rfl

/-- A block of 8 bytes is moved to one of 40, and the block of 24 bytes between them is kept. -/
theorem served_and_kept_example : ∃ c₀ c, Client.boot firstFit 4096 (fun _ => 0) = some c₀ ∧
    Runs (Client.Step firstFit) c₀ [.malloc 8, .malloc 24, .realloc 4112 40] c ∧
    c.live = [(4160, 40), (4128, 24)] ∧ 4160 % 8 = 0 ∧ c.st.memStartBrk + 16 ≤ 4160 ∧
    4160 + 40 ≤ c.st.memBrk - 4 := by
  obtain ⟨c₀, c, hboot, hlive, h₀, hrun⟩ := Client.exists_run firstFit 4096 (fun _ => 0)
    [.malloc 8, .malloc 24, .realloc 4112 40] Client.live [(4160, 40), (4128, 24)]
    (by decide) (by decide) (by decide) (by decide +kernel)
  exact ⟨c₀, c, hboot, hrun, hlive,
    (served_and_kept h₀ hrun).1 (4160, 40) (by rw [hlive]; exact List.mem_cons_self)⟩

/-! ## `mm_checkheap` -/

/-- `checkblock` has nothing to say about an aligned block whose tags agree. -/
theorem checkblock_eq (hmod : b % 8 = 0) (htags : SameTags s b) : checkblock s b = some [] := by
  obtain ⟨w, e, hhdr, hftr, hfoot⟩ := htags
  simp [checkblock, hmod, hhdr, hftr, hfoot]

/-- The loop of `mm_checkheap`, from a block on. -/
theorem checkblocksFuel_eq (h : Blocks s segs) {l : List Seg} {lo : ℕ}
    (hl : ∀ z ∈ l, z ∈ segs ∧ z.IsBlock) (ht : Tiles Seg.ptr Seg.size lo l s.memBrk) :
    ∀ fuel, l.length < fuel → checkblocksFuel fuel s lo = some ([], s.memBrk) := by
  induction l generalizing lo with
  | nil =>
    intro fuel hfuel
    obtain ⟨fuel, rfl⟩ := Nat.exists_eq_succ_of_ne_zero (Nat.ne_of_gt hfuel)
    obtain rfl : lo = s.memBrk := ht
    simp [checkblocksFuel, h.get_epilogue.2]
  | cons z l ih =>
    intro fuel hfuel
    obtain ⟨fuel, rfl⟩ := Nat.exists_eq_succ_of_ne_zero (Nat.ne_of_gt (Nat.zero_lt_of_lt hfuel))
    obtain ⟨rfl, ht'⟩ := ht
    obtain ⟨hz, hzb⟩ := hl z List.mem_cons_self
    have hpos : 0 < z.size := Nat.lt_of_lt_of_le (by norm_num) z.size_ge
    have hrest := ih (fun w hw => hl w (List.mem_cons_of_mem _ hw)) ht' fuel
      (Nat.lt_of_succ_lt_succ hfuel)
    have hcheck := checkblock_eq z.ptr_mod ⟨_, _, h.get_tags hz hzb⟩
    simp [checkblocksFuel, h.getSize_eq hz hzb, hpos, hcheck, h.nextBlkp_eq hz hzb, hrest]

/-- **`mm_checkheap` has nothing to report**, in any state that a client can reach. -/
theorem checkheap_silent (h₀ : c₀.Initial firstFit)
    (hrun : Runs (Client.Step firstFit) c₀ rs c) : mmCheckheap c.st = some [] := by
  obtain ⟨x, segs, -, -, -, -, habs, -⟩ := exists_abs h₀ hrun
  have hb := habs.rep.blocks
  obtain ⟨hsize, hnext, htags⟩ := hb.get_prologue
  have hlen := hb.tiles.length_mul_le fun z _ => z.size_ge
  have hle := hb.brk_le
  have hlt := hb.max_lt
  have halloc : getAlloc c.st (hdrp c.st.heapListp) = some 1 := by
    unfold getAlloc
    rw [get_listp hb]
    rfl
  have halloc' : getAlloc c.st (hdrp c.st.memBrk) = some 1 := by
    unfold getAlloc
    rw [hb.get_epilogue.1]
    rfl
  have hmod : c.st.heapListp % 8 = 0 := by
    have := hb.listp
    have := hb.start_mod
    omega
  have hcheck := checkblock_eq hmod htags
  have hrest := checkblocksFuel_eq hb (fun z hz => ⟨hz, habs.rep.isBlock z hz⟩) hb.tiles
    (2 ^ 32 - 1) (by omega)
  have hloop : checkblocksFuel (2 ^ 32) c.st c.st.heapListp = some ([], c.st.memBrk) := by
    change checkblocksFuel (2 ^ 32 - 1 + 1) c.st c.st.heapListp = _
    simp only [checkblocksFuel, hsize, hcheck, hnext, hrest, Option.bind_eq_bind, Option.bind_some]
    rfl
  simp [mmCheckheap, hsize, halloc, hcheck, hloop, hb.get_epilogue.2, halloc', -Nat.reducePow]

/-- A heap with a free block between prologue and payload. -/
theorem checkheap_silent_example : ∃ c₀ c, Client.boot firstFit 4096 (fun _ => 0) = some c₀ ∧
    Runs (Client.Step firstFit) c₀ [.malloc 8, .malloc 24, .free 4112] c ∧
    c.live = [(4128, 24)] ∧ mmCheckheap c.st = some [] := by
  obtain ⟨c₀, c, hboot, hlive, h₀, hrun⟩ := Client.exists_run firstFit 4096 (fun _ => 0)
    [.malloc 8, .malloc 24, .free 4112] Client.live [(4128, 24)]
    (by decide) (by decide) (by decide) (by decide +kernel)
  exact ⟨c₀, c, hboot, hrun, hlive, checkheap_silent h₀ hrun⟩

/-! ## Coalescing -/

/-- The header of the block says that it is free. -/
def IsFree (s : State) (p : ℕ) : Bool := getAlloc s (hdrp p) = some 0

/-- The header tells whether a block is free. -/
theorem isFree_eq (h : Rep s segs) (hx : x ∈ segs) : IsFree s x.ptr = x.isFree := by
  unfold IsFree
  rw [h.blocks.getAlloc_header hx (h.isBlock x hx)]
  cases x.isFree <;> simp

/-- The walk through the heap: the prologue and the blocks. -/
theorem Rep.heapWalk (h : Rep s segs) :
    HeapWalk s s.heapListp (s.heapListp :: segs.map Seg.ptr) s.memBrk ∧
      IsFree s s.heapListp = false := by
  obtain ⟨hsize, hnext, -⟩ := h.blocks.get_prologue
  refine ⟨.next hsize (by norm_num) hnext
    (HeapWalk.of_tiles h.blocks (fun z hz => ⟨hz, h.isBlock z hz⟩) h.blocks.tiles), ?_⟩
  unfold IsFree getAlloc
  rw [get_listp h.blocks]
  rfl

/-- Of elements no two of which that lie next to each other have a property, at most one more than
half has it. -/
theorem countP_le_of_isChain {α : Type*} {P : α → Bool} (l : List α)
    (h : l.IsChain fun x y => P x = false ∨ P y = false) :
    l.countP P ≤ l.countP (fun x => !P x) + 1 ∧
      (∀ x ∈ l.head?, P x = false → l.countP P ≤ l.countP fun x => !P x) := by
  induction l with
  | nil => simp
  | cons x l ih =>
    obtain ⟨hhead, htail⟩ := List.isChain_cons.mp h
    obtain ⟨hle, hlt⟩ := ih htail
    cases hx : P x with
    | false =>
      have hle' : l.countP P ≤ l.countP (fun x => !P x) + 1 + 1 := Nat.le_succ_of_le hle
      simp [hx, hle, hle']
    | true =>
      have hnext : l.countP P ≤ l.countP fun x => !P x := by
        cases l with
        | nil => simp
        | cons y l =>
          refine hlt y (by simp) ((hhead y (by simp)).resolve_left ?_)
          rw [hx]
          exact Bool.false_ne_true.symm
      simp [hx, hnext]

/-- There are as many live pointers as allocated blocks. -/
theorem Abs.length_live (h : Abs s live segs) :
    live.length = segs.countP fun x => !x.isFree := by
  have hnd : ((segs.filter fun x => !x.isFree).map Seg.ptr).Nodup :=
    (h.rep.blocks.tiles.nodup_map_start fun z _ => by have := z.size_ge; omega).sublist
      (List.filter_sublist.map _)
  have hperm : (live.map Prod.fst).Perm ((segs.filter fun x => !x.isFree).map Seg.ptr) := by
    refine (List.perm_ext_iff_of_nodup h.nodup hnd).mpr fun i => ?_
    simp only [List.mem_map, List.mem_filter, Prod.exists, exists_and_right, exists_eq_right,
      h.live_iff]
    constructor
    · rintro ⟨n, x, hx, hk, hptr⟩
      exact ⟨x, ⟨hx, by simp [Seg.isFree, hk]⟩, hptr⟩
    · rintro ⟨x, ⟨hx, hf⟩, hptr⟩
      cases hk : x.kind with
      | live n => exact ⟨n, x, hx, hk, hptr⟩
      | free => simp [Seg.isFree, hk] at hf
      | raw => exact absurd hk (h.rep.isBlock x hx)
  have hlen := hperm.length_eq
  rwa [List.length_map, List.length_map, ← List.countP_eq_length_filter] at hlen

/-- When nothing is live, the heap is one free block. -/
theorem Abs.eq_singleton (h : Abs s [] segs) (hne : segs ≠ []) :
    ∃ z, segs = [z] ∧ z.isFree = true := by
  have hzero : segs.countP (fun x => !x.isFree) = 0 := h.length_live.symm
  have hall : ∀ z ∈ segs, z.isFree = true := by
    simpa using List.countP_eq_zero.mp hzero
  have hle := (countP_le_of_isChain segs h.rep.apart).1
  rw [hzero, List.countP_eq_length.mpr hall] at hle
  obtain ⟨z, rest, rfl⟩ := List.exists_cons_of_ne_nil hne
  obtain rfl : rest = [] := by simpa using hle
  exact ⟨z, rfl, hall z List.mem_cons_self⟩

/-- **No two free blocks are neighbours**, in any state that a client can reach: there is at most
one free block more than there are live ones, and a client that has released everything has given
back the whole heap as a single block. -/
theorem free_le_live (h₀ : c₀.Initial firstFit) (hrun : Runs (Client.Step firstFit) c₀ rs c) :
    ∃ ps, HeapWalk c.st c.st.heapListp ps c.st.memBrk ∧
      (ps.IsChain fun p q => IsFree c.st p = false ∨ IsFree c.st q = false) ∧
      ps.countP (IsFree c.st) ≤ c.live.length + 1 ∧
      (c.live = [] → ∃ p, ps = [c.st.heapListp, p] ∧ IsFree c.st p = true) := by
  obtain ⟨x, segs, -, -, -, hsim, habs, -⟩ := exists_abs h₀ hrun
  have hne : segs ≠ [] := hsim.invariant (I := fun A => A.1 ≠ []) (fun A r B hA hs => hs.ne_nil hA)
    (by simp)
  obtain ⟨hwalk, hpro⟩ := habs.rep.heapWalk
  have hfree : ∀ z ∈ segs, IsFree c.st z.ptr = z.isFree := fun z hz => isFree_eq habs.rep hz
  have hcount : (segs.map Seg.ptr).countP (IsFree c.st) = segs.countP Seg.isFree := by
    rw [List.countP_map]
    exact List.countP_congr fun z hz => by simp [hfree z hz]
  have hchain : (segs.map Seg.ptr).IsChain
      fun p q => IsFree c.st p = false ∨ IsFree c.st q = false := by
    rw [List.isChain_map]
    refine habs.rep.apart.imp_of_mem_imp fun z w hz hw hzw => ?_
    rwa [hfree z hz, hfree w hw]
  have hle := (countP_le_of_isChain segs habs.rep.apart).1
  refine ⟨_, hwalk, hchain.cons fun q _ => .inl hpro, ?_, fun hlive => ?_⟩
  · rw [List.countP_cons_of_neg (by simp [hpro]), hcount, habs.length_live]
    exact hle
  · rw [hlive] at habs
    obtain ⟨z, rfl, hz⟩ := habs.eq_singleton hne
    exact ⟨z.ptr, rfl, (hfree z List.mem_cons_self).trans hz⟩

/-- Three blocks are released, the one in the middle last. -/
theorem free_le_live_example : ∃ c₀ c, Client.boot firstFit 4096 (fun _ => 0) = some c₀ ∧
    Runs (Client.Step firstFit) c₀
      [.malloc 8, .malloc 8, .malloc 8, .free 4112, .free 4144, .free 4128] c ∧
    c.live = [] ∧ ∃ p, HeapWalk c.st c.st.heapListp [c.st.heapListp, p] c.st.memBrk ∧
      IsFree c.st p = true := by
  obtain ⟨c₀, c, hboot, hlive, h₀, hrun⟩ := Client.exists_run firstFit 4096 (fun _ => 0)
    [.malloc 8, .malloc 8, .malloc 8, .free 4112, .free 4144, .free 4128] Client.live []
    (by decide) (by decide) (by decide) (by decide +kernel)
  obtain ⟨ps, hwalk, -, -, hall⟩ := free_le_live h₀ hrun
  obtain ⟨p, rfl, hfree⟩ := hall hlive
  exact ⟨c₀, c, hboot, hrun, hlive, p, hwalk, hfree⟩

/-! ## First fit -/

/-- The request is a call of the package, not a write of the client. -/
def IsCall : Request → Bool
  | .write _ _ => false
  | _ => true

/-- **A call has one outcome.** -/
theorem AbsStep.unique {start : ℕ} {A B C : List Seg × List (ℕ × ℕ)} (h : AbsStep start A r B)
    (h' : AbsStep start A r C) : B = C := by
  have hnd : ∀ {l : List Seg} {hi : ℕ}, Tiles Seg.ptr Seg.size (start + 16) l hi →
      (l.map Seg.ptr).Nodup := fun ht =>
    ht.nodup_map_start fun z _ => by have := z.size_ge; omega
  cases h with
  | malloc ht hstep =>
    cases h' with
    | malloc ht' hstep' =>
      obtain rfl := ht.hi_unique ht'
      obtain ⟨rfl, rfl⟩ := hstep.unique hstep'
      rfl
  | free ht hstep =>
    cases h' with
    | free _ hstep' => rw [hstep.unique hstep' (hnd ht)]
  | realloc ht hstep _ ht₁ hfree =>
    cases h' with
    | realloc ht' hstep' _ ht₁' hfree' =>
      obtain rfl := ht.hi_unique ht'
      obtain ⟨rfl, rfl⟩ := hstep.unique hstep'
      rw [hfree.unique hfree' (hnd ht₁)]
  | write =>
    cases h' with
    | write => rfl

/-- Writes leave the layout alone. -/
theorem runs_calls {start : ℕ} {A B : List Seg × List (ℕ × ℕ)}
    (h : Runs (AbsStep start) A rs B) : Runs (AbsStep start) A (rs.filter IsCall) B := by
  induction h with
  | nil => exact .nil _
  | @snoc B C rs r _ hstep ih =>
    rw [List.filter_append]
    cases hstep with
    | malloc ht hstep => exact ih.snoc (.malloc ht hstep)
    | free ht hstep => exact ih.snoc (.free ht hstep)
    | realloc ht hstep hq ht₁ hfree => exact ih.snoc (.realloc ht hstep hq ht₁ hfree)
    | write =>
      rw [List.filter_cons_of_neg (by simp [IsCall]), List.filter_nil, List.append_nil]
      exact ih

/-- **The pointers handed out do not depend on contents.** Two clients that make the same calls of a
package whose heap starts at the same address hold the same pointers, whatever the memory held at
first and whatever each of them writes into its payloads. -/
theorem live_unique (h₀ : c₀.Initial firstFit) (hrun : Runs (Client.Step firstFit) c₀ rs c)
    (h₀' : d₀.Initial firstFit) (hrun' : Runs (Client.Step firstFit) d₀ rs' d)
    (hstart : c₀.st.memStartBrk = d₀.st.memStartBrk)
    (hcalls : rs.filter IsCall = rs'.filter IsCall) :
    c.live = d.live ∧ c.st.memBrk = d.st.memBrk := by
  obtain ⟨x, segs, hx, hxptr, hxsize, hsim, habs, hlo⟩ := exists_abs h₀ hrun
  obtain ⟨y, segs', hy, hyptr, hysize, hsim', habs', hlo'⟩ := exists_abs h₀' hrun'
  obtain rfl : x = y := Seg.eq_of (hx.trans hy.symm) (by rw [hxptr, hyptr, hstart])
    (hxsize.trans hysize.symm)
  have hrun₁ := runs_calls hsim
  have hrun₂ := runs_calls hsim'
  rw [hcalls, hstart] at hrun₁
  have hdet : ∀ A r B C, AbsStep d₀.st.memStartBrk A r B → AbsStep d₀.st.memStartBrk A r C →
      B = C := fun A r B C h h' => h.unique h'
  obtain ⟨rfl, hlive⟩ := Prod.mk.inj (hrun₁.unique hdet hrun₂)
  refine ⟨hlive, habs.rep.blocks.tiles.hi_unique ?_⟩
  have ht := habs'.rep.blocks.tiles
  rwa [hlo', ← hstart, ← hlo] at ht

/-- Two clients, one of which writes, on memories that held zeros and ones at first. -/
theorem live_unique_example : ∃ c₀ c d₀ d, Client.boot firstFit 4096 (fun _ => 0) = some c₀ ∧
    Client.boot firstFit 4096 (fun _ => 1) = some d₀ ∧
    Runs (Client.Step firstFit) c₀ [.malloc 8, .malloc 24, .free 4112, .malloc 16] c ∧
    Runs (Client.Step firstFit) d₀
      [.malloc 8, .write 4112 255, .malloc 24, .free 4112, .write 4128 7, .malloc 16] d ∧
    c.live = d.live ∧ c.st.memBrk = d.st.memBrk := by
  obtain ⟨c₀, c, hboot, hobs, h₀, hrun⟩ := Client.exists_run firstFit 4096 (fun _ => 0)
    [.malloc 8, .malloc 24, .free 4112, .malloc 16] (fun c => c.st.memStartBrk) 4096
    (by decide) (by decide) (by decide) (by decide +kernel)
  obtain ⟨d₀, d, hboot', hobs', h₀', hrun'⟩ := Client.exists_run firstFit 4096 (fun _ => 1)
    [.malloc 8, .write 4112 255, .malloc 24, .free 4112, .write 4128 7, .malloc 16]
    (fun d => d.st.memStartBrk) 4096 (by decide) (by decide) (by decide) (by decide +kernel)
  obtain ⟨-, -, -, -, -, -, -, hlo⟩ := exists_abs h₀ hrun
  obtain ⟨-, -, -, -, -, -, -, hlo'⟩ := exists_abs h₀' hrun'
  exact ⟨c₀, c, d₀, d, hboot, hboot', hrun, hrun', live_unique h₀ hrun h₀' hrun'
    (hlo.symm.trans (hobs.trans (hobs'.symm.trans hlo'))) rfl⟩

end SystemsLabs.Malloclab.FirstFit
