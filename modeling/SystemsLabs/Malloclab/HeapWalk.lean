import SystemsLabs.Malloclab.Invariants

/-!
# Walking the heap with `NEXT_BLKP`

`HeapWalk` is the heap loop of `mm_check`, and `HeapTiled` says that it sees the whole heap. A
block that is eight bytes too large for a request is cut down to the request all the same
(`MallocStep.drop`): the eight bytes behind it lose their tags, and the walk runs into them.

* `heapTiled_of_guarded` — the heap is tiled in every run whose requests never take such a block,
  and the first request that does take one ends that (`not_heapTiled_of_leavesEight`).

**Assumptions.** The runs are those of `Client`: no request wraps around, and clients keep to the
interface.
-/

namespace SystemsLabs.Malloclab

open SystemsLabs.Lib

variable {c c₀ c' : Config} {op : Op} {ops : List Op} {s : State} {segs L l₁ l₂ : List Seg}
  {f r x y : Seg} {n p q : ℕ}

/-! ## The walk -/

/-- From `p` on, `NEXT_BLKP` visits the blocks `ps` and comes to `e`, the first block of size
zero. -/
inductive HeapWalk (s : State) : ℕ → List ℕ → ℕ → Prop
  | stop {p : ℕ} : getSize s (hdrp p) = some 0 → HeapWalk s p [] p
  | next {p q k e : ℕ} {ps : List ℕ} : getSize s (hdrp p) = some k → 0 < k →
      nextBlkp s p = some q → HeapWalk s q ps e → HeapWalk s p (p :: ps) e

/-- The walk from `heap_listp` ends at the epilogue just below the break, every block on its way
has a size of at least 8, a multiple of 8, and equal header and footer, and it comes by every live
block and every block on the free list exactly once. -/
def HeapTiled (c : Config) : Prop :=
  ∃ ps, HeapWalk c.st c.st.heapListp ps c.st.memBrk ∧
    get c.st (hdrp c.st.memBrk) = some (pack 0 1) ∧
    (∀ p ∈ ps, SameTags c.st p ∧ 8 ≤ blockSize c.st p ∧ blockSize c.st p % 8 = 0) ∧ ps.Nodup ∧
    (∀ p n, (p, n) ∈ c.live → p ∈ ps) ∧ ∀ qs, OnFreeList c.st qs → ∀ q ∈ qs, q ∈ ps

/-! ## A heap without raw segments is tiled -/

/-- The epilogue reads as a block of size zero. -/
theorem Blocks.get_epilogue (h : Blocks s segs) :
    get s (hdrp s.memBrk) = some 1 ∧ getSize s (hdrp s.memBrk) = some 0 := by
  have hstart : s.memStartBrk + 16 ≤ s.memBrk := h.tiles.le
  have hle := h.brk_le
  have hlt := h.max_lt
  have hin : s.InHeap (s.memBrk - 4) := by
    unfold State.InHeap
    simp only [wsize]
    omega
  have hget : get s (hdrp s.memBrk) = some 1 := by
    rw [hdrp_eq (by omega) (by omega), get_eq hin, h.epilogue]
  refine ⟨hget, ?_⟩
  unfold getSize
  rw [hget]
  rfl

/-- The prologue reads as a block of eight bytes. -/
theorem Blocks.get_prologue (h : Blocks s segs) :
    getSize s (hdrp s.heapListp) = some 8 ∧ nextBlkp s s.heapListp = some (s.memStartBrk + 16) ∧
      SameTags s s.heapListp := by
  have hstart : s.memStartBrk + 16 ≤ s.memBrk := h.tiles.le
  have hle := h.brk_le
  have hlt := h.max_lt
  have hin : ∀ q, s.memStartBrk ≤ q → q + 4 ≤ s.memStartBrk + 16 → s.InHeap q := by
    intro q hlo hhi
    unfold State.InHeap
    simp only [wsize]
    omega
  have hhdr : hdrp s.heapListp = s.memStartBrk + 4 := by
    rw [h.listp, hdrp_eq (by omega) (by omega)]
    omega
  have hget : get s (hdrp s.heapListp) = some 9 := by
    rw [hhdr, get_eq (hin _ (by omega) (by omega)), h.prologue.1]
  have hsize : getSize s (hdrp s.heapListp) = some 8 := by
    unfold getSize
    rw [hget]
    rfl
  have hftr : ftrp s s.heapListp = some (s.memStartBrk + 8) := by
    unfold ftrp
    rw [hsize, h.listp, Option.bind_eq_bind, Option.bind_some, add_eq (by omega),
      sub_eq (by simp only [dsize]; omega) (by omega)]
    congr 1
  refine ⟨hsize, ?_, 9, _, hget, hftr, ?_⟩
  · have hsize' : getSize s (sub s.heapListp wsize) = some 8 := hsize
    unfold nextBlkp
    rw [hsize', h.listp, Option.bind_eq_bind, Option.bind_some, add_eq (by omega)]
  · rw [get_eq (hin _ (by omega) (by omega)), h.prologue.2]

/-- The walk over blocks that follow each other up to the break. -/
theorem HeapWalk.of_tiles (h : Blocks s segs) {l : List Seg} {lo : ℕ}
    (hl : ∀ z ∈ l, z ∈ segs ∧ z.IsBlock) (htiles : Tiles Seg.ptr Seg.size lo l s.memBrk) :
    HeapWalk s lo (l.map Seg.ptr) s.memBrk := by
  induction l generalizing lo with
  | nil =>
      obtain rfl : lo = s.memBrk := htiles
      exact .stop h.get_epilogue.2
  | cons z l ih =>
      obtain ⟨rfl, htiles'⟩ := htiles
      obtain ⟨hz, hzb⟩ := hl z List.mem_cons_self
      have hs := z.size_ge
      have hmod := z.size_mod
      have hword : z.word / 8 * 8 = z.size := by
        unfold Seg.word
        split <;> omega
      exact .next (h.getSize_eq hz hzb) (by omega)
        (h.nextBlkp_of_tagged hz (h.tagged hz hzb) hword)
        (ih (fun w hw => hl w (List.mem_cons_of_mem _ hw)) htiles')

/-- A layout without raw segments is a tiled heap. -/
theorem Abs.heapTiled (h : Abs c segs L) (hall : ∀ z ∈ segs, z.IsBlock) : HeapTiled c := by
  have hb := h.rep.blocks
  obtain ⟨hsize, hnext, htags⟩ := hb.get_prologue
  have hwalk : HeapWalk c.st c.st.heapListp (c.st.heapListp :: segs.map Seg.ptr) c.st.memBrk :=
    .next hsize (by norm_num) hnext (HeapWalk.of_tiles hb (fun z hz => ⟨hz, hall z hz⟩) hb.tiles)
  have hmem : ∀ {k : Kind} {p : ℕ}, Holds segs k p → p ∈ c.st.heapListp :: segs.map Seg.ptr := by
    rintro k _ ⟨z, hz, -, rfl⟩
    exact List.mem_cons_of_mem _ (List.mem_map_of_mem hz)
  refine ⟨_, hwalk, hb.get_epilogue.1, ?_, ?_, fun p n hp => hmem ((h.live p n).mp hp), ?_⟩
  · intro p hp
    rcases List.mem_cons.mp hp with rfl | hp
    · have hbs : blockSize c.st c.st.heapListp = 8 := by
        unfold blockSize
        rw [hsize, Option.getD_some]
      rw [hbs]
      exact ⟨htags, le_rfl, rfl⟩
    · obtain ⟨z, hz, rfl⟩ := List.mem_map.mp hp
      rw [hb.blockSize_eq hz (hall z hz)]
      exact ⟨⟨_, _, hb.get_tags hz (hall z hz)⟩, z.size_ge, z.size_mod⟩
  · rw [List.nodup_cons]
    refine ⟨fun hmem => ?_, hb.tiles.nodup_map_start fun z _ => by have := z.size_ge; omega⟩
    obtain ⟨z, hz, hptr⟩ := List.mem_map.mp hmem
    have hlo := (hb.bounds hz).1
    have hlistp := hb.listp
    omega
  · intro qs hqs q hq
    rw [hqs.unique h.rep.onFreeList] at hq
    exact hmem (h.rep.mem_map_ptr_iff.mp hq)

/-! ## Runs that never drop a remainder -/

/-- The best fit for `n` bytes is eight bytes too large: some freed block is no larger than the
block to be made, none is of just its size, and one is eight bytes larger. -/
def LeavesEight (c : Config) (n : ℕ) : Prop :=
  (∃ q ∈ c.freed, blockSize c.st q ≤ adjust n) ∧ (∀ q ∈ c.freed, blockSize c.st q ≠ adjust n) ∧
    ∃ q ∈ c.freed, blockSize c.st q = adjust n + 8

instance (c : Config) (n : ℕ) : Decidable (LeavesEight c n) := inferInstanceAs (Decidable (_ ∧ _))

/-- The operation takes no block that is eight bytes too large. -/
def KeepsRemainder (c : Config) : Op → Prop
  | .malloc n => ¬ LeavesEight c n
  | _ => True

instance (c : Config) : DecidablePred (KeepsRemainder c)
  | .malloc n => inferInstanceAs (Decidable (¬ LeavesEight c n))
  | .free _ => inferInstanceAs (Decidable True)
  | .write _ _ => inferInstanceAs (Decidable True)

/-- The freed blocks and their sizes, in the layout. -/
theorem Abs.exists_freed_iff (h : Abs c segs L) {P : ℕ → Prop} :
    (∃ q ∈ c.freed, P (blockSize c.st q)) ↔ ∃ z ∈ L, P z.size := by
  constructor
  · rintro ⟨q, hq, hP⟩
    obtain ⟨z, hz, hkind, rfl⟩ := (h.freed q).mp hq
    rw [h.rep.blocks.blockSize_eq hz (by simp [Seg.IsBlock, hkind])] at hP
    exact ⟨z, h.rep.mem_list.mpr ⟨hz, Seg.isFree_iff.mpr hkind⟩, hP⟩
  · rintro ⟨z, hz, hP⟩
    obtain ⟨hmem, hfree⟩ := h.rep.mem_list.mp hz
    refine ⟨z.ptr, (h.freed _).mpr ⟨z, hmem, Seg.isFree_iff.mp hfree, rfl⟩, ?_⟩
    rwa [h.rep.blocks.blockSize_eq hmem (h.rep.isBlock hz)]

/-- `LeavesEight` is about the best fit. -/
theorem Abs.leavesEight_iff (h : Abs c segs L) (hn : n + 15 < 2 ^ 32) :
    LeavesEight c n ↔ ∃ f, BestFit L (adjust n) f ∧ f.size = adjust n + 8 := by
  have hmod := (adjust_spec hn).1
  have hno : (∀ q ∈ c.freed, blockSize c.st q ≠ adjust n) ↔ ∀ z ∈ L, z.size ≠ adjust n := by
    have := not_congr (h.exists_freed_iff (P := fun k => k = adjust n))
    simpa only [not_exists, not_and] using this
  unfold LeavesEight
  rw [h.exists_freed_iff (P := fun k => k ≤ adjust n), hno,
    h.exists_freed_iff (P := fun k => k = adjust n + 8)]
  constructor
  · rintro ⟨hguard, hne, f, hf, hsize⟩
    refine ⟨f, ⟨hf, by omega, fun z hz hle => ?_, hguard⟩, hsize⟩
    have hz8 := z.size_mod
    have hzne := hne z hz
    omega
  · rintro ⟨f, hf, hsize⟩
    refine ⟨hf.guard, fun z hz heq => ?_, f, hf.mem, hsize⟩
    have hbest := hf.best z hz heq.ge
    omega

/-- A step that takes no block eight bytes too large leaves no raw segment. -/
theorem LayoutStep.isBlock {brk : ℕ} {segs' L' : List Seg} (h : LayoutStep segs L brk op segs' L')
    (hall : ∀ z ∈ segs, z.IsBlock)
    (hkeep : ∀ n, op = .malloc n → ¬ ∃ f, BestFit L (adjust n) f ∧ f.size = adjust n + 8) :
    ∀ z ∈ segs', z.IsBlock := by
  have hblock : ∀ {z : Seg}, z.kind ≠ .raw → z.IsBlock := fun hz => hz
  cases h with
  | write => exact hall
  | free hstep =>
      obtain ⟨l₁, l₂, L₁, L₂, x, f, n, rfl, rfl, hx, hptr, hf, hfptr, hfsize⟩ := hstep
      simp only [List.forall_mem_append, List.forall_mem_cons] at hall ⊢
      exact ⟨hall.1, hblock (by simp [hf]), hall.2.2⟩
  | malloc hstep =>
      cases hstep with
      | null => exact hall
      | grow x hx =>
          simp only [List.forall_mem_append, List.forall_mem_cons]
          exact ⟨hall, hblock (by simp [hx.kind]), by simp⟩
      | exact l₁ l₂ L₁ L₂ f x hsegs hL hbest hsize hx =>
          simp only [hsegs, List.forall_mem_append, List.forall_mem_cons] at hall ⊢
          exact ⟨hall.1, hblock (by simp [hx.kind]), hall.2.2⟩
      | drop l₁ l₂ L₁ L₂ f x r hsegs hL hbest hsize => exact absurd ⟨f, hbest, hsize⟩ (hkeep _ rfl)
      | split l₁ l₂ L₁ L₂ L₃ L₄ f x r hsegs hL hbest hsize hx hr =>
          simp only [hsegs, List.forall_mem_append, List.forall_mem_cons] at hall ⊢
          exact ⟨hall.1, hblock (by simp [hx.kind]), hblock (by simp [hr]), hall.2.2⟩

/-! ## A dropped remainder ends the tiling -/

/-- Every block that a walk comes by, but the first one, comes right after another. -/
theorem HeapWalk.pred {e : ℕ} {ps : List ℕ} (h : HeapWalk s p ps e) (hq : q ∈ ps ∨ q = e) :
    q = p ∨ ∃ b ∈ ps, nextBlkp s b = some q := by
  induction h with
  | stop => simpa using hq
  | @next p q' k e ps _ _ hnext _ ih =>
      rw [List.mem_cons, or_assoc] at hq
      rcases hq with hq | hq
      · exact Or.inl hq
      · right
        rcases ih hq with rfl | ⟨b, hb, hbq⟩
        · exact ⟨p, List.mem_cons_self, hnext⟩
        · exact ⟨b, List.mem_cons_of_mem _ hb, hbq⟩

/-- The block before `q` on a walk ends in the word before its header. -/
theorem SameTags.of_next {b w : ℕ} (h : SameTags s b) (hnext : nextBlkp s b = some q)
    (hw : get s (sub q dsize) = some w) :
    get s (hdrp b) = some w ∧ add b (w &&& 0xFFFFFFF8) = q := by
  obtain ⟨v, f, hhdr, hftr, hfoot⟩ := h
  have hsize : getSize s (hdrp b) = some (v &&& 0xFFFFFFF8) := by
    unfold getSize
    rw [hhdr, Option.map_some]
  have hnext' : add b (v &&& 0xFFFFFFF8) = q := by
    unfold nextBlkp at hnext
    have hsize' : getSize s (sub b wsize) = some (v &&& 0xFFFFFFF8) := hsize
    rw [hsize', Option.bind_eq_bind, Option.bind_some] at hnext
    exact Option.some_inj.mp hnext
  have hf : f = sub q dsize := by
    unfold ftrp at hftr
    rw [hsize, Option.bind_eq_bind, Option.bind_some, hnext'] at hftr
    exact (Option.some_inj.mp hftr).symm
  rw [hf, hw] at hfoot
  obtain rfl := Option.some_inj.mp hfoot
  exact ⟨hhdr, hnext'⟩

/-- A heap in which a live block is followed by eight bytes without tags, the old footer among them,
is not tiled: no walk can come to what follows. -/
theorem Abs.not_heapTiled (h : Abs c (l₁ ++ x :: r :: l₂) L) (hx : x.kind = .live n)
    (hr : r.size = 8) (hfoot : c.st.mem.load32 (x.ptr + x.size) = x.size + 8)
    (hall : ∀ z ∈ l₂, z.IsBlock) : ¬ HeapTiled c := by
  rintro ⟨ps, hwalk, -, htags, -, hlive, hlist⟩
  have hb := h.rep.blocks
  have hxmem : x ∈ l₁ ++ x :: r :: l₂ := by simp
  have hrmem : r ∈ l₁ ++ x :: r :: l₂ := by simp
  have hxb := hb.bounds hxmem
  have hrb := hb.bounds hrmem
  have hs := x.size_ge
  have hmod := x.size_mod
  have htiles := hb.tiles.split.2
  have hrptr : r.ptr = x.ptr + x.size := htiles.1
  have hxtags := hb.get_tags hxmem (by simp [Seg.IsBlock, hx])
  -- what follows the eight bytes is the break or a block that the walk has to come by
  have hvisit : x.ptr + x.size + 8 ∈ ps ∨ x.ptr + x.size + 8 = c.st.memBrk := by
    have htiles' : Tiles Seg.ptr Seg.size (x.ptr + x.size + r.size) l₂ c.st.memBrk := htiles.2
    rw [hr] at htiles'
    cases l₂ with
    | nil => exact Or.inr htiles'
    | cons y l₂ =>
        left
        have hy : y.ptr = x.ptr + x.size + 8 := htiles'.1
        have hymem : y ∈ l₁ ++ x :: r :: y :: l₂ := by simp
        rw [← hy]
        cases hk : y.kind with
        | live m => exact hlive y.ptr m ((h.live _ _).mpr ⟨y, hymem, hk, rfl⟩)
        | free =>
            exact hlist _ h.rep.onFreeList y.ptr (h.rep.mem_map_ptr_iff.mpr ⟨y, hymem, hk, rfl⟩)
        | raw => exact absurd hk (hall y List.mem_cons_self)
  have hsub : sub (x.ptr + x.size + 8) dsize = x.ptr + x.size := by
    rw [sub_eq (by simp only [dsize]; omega) (by omega)]
    exact Nat.add_sub_cancel _ 8
  have hword : get c.st (sub (x.ptr + x.size + 8) dsize) = some (x.size + 8) := by
    rw [hsub, get_eq (hb.inHeap hrmem (by omega) (by omega)), hfoot]
  rcases hwalk.pred hvisit with heq | ⟨b, hbps, hnext⟩
  · have hlistp := hb.listp
    omega
  · obtain ⟨hhdr, hadd⟩ := (htags b hbps).1.of_next hnext hword
    rw [and_mask (by omega)] at hadd
    -- the block before it would be the live one, whose header says otherwise
    have hblt : b < 2 ^ 32 := by
      rcases hwalk.pred (Or.inl hbps) with rfl | ⟨d, -, hd⟩
      · have hlistp := hb.listp
        omega
      · unfold nextBlkp at hd
        obtain ⟨k, -, hk⟩ := Option.bind_eq_some_iff.mp hd
        obtain rfl := Option.some_inj.mp hk
        exact Nat.mod_lt _ (by norm_num)
    have hbx : b = x.ptr := by
      unfold add at hadd
      omega
    rw [hbx, hxtags.1, Seg.word_live hx, Option.some_inj] at hhdr
    omega

/-! ## The heap is tiled exactly as long as no remainder is dropped -/

/-- In a run that keeps every remainder there are no raw segments. -/
theorem exists_abs_of_guarded (h₀ : c₀.Initial)
    (hrun : Runs (Guarded KeepsRemainder Step) c₀ ops c) :
    ∃ segs L, Abs c segs L ∧ ∀ z ∈ segs, z.IsBlock := by
  refine hrun.invariant (I := fun c => ∃ segs L, Abs c segs L ∧ ∀ z ∈ segs, z.IsBlock) ?_
    ⟨[], [], h₀.abs, by simp⟩
  rintro c op c' ⟨segs, L, habs, hall⟩ ⟨hkeep, hs⟩
  obtain ⟨segs', L', habs', hstep⟩ := habs.of_step hs
  refine ⟨segs', L', habs', hstep.isBlock hall ?_⟩
  rintro n rfl
  rw [← habs.leavesEight_iff hs.1.2.1]
  exact hkeep

/-- A request that takes a block eight bytes too large leaves a heap that is not tiled. -/
theorem Abs.not_heapTiled_of_leavesEight (h : Abs c segs L) (hall : ∀ z ∈ segs, z.IsBlock)
    (hs : Step c (.malloc n) c') (height : LeavesEight c n) : ¬ HeapTiled c' := by
  obtain ⟨hadm, hexec⟩ := hs
  obtain ⟨g, hg, hgsize⟩ := (h.leavesEight_iff hadm.2.1).mp height
  obtain ⟨d, p, segs', L', hexec', -, habs', hstep, -, hfoot, -⟩ := h.malloc hadm.2.1 hadm.2.2
  obtain rfl := Option.some_inj.mp (hexec.symm.trans hexec')
  -- every best fit has the size of `g`
  have hbestsize : ∀ f, BestFit L (adjust n) f → f.size = adjust n + 8 := fun f hf =>
    le_antisymm ((hf.best g hg.mem hg.fits).trans hgsize.le)
      (hgsize.symm.le.trans (hg.best f hf.mem hf.fits))
  cases hstep with
  | null hno =>
      rcases hno with rfl | hno
      · exact absurd hadm.1 (by norm_num)
      · exact absurd ⟨g, hg⟩ hno
  | grow x hx hno => exact absurd ⟨g, hg⟩ hno
  | exact l₁ l₂ L₁ L₂ f x hsegs hL hbest hsize =>
      have := hbestsize f hbest
      omega
  | drop l₁ l₂ L₁ L₂ f x r hsegs hL hbest hsize hx hr hrsize =>
      have hfoot' := hfoot f hbest rfl hsize
      subst hsegs
      simp only [List.forall_mem_append, List.forall_mem_cons] at hall
      refine habs'.not_heapTiled hx.kind hrsize ?_ hall.2.2
      rw [hx.ptr, hx.size, hfoot', hsize]
  | split l₁ l₂ L₁ L₂ L₃ L₄ f x r hsegs hL hbest hsize =>
      have := hbestsize f hbest
      omega

/-- **The heap is tiled as long as no remainder is dropped.** In every run from `mm_init` whose
requests never take a block eight bytes too large, the heap is tiled; and it still is after one more
step exactly if that step takes no such block either. -/
theorem heapTiled_of_guarded (h₀ : c₀.Initial)
    (hrun : Runs (Guarded KeepsRemainder Step) c₀ ops c) :
    HeapTiled c ∧ ∀ op c', Step c op c' → (HeapTiled c' ↔ KeepsRemainder c op) := by
  obtain ⟨segs, L, habs, hall⟩ := exists_abs_of_guarded h₀ hrun
  refine ⟨habs.heapTiled hall, fun op c' hs => ⟨fun htiled => ?_, fun hkeep => ?_⟩⟩
  · cases op with
    | malloc n => exact fun height => habs.not_heapTiled_of_leavesEight hall hs height htiled
    | free p => trivial
    | write a v => trivial
  · obtain ⟨segs', L', habs', hall'⟩ := exists_abs_of_guarded h₀ (hrun.snoc ⟨hkeep, hs⟩)
    exact habs'.heapTiled hall'

/-- Blocks of 16 and 24 bytes are freed, and the larger one is handed out again as a whole. -/
theorem heapTiled_of_guarded_example : ∃ c₀ c, Config.boot 4096 (fun _ => 0) = some c₀ ∧
    Runs Step c₀ [.malloc 8, .malloc 24, .free 4112, .free 4128, .malloc 24] c ∧
    c.live = [(4128, 24)] ∧ HeapTiled c := by
  obtain ⟨c₀, c, hboot, hlive, h₀, hrun⟩ := exists_run KeepsRemainder 4096 (fun _ => 0)
    [.malloc 8, .malloc 24, .free 4112, .free 4128, .malloc 24] Config.live [(4128, 24)]
    (by decide) (by decide) (by decide +kernel)
  exact ⟨c₀, c, hboot, hrun.of_guarded, hlive, (heapTiled_of_guarded h₀ hrun).1⟩

/-- With blocks of 16 and 32 bytes on the free list, a request for 16 bytes (a block of 24) takes
the block of 32 and drops eight bytes: the heap is not tiled any more. -/
theorem exists_not_heapTiled : ∃ c₀ c, Config.boot 4096 (fun _ => 0) = some c₀ ∧ c₀.Initial ∧
    Runs Step c₀ [.malloc 8, .malloc 24, .free 4112, .free 4128, .malloc 16] c ∧ ¬ HeapTiled c := by
  obtain ⟨c₀, c, hboot, hlast, h₀, hrun⟩ := exists_run KeepsRemainder 4096 (fun _ => 0)
    [.malloc 8, .malloc 24, .free 4112, .free 4128]
    (fun c => (decide (LeavesEight c 16), decide (Admissible c (.malloc 16)),
      (c.exec (.malloc 16)).isSome)) (true, true, true)
    (by decide) (by decide) (by decide +kernel)
  simp only [Prod.mk.injEq, decide_eq_true_iff, Option.isSome_iff_exists] at hlast
  obtain ⟨height, hadm, c', hexec⟩ := hlast
  have hs : Step c (.malloc 16) c' := ⟨hadm, hexec⟩
  obtain ⟨segs, L, habs, hall⟩ := exists_abs_of_guarded h₀ hrun
  exact ⟨c₀, c', hboot, h₀, hrun.of_guarded.snoc hs,
    habs.not_heapTiled_of_leavesEight hall hs height⟩

end SystemsLabs.Malloclab
