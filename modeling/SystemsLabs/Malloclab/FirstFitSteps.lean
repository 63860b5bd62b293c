import SystemsLabs.Malloclab.Merging

/-!
# What the functions of `mm-firstfit.c` do to the layout

The abstract allocator of the implicit list: `MallocStep` and `FreeStep` say which layout a request
and a release lead to, and leave no choice (`MallocStep.unique`, `FreeStep.unique`). `Rep` is the
representation: every segment is a block, and no two neighbours are free. `mmMalloc_spec` and
`mmFree_spec` are the refinement: the functions return, what they do is a step of the abstract
allocator, and they write in free blocks and in the block that is released only.

**Assumptions.** Neither the rounding of a request nor the end of a block for it wraps around.
-/

namespace SystemsLabs.Malloclab.FirstFit

open SystemsLabs.Lib

variable {s : State} {segs segs' l₁ l₂ l₁' l₂' new : List Seg} {f p q x y z : Seg} {m : Mem}
  {a b n e r : ℕ}

/-! ## The abstract allocator -/

/-- The block is free and holds `asize` bytes. -/
def Fits (asize : ℕ) (z : Seg) : Bool := z.isFree && decide (asize ≤ z.size)

/-- What a request for `n` bytes does to a layout whose heap ends at `brk` and cannot grow beyond
`max`: the result pointer and the new layout. -/
inductive MallocStep (segs : List Seg) (brk maxAddr n : ℕ) : ℕ → List Seg → Prop
  /-- An empty request. -/
  | zero : n = 0 → MallocStep segs brk maxAddr n NULL segs
  /-- The first block that fits. -/
  | fit (l₁ l₂ new : List Seg) (f : Seg) : n ≠ 0 → segs = l₁ ++ f :: l₂ → Fits (adjust n) f = true →
      (∀ z ∈ l₁, Fits (adjust n) z = false) → Placed f n new →
      MallocStep segs brk maxAddr n f.ptr (l₁ ++ new ++ l₂)
  /-- No block fits: a new one at the top of the heap, merged with the last if that is free. -/
  | grow (l₁ new : List Seg) (x y : Seg) : n ≠ 0 → (∀ z ∈ segs, Fits (adjust n) z = false) →
      x.kind = .free → x.ptr = brk → x.size = max (adjust n) chunkSize → brk + x.size ≤ maxAddr →
      Merged segs x [] l₁ y [] → Placed y n new → MallocStep segs brk maxAddr n y.ptr (l₁ ++ new)
  /-- No block fits and the heap cannot grow. -/
  | full : n ≠ 0 → (∀ z ∈ segs, Fits (adjust n) z = false) →
      maxAddr < brk + max (adjust n) chunkSize → MallocStep segs brk maxAddr n NULL segs

/-- What the release of the block at `p` does to a layout: the block becomes free and takes up its
free neighbours. -/
inductive FreeStep (segs : List Seg) (p : ℕ) : List Seg → Prop
  | mk (l₁ l₂ l₁' l₂' : List Seg) (x f y : Seg) (n : ℕ) : segs = l₁ ++ x :: l₂ → x.kind = .live n →
      x.ptr = p → f.kind = .free → f.ptr = x.ptr → f.size = x.size → Merged l₁ f l₂ l₁' y l₂' →
      FreeStep segs p (l₁' ++ y :: l₂')

/-! ### Segments are determined by their data -/

/-- A block is its kind, its address and its size. -/
theorem Seg.eq_of (hk : x.kind = y.kind) (hp : x.ptr = y.ptr) (hs : x.size = y.size) : x = y := by
  cases x
  cases y
  simp only at hk hp hs
  subst hk hp hs
  rfl

/-- There is one way to place a request in a block. -/
theorem Placed.unique {new new' : List Seg} (h : Placed f n new) (h' : Placed f n new') :
    new = new' := by
  cases h with
  | whole x hk hp hs hlt =>
    cases h' with
    | whole x' hk' hp' hs' _ =>
      rw [Seg.eq_of (hk.trans hk'.symm) (hp.trans hp'.symm) (hs.trans hs'.symm)]
    | split x' r' _ _ _ _ _ _ hle => omega
  | split x r hk hp hs hrk hrp hrs hle =>
    cases h' with
    | whole x' _ _ _ hlt => omega
    | split x' r' hk' hp' hs' hrk' hrp' hrs' _ =>
      rw [Seg.eq_of (hk.trans hk'.symm) (hp.trans hp'.symm) (hs.trans hs'.symm),
        Seg.eq_of (hrk.trans hrk'.symm) (hrp.trans hrp'.symm) (hrs.trans hrs'.symm)]

/-- A block that is free and one that is not are not the same. -/
theorem PrevAlloc.not_free (h : PrevAlloc (l₁ ++ [p])) : ¬ p.isFree = true := by
  rw [h p (by simp)]
  exact Bool.false_ne_true

/-- The next block is not free. -/
theorem NextAlloc.not_free (h : NextAlloc (q :: l₂)) : ¬ q.isFree = true := by
  rw [h q (by simp)]
  exact Bool.false_ne_true

/-- There is one way to merge a block with its neighbours. -/
theorem Merged.unique {k₁ k₂ : List Seg} {u : Seg} (h : Merged l₁ x l₂ l₁' y l₂')
    (h' : Merged l₁ x l₂ k₁ u k₂) : l₁' ++ y :: l₂' = k₁ ++ u :: k₂ ∧ l₁' = k₁ ∧ y = u := by
  cases h with
  | case1 hp hn =>
    cases h' with
    | case1 => exact ⟨rfl, rfl, rfl⟩
    | case2 q _ _ _ hl hq => exact absurd hq (hl ▸ hn).not_free
    | case3 p _ _ hl hp' => exact absurd hp' (hl ▸ hp).not_free
    | case4 p q _ _ _ hl hp' => exact absurd hp' (hl ▸ hp).not_free
  | case2 q y l₂' hp hl hq hy hptr hsize =>
    cases h' with
    | case1 _ hn => exact absurd hq (hl ▸ hn).not_free
    | case2 q' u k₂ _ hl' _ hu huptr husize =>
      obtain ⟨rfl, rfl⟩ := List.cons.inj (hl.symm.trans hl')
      have heq : y = u := Seg.eq_of (hy.trans hu.symm) (hptr.trans huptr.symm)
        (hsize.trans husize.symm)
      exact ⟨by rw [heq], rfl, heq⟩
    | case3 p _ _ hl' hp' => exact absurd hp' (hl' ▸ hp).not_free
    | case4 p q _ _ _ hl' hp' => exact absurd hp' (hl' ▸ hp).not_free
  | case3 p y l₁' hl hp hn hy hptr hsize =>
    cases h' with
    | case1 hp' => exact absurd hp (hl ▸ hp').not_free
    | case2 q _ _ hp' => exact absurd hp (hl ▸ hp').not_free
    | case3 p' u k₁ hl' _ _ hu huptr husize =>
      obtain ⟨rfl, hpp⟩ := List.append_inj' (hl.symm.trans hl') rfl
      obtain rfl := List.singleton_inj.mp hpp
      have heq : y = u := Seg.eq_of (hy.trans hu.symm) (hptr.trans huptr.symm)
        (hsize.trans husize.symm)
      exact ⟨by rw [heq], rfl, heq⟩
    | case4 p' q _ _ _ _ _ hl' hq' => exact absurd hq' (hl' ▸ hn).not_free
  | case4 p q y l₁' l₂' hl hp hl₂ hq hy hptr hsize =>
    cases h' with
    | case1 hp' => exact absurd hp (hl ▸ hp').not_free
    | case2 q _ _ hp' => exact absurd hp (hl ▸ hp').not_free
    | case3 p' u k₁ hl' _ hn => exact absurd hq (hl₂ ▸ hn).not_free
    | case4 p' q' u k₁ k₂ hl' _ hl₂' _ hu huptr husize =>
      obtain ⟨rfl, hpp⟩ := List.append_inj' (hl.symm.trans hl') rfl
      obtain rfl := List.singleton_inj.mp hpp
      obtain ⟨rfl, rfl⟩ := List.cons.inj (hl₂.symm.trans hl₂')
      have heq : y = u := Seg.eq_of (hy.trans hu.symm) (hptr.trans huptr.symm)
        (hsize.trans husize.symm)
      exact ⟨by rw [heq], rfl, heq⟩

/-- The first element with a property cuts a list in one way only. -/
theorem eq_of_first {P : Seg → Prop} {k₁ k₂ : List Seg} (h : l₁ ++ x :: l₂ = k₁ ++ y :: k₂)
    (hx : P x) (hy : P y) (hl : ∀ z ∈ l₁, ¬ P z) (hk : ∀ z ∈ k₁, ¬ P z) :
    l₁ = k₁ ∧ x = y ∧ l₂ = k₂ := by
  induction l₁ generalizing k₁ with
  | nil =>
    cases k₁ with
    | nil => exact ⟨rfl, List.cons.inj h⟩
    | cons u k₁ =>
      obtain ⟨rfl, -⟩ := List.cons.inj h
      exact absurd hx (hk x (by simp))
  | cons u l₁ ih =>
    cases k₁ with
    | nil =>
      obtain ⟨rfl, -⟩ := List.cons.inj h
      exact absurd hy (hl u (by simp))
    | cons w k₁ =>
      obtain ⟨rfl, hrest⟩ := List.cons.inj h
      obtain ⟨rfl, h₂⟩ := ih hrest (fun z hz => hl z (by simp [hz])) fun z hz => hk z (by simp [hz])
      exact ⟨rfl, h₂⟩

/-- **A request has one outcome.** -/
theorem MallocStep.unique {brk maxAddr i j : ℕ} (h : MallocStep segs brk maxAddr n i segs')
    (h' : MallocStep segs brk maxAddr n j new) : i = j ∧ segs' = new := by
  have hno : ∀ {l k : List Seg} {g : Seg}, segs = l ++ g :: k → Fits (adjust n) g = true →
      ¬ ∀ z ∈ segs, Fits (adjust n) z = false := by
    intro l k g hsegs hg hall
    rw [hall g (by simp [hsegs])] at hg
    exact Bool.false_ne_true hg
  cases h with
  | zero hn =>
    cases h' with
    | zero => exact ⟨rfl, rfl⟩
    | fit _ _ _ _ hn' => exact absurd hn hn'
    | grow _ _ _ _ hn' => exact absurd hn hn'
    | full hn' => exact absurd hn hn'
  | fit l₁ l₂ new f hn hsegs hf hl hplaced =>
    cases h' with
    | zero hn' => exact absurd hn' hn
    | fit k₁ k₂ new' g _ hsegs' hg hk hplaced' =>
      obtain ⟨rfl, rfl, rfl⟩ := eq_of_first (P := fun z => Fits (adjust n) z = true)
        (hsegs.symm.trans hsegs') hf hg (by simpa using hl) (by simpa using hk)
      exact ⟨rfl, by rw [hplaced.unique hplaced']⟩
    | grow _ _ _ _ _ hall => exact absurd hall (hno hsegs hf)
    | full _ hall => exact absurd hall (hno hsegs hf)
  | grow l₁ new x y hn hall hx hxp hxs hroom hmerged hplaced =>
    cases h' with
    | zero hn' => exact absurd hn' hn
    | fit k₁ k₂ new' g _ hsegs' hg => exact absurd hall (hno hsegs' hg)
    | grow k₁ new' u v _ _ hu hup hus _ hmerged' hplaced' =>
      obtain rfl : x = u := Seg.eq_of (hx.trans hu.symm) (hxp.trans hup.symm) (hxs.trans hus.symm)
      obtain ⟨-, rfl, rfl⟩ := hmerged.unique hmerged'
      exact ⟨rfl, by rw [hplaced.unique hplaced']⟩
    | full _ _ hfull => omega
  | full hn hall hfull =>
    cases h' with
    | zero hn' => exact absurd hn' hn
    | fit k₁ k₂ new' g _ hsegs' hg => exact absurd hall (hno hsegs' hg)
    | grow k₁ new' u v _ _ hu hup hus hroom => omega
    | full => exact ⟨rfl, rfl⟩

/-- **A release has one outcome.** -/
theorem FreeStep.unique {i : ℕ} (h : FreeStep segs i segs') (h' : FreeStep segs i new)
    (hnd : (segs.map Seg.ptr).Nodup) : segs' = new := by
  obtain ⟨l₁, l₂, l₁', l₂', x, f, y, n, hsegs, hx, hptr, hf, hfp, hfs, hmerged⟩ := h
  obtain ⟨k₁, k₂, k₁', k₂', u, g, v, k, hsegs', hu, huptr, hg, hgp, hgs, hmerged'⟩ := h'
  -- the block at the pointer is the first one there
  have hfirst : ∀ {l₁ l₂ : List Seg} {x : Seg}, segs = l₁ ++ x :: l₂ → x.ptr = i →
      ∀ z ∈ l₁, ¬ z.ptr = i := by
    rintro l₁ l₂ x hsegs hx z hz hzi
    rw [hsegs, List.map_append, List.map_cons, List.nodup_append] at hnd
    exact hnd.2.2 z.ptr (List.mem_map_of_mem hz) x.ptr (by simp) (hzi.trans hx.symm)
  obtain ⟨rfl, rfl, rfl⟩ := eq_of_first (P := fun z => z.ptr = i) (hsegs.symm.trans hsegs') hptr
    huptr (hfirst hsegs hptr) (hfirst hsegs' huptr)
  obtain rfl : f = g := Seg.eq_of (hf.trans hg.symm) (hfp.trans hgp.symm) (hfs.trans hgs.symm)
  exact (hmerged.unique hmerged').1

/-! ## The representation -/

/-- One of two neighbours is allocated. -/
abbrev OneAllocated (x y : Seg) : Prop := x.isFree = false ∨ y.isFree = false

/-- `s` represents the layout `segs`: the blocks follow each other, their tags are right, and no two
neighbours are free. -/
structure Rep (s : State) (segs : List Seg) : Prop where
  blocks : Blocks s segs
  isBlock : ∀ z ∈ segs, z.IsBlock
  apart : segs.IsChain OneAllocated

/-- The sum of what `coalesce` leaves: blocks again, and no two free neighbours. -/
theorem Merged.rep (h : Merged l₁ x l₂ l₁' y l₂') (hx : x.kind = .free)
    (hall : ∀ z ∈ l₁ ++ l₂, z.IsBlock)
    (h₁ : l₁.IsChain OneAllocated)
    (h₂ : l₂.IsChain OneAllocated) :
    (∀ z ∈ l₁' ++ y :: l₂', z.IsBlock) ∧
      (l₁' ++ y :: l₂').IsChain OneAllocated := by
  have hyk : y.kind = .free := by
    cases h <;> assumption
  have hyf : y.isFree = true := Seg.isFree_iff.mpr hyk
  have hyb : y.IsBlock := Seg.IsBlock.of_isFree hyf
  -- a free block between two allocated ones
  have hchain : l₁'.IsChain OneAllocated → PrevAlloc l₁' →
      l₂'.IsChain OneAllocated → NextAlloc l₂' →
      (l₁' ++ y :: l₂').IsChain OneAllocated := by
    intro hc₁ hprev hc₂ hnext
    refine hc₁.append (hc₂.cons fun z hz => .inr (hnext z hz)) fun z hz w hw => .inl (hprev z hz)
  have hleft : ∀ {p : Seg} {l : List Seg}, l₁ = l ++ [p] → p.isFree = true →
      l.IsChain OneAllocated ∧ PrevAlloc l := by
    rintro p l rfl hp
    obtain ⟨hl, -, hlast⟩ := List.isChain_append.mp h₁
    refine ⟨hl, fun z hz => ?_⟩
    rcases hlast z hz p (by simp) with hz | hp'
    · exact hz
    · rw [hp] at hp'
      cases hp'
  have hright : ∀ {q : Seg} {l : List Seg}, l₂ = q :: l → q.isFree = true →
      l.IsChain OneAllocated ∧ NextAlloc l := by
    rintro q l rfl hq
    obtain ⟨hhead, hl⟩ := List.isChain_cons.mp h₂
    refine ⟨hl, fun z hz => ?_⟩
    rcases hhead z hz with hq' | hz
    · rw [hq] at hq'
      cases hq'
    · exact hz
  cases h with
  | case1 hprev hnext =>
    exact ⟨by simp only [List.forall_mem_append, List.forall_mem_cons] at hall ⊢
              exact ⟨hall.1, hyb, hall.2⟩, hchain h₁ hprev h₂ hnext⟩
  | case2 q y l₂' hprev hl₂ hq =>
    obtain ⟨hc, hnext⟩ := hright hl₂ hq
    subst hl₂
    simp only [List.forall_mem_append, List.forall_mem_cons] at hall ⊢
    exact ⟨⟨hall.1, hyb, hall.2.2⟩, hchain h₁ hprev hc hnext⟩
  | case3 p y l₁' hl₁ hp hnext =>
    obtain ⟨hc, hprev⟩ := hleft hl₁ hp
    subst hl₁
    simp only [List.forall_mem_append, List.forall_mem_cons] at hall ⊢
    exact ⟨⟨hall.1.1, hyb, hall.2⟩, hchain hc hprev h₂ hnext⟩
  | case4 p q y l₁' l₂' hl₁ hp hl₂ hq =>
    obtain ⟨hc, hprev⟩ := hleft hl₁ hp
    obtain ⟨hc', hnext⟩ := hright hl₂ hq
    subst hl₁ hl₂
    simp only [List.forall_mem_append, List.forall_mem_cons] at hall ⊢
    exact ⟨⟨hall.1.1, hyb, hall.2.2⟩, hchain hc hprev hc' hnext⟩

/-- What `place` leaves: blocks again, and no two free neighbours. -/
theorem Placed.rep (h : Placed f n new) (hf : f.isFree = true)
    (hall : ∀ z ∈ l₁ ++ f :: l₂, z.IsBlock) (hc : (l₁ ++ f :: l₂).IsChain OneAllocated) :
    (∀ z ∈ l₁ ++ new ++ l₂, z.IsBlock) ∧ (l₁ ++ new ++ l₂).IsChain OneAllocated := by
  obtain ⟨hc₁, hc₂, -⟩ := List.isChain_append.mp hc
  obtain ⟨hnext, hc₂⟩ := List.isChain_cons.mp hc₂
  simp only [List.forall_mem_append, List.forall_mem_cons] at hall
  -- whatever follows the free block is allocated
  have hnext : ∀ z ∈ l₂.head?, z.isFree = false := by
    intro z hz
    rcases hnext z hz with hf' | hz
    · rw [hf] at hf'
      cases hf'
    · exact hz
  cases h with
  | whole x hx _ _ _ =>
    have hxf : x.isFree = false := by simp [Seg.isFree, hx]
    simp only [List.append_assoc, List.singleton_append, List.forall_mem_append,
      List.forall_mem_cons]
    exact ⟨⟨hall.1, by simp [Seg.IsBlock, hx], hall.2.2⟩,
      hc₁.append (hc₂.cons fun z _ => .inl hxf)
        fun z _ w hw => .inr (Option.mem_some_iff.mp hw ▸ hxf)⟩
  | split x r hx _ _ hr _ _ _ =>
    have hxf : x.isFree = false := by simp [Seg.isFree, hx]
    simp only [List.append_assoc, List.cons_append, List.nil_append, List.forall_mem_append,
      List.forall_mem_cons]
    refine ⟨⟨hall.1, by simp [Seg.IsBlock, hx], by simp [Seg.IsBlock, hr], hall.2.2⟩, ?_⟩
    have hcr : (r :: l₂).IsChain OneAllocated := hc₂.cons fun z hz => .inr (hnext z hz)
    exact hc₁.append (hcr.cons fun z _ => .inl hxf)
      fun z _ w hw => .inr (Option.mem_some_iff.mp hw ▸ hxf)

/-! ## `find_fit` -/

/-- The loop of `find_fit`, from a block on. -/
theorem findFitFuel_eq (h : Blocks s segs) {l : List Seg} {lo : ℕ}
    (hl : ∀ z ∈ l, z ∈ segs ∧ z.IsBlock) (ht : Tiles Seg.ptr Seg.size lo l s.memBrk) :
    ∀ fuel, l.length < fuel →
      findFitFuel fuel s a lo = some (((l.find? (Fits a)).map Seg.ptr).getD NULL) := by
  induction l generalizing lo with
  | nil =>
    intro fuel hfuel
    obtain ⟨fuel, rfl⟩ := Nat.exists_eq_succ_of_ne_zero (Nat.ne_of_gt hfuel)
    obtain rfl : lo = s.memBrk := ht
    simp [findFitFuel, h.get_epilogue.2]
  | cons z l ih =>
    intro fuel hfuel
    obtain ⟨fuel, rfl⟩ := Nat.exists_eq_succ_of_ne_zero (Nat.ne_of_gt (Nat.zero_lt_of_lt hfuel))
    obtain ⟨rfl, ht'⟩ := ht
    obtain ⟨hz, hzb⟩ := hl z List.mem_cons_self
    have hpos : 0 < z.size := Nat.lt_of_lt_of_le (by norm_num) z.size_ge
    have hrest := ih (fun w hw => hl w (List.mem_cons_of_mem _ hw)) ht' fuel
      (Nat.lt_of_succ_lt_succ hfuel)
    simp only [findFitFuel, h.getSize_eq hz hzb, h.getAlloc_header hz hzb, h.nextBlkp_eq hz hzb,
      Option.bind_eq_bind, Option.bind_some, gt_iff_lt, hpos, if_true]
    by_cases hfits : Fits a z = true
    · obtain ⟨hfree, hle⟩ := Bool.and_eq_true_iff.mp hfits
      rw [List.find?_cons_of_pos hfits, hfree, if_pos ⟨rfl, of_decide_eq_true hle⟩]
      rfl
    · rw [List.find?_cons_of_neg hfits, if_neg ?_]
      · exact hrest
      · rintro ⟨halloc, hle⟩
        apply hfits
        unfold Fits
        rw [decide_eq_true hle, Bool.and_true]
        by_contra hno
        rw [if_neg hno] at halloc
        exact absurd halloc (by norm_num)

/-- `GET(HDRP(heap_listp))`: the prologue. -/
theorem get_listp (h : Blocks s segs) : get s (hdrp s.heapListp) = some 9 := by
  have hstart : s.memStartBrk + 16 ≤ s.memBrk := h.tiles.le
  have hle := h.brk_le
  have hlt := h.max_lt
  have hlistp := h.listp
  have hin : s.InHeap (s.memStartBrk + 4) := by
    unfold State.InHeap
    simp only [wsize]
    omega
  rw [hdrp_eq (by omega) (by omega), show s.heapListp - 4 = s.memStartBrk + 4 by omega,
    get_eq hin, h.prologue.1]

/-- **`find_fit`** returns the first block of the heap that fits. -/
theorem findFit_eq (h : Rep s segs) (a : ℕ) :
    findFit s a = some (((segs.find? (Fits a)).map Seg.ptr).getD NULL) := by
  have hb := h.blocks
  have hlen := hb.tiles.length_mul_le fun z _ => z.size_ge
  have hle := hb.brk_le
  have hlt := hb.max_lt
  obtain ⟨hsize, hnext, -⟩ := hb.get_prologue
  have halloc : getAlloc s (hdrp s.heapListp) = some 1 := by
    unfold getAlloc
    rw [get_listp hb]
    rfl
  have hrest := findFitFuel_eq (a := a) hb (fun z hz => ⟨hz, h.isBlock z hz⟩) hb.tiles (2 ^ 32 - 1)
    (by omega)
  change findFitFuel (2 ^ 32 - 1 + 1) s a s.heapListp = _
  simp only [findFitFuel, hsize, halloc, hnext, Option.bind_eq_bind, Option.bind_some, hrest]
  rfl

/-! ## `extend_heap` -/

/-- `mem_sbrk` on a represented heap. -/
theorem memSbrk_eq (h : Blocks s segs) (he : e < 2 ^ 32) (hwrap : NoWrap s e) :
    memSbrk s (toInt e) = if s.memBrk + e ≤ s.memMaxAddr then
      ({ s with memBrk := s.memBrk + e }, s.memBrk) else (s, minusOne) := by
  have hmax := h.max_eq
  have hstart : s.memStartBrk + 16 ≤ s.memBrk := h.tiles.le
  have h20 : maxHeap < 2 ^ 31 := by decide
  by_cases hsmall : e < 2 ^ 31
  · have hint : toInt e = e := if_pos hsmall
    have hadd : add s.memBrk e = s.memBrk + e := add_eq (hwrap hsmall)
    unfold memSbrk
    rw [hint, Int.toNat_natCast, hadd]
    by_cases hroom : s.memBrk + e ≤ s.memMaxAddr
    · rw [if_pos hroom, if_neg (by omega)]
    · rw [if_neg hroom, if_pos (by omega)]
  · have hneg : toInt e < 0 := by
      unfold toInt
      rw [if_neg hsmall]
      omega
    unfold memSbrk
    rw [if_pos (.inl hneg), if_neg (by omega)]

/-- The size that `extend_heap` computes from an even number of words. -/
theorem size_words (hemod : e % 8 = 0) (he : e < 2 ^ 32) :
    (if e / wsize % 2 ≠ 0 then mul (add (e / wsize) 1) wsize else mul (e / wsize) wsize) = e := by
  have heven : ¬ e / wsize % 2 ≠ 0 := by
    simp only [wsize]
    omega
  have hdvd : wsize ∣ e := Nat.dvd_of_mod_eq_zero (by simp only [wsize]; omega)
  rw [if_neg heven]
  unfold mul
  rw [Nat.div_mul_cancel hdvd, Nat.mod_eq_of_lt he]

/-- `extend_heap` of an even number of words, if the heap cannot grow so far. -/
theorem extendHeap_full (h : Blocks s segs) (hemod : e % 8 = 0) (he : e < 2 ^ 32)
    (hwrap : NoWrap s e) (hfull : s.memMaxAddr < s.memBrk + e) :
    extendHeap s (e / wsize) = some (s, NULL) := by
  have hsbrk : memSbrk s (toInt e) = (s, minusOne) := by
    rw [memSbrk_eq h he hwrap, if_neg (Nat.not_le.mpr hfull)]
  unfold extendHeap
  simp only [size_words hemod he, hsbrk, if_true]
  rfl

/-- The tags of a new free block `x` and the epilogue after it. -/
theorem extend_tags {t : State} (hx : x.kind = .free) (hlo : t.memStartBrk + 4 ≤ x.ptr)
    (hhi : x.ptr + x.size ≤ t.memMaxAddr) (hmax : t.memMaxAddr < 2 ^ 32) :
    ∃ m₁ m₂, putTags t x.ptr x.size = some { t with mem := m₁ } ∧
      nextBlkp { t with mem := m₁ } x.ptr = some (x.ptr + x.size) ∧
      put { t with mem := m₁ } (hdrp (x.ptr + x.size)) 1 = some { t with mem := m₂ } ∧
      x.Tagged m₂ x.size ∧ m₂.load32 (x.ptr + x.size - 4) = 1 ∧
      ∀ a, a < x.ptr - 4 → m₂ a = t.mem a := by
  have h16 : 16 ≤ x.size := Seg.IsBlock.size_ge (by simp [Seg.IsBlock, hx])
  have hmod := x.size_mod
  have htag := tagged_tagMem (m := t.mem) (x := x) (w := x.size) (by omega) (by omega) h16
  have hput := putTags_eq (s := t) (p := x.ptr) (k := x.size) (w := x.size) hlo hhi hmax (by omega)
    (by omega) (by omega)
  have hframe : ∀ a, a < x.ptr - 4 → tagMem t.mem x.ptr x.size x.size a = t.mem a := fun a ha =>
    tagMem_apply (.inl ha) (by omega) (by omega)
  generalize tagMem t.mem x.ptr x.size x.size = m₁ at hput htag hframe
  have hin : ∀ q, t.memStartBrk ≤ q → q + 4 ≤ x.ptr + x.size →
      ({ t with mem := m₁ } : State).InHeap q := fun q h₁ h₂ => ⟨h₁, h₂.trans hhi⟩
  refine ⟨m₁, m₁.store32 (x.ptr + x.size - 4) 1, hput, ?_, ?_, ?_, ?_, ?_⟩
  · unfold nextBlkp getSize
    rw [sub_eq (by simp only [wsize]; omega) (by omega),
      get_eq (hin _ (by simp only [wsize]; omega) (by simp only [wsize]; omega))]
    simp only [wsize, htag.1, Option.map_some, Option.bind_eq_bind, Option.bind_some]
    rw [and_mask (by omega), show x.size / 8 * 8 = x.size by omega, add_eq (by omega)]
  · rw [hdrp_eq (by omega) (by omega), put_eq (hin _ (by omega) (by omega))]
    rfl
  · refine htag.congr (by omega) fun a ha => Mem.store32_apply_of_not_mem ?_
    have := Seg.TagByte.extent ha
    unfold Seg.Extent at this
    omega
  · exact Mem.load32_store32_self (by norm_num)
  · intro a ha
    rw [Mem.store32_apply_of_not_mem (by omega), hframe a ha]

/-- `extend_heap` puts a free block on top of the heap and hands it to `coalesce`. -/
theorem extendHeap_eq (h : Blocks s segs) (hemod : e % 8 = 0) (he16 : 16 ≤ e) (he : e < 2 ^ 32)
    (hwrap : NoWrap s e) (hroom : s.memBrk + e ≤ s.memMaxAddr) : ∃ m₂ x,
      extendHeap s (e / wsize) = coalesce { s with mem := m₂, memBrk := s.memBrk + e } x.ptr ∧
      x.kind = .free ∧ x.ptr = s.memBrk ∧ x.size = e ∧
      Blocks { s with mem := m₂, memBrk := s.memBrk + e } (segs ++ [x]) ∧
      ∀ a, a < s.memBrk - 4 → m₂ a = s.mem a := by
  have hstart : s.memStartBrk + 16 ≤ s.memBrk := h.tiles.le
  have hmax := h.max_lt
  obtain ⟨x, hx, hxptr, hxsize⟩ : ∃ x : Seg, x.kind = .free ∧ x.ptr = s.memBrk ∧ x.size = e :=
    ⟨⟨s.memBrk, e, .free, h.brk_mod, hemod, he16⟩, rfl, rfl, rfl⟩
  obtain ⟨m₁, m₂, hput, hnext, hepi, htag, hload, hframe⟩ :=
    extend_tags (t := { s with memBrk := s.memBrk + e }) hx (by
      change s.memStartBrk + 4 ≤ _
      omega) (by
      change _ ≤ s.memMaxAddr
      omega) hmax
  have hne : s.memBrk ≠ minusOne := by
    unfold minusOne
    omega
  have hsbrk : memSbrk s (toInt e) = ({ s with memBrk := s.memBrk + e }, s.memBrk) := by
    rw [memSbrk_eq h he hwrap, if_pos hroom]
  have hone : pack 0 1 = 1 := by decide
  refine ⟨m₂, x, ?_, hx, hxptr, hxsize, ?_, fun a ha => hframe a (by omega)⟩
  · rw [hxsize, hxptr] at hput hnext hepi
    unfold extendHeap
    simp only [size_words hemod he, hsbrk, hne, if_false, pack_zero, hput, hnext, hone, hepi, hxptr,
      Option.bind_eq_bind, Option.bind_some]
  · rw [← hxsize]
    exact h.grow hxptr (by omega) (fun a ha => hframe a (by omega))
      (fun _ => by rw [Seg.word_free hx]; exact htag) (by rw [← hxptr]; exact hload)

/-- **`extend_heap`** of an even number of words: a free block at the top, merged with the last
block if that is free. -/
theorem extendHeap_spec (h : Rep s segs) (hemod : e % 8 = 0) (he16 : 16 ≤ e) (he : e < 2 ^ 32)
    (hwrap : NoWrap s e) (hroom : s.memBrk + e ≤ s.memMaxAddr) : ∃ m' l₁ x y,
      extendHeap s (e / wsize) = some ({ s with mem := m', memBrk := s.memBrk + e }, y.ptr) ∧
      x.kind = .free ∧ x.ptr = s.memBrk ∧ x.size = e ∧ Merged segs x [] l₁ y [] ∧
      Rep { s with mem := m', memBrk := s.memBrk + e } (l₁ ++ [y]) ∧
      ∀ a, a < s.memBrk - 4 → ¬ y.Extent a → m' a = s.mem a := by
  obtain ⟨m₂, x, heq, hx, hxptr, hxsize, hblocks, hframe⟩ :=
    extendHeap_eq h.blocks hemod he16 he hwrap hroom
  have hall : ∀ z ∈ segs ++ [x], z.IsBlock := by
    simp only [List.forall_mem_append, List.forall_mem_singleton]
    exact ⟨h.isBlock, by simp [Seg.IsBlock, hx]⟩
  obtain ⟨m', l₁, y, l₂, hco, hmerged, hblocks', hframe'⟩ := coalesce_spec hblocks hall hx
  have hl₂ : l₂ = [] := by
    cases hmerged with
    | case1 => rfl
    | case2 _ _ _ _ hnil => exact absurd hnil (by simp)
    | case3 => rfl
    | case4 _ _ _ _ _ _ _ hnil => exact absurd hnil (by simp)
  subst hl₂
  obtain ⟨hall', hchain⟩ := hmerged.rep hx (by simpa using h.isBlock) h.apart List.isChain_nil
  exact ⟨m', l₁, x, y, heq.trans hco, hx, hxptr, hxsize, hmerged, ⟨hblocks', hall', hchain⟩,
    fun a ha hy => (hframe' a hy).trans (hframe a ha)⟩

/-! ## `mm_malloc` -/

/-- A byte of the merged block is a byte of one of the blocks it is made of. -/
theorem Merged.not_extent (h : Merged l₁ x l₂ l₁' y l₂') (hx : x.kind = .free) {lo hi : ℕ}
    (ht : Tiles Seg.ptr Seg.size lo (l₁ ++ x :: l₂) hi) (hax : ¬ x.Extent a)
    (ha : ∀ z ∈ l₁ ++ l₂, z.isFree = true → ¬ z.Extent a) : ¬ y.Extent a := by
  obtain ⟨P, Q, rfl, rfl, hfree, hold, -⟩ := h.exists_old hx ht
  intro hext
  unfold Seg.Extent at hext
  obtain ⟨z, hz, hzlo, hzhi⟩ := hold.exists_mem (a := a + 4) (by omega) (by omega)
  have hza : z.Extent a := by
    unfold Seg.Extent
    omega
  rcases List.mem_append.mp hz with hP | hQ
  · exact ha z (by simp [hP]) (Seg.isFree_iff.mpr (hfree z hz)) hza
  · rcases List.mem_cons.mp hQ with rfl | hQ
    · exact hax hza
    · exact ha z (by simp [hQ]) (Seg.isFree_iff.mpr (hfree z hz)) hza

/-- **`mm_malloc`** returns, and what it returns is a step of the abstract allocator. A null result
leaves everything as it was; otherwise only bytes of free blocks and bytes from the old epilogue on
are written. -/
theorem mmMalloc_spec (h : Rep s segs) (hn : n + 15 < 2 ^ 32)
    (hwrap : NoWrap s (max (adjust n) chunkSize)) : ∃ s' i segs', mmMalloc s n = some (s', i) ∧
      Rep s' segs' ∧ MallocStep segs s.memBrk s.memMaxAddr n i segs' ∧
      s'.memStartBrk = s.memStartBrk ∧ s.memBrk ≤ s'.memBrk ∧ (i = NULL → s' = s) ∧
      ∀ a, a < s.memBrk - 4 → (∀ z ∈ segs, z.isFree = true → ¬ z.Extent a) →
        s'.mem a = s.mem a := by
  obtain ⟨hamod, hage, ha16, halt⟩ := adjust_spec hn
  have hb := h.blocks
  have hstart : s.memStartBrk + 16 ≤ s.memBrk := hb.tiles.le
  by_cases hpos : n = 0
  · exact ⟨s, NULL, segs, by simp [mmMalloc, hpos], h, .zero hpos, rfl, le_rfl, fun _ => rfl,
      fun _ _ _ => rfl⟩
  have hfind := findFit_eq h (adjust n)
  cases hf : segs.find? (Fits (adjust n)) with
  | some f =>
    -- the first fit
    obtain ⟨hfits, l₁, l₂, hsegs, hl⟩ := List.find?_eq_some_iff_append.mp hf
    subst hsegs
    obtain ⟨hfree, hle⟩ := Bool.and_eq_true_iff.mp hfits
    have hfmem : f ∈ l₁ ++ f :: l₂ := by simp
    obtain ⟨m', new, hplace, hplaced, hblocks, hframe⟩ :=
      place_spec hb (Seg.isFree_iff.mp hfree) hn (of_decide_eq_true hle)
    obtain ⟨hall, hchain⟩ := hplaced.rep hfree h.isBlock h.apart
    have hne : f.ptr ≠ NULL := hb.ptr_ne_null hfmem
    refine ⟨{ s with mem := m' }, f.ptr, l₁ ++ new ++ l₂, ?_, ⟨hblocks, hall, hchain⟩,
      .fit l₁ l₂ new f hpos rfl hfits (by simpa using hl) hplaced, rfl, le_rfl,
      fun hnull => absurd hnull hne, fun a _ ha => hframe a (ha f hfmem hfree)⟩
    rw [hf] at hfind
    simp [mmMalloc, hpos, hfind, hne, hplace]
  | none =>
    have hno : ∀ z ∈ segs, Fits (adjust n) z = false := by
      simpa using List.find?_eq_none.mp hf
    rw [hf] at hfind
    obtain ⟨e, he⟩ : ∃ e, e = max (adjust n) chunkSize := ⟨_, rfl⟩
    have hechunk : chunkSize ≤ e := he ▸ Nat.le_max_right _ _
    have hea : adjust n ≤ e := he ▸ Nat.le_max_left _ _
    have hemod : e % 8 = 0 := by
      rcases Nat.le_total (adjust n) chunkSize with hle | hle
      · rw [he, Nat.max_eq_right hle]
        norm_num
      · rw [he, Nat.max_eq_left hle, hamod]
    have helt : e < 2 ^ 32 := by
      rw [he]
      exact Nat.max_lt.mpr ⟨by omega, by norm_num [chunkSize]⟩
    rw [← he] at hwrap
    by_cases hroom : s.memBrk + e ≤ s.memMaxAddr
    · -- a new block
      have he16 : 16 ≤ e := ha16.trans hea
      obtain ⟨m₁, l₁, x, y, hext, hx, hxptr, hxsize, hmerged, hrep, hframe⟩ :=
        extendHeap_spec h hemod he16 helt hwrap hroom
      have ht : Tiles Seg.ptr Seg.size (s.memStartBrk + 16) (segs ++ [x]) (s.memBrk + x.size) :=
        hb.tiles.concat hxptr
      obtain ⟨P, Q, -, hQ, hfree, hold, hy⟩ := hmerged.exists_old hx ht
      have hxin := hold.bounds (x := x) (by simp)
      have hplaceable : adjust n ≤ y.size := by omega
      have hyf : y.isFree = true := Seg.isFree_iff.mpr hy
      obtain ⟨m₂, new, hplace, hplaced, hblocks, hframe'⟩ :=
        place_spec (show Blocks _ (l₁ ++ y :: []) from hrep.blocks) hy hn hplaceable
      obtain ⟨hall, hchain⟩ := hplaced.rep hyf hrep.isBlock hrep.apart
      have hyne : y.ptr ≠ NULL := hrep.blocks.ptr_ne_null (by simp)
      rw [List.append_nil] at hblocks hall hchain
      refine ⟨{ s with mem := m₂, memBrk := s.memBrk + e }, y.ptr, l₁ ++ new, ?_,
        ⟨hblocks, hall, hchain⟩, .grow l₁ new x y hpos hno hx hxptr (hxsize.trans he)
          (by rw [hxsize]; exact hroom) hmerged hplaced, rfl, Nat.le_add_right _ _,
        fun hnull => absurd hnull hyne, ?_⟩
      · have hplace' : place { s with mem := m₁, memBrk := s.memBrk + e } y.ptr (adjust n) =
            some { s with mem := m₂, memBrk := s.memBrk + e } := hplace
        simp [mmMalloc, hpos, hfind, ← he, hext, hyne, hplace']
      · intro a hlo ha
        have hxa : ¬ x.Extent a := by
          unfold Seg.Extent
          omega
        have hya := hmerged.not_extent hx ht hxa (by simpa using ha)
        exact (hframe' a hya).trans (hframe a hlo hya)
    · -- the heap is full
      have hfull : s.memMaxAddr < s.memBrk + e := Nat.not_le.mp hroom
      have hext := extendHeap_full hb hemod helt hwrap hfull
      exact ⟨s, NULL, segs, by simp [mmMalloc, hpos, hfind, ← he, hext], h,
        .full hpos hno (he ▸ hfull), rfl, le_rfl, fun _ => rfl, fun _ _ _ => rfl⟩

/-! ## `mm_free` -/

/-- **`mm_free`** of a live block returns, frees the block, merges it with its free neighbours, and
writes only in its extent and in those of free blocks. -/
theorem mmFree_spec (h : Rep s segs) (hx : x ∈ segs) (hlive : x.kind = .live n) :
    ∃ m' segs', mmFree s x.ptr = some { s with mem := m' } ∧ Rep { s with mem := m' } segs' ∧
      FreeStep segs x.ptr segs' ∧
      ∀ a, ¬ x.Extent a → (∀ z ∈ segs, z.isFree = true → ¬ z.Extent a) → m' a = s.mem a := by
  have hb := h.blocks
  have hxb := h.isBlock x hx
  have h16 := hxb.size_ge
  have hbx := hb.bounds hx
  have hmod := x.size_mod
  obtain ⟨l₁, l₂, rfl⟩ := List.append_of_mem hx
  obtain ⟨f, hf, hfptr, hfsize⟩ := exists_free x hmod h16
  -- the block becomes free
  have hput := putTags_eq (s := s) (p := f.ptr) (k := f.size) (w := f.size) (by omega) (by omega)
    hb.max_lt (by omega) (by omega) (by omega)
  have hblocks : Blocks { s with mem := tagMem s.mem f.ptr f.size f.size } (l₁ ++ f :: l₂) := by
    have hold : Blocks s (l₁ ++ [x] ++ l₂) := by simpa using hb
    have hnew : Tiles Seg.ptr Seg.size x.ptr [f] (x.ptr + x.size) :=
      ⟨hfptr, by rw [Tiles.nil_iff, hfsize]⟩
    have hsplice : Blocks { s with mem := tagMem s.mem f.ptr f.size f.size } (l₁ ++ [f] ++ l₂) := by
      apply hold.splice (by simp) ⟨rfl, rfl⟩ hnew
      · intro a ha
        exact tagMem_apply (by omega) (by omega) (by omega)
      · intro z hz _
        rw [List.mem_singleton.mp hz, Seg.word_free hf]
        exact tagged_tagMem (by omega) (by omega) (by omega)
    simpa using hsplice
  have hall : ∀ z ∈ l₁ ++ f :: l₂, z.IsBlock := by
    have := h.isBlock
    simp only [List.forall_mem_append, List.forall_mem_cons] at this ⊢
    exact ⟨this.1, by simp [Seg.IsBlock, hf], this.2.2⟩
  obtain ⟨m', l₁', y, l₂', hco, hmerged, hblocks', hframe⟩ := coalesce_spec hblocks hall hf
  obtain ⟨hc₁, hc₂, -⟩ := List.isChain_append.mp h.apart
  obtain ⟨hall', hchain⟩ := hmerged.rep hf (by
    have := h.isBlock
    simp only [List.forall_mem_append, List.forall_mem_cons] at this ⊢
    exact ⟨this.1, this.2.2⟩) hc₁ (List.isChain_cons.mp hc₂).2
  refine ⟨m', l₁' ++ y :: l₂', ?_, ⟨hblocks', hall', hchain⟩,
    .mk l₁ l₂ l₁' l₂' x f y n rfl hlive rfl hf hfptr hfsize hmerged, ?_⟩
  · rw [hfptr, hfsize] at hput hco
    simp [mmFree, hb.getSize_eq hx hxb, pack_zero, hput, hco]
  · intro a hxa ha
    have hfa : ¬ f.Extent a := by
      unfold Seg.Extent at hxa ⊢
      rwa [hfptr, hfsize]
    have hya := hmerged.not_extent hf hblocks.tiles hfa (by
      simp only [List.forall_mem_append, List.forall_mem_cons] at ha ⊢
      exact ⟨ha.1, ha.2.2⟩)
    rw [hframe a hya]
    unfold Seg.Extent at hfa
    exact tagMem_apply (by omega) (by omega) (by omega)

/-! ## `mm_init` -/

/-- `mem_sbrk(4*WSIZE)` on an empty heap. -/
theorem memSbrk_init (h : HeapObject s) (hbrk : s.memBrk = s.memStartBrk) :
    memSbrk s (4 * wsize) = ({ s with memBrk := s.memStartBrk + 16 }, s.memStartBrk) := by
  have hmax := h.max_eq
  have hlt := h.max_lt
  have h16 : 16 ≤ maxHeap := by decide
  have hint : ((4 : ℤ) * (wsize : ℕ)).toNat = 16 := rfl
  have hge : ¬ (4 : ℤ) * (wsize : ℕ) < 0 := by decide
  have hadd : add s.memStartBrk 16 = s.memStartBrk + 16 := add_eq (by omega)
  unfold memSbrk
  rw [hint, hbrk, hadd, if_neg (by omega)]

/-- Prologue and epilogue of an empty heap. -/
theorem blocks_init {t : State} (h : HeapObject t) (hbrk : t.memBrk = t.memStartBrk + 16)
    (hlistp : t.heapListp = t.memStartBrk + 8) (hmem : t.mem = initMem t.memStartBrk m) :
    Rep t [] where
  blocks := by
    have hmax := h.max_eq
    have h16 : 16 ≤ maxHeap := by decide
    refine ⟨h.start_mod, hmax, h.max_lt, by omega, hlistp, ⟨?_, ?_⟩, ?_, hbrk.symm, by simp⟩
    · rw [hmem, initMem, Mem.load32_store32_of_disjoint (by omega),
        Mem.load32_store32_of_disjoint (by omega), Mem.load32_store32_self (by norm_num)]
    · rw [hmem, initMem, Mem.load32_store32_of_disjoint (by omega),
        Mem.load32_store32_self (by norm_num)]
    · rw [hbrk, hmem, initMem, show t.memStartBrk + 16 - 4 = t.memStartBrk + 12 by omega,
        Mem.load32_store32_self (by norm_num)]
  isBlock := by simp
  apart := List.isChain_nil

/-- The four stores of `mm_init`. -/
theorem put_init {u : State} {i : ℕ} (hlo : u.memStartBrk = i) (hhi : i + 16 ≤ u.memMaxAddr) :
    ∃ u₁ u₂ u₃, put u i 0 = some u₁ ∧ put u₁ (i + 4) 9 = some u₂ ∧
      put u₂ (i + 8) 9 = some u₃ ∧
      put u₃ (i + 12) 1 = some { u with mem := initMem i u.mem } := by
  have hin : ∀ (m : Mem) (q : ℕ), i ≤ q → q + 4 ≤ i + 16 →
      ({ u with mem := m } : State).InHeap q := by
    intro m q h₁ h₂
    unfold State.InHeap
    simp only [wsize]
    omega
  exact ⟨_, _, _, put_eq (hin u.mem i le_rfl (by omega)), put_eq (hin _ _ (by omega) (by omega)),
    put_eq (hin _ _ (by omega) (by omega)), put_eq (hin _ _ (by omega) (by omega))⟩

/-- **`mm_init`** on an empty heap leads to one free block of `CHUNKSIZE` bytes. -/
theorem mmInit_spec (h : HeapObject s) (hbrk : s.memBrk = s.memStartBrk) : ∃ s' x,
    mmInit s = some (s', 0) ∧ Rep s' [x] ∧ x.kind = .free ∧ x.size = chunkSize ∧ HeapObject s' ∧
      s'.memStartBrk = s.memStartBrk := by
  have hmax := h.max_eq
  have hlt := h.max_lt
  have hpos := h.start_pos
  have h20 : 16 + chunkSize ≤ maxHeap := by decide
  have hchunk : chunkSize = 4096 := rfl
  obtain ⟨u₁, u₂, u₃, h₁, h₂, h₃, h₄⟩ :=
    put_init (u := { s with memBrk := s.memStartBrk + 16, heapListp := s.memStartBrk })
      (i := s.memStartBrk) rfl (by
      change _ ≤ s.memMaxAddr
      omega)
  have hadd₁ : add s.memStartBrk wsize = s.memStartBrk + 4 := add_eq (by simp only [wsize]; omega)
  have hadd₂ : add s.memStartBrk dsize = s.memStartBrk + 8 := add_eq (by simp only [dsize]; omega)
  have hadd₃ : add s.memStartBrk (wsize + dsize) = s.memStartBrk + 12 :=
    add_eq (by simp only [wsize, dsize]; omega)
  have hpro : pack overhead 1 = 9 := by decide
  have hepi : pack 0 1 = 1 := by decide
  -- the empty heap, and the first block
  have hrep : Rep { s with
      mem := initMem s.memStartBrk s.mem, memBrk := s.memStartBrk + 16,
      heapListp := s.memStartBrk + 8 } [] :=
    blocks_init (m := s.mem) ⟨h.start_mod, h.start_pos, hmax, hlt⟩ rfl rfl rfl
  obtain ⟨m', l₁, x, y, hext, hx, hxptr, hxsize, hmerged, hrep', -⟩ :=
    extendHeap_spec (e := chunkSize) hrep (by decide) (by decide) (by decide) (fun _ => by
      change s.memStartBrk + 16 + chunkSize < _
      omega) (by
      change s.memStartBrk + 16 + chunkSize ≤ s.memMaxAddr
      omega)
  obtain ⟨rfl, rfl⟩ : l₁ = [] ∧ x = y := by
    cases hmerged with
    | case1 => exact ⟨rfl, rfl⟩
    | case2 _ _ _ _ hnil => exact absurd hnil (by simp)
    | case3 _ _ _ hnil => exact absurd hnil (by simp)
    | case4 _ _ _ _ _ hnil => exact absurd hnil (by simp)
  have hne : s.memStartBrk ≠ NULL := by
    simp only [NULL]
    omega
  have hxne : x.ptr ≠ NULL := hrep'.blocks.ptr_ne_null (by simp)
  refine ⟨_, x, ?_, hrep', hx, hxsize, ⟨h.start_mod, hpos, hmax, hlt⟩, rfl⟩
  unfold mmInit
  simp only [memSbrk_init h hbrk, hne, if_false, hadd₁, hadd₂, hadd₃, hpro, hepi, h₁, h₂, h₃, h₄,
    hext, hxne, Option.bind_eq_bind, Option.bind_some]
  rfl

end SystemsLabs.Malloclab.FirstFit
