import SystemsLabs.Malloclab.Splice

/-!
# What `coalesce` and `place` of `mm-firstfit.c` do to the layout

The two functions that rewrite blocks. `Merged` says which free block `coalesce` makes of a free
block and its neighbours, one constructor for each of its four cases, and `Placed` what `place`
makes of a free block. `coalesce_spec` and `place_spec` are the refinement, with the frame.
-/

namespace SystemsLabs.Malloclab.FirstFit

open SystemsLabs.Lib

variable {s : State} {segs l₁ l₂ l₁' l₂' new : List Seg} {f p q x y z : Seg} {m : Mem}
  {a b n v w : ℕ}

/-! ## The abstract steps -/

/-- The block before, if there is one, is allocated. -/
def PrevAlloc (l₁ : List Seg) : Prop := ∀ p ∈ l₁.getLast?, p.isFree = false

/-- The block after, if there is one, is allocated. -/
def NextAlloc (l₂ : List Seg) : Prop := ∀ q ∈ l₂.head?, q.isFree = false

/-- Between `l₁` and `l₂` the free block `x` becomes the free block `y` between `l₁'` and `l₂'`: it
takes up its free neighbours. -/
inductive Merged (l₁ : List Seg) (x : Seg) (l₂ : List Seg) : List Seg → Seg → List Seg → Prop
  | case1 : PrevAlloc l₁ → NextAlloc l₂ → Merged l₁ x l₂ l₁ x l₂
  | case2 (q y : Seg) (l₂' : List Seg) : PrevAlloc l₁ → l₂ = q :: l₂' → q.isFree = true →
      y.kind = .free → y.ptr = x.ptr → y.size = x.size + q.size → Merged l₁ x l₂ l₁ y l₂'
  | case3 (p y : Seg) (l₁' : List Seg) : l₁ = l₁' ++ [p] → p.isFree = true → NextAlloc l₂ →
      y.kind = .free → y.ptr = p.ptr → y.size = p.size + x.size → Merged l₁ x l₂ l₁' y l₂
  | case4 (p q y : Seg) (l₁' l₂' : List Seg) : l₁ = l₁' ++ [p] → p.isFree = true → l₂ = q :: l₂' →
      q.isFree = true → y.kind = .free → y.ptr = p.ptr → y.size = p.size + x.size + q.size →
      Merged l₁ x l₂ l₁' y l₂'

/-- `place` makes these blocks of the free block `f` for a request of `n` bytes. -/
inductive Placed (f : Seg) (n : ℕ) : List Seg → Prop
  /-- The remainder would be too small for a block. -/
  | whole (x : Seg) : x.kind = .live n → x.ptr = f.ptr → x.size = f.size → f.size < adjust n + 16 →
      Placed f n [x]
  | split (x r : Seg) : x.kind = .live n → x.ptr = f.ptr → x.size = adjust n → r.kind = .free →
      r.ptr = f.ptr + adjust n → r.size = f.size - adjust n → adjust n + 16 ≤ f.size →
      Placed f n [x, r]

namespace Merged

/-- The blocks that are taken up are free, and together they have the extent of the new one. -/
theorem exists_old (h : Merged l₁ x l₂ l₁' y l₂') (hx : x.kind = .free) {lo hi : ℕ}
    (ht : Tiles Seg.ptr Seg.size lo (l₁ ++ x :: l₂) hi) :
    ∃ P Q, l₁ = l₁' ++ P ∧ l₂ = Q ++ l₂' ∧ (∀ z ∈ P ++ x :: Q, z.kind = .free) ∧
      Tiles Seg.ptr Seg.size y.ptr (P ++ x :: Q) (y.ptr + y.size) ∧ y.kind = .free := by
  cases h with
  | case1 =>
    refine ⟨[], [], (List.append_nil _).symm, rfl, ?_, ⟨rfl, rfl⟩, hx⟩
    rintro z hz
    rw [List.mem_singleton.mp hz, hx]
  | case2 q y l₂' _ hl₂ hq hy hptr hsize =>
    subst hl₂
    have hnext : q.ptr = x.ptr + x.size := (ht.split.2).1
    rw [Seg.isFree_iff] at hq
    refine ⟨[], [q], (List.append_nil _).symm, rfl, ?_, ?_, hy⟩
    · simp [hx, hq]
    · rw [hptr, hsize]
      exact ⟨rfl, hnext, by rw [Tiles.nil_iff]; omega⟩
  | case3 p y l₁' hl₁ hp _ hy hptr hsize =>
    subst hl₁
    have hnext : x.ptr = p.ptr + p.size := by
      rw [List.append_assoc] at ht
      exact (ht.split.2).1
    rw [Seg.isFree_iff] at hp
    refine ⟨[p], [], rfl, rfl, ?_, ?_, hy⟩
    · simp [hx, hp]
    · rw [hptr, hsize]
      exact ⟨rfl, hnext, by rw [Tiles.nil_iff]; omega⟩
  | case4 p q y l₁' l₂' hl₁ hp hl₂ hq hy hptr hsize =>
    subst hl₁ hl₂
    have hnext : q.ptr = x.ptr + x.size := (ht.split.2).1
    have hprev : x.ptr = p.ptr + p.size := by
      rw [List.append_assoc] at ht
      exact (ht.split.2).1
    rw [Seg.isFree_iff] at hp hq
    refine ⟨[p], [q], rfl, rfl, ?_, ?_, hy⟩
    · simp [hx, hp, hq]
    · rw [hptr, hsize]
      exact ⟨rfl, hprev, by omega, by rw [Tiles.nil_iff]; omega⟩

end Merged

namespace Placed

/-- The new blocks have the extent of the old one. -/
theorem tiles (h : Placed f n new) : Tiles Seg.ptr Seg.size f.ptr new (f.ptr + f.size) := by
  cases h with
  | whole x _ hptr hsize _ => exact ⟨hptr, by rw [Tiles.nil_iff, hsize]⟩
  | split x r _ hptr hsize _ hrptr hrsize hle =>
    refine ⟨hptr, ?_, ?_⟩
    · rw [hsize, hrptr]
    · rw [Tiles.nil_iff, hsize, hrsize]
      omega

/-- The first of the new blocks is handed out. -/
theorem head (h : Placed f n new) : ∃ x rest, new = x :: rest ∧ x.kind = .live n ∧ x.ptr = f.ptr ∧
    ∀ r ∈ rest, r.kind = .free := by
  cases h with
  | whole x hk hptr _ _ => exact ⟨x, [], rfl, hk, hptr, by simp⟩
  | split x r hk hptr _ hr _ _ _ => exact ⟨x, [r], rfl, hk, hptr, by simp [hr]⟩

end Placed

/-! ## Reading around a block -/

section reading

variable (h : Blocks s (l₁ ++ x :: l₂)) (hall : ∀ z ∈ l₁ ++ x :: l₂, z.IsBlock)

include h hall

/-- The allocated bit that `coalesce` reads before a block that no free block precedes. -/
theorem prev_alloc (hprev : PrevAlloc l₁) : ∃ q, prevBlkp s x.ptr = some q ∧
    ftrp s q = some (x.ptr - 8) ∧ getAlloc s (x.ptr - 8) = some 1 := by
  have hb := h.bounds (x := x) (by simp)
  rcases List.eq_nil_or_concat l₁ with rfl | ⟨l, p, rfl⟩
  · -- the prologue
    have hptr : x.ptr = s.memStartBrk + 16 := h.tiles.1
    have hlistp := h.listp
    obtain ⟨hsize, -, -⟩ := h.get_prologue
    have hin : s.InHeap (s.memStartBrk + 8) := by
      unfold State.InHeap
      simp only [wsize]
      omega
    have hget : get s (s.memStartBrk + 8) = some 9 := by rw [get_eq hin, h.prologue.2]
    have hsub : sub x.ptr dsize = s.memStartBrk + 8 := by
      rw [sub_eq (by simp only [dsize]; omega) (by omega)]
      simp only [dsize]
      omega
    refine ⟨s.heapListp, ?_, ?_, ?_⟩
    · unfold prevBlkp getSize
      have h8 : 9 &&& 0xFFFFFFF8 ≤ x.ptr := by
        change 8 ≤ _
        omega
      rw [hsub, hget, Option.map_some, Option.bind_eq_bind, Option.bind_some, sub_eq h8 (by omega),
        hptr, hlistp]
      rfl
    · unfold ftrp
      rw [hsize, Option.bind_eq_bind, Option.bind_some, add_eq (by omega),
        sub_eq (by simp only [dsize]; omega) (by omega), hlistp, hptr]
    · unfold getAlloc
      rw [show x.ptr - 8 = s.memStartBrk + 8 by omega, hget]
      rfl
  · have hmem : p ∈ l.concat p ++ x :: l₂ := by simp
    have hend : p.ptr + p.size = x.ptr := by
      have ht := h.tiles
      rw [List.concat_eq_append, List.append_assoc] at ht
      exact (ht.split.2).1.symm
    have hpb := hall p hmem
    have hpf : p.isFree = false := hprev p (by simp)
    refine ⟨p.ptr, h.prevBlkp_eq hmem hpb hend, ?_, ?_⟩
    · rw [h.ftrp_eq hmem hpb, hend]
    · unfold getAlloc
      rw [← hend, h.footer hmem hpb, Option.map_some, Seg.word_alloc hpb, hpf]
      rfl

/-- The allocated bit that `coalesce` reads after a block that no free block follows. -/
theorem next_alloc (hnext : NextAlloc l₂) :
    getAlloc s (hdrp (x.ptr + x.size)) = some 1 := by
  have hb := h.bounds (x := x) (by simp)
  cases l₂ with
  | nil =>
    have hend : x.ptr + x.size = s.memBrk := h.tiles.split.2
    unfold getAlloc
    rw [hend, h.get_epilogue.1]
    rfl
  | cons q l =>
    have hmem : q ∈ l₁ ++ x :: q :: l := by simp
    have hend : q.ptr = x.ptr + x.size := (h.tiles.split.2).1
    have hqf : q.isFree = false := hnext q (by simp)
    rw [← hend, h.getAlloc_header hmem (hall q hmem), hqf]
    rfl

end reading

/-- The block before a block, if it is free. -/
theorem prev_free (h : Blocks s (l₁ ++ p :: x :: l₂)) (hp : p.isFree = true) :
    p.ptr + p.size = x.ptr ∧ prevBlkp s x.ptr = some p.ptr ∧ ftrp s p.ptr = some (x.ptr - 8) ∧
      getAlloc s (x.ptr - 8) = some 0 := by
  have hmem : p ∈ l₁ ++ p :: x :: l₂ := by simp
  have hpb := Seg.IsBlock.of_isFree hp
  have hend : p.ptr + p.size = x.ptr := (h.tiles.split.2).1.symm
  refine ⟨hend, h.prevBlkp_eq hmem hpb hend, ?_, ?_⟩
  · rw [h.ftrp_eq hmem hpb, hend]
  · unfold getAlloc
    rw [← hend, h.footer hmem hpb, Option.map_some, Seg.word_alloc hpb, hp]
    rfl

/-- The block after a block, if it is free. -/
theorem next_free (h : Blocks s (l₁ ++ x :: q :: l₂)) (hq : q.isFree = true) :
    x.ptr + x.size = q.ptr ∧ getAlloc s (hdrp q.ptr) = some 0 ∧
      getSize s (hdrp q.ptr) = some q.size ∧ ftrp s q.ptr = some (q.ptr + q.size - 8) := by
  have hmem : q ∈ l₁ ++ x :: q :: l₂ := by simp
  have hqb := Seg.IsBlock.of_isFree hq
  have hend : x.ptr + x.size = q.ptr := (h.tiles.split.2).1.symm
  refine ⟨hend, ?_, h.getSize_eq hmem hqb, h.ftrp_eq hmem hqb⟩
  rw [h.getAlloc_header hmem hqb, hq]
  rfl

/-! ## Reading after a store -/

/-- The size in another word stays. -/
theorem getSize_store (h : b + 4 ≤ a ∨ a + 4 ≤ b) : getSize (s.store a v) b = getSize s b := by
  unfold getSize get
  rw [store_mem, Mem.load32_store32_of_disjoint h]
  rfl

/-- The previous block is found through its footer only. -/
theorem prevBlkp_store (hb : 8 ≤ b) (hlt : b < 2 ^ 32) (h : b - 4 ≤ a ∨ a + 4 ≤ b - 8) :
    prevBlkp (s.store a v) b = prevBlkp s b := by
  have hsub : sub b dsize = b - 8 := sub_eq hb hlt
  unfold prevBlkp
  rw [hsub, getSize_store (by omega)]

/-- The next block is found through the header only. -/
theorem nextBlkp_store (hb : 4 ≤ b) (hlt : b < 2 ^ 32) (h : b ≤ a ∨ a + 4 ≤ b - 4) :
    nextBlkp (s.store a v) b = nextBlkp s b := by
  have hsub : sub b wsize = b - 4 := sub_eq hb hlt
  unfold nextBlkp
  rw [hsub, getSize_store (by omega)]

/-- The footer is found through the header only. -/
theorem ftrp_store (hb : 4 ≤ b) (hlt : b < 2 ^ 32) (h : b ≤ a ∨ a + 4 ≤ b - 4) :
    ftrp (s.store a v) b = ftrp s b := by
  unfold ftrp
  rw [hdrp_eq hb hlt, getSize_store (by omega)]

/-- Two stores to disjoint words commute. -/
theorem store32_comm (h : b + 4 ≤ a ∨ a + 4 ≤ b) :
    (m.store32 a v).store32 b w = (m.store32 b w).store32 a v := by
  funext c
  unfold Mem.store32
  by_cases ha : a ≤ c ∧ c < a + 4
  · have hb : ¬ (b ≤ c ∧ c < b + 4) := by omega
    simp only [ha, hb, if_true, if_false, and_self]
  · simp only [ha, if_false]

/-! ## `coalesce` -/

/-- The next block is allocated or free. -/
theorem exists_next_free (h : ¬ NextAlloc l₂) : ∃ q l, l₂ = q :: l ∧ q.isFree = true := by
  cases l₂ with
  | nil => exact absurd (fun q hq => nomatch hq) h
  | cons q l =>
    refine ⟨q, l, rfl, ?_⟩
    by_contra hq
    rw [Bool.not_eq_true] at hq
    exact h fun z hz => by rwa [← Option.mem_some_iff.mp hz]

/-- The previous block is allocated or free. -/
theorem exists_prev_free (h : ¬ PrevAlloc l₁) : ∃ p l, l₁ = l ++ [p] ∧ p.isFree = true := by
  rcases List.eq_nil_or_concat l₁ with rfl | ⟨l, p, rfl⟩
  · exact absurd (fun q hq => nomatch hq) h
  · refine ⟨p, l, List.concat_eq_append, ?_⟩
    by_contra hp
    rw [Bool.not_eq_true] at hp
    apply h
    intro z hz
    rw [List.concat_eq_append, List.getLast?_concat, Option.mem_some_iff] at hz
    rwa [← hz]

/-- A free block at the place of another. -/
theorem exists_free (x : Seg) {k : ℕ} (hmod : k % 8 = 0) (hk : 16 ≤ k) :
    ∃ y : Seg, y.kind = .free ∧ y.ptr = x.ptr ∧ y.size = k :=
  ⟨⟨x.ptr, k, .free, x.ptr_mod, hmod, hk⟩, rfl, rfl, rfl⟩

/-- The tag of a free block. -/
theorem pack_zero (k : ℕ) : pack k 0 = k := Nat.or_zero k

/-- Neither neighbour is free. -/
theorem coalesce_case1 (h : Blocks s (l₁ ++ x :: l₂)) (hall : ∀ z ∈ l₁ ++ x :: l₂, z.IsBlock)
    (hprev : PrevAlloc l₁) (hnext : NextAlloc l₂) : coalesce s x.ptr = some (s, x.ptr) := by
  have hx : x ∈ l₁ ++ x :: l₂ := by simp
  obtain ⟨r, hr, hrf, hra⟩ := prev_alloc h hall hprev
  simp [coalesce, hr, hrf, hra, h.nextBlkp_eq hx (hall x hx), next_alloc h hall hnext,
    h.getSize_eq hx (hall x hx)]

/-- The next block is free. -/
theorem coalesce_case2 (h : Blocks s (l₁ ++ x :: q :: l₂))
    (hall : ∀ z ∈ l₁ ++ x :: q :: l₂, z.IsBlock) (hprev : PrevAlloc l₁) (hq : q.isFree = true)
    {k : ℕ} (hk : k = x.size + q.size) :
    coalesce s x.ptr = some ({ s with mem := tagMem s.mem x.ptr k k }, x.ptr) := by
  have hx : x ∈ l₁ ++ x :: q :: l₂ := by simp
  have hqmem : q ∈ l₁ ++ x :: q :: l₂ := by simp
  have hbx := h.bounds hx
  have hbq := h.bounds hqmem
  have hxs := x.size_ge
  have hxmod := x.size_mod
  have hqmod := q.size_mod
  obtain ⟨r, hr, hrf, hra⟩ := prev_alloc h hall hprev
  obtain ⟨hend, hna, hqsize, -⟩ := next_free h hq
  have hadd : add x.size q.size = k := by rw [add_eq (by omega), hk]
  obtain ⟨h₁, h₂, h₃⟩ := put_tags_eq (s := s) (p := x.ptr) (k := k) (w := k) (by omega) (by omega)
    h.max_lt (by omega) (by omega) (by omega)
  simp [coalesce, hr, hrf, hra, h.nextBlkp_eq hx (hall x hx), hend, hna, hqsize,
    h.getSize_eq hx (hall x hx), hadd, pack_zero, h₁, h₂, h₃]

/-- The previous block is free: its footer is read after that of `x` is written. -/
theorem coalesce_case3 (h : Blocks s (l₁ ++ p :: x :: l₂))
    (hall : ∀ z ∈ l₁ ++ p :: x :: l₂, z.IsBlock) (hp : p.isFree = true) (hnext : NextAlloc l₂)
    {k : ℕ} (hk : k = p.size + x.size) :
    coalesce s x.ptr = some ({ s with mem := tagMem s.mem p.ptr k k }, p.ptr) := by
  have hx : x ∈ l₁ ++ p :: x :: l₂ := by simp
  have hpmem : p ∈ l₁ ++ p :: x :: l₂ := by simp
  have hbx := h.bounds hx
  have hbp := h.bounds hpmem
  have hx16 := (hall x hx).size_ge
  have hp16 := (hall p hpmem).size_ge
  have hxmod := x.size_mod
  have hpmod := p.size_mod
  obtain ⟨hend, hprev, hpf, hpa⟩ := prev_free h hp
  have h' : Blocks s ((l₁ ++ [p]) ++ x :: l₂) := by simpa using h
  have hna := next_alloc h' (by simpa using hall) hnext
  have hhdr : hdrp p.ptr = p.ptr - 4 := hdrp_eq (by omega) (by omega)
  have hftr : ftrp s x.ptr = some (x.ptr + x.size - 8) := h.ftrp_eq hx (hall x hx)
  have hin : ∀ t : State, t.memStartBrk = s.memStartBrk → t.memMaxAddr = s.memMaxAddr →
      t.InHeap (p.ptr - 4) ∧ t.InHeap (x.ptr + x.size - 8) := by
    intro t hlo hhi
    have hmax := h.max_lt
    unfold State.InHeap
    simp only [wsize]
    omega
  have hadd : add x.size p.size = k := by rw [add_eq (by omega), hk, Nat.add_comm]
  -- the two stores, and the footer read between and after them
  have h₁ : put s (x.ptr + x.size - 8) k = some (s.store (x.ptr + x.size - 8) k) :=
    put_eq (hin s rfl rfl).2
  have hprev₁ : prevBlkp (s.store (x.ptr + x.size - 8) k) x.ptr = some p.ptr := by
    rw [prevBlkp_store (by omega) (by omega) (by omega), hprev]
  have h₂ : put (s.store (x.ptr + x.size - 8) k) (hdrp p.ptr) k =
      some ((s.store (x.ptr + x.size - 8) k).store (p.ptr - 4) k) := by
    rw [hhdr]
    exact put_eq (hin _ rfl rfl).1
  have hprev₂ : prevBlkp ((s.store (x.ptr + x.size - 8) k).store (p.ptr - 4) k) x.ptr =
      some p.ptr := by
    rw [prevBlkp_store (by omega) (by omega) (by omega), hprev₁]
  have hmem : (s.store (x.ptr + x.size - 8) k).store (p.ptr - 4) k =
      { s with mem := tagMem s.mem p.ptr k k } := by
    unfold tagMem State.store
    rw [store32_comm (by omega), show p.ptr + k - 8 = x.ptr + x.size - 8 by omega]
  rw [← hmem]
  simp [coalesce, hprev, hpf, hpa, h.nextBlkp_eq hx (hall x hx), hna,
    h.getSize_eq hx (hall x hx), h.getSize_eq hpmem (hall p hpmem), hadd, pack_zero, hftr,
    hprev₁, hprev₂, h₁, h₂]

/-- Both neighbours are free. -/
theorem coalesce_case4 (h : Blocks s (l₁ ++ p :: x :: q :: l₂))
    (hall : ∀ z ∈ l₁ ++ p :: x :: q :: l₂, z.IsBlock) (hp : p.isFree = true) (hq : q.isFree = true)
    {k : ℕ} (hk : k = p.size + x.size + q.size) :
    coalesce s x.ptr = some ({ s with mem := tagMem s.mem p.ptr k k }, p.ptr) := by
  have hx : x ∈ l₁ ++ p :: x :: q :: l₂ := by simp
  have hpmem : p ∈ l₁ ++ p :: x :: q :: l₂ := by simp
  have hqmem : q ∈ l₁ ++ p :: x :: q :: l₂ := by simp
  have hbx := h.bounds hx
  have hbp := h.bounds hpmem
  have hbq := h.bounds hqmem
  have hx16 := (hall x hx).size_ge
  have hp16 := (hall p hpmem).size_ge
  have hq16 := (hall q hqmem).size_ge
  have hxmod := x.size_mod
  have hpmod := p.size_mod
  have hqmod := q.size_mod
  obtain ⟨hend, hprev, hpf, hpa⟩ := prev_free h hp
  have h' : Blocks s ((l₁ ++ [p]) ++ x :: q :: l₂) := by simpa using h
  obtain ⟨hend', hna, hqsize, hqf⟩ := next_free h' hq
  have hqword : getSize s (q.ptr + q.size - 8) = some q.size := by
    have hw := Seg.word_free (Seg.isFree_iff.mp hq)
    unfold getSize
    rw [h.footer hqmem (hall q hqmem), Option.map_some, hw, and_mask (by omega),
      show q.size / 8 * 8 = q.size by omega]
  have hhdr : hdrp p.ptr = p.ptr - 4 := hdrp_eq (by omega) (by omega)
  have hnext : nextBlkp s x.ptr = some q.ptr := by rw [h.nextBlkp_eq hx (hall x hx), hend']
  have hadd : add x.size (add p.size q.size) = k := by
    rw [add_eq (p := p.size) (by omega), add_eq (by omega)]
    omega
  -- the two stores, and the pointers read between and after them
  obtain ⟨h₁, -, h₃⟩ := put_tags_eq (s := s) (p := p.ptr) (k := k) (w := k) (by omega) (by omega)
    h.max_lt (by omega) (by omega) (by omega)
  have hnext₁ : nextBlkp (s.store (p.ptr - 4) k) x.ptr = some q.ptr := by
    rw [nextBlkp_store (by omega) (by omega) (by omega), hnext]
  have hftr₁ : ftrp (s.store (p.ptr - 4) k) q.ptr = some (p.ptr + k - 8) := by
    rw [ftrp_store (by omega) (by omega) (by omega), hqf,
      show q.ptr + q.size - 8 = p.ptr + k - 8 by omega]
  have hmem : { s with mem := tagMem s.mem p.ptr k k } =
      (s.store (p.ptr - 4) k).store (p.ptr + k - 8) k := rfl
  have hprev₂ : prevBlkp { s with mem := tagMem s.mem p.ptr k k } x.ptr = some p.ptr := by
    rw [hmem, prevBlkp_store (by omega) (by omega) (by omega),
      prevBlkp_store (by omega) (by omega) (by omega), hprev]
  simp [coalesce, hprev, hpf, hpa, hnext, hna, h.getSize_eq hx (hall x hx),
    h.getSize_eq hpmem (hall p hpmem), hqf, hqword, hadd, pack_zero, h₁, hnext₁, hftr₁, h₃, hprev₂]

/-- **`coalesce`** returns, merges the block with its free neighbours, and writes no byte outside
the new block. -/
theorem coalesce_spec (h : Blocks s (l₁ ++ x :: l₂)) (hall : ∀ z ∈ l₁ ++ x :: l₂, z.IsBlock)
    (hx : x.kind = .free) : ∃ m' l₁' y l₂', coalesce s x.ptr = some ({ s with mem := m' }, y.ptr) ∧
      Merged l₁ x l₂ l₁' y l₂' ∧ Blocks { s with mem := m' } (l₁' ++ y :: l₂') ∧
      ∀ a, ¬ y.Extent a → m' a = s.mem a := by
  have hxb := h.bounds (x := x) (by simp)
  have hx16 := (hall x (by simp)).size_ge
  -- every merge ends with the tags of the new block
  have hdone : ∀ {l₁' : List Seg} {y : Seg} {l₂' : List Seg}, Merged l₁ x l₂ l₁' y l₂' →
      16 ≤ y.size → y.ptr + y.size < 2 ^ 32 → 4 ≤ y.ptr →
      Blocks { s with mem := tagMem s.mem y.ptr y.size y.size } (l₁' ++ y :: l₂') ∧
        ∀ a, ¬ y.Extent a → tagMem s.mem y.ptr y.size y.size a = s.mem a := by
    intro l₁' y l₂' hmerge h16 hlt h4
    obtain ⟨P, Q, rfl, rfl, hfree, hold, hy⟩ := hmerge.exists_old hx h.tiles
    have hframe : ∀ a, a < y.ptr - 4 ∨ y.ptr + y.size - 4 ≤ a →
        tagMem s.mem y.ptr y.size y.size a = s.mem a :=
      fun a ha => tagMem_apply ha h4 (by omega)
    refine ⟨?_, fun a ha => hframe a (by unfold Seg.Extent at ha; omega)⟩
    have hcut : Blocks s (l₁' ++ (P ++ x :: Q) ++ l₂') := by simpa using h
    have hsplice : Blocks { s with mem := tagMem s.mem y.ptr y.size y.size }
        (l₁' ++ [y] ++ l₂') := by
      have hnew : Tiles Seg.ptr Seg.size y.ptr [y] (y.ptr + y.size) := ⟨rfl, rfl⟩
      apply hcut.splice (by simp) hold hnew hframe
      intro z hz _
      rw [List.mem_singleton.mp hz, Seg.word_free hy]
      exact tagged_tagMem (by omega) h4 h16
    simpa using hsplice
  by_cases hprev : PrevAlloc l₁
  · by_cases hnext : NextAlloc l₂
    · exact ⟨s.mem, l₁, x, l₂, coalesce_case1 h hall hprev hnext, .case1 hprev hnext, h,
        fun _ _ => rfl⟩
    · obtain ⟨q, l₂', rfl, hq⟩ := exists_next_free hnext
      obtain ⟨y, hy, hptr, hsize⟩ := exists_free x (k := x.size + q.size)
        (by have := x.size_mod; have := q.size_mod; omega) (by omega)
      have hbq := h.bounds (x := q) (by simp)
      have hend := (next_free h hq).1
      have hmerge : Merged l₁ x (q :: l₂') l₁ y l₂' := .case2 q y l₂' hprev rfl hq hy hptr hsize
      obtain ⟨hblocks, hframe⟩ := hdone hmerge (by omega) (by omega) (by omega)
      refine ⟨_, l₁, y, l₂', ?_, hmerge, hblocks, hframe⟩
      rw [hptr]
      exact coalesce_case2 h hall hprev hq hsize
  · obtain ⟨p, l₁', rfl, hp⟩ := exists_prev_free hprev
    have h' : Blocks s (l₁' ++ p :: x :: l₂) := by simpa using h
    have hall' : ∀ z ∈ l₁' ++ p :: x :: l₂, z.IsBlock := by simpa using hall
    have hbp := h'.bounds (x := p) (by simp)
    have hend := (prev_free h' hp).1
    by_cases hnext : NextAlloc l₂
    · obtain ⟨y, hy, hptr, hsize⟩ := exists_free p (k := p.size + x.size)
        (by have := x.size_mod; have := p.size_mod; omega) (by omega)
      have hmerge : Merged (l₁' ++ [p]) x l₂ l₁' y l₂ := .case3 p y l₁' rfl hp hnext hy hptr hsize
      obtain ⟨hblocks, hframe⟩ := hdone hmerge (by omega) (by omega) (by omega)
      refine ⟨_, l₁', y, l₂, ?_, hmerge, hblocks, hframe⟩
      rw [hptr]
      exact coalesce_case3 h' hall' hp hnext hsize
    · obtain ⟨q, l₂', rfl, hq⟩ := exists_next_free hnext
      obtain ⟨y, hy, hptr, hsize⟩ := exists_free p (k := p.size + x.size + q.size)
        (by have := x.size_mod; have := p.size_mod; have := q.size_mod; omega) (by omega)
      have hbq := h.bounds (x := q) (by simp)
      have hend' := (next_free h hq).1
      have hmerge : Merged (l₁' ++ [p]) x (q :: l₂') l₁' y l₂' :=
        .case4 p q y l₁' l₂' rfl hp rfl hq hy hptr hsize
      obtain ⟨hblocks, hframe⟩ := hdone hmerge (by omega) (by omega) (by omega)
      refine ⟨_, l₁', y, l₂', ?_, hmerge, hblocks, hframe⟩
      rw [hptr]
      exact coalesce_case4 h' hall' hp hq hsize

/-! ## `place` -/

/-- The tag of an allocated block. -/
theorem pack_alloc {k : ℕ} (hmod : k % 8 = 0) : pack k 1 = k + 1 := by
  have hk : k = 2 ^ 3 * (k / 8) := by omega
  unfold pack
  rw [hk, ← Nat.two_pow_add_eq_or_of_lt (by norm_num : 1 < 2 ^ 3)]

/-- The tags of two blocks, one after the other. -/
theorem tagged_tagMem_tagMem {c d : ℕ} (hw : w < 2 ^ 32) (hx : 4 ≤ x.ptr) (hx16 : 16 ≤ x.size)
    (hd : x.ptr + x.size = d) (hc8 : 8 ≤ c) :
    x.Tagged (tagMem (tagMem m x.ptr x.size w) d c v) w := by
  have htag := tagged_tagMem (m := m) hw hx hx16
  refine htag.congr hx fun a ha => ?_
  have := Seg.TagByte.extent ha
  unfold Seg.Extent at this
  unfold tagMem
  rw [Mem.store32_apply_of_not_mem (by omega), Mem.store32_apply_of_not_mem (by omega)]

/-- **`place`** returns, hands the block out, and writes in its extent only. -/
theorem place_spec (h : Blocks s (l₁ ++ f :: l₂)) (hf : f.kind = .free) (hn : n + 15 < 2 ^ 32)
    (hle : adjust n ≤ f.size) : ∃ m' new, place s f.ptr (adjust n) = some { s with mem := m' } ∧
      Placed f n new ∧ Blocks { s with mem := m' } (l₁ ++ new ++ l₂) ∧
      ∀ a, ¬ f.Extent a → m' a = s.mem a := by
  obtain ⟨hamod, hage, ha16, halt⟩ := adjust_spec hn
  have hfmem : f ∈ l₁ ++ f :: l₂ := by simp
  have hfb : f.IsBlock := by simp [Seg.IsBlock, hf]
  have hb := h.bounds hfmem
  have hfmod := f.size_mod
  have hfpmod := f.ptr_mod
  have hsub : sub f.size (adjust n) = f.size - adjust n := sub_eq hle (by omega)
  -- the frame rule, whichever blocks the tags are written for
  have hdone : ∀ {m' : Mem} {new : List Seg}, Placed f n new → (∀ y ∈ new, y.TagsOk m') →
      (∀ a, a < f.ptr - 4 ∨ f.ptr + f.size - 4 ≤ a → m' a = s.mem a) →
      Blocks { s with mem := m' } (l₁ ++ new ++ l₂) ∧ ∀ a, ¬ f.Extent a → m' a = s.mem a := by
    intro m' new hplaced htags hframe
    refine ⟨?_, fun a ha => hframe a (by unfold Seg.Extent at ha; omega)⟩
    have hcut : Blocks s (l₁ ++ [f] ++ l₂) := by simpa using h
    exact hcut.splice (by simp) ⟨rfl, rfl⟩ hplaced.tiles hframe htags
  by_cases hsplit : adjust n + 16 ≤ f.size
  · obtain ⟨r, hr, hrptr, hrsize⟩ : ∃ r : Seg, r.kind = .free ∧ r.ptr = f.ptr + adjust n ∧
        r.size = f.size - adjust n :=
      ⟨⟨f.ptr + adjust n, f.size - adjust n, .free, by omega, by omega, by
        change 16 ≤ _
        omega⟩, rfl, rfl, rfl⟩
    obtain ⟨x, hx, hxptr, hxsize⟩ : ∃ x : Seg, x.kind = .live n ∧ x.ptr = f.ptr ∧
        x.size = adjust n := ⟨⟨f.ptr, adjust n, .live n, hfpmod, hamod, max_le ha16 hage⟩, rfl, rfl,
      rfl⟩
    have hplaced : Placed f n [x, r] := .split x r hx hxptr hxsize hr hrptr hrsize hsplit
    let m₁ := tagMem s.mem f.ptr (adjust n) (adjust n + 1)
    have hput₁ : putTags s f.ptr (adjust n + 1) = some { s with mem := m₁ } :=
      putTags_eq (by omega) (by omega) h.max_lt (by omega) (by omega) (by omega)
    have hxtag : x.Tagged m₁ (adjust n + 1) := by
      have := tagged_tagMem (m := s.mem) (x := x) (w := adjust n + 1) (by omega) (by omega)
        (by omega)
      rwa [hxptr, hxsize] at this
    have hnext : nextBlkp { s with mem := m₁ } f.ptr = some (f.ptr + adjust n) := by
      have hin : ({ s with mem := m₁ } : State).InHeap (f.ptr - 4) :=
        h.inHeap hfmem (by omega) (by omega)
      have hload : m₁.load32 (f.ptr - 4) = adjust n + 1 := hxptr ▸ hxtag.1
      unfold nextBlkp getSize
      rw [sub_eq (by simp only [wsize]; omega) (by omega), get_eq hin, hload, Option.map_some,
        and_mask (by omega), Option.bind_eq_bind, Option.bind_some,
        show (adjust n + 1) / 8 * 8 = adjust n by omega, add_eq (by omega)]
    have hput₂ := putTags_eq (s := { s with mem := m₁ }) (p := f.ptr + adjust n)
      (k := f.size - adjust n) (w := f.size - adjust n) (by change s.memStartBrk + 4 ≤ _; omega)
      (by change _ ≤ s.memMaxAddr; omega) h.max_lt (by omega) (by omega) (by omega)
    have htags : ∀ y ∈ [x, r],
        y.TagsOk (tagMem m₁ (f.ptr + adjust n) (f.size - adjust n) (f.size - adjust n)) := by
      intro y hy _
      rcases List.mem_cons.mp hy with rfl | hy
      · rw [Seg.word_live hx, hxsize]
        have := tagged_tagMem_tagMem (m := s.mem) (x := y) (w := adjust n + 1)
          (v := f.size - adjust n) (c := f.size - adjust n) (by omega) (by omega) (by omega) rfl
          (by omega)
        rwa [hxptr, hxsize] at this
      · rw [List.mem_singleton.mp hy, Seg.word_free hr, ← hrptr, ← hrsize]
        exact tagged_tagMem (by omega) (by omega) (by omega)
    obtain ⟨hblocks, hframe⟩ := hdone hplaced htags fun a ha =>
      (tagMem_apply (by omega) (by omega) (by omega)).trans
        (tagMem_apply (by omega) (by omega) (by omega))
    refine ⟨_, [x, r], ?_, hplaced, hblocks, hframe⟩
    have hge : dsize + overhead ≤ f.size - adjust n := by
      simp only [dsize, overhead]
      omega
    simp [place, h.getSize_eq hfmem hfb, hsub, hge, pack_alloc hamod, hput₁, hnext, pack_zero,
      hput₂]
  · obtain ⟨x, hx, hxptr, hxsize⟩ : ∃ x : Seg, x.kind = .live n ∧ x.ptr = f.ptr ∧
        x.size = f.size := ⟨⟨f.ptr, f.size, .live n, hfpmod, hfmod, by
          have := hfb.size_ge
          exact max_le this (by simp only [overhead]; omega)⟩, rfl, rfl, rfl⟩
    have hplaced : Placed f n [x] := .whole x hx hxptr hxsize (by omega)
    have hput := putTags_eq (s := s) (p := f.ptr) (k := f.size) (w := f.size + 1) (by omega)
      (by omega) h.max_lt (by omega) (by omega) (by omega)
    have htags : ∀ y ∈ [x], y.TagsOk (tagMem s.mem f.ptr f.size (f.size + 1)) := by
      intro y hy _
      rw [List.mem_singleton.mp hy, Seg.word_live hx, ← hxptr, hxsize, ← hxsize]
      exact tagged_tagMem (by omega) (by omega) (by omega)
    obtain ⟨hblocks, hframe⟩ := hdone hplaced htags fun a ha =>
      tagMem_apply ha (by omega) (by omega)
    refine ⟨_, [x], ?_, hplaced, hblocks, hframe⟩
    have hlt : ¬ dsize + overhead ≤ f.size - adjust n := by
      simp only [dsize, overhead]
      omega
    simp [place, h.getSize_eq hfmem hfb, hsub, hlt, pack_alloc hfmod, hput]

end SystemsLabs.Malloclab.FirstFit
