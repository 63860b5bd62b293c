import SystemsLabs.Malloclab.FreeListRemove

/-!
# What `mm_init`, `mm_malloc` and `mm_free` do to the layout

The abstract allocator works on layouts: `MallocStep` says which layouts a request may lead to
(nothing, a new block at the top, or the best fitting free block cut down to the request), and
`FreeStep` which one a release leads to. `mmMalloc_spec` and `mmFree_spec` are the refinement: on a
represented heap the functions of `mm.c` return, and what they return is a step of the abstract
allocator. Both also say which bytes they leave alone.

**Assumptions.** Those of `mmMalloc_spec`: a request of at least one byte that does not wrap around.
-/

namespace SystemsLabs.Malloclab

open SystemsLabs.Lib

/-! ## The abstract allocator -/

/-- The bytes of a segment, tags included. -/
def Seg.Extent (x : Seg) (a : ℕ) : Prop := x.ptr - 4 ≤ a ∧ a < x.ptr + x.size - 4

/-- `f` is a best fit on the list `L` for a block of `asize` bytes: no block that holds `asize`
bytes is smaller. `mm_malloc` looks for it only if some block is no larger than `asize`. -/
structure BestFit (L : List Seg) (asize : ℕ) (f : Seg) : Prop where
  mem : f ∈ L
  fits : asize ≤ f.size
  best : ∀ z ∈ L, asize ≤ z.size → f.size ≤ z.size
  guard : ∃ z ∈ L, z.size ≤ asize

/-- `x` is the block handed out for `n` bytes at `p`. -/
structure Handed (n p : ℕ) (x : Seg) : Prop where
  kind : x.kind = .live n
  ptr : x.ptr = p
  size : x.size = adjust n

/-- What a request for `n` bytes does to a layout whose heap ends at `brk`: the result pointer and
the new layout. -/
inductive MallocStep (segs L : List Seg) (brk n : ℕ) : ℕ → List Seg → List Seg → Prop
  /-- An empty request, or an exhausted heap. -/
  | null : n = 0 ∨ (¬ ∃ f, BestFit L (adjust n) f) → MallocStep segs L brk n NULL segs L
  /-- A new block at the top of the heap. -/
  | grow (x : Seg) : Handed n brk x → (¬ ∃ f, BestFit L (adjust n) f) →
      MallocStep segs L brk n brk (segs ++ [x]) L
  /-- A free block of just the right size. -/
  | exact (l₁ l₂ L₁ L₂ : List Seg) (f x : Seg) : segs = l₁ ++ f :: l₂ → L = L₁ ++ f :: L₂ →
      BestFit L (adjust n) f → f.size = adjust n → Handed n f.ptr x →
      MallocStep segs L brk n f.ptr (l₁ ++ x :: l₂) (L₁ ++ L₂)
  /-- A free block eight bytes too large: the remainder `r` is in nobody's hands any more. -/
  | drop (l₁ l₂ L₁ L₂ : List Seg) (f x r : Seg) : segs = l₁ ++ f :: l₂ → L = L₁ ++ f :: L₂ →
      BestFit L (adjust n) f → f.size = adjust n + 8 → Handed n f.ptr x → r.kind = .raw →
      r.size = 8 → MallocStep segs L brk n f.ptr (l₁ ++ x :: r :: l₂) (L₁ ++ L₂)
  /-- A larger free block: the remainder `r` goes on the list. -/
  | split (l₁ l₂ L₁ L₂ L₃ L₄ : List Seg) (f x r : Seg) : segs = l₁ ++ f :: l₂ →
      L = L₁ ++ f :: L₂ → BestFit L (adjust n) f → adjust n + 16 ≤ f.size → Handed n f.ptr x →
      r.kind = .free → r.ptr = f.ptr + adjust n → r.size = f.size - adjust n →
      L₁ ++ L₂ = L₃ ++ L₄ → MallocStep segs L brk n f.ptr (l₁ ++ x :: r :: l₂) (L₃ ++ r :: L₄)

/-- What the release of the block at `p` does to a layout: it becomes a free block of the same
extent. -/
inductive FreeStep (segs L : List Seg) (p : ℕ) : List Seg → List Seg → Prop
  | mk (l₁ l₂ L₁ L₂ : List Seg) (x f : Seg) (n : ℕ) : segs = l₁ ++ x :: l₂ → L = L₁ ++ L₂ →
      x.kind = .live n → x.ptr = p → f.kind = .free → f.ptr = x.ptr → f.size = x.size →
      FreeStep segs L p (l₁ ++ f :: l₂) (L₁ ++ f :: L₂)

variable {s : State} {segs L L₁ L₂ l₁ l₂ : List Seg} {x y z : Seg}

/-! ## Requests and segments -/

/-- The adjusted size of a request that does not wrap around. -/
theorem adjust_spec {n : ℕ} (hn : n + 15 < 2 ^ 32) :
    adjust n % 8 = 0 ∧ n + 8 ≤ adjust n ∧ 16 ≤ adjust n ∧ adjust n + 7 < 2 ^ 32 := by
  have hsmall : n ≤ 8 → adjust n = 16 := fun h => if_pos h
  have hlarge : ¬ n ≤ 8 → adjust n = 8 * ((n + 8 + 7) / 8) := by
    intro h
    have h₁ : add n overhead = n + 8 := add_eq (by simp only [overhead]; omega)
    have h₂ : add (n + 8) (dsize - 1) = n + 8 + 7 := add_eq (by simp only [dsize]; omega)
    unfold adjust
    rw [if_neg h, h₁, h₂]
  by_cases h : n ≤ 8
  · rw [hsmall h]
    omega
  · rw [hlarge h]
    omega

/-- The bytes of a segment that are not in another one. -/
theorem Blocks.not_extent (h : Blocks s segs) (hx : x ∈ segs) (hy : y ∈ segs) (hne : x ≠ y) {a : ℕ}
    (ha : x.Extent a) : ¬ y.Extent a := by
  have hbx := h.bounds hx
  have hby := h.bounds hy
  unfold Seg.Extent at ha ⊢
  rcases h.disjoint hx hy with heq | hd | hd
  · exact absurd heq hne
  · omega
  · omega

/-- The tags of a block belong to it. -/
theorem Seg.TagByte.extent {a : ℕ} (h : x.TagByte a) : x.Extent a := by
  have := x.size_ge
  unfold TagByte at h
  unfold Extent
  omega

/-- The links of a block belong to it. -/
theorem Seg.LinkByte.extent {a : ℕ} (hx : 16 ≤ x.size) (h : x.LinkByte a) : x.Extent a := by
  unfold LinkByte at h
  unfold Extent
  omega

/-- Outside of the free segments there are no links of the list. -/
theorem Rep.not_linkByte {a : ℕ} (h : Rep s segs L)
    (ha : ∀ w ∈ segs, w.isFree = true → ¬ w.Extent a) (hz : z ∈ L) : ¬ z.LinkByte a := by
  intro hl
  exact ha z (h.mem_segs hz) (h.mem_list.mp hz).2 (hl.extent (h.isBlock hz).size_ge)

/-- The segment with the tags of a block forgotten. -/
def Seg.asRaw (x : Seg) : Seg := { x with kind := .raw, minSize_le := x.size_ge }

/-- The segment as a free block. -/
def Seg.asFree (x : Seg) (h : 16 ≤ x.size) : Seg := { x with kind := .free, minSize_le := h }

/-- Another kind for one segment off the list, its extent kept. -/
theorem Rep.asRaw (h : Rep s (l₁ ++ x :: l₂) L) (hx : x.isFree = false) :
    Rep s (l₁ ++ x.asRaw :: l₂) L := by
  have := h.replace [x.asRaw] hx ⟨rfl, rfl⟩ (by simp [Seg.asRaw, Seg.isFree])
    (by simp [Seg.TagsOk, Seg.IsBlock, Seg.asRaw])
  simpa using this

/-! ## Boundary tags -/

/-- `NEXT_BLKP` of a tagged segment is its end. -/
theorem Blocks.nextBlkp_of_tagged (h : Blocks s segs) (hx : x ∈ segs) {w : ℕ}
    (ht : x.Tagged s.mem w) (hw : w / 8 * 8 = x.size) :
    nextBlkp s x.ptr = some (x.ptr + x.size) := by
  have hb := h.bounds hx
  have hsize := h.getSize_of_tagged hx ht hw
  unfold hdrp at hsize
  unfold nextBlkp
  rw [hsize, Option.bind_eq_bind, Option.bind_some, add_eq (by omega)]

/-- Writing the tags of a raw segment. -/
theorem putTags_spec (h : Rep s segs L) (hx : x ∈ segs) (hraw : x.kind = .raw) {w : ℕ}
    (hw : w / 8 * 8 = x.size) (hlt : w < 2 ^ 32) :
    ∃ s', putTags s x.ptr w = some s' ∧ Rep s' segs L ∧ x.Tagged s'.mem w ∧ s.SameBounds s' ∧
      ∀ a, ¬ x.TagByte a → s'.mem a = s.mem a := by
  have hb := h.blocks.bounds hx
  have hs := x.size_ge
  have hhdr := hdrp_eq (p := x.ptr) (by omega) (by omega)
  have h₁ : Rep (s.store (x.ptr - 4) w) segs L := h.store_raw hx hraw le_rfl (by omega) w
  have h₂ : Rep ((s.store (x.ptr - 4) w).store (x.ptr + x.size - 8) w) segs L :=
    h₁.store_raw hx hraw (by omega) (by omega) w
  have hin₁ : s.InHeap (x.ptr - 4) := h.blocks.inHeap hx (by omega) (by omega)
  have hin₂ : (s.store (x.ptr - 4) w).InHeap (x.ptr + x.size - 8) :=
    h.blocks.inHeap hx (by omega) (by omega)
  have hsize : getSize (s.store (x.ptr - 4) w) (x.ptr - 4) = some x.size := by
    unfold getSize
    rw [get_eq (show (s.store (x.ptr - 4) w).InHeap (x.ptr - 4) from hin₁), store_mem,
      Mem.load32_store32_self hlt, Option.map_some, and_mask hlt, hw]
  have hftr : ftrp (s.store (x.ptr - 4) w) x.ptr = some (x.ptr + x.size - 8) := by
    unfold ftrp
    rw [hhdr, hsize, Option.bind_eq_bind, Option.bind_some, add_eq (by omega)]
    rw [sub_eq (by simp only [dsize]; omega) (by omega)]
  refine ⟨_, ?_, h₂, ?_, ⟨rfl, rfl⟩, ?_⟩
  · unfold putTags
    simp only [hhdr, put_eq hin₁, Option.bind_eq_bind, Option.bind_some, hftr, put_eq hin₂]
  · refine ⟨?_, Mem.load32_store32_self hlt⟩
    simp only [store_mem]
    rw [Mem.load32_store32_of_disjoint (by omega), Mem.load32_store32_self hlt]
  · intro a ha
    unfold Seg.TagByte at ha
    simp only [store_mem]
    rw [Mem.store32_apply_of_not_mem (by omega), Mem.store32_apply_of_not_mem (by omega)]

/-- `coalesce` never merges anything: no block pointer lies above the heap's last byte and below its
first one. -/
theorem coalesce_eq (h : Blocks s segs) (hx : x ∈ segs) : coalesce s x.ptr = some (s, x.ptr) := by
  have hb := h.bounds hx
  have hs := x.size_ge
  obtain ⟨v, hv⟩ : ∃ v, prevBlkp s x.ptr = some v := by
    have hsub : sub x.ptr dsize = x.ptr - 8 := sub_eq (by simp only [dsize]; omega) (by omega)
    unfold prevBlkp getSize
    rw [hsub, get_eq (h.inHeap hx le_rfl (by omega))]
    exact ⟨_, rfl⟩
  obtain ⟨w, hw⟩ : ∃ w, getSize s (hdrp x.ptr) = some w := by
    unfold getSize
    rw [hdrp_eq (by omega) (by omega), get_eq (h.inHeap hx (by omega) (by omega))]
    exact ⟨_, rfl⟩
  obtain ⟨u, hu⟩ : ∃ u, nextBlkp s x.ptr = some u := by
    unfold nextBlkp
    unfold hdrp at hw
    rw [hw]
    exact ⟨_, rfl⟩
  have hboundary : ¬ x.ptr < memHeapLo s := by
    unfold memHeapLo
    omega
  simp [coalesce, mergeIfFree, hv, hw, hu, hboundary]

/-! ## `mm_free` -/

/-- `mm_free` of a live block returns, frees the block, and writes only in its extent and in those
of free blocks. -/
theorem mmFree_spec (h : Rep s segs L) (hx : x ∈ segs) {n : ℕ} (hlive : x.kind = .live n) :
    ∃ s' segs' L', mmFree s x.ptr = some s' ∧ Rep s' segs' L' ∧ FreeStep segs L x.ptr segs' L' ∧
      s.SameBounds s' ∧
      ∀ a, (∀ w ∈ segs, w.isFree = true ∨ w = x → ¬ w.Extent a) → s'.mem a = s.mem a := by
  have hxb : x.IsBlock := by simp [Seg.IsBlock, hlive]
  have hxf : x.isFree = false := by simp [Seg.isFree, hlive]
  have h16 := hxb.size_ge
  have hb := h.blocks.bounds hx
  have hmod := x.size_mod
  have hsize := h.blocks.getSize_eq hx hxb
  obtain ⟨l₁, l₂, rfl⟩ := List.append_of_mem hx
  have hraw := h.asRaw hxf
  have hmem : x.asRaw ∈ l₁ ++ x.asRaw :: l₂ := by simp
  obtain ⟨s₁, hput, h₁, htag, hsame₁, hframe₁⟩ := putTags_spec hraw hmem rfl (w := x.size)
    (by change x.size / 8 * 8 = x.size; omega) (by omega)
  obtain ⟨s₂, L₁, L₂, hadd, rfl, h₂, hsame₂, hframe₂⟩ :=
    addFreeBlock_spec h₁ rfl (y := x.asFree h16) rfl rfl rfl htag
  refine ⟨s₂, _, _, ?_, h₂, .mk l₁ l₂ L₁ L₂ x (x.asFree h16) n rfl rfl hlive rfl rfl rfl rfl,
    ⟨hsame₂.1.trans hsame₁.1, hsame₂.2.trans hsame₁.2⟩, ?_⟩
  · have hput' : putTags s x.ptr x.size = some s₁ := hput
    have hco : coalesce s₁ x.ptr = some (s₁, x.ptr) :=
      coalesce_eq (x := x.asRaw) h₁.blocks hmem
    have hadd' : addFreeBlock s₁ x.ptr = some s₂ := hadd
    simp only [mmFree, hsize, Option.bind_eq_bind, Option.bind_some, pack_zero hmod (by omega),
      hput', hco, hadd']
  · intro a ha
    rw [hframe₂ a, hframe₁ a]
    · exact fun ht => ha x hx (Or.inr rfl) ht.extent
    · intro z hz hl
      rcases List.mem_cons.mp hz with rfl | hz
      · exact ha x hx (Or.inr rfl) (Seg.LinkByte.extent (x := x) h16 hl)
      · exact ha z (h.mem_segs hz) (Or.inl (h.mem_list.mp hz).2)
          (hl.extent (h.isBlock hz).size_ge)

/-! ## `mm_malloc` -/

/-- The root is a smallest block of the list. -/
theorem FreeList.root_le {b : Seg} {B : List Seg} (h : FreeList s L) (hB : L = b :: B)
    (hz : z ∈ L) :
    b.size ≤ z.size := by
  subst hB
  rcases List.mem_cons.mp hz with rfl | hz
  · exact le_rfl
  · exact (List.pairwise_cons.mp h.sorted).1 z hz

/-- The end is a largest block of the list. -/
theorem FreeList.le_end {e : Seg} {A : List Seg} (h : FreeList s L) (hA : L = A ++ [e])
    (hz : z ∈ L) :
    z.size ≤ e.size := by
  subst hA
  rcases List.mem_append.mp hz with hz | hz
  · exact (List.pairwise_append.mp h.sorted).2.2 z hz e (by simp)
  · rw [List.mem_singleton.mp hz]

/-- On a sorted list the first block that is large enough is a smallest one. -/
theorem FreeList.first_le {size : ℕ} (h : FreeList s (L₁ ++ y :: L₂))
    (hlt : ∀ z ∈ L₁, z.size < size)
    (hz : z ∈ L₁ ++ y :: L₂) (hsize : size ≤ z.size) : y.size ≤ z.size := by
  rcases List.mem_append.mp hz with hz | hz
  · have := hlt z hz
    omega
  · rcases List.mem_cons.mp hz with rfl | hz
    · exact le_rfl
    · exact (List.pairwise_cons.mp (List.pairwise_append.mp h.sorted).2.1).1 z hz

section choose

variable {b e : Seg} {A B : List Seg} (h : Rep s segs L) (hB : L = b :: B) (hA : L = A ++ [e])

include h hB hA

/-- What the ends of a non-empty list read as. -/
theorem Rep.ends : s.freeListRoot = b.ptr ∧ s.freeListEnd = e.ptr ∧ b.ptr ≠ NULL ∧ e.ptr ≠ NULL ∧
    getSize s (hdrp b.ptr) = some b.size ∧ getSize s (hdrp e.ptr) = some e.size := by
  have hbL : b ∈ L := by simp [hB]
  have heL : e ∈ L := by simp [hA]
  refine ⟨?_, h.list.end_eq hA, h.blocks.ptr_ne_null (h.mem_segs hbL),
    h.blocks.ptr_ne_null (h.mem_segs heL), h.blocks.getSize_eq (h.mem_segs hbL) (h.isBlock hbL),
    h.blocks.getSize_eq (h.mem_segs heL) (h.isBlock heL)⟩
  rw [h.list.root, hB]
  rfl

/-- There is a best fit to look for exactly if the size lies between those of the two ends. -/
theorem Rep.exists_bestFit_iff (asize : ℕ) :
    (∃ f, BestFit L asize f) ↔ b.size ≤ asize ∧ asize ≤ e.size := by
  constructor
  · rintro ⟨f, hf⟩
    obtain ⟨z, hz, hza⟩ := hf.guard
    exact ⟨(h.list.root_le hB hz).trans hza, hf.fits.trans (h.list.le_end hA hf.mem)⟩
  · rintro ⟨hba, hae⟩
    obtain ⟨C, f, D, hC, hf, hlt⟩ := exists_first_fit (x := e) (L := L) (by simp [hA]) hae
    refine ⟨f, by simp [hC], hf, fun z hz hza => ?_, b, by simp [hB], hba⟩
    have hl := h.list
    rw [hC] at hl hz
    exact hl.first_le hlt hz hza

/-- `mm_malloc` takes a best fit. -/
theorem chooseFree_eq {asize : ℕ} (hba : b.size ≤ asize) (hae : asize ≤ e.size) :
    ∃ f, chooseFree s asize = some f.ptr ∧ BestFit L asize f := by
  obtain ⟨hroot, hend, -, -, hbsize, hesize⟩ := h.ends hB hA
  by_cases hb : asize = b.size
  · refine ⟨b, by simp [chooseFree, hroot, hbsize, hb], by simp [hB], hb.le, ?_, b,
      by simp [hB], hba⟩
    exact fun z hz _ => h.list.root_le hB hz
  by_cases he : asize = e.size
  · refine ⟨e, by simp [chooseFree, hroot, hend, hbsize, hesize, he ▸ hb, he], by simp [hA],
      he.le, fun z _ hza => he ▸ hza, b, by simp [hB], hba⟩
  · obtain ⟨C, f, D, hC, hf, hlt⟩ := exists_first_fit (x := e) (L := L) (by simp [hA]) hae
    subst hC
    have hfind := findFit_eq h hf hlt
    refine ⟨f, ?_, by simp, hf, fun z hz hza => h.list.first_le hlt hz hza, b, by simp [hB], hba⟩
    rw [hroot] at hfind
    simp [chooseFree, hroot, hend, hbsize, hesize, hb, he, hfind]

end choose

/-- The test on the two ends of the list holds exactly if there is a best fit to look for, and then
`mm_malloc` takes one. -/
theorem fitsFreeList_eq (h : Rep s segs L) (asize : ℕ) :
    (fitsFreeList s asize = some true ∧ ∃ f, chooseFree s asize = some f.ptr ∧ BestFit L asize f) ∨
      (fitsFreeList s asize = some false ∧ ¬ ∃ f, BestFit L asize f) := by
  rcases List.eq_nil_or_concat L with rfl | ⟨A, e, hA⟩
  · right
    have hroot : s.freeListRoot = NULL := h.list.root
    refine ⟨by simp [fitsFreeList, hroot], ?_⟩
    rintro ⟨f, hf⟩
    exact absurd hf.mem List.not_mem_nil
  rw [List.concat_eq_append] at hA
  obtain ⟨b, B, hB⟩ : ∃ b B, L = b :: B := List.exists_cons_of_ne_nil (by simp [hA])
  obtain ⟨hroot, hend, hbnull, henull, hbsize, hesize⟩ := h.ends hB hA
  by_cases hbe : b.size ≤ asize ∧ asize ≤ e.size
  · left
    refine ⟨?_, chooseFree_eq h hB hA hbe.1 hbe.2⟩
    simp [fitsFreeList, hroot, hend, hbnull, henull, hbsize, hesize, hbe]
  · right
    rw [h.exists_bestFit_iff hB hA]
    refine ⟨?_, hbe⟩
    by_cases hba : b.size ≤ asize
    · have hae : ¬ asize ≤ e.size := fun hae => hbe ⟨hba, hae⟩
      simp [fitsFreeList, hroot, hend, hbnull, henull, hbsize, hesize, hae]
    · simp [fitsFreeList, hroot, hbnull, hbsize, hba]

end SystemsLabs.Malloclab
