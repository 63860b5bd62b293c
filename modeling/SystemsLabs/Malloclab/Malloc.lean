import SystemsLabs.Malloclab.Alloc

/-!
# `mm_malloc` and `mm_init` refine the abstract allocator

`mmMalloc_spec`: on a represented heap `mm_malloc` returns, its result is a `MallocStep` of the
layout, and it writes only in the extents of free blocks and from the old epilogue on. The path
through the free list is `takeFree_spec` (the block leaves the list and is tagged with the requested
size) and `splitFree_spec` (a large enough remainder is tagged and put back); the path that extends
the heap is `grow_spec`. `mmInit_spec` gives the layout of an empty heap.

**Assumptions.** The rounding of a request does not wrap around, nor does the end of a block for it
(`NoWrap`). Other requests are the subject of `Requests`.
-/

namespace SystemsLabs.Malloclab

open SystemsLabs.Lib

variable {s : State} {segs L L₁ L₂ l₁ l₂ : List Seg} {x f r : Seg} {n : ℕ}

/-! ## The path through the free list -/

/-- The word of a live block. -/
theorem pack_adjust (hn : n + 15 < 2 ^ 32) : pack (adjust n) 1 = adjust n + 1 := by
  obtain ⟨hmod, -, -, hlt⟩ := adjust_spec hn
  exact pack_one hmod hlt

/-- A free block leaves the list and is tagged as a block of the requested size; what remains of it
is raw. -/
theorem takeFree_spec (h : Rep s (l₁ ++ f :: l₂) (L₁ ++ f :: L₂)) (hf : f.kind = .free)
    (hn : n + 15 < 2 ^ 32) (hx : Handed n f.ptr x) (rest : List Seg)
    (hrest : Tiles Seg.ptr Seg.size (f.ptr + x.size) rest (f.ptr + f.size))
    (hraw : ∀ y ∈ rest, y.kind = .raw) :
    ∃ s₁ s₂, removeFreeBlock s f.ptr = some s₁ ∧ getSize s₁ (hdrp f.ptr) = some f.size ∧
      putTags s₁ f.ptr (pack (adjust n) 1) = some s₂ ∧
      Rep s₂ (l₁ ++ x :: rest ++ l₂) (L₁ ++ L₂) ∧ x.Tagged s₂.mem (x.size + 1) ∧
      s.SameBounds s₂ ∧
      (x.size + 8 ≤ f.size → s₂.mem.load32 (f.ptr + f.size - 8) = f.size) ∧
      (∀ a, ¬ x.TagByte a → s₂.mem a = s₁.mem a) ∧
      ∀ a, (∀ w ∈ l₁ ++ f :: l₂, w.isFree = true → ¬ w.Extent a) → s₂.mem a = s.mem a := by
  have hfmem : f ∈ l₁ ++ f :: l₂ := by simp
  have hfree : f.isFree = true := by simp [Seg.isFree, hf]
  have hfb : f.IsBlock := by simp [Seg.IsBlock, hf]
  have hb := h.blocks.bounds hfmem
  have hfmod := f.size_mod
  have hxmod := x.size_mod
  have hxsize : x.size ≤ f.size := by
    have := hrest.le
    omega
  obtain ⟨s₁, hremove, h₁, htag₁, hsame₁, hframe₁⟩ :=
    removeFreeBlock_spec h hf (y := f.asRaw) rfl rfl rfl
  have hfmem₁ : f.asRaw ∈ l₁ ++ f.asRaw :: l₂ := by simp
  have hsize₁ : getSize s₁ (hdrp f.ptr) = some f.size :=
    h₁.blocks.getSize_of_tagged (x := f.asRaw) hfmem₁ htag₁
      (by change f.size / 8 * 8 = f.size; omega)
  -- cut the raw segment at the requested size, then write the tags of its first part
  have hcut : Rep s₁ (l₁ ++ x.asRaw :: rest ++ l₂) (L₁ ++ L₂) := by
    refine h₁.replace (x.asRaw :: rest) (by simp [Seg.asRaw, Seg.isFree]) ⟨hx.ptr, hrest⟩ ?_ ?_
    · intro y hy
      rcases List.mem_cons.mp hy with rfl | hy
      · simp [Seg.asRaw, Seg.isFree]
      · simp [Seg.isFree, hraw y hy]
    · intro y hy hyb
      rcases List.mem_cons.mp hy with rfl | hy
      · exact absurd rfl hyb
      · exact absurd (hraw y hy) hyb
  have hxmem : x.asRaw ∈ l₁ ++ x.asRaw :: rest ++ l₂ := by simp
  obtain ⟨s₂, hput, h₂, htag₂, hsame₂, hframe₂⟩ := putTags_spec hcut hxmem rfl (w := x.size + 1)
    (by change (x.size + 1) / 8 * 8 = x.size; omega) (by omega)
  have hlive : Rep s₂ (l₁ ++ x :: rest ++ l₂) (L₁ ++ L₂) := by
    have h₂' : Rep s₂ (l₁ ++ x.asRaw :: (rest ++ l₂)) (L₁ ++ L₂) := by simpa using h₂
    have := h₂'.replace [x] (by simp [Seg.asRaw, Seg.isFree]) ⟨rfl, rfl⟩
      (by simp [Seg.isFree, hx.kind]) (by
        intro y hy _
        obtain rfl := List.mem_singleton.mp hy
        rw [Seg.word_live hx.kind]
        exact htag₂)
    simpa using this
  refine ⟨s₁, s₂, hremove, hsize₁, ?_, hlive, htag₂,
    ⟨hsame₂.1.trans hsame₁.1, hsame₂.2.trans hsame₁.2⟩, ?_, hframe₂, ?_⟩
  · rw [pack_adjust hn, ← hx.size, ← hx.ptr]
    exact hput
  · intro hlt
    have hftr : s₁.mem.load32 (f.ptr + f.size - 8) = f.size := htag₁.2
    refine (Mem.load32_congr fun a hlo hhi => hframe₂ a fun ht => ?_).trans hftr
    have htx : x.TagByte a := ht
    have hxptr := hx.ptr
    unfold Seg.TagByte at htx
    omega
  · intro a ha
    have hfa := ha f hfmem hfree
    rw [hframe₂ a, hframe₁ a]
    · intro z hz hl
      have hzL : z ∈ L₁ ++ f :: L₂ := ((List.sublist_cons_self f L₂).append_left L₁).mem hz
      exact h.not_linkByte ha hzL hl
    · intro ht
      have hext : x.Extent a := Seg.TagByte.extent (x := x.asRaw) ht
      apply hfa
      unfold Seg.Extent at hext ⊢
      have := hx.ptr
      omega

/-- The remainder of a free block is tagged and put on the list. -/
theorem splitFree_spec (h : Rep s (l₁ ++ x :: r.asRaw :: l₂) L) (hr : r.kind = .free)
    (hx : x.Tagged s.mem (x.size + 1)) :
    ∃ s₁ s₂ L₁ L₂, nextBlkp s x.ptr = some r.ptr ∧ putTags s r.ptr (pack r.size 0) = some s₁ ∧
      coalesce s₁ r.ptr = some (s₁, r.ptr) ∧ addFreeBlock s₁ r.ptr = some s₂ ∧ L = L₁ ++ L₂ ∧
      Rep s₂ (l₁ ++ x :: r :: l₂) (L₁ ++ r :: L₂) ∧ s.SameBounds s₂ ∧
      ∀ a, ¬ r.Extent a → (∀ w ∈ L, ¬ w.LinkByte a) → s₂.mem a = s.mem a := by
  have hxmem : x ∈ l₁ ++ x :: r.asRaw :: l₂ := by simp
  have hrmem : r.asRaw ∈ l₁ ++ x :: r.asRaw :: l₂ := by simp
  have hxmod := x.size_mod
  have hrmod := r.size_mod
  have hb := h.blocks.bounds hrmem
  have hrlt : r.ptr + r.size ≤ s.memBrk := hb.2.1
  have hr16 : 16 ≤ r.size := Seg.IsBlock.size_ge (by simp [Seg.IsBlock, hr])
  have hptr : r.ptr = x.ptr + x.size := (h.blocks.tiles.split.2).1
  have hnext : nextBlkp s x.ptr = some r.ptr := by
    rw [h.blocks.nextBlkp_of_tagged hxmem hx (by omega), hptr]
  obtain ⟨s₁, hput, h₁, htag₁, hsame₁, hframe₁⟩ := putTags_spec h hrmem rfl (w := r.size)
    (by change r.size / 8 * 8 = r.size; omega) (by omega)
  have h₁' : Rep s₁ (l₁ ++ [x] ++ r.asRaw :: l₂) L := by simpa using h₁
  obtain ⟨s₂, L₁, L₂, hadd, rfl, h₂, hsame₂, hframe₂⟩ :=
    addFreeBlock_spec h₁' rfl (y := r) hr rfl rfl htag₁
  have hco : coalesce s₁ r.ptr = some (s₁, r.ptr) := coalesce_eq (x := r.asRaw) h₁.blocks hrmem
  refine ⟨s₁, s₂, L₁, L₂, hnext, ?_, hco, hadd, rfl, by simpa using h₂,
    ⟨hsame₂.1.trans hsame₁.1, hsame₂.2.trans hsame₁.2⟩, ?_⟩
  · rw [pack_zero hrmod (by omega)]
    exact hput
  · intro a hra hL
    rw [hframe₂ a, hframe₁ a]
    · exact fun ht => hra (Seg.TagByte.extent (x := r) ht)
    · intro z hz hl
      rcases List.mem_cons.mp hz with rfl | hz
      · exact hra (Seg.LinkByte.extent (x := r) hr16 hl)
      · exact hL z hz hl

/-- A request served from the free list. -/
theorem reuse_spec (h : Rep s segs L) (hn : n + 15 < 2 ^ 32) (hpos : n ≠ 0)
    (hfits : fitsFreeList s (adjust n) = some true) (hchoose : chooseFree s (adjust n) = some f.ptr)
    (hbest : BestFit L (adjust n) f) :
    ∃ s' segs' L', mmMalloc s n = some (s', f.ptr) ∧ Rep s' segs' L' ∧
      MallocStep segs L s.memBrk n f.ptr segs' L' ∧ s.SameBounds s' ∧
      (f.size = adjust n + 8 → s'.mem.load32 (f.ptr + adjust n) = f.size) ∧
      ∀ a, (∀ w ∈ segs, w.isFree = true → ¬ w.Extent a) → s'.mem a = s.mem a := by
  obtain ⟨hamod, hage, ha16, halt⟩ := adjust_spec hn
  have hfits' := hbest.fits
  have hfmem := h.mem_segs hbest.mem
  have hfree := (h.mem_list.mp hbest.mem).2
  have hfkind := Seg.isFree_iff.mp hfree
  have hfmod := f.size_mod
  have hpmod := f.ptr_mod
  have hb := h.blocks.bounds hfmem
  have hsub : sub f.size (adjust n) = f.size - adjust n := sub_eq hfits' (by omega)
  let x : Seg := ⟨f.ptr, adjust n, .live n, hpmod, hamod, max_le ha16 hage⟩
  have hx : Handed n f.ptr x := ⟨rfl, rfl, rfl⟩
  obtain ⟨l₁, l₂, rfl⟩ := List.append_of_mem hfmem
  obtain ⟨L₁, L₂, rfl⟩ := List.append_of_mem hbest.mem
  by_cases hsplit : adjust n + 16 ≤ f.size
  · let r : Seg := ⟨f.ptr + adjust n, f.size - adjust n, .free, by omega, by omega,
      by change 16 ≤ f.size - adjust n; omega⟩
    obtain ⟨s₁, s₂, hremove, hcsize, hput, h₂, htag, hsame, -, -, hframe⟩ :=
      takeFree_spec h hfkind hn hx [r.asRaw]
        ⟨rfl, by change f.ptr + adjust n + (f.size - adjust n) = f.ptr + f.size; omega⟩
        (by simp [Seg.asRaw])
    have h₂' : Rep s₂ (l₁ ++ x :: r.asRaw :: l₂) (L₁ ++ L₂) := by simpa using h₂
    obtain ⟨s₃, s₄, L₃, L₄, hnext, hput₃, -, hadd, hL, h₄, hsame₄, hframe₄⟩ :=
      splitFree_spec h₂' rfl htag
    refine ⟨s₄, _, _, ?_, h₄,
      .split l₁ l₂ L₁ L₂ L₃ L₄ f x r rfl rfl hbest hsplit hx rfl rfl rfl hL,
      ⟨hsame₄.1.trans hsame.1, hsame₄.2.trans hsame.2⟩, fun _ => by omega, ?_⟩
    · have hge : dsize + overhead ≤ f.size - adjust n := by
        simp only [dsize, overhead]
        omega
      have hnext' : nextBlkp s₂ f.ptr = some r.ptr := hnext
      have hput₃' : putTags s₂ r.ptr (pack (f.size - adjust n) 0) = some s₃ := hput₃
      simp [mmMalloc, hpos, hfits, hchoose, hremove, hcsize, hput, hsub, hge, hnext', hput₃', hadd]
    · intro a ha
      rw [hframe₄ a, hframe a ha]
      · intro hra
        apply ha f hfmem hfree
        unfold Seg.Extent at hra ⊢
        simp only [r] at hra
        omega
      · intro w hw hl
        have hwL : w ∈ L₁ ++ f :: L₂ := ((List.sublist_cons_self f L₂).append_left L₁).mem hw
        exact h.not_linkByte ha hwL hl
  · have hlt : ¬ dsize + overhead ≤ f.size - adjust n := by
      simp only [dsize, overhead]
      omega
    have hret : ∀ {s₁ s₂ : State}, removeFreeBlock s f.ptr = some s₁ →
        getSize s₁ (hdrp f.ptr) = some f.size → putTags s₁ f.ptr (pack (adjust n) 1) = some s₂ →
        mmMalloc s n = some (s₂, f.ptr) := by
      intro s₁ s₂ hremove hcsize hput
      simp [mmMalloc, hpos, hfits, hchoose, hremove, hcsize, hput, hsub, hlt]
    by_cases hexact : f.size = adjust n
    · obtain ⟨s₁, s₂, hremove, hcsize, hput, h₂, -, hsame, -, -, hframe⟩ :=
        takeFree_spec h hfkind hn hx [] (by simp [x, hexact]) (by simp)
      exact ⟨s₂, _, _, hret hremove hcsize hput, by simpa using h₂,
        .exact l₁ l₂ L₁ L₂ f x rfl rfl hbest hexact hx, hsame, fun _ => by omega, hframe⟩
    · have hdrop : f.size = adjust n + 8 := by omega
      let d : Seg := ⟨f.ptr + adjust n, 8, .raw, by omega, rfl, le_rfl⟩
      obtain ⟨s₁, s₂, hremove, hcsize, hput, h₂, -, hsame, hfooter, -, hframe⟩ :=
        takeFree_spec h hfkind hn hx [d]
          ⟨rfl, by change f.ptr + adjust n + 8 = f.ptr + f.size; omega⟩ (by simp [d])
      refine ⟨s₂, _, _, hret hremove hcsize hput, by simpa using h₂,
        .drop l₁ l₂ L₁ L₂ f x d rfl rfl hbest hdrop hx rfl rfl, hsame, fun _ => ?_, hframe⟩
      -- the footer of the old block stays behind in the remainder
      have hat : f.ptr + f.size - 8 = f.ptr + adjust n := by omega
      rw [← hat]
      exact hfooter (by change adjust n + 8 ≤ f.size; omega)

/-! ## The path that extends the heap -/

/-- Extending the heap by `asize` bytes computes no address past the end of the address space. -/
def NoWrap (s : State) (asize : ℕ) : Prop := asize < 2 ^ 31 → s.memBrk + asize < 2 ^ 32

instance (s : State) (asize : ℕ) : Decidable (NoWrap s asize) := inferInstanceAs (Decidable (_ → _))

/-- `mem_sbrk` either refuses and changes nothing, or moves the break up by the given size. -/
theorem memSbrk_spec {asize : ℕ} (ha : asize < 2 ^ 32) (hwrap : NoWrap s asize) :
    memSbrk s (toInt asize) = (s, minusOne) ∨
      (s.memBrk + asize ≤ s.memMaxAddr ∧
        memSbrk s (toInt asize) = ({ s with memBrk := s.memBrk + asize }, s.memBrk)) := by
  by_cases hsmall : asize < 2 ^ 31
  · have hint : toInt asize = asize := if_pos hsmall
    have hadd : add s.memBrk asize = s.memBrk + asize := add_eq (hwrap hsmall)
    by_cases hroom : s.memBrk + asize ≤ s.memMaxAddr
    · right
      have hnot : ¬ s.memMaxAddr < s.memBrk + asize := by omega
      simp [memSbrk, hint, hadd, hroom, hnot]
    · left
      have hgt : s.memMaxAddr < s.memBrk + asize := by omega
      simp [memSbrk, hint, hadd, hgt]
  · left
    have hneg : toInt asize < 0 := by
      unfold toInt
      rw [if_neg hsmall]
      omega
    simp [memSbrk, hneg]

/-- A block on top of the heap: the memory below the old epilogue stays, the block is tagged and a
new epilogue follows it. -/
theorem Blocks.grow (h : Blocks s segs) {m' : Mem} (hptr : x.ptr = s.memBrk)
    (hroom : s.memBrk + x.size ≤ s.memMaxAddr) (hm : ∀ a, a < s.memBrk - 4 → m' a = s.mem a)
    (htags : x.TagsOk m') (hepi : m'.load32 (s.memBrk + x.size - 4) = 1) :
    Blocks { s with mem := m', memBrk := s.memBrk + x.size } (segs ++ [x]) where
  start_mod := h.start_mod
  max_eq := h.max_eq
  max_lt := h.max_lt
  brk_le := hroom
  listp := h.listp
  prologue := by
    have hle : s.memStartBrk + 16 ≤ s.memBrk := h.tiles.le
    have h₁ : m'.load32 (s.memStartBrk + 4) = s.mem.load32 (s.memStartBrk + 4) :=
      Mem.load32_congr fun a hlo hhi => hm a (by omega)
    have h₂ : m'.load32 (s.memStartBrk + 8) = s.mem.load32 (s.memStartBrk + 8) :=
      Mem.load32_congr fun a hlo hhi => hm a (by omega)
    exact ⟨h₁.trans h.prologue.1, h₂.trans h.prologue.2⟩
  epilogue := hepi
  tiles := h.tiles.concat hptr
  tags := by
    intro y hy hyb
    rcases List.mem_append.mp hy with hy | hy
    · have hb := h.bounds hy
      have hs := y.size_ge
      apply (h.tagged hy hyb).congr (by omega)
      intro a ha
      apply hm a
      have := ha.extent
      unfold Seg.Extent at this
      omega
    · obtain rfl := List.mem_singleton.mp hy
      exact htags hyb

/-- The memory after a block of `a` bytes is tagged at `b` and an epilogue is put after it. -/
def growMem (m : Mem) (b a : ℕ) : Mem :=
  ((m.store32 (b - 4) (a + 1)).store32 (b + a - 8) (a + 1)).store32 (b + a - 4) 1

/-- The header of the block on top of the heap. -/
theorem growMem_header {m : Mem} {b a : ℕ} (hb : 8 ≤ b) (ha : a % 8 = 0) (hlt : a + 1 < 2 ^ 32) :
    (growMem m b a).load32 (b - 4) = a + 1 := by
  unfold growMem
  by_cases hzero : a = 0
  · subst hzero
    exact Mem.load32_store32_self (by norm_num)
  · rw [Mem.load32_store32_of_disjoint (by omega), Mem.load32_store32_of_disjoint (by omega),
      Mem.load32_store32_self hlt]

/-- The bytes below the old epilogue stay. -/
theorem growMem_apply {m : Mem} {b a c : ℕ} (ha : 8 ≤ a) (hc : c < b - 4) :
    growMem m b a c = m c := by
  unfold growMem
  rw [Mem.store32_apply_of_not_mem (by omega), Mem.store32_apply_of_not_mem (by omega),
    Mem.store32_apply_of_not_mem (by omega)]

/-- Tagging a block of `a` bytes at the old break `b` and writing the new epilogue. -/
theorem growTags_eq {b a : ℕ} (hlo : s.memStartBrk + 8 ≤ b) (hroom : b + a ≤ s.memMaxAddr)
    (hmax : s.memMaxAddr < 2 ^ 32) (ha : a % 8 = 0) (hlt : a + 7 < 2 ^ 32) :
    ∃ s₁, putTags s b (a + 1) = some s₁ ∧ nextBlkp s₁ b = some (b + a) ∧
      put s₁ (hdrp (b + a)) 1 = some { s with mem := growMem s.mem b a } := by
  have hhdr : hdrp b = b - 4 := hdrp_eq (by omega) (by omega)
  have hin : ∀ p, s.memStartBrk ≤ p → p + 4 ≤ b + a → ∀ t : State,
      t.memStartBrk = s.memStartBrk → t.memMaxAddr = s.memMaxAddr → t.InHeap p := by
    intro p hlo hhi t h₁ h₂
    unfold State.InHeap
    simp only [wsize]
    omega
  have hmask : (a + 1) &&& 0xFFFFFFF8 = a := by
    rw [and_mask (by omega)]
    omega
  have hsize : ∀ t : State, t.memStartBrk = s.memStartBrk → t.memMaxAddr = s.memMaxAddr →
      t.mem.load32 (b - 4) = a + 1 → getSize t (b - 4) = some a := by
    intro t h₁ h₂ hload
    unfold getSize
    rw [get_eq (hin (b - 4) (by omega) (by omega) t h₁ h₂), hload, Option.map_some, hmask]
  have hsize₁ := hsize (s.store (b - 4) (a + 1)) rfl rfl (Mem.load32_store32_self (by omega))
  have hsize₂ := hsize ((s.store (b - 4) (a + 1)).store (b + a - 8) (a + 1)) rfl rfl (by
    rw [store_mem, store_mem, Mem.load32_store32_of_disjoint (by omega),
      Mem.load32_store32_self (by omega)])
  have hftr : ftrp (s.store (b - 4) (a + 1)) b = some (b + a - 8) := by
    unfold ftrp
    rw [hhdr, hsize₁, Option.bind_eq_bind, Option.bind_some, add_eq (by omega),
      sub_eq (by simp only [dsize]; omega) (by omega)]
  refine ⟨(s.store (b - 4) (a + 1)).store (b + a - 8) (a + 1), ?_, ?_, ?_⟩
  · unfold putTags
    simp only [hhdr, put_eq (hin (b - 4) (by omega) (by omega) s rfl rfl), Option.bind_eq_bind,
      Option.bind_some, hftr, put_eq (hin (b + a - 8) (by omega) (by omega)
        (s.store (b - 4) (a + 1)) rfl rfl)]
  · have hsub : sub b wsize = b - 4 := hhdr
    unfold nextBlkp
    rw [hsub, hsize₂, Option.bind_eq_bind, Option.bind_some, add_eq (by omega)]
  · rw [hdrp_eq (by omega) (by omega), put_eq (hin (b + a - 4) (by omega) (by omega)
      ((s.store (b - 4) (a + 1)).store (b + a - 8) (a + 1)) rfl rfl)]
    rfl

/-- A request that no free block is taken for, once `mem_sbrk` has granted `a` bytes. -/
theorem mmMalloc_of_sbrk {a : ℕ} (hpos : n ≠ 0) (hadj : adjust n = a)
    (hfits : fitsFreeList s a = some false)
    (hsbrk : memSbrk s (toInt a) = ({ s with memBrk := s.memBrk + a }, s.memBrk))
    (hlo : s.memStartBrk + 8 ≤ s.memBrk) (hroom : s.memBrk + a ≤ s.memMaxAddr)
    (hmax : s.memMaxAddr < 2 ^ 32) (ha : a % 8 = 0) (hlt : a + 7 < 2 ^ 32)
    (hbrk : s.memBrk ≠ minusOne) :
    mmMalloc s n =
      some ({ s with mem := growMem s.mem s.memBrk a, memBrk := s.memBrk + a }, s.memBrk) := by
  obtain ⟨s₁, htags, hnext, hepi⟩ :=
    growTags_eq (s := { s with memBrk := s.memBrk + a }) (b := s.memBrk) hlo hroom hmax ha hlt
  have hone : pack 0 1 = 1 := by decide
  simp only [mmMalloc, hpos, hadj, hfits, hsbrk, pack_one ha hlt, htags, hnext, hone, hepi, hbrk,
    Option.bind_eq_bind, Option.bind_some, Nat.le_zero_eq, if_false, Bool.false_eq_true]
  rfl

/-- A request served by extending the heap. -/
theorem grow_spec (h : Rep s segs L) (hn : n + 15 < 2 ^ 32) (hpos : n ≠ 0)
    (hfits : fitsFreeList s (adjust n) = some false)
    (hroom : s.memBrk + adjust n ≤ s.memMaxAddr)
    (hsbrk : memSbrk s (toInt (adjust n)) =
      ({ s with memBrk := s.memBrk + adjust n }, s.memBrk))
    (hx : Handed n s.memBrk x) :
    ∃ s', mmMalloc s n = some (s', s.memBrk) ∧ Rep s' (segs ++ [x]) L ∧
      s'.memStartBrk = s.memStartBrk ∧ ∀ a, a < s.memBrk - 4 → s'.mem a = s.mem a := by
  obtain ⟨hamod, hage, ha16, halt⟩ := adjust_spec hn
  have hmax := h.blocks.max_lt
  have hstart : s.memStartBrk + 16 ≤ s.memBrk := h.blocks.tiles.le
  have hbne : s.memBrk ≠ minusOne := by
    unfold minusOne
    omega
  have hret := mmMalloc_of_sbrk hpos rfl hfits hsbrk (by omega) hroom hmax hamod halt hbne
  have hframe : ∀ a, a < s.memBrk - 4 → growMem s.mem s.memBrk (adjust n) a = s.mem a :=
    fun a ha => growMem_apply (by omega) ha
  have hxsize := hx.size
  refine ⟨_, hret, ⟨?_, ?_, ?_⟩, rfl, hframe⟩
  · rw [← hxsize]
    apply h.blocks.grow hx.ptr (by omega) (by rwa [hxsize])
    · intro _
      rw [Seg.word_live hx.kind]
      unfold Seg.Tagged
      rw [hx.ptr, hxsize]
      refine ⟨growMem_header (by omega) hamod (by omega), ?_⟩
      unfold growMem
      rw [Mem.load32_store32_of_disjoint (by omega), Mem.load32_store32_self (by omega)]
    · exact Mem.load32_store32_self (by norm_num)
  · have hl : FreeList { s with mem := growMem s.mem s.memBrk (adjust n) } L :=
      h.list.of_mem fun z hz a ha => hframe a (by
        have hb := h.blocks.bounds (h.mem_segs hz)
        have h16 := (h.isBlock hz).size_ge
        unfold Seg.LinkByte at ha
        omega)
    exact ⟨hl.sorted, hl.linked, hl.root, hl.end_⟩
  · have hxf : x.isFree = false := by simp [Seg.isFree, hx.kind]
    rw [List.filter_append, List.filter_cons_of_neg (by simp [hxf]), List.filter_nil,
      List.append_nil]
    exact h.perm

/-! ## `mm_malloc` -/

/-- `mm_malloc` returns, and what it returns is a step of the abstract allocator. A null result
leaves everything as it was; otherwise only bytes of free blocks and bytes from the old epilogue on
are written. The footer of a block that is eight bytes too large stays behind. -/
theorem mmMalloc_spec (h : Rep s segs L) (hn : n + 15 < 2 ^ 32) (hwrap : NoWrap s (adjust n)) :
    ∃ s' p segs' L', mmMalloc s n = some (s', p) ∧ Rep s' segs' L' ∧
      MallocStep segs L s.memBrk n p segs' L' ∧ s'.memStartBrk = s.memStartBrk ∧
      (p = NULL → s' = s) ∧
      (∀ f, BestFit L (adjust n) f → f.ptr = p → f.size = adjust n + 8 →
        s'.mem.load32 (p + adjust n) = f.size) ∧
      ∀ a, a < s.memBrk - 4 → (∀ w ∈ segs, w.isFree = true → ¬ w.Extent a) →
        s'.mem a = s.mem a := by
  obtain ⟨hamod, hage, ha16, halt⟩ := adjust_spec hn
  have hne : ∀ f, BestFit L (adjust n) f → f.ptr ≠ NULL := fun f hf =>
    h.blocks.ptr_ne_null (h.mem_segs hf.mem)
  by_cases hpos : n = 0
  · exact ⟨s, NULL, segs, L, by simp [mmMalloc, hpos], h, .null (Or.inl hpos), rfl, fun _ => rfl,
      fun f hf hp => absurd hp (hne f hf), fun _ _ _ => rfl⟩
  rcases fitsFreeList_eq h (adjust n) with ⟨hfits, f, hchoose, hbest⟩ | ⟨hfits, hnone⟩
  · obtain ⟨s', segs', L', hret, h', hstep, hsame, hfooter, hframe⟩ :=
      reuse_spec h hn hpos hfits hchoose hbest
    refine ⟨s', f.ptr, segs', L', hret, h', hstep, hsame.1, fun hp => absurd hp (hne f hbest), ?_,
      fun a _ ha => hframe a ha⟩
    intro g hg hptr hsize
    obtain rfl := h.blocks.eq_of_ptr_eq (h.mem_segs hg.mem) (h.mem_segs hbest.mem) hptr
    exact hfooter hsize
  · rcases memSbrk_spec (s := s) (by omega) hwrap with hsbrk | ⟨hroom, hsbrk⟩
    · exact ⟨s, NULL, segs, L, by simp [mmMalloc, hpos, hfits, hsbrk], h, .null (Or.inr hnone), rfl,
        fun _ => rfl, fun f hf hp => absurd hp (hne f hf), fun _ _ _ => rfl⟩
    · have hstart : s.memStartBrk + 16 ≤ s.memBrk := h.blocks.tiles.le
      have hbmod := h.blocks.brk_mod
      let x : Seg := ⟨s.memBrk, adjust n, .live n, hbmod, hamod, max_le ha16 hage⟩
      have hx : Handed n s.memBrk x := ⟨rfl, rfl, rfl⟩
      obtain ⟨s', hret, h', hlo, hframe⟩ := grow_spec h hn hpos hfits hroom hsbrk hx
      refine ⟨s', s.memBrk, _, _, hret, h', .grow x hx hnone, hlo, ?_,
        fun f hf => absurd ⟨f, hf⟩ hnone, fun a ha _ => hframe a ha⟩
      intro hp
      simp only [NULL] at hp
      omega

/-! ## `mm_init` -/

/-- A heap that holds the prologue and the epilogue only. -/
theorem Rep.empty (hmod : s.memStartBrk % 8 = 0) (hmax : s.memMaxAddr = s.memStartBrk + maxHeap)
    (hlt : s.memMaxAddr < 2 ^ 32) (hbrk : s.memBrk = s.memStartBrk + 16)
    (hlistp : s.heapListp = s.memStartBrk + 8)
    (hpro : s.mem.load32 (s.memStartBrk + 4) = 9 ∧ s.mem.load32 (s.memStartBrk + 8) = 9)
    (hepi : s.mem.load32 (s.memStartBrk + 12) = 1) (hroot : s.freeListRoot = NULL)
    (hend : s.freeListEnd = NULL) : Rep s [] [] where
  blocks := by
    refine ⟨hmod, hmax, hlt, ?_, hlistp, hpro, ?_, hbrk.symm, by simp⟩
    · rw [hbrk, hmax]
      exact Nat.add_le_add_left (by decide) _
    · rw [hbrk]
      exact hepi
  list := ⟨List.Pairwise.nil, Linked.nil, hroot, hend⟩
  perm := List.Perm.nil

/-- The memory that `mm_init` leaves: padding, prologue header and footer, epilogue header. -/
def initMem (start : ℕ) (bytes : Mem) : Mem :=
  (((bytes.store32 start 0).store32 (start + 4) 9).store32 (start + 8) 9).store32 (start + 12) 1

/-- `mm_init` once `mem_sbrk` has granted four words at `p`. -/
theorem mmInit_of_sbrk {t : State} {p : ℕ} (hsbrk : memSbrk s (4 * wsize) = (t, p))
    (hlo : t.memStartBrk ≤ p) (hhi : p + 16 ≤ t.memMaxAddr) (hlt : t.memMaxAddr < 2 ^ 32) :
    mmInit s = some ({ t with
      mem := initMem p t.mem, heapListp := p + 8, freeListRoot := NULL,
      freeListEnd := NULL }, 0) := by
  have h₁ : add p (1 * wsize) = p + 4 := add_eq (by simp only [wsize]; omega)
  have h₂ : add p (2 * wsize) = p + 8 := add_eq (by simp only [wsize]; omega)
  have h₃ : add p (3 * wsize) = p + 12 := add_eq (by simp only [wsize]; omega)
  have hpro : pack dsize 1 = 9 := by decide
  have hepi : pack 0 1 = 1 := by decide
  have hne : p ≠ minusOne := by
    unfold minusOne
    omega
  have hput : ∀ (u : State) (q v : ℕ), p ≤ q → q + 4 ≤ p + 16 → u.memStartBrk = t.memStartBrk →
      u.memMaxAddr = t.memMaxAddr → put u q v = some (u.store q v) := by
    intro u q v hq hq' hu hu'
    refine put_eq ⟨?_, ?_⟩
    · omega
    · simp only [wsize]
      omega
  unfold mmInit
  rw [hsbrk]
  simp only [hne, if_false, h₁, h₂, h₃, hpro, hepi, Option.bind_eq_bind]
  generalize hu : ({ t with heapListp := p } : State) = u
  have hulo : u.memStartBrk = t.memStartBrk := by rw [← hu]
  have huhi : u.memMaxAddr = t.memMaxAddr := by rw [← hu]
  rw [hput u p 0 le_rfl (by omega) hulo huhi, Option.bind_some,
    hput (u.store p 0) (p + 4) 9 (by omega) (by omega) hulo huhi, Option.bind_some,
    hput ((u.store p 0).store (p + 4) 9) (p + 8) 9 (by omega) (by omega) hulo huhi,
    Option.bind_some,
    hput (((u.store p 0).store (p + 4) 9).store (p + 8) 9) (p + 12) 1 (by omega) (by omega) hulo
      huhi, Option.bind_some, ← hu]
  rfl

/-- `mm_init` on an empty heap leads to the empty layout. -/
theorem mmInit_spec {start : ℕ} (bytes : Mem) (hmod : start % 8 = 0)
    (hlt : start + maxHeap < 2 ^ 32) :
    ∃ s, mmInit (memInit start bytes) = some (s, 0) ∧ Rep s [] [] ∧ s.memStartBrk = start := by
  have h16 : 16 ≤ maxHeap := by decide
  have hmax : add start maxHeap = start + maxHeap := add_eq hlt
  have hbrk : add start 16 = start + 16 := add_eq (by omega)
  have hsbrk : memSbrk (memInit start bytes) (4 * wsize) =
      ({ memInit start bytes with memBrk := start + 16 }, start) := by
    have hnot : ¬ add start maxHeap < start + 16 := by
      rw [hmax]
      omega
    have hint : ((4 : ℤ) * (wsize : ℕ)).toNat = 16 := rfl
    have hge : ¬ (4 : ℤ) * (wsize : ℕ) < 0 := by decide
    simp only [memSbrk, memInit, hint, hbrk, hge, hnot, or_self, if_false]
  have hroom : start + 16 ≤ add start maxHeap := by
    rw [hmax]
    omega
  have hret := mmInit_of_sbrk hsbrk le_rfl hroom (hmax.trans_lt hlt)
  refine ⟨_, hret, Rep.empty hmod hmax (hmax.trans_lt hlt) rfl rfl ⟨?_, ?_⟩ ?_ rfl rfl, rfl⟩
  · change (initMem start bytes).load32 (start + 4) = 9
    rw [initMem, Mem.load32_store32_of_disjoint (by omega),
      Mem.load32_store32_of_disjoint (by omega),
      Mem.load32_store32_self (by norm_num)]
  · change (initMem start bytes).load32 (start + 8) = 9
    rw [initMem, Mem.load32_store32_of_disjoint (by omega), Mem.load32_store32_self (by norm_num)]
  · change (initMem start bytes).load32 (start + 12) = 1
    rw [initMem, Mem.load32_store32_self (by norm_num)]

end SystemsLabs.Malloclab
