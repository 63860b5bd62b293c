import SystemsLabs.Malloclab.Mm
import SystemsLabs.Lib.Tiling
import SystemsLabs.Lib.LinkedList

/-!
# The layout of the heap

The abstract heap: the addresses between the prologue and the epilogue are tiled by segments
(`Seg`), each a block handed out (`live`), a block on the free list (`free`), or bytes that no
boundary tag describes (`raw`: a block whose tags are being rewritten, or a remainder that was
dropped). A segment carries its alignment and its least size.

`Rep s segs L` ties it to the memory of `mm.c`: the segments tile the heap and their boundary tags
say so (`Blocks`), and the free segments, in the order `L`, are the linked list that
`free_list_root` and `free_list_end` delimit (`FreeList`). The update rules of this file are the
frame rules: which bytes a heap relies on (`Seg.Meta`), that other bytes may change
(`Rep.of_mem`), and that a segment off the list may be cut up anew (`Rep.replace`).

**Assumptions.** The heap object starts at a multiple of 8 and ends below `2 ^ 32` (`Blocks`).
-/

namespace SystemsLabs.Malloclab

open SystemsLabs.Lib

/-! ## Segments -/

/-- What a segment of the heap is used for. -/
inductive Kind
  /-- Handed out for a request of `n` bytes. -/
  | live (n : ℕ)
  /-- On the free list. -/
  | free
  /-- Not described by boundary tags. -/
  | raw

/-- The least size of a segment: header and footer, and either the payload or the two links. -/
def Kind.minSize : Kind → ℕ
  | .live n => max minBlockSize (n + overhead)
  | .free => minBlockSize
  | .raw => dsize

/-- A segment of the heap. Its extent is `[ptr - 4, ptr + size - 4)`: the header comes right before
the block pointer. -/
structure Seg where
  /-- The block pointer. -/
  ptr : ℕ
  /-- The block size, tags included. -/
  size : ℕ
  /-- The use of the segment. -/
  kind : Kind
  ptr_mod : ptr % 8 = 0
  size_mod : size % 8 = 0
  minSize_le : kind.minSize ≤ size

namespace Seg

/-- The segment is on the free list. -/
def isFree (x : Seg) : Bool :=
  match x.kind with
  | .free => true
  | _ => false

/-- The segment is a block with boundary tags. -/
def IsBlock (x : Seg) : Prop := x.kind ≠ .raw

/-- The word in the boundary tags of a block. -/
def word (x : Seg) : ℕ :=
  match x.kind with
  | .live _ => x.size + 1
  | _ => x.size

/-- Header and footer of the segment hold `w`. -/
def Tagged (m : Mem) (x : Seg) (w : ℕ) : Prop :=
  m.load32 (x.ptr - 4) = w ∧ m.load32 (x.ptr + x.size - 8) = w

/-- The boundary tags of a block describe it; nothing is asked of other segments. -/
def TagsOk (m : Mem) (x : Seg) : Prop := x.IsBlock → x.Tagged m x.word

/-- The bytes of the boundary tags. -/
def TagByte (x : Seg) (a : ℕ) : Prop :=
  (x.ptr - 4 ≤ a ∧ a < x.ptr) ∨ (x.ptr + x.size - 8 ≤ a ∧ a < x.ptr + x.size - 4)

/-- The bytes of the two links of a free block. -/
def LinkByte (x : Seg) (a : ℕ) : Prop := x.ptr ≤ a ∧ a < x.ptr + 8

/-- The bytes of a segment that the allocator reads back. -/
def Meta (x : Seg) (a : ℕ) : Prop := (x.IsBlock ∧ x.TagByte a) ∨ (x.isFree = true ∧ x.LinkByte a)

variable {x y : Seg} {m m' : Mem}

/-- The test for free blocks. -/
theorem isFree_iff : x.isFree = true ↔ x.kind = .free := by
  unfold isFree
  cases x.kind <;> simp

/-- A free segment is a block. -/
theorem IsBlock.of_isFree (h : x.isFree = true) : x.IsBlock := by
  rw [isFree_iff] at h
  simp [IsBlock, h]

/-- A segment has at least its tags. -/
theorem size_ge (x : Seg) : 8 ≤ x.size := by
  have h := x.minSize_le
  unfold Kind.minSize at h
  split at h <;> simp only [minBlockSize, overhead, dsize] at h <;> omega

/-- A block has room for its links too. -/
theorem IsBlock.size_ge (h : x.IsBlock) : 16 ≤ x.size := by
  have hle := x.minSize_le
  unfold Kind.minSize at hle
  split at hle
  · simp only [minBlockSize] at hle
    omega
  · exact hle
  · exact absurd ‹_› h

/-- A live block has room for its payload. -/
theorem live_size {n : ℕ} (h : x.kind = .live n) : n + 8 ≤ x.size := by
  have hle := x.minSize_le
  simp only [Kind.minSize, h, minBlockSize, overhead] at hle
  omega

/-- The tag of a live block has the allocated bit. -/
theorem word_live {n : ℕ} (h : x.kind = .live n) : x.word = x.size + 1 := by simp [word, h]

/-- The tag of a free block is its size. -/
theorem word_free (h : x.kind = .free) : x.word = x.size := by simp [word, h]

/-- The tags of a segment depend on their own bytes only. -/
theorem Tagged.congr {w : ℕ} (hpos : 4 ≤ x.ptr) (h : x.Tagged m w)
    (hm : ∀ a, x.TagByte a → m' a = m a) : x.Tagged m' w := by
  have hs := x.size_ge
  refine ⟨?_, ?_⟩
  · rw [Mem.load32_congr fun a h₁ h₂ => hm a (Or.inl ⟨h₁, by omega⟩)]
    exact h.1
  · rw [Mem.load32_congr fun a h₁ h₂ => hm a (Or.inr ⟨h₁, by omega⟩)]
    exact h.2

/-- The bytes of a segment that the allocator reads back lie in its extent. -/
theorem Meta.extent {a : ℕ} (h : x.Meta a) :
    x.ptr - 4 ≤ a ∧ a < x.ptr + x.size - 4 := by
  have hs := x.size_ge
  rcases h with ⟨-, h | h⟩ | ⟨hf, h⟩
  · omega
  · omega
  · have := (IsBlock.of_isFree hf).size_ge
    unfold LinkByte at h
    omega

end Seg

/-! ## The representation -/

/-- The heap of `s` is tiled by `segs` between prologue and epilogue, and the boundary tags of the
blocks among them are right. -/
structure Blocks (s : State) (segs : List Seg) : Prop where
  start_mod : s.memStartBrk % 8 = 0
  max_eq : s.memMaxAddr = s.memStartBrk + maxHeap
  max_lt : s.memMaxAddr < 2 ^ 32
  brk_le : s.memBrk ≤ s.memMaxAddr
  listp : s.heapListp = s.memStartBrk + 8
  prologue : s.mem.load32 (s.memStartBrk + 4) = 9 ∧ s.mem.load32 (s.memStartBrk + 8) = 9
  epilogue : s.mem.load32 (s.memBrk - 4) = 1
  tiles : Tiles Seg.ptr Seg.size (s.memStartBrk + 16) segs s.memBrk
  tags : ∀ x ∈ segs, x.TagsOk s.mem

/-- The segments `L`, in this order, are the free list: sorted by size, linked through the first
two words of their payloads, and delimited by `free_list_root` and `free_list_end`. -/
structure FreeList (s : State) (L : List Seg) : Prop where
  sorted : L.Pairwise fun x y => x.size ≤ y.size
  linked : Linked s.mem.load32 (fun p => s.mem.load32 (p + 4)) (L.map Seg.ptr)
  root : s.freeListRoot = (L.map Seg.ptr).headD NULL
  end_ : s.freeListEnd = (L.map Seg.ptr).getLastD NULL

/-- `s` represents the layout `segs` with free list `L`. -/
structure Rep (s : State) (segs L : List Seg) : Prop where
  blocks : Blocks s segs
  list : FreeList s L
  perm : L.Perm (segs.filter Seg.isFree)

namespace Blocks

variable {s : State} {segs l₁ l₂ new : List Seg} {x y : Seg}

/-- Where a segment lies. -/
theorem bounds (h : Blocks s segs) (hx : x ∈ segs) :
    s.memStartBrk + 16 ≤ x.ptr ∧ x.ptr + x.size ≤ s.memBrk ∧ s.memBrk ≤ s.memMaxAddr ∧
      s.memMaxAddr < 2 ^ 32 := by
  have hb := h.tiles.bounds hx
  have := h.brk_le
  exact ⟨hb.1, hb.2, by assumption, h.max_lt⟩

/-- The break is aligned. -/
theorem brk_mod (h : Blocks s segs) : s.memBrk % 8 = 0 := by
  rcases List.eq_nil_or_concat segs with rfl | ⟨l, x, rfl⟩
  · have hstart := h.start_mod
    have hend : s.memStartBrk + 16 = s.memBrk := h.tiles
    omega
  · have hlast : x.ptr + x.size = s.memBrk := by
      have htiles := h.tiles
      rw [List.concat_eq_append] at htiles
      exact htiles.split.2
    have hp := x.ptr_mod
    have hs := x.size_mod
    omega

/-- Two segments are one, or one ends before the other starts. -/
theorem disjoint (h : Blocks s segs) (hx : x ∈ segs) (hy : y ∈ segs) :
    x = y ∨ x.ptr + x.size ≤ y.ptr ∨ y.ptr + y.size ≤ x.ptr :=
  h.tiles.disjoint hx hy

/-- A segment is determined by its block pointer. -/
theorem eq_of_ptr_eq (h : Blocks s segs) (hx : x ∈ segs) (hy : y ∈ segs) (hxy : x.ptr = y.ptr) :
    x = y :=
  h.tiles.eq_of_start_eq (fun z _ => by have := z.size_ge; omega) hx hy hxy

/-- The words of a segment lie inside the heap object. -/
theorem inHeap (h : Blocks s segs) (hx : x ∈ segs) {p : ℕ} (hlo : x.ptr - 8 ≤ p)
    (hhi : p + 4 ≤ x.ptr + x.size) : s.InHeap p := by
  have hb := h.bounds hx
  unfold State.InHeap
  simp only [wsize]
  omega

/-- The tags of a block read back. -/
theorem tagged (h : Blocks s segs) (hx : x ∈ segs) (hb : x.IsBlock) : x.Tagged s.mem x.word :=
  h.tags x hx hb

/-- The size field of a tagged segment. -/
theorem getSize_of_tagged (h : Blocks s segs) (hx : x ∈ segs) {w : ℕ} (ht : x.Tagged s.mem w)
    (hw : w / 8 * 8 = x.size) : getSize s (hdrp x.ptr) = some x.size := by
  have hb := h.bounds hx
  have hs := x.size_ge
  rw [hdrp_eq (by omega) (by omega)]
  unfold getSize
  rw [get_eq (h.inHeap hx (by omega) (by omega)), ht.1, Option.map_some, and_mask, hw]
  rw [← ht.1]
  exact Mem.load32_lt _ _

/-- `GET_SIZE(HDRP(bptr))` of a block is its size. -/
theorem getSize_eq (h : Blocks s segs) (hx : x ∈ segs) (hb : x.IsBlock) :
    getSize s (hdrp x.ptr) = some x.size := by
  apply h.getSize_of_tagged hx (h.tagged hx hb)
  have := x.size_mod
  unfold Seg.word
  split <;> omega

/-- Other bytes than the tags of blocks, the prologue and the epilogue may change. -/
theorem of_mem (h : Blocks s segs) {m' : Mem}
    (hpro : ∀ a, s.memStartBrk + 4 ≤ a → a < s.memStartBrk + 12 → m' a = s.mem a)
    (hepi : ∀ a, s.memBrk - 4 ≤ a → a < s.memBrk → m' a = s.mem a)
    (htag : ∀ x ∈ segs, x.IsBlock → ∀ a, x.TagByte a → m' a = s.mem a) :
    Blocks { s with mem := m' } segs where
  start_mod := h.start_mod
  max_eq := h.max_eq
  max_lt := h.max_lt
  brk_le := h.brk_le
  listp := h.listp
  prologue := by
    have h₁ : m'.load32 (s.memStartBrk + 4) = s.mem.load32 (s.memStartBrk + 4) :=
      Mem.load32_congr fun a hlo hhi => hpro a (by omega) (by omega)
    have h₂ : m'.load32 (s.memStartBrk + 8) = s.mem.load32 (s.memStartBrk + 8) :=
      Mem.load32_congr fun a hlo hhi => hpro a (by omega) (by omega)
    exact ⟨h₁.trans h.prologue.1, h₂.trans h.prologue.2⟩
  epilogue := by
    have hle : s.memStartBrk + 16 ≤ s.memBrk := h.tiles.le
    have h₁ : m'.load32 (s.memBrk - 4) = s.mem.load32 (s.memBrk - 4) :=
      Mem.load32_congr fun a hlo hhi => hepi a hlo (by omega)
    exact h₁.trans h.epilogue
  tiles := h.tiles
  tags := fun x hx hb => by
    have := h.bounds hx
    exact (h.tagged hx hb).congr (by omega) (htag x hx hb)

/-- A segment may be exchanged for well-tagged segments of the same extent. -/
theorem replace (h : Blocks s (l₁ ++ x :: l₂))
    (hnew : Tiles Seg.ptr Seg.size x.ptr new (x.ptr + x.size)) (htags : ∀ y ∈ new, y.TagsOk s.mem) :
    Blocks s (l₁ ++ new ++ l₂) where
  start_mod := h.start_mod
  max_eq := h.max_eq
  max_lt := h.max_lt
  brk_le := h.brk_le
  listp := h.listp
  prologue := h.prologue
  epilogue := h.epilogue
  tiles := h.tiles.replace hnew
  tags := fun y hy => by
    rcases List.mem_append.mp hy with hy | hy
    · rcases List.mem_append.mp hy with hy | hy
      · exact h.tags y (List.mem_append_left _ hy)
      · exact htags y hy
    · exact h.tags y (List.mem_append_right _ (List.mem_cons_of_mem _ hy))

end Blocks

/-- The links of the free list depend on their own bytes only. -/
theorem FreeList.of_mem {s : State} {L : List Seg} (h : FreeList s L) {m' : Mem}
    (hm : ∀ x ∈ L, ∀ a, x.LinkByte a → m' a = s.mem a) : FreeList { s with mem := m' } L where
  sorted := h.sorted
  linked := by
    apply h.linked.congr
    · intro p hp
      obtain ⟨x, hx, rfl⟩ := List.mem_map.mp (List.dropLast_subset _ hp)
      exact Mem.load32_congr fun a h₁ h₂ => hm x hx a ⟨h₁, by omega⟩
    · intro p hp
      obtain ⟨x, hx, rfl⟩ := List.mem_map.mp (List.mem_of_mem_tail hp)
      exact Mem.load32_congr fun a h₁ h₂ => hm x hx a ⟨by omega, by omega⟩
  root := h.root
  end_ := h.end_

namespace Rep

variable {s : State} {segs L l₁ l₂ new : List Seg} {x y : Seg}

/-- The free list holds the free segments. -/
theorem mem_list (h : Rep s segs L) : x ∈ L ↔ x ∈ segs ∧ x.isFree = true := by
  rw [h.perm.mem_iff, List.mem_filter]

/-- Bytes that no block relies on may change. -/
theorem of_mem (h : Rep s segs L) {m' : Mem}
    (hpro : ∀ a, s.memStartBrk + 4 ≤ a → a < s.memStartBrk + 12 → m' a = s.mem a)
    (hepi : ∀ a, s.memBrk - 4 ≤ a → a < s.memBrk → m' a = s.mem a)
    (hmeta : ∀ x ∈ segs, ∀ a, x.Meta a → m' a = s.mem a) : Rep { s with mem := m' } segs L where
  blocks := h.blocks.of_mem hpro hepi fun x hx hb a ha => hmeta x hx a (Or.inl ⟨hb, ha⟩)
  list := h.list.of_mem fun x hx a ha =>
    hmeta x (h.mem_list.mp hx).1 a (Or.inr ⟨(h.mem_list.mp hx).2, ha⟩)
  perm := h.perm

/-- A word of a raw segment may be written. -/
theorem store_raw (h : Rep s segs L) (hx : x ∈ segs) (hraw : x.kind = .raw) {p : ℕ}
    (hlo : x.ptr - 4 ≤ p) (hhi : p + 4 ≤ x.ptr + x.size - 4) (v : ℕ) :
    Rep (s.store p v) segs L := by
  have hb := h.blocks.bounds hx
  apply h.of_mem
  · intro a h₁ h₂
    exact Mem.store32_apply_of_not_mem (by omega)
  · intro a h₁ h₂
    exact Mem.store32_apply_of_not_mem (by omega)
  · intro y hy a ha
    have hext := ha.extent
    have hb' := h.blocks.bounds hy
    apply Mem.store32_apply_of_not_mem
    rcases h.blocks.disjoint hx hy with rfl | hd | hd
    · rcases ha with ⟨hbl, -⟩ | ⟨hf, -⟩
      · exact absurd hraw hbl
      · rw [Seg.isFree_iff, hraw] at hf
        cases hf
    · omega
    · omega

/-- A segment off the free list may be exchanged for well-tagged segments off the free list. -/
theorem replace (h : Rep s (l₁ ++ x :: l₂) L) (new : List Seg) (hx : x.isFree = false)
    (hnew : Tiles Seg.ptr Seg.size x.ptr new (x.ptr + x.size))
    (hfree : ∀ y ∈ new, y.isFree = false) (htags : ∀ y ∈ new, y.TagsOk s.mem) :
    Rep s (l₁ ++ new ++ l₂) L where
  blocks := h.blocks.replace hnew htags
  list := h.list
  perm := by
    have hnil : new.filter Seg.isFree = [] := by
      rw [List.filter_eq_nil_iff]
      intro y hy
      simp [hfree y hy]
    have hp := h.perm
    rw [List.filter_append, List.filter_cons_of_neg (by simp [hx])] at hp
    rw [List.filter_append, List.filter_append, hnil, List.append_nil]
    exact hp

end Rep

end SystemsLabs.Malloclab
