import SystemsLabs.Malloclab.HeapWalk
import SystemsLabs.Malloclab.FirstFit

/-!
# Rewriting a stretch of the heap

A package rewrites neighbouring blocks: it cuts one up, merges several, or changes what one is used
for. `Blocks.splice` is the one frame rule for all of this: consecutive segments may be exchanged
for others of the same extent once the tags of those are written, and only there. `tagMem` is the
memory after the tags of a block are written, and `putTags_eq` says that `PUT(HDRP(bp), ...);
PUT(FTRP(bp), ...)` leads to it.
-/

namespace SystemsLabs.Malloclab

open SystemsLabs.Lib

variable {s : State} {segs l₁ l₂ old new : List Seg} {x y z : Seg} {m m' : Mem} {p q k w a : ℕ}

/-! ## Writing tags -/

/-- The memory after the tags of a block of `k` bytes at `p` are written. -/
def tagMem (m : Mem) (p k w : ℕ) : Mem := (m.store32 (p - 4) w).store32 (p + k - 8) w

/-- The bytes in front of a block and behind it stay. -/
theorem tagMem_apply (ha : a < p - 4 ∨ p + k - 4 ≤ a) (hp : 4 ≤ p) (hk : 8 ≤ k) :
    tagMem m p k w a = m a := by
  unfold tagMem
  rw [Mem.store32_apply_of_not_mem (by omega), Mem.store32_apply_of_not_mem (by omega)]

/-- The tags read back. -/
theorem tagged_tagMem (hw : w < 2 ^ 32) (hp : 4 ≤ x.ptr) (hk : 16 ≤ x.size) :
    x.Tagged (tagMem m x.ptr x.size w) w := by
  unfold tagMem Seg.Tagged
  refine ⟨?_, Mem.load32_store32_self hw⟩
  rw [Mem.load32_store32_of_disjoint (by omega), Mem.load32_store32_self hw]

section tags

variable (hlo : s.memStartBrk + 4 ≤ p) (hhi : p + k ≤ s.memMaxAddr) (hmax : s.memMaxAddr < 2 ^ 32)
  (hk : 8 ≤ k) (hw : w < 2 ^ 32) (hsize : w / 8 * 8 = k)

include hlo hhi hmax hk hw hsize

/-- The two stores of the tags of a block whose words are inside the heap object. -/
theorem put_tags_eq : put s (hdrp p) w = some (s.store (p - 4) w) ∧
    ftrp (s.store (p - 4) w) p = some (p + k - 8) ∧
    put (s.store (p - 4) w) (p + k - 8) w = some { s with mem := tagMem s.mem p k w } := by
  have hhdr : hdrp p = p - 4 := hdrp_eq (by omega) (by omega)
  have hin : ∀ q, p - 4 ≤ q → q + 4 ≤ p + k - 4 → s.InHeap q := by
    intro q h₁ h₂
    unfold State.InHeap
    simp only [wsize]
    omega
  have hget : getSize (s.store (p - 4) w) (p - 4) = some k := by
    unfold getSize
    rw [get_eq (show (s.store (p - 4) w).InHeap (p - 4) from hin _ le_rfl (by omega)), store_mem,
      Mem.load32_store32_self hw, Option.map_some, and_mask hw, hsize]
  have hin' : (s.store (p - 4) w).InHeap (p + k - 8) := hin _ (by omega) (by omega)
  refine ⟨?_, ?_, ?_⟩
  · rw [hhdr, put_eq (hin _ le_rfl (by omega))]
  · unfold ftrp
    rw [hhdr, hget, Option.bind_eq_bind, Option.bind_some, add_eq (by omega)]
    rw [sub_eq (by simp only [dsize]; omega) (by omega)]
  · rw [put_eq hin']
    rfl

/-- Writing the tags of a block whose words are inside the heap object. -/
theorem putTags_eq : putTags s p w = some { s with mem := tagMem s.mem p k w } := by
  obtain ⟨h₁, h₂, h₃⟩ := put_tags_eq hlo hhi hmax hk hw hsize
  unfold putTags
  rw [h₁, Option.bind_eq_bind, Option.bind_some, h₂, Option.bind_eq_bind, Option.bind_some, h₃]

end tags

/-! ## The frame rule -/

/-- Consecutive pieces of a tiling may be exchanged for others of the same extent. -/
theorem Tiles.splice {lo hi lo' hi' : ℕ} (h : Tiles Seg.ptr Seg.size lo (l₁ ++ old ++ l₂) hi)
    (hne : old ≠ []) (hold : Tiles Seg.ptr Seg.size lo' old hi')
    (hnew : Tiles Seg.ptr Seg.size lo' new hi') :
    Tiles Seg.ptr Seg.size lo (l₁ ++ new ++ l₂) hi := by
  obtain ⟨mid, hleft, hright⟩ := Tiles.append_iff.mp h
  obtain ⟨start, h₁, h₂⟩ := Tiles.append_iff.mp hleft
  -- the old pieces fix where they lie
  have hext : ∀ {l : List Seg} {a b c d : ℕ}, l ≠ [] → Tiles Seg.ptr Seg.size a l b →
      Tiles Seg.ptr Seg.size c l d → a = c ∧ b = d := by
    intro l
    induction l with
    | nil => exact fun hne => absurd rfl hne
    | cons z l ih =>
      rintro a b c d - ⟨rfl, htail⟩ ⟨rfl, htail'⟩
      refine ⟨rfl, ?_⟩
      cases l with
      | nil => exact htail.symm.trans htail'
      | cons u l => exact (ih (by simp) htail htail').2
  obtain ⟨rfl, rfl⟩ := hext hne h₂ hold
  exact Tiles.append_iff.mpr ⟨_, Tiles.append_iff.mpr ⟨_, h₁, hnew⟩, hright⟩

/-- **The frame rule.** Consecutive segments may be exchanged for others of the same extent, once
their tags are written and no byte outside that extent is. -/
theorem Blocks.splice (h : Blocks s (l₁ ++ old ++ l₂)) (hne : old ≠ []) {lo hi : ℕ}
    (hold : Tiles Seg.ptr Seg.size lo old hi) (hnew : Tiles Seg.ptr Seg.size lo new hi)
    (hm : ∀ a, a < lo - 4 ∨ hi - 4 ≤ a → m' a = s.mem a) (htags : ∀ y ∈ new, y.TagsOk m') :
    Blocks { s with mem := m' } (l₁ ++ new ++ l₂) := by
  have htiles := Tiles.splice h.tiles hne hold hnew
  obtain ⟨mid, hleft, hright⟩ := Tiles.append_iff.mp h.tiles
  obtain ⟨start, h₁, h₂⟩ := Tiles.append_iff.mp hleft
  obtain ⟨z, l, rfl⟩ := List.exists_cons_of_ne_nil hne
  obtain ⟨rfl, hl⟩ := hold
  obtain ⟨rfl, hl'⟩ := h₂
  have hlo : s.memStartBrk + 16 ≤ z.ptr := h₁.le
  have hend : hi = mid := by
    cases l with
    | nil => exact hl.symm.trans hl'
    | cons u l =>
      obtain ⟨v, rest, hlast⟩ := (u :: l).eq_nil_or_concat.resolve_left (by simp)
      rw [hlast, List.concat_eq_append] at hl hl'
      exact hl.split.2.symm.trans hl'.split.2
  have hhi : hi ≤ s.memBrk := hend ▸ hright.le
  have hz := z.size_ge
  have hmid : z.ptr + z.size ≤ hi := hl.le
  have hword : ∀ b, b + 4 ≤ z.ptr - 4 ∨ hi - 4 ≤ b → m'.load32 b = s.mem.load32 b :=
    fun b hb => Mem.load32_congr fun a h₁ h₂ => hm a (by omega)
  have hpro₁ := (hword (s.memStartBrk + 4) (by omega)).trans h.prologue.1
  have hpro₂ := (hword (s.memStartBrk + 8) (by omega)).trans h.prologue.2
  have hepi := (hword (s.memBrk - 4) (by omega)).trans h.epilogue
  refine ⟨h.start_mod, h.max_eq, h.max_lt, h.brk_le, h.listp, ⟨hpro₁, hpro₂⟩, hepi, htiles, ?_⟩
  · intro y hy hyb
    rcases List.mem_append.mp hy with hy | hy
    · rcases List.mem_append.mp hy with hy | hy
      · -- a segment before the stretch
        have hb := h₁.bounds hy
        have hys := y.size_ge
        apply (h.tagged (by simp [hy]) hyb).congr (by omega)
        intro a ha
        have := Seg.Meta.extent (Or.inl ⟨hyb, ha⟩)
        exact hm a (by omega)
      · exact htags y hy hyb
    · -- a segment after it
      have hb := hright.bounds hy
      have hys := y.size_ge
      apply (h.tagged (by simp [hy]) hyb).congr (by omega)
      intro a ha
      have := Seg.Meta.extent (Or.inl ⟨hyb, ha⟩)
      exact hm a (by omega)

/-! ## What the tags around a block say -/

/-- The word of a block, without its allocated bit. -/
theorem Seg.word_size (x : Seg) : x.word / 8 * 8 = x.size := by
  have := x.size_mod
  unfold Seg.word
  split <;> omega

/-- `GET_ALLOC` of the tags of a block. -/
theorem Seg.word_alloc (hx : x.IsBlock) : x.word &&& 1 = if x.isFree then 0 else 1 := by
  have hmod := x.size_mod
  unfold Seg.word Seg.isFree
  unfold Seg.IsBlock at hx
  rw [Nat.and_one_is_mod]
  cases hk : x.kind with
  | live n => simp only [Bool.false_eq_true, if_false]; omega
  | free => simp only [if_true]; omega
  | raw => exact absurd hk hx

/-- The allocated bit of a block. -/
theorem Blocks.getAlloc_header (h : Blocks s segs) (hx : x ∈ segs) (hb : x.IsBlock) :
    getAlloc s (hdrp x.ptr) = some (if x.isFree then 0 else 1) := by
  have hbd := h.bounds hx
  have hs := x.size_ge
  unfold getAlloc
  rw [hdrp_eq (by omega) (by omega), get_eq (h.inHeap hx (by omega) (by omega)),
    (h.tagged hx hb).1, Option.map_some, Seg.word_alloc hb]

/-- The footer is a copy of the header. -/
theorem Blocks.footer (h : Blocks s segs) (hx : x ∈ segs) (hb : x.IsBlock) :
    get s (x.ptr + x.size - 8) = some x.word := by
  have hs := x.size_ge
  rw [get_eq (h.inHeap hx (by omega) (by omega)), (h.tagged hx hb).2]

/-- Where the footer is. -/
theorem Blocks.ftrp_eq (h : Blocks s segs) (hx : x ∈ segs) (hb : x.IsBlock) :
    ftrp s x.ptr = some (x.ptr + x.size - 8) := by
  have hbd := h.bounds hx
  have hs := x.size_ge
  unfold ftrp
  rw [h.getSize_eq hx hb, Option.bind_eq_bind, Option.bind_some, add_eq (by omega),
    sub_eq (by simp only [dsize]; omega) (by omega)]

/-- Where the next block is. -/
theorem Blocks.nextBlkp_eq (h : Blocks s segs) (hx : x ∈ segs) (hb : x.IsBlock) :
    nextBlkp s x.ptr = some (x.ptr + x.size) :=
  h.nextBlkp_of_tagged hx (h.tagged hx hb) x.word_size

/-- The block before a block, through its footer. -/
theorem Blocks.prevBlkp_eq (h : Blocks s segs) (hx : x ∈ segs) (hb : x.IsBlock)
    (hp : x.ptr + x.size = p) : prevBlkp s p = some x.ptr := by
  have hbd := h.bounds hx
  have hs := x.size_ge
  have hft := h.footer hx hb
  have hlt : x.word < 2 ^ 32 := by
    rw [← (h.tagged hx hb).1]
    exact Mem.load32_lt _ _
  unfold prevBlkp getSize
  rw [sub_eq (by simp only [dsize]; omega) (by omega), show p - dsize = x.ptr + x.size - 8 by
    rw [hp], hft, Option.map_some, and_mask hlt, x.word_size, Option.bind_eq_bind, Option.bind_some,
    sub_eq (by omega) (by omega)]
  congr 1
  omega

end SystemsLabs.Malloclab
