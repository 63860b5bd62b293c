import SystemsLabs.Malloclab.Invariants

/-!
# What `mm_realloc` does to the contract of `realloc`

`ReallocContract` is what a client may expect of `mm_realloc(p, n)`. The code compares the rounded
*payload* size `ALIGN(n)` with the *block* size of `p` and makes the new block eight bytes smaller
than `n` needs: the block returned is tagged with at most `ALIGN(n)` bytes, tags included, or it is
a block for the difference of the two sizes only. The payload always runs over a boundary tag.

* `not_reallocContract` — no call that returns a block meets the contract.

**Assumptions.** The states are those that clients reach by `mm_malloc`, `mm_free` and writes; a
call of `mm_realloc` is made in such a state.
-/

namespace SystemsLabs.Malloclab

open SystemsLabs.Lib

variable {c c₀ : Config} {ops : List Op} {s s' t : State} {segs L l₁ l₂ : List Seg} {x y : Seg}
  {n n₀ p q v : ℕ}

/-! ## The contract -/

/-- The `n` bytes at `p` and the `k` bytes at `q` do not overlap. -/
def NoOverlap (p n q k : ℕ) : Prop := p + n ≤ q ∨ q + k ≤ p

/-- The blocks that are free after `mm_realloc(p, n)` has returned `q`: in place, the part split off
joins them; otherwise they are those of the `mm_malloc` for the difference of the sizes, and `p`. -/
def Config.freedAfter (c : Config) (p n q : ℕ) (s' : State) : List ℕ :=
  if q = p then
    if blockSize s' p + minBlockSize ≤ blockSize c.st p then (p + blockSize s' p) :: c.freed
    else c.freed
  else
    match c.exec (.malloc (sub (align n) (blockSize c.st p))) with
    | some c' => p :: c'.freed
    | none => p :: c.freed

/-- The contract of `mm_realloc(p, n)`, where `p` was obtained for `n₀` bytes: the result `q` in the
state `s'` is a payload of `n` bytes inside the heap, apart from every other live payload, every
boundary tag, every link of the free list and the epilogue; it starts with the old contents, and the
other live payloads are as they were. -/
structure ReallocContract (c : Config) (p n₀ n q : ℕ) (s' : State) : Prop where
  inside : s'.memStartBrk ≤ q ∧ q + n ≤ s'.memBrk
  payloads : ∀ b ∈ c.live, b.1 ≠ p → NoOverlap q n b.1 b.2
  tags : ∀ b, b = q ∨ (b ≠ p ∧ ∃ m, (b, m) ∈ c.live) ∨ b ∈ c.freedAfter p n q s' →
    NoOverlap q n (hdrp b) wsize ∧ ∀ f, ftrp s' b = some f → NoOverlap q n f wsize
  links : ∀ b ∈ c.freedAfter p n q s',
    NoOverlap q n (nextPtr b) wsize ∧ NoOverlap q n (prevPtr b) wsize
  epilogue : NoOverlap q n (hdrp s'.memBrk) wsize
  contents : ∀ i, i < min n₀ n → s'.mem (q + i) = c.st.mem (p + i)
  others : ∀ b ∈ c.live, b.1 ≠ p → ∀ a, b.1 ≤ a → a < b.1 + b.2 → s'.mem a = c.st.mem a

/-- A block tagged with less than `n + 8` bytes has its footer inside its payload of `n` bytes. -/
theorem ReallocContract.size_ge (h : ReallocContract c p n₀ n q s') {k : ℕ}
    (hsize : getSize s' (hdrp q) = some k) (hk : 8 ≤ k) (hq : q + k < 2 ^ 32) : n + 8 ≤ k := by
  have hftr : ftrp s' q = some (q + k - 8) := by
    unfold ftrp
    rw [hsize, Option.bind_eq_bind, Option.bind_some, add_eq hq]
    rw [sub_eq (by simp only [dsize]; omega) hq]
  have hd := (h.tags q (Or.inl rfl)).2 _ hftr
  unfold NoOverlap at hd
  simp only [wsize] at hd
  omega

/-! ## The paths of `mm_realloc` -/

/-- The rounded size of a request. -/
theorem align_spec (hn : 1 ≤ n) (hlt : n + 15 < 2 ^ 32) :
    align n % 8 = 0 ∧ 8 ≤ align n ∧ n ≤ align n ∧ align n ≤ n + 7 := by
  rw [align_eq (by omega)]
  omega

/-- A request for a multiple of eight bytes gets a block that is eight bytes larger. -/
theorem adjust_of_mod (hmod : n % 8 = 0) (h8 : 8 ≤ n) (hlt : n + 15 < 2 ^ 32) :
    adjust n = n + 8 := by
  have h₁ : add n overhead = n + 8 := add_eq (by simp only [overhead]; omega)
  have h₂ : add (n + 8) (dsize - 1) = n + 8 + 7 := add_eq (by simp only [dsize]; omega)
  unfold adjust
  rw [h₁, h₂]
  simp only [dsize, overhead]
  split_ifs <;> omega

/-- What `memcpy` returns. -/
theorem memcpy_eq_some {src k : ℕ} (hk : k ≠ 0) (h : memcpy s p src k = some s') :
    s' = { s with mem := s.mem.copy p src k } := by
  unfold memcpy at h
  rw [if_neg hk] at h
  split_ifs at h
  exact (Option.some_inj.mp h).symm

/-- `mm_realloc` of a block that is there: what is left is a comparison of the two sizes. -/
theorem mmRealloc_of_size {p k : ℕ} (hp : p ≠ NULL) (hn : n ≠ 0)
    (hsize : getSize s (hdrp p) = some k) :
    (align n = k → mmRealloc s p n = some (s, p)) ∧
    (align n < k → mmRealloc s p n = (do
      let s ← putTags s p (pack (align n) 1)
      if sub k (align n) ≥ minBlockSize then
        let q ← nextBlkp s p
        let s ← putTags s q (pack (sub k (align n)) 0)
        let (s, q) ← coalesce s q
        let s ← addFreeBlock s q
        return (s, p)
      return (s, p))) ∧
    (k < align n → coalesce s p = some (s, p) → mmRealloc s p n = (do
      let (s, q) ← mmMalloc s (sub (align n) k)
      let s ← memcpy s q p (sub k dsize)
      let s ← mmFree s p
      return (s, q))) := by
  unfold mmRealloc
  rw [if_neg fun h => hp h.1, if_neg (Nat.not_le.mpr (Nat.pos_of_ne_zero hn)), hsize]
  rw [Option.bind_eq_bind, Option.bind_some]
  refine ⟨fun heq => ?_, fun hlt => ?_, fun hgt hco => ?_⟩
  · rw [if_pos heq]
    rfl
  · rw [if_neg (Nat.ne_of_lt hlt), if_pos hlt]
  · rw [if_neg (Nat.ne_of_gt hgt), if_neg (Nat.lt_asymm hgt), hco, Option.bind_eq_bind,
      Option.bind_some]
    dsimp only
    rw [hsize, Option.bind_some, Option.bind_some, if_neg fun h => Nat.lt_irrefl k h.1]

section paths

variable (h : Rep s (l₁ ++ x :: l₂) L) (hx : x.kind = .live n₀) (hn : 1 ≤ n) (hlt : n + 15 < 2 ^ 32)

include h hx hn

/-- The rounded size is that of the block: nothing is done. -/
theorem mmRealloc_same (heq : align n = x.size) : mmRealloc s x.ptr n = some (s, x.ptr) := by
  have hmem : x ∈ l₁ ++ x :: l₂ := by simp
  have hnull := h.blocks.ptr_ne_null hmem
  have hsize := h.blocks.getSize_eq hmem (by simp [Seg.IsBlock, hx])
  exact (mmRealloc_of_size hnull (Nat.ne_of_gt hn) hsize).1 heq

include hlt

/-- The rounded size is smaller: the block is tagged with it, and a remainder that is large enough
goes on the list. -/
theorem mmRealloc_shrink (hle : align n < x.size) :
    ∃ s', mmRealloc s x.ptr n = some (s', x.ptr) ∧ getSize s' (hdrp x.ptr) = some (align n) := by
  obtain ⟨hmod, h8, -, -⟩ := align_spec hn hlt
  have hmem : x ∈ l₁ ++ x :: l₂ := by simp
  have hb := h.blocks.bounds hmem
  have hxmod := x.size_mod
  have hpmod := x.ptr_mod
  have hnull := h.blocks.ptr_ne_null hmem
  have hsize := h.blocks.getSize_eq hmem (by simp [Seg.IsBlock, hx])
  have hsub : sub x.size (align n) = x.size - align n := sub_eq hle.le (by omega)
  have hrealloc := (mmRealloc_of_size hnull (Nat.ne_of_gt hn) hsize).2.1 hle
  -- the block is cut in two, and its first part is tagged
  let a : Seg := ⟨x.ptr, align n, .raw, hpmod, hmod, h8⟩
  let b : Seg := ⟨x.ptr + align n, x.size - align n, .raw, by omega, by omega,
    by change 8 ≤ x.size - align n; omega⟩
  have hcut : Rep s (l₁ ++ a :: b :: l₂) L := by
    have := h.replace [a, b] (by simp [Seg.isFree, hx])
      ⟨rfl, rfl, by change x.ptr + align n + (x.size - align n) = x.ptr + x.size; omega⟩
      (by simp [a, b, Seg.isFree]) (by simp [a, b, Seg.TagsOk, Seg.IsBlock])
    simpa using this
  have hamem : a ∈ l₁ ++ a :: b :: l₂ := by simp
  obtain ⟨s₁, hput, h₁, htag₁, hsame₁, -⟩ := putTags_spec hcut hamem rfl (w := align n + 1)
    (by change (align n + 1) / 8 * 8 = align n; omega) (by omega)
  have hput' : putTags s x.ptr (pack (align n) 1) = some s₁ := by
    rw [pack_one hmod (by omega)]
    exact hput
  by_cases hsplit : 16 ≤ x.size - align n
  · let r : Seg := b.asFree hsplit
    have h₁' : Rep s₁ (l₁ ++ a :: r.asRaw :: l₂) L := h₁
    obtain ⟨s₂, s₃, L₁, L₂, hnext, hput₂, hco, hadd, rfl, h₃, -, hframe₃⟩ :=
      splitFree_spec h₁' (r := r) rfl htag₁
    have hnext' : nextBlkp s₁ x.ptr = some r.ptr := hnext
    have hput₂' : putTags s₁ r.ptr (pack (x.size - align n) 0) = some s₂ := hput₂
    refine ⟨s₃, ?_, ?_⟩
    · rw [hrealloc, hput', hsub]
      simp only [Option.bind_eq_bind, Option.bind_some]
      rw [if_pos hsplit, hnext']
      simp only [Option.bind_some, hput₂', hco, hadd]
      rfl
    · have hamem₃ : a ∈ l₁ ++ a :: r :: l₂ := by simp
      have hrmem₃ : r ∈ l₁ ++ a :: r :: l₂ := by simp
      have htag₃ : a.Tagged s₃.mem (align n + 1) := by
        refine htag₁.congr (by change 4 ≤ x.ptr; omega) fun i hi => hframe₃ i ?_ ?_
        · refine h₃.blocks.not_extent hamem₃ hrmem₃ ?_ hi.extent
          intro har
          have := congrArg Seg.ptr har
          change x.ptr = x.ptr + align n at this
          omega
        · intro z hz hl
          have hzmem := h₁'.mem_segs hz
          refine h₁'.blocks.not_extent (by simp) hzmem ?_ hi.extent
            (hl.extent (h₁'.isBlock hz).size_ge)
          rintro rfl
          exact absurd rfl (h₁'.isBlock hz)
      exact h₃.blocks.getSize_of_tagged hamem₃ htag₃
        (by change (align n + 1) / 8 * 8 = align n; omega)
  · refine ⟨s₁, ?_, ?_⟩
    · rw [hrealloc, hput', hsub]
      simp only [Option.bind_eq_bind, Option.bind_some]
      rw [if_neg hsplit]
      rfl
    · exact h₁.blocks.getSize_of_tagged hamem htag₁
        (by change (align n + 1) / 8 * 8 = align n; omega)

/-- The rounded size is larger: a block for the difference is allocated, the old payload is copied
there, and the old block is released. -/
theorem mmRealloc_grow (hgt : x.size < align n) : mmRealloc s x.ptr n = (do
    let (s, newBptr) ← mmMalloc s (align n - x.size)
    let s ← memcpy s newBptr x.ptr (x.size - 8)
    let s ← mmFree s x.ptr
    return (s, newBptr)) := by
  obtain ⟨hmod, h8, -, hle⟩ := align_spec hn hlt
  have hmem : x ∈ l₁ ++ x :: l₂ := by simp
  have hb := h.blocks.bounds hmem
  have h16 : 16 ≤ x.size := Seg.IsBlock.size_ge (by simp [Seg.IsBlock, hx])
  have hnull := h.blocks.ptr_ne_null hmem
  have hsize := h.blocks.getSize_eq hmem (by simp [Seg.IsBlock, hx])
  have hco := coalesce_eq h.blocks hmem
  have hsub : sub (align n) x.size = align n - x.size := sub_eq hgt.le (by omega)
  have hsub' : sub x.size dsize = x.size - 8 := sub_eq (by simp only [dsize]; omega) (by omega)
  rw [(mmRealloc_of_size hnull (Nat.ne_of_gt hn) hsize).2.2 hgt hco, hsub, hsub']

end paths

/-! ## The break -/

/-- If the program returns a state, its heap has the bounds of the heap of `s`. -/
def KeepsBounds (s : State) (o : Option State) : Prop := ∀ t, o = some t → s.SameBounds t

namespace KeepsBounds

variable {α : Type*} {o : Option State} {f : State → Option State}

/-- A state with the same bounds. -/
theorem some (h : s.SameBounds t) : KeepsBounds s (Option.some t) := by
  rintro _ ⟨⟩
  exact h

/-- Writing a word. -/
theorem put (h : s.SameBounds t) : KeepsBounds s (put t p v) := by
  intro u hu
  obtain ⟨-, rfl⟩ := put_eq_some_iff.mp hu
  exact h

/-- A step that returns a state. -/
theorem bind (ho : KeepsBounds s o) (hf : ∀ t, s.SameBounds t → KeepsBounds s (f t)) :
    KeepsBounds s (o.bind f) := by
  intro u hu
  obtain ⟨t, ht, hu⟩ := Option.bind_eq_some_iff.mp hu
  exact hf t (ho t ht) u hu

/-- A step that only reads. -/
theorem read {a : Option α} {f : α → Option State} (hf : ∀ v, KeepsBounds s (f v)) :
    KeepsBounds s (a.bind f) := by
  intro u hu
  obtain ⟨v, -, hu⟩ := Option.bind_eq_some_iff.mp hu
  exact hf v u hu

/-- Both branches. -/
theorem ite {P : Prop} [Decidable P] {a b : Option State} (ha : KeepsBounds s a)
    (hb : KeepsBounds s b) : KeepsBounds s (if P then a else b) := by
  split_ifs
  · exact ha
  · exact hb

/-- Writing both tags. -/
theorem putTags (h : s.SameBounds t) : KeepsBounds s (putTags t p v) :=
  bind (put h) fun _ hu => read fun _ => put hu

/-- `add_free_block` does not move the break, whatever the memory holds. -/
theorem addFreeBlock (h : s.SameBounds t) : KeepsBounds s (addFreeBlock t p) := by
  refine ite (some h) (ite (some h) (read fun _ => read fun _ => ite ?_ (read fun _ => read fun _ =>
    ite ?_ ?_)))
  · exact bind (put h) fun _ h₁ => bind (put h₁) fun _ h₂ => some h₂
  · exact bind (put h) fun _ h₁ => bind (put h₁) fun _ h₂ => some h₂
  · exact read fun _ => read fun _ => bind (put h) fun _ h₁ => read fun _ => bind (put h₁)
      fun _ h₂ => read fun _ => bind (put h₂) fun _ h₃ => put h₃

end KeepsBounds

/-- `coalesce` never writes. -/
theorem coalesce_state (hlo : s.memStartBrk < s.memBrk) (hlt : s.memBrk < 2 ^ 32)
    (hco : coalesce s p = some (t, q)) : t = s := by
  have hboundary : ¬ (p ≥ memHeapHi s ∧ p < memHeapLo s) := by
    unfold memHeapHi memHeapLo
    rw [sub_eq (by omega) hlt]
    omega
  unfold coalesce at hco
  obtain ⟨a, -, hco⟩ := Option.bind_eq_some_iff.mp hco
  obtain ⟨b, -, hco⟩ := Option.bind_eq_some_iff.mp hco
  obtain ⟨d, -, hco⟩ := Option.bind_eq_some_iff.mp hco
  simp only [hboundary, decide_false, mergeIfFree, if_true, Option.pure_def, Option.bind_eq_bind,
    Option.bind_some, Option.some_inj, Prod.mk.injEq] at hco
  exact hco.1.symm

/-- `mm_free` does not move the break, whatever the memory holds. -/
theorem mmFree_sameBounds (hlo : s.memStartBrk < s.memBrk) (hlt : s.memBrk < 2 ^ 32)
    (hfree : mmFree s p = some s') : s.SameBounds s' := by
  unfold mmFree at hfree
  obtain ⟨size, -, hfree⟩ := Option.bind_eq_some_iff.mp hfree
  obtain ⟨s₁, htags, hfree⟩ := Option.bind_eq_some_iff.mp hfree
  obtain ⟨⟨s₂, q⟩, hco, hadd⟩ := Option.bind_eq_some_iff.mp hfree
  have h₁ := KeepsBounds.putTags ⟨rfl, rfl⟩ _ htags
  have h₂ := coalesce_state (by rw [h₁.1, h₁.2]; exact hlo) (by rw [h₁.2]; exact hlt) hco
  subst h₂
  exact KeepsBounds.addFreeBlock h₁ _ hadd

/-! ## The path that moves the block -/

/-- A list of segments starts with raw ones, up to its end or up to a block. -/
theorem exists_raw_prefix (l : List Seg) : ∃ raws rest, l = raws ++ rest ∧
    (∀ z ∈ raws, z.kind = .raw) ∧ (rest = [] ∨ ∃ y ys, rest = y :: ys ∧ y.IsBlock) := by
  induction l with
  | nil => exact ⟨[], [], rfl, by simp, Or.inl rfl⟩
  | cons z l ih =>
      by_cases hz : z.kind = .raw
      · obtain ⟨raws, rest, rfl, hraws, hrest⟩ := ih
        refine ⟨z :: raws, rest, rfl, ?_, hrest⟩
        rw [List.forall_mem_cons]
        exact ⟨hz, hraws⟩
      · exact ⟨[], z :: l, rfl, by simp, Or.inr ⟨z, l, rfl, hz⟩⟩

/-- A copy into a live block and the raw segments behind it keeps the layout, but for the tags of
the block. -/
theorem Rep.copy {raws rest : List Seg} {src k e : ℕ}
    (h : Rep s (l₁ ++ x :: (raws ++ rest)) L) (hx : x.kind = .live n)
    (hraws : ∀ z ∈ raws, z.kind = .raw)
    (htiles : Tiles Seg.ptr Seg.size e rest s.memBrk) (he : x.ptr + k ≤ e - 4) :
    Rep { s with mem := s.mem.copy x.ptr src k } (l₁ ++ x.asRaw :: (raws ++ rest)) L := by
  have hxmem : x ∈ l₁ ++ x :: (raws ++ rest) := by simp
  have hxb := h.blocks.bounds hxmem
  have hle := htiles.le
  have hsplit := h.blocks.tiles.split
  apply (h.asRaw (by simp [Seg.isFree, hx])).of_mem
  · intro a h₁ h₂
    exact Mem.copy_apply_of_not_mem (by omega)
  · intro a h₁ h₂
    exact Mem.copy_apply_of_not_mem (by omega)
  · intro z hz a ha
    have hext := ha.extent
    have hzblock : z.IsBlock := by
      rcases ha with ⟨hb, -⟩ | ⟨hf, -⟩
      · exact hb
      · exact Seg.IsBlock.of_isFree hf
    apply Mem.copy_apply_of_not_mem
    rcases List.mem_append.mp hz with hz | hz
    · left
      have hzb := hsplit.1.bounds hz
      omega
    · rcases List.mem_cons.mp hz with rfl | hz
      · exact absurd rfl hzblock
      · rcases List.mem_append.mp hz with hz | hz
        · exact absurd (hraws z hz) hzblock
        · right
          have hzb := htiles.bounds hz
          omega

/-- A copy that stays away from other blocks leaves the header of the new block as it is, and so
does the release of the old block: the new block is tagged with the size of the difference. -/
theorem getSize_of_copy {raws rest : List Seg} {src k e w : ℕ}
    (h : Rep s (l₁ ++ x :: (raws ++ rest)) L) (hx : x.kind = .live n)
    (hraws : ∀ z ∈ raws, z.kind = .raw)
    (htiles : Tiles Seg.ptr Seg.size e rest s.memBrk) (he : x.ptr + k ≤ e - 4)
    (hy : y ∈ l₁ ++ x :: (raws ++ rest)) (hlive : y.kind = .live w) (hne : y ≠ x)
    (hfree : mmFree { s with mem := s.mem.copy x.ptr src k } y.ptr = some s') :
    getSize s' (hdrp x.ptr) = some x.size := by
  have hcopy : Rep { s with mem := s.mem.copy x.ptr src k } (l₁ ++ x.asRaw :: (raws ++ rest)) L :=
    h.copy hx hraws htiles he
  have hxmem : x ∈ l₁ ++ x :: (raws ++ rest) := by simp
  have hxraw : x.asRaw ∈ l₁ ++ x.asRaw :: (raws ++ rest) := by simp
  have hymem : y ∈ l₁ ++ x.asRaw :: (raws ++ rest) := by
    simp only [List.mem_append, List.mem_cons] at hy ⊢
    grind
  have hxb := h.blocks.bounds hxmem
  have hxs := x.size_ge
  have hxmod := x.size_mod
  obtain ⟨t, segs', L', hret, hrep, -, hsame, hframe⟩ := mmFree_spec hcopy hymem hlive
  obtain rfl := Option.some_inj.mp (hfree.symm.trans hret)
  have hhdr : s'.mem.load32 (x.ptr - 4) = x.size + 1 := by
    have hold := (h.blocks.tagged hxmem (by simp [Seg.IsBlock, hx])).1
    rw [Seg.word_live hx] at hold
    rw [← hold]
    apply Mem.load32_congr
    intro a hlo hhi
    rw [hframe a ?_]
    · exact Mem.copy_apply_of_not_mem (by omega)
    · intro z hz hcase
      refine hcopy.blocks.not_extent hxraw hz ?_ ⟨hlo, by change a < x.ptr + x.size - 4; omega⟩
      rintro rfl
      rcases hcase with hf | hf
      · exact absurd hf (by simp [Seg.isFree, Seg.asRaw])
      · rw [← hf] at hlive
        exact absurd hlive (by simp [Seg.asRaw])
  have hin : s'.InHeap (x.ptr - 4) := by
    have hlo : s'.memStartBrk = s.memStartBrk := hsame.1
    have hmax := hrep.blocks.max_eq
    have hmax' := h.blocks.max_eq
    unfold State.InHeap
    simp only [wsize]
    omega
  unfold getSize
  rw [hdrp_eq (by omega) (by omega), get_eq hin, hhdr, Option.map_some, and_mask (by omega)]
  congr 1
  omega

/-- What the blocks behind `x` hold against a payload that reaches them: the first block, or the
epilogue. -/
theorem ReallocContract.next_le {c' : Config} {raws rest : List Seg} {e : ℕ}
    (hcon : ReallocContract c p n₀ n q s')
    (hfreed : c.freedAfter p n q s' = p :: c'.freed)
    (hlive : ∀ b m, (b, m) ∈ c'.live → b ≠ q → (b, m) ∈ c.live)
    (habs' : Abs c' (l₁ ++ x :: (raws ++ rest)) L) (hx : x.ptr = q)
    (hbrk : s'.memBrk = c'.st.memBrk)
    (hrest : rest = [] ∨ ∃ y ys, rest = y :: ys ∧ y.IsBlock)
    (htiles : Tiles Seg.ptr Seg.size e rest c'.st.memBrk) (he : x.ptr + x.size ≤ e) :
    q + n ≤ e - 4 := by
  have hxmem : x ∈ l₁ ++ x :: (raws ++ rest) := by simp
  have hxb := habs'.rep.blocks.bounds hxmem
  have hxs := x.size_ge
  -- the word before `e` is a header or the epilogue
  have hword : NoOverlap q n (hdrp e) wsize := by
    rcases hrest with rfl | ⟨y, ys, rfl, hy⟩
    · obtain rfl : e = c'.st.memBrk := htiles
      rw [← hbrk]
      exact hcon.epilogue
    · have hye : y.ptr = e := htiles.1
      have hymem : y ∈ l₁ ++ x :: (raws ++ y :: ys) := by simp
      rw [← hye]
      refine (hcon.tags y.ptr ?_).1
      rw [hfreed]
      cases hk : y.kind with
      | raw => exact absurd hk hy
      | free =>
          have : y.ptr ∈ c'.freed := (habs'.freed _).mpr ⟨y, hymem, hk, rfl⟩
          exact Or.inr (Or.inr (List.mem_cons_of_mem _ this))
      | live m =>
          have hmem : (y.ptr, m) ∈ c'.live := (habs'.live _ _).mpr ⟨y, hymem, hk, rfl⟩
          by_cases hyp : y.ptr = p
          · exact Or.inr (Or.inr (by simp [hyp]))
          · exact Or.inr (Or.inl ⟨hyp, m, hlive _ _ hmem (by omega)⟩)
  have hele : e ≤ c'.st.memBrk := htiles.le
  have hhdr : hdrp e = e - 4 := hdrp_eq (by omega) (by omega)
  rw [hhdr] at hword
  unfold NoOverlap at hword
  simp only [wsize] at hword
  omega

/-- The path that moves the block does not meet the contract. -/
theorem Abs.not_reallocContract_grow (h : Abs c segs L) (hp : (p, n₀) ∈ c.live) (hn : 1 ≤ n)
    (hlt : n + 15 < 2 ^ 32) (hx : x ∈ segs) (hkind : x.kind = .live n₀) (hptr : x.ptr = p)
    (hgt : x.size < align n) (hwrap : NoWrap c.st (adjust (align n - x.size)))
    (hret : mmRealloc c.st p n = some (s', q)) (hq : q ≠ NULL) :
    ¬ ReallocContract c p n₀ n q s' := by
  intro hcon
  obtain ⟨hamod, ha8, hna, han⟩ := align_spec hn hlt
  have hxmod := x.size_mod
  have hxb : x.IsBlock := by simp [Seg.IsBlock, hkind]
  have hx16 := hxb.size_ge
  set d := align n - x.size with hd
  -- the three calls
  obtain ⟨l₁, l₂, hsegs⟩ := List.append_of_mem hx
  have hrep := h.rep
  rw [hsegs] at hrep
  rw [← hptr, mmRealloc_grow hrep hkind hn hlt hgt] at hret
  obtain ⟨⟨s₁, q'⟩, hmalloc, hret⟩ := Option.bind_eq_some_iff.mp hret
  obtain ⟨s₂, hcopy, hret⟩ := Option.bind_eq_some_iff.mp hret
  obtain ⟨s₃, hfree, hret⟩ := Option.bind_eq_some_iff.mp hret
  obtain ⟨rfl, rfl⟩ := Prod.mk.inj (Option.some_inj.mp hret)
  obtain ⟨c', p', segs₁, L', hexec, hmalloc', habs', hstep, hlo, -, -⟩ :=
    h.malloc (n := d) (by omega) hwrap
  obtain ⟨rfl, rfl⟩ := Prod.mk.inj (Option.some_inj.mp (hmalloc.symm.trans hmalloc'))
  obtain rfl := memcpy_eq_some (by omega) hcopy
  -- the new block, the old block, and what lies behind the new one
  obtain ⟨x₁, hx₁, hhand⟩ := hstep.handed hq
  have hx₁size : x₁.size = d + 8 := by
    rw [hhand.size, adjust_of_mod (by omega) (by omega) (by omega)]
  have hholds : Holds segs (.live n₀) p := (h.live p n₀).mp hp
  have hqp : q' ≠ p := by
    rintro rfl
    exact hstep.not_live h.rep hq hholds
  obtain ⟨y, hy, hykind, hyptr⟩ : Holds segs₁ (.live n₀) p :=
    (hstep.live_iff h.rep hq).mpr (Or.inr hholds)
  have hlive : ∀ b m, (b, m) ∈ c'.live → b ≠ q' → (b, m) ∈ c.live := by
    intro b m hb hne
    rw [habs'.live, hstep.live_iff h.rep hq] at hb
    exact (h.live b m).mpr (hb.resolve_left fun hcase => hne hcase.1)
  have hfreed : c.freedAfter p n q' s₃ = p :: c'.freed := by
    have hbs : blockSize c.st p = x.size := by
      rw [← hptr, h.rep.blocks.blockSize_eq hx hxb]
    have hsub : sub (align n) x.size = d := sub_eq hgt.le (by omega)
    simp only [Config.freedAfter, if_neg hqp, hbs, hsub, hexec]
  obtain ⟨l₁', l₂', rfl⟩ := List.append_of_mem hx₁
  obtain ⟨raws, rest, rfl, hraws, hrest⟩ := exists_raw_prefix l₂'
  have hblocks := habs'.rep.blocks
  obtain ⟨e, hrawtiles, htiles⟩ := Tiles.append_iff.mp hblocks.tiles.split.2
  have he : x₁.ptr + x₁.size ≤ e := hrawtiles.le
  have hstart : c'.st.memStartBrk + 16 ≤ c'.st.memBrk := hblocks.tiles.le
  have hbrkle := hblocks.brk_le
  have hmaxlt := hblocks.max_lt
  have hbrk : s₃.memBrk = c'.st.memBrk :=
    (mmFree_sameBounds (by change c'.st.memStartBrk < c'.st.memBrk; omega)
      (by change c'.st.memBrk < 2 ^ 32; omega) hfree).2
  have hnext := hcon.next_le hfreed hlive habs' hhand.ptr hbrk hrest htiles he
  -- so the copy stays away from other blocks, and the tags of the new block are too small
  have hxb₁ := hblocks.bounds hx₁
  have hq₁ := hhand.ptr
  rw [← hq₁, hptr, ← hyptr] at hfree
  have hsize := getSize_of_copy habs'.rep hhand.kind hraws htiles (by omega) hy hykind (by
    rintro rfl
    exact hqp (hq₁.symm.trans hyptr)) hfree
  rw [hq₁] at hsize
  have := hcon.size_ge hsize (by omega) (by omega)
  omega

/-- **No call of `mm_realloc` that returns a block meets the contract.** -/
theorem not_reallocContract (h₀ : c₀.Initial) (hrun : Runs Step c₀ ops c) (hp : (p, n₀) ∈ c.live)
    (hn : 1 ≤ n) (hlt : n + 15 < 2 ^ 32)
    (hwrap : blockSize c.st p < align n → NoWrap c.st (adjust (align n - blockSize c.st p)))
    (hret : mmRealloc c.st p n = some (s', q)) (hq : q ≠ NULL) :
    ¬ ReallocContract c p n₀ n q s' := by
  obtain ⟨segs, L, h⟩ := exists_abs h₀ hrun
  obtain ⟨hamod, ha8, hna, han⟩ := align_spec hn hlt
  obtain ⟨x, hx, hkind, rfl⟩ := (h.live p n₀).mp hp
  have hxb : x.IsBlock := by simp [Seg.IsBlock, hkind]
  have hb := h.rep.blocks.bounds hx
  rw [h.rep.blocks.blockSize_eq hx hxb] at hwrap
  obtain ⟨l₁, l₂, hsegs⟩ := List.append_of_mem hx
  have hrep := h.rep
  rw [hsegs] at hrep
  rcases lt_trichotomy (align n) x.size with hlt' | heq | hgt
  · obtain ⟨t, hret', hsize⟩ := mmRealloc_shrink hrep hkind hn hlt hlt'
    obtain ⟨rfl, rfl⟩ := Prod.mk.inj (Option.some_inj.mp (hret.symm.trans hret'))
    intro hcon
    have := hcon.size_ge hsize ha8 (by omega)
    omega
  · obtain ⟨rfl, rfl⟩ := Prod.mk.inj
      (Option.some_inj.mp (hret.symm.trans (mmRealloc_same hrep hkind hn heq)))
    intro hcon
    have := hcon.size_ge (h.rep.blocks.getSize_eq hx hxb) x.size_ge (by omega)
    omega
  · exact h.not_reallocContract_grow hp hn hlt hx hkind rfl hgt (hwrap hgt) hret hq

/-- A block of 16 bytes is to hold 40: the block returned holds 16. -/
theorem not_reallocContract_example : ∃ c₀ c s', Config.boot 4096 (fun _ => 0) = some c₀ ∧
    Runs Step c₀ [.malloc 16] c ∧ mmRealloc c.st 4112 40 = some (s', 4136) ∧
    ¬ ReallocContract c 4112 16 40 4136 s' := by
  obtain ⟨c₀, c, hboot, hlast, h₀, hrun⟩ := exists_run (fun _ _ => True) 4096 (fun _ => 0)
    [.malloc 16]
    (fun c => (c.live, (mmRealloc c.st 4112 40).map Prod.snd,
      decide (NoWrap c.st (adjust (align 40 - blockSize c.st 4112)))))
    ([(4112, 16)], some 4136, true) (by decide) (by decide) (by decide +kernel)
  simp only [Prod.mk.injEq, Option.map_eq_some_iff, decide_eq_true_iff] at hlast
  obtain ⟨hlive, ⟨⟨s', q⟩, hret, rfl⟩, hwrap⟩ := hlast
  exact ⟨c₀, c, s', hboot, hrun.of_guarded, hret, not_reallocContract h₀ hrun.of_guarded
    (by simp [hlive]) (by norm_num) (by norm_num) (fun _ => hwrap) hret (by decide)⟩

/-- A payload of 8 bytes, all zero, is to keep its size: its first byte becomes 9, the low byte of
the new footer. -/
theorem exists_not_reallocContract : ∃ c₀ c s', Config.boot 4096 (fun _ => 0) = some c₀ ∧
    c₀.Initial ∧ Runs Step c₀ [.malloc 8] c ∧ (4112, 8) ∈ c.live ∧
    mmRealloc c.st 4112 8 = some (s', 4112) ∧ ¬ ReallocContract c 4112 8 8 4112 s' := by
  obtain ⟨c₀, c, hboot, hlast, h₀, hrun⟩ := exists_run (fun _ _ => True) 4096 (fun _ => 0)
    [.malloc 8]
    (fun c => (c.live, c.st.mem 4112,
      (mmRealloc c.st 4112 8).map fun r => (r.1.mem 4112, r.2)))
    ([(4112, 8)], 0, some (9, 4112)) (by decide) (by decide) (by decide +kernel)
  simp only [Prod.mk.injEq, Option.map_eq_some_iff] at hlast
  obtain ⟨hlive, hold, ⟨s', q⟩, hret, hnew, rfl⟩ := hlast
  refine ⟨c₀, c, s', hboot, h₀, hrun.of_guarded, by simp [hlive], hret, fun hcon => ?_⟩
  have hbyte := hcon.contents 0 (by decide)
  rw [Nat.add_zero, hold, hnew] at hbyte
  exact absurd hbyte (by decide)

end SystemsLabs.Malloclab
