import SystemsLabs.Malloclab.Malloc

/-!
# The links at the two ends of the free list

`NullEnds` says that the list ends in null links on both sides. Nothing else of `mm_malloc` and
`mm_free` relies on it. `remove_free_block` keeps it, because it clears the link of a block that
becomes an end (`removeFreeBlock_nullEnds`). `add_free_block` writes no link that leads out of the
list: a block that becomes an end keeps in that link what its payload held
(`addFreeBlock_nullEnds`).
-/

namespace SystemsLabs.Malloclab

open SystemsLabs.Lib

variable {s s' t : State} {segs L L₁ L₂ l₁ l₂ : List Seg} {b e f r x y z : Seg} {n p : ℕ}

/-- `NEXT_PTR(free_list_end)` and `PREV_PTR(free_list_root)` are null if the list is not empty. -/
def NullEnds (s : State) : Prop :=
  s.freeListRoot ≠ NULL → get s (nextPtr s.freeListEnd) = some NULL ∧
    get s (prevPtr s.freeListRoot) = some NULL

/-- The links out of a list with the ends `b` and `e`. -/
theorem Blocks.nullEnds_iff (h : Blocks s segs) (hb : b ∈ segs) (he : e ∈ segs)
    (hlo : t.memStartBrk = s.memStartBrk) (hhi : t.memMaxAddr = s.memMaxAddr)
    (hroot : t.freeListRoot = b.ptr) (hend : t.freeListEnd = e.ptr) :
    NullEnds t ↔ t.mem.load32 e.ptr = NULL ∧ t.mem.load32 (b.ptr + 4) = NULL := by
  unfold NullEnds
  rw [hroot, hend, h.get_nextPtr he hlo hhi, h.get_prevPtr hb hlo hhi, Option.some_inj,
    Option.some_inj]
  exact ⟨fun hnull => hnull (h.ptr_ne_null hb), fun hnull _ => hnull⟩

/-- The links out of the list of a layout. -/
theorem Rep.nullEnds_iff (h : Rep s segs L) {A B : List Seg} (hB : L = b :: B) (hA : L = A ++ [e]) :
    NullEnds s ↔ s.mem.load32 e.ptr = NULL ∧ s.mem.load32 (b.ptr + 4) = NULL := by
  obtain ⟨hroot, hend, -⟩ := h.ends hB hA
  exact h.blocks.nullEnds_iff (h.mem_segs (by simp [hB])) (h.mem_segs (by simp [hA])) rfl rfl hroot
    hend

/-- Writing no link of the list and neither of its ends keeps the links out of it. -/
theorem Rep.nullEnds_congr (h : Rep s segs L) (hlo : t.memStartBrk = s.memStartBrk)
    (hhi : t.memMaxAddr = s.memMaxAddr) (hroot : t.freeListRoot = s.freeListRoot)
    (hend : t.freeListEnd = s.freeListEnd)
    (hm : ∀ z ∈ L, ∀ a, z.LinkByte a → t.mem a = s.mem a) : NullEnds t ↔ NullEnds s := by
  rcases List.eq_nil_or_concat L with rfl | ⟨A, e, hA⟩
  · have hnull : s.freeListRoot = NULL := h.list.root
    exact iff_of_true (fun hne => absurd (hroot.trans hnull) hne) fun hne => absurd hnull hne
  · rw [List.concat_eq_append] at hA
    obtain ⟨b, B, hB⟩ : ∃ b B, L = b :: B := List.exists_cons_of_ne_nil (by simp [hA])
    obtain ⟨hb, he, -⟩ := h.ends hB hA
    have hbL : b ∈ L := by simp [hB]
    have heL : e ∈ L := by simp [hA]
    have h₁ : t.mem.load32 e.ptr = s.mem.load32 e.ptr :=
      Mem.load32_congr fun a h₁ h₂ => hm e heL a ⟨h₁, by omega⟩
    have h₂ : t.mem.load32 (b.ptr + 4) = s.mem.load32 (b.ptr + 4) :=
      Mem.load32_congr fun a h₁ h₂ => hm b hbL a ⟨by omega, by omega⟩
    rw [h.nullEnds_iff hB hA, h.blocks.nullEnds_iff (h.mem_segs hbL) (h.mem_segs heL) hlo hhi
      (hroot.trans hb) (hend.trans he), h₁, h₂]

/-! ## `remove_free_block` -/

/-- The next block becomes the root. -/
theorem removeFreeBlock_nullEnds_front {c : Seg} {D : List Seg} (h : Rep s segs (x :: c :: D))
    (hends : NullEnds s) (hremove : removeFreeBlock s x.ptr = some s') : NullEnds s' := by
  obtain rfl := Option.some.inj ((removeFreeBlock_front h).symm.trans hremove)
  obtain ⟨A, e, hA⟩ := (List.eq_nil_or_concat (c :: D)).resolve_left (by simp)
  rw [List.concat_eq_append] at hA
  have hAe : x :: c :: D = x :: A ++ [e] := by simp [hA]
  have heL : e ∈ x :: c :: D := by simp [hAe]
  have hold := ((h.nullEnds_iff rfl hAe).mp hends).1
  have hemod := e.ptr_mod
  have hcmod := c.ptr_mod
  have hend := h.list.end_eq hAe
  rw [h.blocks.nullEnds_iff (b := c) (e := e) (h.mem_segs (by simp)) (h.mem_segs heL) (by rfl)
    (by rfl) (by rfl) (by exact hend)]
  refine ⟨?_, Mem.load32_store32_self (by norm_num)⟩
  change (s.mem.store32 (c.ptr + 4) NULL).load32 e.ptr = NULL
  rw [Mem.load32_store32_of_ne (by omega) (by omega) (by omega), hold]

/-- The block in front becomes the end. -/
theorem removeFreeBlock_nullEnds_back {q : Seg} {C : List Seg} (h : Rep s segs (C ++ [q, x]))
    (hends : NullEnds s) (hremove : removeFreeBlock s x.ptr = some s') : NullEnds s' := by
  obtain rfl := Option.some.inj ((removeFreeBlock_back h).symm.trans hremove)
  obtain ⟨b, B, hB⟩ : ∃ b B, C ++ [q] = b :: B := List.exists_cons_of_ne_nil (by simp)
  have hB' : C ++ [q, x] = b :: (B ++ [x]) := by
    rw [← List.cons_append, ← hB]
    simp
  have hroot : s.freeListRoot = b.ptr := by
    rw [h.list.root, hB']
    rfl
  have hA : C ++ [q, x] = C ++ [q] ++ [x] := by simp
  have hbL : b ∈ C ++ [q, x] := by simp [hB']
  have hold := ((h.nullEnds_iff hB' hA).mp hends).2
  have hqmod := q.ptr_mod
  have hbmod := b.ptr_mod
  rw [h.blocks.nullEnds_iff (b := b) (e := q) (h.mem_segs hbL) (h.mem_segs (by simp)) (by rfl)
    (by rfl) (by exact hroot) (by rfl)]
  refine ⟨Mem.load32_store32_self (by norm_num), ?_⟩
  change (s.mem.store32 q.ptr NULL).load32 (b.ptr + 4) = NULL
  rw [Mem.load32_store32_of_ne (by omega) (by omega) (by omega), hold]

/-- The ends stay: the links that are written belong to `q`, which is not the end, and to `c`, which
is not the root. -/
theorem removeFreeBlock_nullEnds_middle {q c : Seg} {C D : List Seg}
    (h : Rep s segs (C ++ q :: x :: c :: D)) (hends : NullEnds s)
    (hremove : removeFreeBlock s x.ptr = some s') : NullEnds s' := by
  obtain rfl := Option.some.inj ((removeFreeBlock_middle h).symm.trans hremove)
  have hpair := h.pairwise_ptr_ne
  obtain ⟨b, B, hB⟩ : ∃ b B, C ++ [q] = b :: B := List.exists_cons_of_ne_nil (by simp)
  obtain ⟨A, e, hA⟩ := (List.eq_nil_or_concat (c :: D)).resolve_left (by simp)
  rw [List.concat_eq_append] at hA
  have hsplit : C ++ q :: x :: c :: D = C ++ [q] ++ x :: c :: D := by simp
  have hB' : C ++ q :: x :: c :: D = b :: (B ++ x :: c :: D) := by
    rw [hsplit, hB, List.cons_append]
  have hAe : C ++ q :: x :: c :: D = C ++ [q] ++ x :: A ++ [e] := by simp [hA]
  have hbq : b ∈ C ++ [q] := by simp [hB]
  have hec : e ∈ c :: D := by simp [hA]
  have hbL : b ∈ C ++ q :: x :: c :: D := by simp [hB']
  have heL : e ∈ C ++ q :: x :: c :: D := by simp [hAe]
  have hroot : s.freeListRoot = b.ptr := by
    rw [h.list.root, hB']
    rfl
  have hend := h.list.end_eq hAe
  obtain ⟨hold₁, hold₂⟩ := (h.nullEnds_iff hB' hAe).mp hends
  rw [hsplit] at hpair
  have hcross := (List.pairwise_append.mp hpair).2.2
  have hqe := hcross q (by simp) e (List.mem_cons_of_mem _ hec)
  have hbc := hcross b hbq c (by simp)
  have hbmod := b.ptr_mod
  have hqmod := q.ptr_mod
  have hcmod := c.ptr_mod
  have hemod := e.ptr_mod
  rw [h.blocks.nullEnds_iff (b := b) (e := e) (h.mem_segs hbL) (h.mem_segs heL) (by rfl) (by rfl)
    (by exact hroot) (by exact hend)]
  change ((s.mem.store32 q.ptr c.ptr).store32 (c.ptr + 4) q.ptr).load32 e.ptr = NULL ∧
    ((s.mem.store32 q.ptr c.ptr).store32 (c.ptr + 4) q.ptr).load32 (b.ptr + 4) = NULL
  simp (disch := omega) only [Mem.load32_store32_of_ne, hold₁, hold₂, and_self]

/-- `remove_free_block` clears the link of a block that becomes an end. -/
theorem removeFreeBlock_nullEnds (h : Rep s segs (L₁ ++ x :: L₂)) (hends : NullEnds s)
    (hremove : removeFreeBlock s x.ptr = some s') : NullEnds s' := by
  rcases List.eq_nil_or_concat L₁ with rfl | ⟨C, q, rfl⟩
  · cases L₂ with
    | nil =>
      obtain rfl := Option.some.inj ((removeFreeBlock_singleton h).symm.trans hremove)
      exact fun hne => absurd rfl hne
    | cons c D => exact removeFreeBlock_nullEnds_front h hends hremove
  · rw [List.concat_eq_append, List.append_assoc, List.singleton_append] at h
    cases L₂ with
    | nil => exact removeFreeBlock_nullEnds_back h hends hremove
    | cons c D => exact removeFreeBlock_nullEnds_middle h hends hremove

/-! ## `add_free_block` -/

/-- The links that `add_free_block` does not write when it puts `x` on the list `L` hold null: the
previous link if `x` becomes the first block, the next link if it becomes the last. -/
def ClearAtEnds (m : Mem) (x : Seg) (L : List Seg) : Prop :=
  ((∀ z ∈ L, x.size ≤ z.size) → m.load32 (x.ptr + 4) = NULL) ∧
    ((∀ z ∈ L, z.size ≤ x.size) → (L ≠ [] → ∃ z ∈ L, z.size < x.size) →
      m.load32 x.ptr = NULL)

section Add

variable {A B : List Seg} (h : Rep s (l₁ ++ x :: l₂) L) (hx : x.kind = .raw)
  (hxsize : getSize s (hdrp x.ptr) = some x.size) (hends : NullEnds s)
  (hadd : addFreeBlock s x.ptr = some s') (hB : L = b :: B) (hA : L = A ++ [e])

include h hx hxsize hends hadd hB hA

/-- A block that becomes the root keeps its previous link. -/
theorem addFreeBlock_nullEnds_front (hfront : x.size ≤ b.size) :
    NullEnds s' ↔ s.mem.load32 (x.ptr + 4) = NULL := by
  have hmem : x ∈ l₁ ++ x :: l₂ := by simp
  have hbL : b ∈ L := by simp [hB]
  have heL : e ∈ L := by simp [hA]
  have hend := h.list.end_eq hA
  have hold := ((h.nullEnds_iff hB hA).mp hends).1
  have hbx := h.ptr_ne_of_raw hmem hx hbL
  have hex := h.ptr_ne_of_raw hmem hx heL
  have hxmod := x.ptr_mod
  have hbmod := b.ptr_mod
  have hemod := e.ptr_mod
  obtain rfl := Option.some.inj ((addFreeBlock_front h hmem hxsize hB hfront).symm.trans hadd)
  rw [h.blocks.nullEnds_iff hmem (h.mem_segs heL) (by rfl) (by rfl) (by rfl) (by exact hend)]
  change ((s.mem.store32 x.ptr b.ptr).store32 (b.ptr + 4) x.ptr).load32 e.ptr = NULL ∧
    ((s.mem.store32 x.ptr b.ptr).store32 (b.ptr + 4) x.ptr).load32 (x.ptr + 4) = NULL ↔ _
  simp (disch := omega) only [Mem.load32_store32_of_ne, hold, true_and]

/-- A block that becomes the end keeps its next link. -/
theorem addFreeBlock_nullEnds_back (hfront : b.size < x.size) (hback : e.size ≤ x.size) :
    NullEnds s' ↔ s.mem.load32 x.ptr = NULL := by
  have hmem : x ∈ l₁ ++ x :: l₂ := by simp
  have hbL : b ∈ L := by simp [hB]
  have heL : e ∈ L := by simp [hA]
  have hroot : s.freeListRoot = b.ptr := by
    rw [h.list.root, hB]
    rfl
  have hold := ((h.nullEnds_iff hB hA).mp hends).2
  have hbx := h.ptr_ne_of_raw hmem hx hbL
  have hex := h.ptr_ne_of_raw hmem hx heL
  have hxmod := x.ptr_mod
  have hbmod := b.ptr_mod
  have hemod := e.ptr_mod
  obtain rfl := Option.some.inj
    ((addFreeBlock_back h hmem hxsize hB hA hfront hback).symm.trans hadd)
  rw [h.blocks.nullEnds_iff (h.mem_segs hbL) hmem (by rfl) (by rfl) (by exact hroot) (by rfl)]
  change ((s.mem.store32 (x.ptr + 4) e.ptr).store32 e.ptr x.ptr).load32 x.ptr = NULL ∧
    ((s.mem.store32 (x.ptr + 4) e.ptr).store32 e.ptr x.ptr).load32 (b.ptr + 4) = NULL ↔ _
  simp (disch := omega) only [Mem.load32_store32_of_ne, hold, and_true]

/-- A block between others: the ends stay, and so do their outer links. -/
theorem addFreeBlock_nullEnds_middle (hfront : b.size < x.size) (hback : x.size < e.size) :
    NullEnds s' := by
  have hmem : x ∈ l₁ ++ x :: l₂ := by simp
  have hbL : b ∈ L := by simp [hB]
  have heL : e ∈ L := by simp [hA]
  have hroot : s.freeListRoot = b.ptr := by
    rw [h.list.root, hB]
    rfl
  have hend := h.list.end_eq hA
  obtain ⟨hold₁, hold₂⟩ := (h.nullEnds_iff hB hA).mp hends
  obtain ⟨C, c, D, hC, hc, hCsize⟩ := exists_first_fit (x := e) (L := L) heL (Nat.le_of_lt hback)
  rcases List.eq_nil_or_concat C with rfl | ⟨C, q, rfl⟩
  · obtain ⟨rfl, -⟩ : b = c ∧ B = D := by simpa [hB] using hC
    exact absurd hc (Nat.not_le.mpr hfront)
  rw [List.concat_eq_append] at hC hCsize
  have hLq : L = C ++ q :: c :: D := by simp [hC]
  obtain rfl := Option.some.inj
    ((addFreeBlock_middle h hmem hxsize hB hA hLq hfront hback hc hCsize).symm.trans hadd)
  have hqe : q.ptr ≠ e.ptr := by
    intro heq
    have hqe : q = e := h.blocks.eq_of_ptr_eq (h.mem_segs (by simp [hLq])) (h.mem_segs heL) heq
    have hlt := hCsize q (by simp)
    rw [hqe] at hlt
    omega
  have hcb : c.ptr ≠ b.ptr := by
    intro heq
    have hcb : c = b := h.blocks.eq_of_ptr_eq (h.mem_segs (by simp [hLq])) (h.mem_segs hbL) heq
    rw [hcb] at hc
    omega
  have hbx := h.ptr_ne_of_raw hmem hx hbL
  have hex := h.ptr_ne_of_raw hmem hx heL
  have hxmod := x.ptr_mod
  have hbmod := b.ptr_mod
  have hemod := e.ptr_mod
  have hqmod := q.ptr_mod
  have hcmod := c.ptr_mod
  rw [h.blocks.nullEnds_iff (b := b) (e := e) (h.mem_segs hbL) (h.mem_segs heL) (by rfl) (by rfl)
    (by exact hroot) (by exact hend)]
  change ((((s.mem.store32 x.ptr c.ptr).store32 (x.ptr + 4) q.ptr).store32 q.ptr x.ptr).store32
      (c.ptr + 4) x.ptr).load32 e.ptr = NULL ∧
    ((((s.mem.store32 x.ptr c.ptr).store32 (x.ptr + 4) q.ptr).store32 q.ptr x.ptr).store32
      (c.ptr + 4) x.ptr).load32 (b.ptr + 4) = NULL
  simp (disch := omega) only [Mem.load32_store32_of_ne, hold₁, hold₂, and_self]

end Add

/-- `add_free_block` keeps the links out of the list null exactly if the links of the new block that
it does not write are null already. -/
theorem addFreeBlock_nullEnds (h : Rep s (l₁ ++ x :: l₂) L) (hx : x.kind = .raw)
    (htag : x.Tagged s.mem x.size) (hends : NullEnds s)
    (hadd : addFreeBlock s x.ptr = some s') : NullEnds s' ↔ ClearAtEnds s.mem x L := by
  have hmem : x ∈ l₁ ++ x :: l₂ := by simp
  have hxsize : getSize s (hdrp x.ptr) = some x.size :=
    h.blocks.getSize_of_tagged hmem htag (by have := x.size_mod; omega)
  unfold ClearAtEnds
  rcases List.eq_nil_or_concat L with rfl | ⟨A, e, hA⟩
  · obtain rfl := Option.some.inj ((addFreeBlock_nil h hmem rfl).symm.trans hadd)
    rw [h.blocks.nullEnds_iff hmem hmem (by rfl) (by rfl) (by rfl) (by rfl)]
    simp [and_comm]
  rw [List.concat_eq_append] at hA
  obtain ⟨b, B, hB⟩ : ∃ b B, L = b :: B := List.exists_cons_of_ne_nil (by simp [hA])
  have hbL : b ∈ L := by simp [hB]
  have heL : e ∈ L := by simp [hA]
  rcases Nat.lt_or_ge b.size x.size with hfront | hfront
  · have hfirst : ¬ ∀ z ∈ L, x.size ≤ z.size :=
      fun hall => absurd (hall b hbL) (Nat.not_le.mpr hfront)
    rcases Nat.lt_or_ge x.size e.size with hback | hback
    · -- `x` goes between two blocks
      have hlast : ¬ ∀ z ∈ L, z.size ≤ x.size :=
        fun hall => absurd (hall e heL) (Nat.not_le.mpr hback)
      exact iff_of_true (addFreeBlock_nullEnds_middle h hx hxsize hends hadd hB hA hfront hback)
        ⟨fun hall => absurd hall hfirst, fun hall => absurd hall hlast⟩
    · -- `x` becomes the end
      have hlast : ∀ z ∈ L, z.size ≤ x.size := fun z hz => (h.list.le_end hA hz).trans hback
      rw [addFreeBlock_nullEnds_back h hx hxsize hends hadd hB hA hfront hback]
      refine ⟨fun hnull => ⟨fun hall => absurd hall hfirst, fun _ _ => hnull⟩, fun hclear => ?_⟩
      exact hclear.2 hlast fun _ => ⟨b, hbL, hfront⟩
  · -- `x` becomes the root
    have hfirst : ∀ z ∈ L, x.size ≤ z.size := fun z hz => hfront.trans (h.list.root_le hB hz)
    have hlast : ¬ ∃ z ∈ L, z.size < x.size := by
      rintro ⟨z, hz, hlt⟩
      exact absurd (hfirst z hz) (Nat.not_le.mpr hlt)
    rw [addFreeBlock_nullEnds_front h hx hxsize hends hadd hB hA hfront]
    refine ⟨fun hnull => ⟨fun _ => hnull, fun _ hex => absurd (hex (by simp [hB])) hlast⟩, ?_⟩
    exact fun hclear => hclear.1 hfirst

end SystemsLabs.Malloclab
