import SystemsLabs.Malloclab.FreeListAdd

/-!
# Removing from the free list

`removeFreeBlock_spec`: `remove_free_block` takes a block off the list of a represented heap and
keeps the order of the others; the tags of the block still give its size. `Rep.eraseFree` is what
its four cases (the only block, the first, the last, any other) have in common.
-/

namespace SystemsLabs.Malloclab

open SystemsLabs.Lib

variable {s : State} {segs L L₁ L₂ l₁ l₂ : List Seg} {x y z : Seg}

/-- `free_list_end` is the last block of the list. -/
theorem FreeList.end_eq {A : List Seg} {e : Seg} (h : FreeList s L) (hL : L = A ++ [e]) :
    s.freeListEnd = e.ptr := by
  rw [h.end_, hL]
  simp

/-- A block leaves the list from between `L₁` and `L₂` and becomes a raw segment: only links are
written, those at the seam as they must be and the other inner ones not at all. -/
theorem Rep.eraseFree (h : Rep s (l₁ ++ x :: l₂) (L₁ ++ x :: L₂)) (hx : x.kind = .free)
    (hy : y.kind = .raw) (hptr : y.ptr = x.ptr) (hsize : y.size = x.size) {m : Mem} {r e : ℕ}
    (hm : ∀ a, (∀ z ∈ L₁ ++ L₂, ¬ z.LinkByte a) → m a = s.mem a)
    (hnext : ∀ z ∈ L₁.dropLast ++ L₂.dropLast, m.load32 z.ptr = s.mem.load32 z.ptr)
    (hprev : ∀ z ∈ L₁.tail ++ L₂.tail, m.load32 (z.ptr + 4) = s.mem.load32 (z.ptr + 4))
    (hseam : ∀ z ∈ L₁.getLast?, ∀ w ∈ L₂.head?,
      m.load32 z.ptr = w.ptr ∧ m.load32 (w.ptr + 4) = z.ptr)
    (hr : r = ((L₁ ++ L₂).map Seg.ptr).headD NULL)
    (he : e = ((L₁ ++ L₂).map Seg.ptr).getLastD NULL) :
    Rep { s with mem := m, freeListRoot := r, freeListEnd := e } (l₁ ++ y :: l₂) (L₁ ++ L₂) ∧
      x.Tagged m x.size := by
  have hmem : x ∈ l₁ ++ x :: l₂ := by simp
  have hL : ∀ z ∈ L₁ ++ L₂, z ∈ L₁ ++ x :: L₂ :=
    fun z hz => ((List.sublist_cons_self x L₂).append_left L₁).mem hz
  have hxb : x.IsBlock := by simp [Seg.IsBlock, hx]
  have hF : ∀ z ∈ L₁ ++ L₂, z ∈ l₁ ++ x :: l₂ ∧ 16 ≤ z.size :=
    fun z hz => ⟨h.mem_segs (hL z hz), (h.isBlock (hL z hz)).size_ge⟩
  have htag : x.Tagged m x.size := by
    have ht := h.blocks.tagged hmem hxb
    rw [Seg.word_free hx] at ht
    exact h.blocks.tagged_of_linkBytes hF hm hmem ht
  refine ⟨⟨?_, ⟨?_, ?_, hr, he⟩, ?_⟩, htag⟩
  · have hlinks : Blocks { s with mem := m } (l₁ ++ x :: l₂) := h.blocks.of_linkBytes hF hm
    have hnew : Blocks { s with mem := m } (l₁ ++ [y] ++ l₂) := by
      refine hlinks.replace ⟨hptr, by rw [Tiles.nil_iff, hsize]⟩ ?_
      intro z hz hzb
      obtain rfl := List.mem_singleton.mp hz
      exact absurd hy hzb
    rw [List.append_assoc] at hnew
    exact hnew.withList r e
  · exact h.list.sorted.sublist (by simp)
  · have hlinked := h.list.linked
    rw [List.map_append, List.map_cons] at hlinked
    rw [List.map_append]
    apply hlinked.remove
    · rw [← List.map_dropLast, ← List.map_dropLast, ← List.map_append]
      intro p hp
      obtain ⟨z, hz, rfl⟩ := List.mem_map.mp hp
      exact hnext z hz
    · rw [← List.map_tail, ← List.map_tail, ← List.map_append]
      intro p hp
      obtain ⟨z, hz, rfl⟩ := List.mem_map.mp hp
      exact hprev z hz
    · intro p hp q hq
      rw [List.getLast?_map, Option.mem_map] at hp
      rw [List.head?_map, Option.mem_map] at hq
      obtain ⟨z, hz, rfl⟩ := hp
      obtain ⟨w, hw, rfl⟩ := hq
      exact hseam z hz w hw
  · have hxf : x.isFree = true := by simp [Seg.isFree, hx]
    have hyf : y.isFree = false := by simp [Seg.isFree, hy]
    have hp := h.perm
    rw [List.filter_append, List.filter_cons_of_pos hxf] at hp
    rw [List.filter_append, List.filter_cons_of_neg (by simp [hyf])]
    exact (List.perm_middle.symm.trans (hp.trans List.perm_middle)).cons_inv

section remove

/-- The only block of the list. -/
theorem removeFreeBlock_singleton (h : Rep s segs [x]) :
    removeFreeBlock s x.ptr = some { s with freeListRoot := NULL, freeListEnd := NULL } := by
  have hx := h.mem_segs (x := x) (by simp)
  have hroot : s.freeListRoot = x.ptr := h.list.root
  have hend : s.freeListEnd = x.ptr := h.list.end_
  simp [removeFreeBlock, h.blocks.ptr_ne_null hx, hroot, hend]

/-- The first block of several. -/
theorem removeFreeBlock_front {c : Seg} {D : List Seg} (h : Rep s segs (x :: c :: D)) :
    removeFreeBlock s x.ptr = some ({ s with freeListRoot := c.ptr }.store (c.ptr + 4) NULL) := by
  have hx := h.mem_segs (x := x) (by simp)
  have hc := h.mem_segs (x := c) (by simp)
  have hroot : s.freeListRoot = x.ptr := h.list.root
  have hnext : s.mem.load32 x.ptr = c.ptr := (Linked.cons_cons_iff.mp h.list.linked).1.1
  have hend : x.ptr ≠ s.freeListEnd := by
    obtain ⟨A, e, hA⟩ := (List.eq_nil_or_concat (c :: D)).resolve_left (by simp)
    rw [List.concat_eq_append] at hA
    rw [h.list.end_eq (A := x :: A) (e := e) (by simp [hA])]
    exact (List.pairwise_cons.mp h.pairwise_ptr_ne).1 e (by simp [hA])
  simp [removeFreeBlock, h.blocks.ptr_ne_null hx, hroot, hend, h.blocks.get_nextPtr hx, hnext,
    h.blocks.put_prevPtr hc]

/-- The last block of several. -/
theorem removeFreeBlock_back {q : Seg} {C : List Seg} (h : Rep s segs (C ++ [q, x])) :
    removeFreeBlock s x.ptr = some ({ s with freeListEnd := q.ptr }.store q.ptr NULL) := by
  have hx := h.mem_segs (x := x) (by simp)
  have hq := h.mem_segs (x := q) (by simp)
  have hend : s.freeListEnd = x.ptr := by simp [h.list.end_]
  have hprev : s.mem.load32 (x.ptr + 4) = q.ptr := by
    have hlinked := h.list.linked
    rw [List.map_append] at hlinked
    exact (Linked.cons_cons_iff.mp (Linked.append_iff.mp hlinked).2.1).1.2
  have hroot : s.freeListRoot ≠ x.ptr := by
    obtain ⟨-, hqx, hCx⟩ := List.pairwise_append.mp h.pairwise_ptr_ne
    rw [h.list.root]
    cases C with
    | nil => simpa using hqx
    | cons b C => exact hCx b (by simp) x (by simp)
  simp [removeFreeBlock, h.blocks.ptr_ne_null hx, hroot, hend, h.blocks.get_prevPtr hx, hprev,
    h.blocks.put_nextPtr hq]

/-- A block between two others. -/
theorem removeFreeBlock_middle {q c : Seg} {C D : List Seg}
    (h : Rep s segs (C ++ q :: x :: c :: D)) :
    removeFreeBlock s x.ptr = some ((s.store q.ptr c.ptr).store (c.ptr + 4) q.ptr) := by
  have hx := h.mem_segs (x := x) (by simp)
  have hq := h.mem_segs (x := q) (by simp)
  have hc := h.mem_segs (x := c) (by simp)
  have hlinked := h.list.linked
  rw [List.map_append] at hlinked
  obtain ⟨⟨-, hprev⟩, hlinked'⟩ := Linked.cons_cons_iff.mp (Linked.append_iff.mp hlinked).2.1
  have hnext : s.mem.load32 x.ptr = c.ptr := (Linked.cons_cons_iff.mp hlinked').1.1
  obtain ⟨-, hqxD, hC⟩ := List.pairwise_append.mp h.pairwise_ptr_ne
  obtain ⟨hqne, hxD⟩ := List.pairwise_cons.mp hqxD
  have hxne := (List.pairwise_cons.mp hxD).1
  have hqx := hqne x (by simp)
  have hroot : s.freeListRoot ≠ x.ptr := by
    rw [h.list.root]
    cases C with
    | nil => simpa using hqx
    | cons b C => exact hC b (by simp) x (by simp)
  have hend : s.freeListEnd ≠ x.ptr := by
    obtain ⟨A, e, hA⟩ := (List.eq_nil_or_concat (c :: D)).resolve_left (by simp)
    rw [List.concat_eq_append] at hA
    rw [h.list.end_eq (A := C ++ q :: x :: A) (e := e) (by simp [hA])]
    exact (hxne e (by simp [hA])).symm
  have hends : s.freeListRoot ≠ s.freeListEnd := by
    obtain ⟨A, e, hA⟩ := (List.eq_nil_or_concat (c :: D)).resolve_left (by simp)
    rw [List.concat_eq_append] at hA
    rw [h.list.end_eq (A := C ++ q :: x :: A) (e := e) (by simp [hA]), h.list.root]
    cases C with
    | nil => exact hqne e (by simp [hA])
    | cons b C => exact hC b (by simp) e (by simp [hA])
  have hxmod := x.ptr_mod
  have hqmod := q.ptr_mod
  have h₁ : (s.mem.store32 q.ptr c.ptr).load32 x.ptr = c.ptr := by
    rw [Mem.load32_store32_of_ne (by omega) (by omega) hqx.symm, hnext]
  have h₂ : (s.mem.store32 q.ptr c.ptr).load32 (x.ptr + 4) = q.ptr := by
    rw [Mem.load32_store32_of_ne (by omega) (by omega) (by omega)]
    exact hprev
  have hprev' : s.mem.load32 (x.ptr + 4) = q.ptr := hprev
  simp [removeFreeBlock, h.blocks.ptr_ne_null hx, hroot, hend, hends, h.blocks.get_prevPtr hx,
    h.blocks.get_nextPtr hx, hprev', hnext, h.blocks.put_nextPtr hq, h.blocks.put_prevPtr hc,
    h₁, h₂]

end remove

/-- A block has left the list, and the order of the others is as before. Only links of the others
have been written, and the tags of the block still give its size. -/
structure Erased (s : State) (x : Seg) (segs L : List Seg) (s' : State) : Prop where
  rep : Rep s' segs L
  tagged : x.Tagged s'.mem x.size
  same : s.SameBounds s'
  frame : ∀ a, (∀ z ∈ L, ¬ z.LinkByte a) → s'.mem a = s.mem a

section erased

variable {c q : Seg} {C D : List Seg} (hx : x.kind = .free) (hy : y.kind = .raw)
  (hptr : y.ptr = x.ptr) (hsize : y.size = x.size)

include hx hy hptr hsize

/-- The only node is removed. -/
theorem erased_singleton (h : Rep s (l₁ ++ x :: l₂) [x]) :
    Erased s x (l₁ ++ y :: l₂) [] { s with freeListRoot := NULL, freeListEnd := NULL } := by
  have h' : Rep s (l₁ ++ x :: l₂) ([] ++ x :: []) := h
  obtain ⟨hrep, htag⟩ := Rep.eraseFree h' hx hy hptr hsize (m := s.mem) (r := NULL) (e := NULL)
    (fun _ _ => rfl) (by simp) (by simp) (by simp) rfl rfl
  exact ⟨hrep, htag, ⟨rfl, rfl⟩, fun _ _ => rfl⟩

/-- The first node is removed. -/
theorem erased_front (h : Rep s (l₁ ++ x :: l₂) (x :: c :: D)) :
    Erased s x (l₁ ++ y :: l₂) (c :: D)
      ({ s with freeListRoot := c.ptr }.store (c.ptr + 4) NULL) := by
  have hframe : ∀ a, (∀ z ∈ [] ++ c :: D, ¬ z.LinkByte a) →
      s.mem.store32 (c.ptr + 4) NULL a = s.mem a := fun a ha =>
    Seg.store_prev_of_not_linkByte (ha c (by simp))
  have hdist := (List.pairwise_cons.mp (List.pairwise_cons.mp h.pairwise_ptr_ne).2).1
  have hcmod := c.ptr_mod
  have hend := h.list.end_
  have h' : Rep s (l₁ ++ x :: l₂) ([] ++ x :: c :: D) := h
  obtain ⟨hrep, htag⟩ := Rep.eraseFree h' hx hy hptr hsize
    (r := c.ptr) (e := s.freeListEnd) hframe
    (fun z _ => by
      have hzmod := z.ptr_mod
      rw [Mem.load32_store32_of_ne (by omega) (by omega) (by omega)])
    (fun z hz => by
      have hzmod := z.ptr_mod
      have := hdist z hz
      rw [Mem.load32_store32_of_ne (by omega) (by omega) (by omega)])
    (by simp) rfl (by simpa using hend)
  exact ⟨hrep, htag, ⟨rfl, rfl⟩, hframe⟩

/-- The last node is removed. -/
theorem erased_back (h : Rep s (l₁ ++ x :: l₂) (C ++ [q] ++ [x])) :
    Erased s x (l₁ ++ y :: l₂) (C ++ [q] ++ [])
      ({ s with freeListEnd := q.ptr }.store q.ptr NULL) := by
  have hqmod := q.ptr_mod
  have h' : Rep s (l₁ ++ x :: l₂) (C ++ [q, x]) := by simpa using h
  have hCq := (List.pairwise_append.mp h'.pairwise_ptr_ne).2.2
  have hroot := h.list.root
  have hframe : ∀ a, (∀ z ∈ C ++ [q] ++ [], ¬ z.LinkByte a) →
      s.mem.store32 q.ptr NULL a = s.mem a := fun a ha =>
    Seg.store_next_of_not_linkByte (ha q (by simp))
  obtain ⟨hrep, htag⟩ := Rep.eraseFree h hx hy hptr hsize (r := s.freeListRoot) (e := q.ptr)
    hframe
    (fun z hz => by
      have hzmod := z.ptr_mod
      have hzC : z ∈ C := by simpa using hz
      have := hCq z hzC q (by simp)
      rw [Mem.load32_store32_of_ne (by omega) (by omega) (by omega)])
    (fun z _ => by
      have hzmod := z.ptr_mod
      rw [Mem.load32_store32_of_ne (by omega) (by omega) (by omega)])
    (by simp) (by cases C <;> simpa using hroot) (by simp)
  exact ⟨hrep, htag, ⟨rfl, rfl⟩, hframe⟩

/-- A node between two others is removed. -/
theorem erased_middle (h : Rep s (l₁ ++ x :: l₂) (C ++ [q] ++ x :: c :: D)) :
    Erased s x (l₁ ++ y :: l₂) (C ++ [q] ++ c :: D)
      ((s.store q.ptr c.ptr).store (c.ptr + 4) q.ptr) := by
  have hqmod := q.ptr_mod
  have hcmod := c.ptr_mod
  have h' : Rep s (l₁ ++ x :: l₂) (C ++ q :: x :: c :: D) := by simpa using h
  have hqlt := h'.blocks.bounds (h'.mem_segs (x := q) (by simp))
  have hclt := h'.blocks.bounds (h'.mem_segs (x := c) (by simp))
  obtain ⟨-, hqxcD, hCall⟩ := List.pairwise_append.mp h'.pairwise_ptr_ne
  obtain ⟨hq, hxcD⟩ := List.pairwise_cons.mp hqxcD
  have hcD := (List.pairwise_cons.mp (List.pairwise_cons.mp hxcD).2).1
  have hroot := h.list.root
  have hend := h.list.end_
  have hframe : ∀ a, (∀ z ∈ C ++ [q] ++ c :: D, ¬ z.LinkByte a) →
      (s.mem.store32 q.ptr c.ptr).store32 (c.ptr + 4) q.ptr a = s.mem a := fun a ha => by
    rw [Seg.store_prev_of_not_linkByte (ha c (by simp)),
      Seg.store_next_of_not_linkByte (ha q (by simp))]
  obtain ⟨hrep, htag⟩ := Rep.eraseFree h hx hy hptr hsize (r := s.freeListRoot)
    (e := s.freeListEnd) hframe
    (fun z hz => by
      have hzmod := z.ptr_mod
      have hzq : z.ptr ≠ q.ptr := by
        rcases List.mem_append.mp hz with hz | hz
        · exact hCall z (by simpa using hz) q (by simp)
        · have hzD := List.dropLast_subset _ hz
          exact (hq z (List.mem_cons_of_mem _ hzD)).symm
      simp (disch := omega) only [Mem.load32_store32_of_ne])
    (fun z hz => by
      have hzmod := z.ptr_mod
      have hzc : z.ptr ≠ c.ptr := by
        rcases List.mem_append.mp hz with hz | hz
        · rcases List.mem_append.mp (List.mem_of_mem_tail hz) with hz | hz
          · exact hCall z hz c (by simp)
          · obtain rfl := List.mem_singleton.mp hz
            exact hq c (by simp)
        · exact (hcD z hz).symm
      simp (disch := omega) only [Mem.load32_store32_of_ne])
    (by
      intro z hz w hw
      obtain rfl : q = z := by simpa using hz
      obtain rfl : c = w := by simpa using hw
      simp (disch := omega) only [Mem.load32_store32_of_ne, Mem.load32_store32_self, and_self])
    (by cases C <;> simpa using hroot) (by rw [hend]; simp [List.getLastD_eq_getLast?])
  exact ⟨hrep, htag, ⟨rfl, rfl⟩, hframe⟩

/-- `remove_free_block` takes a block off the list, wherever in the list it is. -/
theorem exists_erased (h : Rep s (l₁ ++ x :: l₂) (L₁ ++ x :: L₂)) :
    ∃ s', removeFreeBlock s x.ptr = some s' ∧ Erased s x (l₁ ++ y :: l₂) (L₁ ++ L₂) s' := by
  rcases List.eq_nil_or_concat L₁ with rfl | ⟨C, q, rfl⟩
  · cases L₂ with
    | nil => exact ⟨_, removeFreeBlock_singleton h, erased_singleton hx hy hptr hsize h⟩
    | cons c D => exact ⟨_, removeFreeBlock_front h, erased_front hx hy hptr hsize h⟩
  · rw [List.concat_eq_append] at h ⊢
    cases L₂ with
    | nil =>
        have h' : Rep s (l₁ ++ x :: l₂) (C ++ [q, x]) := by simpa using h
        exact ⟨_, removeFreeBlock_back h', erased_back hx hy hptr hsize h⟩
    | cons c D =>
        have h' : Rep s (l₁ ++ x :: l₂) (C ++ q :: x :: c :: D) := by simpa using h
        exact ⟨_, removeFreeBlock_middle h', erased_middle hx hy hptr hsize h⟩

end erased

/-- `remove_free_block` takes a block off the list and leaves the order of the others. It writes
links of the other blocks only, and the tags of the block still give its size. -/
theorem removeFreeBlock_spec (h : Rep s (l₁ ++ x :: l₂) (L₁ ++ x :: L₂)) (hx : x.kind = .free)
    (hy : y.kind = .raw) (hptr : y.ptr = x.ptr) (hsize : y.size = x.size) :
    ∃ s', removeFreeBlock s x.ptr = some s' ∧ Rep s' (l₁ ++ y :: l₂) (L₁ ++ L₂) ∧
      x.Tagged s'.mem x.size ∧ s.SameBounds s' ∧
      ∀ a, (∀ z ∈ L₁ ++ L₂, ¬ z.LinkByte a) → s'.mem a = s.mem a := by
  obtain ⟨s', hremove, herased⟩ := exists_erased hx hy hptr hsize h
  exact ⟨s', hremove, herased.rep, herased.tagged, herased.same, herased.frame⟩

end SystemsLabs.Malloclab
