import SystemsLabs.Malloclab.Layout

/-!
# Searching the free list and adding to it

What `find_fit` and `add_free_block` do to a represented heap.

* `findFit_eq` — the search from the root returns the first block that is large enough.
* `addFreeBlock_spec` — a raw segment with the tags of a free block is put into the list at a
  place that keeps it sorted. `Rep.insertFree` is what its four cases have in common.
-/

namespace SystemsLabs.Malloclab

open SystemsLabs.Lib

variable {s : State} {segs L L₁ L₂ l₁ l₂ : List Seg} {x y z : Seg}

/-! ## Reading and writing links -/

section links

/-- The first link of a block is its first word. -/
theorem Blocks.nextPtr_eq (h : Blocks s segs) (hx : x ∈ segs) : nextPtr x.ptr = x.ptr := by
  have hb := h.bounds hx
  exact Malloclab.nextPtr_eq (by omega) (by omega)

/-- The second link of a block is its second word. -/
theorem Blocks.prevPtr_eq (h : Blocks s segs) (hx : x ∈ segs) : prevPtr x.ptr = x.ptr + 4 := by
  have hb := h.bounds hx
  have hs := x.size_ge
  exact Malloclab.prevPtr_eq (by omega) (by omega)

/-- The words of a block are in the heap of any state with the same bounds. -/
theorem Blocks.inHeap_of_eq (h : Blocks s segs) (hx : x ∈ segs) {t : State}
    (hlo : t.memStartBrk = s.memStartBrk) (hhi : t.memMaxAddr = s.memMaxAddr) {p : ℕ}
    (hp : x.ptr - 8 ≤ p) (hp' : p + 4 ≤ x.ptr + x.size) : t.InHeap p := by
  have hin := h.inHeap hx hp hp'
  unfold State.InHeap at hin ⊢
  rwa [hlo, hhi]

/-- The first link can be read. -/
theorem Blocks.get_nextPtr (h : Blocks s segs) (hx : x ∈ segs) {t : State}
    (hlo : t.memStartBrk = s.memStartBrk) (hhi : t.memMaxAddr = s.memMaxAddr) :
    get t (nextPtr x.ptr) = some (t.mem.load32 x.ptr) := by
  have := x.size_ge
  rw [h.nextPtr_eq hx, get_eq (h.inHeap_of_eq hx hlo hhi (by omega) (by omega))]

/-- The second link can be read. -/
theorem Blocks.get_prevPtr (h : Blocks s segs) (hx : x ∈ segs) {t : State}
    (hlo : t.memStartBrk = s.memStartBrk) (hhi : t.memMaxAddr = s.memMaxAddr) :
    get t (prevPtr x.ptr) = some (t.mem.load32 (x.ptr + 4)) := by
  have := x.size_ge
  rw [h.prevPtr_eq hx, get_eq (h.inHeap_of_eq hx hlo hhi (by omega) (by omega))]

/-- The first link can be written. -/
theorem Blocks.put_nextPtr (h : Blocks s segs) (hx : x ∈ segs) {t : State}
    (hlo : t.memStartBrk = s.memStartBrk) (hhi : t.memMaxAddr = s.memMaxAddr) (v : ℕ) :
    put t (nextPtr x.ptr) v = some (t.store x.ptr v) := by
  have := x.size_ge
  rw [h.nextPtr_eq hx, put_eq (h.inHeap_of_eq hx hlo hhi (by omega) (by omega))]

/-- The second link can be written. -/
theorem Blocks.put_prevPtr (h : Blocks s segs) (hx : x ∈ segs) {t : State}
    (hlo : t.memStartBrk = s.memStartBrk) (hhi : t.memMaxAddr = s.memMaxAddr) (v : ℕ) :
    put t (prevPtr x.ptr) v = some (t.store (x.ptr + 4) v) := by
  have := x.size_ge
  rw [h.prevPtr_eq hx, put_eq (h.inHeap_of_eq hx hlo hhi (by omega) (by omega))]

/-- No block is at `NULL`. -/
theorem Blocks.ptr_ne_null (h : Blocks s segs) (hx : x ∈ segs) : x.ptr ≠ NULL := by
  have hb := h.bounds hx
  simp only [NULL]
  omega

end links

/-- The links of a block are no tag bytes. -/
theorem Blocks.not_tagByte_of_linkByte (h : Blocks s segs) (hx : x ∈ segs) (hy : y ∈ segs)
    (hsize : 16 ≤ x.size) {a : ℕ} (ha : x.LinkByte a) : ¬ y.TagByte a := by
  have hbx := h.bounds hx
  have hby := h.bounds hy
  have := y.size_ge
  unfold Seg.LinkByte at ha
  unfold Seg.TagByte
  rcases h.disjoint hx hy with rfl | hd | hd <;> omega

/-- Bytes outside the links of blocks may change without harm to the tags. -/
theorem Blocks.of_linkBytes (h : Blocks s segs) {m' : Mem} {F : List Seg}
    (hF : ∀ z ∈ F, z ∈ segs ∧ 16 ≤ z.size)
    (hm : ∀ a, (∀ z ∈ F, ¬ z.LinkByte a) → m' a = s.mem a) : Blocks { s with mem := m' } segs := by
  apply h.of_mem
  · intro a h₁ h₂
    apply hm a
    intro z hz ha
    have := h.bounds (hF z hz).1
    unfold Seg.LinkByte at ha
    omega
  · intro a h₁ h₂
    apply hm a
    intro z hz ha
    have := h.bounds (hF z hz).1
    have := (hF z hz).2
    unfold Seg.LinkByte at ha
    omega
  · intro y hy _ a ha
    exact hm a fun z hz hl => h.not_tagByte_of_linkByte (hF z hz).1 hy (hF z hz).2 hl ha

/-- Writing links writes no tags. -/
theorem Blocks.tagged_of_linkBytes (h : Blocks s segs) {m' : Mem} {F : List Seg}
    (hF : ∀ z ∈ F, z ∈ segs ∧ 16 ≤ z.size)
    (hm : ∀ a, (∀ z ∈ F, ¬ z.LinkByte a) → m' a = s.mem a) (hx : x ∈ segs) {w : ℕ}
    (htag : x.Tagged s.mem w) : x.Tagged m' w := by
  have hb := h.bounds hx
  apply htag.congr (by omega)
  intro a ha
  apply hm a
  intro z hz hl
  exact h.not_tagByte_of_linkByte (hF z hz).1 hx (hF z hz).2 hl ha

/-- A block on the free list is a free segment. -/
theorem Rep.mem_segs (h : Rep s segs L) (hx : x ∈ L) : x ∈ segs := (h.mem_list.mp hx).1

/-- The nodes of the free list are blocks. -/
theorem Rep.isBlock (h : Rep s segs L) (hx : x ∈ L) : x.IsBlock :=
  Seg.IsBlock.of_isFree (h.mem_list.mp hx).2

/-- No block is on the free list twice. -/
theorem Rep.nodup_ptr (h : Rep s segs L) : (L.map Seg.ptr).Nodup := by
  have hnd : (segs.map Seg.ptr).Nodup :=
    h.blocks.tiles.nodup_map_start fun z _ => by have := z.size_ge; omega
  have hsub : ((segs.filter Seg.isFree).map Seg.ptr).Sublist (segs.map Seg.ptr) :=
    List.filter_sublist.map _
  exact (h.perm.map Seg.ptr).nodup_iff.mpr (hnd.sublist hsub)

/-- The free list is shorter than the number of pointers. -/
theorem Rep.length_lt (h : Rep s segs L) : L.length < 2 ^ 32 := by
  have hle := h.blocks.tiles.length_mul_le fun z _ => z.size_ge
  have hb := h.blocks.brk_le
  have hm := h.blocks.max_lt
  have hf : (segs.filter Seg.isFree).length ≤ segs.length := List.length_filter_le _ _
  rw [h.perm.length_eq]
  omega

/-! ## `find_fit` -/

/-- The recursion of `find_fit` from a pointer: the blocks whose `NEXT_PTR` it follows, in order,
and its result. -/
inductive FindFitRun (s : State) (size : ℕ) : ℕ → List ℕ → ℕ → Prop
  | null : FindFitRun s size NULL [] NULL
  | fits {p k : ℕ} : p ≠ NULL → getSize s (hdrp p) = some k → size ≤ k → FindFitRun s size p [] p
  | next {p q k r : ℕ} {ps : List ℕ} : p ≠ NULL → getSize s (hdrp p) = some k → k < size →
      get s (nextPtr p) = some q → FindFitRun s size q ps r → FindFitRun s size p (p :: ps) r

/-- The recursion computes its result in one call more than it follows links. -/
theorem FindFitRun.findFitFuel_eq {size p r : ℕ} {ps : List ℕ} (h : FindFitRun s size p ps r) :
    ∀ fuel, ps.length < fuel → findFitFuel fuel s size p = some r := by
  induction h with
  | null =>
      rintro (_ | fuel) hlen
      · exact absurd hlen (Nat.not_lt_zero _)
      · simp [findFitFuel]
  | fits hp hk hle =>
      rintro (_ | fuel) hlen
      · exact absurd hlen (Nat.not_lt_zero _)
      · simp [findFitFuel, hp, hk, hle]
  | next hp hk hlt hq _ ih =>
      rintro (_ | fuel) hlen
      · exact absurd hlen (Nat.not_lt_zero _)
      · simp [findFitFuel, hp, hk, hlt.not_ge, hq, ih fuel (by simpa using hlen)]

/-- The search along linked blocks follows the links of the blocks that are too small. -/
theorem findFitRun_of_linked (h : Blocks s segs) {size : ℕ} (hy : size ≤ y.size) (A B : List Seg)
    (hmem : ∀ z ∈ A ++ y :: B, z ∈ segs ∧ z.IsBlock)
    (hlink : Linked s.mem.load32 (fun p => s.mem.load32 (p + 4)) ((A ++ y :: B).map Seg.ptr))
    (hlt : ∀ z ∈ A, z.size < size) :
    FindFitRun s size (((A ++ y :: B).map Seg.ptr).headD NULL) (A.map Seg.ptr) y.ptr := by
  induction A with
  | nil =>
      obtain ⟨hseg, hbl⟩ := hmem y (by simp)
      exact .fits (h.ptr_ne_null hseg) (h.getSize_eq hseg hbl) hy
  | cons z A ih =>
      obtain ⟨hseg, hbl⟩ := hmem z (by simp)
      have hnext : s.mem.load32 z.ptr = ((A ++ y :: B).map Seg.ptr).headD NULL := by
        cases A with
        | nil => exact (Linked.cons_cons_iff.mp hlink).1.1
        | cons w A => exact (Linked.cons_cons_iff.mp hlink).1.1
      refine .next (h.ptr_ne_null hseg) (h.getSize_eq hseg hbl) (hlt z List.mem_cons_self)
        ((h.get_nextPtr hseg rfl rfl).trans (congrArg some hnext)) ?_
      exact ih (fun w hw => hmem w (List.mem_cons_of_mem _ hw)) (List.IsChain.tail hlink)
        fun w hw => hlt w (List.mem_cons_of_mem _ hw)

/-- `find_fit` from the root follows the links of the blocks in front of the first one that is large
enough. -/
theorem Rep.findFitRun (h : Rep s segs (L₁ ++ y :: L₂)) {size : ℕ} (hy : size ≤ y.size)
    (hlt : ∀ z ∈ L₁, z.size < size) :
    FindFitRun s size s.freeListRoot (L₁.map Seg.ptr) y.ptr := by
  rw [h.list.root]
  exact findFitRun_of_linked h.blocks hy L₁ L₂ (fun z hz => ⟨h.mem_segs hz, h.isBlock hz⟩)
    h.list.linked hlt

/-- `find_fit` from the root returns the first block of the list that is large enough. -/
theorem findFit_eq (h : Rep s segs (L₁ ++ y :: L₂)) {size : ℕ} (hy : size ≤ y.size)
    (hlt : ∀ z ∈ L₁, z.size < size) : findFit s size s.freeListRoot = some y.ptr := by
  refine (h.findFitRun hy hlt).findFitFuel_eq _ ?_
  have := h.length_lt
  rw [List.length_append] at this
  rw [List.length_map]
  omega

/-- The first block that is large enough, when the last one is. -/
theorem exists_first_fit {size : ℕ} (hx : x ∈ L) (hsize : size ≤ x.size) :
    ∃ L₁ y L₂, L = L₁ ++ y :: L₂ ∧ size ≤ y.size ∧ ∀ z ∈ L₁, z.size < size := by
  cases hf : L.find? fun z => size ≤ z.size with
  | none =>
      have := List.find?_eq_none.mp hf x hx
      simp [hsize] at this
  | some y =>
      obtain ⟨hy, A, B, rfl, hA⟩ := List.find?_eq_some_iff_append.mp hf
      refine ⟨A, y, B, rfl, by simpa using hy, fun z hz => ?_⟩
      have := hA z hz
      simpa using this

/-! ## `add_free_block` -/

/-- The two heap bounds of a state. -/
def State.SameBounds (s s' : State) : Prop :=
  s'.memStartBrk = s.memStartBrk ∧ s'.memBrk = s.memBrk

/-- The ends of the free list are no part of the layout. -/
theorem Blocks.withList (h : Blocks s segs) (r e : ℕ) :
    Blocks { s with freeListRoot := r, freeListEnd := e } segs :=
  ⟨h.start_mod, h.max_eq, h.max_lt, h.brk_le, h.listp, h.prologue, h.epilogue, h.tiles, h.tags⟩

/-- A raw segment tagged as a free block joins the list between `L₁` and `L₂`: only links are
written, those at the seam as they must be and the other inner ones not at all. -/
theorem Rep.insertFree (h : Rep s (l₁ ++ x :: l₂) (L₁ ++ L₂)) (hx : x.kind = .raw)
    (hy : y.kind = .free) (hptr : y.ptr = x.ptr) (hsize : y.size = x.size)
    (htag : x.Tagged s.mem x.size) {m : Mem} {r e : ℕ}
    (hm : ∀ a, (∀ z ∈ x :: (L₁ ++ L₂), ¬ z.LinkByte a) → m a = s.mem a)
    (hle : ∀ z ∈ L₁, z.size ≤ x.size) (hge : ∀ z ∈ L₂, x.size ≤ z.size)
    (hnext : ∀ z ∈ L₁.dropLast ++ L₂.dropLast, m.load32 z.ptr = s.mem.load32 z.ptr)
    (hprev : ∀ z ∈ L₁.tail ++ L₂.tail, m.load32 (z.ptr + 4) = s.mem.load32 (z.ptr + 4))
    (hleft : ∀ z ∈ L₁.getLast?, m.load32 z.ptr = x.ptr ∧ m.load32 (x.ptr + 4) = z.ptr)
    (hright : ∀ z ∈ L₂.head?, m.load32 x.ptr = z.ptr ∧ m.load32 (z.ptr + 4) = x.ptr)
    (hr : r = ((L₁ ++ y :: L₂).map Seg.ptr).headD NULL)
    (he : e = ((L₁ ++ y :: L₂).map Seg.ptr).getLastD NULL) :
    Rep { s with mem := m, freeListRoot := r, freeListEnd := e } (l₁ ++ y :: l₂)
      (L₁ ++ y :: L₂) where
  blocks := by
    have hyb : y.IsBlock := by simp [Seg.IsBlock, hy]
    have h16 : 16 ≤ x.size := hsize ▸ hyb.size_ge
    have hmem : x ∈ l₁ ++ x :: l₂ := by simp
    have hF : ∀ z ∈ x :: (L₁ ++ L₂), z ∈ l₁ ++ x :: l₂ ∧ 16 ≤ z.size := by
      intro z hz
      rcases List.mem_cons.mp hz with rfl | hz
      · exact ⟨hmem, h16⟩
      · exact ⟨h.mem_segs hz, (h.isBlock hz).size_ge⟩
    have htag' : x.Tagged m x.size := h.blocks.tagged_of_linkBytes hF hm hmem htag
    have hnew : Blocks { s with mem := m } (l₁ ++ [y] ++ l₂) := by
      refine (h.blocks.of_linkBytes hF hm).replace ⟨hptr, by rw [Tiles.nil_iff, hsize]⟩ ?_
      intro z hz _
      obtain rfl := List.mem_singleton.mp hz
      rw [Seg.word_free hy]
      unfold Seg.Tagged
      rw [hptr, hsize]
      exact htag'
    rw [List.append_assoc] at hnew
    exact hnew.withList r e
  list := by
    refine ⟨?_, ?_, hr, he⟩
    · have hs := List.pairwise_append.mp h.list.sorted
      rw [List.pairwise_append]
      refine ⟨hs.1, List.pairwise_cons.mpr ⟨fun z hz => ?_, hs.2.1⟩, ?_⟩
      · rw [hsize]
        exact hge z hz
      · intro z hz w hw
        rcases List.mem_cons.mp hw with rfl | hw
        · rw [hsize]
          exact hle z hz
        · exact hs.2.2 z hz w hw
    · have hlinked := h.list.linked
      rw [List.map_append] at hlinked
      rw [List.map_append, List.map_cons, hptr]
      apply hlinked.insert
      · rw [← List.map_dropLast, ← List.map_dropLast, ← List.map_append]
        intro p hp
        obtain ⟨z, hz, rfl⟩ := List.mem_map.mp hp
        exact hnext z hz
      · rw [← List.map_tail, ← List.map_tail, ← List.map_append]
        intro p hp
        obtain ⟨z, hz, rfl⟩ := List.mem_map.mp hp
        exact hprev z hz
      · intro p hp
        rw [List.getLast?_map, Option.mem_map] at hp
        obtain ⟨z, hz, rfl⟩ := hp
        exact hleft z hz
      · intro p hp
        rw [List.head?_map, Option.mem_map] at hp
        obtain ⟨z, hz, rfl⟩ := hp
        exact hright z hz
  perm := by
    have hxf : x.isFree = false := by simp [Seg.isFree, hx]
    have hyf : y.isFree = true := by simp [Seg.isFree, hy]
    have hp := h.perm
    rw [List.filter_append, List.filter_cons_of_neg (by simp [hxf])] at hp
    rw [List.filter_append, List.filter_cons_of_pos hyf]
    exact List.perm_middle.trans ((hp.cons y).trans List.perm_middle.symm)

/-- A raw segment is not on the free list. -/
theorem Rep.ptr_ne_of_raw (h : Rep s segs L) (hmem : x ∈ segs) (hx : x.kind = .raw) (hz : z ∈ L) :
    z.ptr ≠ x.ptr := by
  intro hzx
  obtain rfl := h.blocks.eq_of_ptr_eq (h.mem_segs hz) hmem hzx
  exact h.isBlock hz hx

section add

variable (h : Rep s segs L) (hmem : x ∈ segs)

include h hmem

/-- The only block is root and end. -/
theorem addFreeBlock_nil (hL : L = []) :
    addFreeBlock s x.ptr = some { s with freeListRoot := x.ptr, freeListEnd := x.ptr } := by
  subst hL
  have hroot : s.freeListRoot = NULL := h.list.root
  have hend : s.freeListEnd = NULL := h.list.end_
  simp [addFreeBlock, h.blocks.ptr_ne_null hmem, hroot, hend]

variable (hsize : getSize s (hdrp x.ptr) = some x.size)

include hsize

/-- A block no larger than the root becomes the root. -/
theorem addFreeBlock_front {b : Seg} {B : List Seg} (hL : L = b :: B) (hle : x.size ≤ b.size) :
    addFreeBlock s x.ptr =
      some { (s.store x.ptr b.ptr).store (b.ptr + 4) x.ptr with freeListRoot := x.ptr } := by
  subst hL
  have hb := h.mem_segs (x := b) (by simp)
  have hroot : s.freeListRoot = b.ptr := h.list.root
  simp [addFreeBlock, h.blocks.ptr_ne_null hmem, hroot, h.blocks.ptr_ne_null hb, hsize,
    h.blocks.getSize_eq hb (h.isBlock (by simp)), hle, h.blocks.put_nextPtr hmem,
    h.blocks.put_prevPtr hb]

/-- A block larger than the root and no smaller than the end becomes the end. -/
theorem addFreeBlock_back {b e : Seg} {A B : List Seg} (hL : L = b :: B) (hL' : L = A ++ [e])
    (hgt : b.size < x.size) (hge : e.size ≤ x.size) :
    addFreeBlock s x.ptr =
      some { (s.store (x.ptr + 4) e.ptr).store e.ptr x.ptr with freeListEnd := x.ptr } := by
  have hb := h.mem_segs (x := b) (by simp [hL])
  have he := h.mem_segs (x := e) (by simp [hL'])
  have hroot : s.freeListRoot = b.ptr := by rw [h.list.root, hL]; rfl
  have hend : s.freeListEnd = e.ptr := by rw [h.list.end_, hL']; simp
  simp [addFreeBlock, h.blocks.ptr_ne_null hmem, hroot, hend, h.blocks.ptr_ne_null hb, hsize,
    h.blocks.getSize_eq hb (h.isBlock (by simp [hL])), hgt.not_ge,
    h.blocks.getSize_eq he (h.isBlock (by simp [hL'])), hge, h.blocks.put_nextPtr he,
    h.blocks.put_prevPtr hmem]

/-- Any other block goes before the first block `y` that is no smaller, after its predecessor. -/
theorem addFreeBlock_middle {b e q y : Seg} {A B C D : List Seg} (hL : L = b :: B)
    (hL' : L = A ++ [e]) (hLy : L = C ++ q :: y :: D) (hgt : b.size < x.size)
    (hlt : x.size < e.size) (hy : x.size ≤ y.size) (hC : ∀ z ∈ C ++ [q], z.size < x.size) :
    addFreeBlock s x.ptr = some ((((s.store x.ptr y.ptr).store (x.ptr + 4) q.ptr).store
      q.ptr x.ptr).store (y.ptr + 4) x.ptr) := by
  have hb := h.mem_segs (x := b) (by simp [hL])
  have he := h.mem_segs (x := e) (by simp [hL'])
  have hq := h.mem_segs (x := q) (by simp [hLy])
  have hyL : y ∈ L := by simp [hLy]
  have hys := h.mem_segs hyL
  have hroot : s.freeListRoot = b.ptr := by rw [h.list.root, hL]; rfl
  have hend : s.freeListEnd = e.ptr := by rw [h.list.end_, hL']; simp
  have hfind : findFit s x.size b.ptr = some y.ptr := by
    have hLy' : L = (C ++ [q]) ++ y :: D := by simp [hLy]
    rw [← hroot]
    exact findFit_eq (hLy' ▸ h) hy hC
  have hprev : s.mem.load32 (y.ptr + 4) = q.ptr := by
    have hlinked := h.list.linked
    rw [hLy, List.map_append] at hlinked
    exact (Linked.cons_cons_iff.mp (Linked.append_iff.mp hlinked).2.1).1.2
  have hqlt := h.blocks.bounds hq
  have h₁ : (s.mem.store32 x.ptr y.ptr).load32 (y.ptr + 4) = q.ptr := by
    have := x.ptr_mod
    have := y.ptr_mod
    rw [Mem.load32_store32_of_ne (by omega) (by omega) (by omega), hprev]
  have h₂ : ((s.mem.store32 x.ptr y.ptr).store32 (x.ptr + 4) q.ptr).load32 (x.ptr + 4) = q.ptr :=
    Mem.load32_store32_self (by omega)
  simp [addFreeBlock, h.blocks.ptr_ne_null hmem, hroot, hend, h.blocks.ptr_ne_null hb, hsize,
    h.blocks.getSize_eq hb (h.isBlock (by simp [hL])), hgt.not_ge,
    h.blocks.getSize_eq he (h.isBlock (by simp [hL'])), hlt.not_ge, hfind,
    h.blocks.put_nextPtr hmem, h.blocks.put_prevPtr hmem, h.blocks.get_prevPtr hmem,
    h.blocks.get_prevPtr hys, h.blocks.put_prevPtr hys, h.blocks.put_nextPtr hq, h₁, h₂]

end add

/-- Writing the next link of a block changes its links only. -/
theorem Seg.store_next_of_not_linkByte {m : Mem} {a v : ℕ} (h : ¬ z.LinkByte a) :
    m.store32 z.ptr v a = m a := by
  unfold LinkByte at h
  exact Mem.store32_apply_of_not_mem (by omega)

/-- Writing the previous link of a block changes its links only. -/
theorem Seg.store_prev_of_not_linkByte {m : Mem} {a v : ℕ} (h : ¬ z.LinkByte a) :
    m.store32 (z.ptr + 4) v a = m a := by
  unfold LinkByte at h
  exact Mem.store32_apply_of_not_mem (by omega)

/-- Different blocks of the list have different pointers. -/
theorem Rep.pairwise_ptr_ne (h : Rep s segs L) : L.Pairwise fun a b => a.ptr ≠ b.ptr :=
  List.pairwise_map.mp h.nodup_ptr

section insert

variable (hx : x.kind = .raw) (hy : y.kind = .free) (hptr : y.ptr = x.ptr) (hsize : y.size = x.size)
  (htag : x.Tagged s.mem x.size)

include hx hy hptr hsize htag

/-- The memory of `addFreeBlock_front` represents the list with `x` in front. -/
theorem Rep.insertFront {b : Seg} {B : List Seg} (h : Rep s (l₁ ++ x :: l₂) (b :: B))
    (hle : x.size ≤ b.size) :
    Rep { (s.store x.ptr b.ptr).store (b.ptr + 4) x.ptr with freeListRoot := x.ptr }
      (l₁ ++ y :: l₂) (y :: b :: B) := by
  have hmem : x ∈ l₁ ++ x :: l₂ := by simp
  have hb := h.mem_segs (x := b) (by simp)
  have hxlt := h.blocks.bounds hmem
  have hblt := h.blocks.bounds hb
  have hxmod := x.ptr_mod
  have hbmod := b.ptr_mod
  have hne : ∀ z ∈ b :: B, z.ptr ≠ x.ptr := fun z hz => h.ptr_ne_of_raw hmem hx hz
  have hbB := (List.pairwise_cons.mp h.pairwise_ptr_ne).1
  have hsorted := (List.pairwise_cons.mp h.list.sorted).1
  have h' : Rep s (l₁ ++ x :: l₂) ([] ++ b :: B) := h
  refine Rep.insertFree h' hx hy hptr hsize htag ?_ (by simp) ?_ ?_ ?_ (by simp) ?_
    (by simp [hptr]) ?_
  · intro a ha
    simp [Seg.store_prev_of_not_linkByte (ha b (by simp)),
      Seg.store_next_of_not_linkByte (ha x (by simp))]
  · intro z hz
    rcases List.mem_cons.mp hz with rfl | hz
    · exact hle
    · exact hle.trans (hsorted z hz)
  · intro z hz
    have hzL := List.dropLast_subset _ hz
    have hzmod := z.ptr_mod
    have := hne z hzL
    simp (disch := omega) [Mem.load32_store32_of_ne]
  · intro z hz
    have hzB : z ∈ B := hz
    have hzmod := z.ptr_mod
    have := hbB z hzB
    simp (disch := omega) [Mem.load32_store32_of_ne]
  · intro z hz
    obtain rfl : b = z := by simpa using hz
    simp (disch := omega) [Mem.load32_store32_of_ne, Mem.load32_store32_self]
  · have hend := h.list.end_
    simpa using hend

/-- The memory of `addFreeBlock_back` represents the list with `x` at the end. -/
theorem Rep.insertBack {e : Seg} {A : List Seg} (h : Rep s (l₁ ++ x :: l₂) (A ++ [e]))
    (hge : e.size ≤ x.size) :
    Rep { (s.store (x.ptr + 4) e.ptr).store e.ptr x.ptr with freeListEnd := x.ptr }
      (l₁ ++ y :: l₂) (A ++ [e] ++ [y]) := by
  have hmem : x ∈ l₁ ++ x :: l₂ := by simp
  have he := h.mem_segs (x := e) (by simp)
  have hxlt := h.blocks.bounds hmem
  have helt := h.blocks.bounds he
  have hxmod := x.ptr_mod
  have hemod := e.ptr_mod
  have hne : ∀ z ∈ A ++ [e], z.ptr ≠ x.ptr := fun z hz => h.ptr_ne_of_raw hmem hx hz
  have hAe : ∀ z ∈ A, z.ptr ≠ e.ptr := fun z hz =>
    (List.pairwise_append.mp h.pairwise_ptr_ne).2.2 z hz e (by simp)
  have hsorted : ∀ z ∈ A, z.size ≤ e.size := fun z hz =>
    (List.pairwise_append.mp h.list.sorted).2.2 z hz e (by simp)
  have h' : Rep s (l₁ ++ x :: l₂) (A ++ [e] ++ []) := by simpa using h
  refine Rep.insertFree h' hx hy hptr hsize htag ?_ ?_ (by simp) ?_ ?_ ?_ (by simp) ?_
    (by simp [hptr])
  · intro a ha
    simp [Seg.store_next_of_not_linkByte (ha e (by simp)),
      Seg.store_prev_of_not_linkByte (ha x (by simp))]
  · intro z hz
    rcases List.mem_append.mp hz with hz | hz
    · exact (hsorted z hz).trans hge
    · obtain rfl := List.mem_singleton.mp hz
      exact hge
  · intro z hz
    have hzA : z ∈ A := by simpa using hz
    have hzmod := z.ptr_mod
    have := hAe z hzA
    simp (disch := omega) [Mem.load32_store32_of_ne]
  · intro z hz
    have hzL : z ∈ A ++ [e] := List.mem_of_mem_tail (by simpa using hz)
    have hzmod := z.ptr_mod
    have := hne z hzL
    simp (disch := omega) [Mem.load32_store32_of_ne]
  · intro z hz
    obtain rfl : e = z := by simpa using hz
    simp (disch := omega) [Mem.load32_store32_of_ne, Mem.load32_store32_self]
  · have hroot := h.list.root
    cases A <;> simpa using hroot

/-- The memory of `addFreeBlock_middle` represents the list with `x` between `q` and `b`. -/
theorem Rep.insertMiddle {b q : Seg} {C D : List Seg}
    (h : Rep s (l₁ ++ x :: l₂) (C ++ q :: b :: D)) (hC : ∀ z ∈ C ++ [q], z.size < x.size)
    (hle : x.size ≤ b.size) :
    Rep
      ((((s.store x.ptr b.ptr).store (x.ptr + 4) q.ptr).store q.ptr x.ptr).store (b.ptr + 4) x.ptr)
      (l₁ ++ y :: l₂) (C ++ [q] ++ y :: b :: D) := by
  have hmem : x ∈ l₁ ++ x :: l₂ := by simp
  have hxlt := h.blocks.bounds hmem
  have hblt := h.blocks.bounds (h.mem_segs (x := b) (by simp))
  have hqlt := h.blocks.bounds (h.mem_segs (x := q) (by simp))
  have hxmod := x.ptr_mod
  have hbmod := b.ptr_mod
  have hqmod := q.ptr_mod
  have hne : ∀ z ∈ C ++ q :: b :: D, z.ptr ≠ x.ptr := fun z hz => h.ptr_ne_of_raw hmem hx hz
  have hbx := hne b (by simp)
  have hqx := hne q (by simp)
  obtain ⟨-, hqbD, hCq⟩ := List.pairwise_append.mp h.pairwise_ptr_ne
  obtain ⟨hq, hbD⟩ := List.pairwise_cons.mp hqbD
  have hb := (List.pairwise_cons.mp hbD).1
  have hqb := hq b (by simp)
  have hsorted := (List.pairwise_cons.mp (List.pairwise_cons.mp
    (List.pairwise_append.mp h.list.sorted).2.1).2).1
  have h' : Rep s (l₁ ++ x :: l₂) (C ++ [q] ++ b :: D) := by simpa using h
  have hroot := h.list.root
  have hend := h.list.end_
  have := Rep.insertFree h' hx hy hptr hsize htag (r := s.freeListRoot) (e := s.freeListEnd)
    (m := (((s.mem.store32 x.ptr b.ptr).store32 (x.ptr + 4) q.ptr).store32 q.ptr x.ptr).store32
      (b.ptr + 4) x.ptr) ?_ ?_ ?_ ?_ ?_ ?_ ?_ ?_ ?_
  · exact this
  · intro a ha
    rw [Seg.store_prev_of_not_linkByte (ha b (by simp)),
      Seg.store_next_of_not_linkByte (ha q (by simp)),
      Seg.store_prev_of_not_linkByte (ha x (by simp)),
      Seg.store_next_of_not_linkByte (ha x (by simp))]
  · intro z hz
    exact (hC z hz).le
  · intro z hz
    rcases List.mem_cons.mp hz with rfl | hz
    · exact hle
    · exact hle.trans (hsorted z hz)
  · intro z hz
    have hzmod := z.ptr_mod
    have hzx : z.ptr ≠ x.ptr ∧ z.ptr ≠ q.ptr := by
      rcases List.mem_append.mp hz with hz | hz
      · have hzC : z ∈ C := by simpa using hz
        exact ⟨hne z (by simp [hzC]), hCq z hzC q (by simp)⟩
      · have hzD := List.dropLast_subset _ hz
        exact ⟨hne z (by simp at hzD ⊢; grind), (hq z hzD).symm⟩
    obtain ⟨hzx, hzq⟩ := hzx
    simp (disch := omega) only [Mem.load32_store32_of_ne]
  · intro z hz
    have hzmod := z.ptr_mod
    have hzx : z.ptr ≠ x.ptr ∧ z.ptr ≠ b.ptr := by
      rcases List.mem_append.mp hz with hz | hz
      · have hzC := List.mem_of_mem_tail hz
        refine ⟨hne z (by simp at hzC ⊢; grind), ?_⟩
        rcases List.mem_append.mp hzC with hzC | hzq
        · exact hCq z hzC b (by simp)
        · obtain rfl := List.mem_singleton.mp hzq
          exact hqb
      · have hzD : z ∈ D := hz
        exact ⟨hne z (by simp [hzD]), (hb z hzD).symm⟩
    obtain ⟨hzx, hzb⟩ := hzx
    simp (disch := omega) only [Mem.load32_store32_of_ne]
  · intro z hz
    obtain rfl : q = z := by simpa using hz
    simp (disch := omega) only [Mem.load32_store32_of_ne, Mem.load32_store32_self, and_self]
  · intro z hz
    obtain rfl : b = z := by simpa using hz
    simp (disch := omega) only [Mem.load32_store32_of_ne, Mem.load32_store32_self, and_self]
  · cases C <;> simpa using hroot
  · rw [hend]
    simp [List.getLastD_eq_getLast?]

end insert

/-- `add_free_block` puts a raw segment with the tags of a free block on the list, at a place that
keeps the list sorted. It writes links of free blocks only. -/
theorem addFreeBlock_spec (h : Rep s (l₁ ++ x :: l₂) L) (hx : x.kind = .raw)
    (hy : y.kind = .free) (hptr : y.ptr = x.ptr) (hsize : y.size = x.size)
    (htag : x.Tagged s.mem x.size) :
    ∃ s' L₁ L₂, addFreeBlock s x.ptr = some s' ∧ L = L₁ ++ L₂ ∧
      Rep s' (l₁ ++ y :: l₂) (L₁ ++ y :: L₂) ∧ s.SameBounds s' ∧
      ∀ a, (∀ z ∈ x :: L, ¬ z.LinkByte a) → s'.mem a = s.mem a := by
  have hmem : x ∈ l₁ ++ x :: l₂ := by simp
  have hxsize : getSize s (hdrp x.ptr) = some x.size :=
    h.blocks.getSize_of_tagged hmem htag (by have := x.size_mod; omega)
  rcases List.eq_nil_or_concat L with rfl | ⟨A, e, hA⟩
  · refine ⟨_, [], [], addFreeBlock_nil h hmem rfl, rfl, ?_, ⟨rfl, rfl⟩, fun _ _ => rfl⟩
    have h' : Rep s (l₁ ++ x :: l₂) ([] ++ []) := h
    exact Rep.insertFree h' hx hy hptr hsize htag (fun _ _ => rfl) (by simp)
      (by simp) (by simp) (by simp) (by simp) (by simp) (by simp [hptr]) (by simp [hptr])
  rw [List.concat_eq_append] at hA
  obtain ⟨b, B, hB⟩ : ∃ b B, L = b :: B := List.exists_cons_of_ne_nil (by simp [hA])
  by_cases hfront : x.size ≤ b.size
  · refine ⟨_, [], L, addFreeBlock_front h hmem hxsize hB hfront, rfl, ?_, ⟨rfl, rfl⟩, ?_⟩
    · subst hB
      exact h.insertFront hx hy hptr hsize htag hfront
    · intro a ha
      simp [Seg.store_prev_of_not_linkByte (ha b (by simp [hB])),
        Seg.store_next_of_not_linkByte (ha x (by simp))]
  by_cases hback : e.size ≤ x.size
  · refine ⟨_, L, [], addFreeBlock_back h hmem hxsize hB hA (by omega) hback, by simp, ?_,
      ⟨rfl, rfl⟩, ?_⟩
    · subst hA
      exact h.insertBack hx hy hptr hsize htag hback
    · intro a ha
      simp [Seg.store_next_of_not_linkByte (ha e (by simp [hA])),
        Seg.store_prev_of_not_linkByte (ha x (by simp))]
  · -- strictly between the two ends: the search finds a block that is not the root
    have hxe : x.size ≤ e.size := by omega
    obtain ⟨C, c, D, hC, hc, hCsize⟩ := exists_first_fit (x := e) (L := L) (by simp [hA]) hxe
    rcases List.eq_nil_or_concat C with rfl | ⟨C, q, rfl⟩
    · obtain ⟨rfl, -⟩ : b = c ∧ B = D := by simpa [hB] using hC
      exact absurd hc hfront
    rw [List.concat_eq_append] at hC hCsize
    have hLq : L = C ++ q :: c :: D := by simp [hC]
    refine ⟨_, C ++ [q], c :: D, addFreeBlock_middle h hmem hxsize hB hA hLq (by omega) (by omega)
      hc hCsize, hC, ?_, ⟨rfl, rfl⟩, ?_⟩
    · subst hLq
      exact h.insertMiddle hx hy hptr hsize htag hCsize hc
    · intro a ha
      simp [Seg.store_prev_of_not_linkByte (ha c (by simp [hC])),
        Seg.store_next_of_not_linkByte (ha q (by simp [hC])),
        Seg.store_prev_of_not_linkByte (ha x (by simp)),
        Seg.store_next_of_not_linkByte (ha x (by simp))]

end SystemsLabs.Malloclab
