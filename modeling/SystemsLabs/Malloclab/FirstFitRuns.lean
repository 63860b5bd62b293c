import SystemsLabs.Malloclab.FirstFitSteps
import SystemsLabs.Malloclab.Contract

/-!
# Clients of `mm-firstfit.c`

`Abs` ties the live pointers of a client to the layout of the heap, and `contract` shows that the
package serves its clients, `mm_realloc` included (`reallocServed`): that is the naive one, which
moves the block every time.

**Assumptions.** Those of `Contract`.
-/

namespace SystemsLabs.Malloclab.FirstFit

open SystemsLabs.Lib

variable {s s' : State} {segs segs' l₁ l₂ l₁' l₂' new : List Seg} {f p q x y z w : Seg}
  {live : List (ℕ × ℕ)} {a b n n₀ m i j maxAddr : ℕ}

/-! ## The live blocks of a layout -/

/-- The state and the live payloads of a client, and the layout they stand for. -/
structure Abs (s : State) (live : List (ℕ × ℕ)) (segs : List Seg) : Prop where
  heap : HeapObject s
  rep : Rep s segs
  live_iff : ∀ p n, (p, n) ∈ live ↔ Holds segs (.live n) p
  nodup : (live.map Prod.fst).Nodup

/-- Free blocks hold no payload. -/
theorem not_holds_of_free {l : List Seg} (h : ∀ z ∈ l, z.kind = .free) :
    ¬ Holds l (.live m) i := by
  rintro ⟨z, hz, hk, -⟩
  rw [h z hz] at hk
  cases hk

/-- `place` hands out one block. -/
theorem Placed.holds_iff (h : Placed f n new) :
    Holds new (.live m) j ↔ j = f.ptr ∧ m = n := by
  obtain ⟨x, rest, rfl, hk, hptr, hfree⟩ := h.head
  simp only [holds_cons, not_holds_of_free hfree, or_false, hk, hptr, Kind.live.injEq]
  constructor
  · rintro ⟨rfl, rfl⟩
    exact ⟨rfl, rfl⟩
  · rintro ⟨rfl, rfl⟩
    exact ⟨rfl, rfl⟩

/-- The live blocks after a request: those before it and the one handed out. -/
theorem MallocStep.live_iff (h : MallocStep segs s.memBrk maxAddr n i segs') (hr : Rep s segs)
    (hi : i ≠ NULL) : Holds segs' (.live m) j ↔ (j = i ∧ m = n) ∨ Holds segs (.live m) j := by
  cases h with
  | zero => exact absurd rfl hi
  | full => exact absurd rfl hi
  | fit l₁ l₂ new f _ hsegs hf _ hplaced =>
    have hfree : f.kind = .free := Seg.isFree_iff.mp (Bool.and_eq_true_iff.mp hf).1
    subst hsegs
    simp only [holds_append, holds_cons, hplaced.holds_iff, hfree, reduceCtorEq, false_and,
      false_or]
    rw [or_assoc, or_left_comm]
  | grow l₁ new x y _ _ hx hxptr _ _ hmerged hplaced =>
    have ht : Tiles Seg.ptr Seg.size (s.memStartBrk + 16) (segs ++ [x]) (s.memBrk + x.size) :=
      hr.blocks.tiles.concat hxptr
    obtain ⟨P, Q, hsegs, hQ, hfree, -⟩ := hmerged.exists_old hx ht
    have hP : ∀ z ∈ P, z.kind = .free := fun z hz => hfree z (by simp [hz])
    subst hsegs
    simp only [holds_append, hplaced.holds_iff, not_holds_of_free hP, or_false]
    exact or_comm

/-- Where the heap ends after a request. -/
theorem MallocStep.brk_le (h : MallocStep segs s.memBrk maxAddr n i segs') (hr : Rep s segs)
    {b : ℕ} (ht' : Tiles Seg.ptr Seg.size (s.memStartBrk + 16) segs' b) :
    b ≤ s.memBrk + demand n := by
  have ht := hr.blocks.tiles
  cases h with
  | zero =>
    rw [ht'.hi_unique ht]
    exact Nat.le_add_right _ _
  | full =>
    rw [ht'.hi_unique ht]
    exact Nat.le_add_right _ _
  | fit l₁ l₂ new f _ hsegs _ _ hplaced =>
    subst hsegs
    rw [ht'.hi_unique (ht.replace hplaced.tiles)]
    exact Nat.le_add_right _ _
  | grow l₁ new x y _ _ hx hxptr hxsize _ hmerged hplaced =>
    have hx' : Tiles Seg.ptr Seg.size (s.memStartBrk + 16) (segs ++ [x]) (s.memBrk + x.size) :=
      ht.concat hxptr
    obtain ⟨P, Q, hsegs, hQ, -, hold, -⟩ := hmerged.exists_old hx hx'
    obtain ⟨rfl, -⟩ := List.append_eq_nil_iff.mp hQ.symm
    have hcut : Tiles Seg.ptr Seg.size (s.memStartBrk + 16) (l₁ ++ (P ++ [x]) ++ [])
        (s.memBrk + x.size) := by
      rw [List.append_nil, ← List.append_assoc, ← hsegs]
      exact hx'
    have hnew := Tiles.splice hcut (by simp) hold hplaced.tiles
    rw [List.append_nil] at hnew
    rw [ht'.hi_unique hnew, hxsize]
    exact le_rfl

/-- A request that gets nothing has found the heap exhausted. -/
theorem MallocStep.exhausted (h : MallocStep segs s.memBrk maxAddr n NULL segs') (hr : Rep s segs)
    (hr' : Rep s' segs') (hn : n ≠ 0) : maxAddr < s.memBrk + demand n := by
  generalize hi : NULL = i at h
  cases h with
  | zero hzero => exact absurd hzero hn
  | full _ _ hfull => exact hfull
  | fit l₁ l₂ new f _ hsegs => exact absurd hi.symm (hr.blocks.ptr_ne_null (by simp [hsegs]))
  | grow l₁ new x y _ _ _ _ _ _ _ hplaced =>
    obtain ⟨u, rest, rfl, -, hptr, -⟩ := hplaced.head
    exact absurd (hptr.trans hi.symm) (hr'.blocks.ptr_ne_null (by simp))

/-- The block handed out was free, or lies above all blocks. -/
theorem MallocStep.fresh (h : MallocStep segs s.memBrk maxAddr n i segs') (hr : Rep s segs)
    (hi : i ≠ NULL) : ¬ Holds segs (.live m) i := by
  have hclash : ∀ {g : Seg}, g ∈ segs → g.kind = .free → g.ptr = i → ¬ Holds segs (.live m) i := by
    rintro g hg hk hptr ⟨z, hz, hzk, hzptr⟩
    rw [hr.blocks.eq_of_ptr_eq hz hg (hzptr.trans hptr.symm), hk] at hzk
    cases hzk
  cases h with
  | zero => exact absurd rfl hi
  | full => exact absurd rfl hi
  | fit l₁ l₂ new f _ hsegs hf _ hplaced =>
    exact hclash (by simp [hsegs]) (Seg.isFree_iff.mp (Bool.and_eq_true_iff.mp hf).1) rfl
  | grow l₁ new x y _ _ hx hxptr _ _ hmerged hplaced =>
    have ht : Tiles Seg.ptr Seg.size (s.memStartBrk + 16) (segs ++ [x]) (s.memBrk + x.size) :=
      hr.blocks.tiles.concat hxptr
    obtain ⟨P, Q, hsegs, hQ, hfree, hold, -⟩ := hmerged.exists_old hx ht
    cases P with
    | nil =>
      have hyx : x.ptr = y.ptr := hold.1
      rintro ⟨z, hz, -, hzptr⟩
      have hb := hr.blocks.bounds hz
      have := z.size_ge
      omega
    | cons u P =>
      have hyu : u.ptr = y.ptr := hold.1
      exact hclash (g := u) (by simp [hsegs]) (hfree u (by simp)) hyu

/-- The live blocks after a release. -/
theorem FreeStep.live_iff (h : FreeStep segs i segs') (hb : Blocks s segs) :
    Holds segs' (.live m) j ↔ j ≠ i ∧ Holds segs (.live m) j := by
  obtain ⟨l₁, l₂, l₁', l₂', x, f, y, n, rfl, hx, rfl, hf, hfptr, hfsize, hmerged⟩ := h
  have ht : Tiles Seg.ptr Seg.size (s.memStartBrk + 16) (l₁ ++ f :: l₂) s.memBrk := by
    have hnew : Tiles Seg.ptr Seg.size _ (l₁ ++ [f] ++ l₂) _ :=
      hb.tiles.replace ⟨hfptr, by rw [Tiles.nil_iff, hfsize]⟩
    simpa using hnew
  obtain ⟨P, Q, rfl, rfl, hfree, -, hy⟩ := hmerged.exists_old hf ht
  have hP : ∀ z ∈ P, z.kind = .free := fun z hz => hfree z (by simp [hz])
  have hQ : ∀ z ∈ Q, z.kind = .free := fun z hz => hfree z (by simp [hz])
  rw [hb.holds_ne_iff]
  simp only [holds_append, holds_cons, not_holds_of_free hP, not_holds_of_free hQ, hy, reduceCtorEq,
    false_and, false_or, or_false]

namespace Abs

/-- A live payload lies in the extent of its block, between the tags. -/
theorem payload (h : Abs s live segs) (hp : (i, n) ∈ live) :
    ∃ x ∈ segs, x.kind = .live n ∧ x.ptr = i ∧ n + 8 ≤ x.size := by
  obtain ⟨x, hx, hk, hptr⟩ := (h.live_iff i n).mp hp
  exact ⟨x, hx, hk, hptr, Seg.live_size hk⟩

/-- What the contract asks of a state. -/
theorem valid (h : Abs s live segs) : Valid s live where
  heap := h.heap
  start_le := h.rep.blocks.tiles.le
  brk_le := h.rep.blocks.brk_le
  payload := by
    rintro ⟨i, n⟩ hp
    obtain ⟨x, hx, -, rfl, hsize⟩ := h.payload hp
    have hb := h.rep.blocks.bounds hx
    refine ⟨x.ptr_mod, hb.1, ?_⟩
    dsimp only
    omega
  disjoint := by
    have hne : live.Pairwise fun b d => b.1 ≠ d.1 := List.pairwise_map.mp h.nodup
    apply hne.imp_of_mem
    rintro ⟨i, n⟩ ⟨j, m⟩ hp hq hpq
    obtain ⟨x, hx, -, rfl, hxsize⟩ := h.payload hp
    obtain ⟨y, hy, -, rfl, hysize⟩ := h.payload hq
    dsimp only at hpq ⊢
    rcases h.rep.blocks.disjoint hx hy with rfl | hd | hd
    · exact absurd rfl hpq
    · exact .inl (by omega)
    · exact .inr (by omega)
  nodup := h.nodup

/-- Payloads that a call does not release keep their bytes, if it writes in other blocks only. -/
theorem keeps (h : Abs s live segs) {kept : List (ℕ × ℕ)} (hkept : kept ⊆ live)
    (hlo : s'.memStartBrk = s.memStartBrk) (hbrk : s.memBrk ≤ s'.memBrk)
    (hframe : ∀ x ∈ segs, ∀ n, (x.ptr, n) ∈ kept → x.kind = .live n → ∀ a, x.Extent a →
      s'.mem a = s.mem a) : Keeps kept s s' where
  start_eq := hlo
  brk_le := hbrk
  mem_eq := by
    rintro ⟨i, n⟩ hp a hlo hhi
    obtain ⟨x, hx, hk, rfl, hsize⟩ := h.payload (hkept hp)
    apply hframe x hx n hp hk
    unfold Seg.Extent
    dsimp only at hlo hhi
    omega

/-- A live block and a free one have no byte in common. -/
theorem not_extent_free (h : Abs s live segs) (hx : x ∈ segs) (hk : x.kind = .live n)
    (ha : x.Extent a) : ∀ z ∈ segs, z.isFree = true → ¬ z.Extent a := by
  intro z hz hfree
  refine h.rep.blocks.not_extent hx hz ?_ ha
  rintro rfl
  rw [Seg.isFree_iff, hk] at hfree
  cases hfree

/-- A request. -/
theorem malloc (h : Abs s live segs) (hroom : Room s n) : ∃ s' i segs',
    mmMalloc s n = some (s', i) ∧ MallocStep segs s.memBrk s.memMaxAddr n i segs' ∧
    Keeps live s s' ∧ (s'.memBrk ≤ s.memBrk + demand n ∧
      (i = NULL → n ≠ 0 → s.memMaxAddr < s.memBrk + demand n)) ∧
    (i = NULL → s' = s ∧ segs' = segs) ∧ (i ≠ NULL → Abs s' ((i, n) :: live) segs') := by
  obtain ⟨s', i, segs', hret, hrep, hstep, hlo, hbrk, hnull, hframe⟩ :=
    mmMalloc_spec h.rep hroom.1 hroom.2
  have hmax : s'.memMaxAddr = s.memMaxAddr := by
    rw [hrep.blocks.max_eq, hlo, ← h.heap.max_eq]
  refine ⟨s', i, segs', hret, hstep, ?_, ⟨hstep.brk_le h.rep (hlo ▸ hrep.blocks.tiles), ?_⟩,
    fun hi => ⟨hnull hi, ?_⟩, fun hi => ⟨?_, hrep, ?_, ?_⟩⟩
  · refine h.keeps (List.Subset.refl _) hlo hbrk fun x hx k _ hk a ha => ?_
    have hb := h.rep.blocks.bounds hx
    refine hframe a ?_ (h.not_extent_free hx hk ha)
    unfold Seg.Extent at ha
    omega
  · rintro rfl hn
    exact hstep.exhausted h.rep hrep hn
  · cases hstep with
    | zero => rfl
    | full => rfl
    | fit l₁ l₂ new f _ hsegs =>
      exact absurd hi (h.rep.blocks.ptr_ne_null (by simp [hsegs]))
    | grow l₁ new x y _ _ _ _ _ _ _ hplaced =>
      obtain ⟨u, rest, rfl, -, hptr, -⟩ := hplaced.head
      exact absurd (hptr.trans hi) (hrep.blocks.ptr_ne_null (by simp))
  · exact ⟨hlo ▸ h.heap.start_mod, hlo ▸ h.heap.start_pos, hrep.blocks.max_eq, hrep.blocks.max_lt⟩
  · intro j m
    rw [hstep.live_iff h.rep hi, ← h.live_iff, List.mem_cons, Prod.mk.injEq]
  · rw [List.map_cons, List.nodup_cons]
    refine ⟨fun hmem => ?_, h.nodup⟩
    obtain ⟨⟨j, m⟩, hj, rfl⟩ := List.mem_map.mp hmem
    exact hstep.fresh h.rep hi ((h.live_iff j m).mp hj)

/-- A release. -/
theorem free (h : Abs s live segs) (hp : (i, n) ∈ live) : ∃ s' segs', mmFree s i = some s' ∧
    FreeStep segs i segs' ∧ Keeps (live.filter (·.1 ≠ i)) s s' ∧ s'.memBrk = s.memBrk ∧
    Abs s' (live.filter (·.1 ≠ i)) segs' := by
  obtain ⟨x, hx, hk, rfl, -⟩ := h.payload hp
  obtain ⟨m', segs', hret, hrep, hstep, hframe⟩ := mmFree_spec h.rep hx hk
  refine ⟨_, segs', hret, hstep, ?_, rfl, ⟨⟨h.heap.start_mod, h.heap.start_pos, h.heap.max_eq,
    h.heap.max_lt⟩, hrep, ?_, ?_⟩⟩
  · refine h.keeps List.filter_sublist.subset rfl le_rfl fun y hy k hmem hyk a ha => ?_
    have hne : y.ptr ≠ x.ptr := by simpa using (List.mem_filter.mp hmem).2
    refine hframe a (h.rep.blocks.not_extent hy hx ?_ ha) (h.not_extent_free hy hyk ha)
    rintro rfl
    exact hne rfl
  · intro j m
    rw [hstep.live_iff h.rep.blocks, ← h.live_iff, List.mem_filter, decide_eq_true_iff, and_comm]
  · exact h.nodup.sublist (List.filter_sublist.map _)

/-- Writes inside a live payload. -/
theorem write (h : Abs s live segs) (hp : (i, n) ∈ live) {m' : Mem}
    (hm : ∀ a, a < i ∨ i + n ≤ a → m' a = s.mem a) : Abs { s with mem := m' } live segs where
  heap := ⟨h.heap.start_mod, h.heap.start_pos, h.heap.max_eq, h.heap.max_lt⟩
  rep := by
    obtain ⟨x, hx, hk, rfl, hsize⟩ := h.payload hp
    have hb := h.rep.blocks.bounds hx
    refine ⟨h.rep.blocks.of_mem (fun a _ _ => hm a (by omega)) (fun a _ _ => hm a (by omega)) ?_,
      h.rep.isBlock, h.rep.apart⟩
    intro y hy hyb a ha
    have hby := h.rep.blocks.bounds hy
    have hext := ha.extent
    unfold Seg.Extent at hext
    apply hm
    rcases h.rep.blocks.disjoint hx hy with rfl | hd | hd
    · unfold Seg.TagByte at ha
      omega
    · omega
    · omega
  live_iff := h.live_iff
  nodup := h.nodup

/-- `memcpy` from one live block into the payload of another. -/
theorem memcpy_eq (h : Abs s live segs) (hx : x ∈ segs) (hq : (j, m) ∈ live) (hne : x.ptr ≠ j)
    (ha : 1 ≤ a) (hax : a ≤ x.size) (ham : a ≤ m) :
    memcpy s j x.ptr a = some { s with mem := s.mem.copy j x.ptr a } := by
  obtain ⟨y, hy, -, rfl, hysize⟩ := h.payload hq
  have hbx := h.rep.blocks.bounds hx
  have hby := h.rep.blocks.bounds hy
  have hdisj : y.ptr + a ≤ x.ptr ∨ x.ptr + a ≤ y.ptr := by
    rcases h.rep.blocks.disjoint hx hy with rfl | hd | hd
    · exact absurd rfl hne
    · exact .inr (by omega)
    · exact .inl (by omega)
  unfold memcpy
  rw [if_neg (by omega), if_pos ⟨by omega, by omega, by omega, by omega, hdisj⟩]

/-- `mm_realloc`: a request, a copy, and a release; or the package gives up. -/
theorem realloc (h : Abs s live segs) (hp : (i, n₀) ∈ live) (hn : 1 ≤ n) (hroom : Room s n) :
    (mmMalloc s n = some (s, NULL) ∧ s.memMaxAddr < s.memBrk + demand n ∧
      mmRealloc s i n = .error (.exit "ERROR: mm_malloc failed in mm_realloc")) ∨
    ∃ s' q segs₁ segs', mmRealloc s i n = .ok (s', q) ∧ q ≠ NULL ∧
      MallocStep segs s.memBrk s.memMaxAddr n q segs₁ ∧
      (∃ brk, Tiles Seg.ptr Seg.size (s.memStartBrk + 16) segs₁ brk) ∧ FreeStep segs₁ i segs' ∧
      Abs s' ((q, n) :: live.filter (·.1 ≠ i)) segs' ∧ Keeps (live.filter (·.1 ≠ i)) s s' ∧
      s'.memBrk ≤ s.memBrk + demand n ∧ ∀ t, t < n₀ → t < n → s'.mem (q + t) = s.mem (i + t) := by
  obtain ⟨s₁, q, segs₁, hret, hstep, hkeep, ⟨hgrow, hfull⟩, hnull, habs⟩ := h.malloc hroom
  by_cases hq : q = NULL
  · left
    obtain ⟨rfl, -⟩ := hnull hq
    refine ⟨by rw [hret, hq], hfull hq (by omega), ?_⟩
    unfold mmRealloc
    rw [hret, hq]
    rfl
  right
  have h₁ := habs hq
  have hqmem : (q, n) ∈ (q, n) :: live := List.mem_cons_self
  have hpmem : (i, n₀) ∈ (q, n) :: live := List.mem_cons_of_mem _ hp
  have hqi : i ≠ q := by
    rintro rfl
    have hnd := h₁.nodup
    rw [List.map_cons, List.nodup_cons] at hnd
    have hmem : i ∈ live.map Prod.fst := List.mem_map_of_mem (f := Prod.fst) hp
    exact hnd.1 hmem
  obtain ⟨x, hx, hk, rfl, hxsize⟩ := h₁.payload hpmem
  -- the copy
  have hsize : getSize s₁ (hdrp x.ptr) = some x.size :=
    h₁.rep.blocks.getSize_eq hx (h₁.rep.isBlock x hx)
  obtain ⟨k, hkdef⟩ : ∃ k, k = if n < x.size then n else x.size := ⟨_, rfl⟩
  have hkle : k ≤ n ∧ k ≤ x.size ∧ 1 ≤ k ∧ (n ≤ k ∨ x.size ≤ k) := by
    have := x.size_ge
    rw [hkdef]
    split_ifs <;> omega
  have hcpy := h₁.memcpy_eq hx hqmem hqi hkle.2.2.1 hkle.2.1 hkle.1
  have hcopied : ∀ a, a < q ∨ q + n ≤ a → s₁.mem.copy q x.ptr k a = s₁.mem a := by
    intro a ha
    exact Mem.copy_apply_of_not_mem (by omega)
  have h₂ := h₁.write hqmem hcopied
  -- the release
  obtain ⟨s₃, segs', hfree, hfstep, hkeep', hbrk, h₃⟩ := h₂.free hpmem
  have hfilter : ((q, n) :: live).filter (·.1 ≠ x.ptr) = (q, n) :: live.filter (·.1 ≠ x.ptr) := by
    rw [List.filter_cons_of_pos]
    simpa using hqi.symm
  rw [hfilter] at h₃ hkeep'
  refine ⟨s₃, q, segs₁, segs', ?_, hq, hstep, ⟨_, hkeep.start_eq ▸ h₁.rep.blocks.tiles⟩, hfstep,
    h₃, ?_, hbrk.trans_le hgrow, ?_⟩
  · unfold mmRealloc
    simp only [hret, hq, defined, hsize, ← hkdef, hcpy, hfree, ok_bind, if_false]
    rfl
  · refine ⟨hkeep'.start_eq.trans hkeep.start_eq, hkeep.brk_le.trans hkeep'.brk_le, ?_⟩
    rintro ⟨j, m⟩ hj a hlo hhi
    obtain ⟨hjlive, -⟩ := List.mem_filter.mp hj
    rw [hkeep'.mem_eq _ (List.mem_cons_of_mem _ hj) a hlo hhi, ← hkeep.mem_eq _ hjlive a hlo hhi]
    -- the copy goes to the new payload
    have hdisj := (List.pairwise_cons.mp h₁.valid.disjoint).1 _ hjlive
    dsimp only at hlo hhi hdisj
    exact Mem.copy_apply_of_not_mem (by omega)
  · intro t ht₀ htn
    rw [hkeep'.mem_eq (q, n) List.mem_cons_self (q + t) (Nat.le_add_right _ _) (by
      dsimp only
      omega), ← hkeep.mem_eq _ hp (x.ptr + t) (Nat.le_add_right _ _) (by
      dsimp only
      omega)]
    change (if q ≤ q + t ∧ q + t < q + k then s₁.mem (x.ptr + (q + t - q)) else _) = _
    rw [if_pos (by omega), Nat.add_sub_cancel_left]

end Abs

/-! ## The contract -/

/-- The invariant between the state of the package and the live payloads. -/
def Inv (s : State) (live : List (ℕ × ℕ)) : Prop := ∃ segs, Abs s live segs

/-- **The package serves its clients.** -/
theorem contract : Contract firstFit Inv where
  valid := fun ⟨_, h⟩ => h.valid
  init := by
    intro s hheap hbrk
    obtain ⟨s', x, hret, hrep, hx, hxsize, hheap', hlo⟩ := mmInit_spec hheap hbrk
    refine ⟨s', ?_, ⟨[x], hheap', hrep, ?_, List.nodup_nil⟩, hlo, ?_⟩
    · simp only [firstFit, hret, defined]
    · intro p n
      simp [hx]
    · have hend : s'.memStartBrk + 16 + x.size = s'.memBrk := hrep.blocks.tiles.2
      rw [← hend, hlo, hxsize]
  malloc := by
    rintro s live n ⟨segs, h⟩ hn hroom
    obtain ⟨s', i, segs', hret, hstep, hkeep, ⟨hgrow, hfull⟩, hnull, habs⟩ := h.malloc hroom
    refine ⟨s', i, ?_, hkeep, hgrow, fun hi => ⟨?_, hfull hi (by omega)⟩,
      fun hi => ⟨segs', habs hi⟩⟩
    · simp only [firstFit, hret, defined]
    · rw [(hnull hi).1]
      exact ⟨segs, h⟩
  free := by
    rintro s live p n ⟨segs, h⟩ hp
    obtain ⟨s', segs', hret, -, hkeep, hbrk, habs⟩ := h.free hp
    refine ⟨s', ?_, ⟨segs', habs⟩, hkeep, hbrk⟩
    simp only [firstFit, hret, defined]
  write := fun ⟨segs, h⟩ hp hm => ⟨segs, h.write hp hm⟩

/-- **The package serves `mm_realloc`.** -/
theorem reallocServed : ReallocServed firstFit Inv where
  realloc := by
    rintro s live p n₀ n ⟨segs, h⟩ hp hn hroom
    rcases h.realloc hp hn hroom with ⟨-, hfull, hret⟩ |
      ⟨s', q, -, segs', hret, hq, -, -, -, habs, hkeep, hgrow, hdata⟩
    · exact .inl ⟨hfull, _, hret⟩
    · exact .inr ⟨s', q, hret, hq, ⟨segs', habs⟩, hkeep, hgrow, fun i h₀ h₁ => hdata i h₀ h₁⟩

end SystemsLabs.Malloclab.FirstFit
