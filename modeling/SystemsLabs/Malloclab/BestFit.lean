import SystemsLabs.Malloclab.Requests

/-!
# The block that a request takes, and when the heap grows

* `takesBestFit_of_inRange` — when the rounded size lies between the sizes of the two ends of the
  free list, `mm_malloc` takes a smallest block that is large enough, the search ends in front of
  the end of the list, and the order of the other blocks stays.
* `growsLast_iff` — `mm_malloc` extends the heap only if no free block is large enough, except when
  all free blocks are larger than the rounded size.

**Assumptions.** The runs are those of `Requests`: `takesBestFit_of_inRange` is about the runs in
which no request wraps around, and the request itself may be of any size.
-/

namespace SystemsLabs.Malloclab

open SystemsLabs.Lib

variable {c c₀ : Config} {ops : List Op} {s : State} {segs L : List Seg} {n p : ℕ}

/-! ## Best fit -/

/-- `mm_malloc(n)` takes the block `p` of the free list `ps₁ ++ p :: ps₂`. -/
structure TakesBestFit (s : State) (n p : ℕ) (ps₁ ps₂ : List ℕ) : Prop where
  /-- It is the block that the three selection rules choose, and the one that is returned. -/
  chosen : chooseFree s (adjust n) = some p ∧ ∃ s', mmMalloc s n = some (s', p)
  not_null : p ≠ NULL
  on_list : OnFreeList s (ps₁ ++ p :: ps₂)
  nodup : (ps₁ ++ p :: ps₂).Nodup
  /-- `find_fit` ends without following the link of `free_list_end`. -/
  search : ∃ ps r, FindFitRun s (adjust n) s.freeListRoot ps r ∧ s.freeListEnd ∉ ps
  fits : adjust n ≤ blockSize s p
  best : ∀ q ∈ ps₁ ++ p :: ps₂, adjust n ≤ blockSize s q → blockSize s p ≤ blockSize s q
  /-- `remove_free_block` takes this block off the list and leaves the order of the others. -/
  removed : ∃ s₁, removeFreeBlock s p = some s₁ ∧ OnFreeList s₁ (ps₁ ++ ps₂)

/-- The sizes that the headers of a free list hold. -/
theorem Rep.blockSize_eq (h : Rep s segs L) {z : Seg} (hz : z ∈ L) : blockSize s z.ptr = z.size :=
  h.blocks.blockSize_eq (h.mem_segs hz) (h.isBlock hz)

/-- A list whose root is not null has a first and a last block. -/
theorem Rep.exists_ends (h : Rep s segs L) (hroot : s.freeListRoot ≠ NULL) :
    ∃ b B A e, L = b :: B ∧ L = A ++ [e] := by
  rcases List.eq_nil_or_concat L with rfl | ⟨A, e, hA⟩
  · exact absurd h.list.root hroot
  · rw [List.concat_eq_append] at hA
    obtain ⟨b, B, hB⟩ : ∃ b B, L = b :: B := List.exists_cons_of_ne_nil (by simp [hA])
    exact ⟨b, B, A, e, hB, hA⟩

/-- When the last block is large enough, the search ends without following its link. -/
theorem Rep.search_ends (h : Rep s segs L) {A : List Seg} {e : Seg} (hA : L = A ++ [e]) {a : ℕ}
    (hae : a ≤ e.size) :
    ∃ ps r, FindFitRun s a s.freeListRoot ps r ∧ s.freeListEnd ∉ ps := by
  obtain ⟨C, f, D, hC, hf, hlt⟩ := exists_first_fit (x := e) (L := L) (by simp [hA]) hae
  have hend : s.freeListEnd = e.ptr := h.list.end_eq hA
  subst hC
  refine ⟨C.map Seg.ptr, f.ptr, h.findFitRun hf hlt, ?_⟩
  rw [hend]
  intro hmem
  obtain ⟨z, hz, hptr⟩ := List.mem_map.mp hmem
  have heL : e ∈ C ++ f :: D := by simp [hA]
  have hze : z = e :=
    h.blocks.eq_of_ptr_eq (h.mem_segs (by simp [hz])) (h.mem_segs heL) hptr
  have := hlt z hz
  rw [hze] at this
  omega

/-- A request between the sizes of the two ends takes a best fit. -/
theorem Rep.takesBestFit (h : Rep s segs L) {b e : Seg} {A B : List Seg} (hB : L = b :: B)
    (hA : L = A ++ [e]) (hpos : n ≠ 0) (hn : n + 15 < 2 ^ 32) (hba : b.size ≤ adjust n)
    (hae : adjust n ≤ e.size) : ∃ p ps₁ ps₂, TakesBestFit s n p ps₁ ps₂ := by
  have hbest := (h.exists_bestFit_iff hB hA (adjust n)).mpr ⟨hba, hae⟩
  rcases fitsFreeList_eq h (adjust n) with ⟨hfits, f, hchoose, hf⟩ | ⟨-, hnone⟩
  · obtain ⟨s', -, -, hret, -⟩ := reuse_spec h hn hpos hfits hchoose hf
    have hsearch := h.search_ends hA hae
    have hsize : ∀ z ∈ L, blockSize s z.ptr = z.size := fun z hz => h.blockSize_eq hz
    have hfkind := Seg.isFree_iff.mp (h.mem_list.mp hf.mem).2
    have hlist := h.onFreeList
    have hnodup := h.nodup_ptr
    obtain ⟨L₁, L₂, hL⟩ := List.append_of_mem hf.mem
    obtain ⟨l₁, l₂, hl⟩ := List.append_of_mem (h.mem_segs hf.mem)
    have hrep : Rep s (l₁ ++ f :: l₂) (L₁ ++ f :: L₂) := hl ▸ hL ▸ h
    obtain ⟨s₁, hremove, h₁, -⟩ := removeFreeBlock_spec hrep hfkind (y := f.asRaw) rfl rfl rfl
    have hmap : L.map Seg.ptr = L₁.map Seg.ptr ++ f.ptr :: L₂.map Seg.ptr := by simp [hL]
    have hrest := h₁.onFreeList
    rw [List.map_append] at hrest
    refine ⟨f.ptr, L₁.map Seg.ptr, L₂.map Seg.ptr, ⟨hchoose, s', hret⟩,
      h.blocks.ptr_ne_null (h.mem_segs hf.mem), hmap ▸ hlist, hmap ▸ hnodup, hsearch, ?_, ?_,
      s₁, hremove, hrest⟩
    · rw [hsize f hf.mem]
      exact hf.fits
    · rw [← hmap, hsize f hf.mem]
      intro q hq
      obtain ⟨z, hz, rfl⟩ := List.mem_map.mp hq
      rw [hsize z hz]
      exact hf.best z hz
  · exact absurd hbest hnone

/-- **Best fit without missing.** In every run from `mm_init` whose requests are all in range, and
for every request whose rounded size lies between the sizes of the two ends of the free list:
`mm_malloc` takes a smallest block that is large enough off the list, and nothing else. -/
theorem takesBestFit_of_inRange (h₀ : c₀.Initial) (hrun : Runs (Guarded InRange Call) c₀ ops c)
    (hpos : 1 ≤ n) (hn : n < 2 ^ 32) (hroot : c.st.freeListRoot ≠ NULL)
    (hge : blockSize c.st c.st.freeListRoot ≤ adjust n)
    (hle : adjust n ≤ blockSize c.st c.st.freeListEnd) :
    ∃ p ps₁ ps₂, TakesBestFit c.st n p ps₁ ps₂ := by
  obtain ⟨segs, L, habs⟩ := exists_abs_of_inRange h₀ hrun
  obtain ⟨b, B, A, e, hB, hA⟩ := habs.rep.exists_ends hroot
  obtain ⟨hbroot, heend, -⟩ := habs.rep.ends hB hA
  have hbL : b ∈ L := by simp [hB]
  rw [hbroot, habs.rep.blockSize_eq hbL] at hge
  rw [heend, habs.rep.blockSize_eq (by simp [hA])] at hle
  have h16 := (habs.rep.isBlock hbL).size_ge
  refine habs.rep.takesBestFit hB hA (by omega) ?_ hge hle
  -- a wrapped size is smaller than every block
  by_contra hwrap
  have hadj := adjust_wrapped hn (by omega)
  split_ifs at hadj <;> omega

/-- Blocks of 16, 24 and 32 bytes are free; a request of 16 bytes takes the second. -/
theorem takesBestFit_of_inRange_example : ∃ c₀ c, Config.boot 4096 (fun _ => 0) = some c₀ ∧
    Runs Call c₀ [.malloc 8, .malloc 16, .malloc 24, .free 4112, .free 4128, .free 4152] c ∧
    ∃ p ps₁ ps₂, TakesBestFit c.st 16 p ps₁ ps₂ := by
  obtain ⟨c₀, c, hboot, hobs, h₀, hrun⟩ := exists_calls InRange 4096 (fun _ => 0)
    [.malloc 8, .malloc 16, .malloc 24, .free 4112, .free 4128, .free 4152]
    (fun c => (c.st.freeListRoot, blockSize c.st c.st.freeListRoot,
      blockSize c.st c.st.freeListEnd)) (4112, 16, 32) (by decide) (by decide) (by decide +kernel)
  obtain ⟨hroot, hsizes⟩ := Prod.mk.inj hobs
  obtain ⟨hrsize, hesize⟩ := Prod.mk.inj hsizes
  refine ⟨c₀, c, hboot, hrun.of_guarded, takesBestFit_of_inRange h₀ hrun (by decide) (by decide)
    (by rw [hroot]; decide) (by rw [hrsize]; decide) (by rw [hesize]; decide)⟩

/-- The request of `2 ^ 32 - 15` bytes gets the epilogue as its block; it is freed and handed out
again as a block of 40 bytes while it is on the list, and a request of 16 bytes takes it although a
block of 32 bytes is free. -/
theorem exists_not_takesBestFit : ∃ c₀ c, Config.boot 4096 (fun _ => 0) = some c₀ ∧ c₀.Initial ∧
    Runs Call c₀ [.malloc 24, .malloc 8, .malloc 4294967281, .free 4112, .free 4160, .malloc 32,
      .free 4144] c ∧ c.st.freeListRoot ≠ NULL ∧ blockSize c.st c.st.freeListRoot ≤ adjust 16 ∧
    adjust 16 ≤ blockSize c.st c.st.freeListEnd ∧
    ¬ ∃ p ps₁ ps₂, TakesBestFit c.st 16 p ps₁ ps₂ := by
  obtain ⟨c₀, c, hboot, hobs, h₀, hrun⟩ := exists_calls (fun _ _ => True) 4096 (fun _ => 0)
    [.malloc 24, .malloc 8, .malloc 4294967281, .free 4112, .free 4160, .malloc 32, .free 4144]
    (fun c => [some c.st.freeListRoot, some c.st.freeListEnd, get c.st (nextPtr 4144),
      get c.st (nextPtr 4160), chooseFree c.st (adjust 16), some (blockSize c.st 4144),
      some (blockSize c.st 4160), some (blockSize c.st 4112)])
    ([4144, 4112, 4160, 4112, 4160, 16, 40, 32].map some)
    (by decide) (by decide) (by decide +kernel)
  simp only [List.map_cons, List.map_nil, List.cons.injEq, Option.some.injEq, and_true] at hobs
  obtain ⟨hroot, hend, hnext₁, hnext₂, hchoose, hsize₁, hsize₂, hsize₃⟩ := hobs
  have hadj : adjust 16 = 24 := by decide
  have hlist : OnFreeList c.st [4144, 4160, 4112] := by
    refine Or.inr ⟨by rw [hroot]; decide, ?_⟩
    rw [hroot]
    exact .next (by rw [hend]; decide) hnext₁
      (.next (by rw [hend]; decide) hnext₂ (.last hend.symm))
  refine ⟨c₀, c, hboot, h₀, hrun.of_guarded, by rw [hroot]; decide, ?_, ?_, ?_⟩
  · rw [hroot, hsize₁, hadj]
    decide
  · rw [hend, hsize₃, hadj]
    decide
  · rintro ⟨p, ps₁, ps₂, h⟩
    obtain rfl := Option.some.inj (hchoose.symm.trans h.chosen.1)
    have heq := h.on_list.unique hlist
    have hbest := h.best 4112 (by rw [heq]; simp) (by rw [hsize₃, hadj]; decide)
    rw [hsize₂, hsize₃] at hbest
    exact absurd hbest (by decide)

/-! ## When the heap grows -/

/-- `mm_malloc(n)` gets to its call of `mem_sbrk`. -/
def CallsSbrk (s : State) (n : ℕ) : Prop := n ≠ 0 ∧ fitsFreeList s (adjust n) = some false

instance (s : State) (n : ℕ) : Decidable (CallsSbrk s n) := inferInstanceAs (Decidable (_ ∧ _))

/-- What `mm_malloc` does then. -/
theorem mmMalloc_of_callsSbrk (h : CallsSbrk s n) :
    mmMalloc s n = (let r := memSbrk s (toInt (adjust n))
      if r.2 = minusOne then some (r.1, NULL) else do
        let t ← putTags r.1 r.2 (pack (adjust n) 1)
        let t ← put t (hdrp (← nextBlkp t r.2)) (pack 0 1)
        return (t, r.2)) := by
  simp [mmMalloc, h.1, h.2]

/-- `mm_malloc(n)` calls `mem_sbrk` only if no block on the free list holds the rounded size. -/
def GrowsLast (s : State) (n : ℕ) : Prop :=
  CallsSbrk s n → ∃ ps, OnFreeList s ps ∧ ∀ p ∈ ps, blockSize s p < adjust n

/-- The heap grows only if no block fits, unless all blocks of the list are larger than the rounded
size. -/
theorem Rep.growsLast_iff_root (h : Rep s segs L) (hpos : n ≠ 0) :
    GrowsLast s n ↔ s.freeListRoot = NULL ∨ blockSize s s.freeListRoot ≤ adjust n := by
  by_cases hroot : s.freeListRoot = NULL
  · exact iff_of_true (fun _ => ⟨[], Or.inl ⟨hroot, rfl⟩, by simp⟩) (Or.inl hroot)
  obtain ⟨b, B, A, e, hB, hA⟩ := h.exists_ends hroot
  obtain ⟨hbroot, heend, -⟩ := h.ends hB hA
  have hbL : b ∈ L := by simp [hB]
  rw [hbroot, h.blockSize_eq hbL]
  have hcalls : CallsSbrk s n ↔ ¬ (b.size ≤ adjust n ∧ adjust n ≤ e.size) := by
    unfold CallsSbrk
    rw [← h.exists_bestFit_iff hB hA]
    rcases fitsFreeList_eq h (adjust n) with ⟨hfits, f, -, hf⟩ | ⟨hfits, hnone⟩
    · rw [hfits]
      exact iff_of_false (by simp) (not_not.mpr ⟨f, hf⟩)
    · exact iff_of_true ⟨hpos, hfits⟩ hnone
  constructor
  · intro hgrows
    right
    by_contra hlt
    -- the root itself would have been large enough
    obtain ⟨ps, hps, hall⟩ := hgrows (hcalls.mpr fun hbe => hlt hbe.1)
    obtain rfl := hps.unique h.onFreeList
    have hb := hall b.ptr (List.mem_map_of_mem hbL)
    rw [h.blockSize_eq hbL] at hb
    omega
  · rintro (hnull | hba) hsbrk
    · exact absurd (hbroot ▸ hnull) hroot
    refine ⟨L.map Seg.ptr, h.onFreeList, fun q hq => ?_⟩
    obtain ⟨z, hz, rfl⟩ := List.mem_map.mp hq
    have hze := h.list.le_end hA hz
    have hnot := hcalls.mp hsbrk
    rw [h.blockSize_eq hz]
    omega

/-- **When free space is reused before the heap grows.** In every run from `mm_init` whose requests
are all in range, a request extends the heap only if no free block is large enough, exactly if the
free list is empty or its first block is no larger than the rounded size. -/
theorem growsLast_iff (h₀ : c₀.Initial) (hrun : Runs (Guarded InRange Call) c₀ ops c)
    (hpos : 1 ≤ n) : GrowsLast c.st n ↔
      c.st.freeListRoot = NULL ∨ blockSize c.st c.st.freeListRoot ≤ adjust n := by
  obtain ⟨segs, L, habs⟩ := exists_abs_of_inRange h₀ hrun
  exact habs.rep.growsLast_iff_root (by omega)

/-- A block of 16 bytes is free; a request of 24 bytes extends the heap. -/
theorem growsLast_iff_example : ∃ c₀ c, Config.boot 4096 (fun _ => 0) = some c₀ ∧
    Runs Call c₀ [.malloc 8, .free 4112] c ∧ CallsSbrk c.st 24 ∧ GrowsLast c.st 24 := by
  obtain ⟨c₀, c, hboot, hobs, h₀, hrun⟩ := exists_calls InRange 4096 (fun _ => 0)
    [.malloc 8, .free 4112]
    (fun c => (decide (CallsSbrk c.st 24), blockSize c.st c.st.freeListRoot)) (true, 16)
    (by decide) (by decide) (by decide +kernel)
  obtain ⟨hcalls, hsize⟩ := Prod.mk.inj hobs
  refine ⟨c₀, c, hboot, hrun.of_guarded, of_decide_eq_true hcalls,
    (growsLast_iff h₀ hrun (by decide)).mpr (Or.inr ?_)⟩
  rw [hsize]
  decide

/-- A block of 32 bytes is free, and a request of 8 bytes extends the heap. -/
theorem exists_not_growsLast : ∃ c₀ c, Config.boot 4096 (fun _ => 0) = some c₀ ∧ c₀.Initial ∧
    Runs Call c₀ [.malloc 24, .free 4112] c ∧ CallsSbrk c.st 8 ∧ ¬ GrowsLast c.st 8 := by
  obtain ⟨c₀, c, hboot, hobs, h₀, hrun⟩ := exists_calls (fun _ _ => True) 4096 (fun _ => 0)
    [.malloc 24, .free 4112]
    (fun c => (decide (CallsSbrk c.st 8), c.st.freeListRoot, c.st.freeListEnd,
      blockSize c.st 4112)) (true, 4112, 4112, 32)
    (by decide) (by decide) (by decide +kernel)
  simp only [Prod.mk.injEq] at hobs
  obtain ⟨hcalls, hroot, hend, hsize⟩ := hobs
  have hlist : OnFreeList c.st [4112] := by
    refine Or.inr ⟨by rw [hroot]; decide, ?_⟩
    rw [hroot]
    exact .last hend.symm
  refine ⟨c₀, c, hboot, h₀, hrun.of_guarded, of_decide_eq_true hcalls, fun hgrows => ?_⟩
  obtain ⟨ps, hps, hall⟩ := hgrows (of_decide_eq_true hcalls)
  obtain rfl := hps.unique hlist
  have := hall 4112 (by simp)
  rw [hsize] at this
  exact absurd this (by decide)

end SystemsLabs.Malloclab
