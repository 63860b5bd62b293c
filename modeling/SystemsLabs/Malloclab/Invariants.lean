import SystemsLabs.Malloclab.Client

/-!
# What holds of the heap in every reachable configuration

* `alloc_safety` — payloads are aligned, lie between prologue and epilogue, do not overlap, and
  the allocator never writes into one.
* `freeList_invariant` — the free list runs from `free_list_root` to `free_list_end`, is doubly
  linked and sorted by size, and holds exactly the blocks that were freed or split off.

**Assumptions.** The runs are those of `Client`: no request wraps around, and clients keep to the
interface.
-/

namespace SystemsLabs.Malloclab

open SystemsLabs.Lib

variable {c c₀ c' : Config} {op : Op} {ops : List Op} {s : State} {segs L : List Seg} {x : Seg}
  {n m p q : ℕ}

/-! ## Allocator safety -/

/-- Where a live payload lies. -/
theorem Abs.payload_bounds (h : Abs c segs L) (hp : (p, n) ∈ c.live) :
    p % 8 = 0 ∧ c.st.memStartBrk + 16 ≤ p ∧ p + n ≤ c.st.memBrk - 4 ∧
      c.st.memBrk ≤ c.st.memMaxAddr := by
  obtain ⟨x, hx, hkind, rfl, hsize⟩ := h.payload hp
  have hb := h.rep.blocks.bounds hx
  exact ⟨x.ptr_mod, hb.1, by omega, hb.2.2.1⟩

/-- Two live payloads do not overlap. -/
theorem Abs.payload_disjoint (h : Abs c segs L) :
    c.live.Pairwise fun b d => b.1 + b.2 ≤ d.1 ∨ d.1 + d.2 ≤ b.1 := by
  have hne : c.live.Pairwise fun b d => b.1 ≠ d.1 := List.pairwise_map.mp h.live_nodup
  apply hne.imp_of_mem
  rintro ⟨p, n⟩ ⟨q, m⟩ hp hq hpq
  obtain ⟨x, hx, -, rfl, hxsize⟩ := h.payload hp
  obtain ⟨y, hy, -, rfl, hysize⟩ := h.payload hq
  rcases h.rep.blocks.disjoint hx hy with rfl | hd | hd
  · exact absurd rfl hpq
  · left
    change x.ptr + n ≤ y.ptr
    omega
  · right
    change y.ptr + m ≤ x.ptr
    omega

/-- A call of the allocator keeps the payloads that stay live. -/
theorem Abs.payload_kept (h : Abs c segs L) (hs : Step c op c') (hop : ∀ a v, op ≠ .write a v)
    (hp : (p, n) ∈ c.live) (hp' : (p, n) ∈ c'.live) {a : ℕ} (hlo : p ≤ a) (hhi : a < p + n) :
    c'.st.mem a = c.st.mem a := by
  obtain ⟨hadm, hexec⟩ := hs
  cases op with
  | malloc k =>
      obtain ⟨d, -, -, -, hexec', -, -, -, -, -, hkeep⟩ := h.malloc hadm.2.1 hadm.2.2
      obtain rfl := Option.some_inj.mp (hexec.symm.trans hexec')
      exact (hkeep p n hp).2 a hlo hhi
  | free q =>
      obtain ⟨⟨q, k⟩, hq, rfl⟩ := hadm
      obtain ⟨d, segs', L', hexec', habs', hstep, -, hkeep⟩ := h.free hq
      obtain rfl := Option.some_inj.mp (hexec.symm.trans hexec')
      refine (hkeep p n hp ?_).2 a hlo hhi
      rintro rfl
      -- the released block is not live any more
      cases hstep with
      | free hfree =>
          obtain ⟨l₁, l₂, L₁, L₂, x, f, j, hsegs, hL, hx, hptr, hf, hfptr, hfsize⟩ := hfree
          have hlive := (habs'.live _ n).mp hp'
          have hnot := habs'.rep.blocks.not_holds (k := .live n)
          simp only [holds_append, holds_cons, hf, reduceCtorEq, false_and, false_or] at hlive
          rw [hfptr, hptr] at hnot
          exact absurd hlive (not_or.mpr hnot)
  | write b v => exact absurd rfl (hop b v)

/-- **Allocator safety.** In every configuration reachable from `mm_init`: every live pointer is
8-byte aligned and its payload lies past the prologue and before the epilogue; live payloads do not
overlap; every admissible operation returns; and a call of the allocator changes no byte of a
payload that is live before and after it. -/
theorem alloc_safety (h₀ : c₀.Initial) (hrun : Runs Step c₀ ops c) :
    (∀ p n, (p, n) ∈ c.live → p % 8 = 0 ∧ c.st.memStartBrk + 16 ≤ p ∧ p + n ≤ c.st.memBrk - 4 ∧
      c.st.memBrk ≤ c.st.memMaxAddr) ∧
    (c.live.Pairwise fun b d => b.1 + b.2 ≤ d.1 ∨ d.1 + d.2 ≤ b.1) ∧
    (∀ op, Admissible c op → ∃ c', c.exec op = some c') ∧
    ∀ op c', Step c op c' → (∀ a v, op ≠ .write a v) → ∀ p n, (p, n) ∈ c.live →
      (p, n) ∈ c'.live → ∀ a, p ≤ a → a < p + n → c'.st.mem a = c.st.mem a := by
  obtain ⟨segs, L, habs⟩ := exists_abs h₀ hrun
  refine ⟨fun p n hp => habs.payload_bounds hp, habs.payload_disjoint, fun op hadm => ?_, ?_⟩
  · obtain ⟨c', -, -, hexec, -⟩ := habs.step hadm
    exact ⟨c', hexec⟩
  · exact fun op c' hs hop p n hp hp' a hlo hhi => habs.payload_kept hs hop hp hp' hlo hhi

/-- Two requests and a release: the second block is still live, aligned and inside the heap. -/
theorem alloc_safety_example : ∃ c₀ c, Config.boot 4096 (fun _ => 0) = some c₀ ∧
    Runs Step c₀ [.malloc 8, .malloc 24, .free 4112] c ∧ c.live = [(4128, 24)] ∧
    4128 % 8 = 0 ∧ c.st.memStartBrk + 16 ≤ 4128 ∧ 4128 + 24 ≤ c.st.memBrk - 4 ∧
    c.st.memBrk ≤ c.st.memMaxAddr := by
  obtain ⟨c₀, c, hboot, hlive, h₀, hrun⟩ := exists_run (fun _ _ => True) 4096 (fun _ => 0)
    [.malloc 8, .malloc 24, .free 4112] Config.live [(4128, 24)]
    (by decide) (by decide) (by decide +kernel)
  exact ⟨c₀, c, hboot, hrun.of_guarded, hlive,
    (alloc_safety h₀ hrun.of_guarded).1 4128 24 (by simp [hlive])⟩

/-! ## The free list -/

/-- Following `NEXT_PTR` from `p` up to `free_list_end` visits the blocks of the list, in order. -/
inductive FreeWalk (s : State) : ℕ → List ℕ → Prop
  | last {p : ℕ} : p = s.freeListEnd → FreeWalk s p [p]
  | next {p q : ℕ} {ps : List ℕ} : p ≠ s.freeListEnd → get s (nextPtr p) = some q →
      FreeWalk s q ps → FreeWalk s p (p :: ps)

/-- The blocks on the free list, in order. -/
def OnFreeList (s : State) (ps : List ℕ) : Prop :=
  (s.freeListRoot = NULL ∧ ps = []) ∨ (s.freeListRoot ≠ NULL ∧ FreeWalk s s.freeListRoot ps)

/-- A walk along the free list is determined by the memory. -/
theorem FreeWalk.unique {ps ps' : List ℕ} (h : FreeWalk s p ps) (h' : FreeWalk s p ps') :
    ps = ps' := by
  induction h generalizing ps' with
  | last hend =>
      cases h' with
      | last => rfl
      | next hne => exact absurd hend hne
  | next hne hget _ ih =>
      cases h' with
      | last hend => exact absurd hend hne
      | next _ hget' hwalk =>
          obtain rfl := Option.some_inj.mp (hget.symm.trans hget')
          rw [ih hwalk]

/-- There is one free list. -/
theorem OnFreeList.unique {ps ps' : List ℕ} (h : OnFreeList s ps) (h' : OnFreeList s ps') :
    ps = ps' := by
  rcases h with ⟨hroot, rfl⟩ | ⟨hroot, hwalk⟩
  · rcases h' with ⟨-, rfl⟩ | ⟨hroot', -⟩
    · rfl
    · exact absurd hroot hroot'
  · rcases h' with ⟨hroot', -⟩ | ⟨-, hwalk'⟩
    · exact absurd hroot' hroot
    · exact hwalk.unique hwalk'

/-- Header and footer of the block at `p` are the same word. -/
def SameTags (s : State) (p : ℕ) : Prop :=
  ∃ w f, get s (hdrp p) = some w ∧ ftrp s p = some f ∧ get s f = some w

/-- The tags of a block, as `mm.c` reads them. -/
theorem Blocks.get_tags (h : Blocks s segs) (hx : x ∈ segs) (hb : x.IsBlock) :
    get s (hdrp x.ptr) = some x.word ∧ ftrp s x.ptr = some (x.ptr + x.size - 8) ∧
      get s (x.ptr + x.size - 8) = some x.word := by
  have hbd := h.bounds hx
  have hs := x.size_ge
  obtain ⟨hhdr, hftr⟩ := h.tagged hx hb
  refine ⟨?_, ?_, ?_⟩
  · rw [hdrp_eq (by omega) (by omega), get_eq (h.inHeap hx (by omega) (by omega)), hhdr]
  · unfold ftrp
    rw [h.getSize_eq hx hb, Option.bind_eq_bind, Option.bind_some, add_eq (by omega)]
    rw [sub_eq (by simp only [dsize]; omega) (by omega)]
  · rw [get_eq (h.inHeap hx (by omega) (by omega)), hftr]

/-- Along linked blocks, following `NEXT_PTR` visits them in order. -/
theorem FreeWalk.of_linked {prev : ℕ → ℕ} {l : List ℕ} (hlinked : Linked s.mem.load32 prev (p :: l))
    (hget : ∀ q ∈ p :: l, get s (nextPtr q) = some (s.mem.load32 q)) (hnd : (p :: l).Nodup)
    (hend : (p :: l).getLast? = some s.freeListEnd) : FreeWalk s p (p :: l) := by
  induction l generalizing p with
  | nil =>
      refine .last ?_
      rwa [List.getLast?_singleton, Option.some_inj] at hend
  | cons q l ih =>
      obtain ⟨⟨hnext, -⟩, hlinked'⟩ := Linked.cons_cons_iff.mp hlinked
      rw [List.getLast?_cons_cons] at hend
      refine .next ?_ (by rw [hget p (by simp), hnext]) (ih hlinked' ?_ hnd.of_cons hend)
      · rintro rfl
        exact (List.nodup_cons.mp hnd).1 (List.mem_of_getLast? hend)
      · exact fun r hr => hget r (List.mem_cons_of_mem _ hr)

/-- The free list of a layout is the list that the roots delimit. -/
theorem Rep.onFreeList (h : Rep s segs L) : OnFreeList s (L.map Seg.ptr) := by
  cases L with
  | nil => exact Or.inl ⟨h.list.root, rfl⟩
  | cons b B =>
      have hroot : s.freeListRoot = b.ptr := h.list.root
      refine Or.inr ⟨hroot ▸ h.blocks.ptr_ne_null (h.mem_segs List.mem_cons_self), ?_⟩
      rw [hroot]
      refine FreeWalk.of_linked h.list.linked ?_ h.nodup_ptr ?_
      · intro q hq
        obtain ⟨z, hz, rfl⟩ := List.mem_map.mp (show q ∈ (b :: B).map Seg.ptr from hq)
        exact h.blocks.get_nextPtr (h.mem_segs hz) rfl rfl
      · have hend := h.list.end_
        rw [List.getLastD_eq_getLast?, List.map_cons] at hend
        rw [hend, List.getLast?_cons]
        rfl

/-- The ends of the free list are null together. -/
theorem Rep.root_eq_null_iff (h : Rep s segs L) : s.freeListRoot = NULL ↔ s.freeListEnd = NULL := by
  rcases List.eq_nil_or_concat L with rfl | ⟨A, e, hA⟩
  · exact iff_of_true h.list.root h.list.end_
  · rw [List.concat_eq_append] at hA
    obtain ⟨b, B, hB⟩ : ∃ b B, L = b :: B := List.exists_cons_of_ne_nil (by simp [hA])
    obtain ⟨hroot, hend, hb, he, -⟩ := h.ends hB hA
    exact iff_of_false (hroot ▸ hb) (hend ▸ he)

/-- The pointers on the free list. -/
theorem Rep.mem_map_ptr_iff (h : Rep s segs L) : p ∈ L.map Seg.ptr ↔ Holds segs .free p := by
  simp only [List.mem_map, Holds, h.mem_list, Seg.isFree_iff, and_assoc]

/-- The allocated bit of a free block. -/
theorem Rep.getAlloc_eq (h : Rep s segs L) (hx : x ∈ L) : getAlloc s (hdrp x.ptr) = some 0 := by
  obtain ⟨hmem, hfree⟩ := h.mem_list.mp hx
  have hmod := x.size_mod
  have heven : x.size % 2 = 0 := by omega
  unfold getAlloc
  rw [(h.blocks.get_tags hmem (h.isBlock hx)).1, Seg.word_free (Seg.isFree_iff.mp hfree),
    Option.map_some, Nat.and_one_is_mod, heven]

/-- **The free list invariant.** In every configuration reachable from `mm_init`, `free_list_root`
and `free_list_end` are both null or both not; following `NEXT_PTR` from the root reaches the end,
visiting no block twice; `PREV_PTR` inverts `NEXT_PTR` on every interior link; sizes never decrease;
the blocks visited are those freed or split off and not handed out again since; and each has
allocated bit zero and equal header and footer. -/
theorem freeList_invariant (h₀ : c₀.Initial) (hrun : Runs Step c₀ ops c) :
    (c.st.freeListRoot = NULL ↔ c.st.freeListEnd = NULL) ∧
    ∃ ps, OnFreeList c.st ps ∧ ps.Nodup ∧
      (ps.IsChain fun p q => get c.st (nextPtr p) = some q ∧ get c.st (prevPtr q) = some p) ∧
      (ps.Pairwise fun p q => blockSize c.st p ≤ blockSize c.st q) ∧
      (∀ p, p ∈ ps ↔ p ∈ c.freed) ∧
      ∀ p ∈ ps, SameTags c.st p ∧ getAlloc c.st (hdrp p) = some 0 := by
  obtain ⟨segs, L, habs⟩ := exists_abs h₀ hrun
  have hrep := habs.rep
  have hsize : ∀ z ∈ L, blockSize c.st z.ptr = z.size := fun z hz =>
    hrep.blocks.blockSize_eq (hrep.mem_segs hz) (hrep.isBlock hz)
  refine ⟨hrep.root_eq_null_iff, L.map Seg.ptr, hrep.onFreeList, hrep.nodup_ptr, ?_, ?_, ?_, ?_⟩
  · apply hrep.list.linked.imp_of_mem_imp
    intro p q hp hq hlink
    obtain ⟨x, hx, rfl⟩ := List.mem_map.mp hp
    obtain ⟨y, hy, rfl⟩ := List.mem_map.mp hq
    rw [hrep.blocks.get_nextPtr (hrep.mem_segs hx) rfl rfl,
      hrep.blocks.get_prevPtr (hrep.mem_segs hy) rfl rfl]
    exact ⟨congrArg some hlink.1, congrArg some hlink.2⟩
  · rw [List.pairwise_map]
    apply hrep.list.sorted.imp_of_mem
    intro x y hx hy hle
    rwa [hsize _ hx, hsize _ hy]
  · intro p
    rw [hrep.mem_map_ptr_iff, habs.freed]
  · intro p hp
    obtain ⟨x, hx, rfl⟩ := List.mem_map.mp hp
    exact ⟨⟨_, _, hrep.blocks.get_tags (hrep.mem_segs hx) (hrep.isBlock hx)⟩, hrep.getAlloc_eq hx⟩

/-- Two blocks freed, the larger one first: the list holds both. -/
theorem freeList_invariant_example : ∃ c₀ c, Config.boot 4096 (fun _ => 0) = some c₀ ∧
    Runs Step c₀ [.malloc 8, .malloc 24, .free 4128, .free 4112] c ∧ c.freed = [4112, 4128] ∧
    ∃ ps, OnFreeList c.st ps ∧ ps.Nodup ∧
      (ps.IsChain fun p q => get c.st (nextPtr p) = some q ∧ get c.st (prevPtr q) = some p) ∧
      (ps.Pairwise fun p q => blockSize c.st p ≤ blockSize c.st q) ∧
      (∀ p, p ∈ ps ↔ p ∈ c.freed) ∧
      ∀ p ∈ ps, SameTags c.st p ∧ getAlloc c.st (hdrp p) = some 0 := by
  obtain ⟨c₀, c, hboot, hfreed, h₀, hrun⟩ := exists_run (fun _ _ => True) 4096 (fun _ => 0)
    [.malloc 8, .malloc 24, .free 4128, .free 4112] Config.freed [4112, 4128]
    (by decide) (by decide) (by decide +kernel)
  exact ⟨c₀, c, hboot, hrun.of_guarded, hfreed, (freeList_invariant h₀ hrun.of_guarded).2⟩

end SystemsLabs.Malloclab
