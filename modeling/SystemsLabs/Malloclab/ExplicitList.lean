import SystemsLabs.Malloclab.FirstFitSteps
import SystemsLabs.Malloclab.Invariants
import SystemsLabs.Malloclab.Contract

/-!
# Clients of `mm.c`

`mm.c` serves `mm_malloc` and `mm_free` as the interface promises (`contract`). For `mm_realloc` it
does not.

**Assumptions.** Those of `Contract`.
-/

namespace SystemsLabs.Malloclab.ExplicitList

open SystemsLabs.Lib

variable {s s' : State} {segs segs' L L' : List Seg} {c : Config} {live : List (ℕ × ℕ)} {n p : ℕ}

/-- The invariant between the state of the package and the live payloads. -/
def Inv (s : State) (live : List (ℕ × ℕ)) : Prop :=
  HeapObject s ∧ ∃ freed segs L, Abs ⟨s, live, freed⟩ segs L

/-- Where the heap ends after a request. -/
theorem brk_of_mallocStep (h : Rep s segs L) (h' : Rep s' segs' L')
    (hlo : s'.memStartBrk = s.memStartBrk) (hstep : MallocStep segs L s.memBrk n p segs' L') :
    s.memBrk ≤ s'.memBrk ∧ s'.memBrk ≤ s.memBrk + adjust n := by
  have ht := h.blocks.tiles
  have ht' := h'.blocks.tiles
  rw [hlo] at ht'
  have hsame : s'.memBrk = s.memBrk → s.memBrk ≤ s'.memBrk ∧ s'.memBrk ≤ s.memBrk + adjust n := by
    intro heq
    rw [heq]
    exact ⟨le_rfl, Nat.le_add_right _ _⟩
  cases hstep with
  | null => exact hsame (ht'.hi_unique ht)
  | grow x hx =>
    rw [ht'.hi_unique (ht.concat hx.ptr), hx.size]
    exact ⟨Nat.le_add_right _ _, le_rfl⟩
  | exact l₁ l₂ L₁ L₂ f x hsegs hL hbest hsize hx =>
    subst hsegs
    have hnew : Tiles Seg.ptr Seg.size _ (l₁ ++ [x] ++ l₂) _ :=
      ht.replace ⟨hx.ptr, by rw [Tiles.nil_iff, hx.size, hsize]⟩
    exact hsame (ht'.hi_unique (by simpa using hnew))
  | drop l₁ l₂ L₁ L₂ f x r hsegs hL hbest hsize hx hr hrsize =>
    subst hsegs
    have hrptr : r.ptr = x.ptr + x.size := (ht'.split.2).1
    have hnew : Tiles Seg.ptr Seg.size _ (l₁ ++ [x, r] ++ l₂) _ :=
      ht.replace ⟨hx.ptr, by rw [hrptr, hx.ptr], by
        rw [Tiles.nil_iff, hx.size, hsize, hrsize]
        omega⟩
    exact hsame (ht'.hi_unique (by simpa using hnew))
  | split l₁ l₂ L₁ L₂ L₃ L₄ f x r hsegs hL hbest hsize hx hr hrptr hrsize =>
    subst hsegs
    have hnew : Tiles Seg.ptr Seg.size _ (l₁ ++ [x, r] ++ l₂) _ :=
      ht.replace ⟨hx.ptr, by rw [hrptr, hx.size], by
        rw [Tiles.nil_iff, hx.size, hrsize]
        omega⟩
    exact hsame (ht'.hi_unique (by simpa using hnew))

/-- A request that gets nothing has found the heap exhausted. -/
theorem exhausted (h : Rep s segs L) (hn : n + 15 < 2 ^ 32) (hpos : n ≠ 0)
    (hret : mmMalloc s n = some (s', NULL)) :
    s.memMaxAddr < s.memBrk + adjust n := by
  by_contra hroom
  obtain ⟨hamod, hage, ha16, halt⟩ := adjust_spec hn
  have hnull : ∀ {t : State} {q : ℕ}, mmMalloc s n = some (t, q) → q = NULL := by
    intro t q hq
    rw [hret] at hq
    exact (Prod.mk.inj (Option.some_inj.mp hq)).2.symm
  rcases fitsFreeList_eq h (adjust n) with ⟨hfits, f, hchoose, hbest⟩ | ⟨hfits, hnone⟩
  · obtain ⟨t, segs', L', hret', -⟩ := reuse_spec h hn hpos hfits hchoose hbest
    exact h.blocks.ptr_ne_null (h.mem_segs hbest.mem) (hnull hret')
  · have hsbrk : memSbrk s (toInt (adjust n)) =
        ({ s with memBrk := s.memBrk + adjust n }, s.memBrk) := by
      have hmax := h.blocks.max_lt
      have hmax' := h.blocks.max_eq
      have hstart : s.memStartBrk + 16 ≤ s.memBrk := h.blocks.tiles.le
      have h20 : maxHeap < 2 ^ 31 := by decide
      have hint : toInt (adjust n) = adjust n := if_pos (by omega)
      have hadd : add s.memBrk (adjust n) = s.memBrk + adjust n := add_eq (by omega)
      unfold memSbrk
      rw [hint, Int.toNat_natCast, hadd, if_neg (by omega)]
    let x : Seg := ⟨s.memBrk, adjust n, .live n, h.blocks.brk_mod, hamod, max_le ha16 hage⟩
    have hx : Handed n s.memBrk x := ⟨rfl, rfl, rfl⟩
    obtain ⟨t, hret', -⟩ := grow_spec h hn hpos hfits (by omega) hsbrk hx
    have hstart : s.memStartBrk + 16 ≤ s.memBrk := h.blocks.tiles.le
    have hzero : s.memBrk = 0 := hnull hret'
    omega

/-- A release leaves the break where it is. -/
theorem brk_eq_of_freeStep (h : Rep s segs L) (h' : Rep s' segs' L')
    (hlo : s'.memStartBrk = s.memStartBrk) (hstep : FreeStep segs L p segs' L') :
    s'.memBrk = s.memBrk := by
  have ht := h.blocks.tiles
  have ht' := h'.blocks.tiles
  rw [hlo] at ht'
  obtain ⟨l₁, l₂, L₁, L₂, x, f, k, rfl, hL, hx, hptr, hf, hfptr, hfsize⟩ := hstep
  have hnew : Tiles Seg.ptr Seg.size _ (l₁ ++ [f] ++ l₂) _ :=
    ht.replace ⟨hfptr, by rw [Tiles.nil_iff, hfsize]⟩
  exact ht'.hi_unique (by simpa using hnew)

/-- The heap object stays what it is. -/
theorem heapObject (h : HeapObject s) (hb : Blocks s' segs)
    (hlo : s'.memStartBrk = s.memStartBrk) : HeapObject s' :=
  ⟨hb.start_mod, hlo ▸ h.start_pos, hb.max_eq, hb.max_lt⟩

/-- **The package serves `mm_malloc` and `mm_free`.** -/
theorem contract : Contract explicitList Inv where
  valid := by
    rintro s live ⟨hheap, freed, segs, L, h⟩
    refine ⟨hheap, h.rep.blocks.tiles.le, h.rep.blocks.brk_le, ?_, h.payload_disjoint, h.live_nodup⟩
    rintro ⟨p, n⟩ hp
    obtain ⟨hmod, hlo, hhi, -⟩ := h.payload_bounds hp
    exact ⟨hmod, hlo, hhi⟩
  init := by
    intro s hheap hbrk
    have hmax := hheap.max_eq
    have h16 : 16 ≤ maxHeap := by decide
    have hret := mmInit_of_sbrk (FirstFit.memSbrk_init hheap hbrk) le_rfl
      (by change s.memStartBrk + 16 ≤ s.memMaxAddr; omega) hheap.max_lt
    have hblocks := (FirstFit.blocks_init (m := s.mem)
      (t := { s with
        mem := initMem s.memStartBrk s.mem, memBrk := s.memStartBrk + 16,
        heapListp := s.memStartBrk + 8, freeListRoot := NULL, freeListEnd := NULL })
      ⟨hheap.start_mod, hheap.start_pos, hmax, hheap.max_lt⟩ rfl rfl rfl).blocks
    refine ⟨{ s with
      mem := initMem s.memStartBrk s.mem, memBrk := s.memStartBrk + 16,
      heapListp := s.memStartBrk + 8, freeListRoot := NULL, freeListEnd := NULL }, ?_, ?_, rfl,
      Nat.le_add_right _ _⟩
    · simp only [explicitList, hret, defined]
    · refine ⟨⟨hheap.start_mod, hheap.start_pos, hmax, hheap.max_lt⟩, [], [], [], ?_⟩
      exact ⟨⟨hblocks, ⟨List.Pairwise.nil, Linked.nil, rfl, rfl⟩, List.Perm.nil⟩, by simp, by simp,
        by simp⟩
  malloc := by
    rintro s live n ⟨hheap, freed, segs, L, h⟩ hpos ⟨hn, hwrap⟩
    have hle : adjust n ≤ demand n := Nat.le_max_left _ _
    have hadj : NoWrap s (adjust n) := by
      intro hsmall
      have hchunk : FirstFit.chunkSize < 2 ^ 31 := by decide
      have := hwrap (Nat.max_lt.mpr ⟨hsmall, hchunk⟩)
      omega
    obtain ⟨c', p, segs', L', hexec, hret, habs, hstep, hlo, -, hkeep⟩ := h.malloc hn hadj
    obtain ⟨hbrk, hgrow⟩ := brk_of_mallocStep h.rep habs.rep hlo hstep
    refine ⟨c'.st, p, by simp only [explicitList, hret, defined], ⟨hlo, hbrk,
      fun b hb => (hkeep b.1 b.2 hb).2⟩, hgrow.trans (Nat.add_le_add_left hle _), ?_, ?_⟩
    · intro hp
      have hfull := exhausted h.rep hn (by omega) (hp ▸ hret)
      refine ⟨?_, hfull.trans_le (Nat.add_le_add_left hle _)⟩
      have hlive : c'.live = live := by
        simp only [Config.exec, hret, hp, Option.bind_eq_bind, Option.bind_some, if_true] at hexec
        rw [← Option.some_inj.mp hexec]
      exact ⟨heapObject hheap habs.rep.blocks hlo, c'.freed, segs', L', hlive ▸ habs⟩
    · intro hp
      have hlive : c'.live = (p, n) :: live := by
        simp only [Config.exec, hret, hp, Option.bind_eq_bind, Option.bind_some, if_false] at hexec
        rw [← Option.some_inj.mp hexec]
      exact ⟨heapObject hheap habs.rep.blocks hlo, c'.freed, segs', L', hlive ▸ habs⟩
  free := by
    rintro s live p n ⟨hheap, freed, segs, L, h⟩ hp
    obtain ⟨c', segs', L', hexec, habs, hstep, hlo, hkeep⟩ := h.free hp
    cases hret : mmFree s p with
    | none => simp [Config.exec, hret] at hexec
    | some s' =>
      have hc' : c' = ⟨s', live.filter (·.1 ≠ p), p :: freed⟩ := by
        simp only [Config.exec, hret, Option.bind_eq_bind, Option.bind_some] at hexec
        exact (Option.some_inj.mp hexec).symm
      subst hc'
      cases hstep with
      | free hfree =>
        refine ⟨s', by simp only [explicitList, hret, defined],
          ⟨heapObject hheap habs.rep.blocks hlo, _, segs', L', habs⟩, ⟨hlo,
          (brk_eq_of_freeStep h.rep habs.rep hlo hfree).ge, ?_⟩,
          brk_eq_of_freeStep h.rep habs.rep hlo hfree⟩
        rintro ⟨q, m⟩ hq a hlo' hhi
        obtain ⟨hqlive, hne⟩ := List.mem_filter.mp hq
        exact (hkeep q m hqlive (by simpa using hne)).2 a hlo' hhi
  write := by
    rintro s live p n m' ⟨hheap, freed, segs, L, h⟩ hp hm
    refine ⟨⟨hheap.start_mod, hheap.start_pos, hheap.max_eq, hheap.max_lt⟩, freed, segs, L, ?_⟩
    obtain ⟨x, hx, hkind, rfl, hsize⟩ := h.payload hp
    have hb := h.rep.blocks.bounds hx
    refine ⟨h.rep.of_mem (fun a _ _ => hm a (by omega)) (fun a _ _ => hm a (by omega)) ?_, h.live,
      h.live_nodup, h.freed⟩
    intro y hy a hmeta
    have hext := hmeta.extent
    have hby := h.rep.blocks.bounds hy
    apply hm
    rcases h.rep.blocks.disjoint hx hy with rfl | hd | hd
    · rcases hmeta with ⟨-, htag⟩ | ⟨hfree, -⟩
      · unfold Seg.TagByte at htag
        omega
      · rw [Seg.isFree_iff, hkind] at hfree
        cases hfree
    · omega
    · omega

end SystemsLabs.Malloclab.ExplicitList
