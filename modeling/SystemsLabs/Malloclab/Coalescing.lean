import SystemsLabs.Malloclab.Invariants

/-!
# Adjacent free blocks

`coalesce` asks for a block pointer above the heap's last byte and below its first one, so it never
merges (`coalesce_eq`). Two free blocks become neighbours exactly when a block is released next to a
free one.

* `coalesced_of_guarded` — no two free blocks are adjacent in every run that never does so, and the
  first release that does ends that.

**Assumptions.** The runs are those of `Client`: no request wraps around, and clients keep to the
interface.
-/

namespace SystemsLabs.Malloclab

open SystemsLabs.Lib

variable {c c₀ c' : Config} {op : Op} {ops : List Op} {s : State} {segs L segs' L' : List Seg}
  {x y : Seg} {n p : ℕ}

/-- No free block ends where another one begins. -/
def Coalesced (c : Config) : Prop :=
  ∀ p ∈ c.freed, ∀ q ∈ c.freed, p + blockSize c.st p ≠ q

/-- A block that is released has no free neighbour. -/
def NoFreeNeighbour (c : Config) : Op → Prop
  | .free p => ∀ q ∈ c.freed, q + blockSize c.st q ≠ p ∧ p + blockSize c.st p ≠ q
  | _ => True

instance (c : Config) : DecidablePred (NoFreeNeighbour c)
  | .malloc _ => inferInstanceAs (Decidable True)
  | .free p =>
    inferInstanceAs (Decidable (∀ q ∈ c.freed, q + blockSize c.st q ≠ p ∧ p + blockSize c.st p ≠ q))
  | .write _ _ => inferInstanceAs (Decidable True)

/-! ## In the layout -/

/-- No free segment of the layout ends where another one begins. -/
def Apart (segs : List Seg) : Prop :=
  ∀ x ∈ segs, ∀ y ∈ segs, x.kind = .free → y.kind = .free → x.ptr + x.size ≠ y.ptr

/-- The blocks of a configuration and the segments of its layout. -/
theorem Abs.forall_freed_iff (h : Abs c segs L) {P : ℕ → ℕ → Prop} :
    (∀ q ∈ c.freed, P q (blockSize c.st q)) ↔ ∀ z ∈ segs, z.kind = .free → P z.ptr z.size := by
  have hsize : ∀ z ∈ segs, z.kind = .free → blockSize c.st z.ptr = z.size := fun z hz hk =>
    h.rep.blocks.blockSize_eq hz (by simp [Seg.IsBlock, hk])
  constructor
  · intro hq z hz hk
    have := hq z.ptr ((h.freed _).mpr ⟨z, hz, hk, rfl⟩)
    rwa [hsize z hz hk] at this
  · intro hz q hq
    obtain ⟨z, hmem, hk, rfl⟩ := (h.freed q).mp hq
    rw [hsize z hmem hk]
    exact hz z hmem hk

/-- In the layout: no two neighbours are free. -/
theorem Abs.coalesced_iff (h : Abs c segs L) : Coalesced c ↔ Apart segs := by
  unfold Coalesced Apart
  rw [h.forall_freed_iff (P := fun p k => ∀ q ∈ c.freed, p + k ≠ q)]
  apply forall₂_congr
  intro x _
  constructor
  · intro hx y hy hkx hky
    exact (h.forall_freed_iff (P := fun q _ => x.ptr + x.size ≠ q)).mp (hx hkx) y hy hky
  · intro hx hkx
    exact (h.forall_freed_iff (P := fun q _ => x.ptr + x.size ≠ q)).mpr fun y hy hky =>
      hx y hy hkx hky

/-- What a free segment next to the block at `p` means in the layout. -/
theorem Abs.noFreeNeighbour_iff (h : Abs c segs L) (hx : x ∈ segs) (hb : x.IsBlock) :
    NoFreeNeighbour c (.free x.ptr) ↔ ∀ z ∈ segs, z.kind = .free →
      z.ptr + z.size ≠ x.ptr ∧ x.ptr + x.size ≠ z.ptr := by
  change (∀ q ∈ c.freed, q + blockSize c.st q ≠ x.ptr ∧ x.ptr + blockSize c.st x.ptr ≠ q) ↔ _
  rw [h.rep.blocks.blockSize_eq hx hb,
    h.forall_freed_iff (P := fun q k => q + k ≠ x.ptr ∧ x.ptr + x.size ≠ q)]

/-- Two segments that end at the same address are one. -/
theorem Blocks.eq_of_end_eq (h : Blocks s segs) (hx : x ∈ segs) (hy : y ∈ segs)
    (hend : x.ptr + x.size = y.ptr + y.size) : x = y := by
  have hxs := x.size_ge
  have hys := y.size_ge
  rcases h.disjoint hx hy with heq | hd | hd
  · exact heq
  · omega
  · omega

/-- A request leaves free segments apart: the part split off follows a live block and ends where the
free block it comes from ended. -/
theorem MallocStep.apart (h : MallocStep segs L s.memBrk n p segs' L') (hapart : Apart segs)
    (hr : Rep s segs L) {s' : State} (hb' : Blocks s' segs') : Apart segs' := by
  have hfree : ∀ f, BestFit L (adjust n) f → f ∈ segs ∧ f.kind = .free := fun f hf =>
    ⟨hr.mem_segs hf.mem, Seg.isFree_iff.mp (hr.mem_list.mp hf.mem).2⟩
  -- segments that were there before stay apart
  have hold : ∀ {new : List Seg}, (∀ z ∈ new, z.kind = .free → z ∈ segs) → Apart new :=
    fun hnew x hx y hy hkx hky => hapart x (hnew x hx hkx) y (hnew y hy hky) hkx hky
  cases h with
  | null => exact hapart
  | grow x hx =>
      apply hold
      simp only [List.forall_mem_append, List.forall_mem_cons]
      exact ⟨fun z hz _ => hz, by simp [hx.kind], by simp⟩
  | exact l₁ l₂ L₁ L₂ f x hsegs hL hbest hsize hx =>
      apply hold
      simp only [hsegs, List.forall_mem_append, List.forall_mem_cons]
      exact ⟨fun z hz _ => by simp [hz], by simp [hx.kind], fun z hz _ => by simp [hz]⟩
  | drop l₁ l₂ L₁ L₂ f x r hsegs hL hbest hsize hx hrest =>
      apply hold
      simp only [hsegs, List.forall_mem_append, List.forall_mem_cons]
      exact ⟨fun z hz _ => by simp [hz], by simp [hx.kind], by simp [hrest],
        fun z hz _ => by simp [hz]⟩
  | split l₁ l₂ L₁ L₂ L₃ L₄ f x r hsegs hL hbest hsize hx hrest hptr hrsize =>
      obtain ⟨hf, hfk⟩ := hfree f hbest
      have hrs := r.size_ge
      have hmem : ∀ z ∈ l₁ ++ x :: r :: l₂, z.kind = .free → z = r ∨ z ∈ segs := by
        simp only [hsegs, List.forall_mem_append, List.forall_mem_cons]
        exact ⟨fun z hz _ => by simp [hz], by simp [hx.kind], by simp, fun z hz _ => by simp [hz]⟩
      intro y hy z hz hky hkz hend
      rcases hmem y hy hky with rfl | hy'
      · rcases hmem z hz hkz with rfl | hz'
        · omega
        · apply hapart f hf z hz' hfk hkz
          omega
      · rcases hmem z hz hkz with rfl | hz'
        · have hyx := hb'.eq_of_end_eq (x := y) (y := x) hy (by simp) (by
            rw [hx.ptr, hx.size]
            omega)
          rw [hyx, hx.kind] at hky
          exact absurd hky (by simp)
        · exact hapart y hy' z hz' hky hkz hend

/-- A release leaves free segments apart exactly if the block has no free neighbour. -/
theorem FreeStep.apart_iff (h : FreeStep segs L p segs' L') (hapart : Apart segs) (hx : x ∈ segs)
    (hptr : x.ptr = p) (hb : Blocks s segs) :
    Apart segs' ↔ ∀ z ∈ segs, z.kind = .free → z.ptr + z.size ≠ x.ptr ∧ x.ptr + x.size ≠ z.ptr := by
  obtain ⟨l₁, l₂, L₁, L₂, w, f, n, hsegs, hL, hw, hwp, hf, hfptr, hfsize⟩ := h
  obtain rfl : x = w := hb.eq_of_ptr_eq hx (by simp [hsegs]) (hptr.trans hwp.symm)
  have hxs := x.size_ge
  have hfmem : f ∈ l₁ ++ f :: l₂ := by simp
  -- the free segments after the release
  have hnew : ∀ z ∈ segs, z.kind = .free → z ∈ l₁ ++ f :: l₂ := by
    simp only [hsegs, List.forall_mem_append, List.forall_mem_cons]
    exact ⟨fun z hz _ => by simp [hz], by simp [hw], fun z hz _ => by simp [hz]⟩
  have hold : ∀ z ∈ l₁ ++ f :: l₂, z = f ∨ z ∈ segs := by
    simp only [hsegs, List.forall_mem_append, List.forall_mem_cons]
    exact ⟨fun z hz => by simp [hz], by simp, fun z hz => by simp [hz]⟩
  constructor
  · intro hapart' z hz hk
    have h₁ := hapart' z (hnew z hz hk) f hfmem hk hf
    have h₂ := hapart' f hfmem z (hnew z hz hk) hf hk
    omega
  · intro hno y hy z hz hky hkz hend
    rcases hold y hy with rfl | hys
    · rcases hold z hz with rfl | hzs
      · omega
      · have := (hno z hzs hkz).2
        omega
    · rcases hold z hz with rfl | hzs
      · have := (hno y hys hky).1
        omega
      · exact hapart y hys z hzs hky hkz hend

/-! ## Over runs -/

/-- A step keeps free blocks apart exactly if it releases no block next to a free one. -/
theorem Abs.coalesced_step_iff (h : Abs c segs L) (hapart : Apart segs) (hs : Step c op c') :
    Coalesced c' ↔ NoFreeNeighbour c op := by
  obtain ⟨segs', L', habs', hstep⟩ := h.of_step hs
  rw [habs'.coalesced_iff]
  cases hstep with
  | malloc hm => exact iff_of_true (hm.apart hapart h.rep habs'.rep.blocks) trivial
  | write => exact iff_of_true hapart trivial
  | @free p _ _ hf =>
      obtain ⟨⟨q, n⟩, hq, rfl⟩ := hs.1
      obtain ⟨x, hx, hk, hptr⟩ := (h.live q n).mp hq
      rw [hf.apart_iff hapart hx hptr h.rep.blocks]
      subst hptr
      exact (h.noFreeNeighbour_iff hx (by simp [Seg.IsBlock, hk])).symm

/-- **No two free blocks are adjacent as long as no block is released next to a free one.** In every
run from `mm_init` whose releases all are of blocks without a free neighbour, no free block ends
where another one begins; and one more step keeps that exactly if it is no release next to a free
block. -/
theorem coalesced_of_guarded (h₀ : c₀.Initial)
    (hrun : Runs (Guarded NoFreeNeighbour Step) c₀ ops c) :
    Coalesced c ∧ ∀ op c', Step c op c' → (Coalesced c' ↔ NoFreeNeighbour c op) := by
  have hinv : ∃ segs L, Abs c segs L ∧ Apart segs := by
    refine hrun.invariant (I := fun c => ∃ segs L, Abs c segs L ∧ Apart segs) ?_
      ⟨[], [], h₀.abs, by simp [Apart]⟩
    rintro c op c' ⟨segs, L, habs, hapart⟩ ⟨hno, hs⟩
    obtain ⟨segs', L', habs', -⟩ := habs.of_step hs
    exact ⟨segs', L', habs', habs'.coalesced_iff.mp ((habs.coalesced_step_iff hapart hs).mpr hno)⟩
  obtain ⟨segs, L, habs, hapart⟩ := hinv
  exact ⟨habs.coalesced_iff.mpr hapart, fun op c' hs => habs.coalesced_step_iff hapart hs⟩

/-- The first and the last of three blocks are free. -/
theorem coalesced_of_guarded_example : ∃ c₀ c, Config.boot 4096 (fun _ => 0) = some c₀ ∧
    Runs Step c₀ [.malloc 8, .malloc 8, .malloc 8, .free 4112, .free 4144] c ∧
    c.freed = [4144, 4112] ∧ Coalesced c := by
  obtain ⟨c₀, c, hboot, hfreed, h₀, hrun⟩ := exists_run NoFreeNeighbour 4096 (fun _ => 0)
    [.malloc 8, .malloc 8, .malloc 8, .free 4112, .free 4144] Config.freed [4144, 4112]
    (by decide) (by decide) (by decide +kernel)
  exact ⟨c₀, c, hboot, hrun.of_guarded, hfreed, (coalesced_of_guarded h₀ hrun).1⟩

/-- Two neighbours are released one after the other, and both stay on the list. -/
theorem exists_not_coalesced : ∃ c₀ c, Config.boot 4096 (fun _ => 0) = some c₀ ∧ c₀.Initial ∧
    Runs Step c₀ [.malloc 8, .malloc 8, .free 4112, .free 4128] c ∧ ¬ Coalesced c := by
  obtain ⟨c₀, c, hboot, hlast, h₀, hrun⟩ := exists_run (fun _ _ => True) 4096 (fun _ => 0)
    [.malloc 8, .malloc 8, .free 4112, .free 4128]
    (fun c => (c.freed, blockSize c.st 4112)) ([4128, 4112], 16)
    (by decide) (by decide) (by decide +kernel)
  obtain ⟨hfreed, hsize⟩ := Prod.mk.inj hlast
  refine ⟨c₀, c, hboot, h₀, hrun.of_guarded, fun hco => ?_⟩
  apply hco 4112 (by simp [hfreed]) 4128 (by simp [hfreed])
  rw [hsize]

end SystemsLabs.Malloclab
