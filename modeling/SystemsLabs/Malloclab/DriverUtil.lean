import SystemsLabs.Malloclab.DriverAccepts
import Mathlib.Order.Bounds.Defs

/-!
# What `eval_mm_util` measures

On a package that serves its clients, the first of the two numbers is the high water mark of the
trace, whatever the package does, and the second is never below it: live payloads do not overlap,
and the heap holds a prologue and an epilogue besides (`utilization`).

For `mm-firstfit.c`, a trace that `eval_mm_valid` has accepted does not make `eval_mm_util` give up
(`util_of_valid`): the two replays write different bytes, but get the same pointers.

**Assumptions.** The sizes of the trace are within `Limit`, so that no request wraps around.
-/

namespace SystemsLabs.Malloclab

open SystemsLabs.Lib

variable {pkg : Package} {Inv : State → List (ℕ × ℕ) → Prop} {d : Driver} {ids rest : Ids}
  {op : TraceOp} {ops : List TraceOp} {numIds limit n p k : ℕ} {s st : State} {i size : ℤ}
  {live : List (ℕ × ℕ)} {u u' : Usage}

/-! ## Live payloads and the size of the heap -/

/-- The payloads in use have room in the heap. -/
theorem Valid.total_le (hv : Valid s (d.payloads ids)) (hsize : ∀ b ∈ ids, 0 < b.2) :
    0 ≤ total ids ∧ s.memStartBrk + 16 + total ids ≤ s.memBrk := by
  have hsum : ((d.payloads ids).map Prod.snd).sum = total ids := by
    clear hv
    induction ids with
    | nil => rfl
    | cons b ids ih =>
      have hb := hsize b List.mem_cons_self
      have ih := ih fun c hc => hsize c (List.mem_cons_of_mem _ hc)
      unfold Driver.payloads at ih ⊢
      rw [List.map_cons, List.map_cons, List.sum_cons, total_cons, Int.natCast_add, ih,
        Int.toNat_of_nonneg hb.le]
  have hfit : s.memStartBrk + 16 + ((d.payloads ids).map Prod.snd).sum ≤ s.memBrk := by
    apply sum_size_le hv.start_le _ hv.disjoint
    intro b hb
    have := hv.payload b hb
    omega
  omega

/-! ## The counters -/

/-- A sum that an `int` holds. -/
theorem addInt_eq {a b : ℤ} (hlo : -2 ^ 31 ≤ a + b) (hhi : a + b < 2 ^ 31) :
    addInt a b = .ok (a + b) := if_pos ⟨hlo, hhi⟩

/-- The counters after some requests: the current total, and a maximum no smaller. -/
structure Counted (u : Usage) (ids : Ids) : Prop where
  total : u.totalSize = total ids
  le_max : u.totalSize ≤ u.maxTotalSize

/-- What a request does to the counters. -/
structure Counts (u : Usage) (ids : Ids) (u' : Usage) : Prop where
  total : u'.totalSize = Malloclab.total ids
  max_eq : u'.maxTotalSize = max u.maxTotalSize (Malloclab.total ids)

/-- The counters are right after the request. -/
theorem Counts.counted (h : Counts u ids u') : Counted u' ids :=
  ⟨h.total, by rw [h.total, h.max_eq]; exact le_max_right _ _⟩

/-- The total grows by the size, and the mark follows it. -/
theorem Usage.grow_eq (h : u.totalSize + size = total ids) (hlo : 0 ≤ total ids)
    (hhi : total ids < 2 ^ 31) : ∃ u', u.grow size = .ok u' ∧ Counts u ids u' := by
  refine ⟨⟨total ids, max u.maxTotalSize (total ids)⟩, ?_, ⟨rfl, rfl⟩⟩
  unfold Usage.grow
  rw [addInt_eq (by omega) (by omega), ok_bind, h]
  have hmax : max u.maxTotalSize (total ids) =
      if total ids > u.maxTotalSize then total ids else u.maxTotalSize := by
    split_ifs with hgt
    · exact max_eq_right hgt.le
    · exact max_eq_left (not_lt.mp hgt)
  rw [hmax]
  rfl

/-! ## One request -/

/-- How `eval_mm_util` ends when there is no memory for a request. -/
def NoMemory (op : TraceOp) (e : Stop) : Prop :=
  (op.type = .alloc ∧ e = .exit "mm_malloc failed in eval_mm_util") ∨
    (op.type = .realloc ∧ ∃ msg, e = .exit msg)

/-- The total stays in the range of an `int`. -/
theorem Held.total_lt (h : Contract pkg Inv) (hc : Held Inv numIds limit d ids) :
    0 ≤ total ids ∧ total ids < 2 ^ 31 := by
  have hv := h.valid hc.inv
  obtain ⟨hlo, hhi⟩ := hv.total_le fun b hb => (hc.size b hb).1
  have hbrk := hv.brk_le
  have hmax := hv.heap.max_eq
  have h20 : maxHeap < 2 ^ 31 := by decide
  omega

section calls

variable (h : Contract pkg Inv) (hc : Held Inv numIds limit d ids) (hu : Counted u ids)
include h hc hu

/-- A request that gets a block. -/
theorem Held.utilOp_alloc (hlimit : limit < 2 ^ 31)
    (hop : (⟨.alloc, i, size⟩ : TraceOp).Legal numIds limit ids)
    (hret : pkg.mmMalloc d.st size.toNat = .ok (st, p)) (hp : p ≠ NULL)
    (hinv : Inv st ((p, size.toNat) :: d.payloads ids)) : ∃ d' u',
    utilOp pkg d u ⟨.alloc, i, size⟩ = .ok (d', u') ∧ Held Inv numIds limit d' ((i, size) :: ids) ∧
      Counts u ((i, size) :: ids) u' ∧ d'.st = st ∧
      d'.payloads ((i, size) :: ids) = (p, size.toNat) :: d.payloads ids := by
  obtain ⟨⟨hi₀, hi, hfresh⟩, hpos, hle⟩ := hop
  dsimp only at hi₀ hi hfresh hpos hle
  have hsz : toSize size = size.toNat := toSize_eq hpos.le (by omega)
  obtain ⟨blocks, blockSizes, hb, hs, hheld⟩ :=
    hc.put (List.Subset.refl ids) hc.nodup hfresh ⟨hi₀, hi⟩ ⟨hpos, hle⟩ hlimit hinv
  obtain ⟨hheld, hpay⟩ := hheld d.ranges
  obtain ⟨hlo, hhi⟩ := hheld.total_lt h
  obtain ⟨u', hu', hcounts⟩ : ∃ u', u.grow size = .ok u' ∧ Counts u ((i, size) :: ids) u' := by
    apply Usage.grow_eq _ hlo hhi
    rw [hu.total, total_cons]
    exact Int.add_comm _ _
  refine ⟨_, u', ?_, hheld, hcounts, rfl, hpay⟩
  simp only [Malloclab.utilOp, hsz, hret, ok_bind, if_neg hp, hb]
  rw [← hsz, hs, ok_bind, hu']
  rfl

/-- A block that is resized. -/
theorem Held.utilOp_realloc {oldsize : ℤ} (hlimit : limit < 2 ^ 31) (hold : (i, oldsize) ∈ ids)
    (hsize : 0 < size ∧ size ≤ limit)
    (hret : pkg.mmRealloc d.st (d.ptr i) size.toNat = .ok (st, p)) (hp : p ≠ NULL)
    (hinv : Inv st ((p, size.toNat) :: (d.payloads ids).filter (·.1 ≠ d.ptr i))) : ∃ d' u',
    utilOp pkg d u ⟨.realloc, i, size⟩ = .ok (d', u') ∧
      Held Inv numIds limit d' ((i, size) :: ids.filter (·.1 ≠ i)) ∧
      Counts u ((i, size) :: ids.filter (·.1 ≠ i)) u' ∧ d'.st = st ∧
      d'.payloads ((i, size) :: ids.filter (·.1 ≠ i)) =
        (p, size.toNat) :: (d.payloads ids).filter (·.1 ≠ d.ptr i) := by
  have hmem := mem_ids_iff.mpr ⟨oldsize, hold⟩
  have hv := h.valid hc.inv
  have hsz : toSize size = size.toNat := toSize_eq hsize.1.le (by omega)
  obtain ⟨hpos', hle'⟩ := hc.size _ hold
  dsimp only at hpos' hle'
  rw [← Held.payloads_filter hv.nodup hmem] at hinv ⊢
  obtain ⟨blocks, blockSizes, hb, hs, hheld⟩ := hc.put List.filter_sublist.subset
    (hc.nodup.sublist (List.filter_sublist.map _)) (by simp) (hc.index _ hold) hsize hlimit hinv
  obtain ⟨hheld, hpay⟩ := hheld d.ranges
  obtain ⟨hlo, hhi⟩ := hheld.total_lt h
  obtain ⟨u', hu', hcounts⟩ : ∃ u', u.grow (size + -oldsize) = .ok u' ∧
      Counts u ((i, size) :: ids.filter (·.1 ≠ i)) u' := by
    apply Usage.grow_eq _ hlo hhi
    rw [hu.total, total_cons, total_filter hc.nodup hold]
    dsimp only
    omega
  refine ⟨_, u', ?_, hheld, hcounts, rfl, hpay⟩
  simp only [Malloclab.utilOp, hc.load_blockSizes hold, hc.load_blocks hmem, hsz, hret, ok_bind,
    if_neg hp, hb, toInt_toNat hpos'.le (show oldsize < 2 ^ 31 by omega),
    addInt_eq (a := size) (b := -oldsize) (by omega) (by omega), hu']
  rw [← hsz, hs]
  rfl

/-- A block that is released. -/
theorem Held.utilOp_free {oldsize : ℤ} (hlimit : limit < 2 ^ 31) (hold : (i, oldsize) ∈ ids)
    (hret : pkg.mmFree d.st (d.ptr i) = .ok st)
    (hinv : Inv st ((d.payloads ids).filter (·.1 ≠ d.ptr i))) : ∃ d' u',
    utilOp pkg d u ⟨.free, i, size⟩ = .ok (d', u') ∧
      Held Inv numIds limit d' (ids.filter (·.1 ≠ i)) ∧ Counts u (ids.filter (·.1 ≠ i)) u' ∧
      d'.st = st ∧
      d'.payloads (ids.filter (·.1 ≠ i)) = (d.payloads ids).filter (·.1 ≠ d.ptr i) := by
  have hmem := mem_ids_iff.mpr ⟨oldsize, hold⟩
  have hv := h.valid hc.inv
  obtain ⟨hpos', hle'⟩ := hc.size _ hold
  dsimp only at hpos' hle'
  have hheld := hc.drop hv.nodup hmem hinv d.ranges
  obtain ⟨hlo, hhi⟩ := hheld.total_lt h
  have htotal := total_filter hc.nodup hold
  have hsum : u.totalSize + -oldsize = total (ids.filter (·.1 ≠ i)) := by
    rw [hu.total, htotal]
    exact (Int.sub_eq_add_neg).symm
  have hle := hu.le_max
  refine ⟨⟨st, d.blocks, d.blockSizes, d.ranges⟩, ⟨u.totalSize + -oldsize, u.maxTotalSize⟩, ?_,
    hheld, ⟨hsum, ?_⟩, rfl, Held.payloads_filter hv.nodup hmem⟩
  · simp only [Malloclab.utilOp, hc.load_blockSizes hold, hc.load_blocks hmem, hret, ok_bind,
      toInt_toNat hpos'.le (show oldsize < 2 ^ 31 by omega),
      addInt_eq (a := u.totalSize) (b := -oldsize) (by omega) (by omega)]
    rfl
  · exact (max_eq_left (show total (ids.filter (·.1 ≠ i)) ≤ u.maxTotalSize by omega)).symm

end calls

/-- **One request of the trace.** -/
theorem Held.utilOp (h : Contract pkg Inv) (hc : Held Inv numIds limit d ids) (hu : Counted u ids)
    (hre : op.type = .realloc → ReallocServed pkg Inv) (hlimit : Limit d.st.memStartBrk limit)
    (hop : op.Legal numIds limit ids) :
    (∃ e, utilOp pkg d u op = .error e ∧ NoMemory op e ∧
      d.st.memMaxAddr < d.st.memBrk + op.demand) ∨
    ∃ d' u', utilOp pkg d u op = .ok (d', u') ∧ Held Inv numIds limit d' (op.next ids) ∧
      Counts u (op.next ids) u' ∧ d'.st.memStartBrk = d.st.memStartBrk ∧
      d.st.memBrk ≤ d'.st.memBrk ∧ d'.st.memBrk ≤ d.st.memBrk + op.demand := by
  have hv := h.valid hc.inv
  have hlt := hlimit.lt
  obtain ⟨type, i, size⟩ := op
  cases type with
  | alloc =>
    have hsize : 0 < size ∧ size ≤ limit := hop.2
    have hsz : toSize size = size.toNat := toSize_eq hsize.1.le (by omega)
    have hroom : Room d.st size.toNat := hlimit.room_of_le hv (by omega)
    obtain ⟨st, p, hret, hkeep, hgrow, hnull, hsome⟩ := h.malloc hc.inv (by omega) hroom
    by_cases hp : p = NULL
    · left
      refine ⟨_, ?_, .inl ⟨rfl, rfl⟩, (hnull hp).2⟩
      simp only [Malloclab.utilOp, hsz, hret, ok_bind, if_pos hp]
      rfl
    · obtain ⟨d', u', hok, hheld, hcounts, rfl, -⟩ :=
        hc.utilOp_alloc h hu hlt hop hret hp (hsome hp)
      exact .inr ⟨d', u', hok, hheld, hcounts, hkeep.start_eq, hkeep.brk_le, hgrow⟩
  | realloc =>
    obtain ⟨hmem, hsize⟩ := hop
    dsimp only at hmem hsize
    obtain ⟨oldsize, hold⟩ := mem_ids_iff.mp hmem
    have hsz : toSize size = size.toNat := toSize_eq hsize.1.le (by omega)
    have hroom : Room d.st size.toNat := hlimit.room_of_le hv (by omega)
    have holdp : (d.ptr i, oldsize.toNat) ∈ d.payloads ids :=
      List.mem_map_of_mem (f := fun b => (d.ptr b.1, b.2.toNat)) hold
    rcases (hre rfl).realloc hc.inv holdp (by omega) hroom with ⟨hfull, msg, hret⟩ |
      ⟨st, q, hret, hq, hinv, hkeep, hgrow, -⟩
    · left
      refine ⟨_, ?_, .inr ⟨rfl, msg, rfl⟩, hfull⟩
      simp only [Malloclab.utilOp, hc.load_blockSizes hold, hc.load_blocks hmem, hsz, hret, ok_bind]
      rfl
    · obtain ⟨d', u', hok, hheld, hcounts, rfl, -⟩ :=
        hc.utilOp_realloc h hu hlt hold hsize hret hq hinv
      exact .inr ⟨d', u', hok, hheld, hcounts, hkeep.start_eq, hkeep.brk_le, hgrow⟩
  | free =>
    have hmem : i ∈ ids.map Prod.fst := hop
    obtain ⟨oldsize, hold⟩ := mem_ids_iff.mp hmem
    have holdp : (d.ptr i, oldsize.toNat) ∈ d.payloads ids :=
      List.mem_map_of_mem (f := fun b => (d.ptr b.1, b.2.toNat)) hold
    obtain ⟨st, hret, hinv, hkeep, hbrk⟩ := h.free hc.inv holdp
    obtain ⟨d', u', hok, hheld, hcounts, rfl, -⟩ := hc.utilOp_free h hu hlt hold hret hinv
    exact .inr ⟨d', u', hok, hheld, hcounts, hkeep.start_eq, hkeep.brk_le, hbrk.le⟩

/-! ## A whole trace -/

/-- **The requests of a trace.** The maximum is attained, by the counter so far or after some
request. -/
theorem Held.utilOps (h : Contract pkg Inv) (hc : Held Inv numIds limit d ids) (hu : Counted u ids)
    (hre : ∀ op ∈ ops, op.type = .realloc → ReallocServed pkg Inv)
    (hlimit : Limit d.st.memStartBrk limit) (hops : Legal numIds limit ids ops) :
    (∃ op e, op ∈ ops ∧ utilOps pkg ops d u = .error e ∧ NoMemory op e ∧
      d.st.memStartBrk + maxHeap < d.st.memBrk + (ops.map TraceOp.demand).sum) ∨
    ∃ d' u', utilOps pkg ops d u = .ok (d', u') ∧ Held Inv numIds limit d' (idsAfter ids ops) ∧
      d'.st.memStartBrk = d.st.memStartBrk ∧ d.st.memBrk ≤ d'.st.memBrk ∧
      u.maxTotalSize ≤ u'.maxTotalSize ∧
      (∀ k, total (idsAfter ids (ops.take k)) ≤ u'.maxTotalSize) ∧
      (u'.maxTotalSize = u.maxTotalSize ∨
        ∃ k, u'.maxTotalSize = total (idsAfter ids (ops.take k)) ∧
          d.st.memStartBrk + 16 + u'.maxTotalSize ≤ d'.st.memBrk) := by
  induction ops generalizing d u ids with
  | nil =>
    refine .inr ⟨d, u, rfl, hc, rfl, le_rfl, le_rfl, fun k => ?_, .inl rfl⟩
    rw [List.take_nil]
    exact hu.total ▸ hu.le_max
  | cons op ops ih =>
    obtain ⟨hop, hops⟩ := hops
    have hmax := (h.valid hc.inv).heap.max_eq
    rw [List.map_cons, List.sum_cons]
    rcases hc.utilOp h hu (hre op List.mem_cons_self) hlimit hop with
      ⟨e, herr, hmem, hfull⟩ | ⟨d₁, u₁, hok, hc₁, hcounts, hstart, hbrk, hgrow⟩
    · left
      refine ⟨op, e, List.mem_cons_self, ?_, hmem, by omega⟩
      rw [Malloclab.utilOps, herr]
      rfl
    rw [Malloclab.utilOps, hok, ok_bind]
    rcases ih hc₁ hcounts.counted (fun op hmem => hre op (List.mem_cons_of_mem _ hmem))
      (hstart ▸ hlimit) hops with ⟨op', e, hin, herr, hmem, hfull⟩ |
      ⟨d', u', hok', hc', hstart', hbrk', hle, hall, hex⟩
    · exact .inl ⟨op', e, List.mem_cons_of_mem _ hin, herr, hmem, by omega⟩
    right
    have hmax₁ := hcounts.max_eq
    have hle₁ : u.maxTotalSize ≤ u₁.maxTotalSize := hmax₁ ▸ le_max_left _ _
    obtain ⟨-, hroom⟩ := (h.valid hc₁.inv).total_le fun b hb => (hc₁.size b hb).1
    refine ⟨d', u', hok', hc', hstart'.trans hstart, hbrk.trans hbrk', hle₁.trans hle, ?_, ?_⟩
    · intro k
      cases k with
      | zero =>
        have h₀ := hu.le_max
        rw [hu.total] at h₀
        exact h₀.trans (hle₁.trans hle)
      | succ k => exact hall k
    · rcases hex with heq | ⟨k, hk, hfit⟩
      · -- the maximum after the first request
        rcases max_cases u.maxTotalSize (total (op.next ids)) with ⟨hm, -⟩ | ⟨hm, -⟩
        · exact .inl (heq.trans (hmax₁.trans hm))
        · refine .inr ⟨1, heq.trans (hmax₁.trans hm), ?_⟩
          rw [heq, hmax₁, hm]
          omega
      · exact .inr ⟨k + 1, hk, by omega⟩

/-- **A whole trace.** The replay ends, with the largest total of payload bytes, or there is no
memory for a request. -/
theorem Contract.evalMmUtil (h : Contract pkg Inv) (hheap : HeapObject d.st)
    (hblocks : d.blocks.length = numIds) (hsizes : d.blockSizes.length = numIds)
    (hlimit : Limit d.st.memStartBrk limit) (hops : Legal numIds limit [] ops)
    (hre : ∀ op ∈ ops, op.type = .realloc → ReallocServed pkg Inv) :
    (maxHeap < 16 + FirstFit.chunkSize + (ops.map TraceOp.demand).sum ∧
      ∃ op e, op ∈ ops ∧ evalMmUtil pkg ops d = .error e ∧ NoMemory op e) ∨
    ∃ d' hwm, evalMmUtil pkg ops d = .ok (d', hwm, memHeapsize d'.st) ∧
      Held Inv numIds limit d' (idsAfter [] ops) ∧ d'.st.memStartBrk = d.st.memStartBrk ∧
      (∀ k, total (idsAfter [] (ops.take k)) ≤ hwm) ∧
      ∃ k, hwm = total (idsAfter [] (ops.take k)) ∧ d.st.memStartBrk + 16 + hwm ≤ d'.st.memBrk := by
  have hreset : HeapObject (memResetBrk d.st) :=
    ⟨hheap.start_mod, hheap.start_pos, hheap.max_eq, hheap.max_lt⟩
  obtain ⟨st, hret, hinv, hstart, hbrk⟩ := h.init hreset rfl
  have hstart' : st.memStartBrk = d.st.memStartBrk := hstart
  have hbrk' : st.memBrk ≤ d.st.memStartBrk + 16 + FirstFit.chunkSize := hbrk
  have hc : Held Inv numIds limit ⟨st, d.blocks, d.blockSizes, d.ranges⟩ [] :=
    ⟨hinv, List.nodup_nil, by simp, by simp, hblocks, hsizes, by simp⟩
  have hu : Counted ⟨0, 0⟩ [] := ⟨rfl, le_rfl⟩
  rcases hc.utilOps h hu hre (hstart' ▸ hlimit) hops with
    ⟨op, e, hin, herr, hmem, hfull⟩ | ⟨d', u', hok, hc', hs', hb', hle, hall, hex⟩
  · left
    dsimp only at hfull
    refine ⟨by omega, op, e, hin, ?_, hmem⟩
    unfold Malloclab.evalMmUtil
    rw [hret, ok_bind]
    dsimp only
    rw [if_neg (by decide), herr]
    rfl
  · right
    have hle' := (h.valid hc'.inv).start_le
    dsimp only at hs' hb'
    refine ⟨d', u'.maxTotalSize, ?_, hc', hs'.trans hstart', hall, ?_⟩
    · unfold Malloclab.evalMmUtil
      rw [hret, ok_bind]
      dsimp only
      rw [if_neg (by decide), hok]
      rfl
    · rcases hex with heq | ⟨k, hk, hfit⟩
      · refine ⟨0, heq, ?_⟩
        rw [heq]
        dsimp only
        omega
      · dsimp only at hfit
        exact ⟨k, hk, by omega⟩

/-- The heap reaches from its start to the break. -/
theorem Valid.memHeapsize_eq (hv : Valid s live) :
    memHeapsize s = s.memBrk - s.memStartBrk := by
  have := hv.start_le
  have := hv.brk_le
  have := hv.heap.max_lt
  exact sub_eq (by omega) (by omega)

namespace FirstFit

variable {t : State} {segs : List Seg} {q : ℕ}

/-- Two heaps at the same address with one layout, whatever the payloads hold. -/
structure Twins (s t : State) (live : List (ℕ × ℕ)) (segs : List Seg) : Prop where
  left : Abs s live segs
  right : Abs t live segs
  start_eq : t.memStartBrk = s.memStartBrk

namespace Twins

/-- Twins have the same bounds. -/
theorem bounds_eq (h : Twins s t live segs) :
    t.memBrk = s.memBrk ∧ t.memMaxAddr = s.memMaxAddr := by
  have ht := h.right.rep.blocks.tiles
  rw [h.start_eq] at ht
  exact ⟨ht.hi_unique h.left.rep.blocks.tiles, by
    rw [h.right.heap.max_eq, h.left.heap.max_eq, h.start_eq]⟩

/-- No two blocks start at one address. -/
theorem nodup (h : Twins s t live segs) : (segs.map Seg.ptr).Nodup :=
  h.left.rep.blocks.tiles.nodup_map_start fun z _ => by
    have := z.size_ge
    omega

/-- A request gets the same pointer. -/
theorem malloc (h : Twins s t live segs) (hroom : Room s n) : ∃ s' t' p segs',
    mmMalloc s n = some (s', p) ∧ mmMalloc t n = some (t', p) ∧
      s'.memStartBrk = s.memStartBrk ∧ (p ≠ NULL → Twins s' t' ((p, n) :: live) segs') := by
  obtain ⟨hbrk, hmax⟩ := h.bounds_eq
  obtain ⟨s', p, segs', hret, hstep, hkeep, -, -, habs⟩ := h.left.malloc hroom
  have hroom' : Room t n := by
    unfold Room NoWrap at hroom ⊢
    rwa [hbrk]
  obtain ⟨t', q, segs'', hret', hstep', hkeep', -, -, habs'⟩ := h.right.malloc hroom'
  rw [hbrk, hmax] at hstep'
  obtain ⟨rfl, rfl⟩ := hstep.unique hstep'
  exact ⟨s', t', p, segs', hret, hret', hkeep.start_eq, fun hp => ⟨habs hp, habs' hp, by
    rw [hkeep'.start_eq, hkeep.start_eq, h.start_eq]⟩⟩

/-- Twins that release the same block are twins. -/
theorem free (h : Twins s t live segs) (hp : (p, n) ∈ live) : ∃ s' t' segs',
    mmFree s p = some s' ∧ mmFree t p = some t' ∧ s'.memStartBrk = s.memStartBrk ∧
      Twins s' t' (live.filter (·.1 ≠ p)) segs' := by
  obtain ⟨s', segs', hret, hstep, hkeep, -, habs⟩ := h.left.free hp
  obtain ⟨t', segs'', hret', hstep', hkeep', -, habs'⟩ := h.right.free hp
  obtain rfl := hstep.unique hstep' h.nodup
  exact ⟨s', t', segs', hret, hret', hkeep.start_eq, habs, habs', by
    rw [hkeep'.start_eq, hkeep.start_eq, h.start_eq]⟩

/-- If one of the two blocks can be resized, so can the other, and it moves to the same place. -/
theorem realloc {s' : State} {n₀ : ℕ} (h : Twins s t live segs) (hp : (p, n₀) ∈ live) (hn : 1 ≤ n)
    (hroom : Room s n) (hret : mmRealloc s p n = .ok (s', q)) : ∃ t' segs', q ≠ NULL ∧
      mmRealloc t p n = .ok (t', q) ∧ s'.memStartBrk = s.memStartBrk ∧
      Twins s' t' ((q, n) :: live.filter (·.1 ≠ p)) segs' := by
  obtain ⟨hbrk, hmax⟩ := h.bounds_eq
  have hroom' : Room t n := by
    unfold Room NoWrap at hroom ⊢
    rwa [hbrk]
  rcases h.left.realloc hp hn hroom with ⟨-, -, herr⟩ |
    ⟨s₁, q₁, segs₁, segs', hok, hq, hstep, ⟨brk, ht⟩, hfree, habs, hkeep, -⟩
  · rw [hret] at herr
    cases herr
  rw [hret] at hok
  obtain ⟨rfl, rfl⟩ := Prod.mk.inj (Except.ok.inj hok)
  rcases h.right.realloc hp hn hroom' with ⟨hnull, -, -⟩ |
    ⟨t₁, q₂, segs₂, segs'', hok', hq', hstep', -, hfree', habs', hkeep', -⟩
  · -- the request of the first has been served
    obtain ⟨t₂, i, segs₂, hret', hstep', -⟩ := h.right.malloc hroom'
    rw [hnull] at hret'
    obtain ⟨-, rfl⟩ := Prod.mk.inj (Option.some_inj.mp hret')
    rw [hbrk, hmax] at hstep'
    exact absurd (hstep.unique hstep').1 hq
  · rw [hbrk, hmax] at hstep'
    obtain ⟨rfl, rfl⟩ := hstep.unique hstep'
    have hnd : (segs₁.map Seg.ptr).Nodup := ht.nodup_map_start fun z _ => by
      have := z.size_ge
      omega
    obtain rfl := hfree.unique hfree' hnd
    exact ⟨t₁, segs', hq, hok', hkeep.start_eq, habs, habs', by
      rw [hkeep'.start_eq, hkeep.start_eq, h.start_eq]⟩

/-- A payload of the first is filled. -/
theorem memset (h : Twins s t live segs) (hp : (p, n) ∈ live) (c : ℤ) :
    Twins (memset s p c n) t live segs :=
  ⟨h.left.write hp fun _ ha => if_neg (by omega), h.right, h.start_eq⟩

end Twins

end FirstFit

variable {e : Driver}

/-- A replay by `eval_mm_valid` and one by `eval_mm_util`, after the same requests. -/
structure InStep (numIds limit : ℕ) (d e : Driver) (ids : Ids) : Prop where
  valid : Held FirstFit.Inv numIds limit d ids
  util : Held FirstFit.Inv numIds limit e ids
  payloads : e.payloads ids = d.payloads ids
  twins : ∃ segs, FirstFit.Twins d.st e.st (d.payloads ids) segs

namespace InStep

/-- Both drivers hold the same pointer for an id in use. -/
theorem ptr_eq (h : InStep numIds limit d e ids) (hi : i ∈ ids.map Prod.fst) :
    e.ptr i = d.ptr i := by
  obtain ⟨size, hmem⟩ := mem_ids_iff.mp hi
  exact (Prod.mk.inj (List.map_inj_left.mp h.payloads _ hmem)).1

/-- The replay by `eval_mm_valid` goes on with a block under a fresh id. -/
theorem valid_put {segs : List Seg} {blocks blockSizes : List ℕ} (h : InStep numIds limit d e ids)
    (hsub : rest ⊆ ids) (hnd : (rest.map Prod.fst).Nodup) (hfresh : i ∉ rest.map Prod.fst)
    (hi : 0 ≤ i ∧ i < numIds) (hsize : 0 < size ∧ size ≤ limit) (hlimit : limit < 2 ^ 31)
    (hb : assign d.blocks i p = .ok blocks)
    (hs : assign d.blockSizes i (toSize size) = .ok blockSizes)
    {t : State} (htwins : FirstFit.Twins st t ((p, size.toNat) :: d.payloads rest) segs)
    (ranges : List Range) : let d' : Driver :=
      ⟨memset st p (lowByte i) size.toNat, blocks, blockSizes, ranges⟩
    Held FirstFit.Inv numIds limit d' ((i, size) :: rest) ∧
      d'.payloads ((i, size) :: rest) = (p, size.toNat) :: d.payloads rest ∧
      FirstFit.Twins d'.st t (d'.payloads ((i, size) :: rest)) segs := by
  have hfilled := htwins.memset List.mem_cons_self (lowByte i)
  have hinv : FirstFit.Inv (memset st p (lowByte i) size.toNat)
      ((p, size.toNat) :: d.payloads rest) := ⟨segs, hfilled.left⟩
  obtain ⟨blocks', blockSizes', hb', hs', hheld⟩ :=
    h.valid.put hsub hnd hfresh hi hsize hlimit hinv
  rw [hb] at hb'
  rw [hs] at hs'
  obtain rfl := Except.ok.inj hb'
  obtain rfl := Except.ok.inj hs'
  obtain ⟨hheld, hpay⟩ := hheld ranges
  exact ⟨hheld, hpay, by rw [hpay]; exact hfilled⟩

/-- **One request of the trace.** If it passes the checks of `eval_mm_valid`, `eval_mm_util` goes on
as well. -/
theorem step {d' : Driver} {tracenum : ℕ} (h : InStep numIds limit d e ids) (hu : Counted u ids)
    (hlimit : Limit d.st.memStartBrk limit) (hop : op.Legal numIds limit ids)
    (hvalid : validOp FirstFit.firstFit tracenum k d op = .ok d') : ∃ e' u',
    utilOp FirstFit.firstFit e u op = .ok (e', u') ∧ Counts u (op.next ids) u' ∧
      InStep numIds limit d' e' (op.next ids) ∧ d'.st.memStartBrk = d.st.memStartBrk := by
  obtain ⟨segs, htwins⟩ := h.twins
  have hv := htwins.left.valid
  have hlt := hlimit.lt
  obtain ⟨type, i, size⟩ := op
  cases validStep_of_eq_ok hvalid with
  | @alloc st p ranges blocks blockSizes htype hret hp _ hb hs =>
    obtain rfl : type = .alloc := htype
    obtain ⟨⟨hi₀, hi, hfresh⟩, hpos, hle⟩ := hop
    dsimp only at hi₀ hi hfresh hpos hle hret hb hs
    have hsz : toSize size = size.toNat := toSize_eq hpos.le (by omega)
    obtain ⟨s', t', q, segs', hs', ht', hstart, htwins'⟩ :=
      htwins.malloc (hlimit.room_of_le hv (show size.toNat ≤ limit by omega))
    simp only [FirstFit.firstFit, hsz, hs', defined] at hret
    obtain ⟨rfl, rfl⟩ := Prod.mk.inj (Except.ok.inj hret)
    have htwins' := htwins' hp
    have hinv : FirstFit.Inv t' ((q, size.toNat) :: e.payloads ids) :=
      ⟨segs', h.payloads ▸ htwins'.right⟩
    have hret' : FirstFit.firstFit.mmMalloc e.st size.toNat = .ok (t', q) := by
      simp only [FirstFit.firstFit, ht', defined]
    obtain ⟨e', u', hok, hheld, hcounts, rfl, hpay⟩ := h.util.utilOp_alloc FirstFit.contract hu hlt
      ⟨⟨hi₀, hi, hfresh⟩, hpos, hle⟩ hret' hp hinv
    obtain ⟨hheld', hpay', hfilled⟩ := h.valid_put (List.Subset.refl ids) h.valid.nodup hfresh
      ⟨hi₀, hi⟩ ⟨hpos, hle⟩ hlt hb hs htwins' ranges
    rw [h.payloads] at hpay
    exact ⟨e', u', hok, hcounts, ⟨hheld', hheld, hpay.trans hpay'.symm, segs', hfilled⟩, hstart⟩
  | @realloc oldp newp oldsize st ranges blocks blockSizes htype hload hret hp _ _ _ hb hs =>
    obtain rfl : type = .realloc := htype
    obtain ⟨hmem, hpos, hle⟩ := hop
    dsimp only at hmem hpos hle hload hret hb hs
    obtain ⟨oldsize, hold⟩ := mem_ids_iff.mp hmem
    have hsz : toSize size = size.toNat := toSize_eq hpos.le (by omega)
    have holdp : (d.ptr i, oldsize.toNat) ∈ d.payloads ids :=
      List.mem_map_of_mem (f := fun b => (d.ptr b.1, b.2.toNat)) hold
    rw [h.valid.load_blocks hmem] at hload
    obtain rfl := Except.ok.inj hload
    rw [hsz] at hret
    obtain ⟨t', segs', hq, hret', hstart, htwins'⟩ := htwins.realloc holdp (by omega)
      (hlimit.room_of_le hv (show size.toNat ≤ limit by omega)) hret
    have hptr := h.ptr_eq hmem
    rw [← hptr] at hret'
    have hinv : FirstFit.Inv t'
        ((newp, size.toNat) :: (e.payloads ids).filter (·.1 ≠ e.ptr i)) := by
      rw [h.payloads, hptr]
      exact ⟨segs', htwins'.right⟩
    obtain ⟨e', u', hok, hheld, hcounts, rfl, hpay⟩ := h.util.utilOp_realloc FirstFit.contract hu
      hlt hold ⟨hpos, hle⟩ hret' hq hinv
    rw [← Held.payloads_filter hv.nodup hmem] at htwins'
    obtain ⟨hheld', hpay', hfilled⟩ := h.valid_put List.filter_sublist.subset
      (h.valid.nodup.sublist (List.filter_sublist.map _)) (by simp) (h.valid.index _ hold)
      ⟨hpos, hle⟩ hlt hb hs htwins' ranges
    rw [h.payloads, hptr, ← Held.payloads_filter hv.nodup hmem] at hpay
    exact ⟨e', u', hok, hcounts, ⟨hheld', hheld, hpay.trans hpay'.symm, segs', hfilled⟩, hstart⟩
  | @free p st htype hload hret =>
    obtain rfl : type = .free := htype
    have hmem : i ∈ ids.map Prod.fst := hop
    obtain ⟨oldsize, hold⟩ := mem_ids_iff.mp hmem
    have holdp : (d.ptr i, oldsize.toNat) ∈ d.payloads ids :=
      List.mem_map_of_mem (f := fun b => (d.ptr b.1, b.2.toNat)) hold
    have hload' := h.valid.load_blocks hmem
    dsimp only at hload
    rw [hload'] at hload
    obtain rfl := Except.ok.inj hload
    obtain ⟨s', t', segs', hs', ht', hstart, htwins'⟩ := htwins.free holdp
    simp only [FirstFit.firstFit, hs', defined] at hret
    obtain rfl := Except.ok.inj hret
    have hptr := h.ptr_eq hmem
    have hret' : FirstFit.firstFit.mmFree e.st (e.ptr i) = .ok t' := by
      simp only [FirstFit.firstFit, hptr, ht', defined]
    have hinv : FirstFit.Inv t' ((e.payloads ids).filter (·.1 ≠ e.ptr i)) := by
      rw [h.payloads, hptr]
      exact ⟨segs', htwins'.right⟩
    obtain ⟨e', u', hok, hheld, hcounts, rfl, hpay⟩ :=
      h.util.utilOp_free FirstFit.contract hu hlt hold hret' hinv
    rw [h.payloads, hptr, ← Held.payloads_filter hv.nodup hmem] at hpay
    have hheld' := h.valid.drop hv.nodup hmem ⟨segs', htwins'.left⟩ (removeRange d.ranges (d.ptr i))
    rw [← Held.payloads_filter hv.nodup hmem] at htwins'
    exact ⟨e', u', hok, hcounts, ⟨hheld', hheld, hpay, segs', htwins'⟩, hstart⟩

/-- The requests of a trace. -/
theorem run {d' : Driver} {tracenum : ℕ} (h : InStep numIds limit d e ids) (hu : Counted u ids)
    (hlimit : Limit d.st.memStartBrk limit) (hops : Legal numIds limit ids ops)
    (hvalid : validOps FirstFit.firstFit tracenum k ops d = .ok d') : ∃ e' u',
    utilOps FirstFit.firstFit ops e u = .ok (e', u') ∧
      InStep numIds limit d' e' (idsAfter ids ops) ∧ d'.st.memStartBrk = d.st.memStartBrk := by
  induction ops generalizing d e u ids k with
  | nil =>
    obtain rfl := Except.ok.inj hvalid
    exact ⟨e, u, rfl, h, rfl⟩
  | cons op ops ih =>
    obtain ⟨d₁, hd₁, hrest⟩ := bind_eq_ok.mp hvalid
    obtain ⟨e₁, u₁, hok, hcounts, h₁, hstart⟩ := h.step hu hlimit hops.1 hd₁
    obtain ⟨e', u', hok', h', hstart'⟩ := ih h₁ hcounts.counted (hstart ▸ hlimit) hops.2 hrest
    refine ⟨e', u', ?_, h', hstart'.trans hstart⟩
    rw [utilOps, hok]
    exact hok'

end InStep

end SystemsLabs.Malloclab
