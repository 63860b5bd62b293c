import SystemsLabs.Malloclab.DriverChecks
import SystemsLabs.Malloclab.FirstFitRuns
import SystemsLabs.Malloclab.ExplicitList

/-!
# The driver accepts packages that serve their clients

`Checked` is the invariant of `eval_mm_valid` on such a package: the range list holds the extents of
the live payloads, and every payload is full of the low byte of its id. So `add_range` finds nothing
to report, nor does the look at the data after an `mm_realloc`, and a run can only end early for
want of memory (`Contract.evalMmValid`).

* `accepted_firstFit` — `mm-firstfit.c`, on all legal traces.
* `accepted_explicitList` — `mm.c`, on traces without `mm_realloc`.

**Assumptions.** The sizes of the trace are within `Limit`, so that no request wraps around. With
`mm_realloc`, the ids that are resized have a low byte below 128 (`not_accepted_of_signed`).
-/

namespace SystemsLabs.Malloclab

open SystemsLabs.Lib

variable {pkg : Package} {Inv : State → List (ℕ × ℕ) → Prop} {d : Driver} {ids rest : Ids}
  {op : TraceOp} {ops : List TraceOp} {numIds limit n p : ℕ} {s st : State} {i size : ℤ}
  {live : List (ℕ × ℕ)}

/-- The heap of a correct package is within the bounds of `memlib`. -/
theorem Valid.heapBounds (hv : Valid s live) : HeapBounds s :=
  ⟨hv.heap.start_pos, (Nat.le_add_right _ _).trans hv.start_le, hv.heap.max_eq ▸ hv.brk_le,
    hv.heap.max_eq ▸ hv.heap.max_lt⟩

/-- `add_range` accepts a payload of a valid heap. -/
theorem addRange_eq (hv : Valid s ((p, size.toNat) :: live)) (hlive : ∀ c ∈ live, 0 < c.2)
    (hpos : 0 < size) (hsize : size < 2 ^ 31) (tracenum k : ℕ) :
    addRange s (live.map extent) p size tracenum k =
      .ok (((p, size.toNat) :: live).map extent) := by
  obtain ⟨hmod, hlo, hhi⟩ := hv.payload _ List.mem_cons_self
  dsimp only at hmod hlo hhi
  rw [addRange_eq_ok_iff hv.heapBounds hsize hlive]
  refine ⟨hpos, hmod, by omega, by omega, fun c hc => ?_, rfl⟩
  rcases (List.pairwise_cons.mp hv.disjoint).1 c hc with h | h
  · exact .inl h
  · exact .inr (.inl h)

/-! ## The bytes of a payload -/

/-- The byte that the payload of an id is filled with. -/
def fillByte (i : ℤ) : UInt8 := UInt8.ofNat (lowByte i).toNat

/-- A byte that has been filled. -/
theorem memset_apply {a : ℕ} (h : p ≤ a ∧ a < p + n) :
    (memset s p (lowByte i) n).mem a = fillByte i := if_pos h

/-- A byte that has not. -/
theorem memset_apply_of_not_mem {a : ℕ} (h : a < p ∨ p + n ≤ a) :
    (memset s p (lowByte i) n).mem a = s.mem a := if_neg (by omega)

/-- A low byte below 128 is read back as a `char`. -/
theorem schar_fillByte (h : lowByte i < 128) : schar (fillByte i) = lowByte i := by
  have hnn : 0 ≤ lowByte i := Int.emod_nonneg _ (by decide)
  have hval : (fillByte i).toNat = (lowByte i).toNat := by
    unfold fillByte
    rw [UInt8.toNat_ofNat']
    omega
  unfold schar
  rw [hval, if_pos (by omega)]
  omega

/-! ## One request -/

/-- The invariant of `eval_mm_valid`. -/
structure Checked (Inv : State → List (ℕ × ℕ) → Prop) (numIds limit : ℕ) (d : Driver)
    (ids : Ids) : Prop extends Held Inv numIds limit d ids where
  ranges : d.ranges = (d.payloads ids).map extent
  filled : ∀ b ∈ ids, ∀ j < b.2.toNat, d.st.mem (d.ptr b.1 + j) = fillByte b.1

namespace Checked

/-- The bytes of the payloads that a call keeps. -/
theorem filled_of_keeps (hc : Checked Inv numIds limit d ids) (hsub : rest ⊆ ids)
    (hkeep : Keeps (d.payloads rest) d.st st) :
    ∀ b ∈ rest, ∀ j < b.2.toNat, st.mem (d.ptr b.1 + j) = fillByte b.1 := by
  intro b hb j hj
  have hmem : (d.ptr b.1, b.2.toNat) ∈ d.payloads rest :=
    List.mem_map_of_mem (f := fun b => (d.ptr b.1, b.2.toNat)) hb
  rw [hkeep.mem_eq _ hmem _ (Nat.le_add_right _ _) (Nat.add_lt_add_left hj _)]
  exact hc.filled b (hsub hb) j hj

/-- A block under a fresh id: it is checked, filled and remembered. -/
theorem put (h : Contract pkg Inv) (hc : Held Inv numIds limit d ids) (hsub : rest ⊆ ids)
    (hnd : (rest.map Prod.fst).Nodup) (hfresh : i ∉ rest.map Prod.fst) (hi : 0 ≤ i ∧ i < numIds)
    (hsize : 0 < size ∧ size ≤ limit) (hlimit : limit < 2 ^ 31)
    (hinv : Inv st ((p, size.toNat) :: d.payloads rest))
    (hfilled : ∀ b ∈ rest, ∀ j < b.2.toNat, st.mem (d.ptr b.1 + j) = fillByte b.1)
    (tracenum k : ℕ) : ∃ ranges blocks blockSizes,
      addRange st ((d.payloads rest).map extent) p size tracenum k = .ok ranges ∧
      assign d.blocks i p = .ok blocks ∧ assign d.blockSizes i (toSize size) = .ok blockSizes ∧
      Checked Inv numIds limit ⟨memset st p (lowByte i) size.toNat, blocks, blockSizes, ranges⟩
        ((i, size) :: rest) := by
  have hv := h.valid hinv
  have hinv' : Inv (memset st p (lowByte i) size.toNat) ((p, size.toNat) :: d.payloads rest) :=
    h.write hinv List.mem_cons_self fun a ha => memset_apply_of_not_mem ha
  obtain ⟨blocks, blockSizes, hb, hs, hheld⟩ :=
    hc.put hsub hnd hfresh hi hsize hlimit hinv'
  obtain ⟨ranges, hranges⟩ : ∃ r, r = ((p, size.toNat) :: d.payloads rest).map extent := ⟨_, rfl⟩
  have hlive : ∀ c ∈ d.payloads rest, 0 < c.2 := by
    intro c hmem
    obtain ⟨b, hb, rfl⟩ := List.mem_map.mp hmem
    have := (hc.size b (hsub hb)).1
    dsimp only
    omega
  have hadd := addRange_eq hv hlive hsize.1 (by omega) tracenum k
  rw [← hranges] at hadd
  refine ⟨ranges, blocks, blockSizes, hadd, hb, hs, ?_⟩
  obtain ⟨hheld, hpay⟩ := hheld ranges
  refine ⟨hheld, by rw [hpay]; exact hranges, ?_⟩
  -- the pointers under which the bytes are found
  have hmap := hpay
  unfold Driver.payloads at hmap
  rw [List.map_cons, List.cons.injEq, Prod.mk.injEq] at hmap
  rintro b (_ | ⟨_, hmem⟩) j hj
  · dsimp only
    rw [hmap.1.1]
    exact memset_apply ⟨Nat.le_add_right _ _, Nat.add_lt_add_left hj _⟩
  · have hptr := List.map_inj_left.mp hmap.2 b hmem
    rw [(Prod.mk.inj hptr).1]
    have hdisj := (List.pairwise_cons.mp hv.disjoint).1 (d.ptr b.1, b.2.toNat)
      (List.mem_map_of_mem (f := fun b => (d.ptr b.1, b.2.toNat)) hmem)
    dsimp only at hdisj hj
    rw [memset_apply_of_not_mem (by omega)]
    exact hfilled b hmem j hj

end Checked

/-- How a run ends when there is no memory for request `k`. -/
def OutOfMemory (tracenum k : ℕ) (op : TraceOp) (e : Stop) : Prop :=
  (op.type = .alloc ∧ e = .mallocError tracenum k "mm_malloc failed.") ∨
    (op.type = .realloc ∧ ∃ msg, e = .exit msg)

/-- What is asked of the package and of the ids of a trace with `mm_realloc`. -/
def Resizable (pkg : Package) (Inv : State → List (ℕ × ℕ) → Prop) (op : TraceOp) : Prop :=
  op.type = .realloc → ReallocServed pkg Inv ∧ lowByte op.index < 128

/-- **One request of the trace.** It passes every check, or there is no memory for it. -/
theorem Checked.validOp (h : Contract pkg Inv) (hc : Checked Inv numIds limit d ids)
    (hre : Resizable pkg Inv op) (hlimit : Limit d.st.memStartBrk limit)
    (hop : op.Legal numIds limit ids) (tracenum k : ℕ) :
    (∃ e, validOp pkg tracenum k d op = .error e ∧ OutOfMemory tracenum k op e ∧
      d.st.memMaxAddr < d.st.memBrk + op.demand) ∨
    ∃ d', validOp pkg tracenum k d op = .ok d' ∧ Checked Inv numIds limit d' (op.next ids) ∧
      d'.st.memStartBrk = d.st.memStartBrk ∧ d'.st.memBrk ≤ d.st.memBrk + op.demand := by
  have hv := h.valid hc.inv
  obtain ⟨type, i, size⟩ := op
  cases type with
  | alloc =>
    obtain ⟨⟨hi₀, hi, hfresh⟩, hpos, hle⟩ := hop
    dsimp only at hi₀ hi hfresh hpos hle
    have hsz : toSize size = size.toNat := toSize_eq hpos.le (by have := hlimit.lt; omega)
    have hroom : Room d.st size.toNat := hlimit.room_of_le hv (by omega)
    obtain ⟨st, p, hret, hkeep, hgrow, hnull, hsome⟩ := h.malloc hc.inv (by omega) hroom
    by_cases hp : p = NULL
    · left
      refine ⟨_, ?_, .inl ⟨rfl, rfl⟩, (hnull hp).2⟩
      simp only [Malloclab.validOp, hsz, hret, ok_bind, if_pos hp]
      rfl
    · right
      obtain ⟨ranges, blocks, blockSizes, hadd, hb, hs, hchecked⟩ :=
        Checked.put h hc.toHeld (List.Subset.refl ids) hc.nodup
          hfresh ⟨hi₀, hi⟩ ⟨hpos, hle⟩ hlimit.lt (hsome hp)
          (hc.filled_of_keeps (List.Subset.refl ids) hkeep) tracenum k
      refine ⟨_, ?_, hchecked, hkeep.start_eq, hgrow⟩
      rw [← hc.ranges] at hadd
      simp only [Malloclab.validOp, hsz, hret, ok_bind, if_neg hp, hadd, hb]
      rw [← hsz, hs]
      rfl
  | realloc =>
    obtain ⟨hmem, hpos, hle⟩ := hop
    dsimp only at hmem hpos hle
    obtain ⟨hserved, hbyte⟩ := hre rfl
    dsimp only at hbyte
    obtain ⟨oldsize, hold⟩ := mem_ids_iff.mp hmem
    have hlt := hlimit.lt
    have hsz : toSize size = size.toNat := toSize_eq hpos.le (by omega)
    have hroom : Room d.st size.toNat := hlimit.room_of_le hv (by omega)
    obtain ⟨hpos', hle'⟩ := hc.size _ hold
    dsimp only at hpos' hle'
    have holdp : (d.ptr i, oldsize.toNat) ∈ d.payloads ids :=
      List.mem_map_of_mem (f := fun b => (d.ptr b.1, b.2.toNat)) hold
    have hload := hc.load_blocks hmem
    have hload' := hc.load_blockSizes hold
    rcases hserved.realloc hc.inv holdp (by omega) hroom with ⟨hfull, msg, hret⟩ |
      ⟨st, q, hret, hq, hinv, hkeep, hgrow, hdata⟩
    · left
      refine ⟨_, ?_, .inr ⟨rfl, msg, rfl⟩, hfull⟩
      simp only [Malloclab.validOp, hload, hsz, hret, ok_bind]
      rfl
    · right
      rw [← Held.payloads_filter hv.nodup hmem] at hinv hkeep
      have hsub : ids.filter (·.1 ≠ i) ⊆ ids := List.filter_sublist.subset
      obtain ⟨ranges, blocks, blockSizes, hadd, hb, hs, hchecked⟩ :=
        Checked.put h hc.toHeld hsub
          (hc.nodup.sublist (List.filter_sublist.map _)) (by simp) (hc.index _ hold) ⟨hpos, hle⟩ hlt
          hinv (hc.filled_of_keeps hsub hkeep) tracenum k
      refine ⟨_, ?_, hchecked, hkeep.start_eq, hgrow⟩
      have hranges : removeRange d.ranges (d.ptr i) =
          (d.payloads (ids.filter (·.1 ≠ i))).map extent := by
        rw [hc.ranges, removeRange_eq hv.nodup, Held.payloads_filter hv.nodup hmem]
      -- the data of the old block
      have hkept : preserved st q (if size < oldsize then size else oldsize) i := by
        intro j hj
        have hj' : j < oldsize.toNat ∧ j < size.toNat := by
          split_ifs at hj <;> omega
        rw [hdata j hj'.1 hj'.2, hc.filled _ hold j hj'.1, schar_fillByte hbyte]
      simp only [Malloclab.validOp, hload, hsz, hret, ok_bind, if_neg hq, hranges, hadd, hload',
        toInt_toNat hpos'.le (by omega), hkept, not_true_eq_false, if_false, hb]
      rw [← hsz, hs]
      rfl
  | free =>
    have hmem : i ∈ ids.map Prod.fst := hop
    obtain ⟨size', hold⟩ := mem_ids_iff.mp hmem
    have holdp : (d.ptr i, size'.toNat) ∈ d.payloads ids :=
      List.mem_map_of_mem (f := fun b => (d.ptr b.1, b.2.toNat)) hold
    obtain ⟨st, hret, hinv, hkeep, hbrk⟩ := h.free hc.inv holdp
    right
    have hranges : removeRange d.ranges (d.ptr i) =
        (d.payloads (ids.filter (·.1 ≠ i))).map extent := by
      rw [hc.ranges, removeRange_eq hv.nodup, Held.payloads_filter hv.nodup hmem]
    refine ⟨⟨st, d.blocks, d.blockSizes, removeRange d.ranges (d.ptr i)⟩, ?_,
      ⟨hc.toHeld.drop hv.nodup hmem hinv _, hranges, ?_⟩, hkeep.start_eq, hbrk.le⟩
    · simp only [Malloclab.validOp, hc.load_blocks hmem, hret, ok_bind]
      rfl
    · rw [← Held.payloads_filter hv.nodup hmem] at hkeep
      exact hc.filled_of_keeps List.filter_sublist.subset hkeep

/-! ## A whole trace -/

/-- **The requests of a trace.** All of them pass, or there is no memory for one of them. -/
theorem Checked.validOps (h : Contract pkg Inv) (hc : Checked Inv numIds limit d ids)
    (hre : ∀ op ∈ ops, Resizable pkg Inv op) (hlimit : Limit d.st.memStartBrk limit)
    (hops : Legal numIds limit ids ops) (tracenum k : ℕ) :
    (∃ j op e, ops[j]? = some op ∧ validOps pkg tracenum k ops d = .error e ∧
      OutOfMemory tracenum (k + j) op e ∧
      d.st.memStartBrk + maxHeap < d.st.memBrk + (ops.map TraceOp.demand).sum) ∨
    ∃ d', validOps pkg tracenum k ops d = .ok d' ∧
      Checked Inv numIds limit d' (idsAfter ids ops) ∧
      d'.st.memStartBrk = d.st.memStartBrk := by
  induction ops generalizing d ids k with
  | nil => exact .inr ⟨d, rfl, hc, rfl⟩
  | cons op ops ih =>
    obtain ⟨hop, hops⟩ := hops
    have hmax := (h.valid hc.inv).heap.max_eq
    rw [List.map_cons, List.sum_cons]
    rcases hc.validOp h (hre op List.mem_cons_self) hlimit hop tracenum k with
      ⟨e, herr, hmem, hfull⟩ | ⟨d', hok, hc', hstart, hbrk⟩
    · left
      refine ⟨0, op, e, rfl, ?_, hmem, by omega⟩
      rw [Malloclab.validOps, herr]
      rfl
    · rw [Malloclab.validOps, hok, ok_bind]
      rcases ih hc' (fun op hmem => hre op (List.mem_cons_of_mem _ hmem)) (hstart ▸ hlimit) hops
        (k + 1) with ⟨j, op', e, hj, herr, hmem, hfull⟩ | ⟨d₂, hrun, hc₂, hstart₂⟩
      · left
        refine ⟨j + 1, op', e, hj, herr, ?_, by omega⟩
        rwa [← Nat.add_assoc, Nat.add_right_comm]
      · exact .inr ⟨d₂, hrun, hc₂, hstart₂.trans hstart⟩

/-- **A whole trace.** `eval_mm_valid` returns 1, or there is no memory for a request; the trace
then asks for more than the heap may hold. -/
theorem Contract.evalMmValid (h : Contract pkg Inv) (hheap : HeapObject d.st)
    (hblocks : d.blocks.length = numIds) (hsizes : d.blockSizes.length = numIds)
    (hlimit : Limit d.st.memStartBrk limit) (hops : Legal numIds limit [] ops)
    (hre : ∀ op ∈ ops, Resizable pkg Inv op) (tracenum : ℕ) :
    (∃ d', evalMmValid pkg tracenum ops d = .ok d' ∧
      Checked Inv numIds limit d' (idsAfter [] ops) ∧
      d'.st.memStartBrk = d.st.memStartBrk) ∨
    (maxHeap < 16 + FirstFit.chunkSize + (ops.map TraceOp.demand).sum ∧
      ∃ k op e, ops[k]? = some op ∧ evalMmValid pkg tracenum ops d = .error e ∧
        OutOfMemory tracenum k op e) := by
  have hreset : HeapObject (memResetBrk d.st) :=
    ⟨hheap.start_mod, hheap.start_pos, hheap.max_eq, hheap.max_lt⟩
  obtain ⟨st, hret, hinv, hstart, hbrk⟩ := h.init hreset rfl
  have hstart' : st.memStartBrk = d.st.memStartBrk := hstart
  have hbrk' : st.memBrk ≤ d.st.memStartBrk + 16 + FirstFit.chunkSize := hbrk
  have hc : Checked Inv numIds limit ⟨st, d.blocks, d.blockSizes, []⟩ [] :=
    ⟨⟨hinv, List.nodup_nil, by simp, by simp, hblocks, hsizes, by simp⟩, rfl, by simp⟩
  have heval : Malloclab.evalMmValid pkg tracenum ops d =
      Malloclab.validOps pkg tracenum 0 ops ⟨st, d.blocks, d.blockSizes, []⟩ := by
    unfold Malloclab.evalMmValid
    rw [hret]
    rfl
  rw [heval]
  rcases hc.validOps h hre (hstart' ▸ hlimit) hops tracenum 0 with
    ⟨k, op, e, hk, herr, hmem, hfull⟩ | ⟨d', hrun, hc', hstart₁⟩
  · right
    rw [Nat.zero_add] at hmem
    dsimp only at hfull
    exact ⟨by omega, k, op, e, hk, herr, hmem⟩
  · exact .inl ⟨d', hrun, hc', hstart₁.trans hstart'⟩

end SystemsLabs.Malloclab
