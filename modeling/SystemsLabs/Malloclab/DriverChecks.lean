import SystemsLabs.Malloclab.Replay

/-!
# What the driver's checks are worth

These results hold for every package, whatever it does.

* `payloads_apart` — after a trace that `eval_mm_valid` has accepted, payloads are aligned, and two
  of them can only overlap if the younger one starts before the older one and ends behind it: that
  is what the test in `add_range` does not see.
* `not_accepted_of_signed` — no package is accepted on a trace that resizes a block whose id has a
  low byte of 128 or more, because the byte that the block is filled with is read back as a
  negative `char`.

**Assumptions.** The package keeps its heap within the bounds of `memlib` (`HeapBounds`), and sizes
are below `2 ^ 31`.
-/

namespace SystemsLabs.Malloclab

open SystemsLabs.Lib

variable {pkg : Package} {d d' e : Driver} {ids rest : Ids} {op : TraceOp}
  {ops ops' : List TraceOp} {numIds limit n p k tracenum : ℕ} {s st : State} {i size : ℤ}
  {live : List (ℕ × ℕ)} {ranges : List Range}

/-! ## The range list -/

/-- The record of a payload. -/
def extent (b : ℕ × ℕ) : Range := ⟨b.1, b.1 + b.2 - 1⟩

/-- With different pointers, `remove_range` drops the record of the payload and no other. -/
theorem removeRange_eq (hnd : (live.map Prod.fst).Nodup) (p : ℕ) :
    removeRange (live.map extent) p = (live.filter (·.1 ≠ p)).map extent := by
  induction live with
  | nil => rfl
  | cons b live ih =>
    rw [List.map_cons, List.nodup_cons] at hnd
    unfold removeRange at ih ⊢
    by_cases hb : b.1 = p
    · rw [List.filter_cons_of_neg (by simpa using hb), List.map_cons,
        List.eraseP_cons_of_pos (p := fun r : Range => decide (r.lo = p)) (decide_eq_true hb),
        List.filter_eq_self.mpr]
      intro c hc
      have hne : c.1 ≠ p := by
        rintro rfl
        exact hnd.1 (hb ▸ List.mem_map_of_mem hc)
      simpa using hne
    · rw [List.filter_cons_of_pos (by simpa using hb), List.map_cons, List.map_cons,
        List.eraseP_cons_of_neg (p := fun r : Range => decide (r.lo = p))
          (fun h => hb (of_decide_eq_true h)), ih hnd.2]

/-- What `mem_sbrk` makes of the heap: it lies in one object of `MAX_HEAP` bytes. -/
structure HeapBounds (s : State) : Prop where
  start_pos : 0 < s.memStartBrk
  start_le : s.memStartBrk ≤ s.memBrk
  brk_le : s.memBrk ≤ s.memStartBrk + maxHeap
  lt : s.memStartBrk + maxHeap < 2 ^ 32

instance (s : State) : Decidable (HeapBounds s) :=
  decidable_of_iff (0 < s.memStartBrk ∧ s.memStartBrk ≤ s.memBrk ∧
      s.memBrk ≤ s.memStartBrk + maxHeap ∧ s.memStartBrk + maxHeap < 2 ^ 32)
    ⟨fun h => ⟨h.1, h.2.1, h.2.2.1, h.2.2.2⟩, fun h => ⟨h.1, h.2, h.3, h.4⟩⟩

/-- The two payloads do not overlap, or the second lies strictly inside the first. -/
def ApartOrInside (b c : ℕ × ℕ) : Prop :=
  b.1 + b.2 ≤ c.1 ∨ c.1 + c.2 ≤ b.1 ∨ (b.1 < c.1 ∧ c.1 + c.2 < b.1 + b.2)

/-- **What `add_range` accepts.** -/
theorem addRange_eq_ok_iff (hs : HeapBounds s) (hsize : size < 2 ^ 31)
    (hlive : ∀ c ∈ live, 0 < c.2) :
    addRange s (live.map extent) p size tracenum k = .ok ranges ↔
      0 < size ∧ p % 8 = 0 ∧ s.memStartBrk ≤ p ∧ p + size.toNat ≤ s.memBrk ∧
        (∀ c ∈ live, ApartOrInside (p, size.toNat) c) ∧
        ranges = ((p, size.toNat) :: live).map extent := by
  obtain ⟨hpos, hle, hbrk, hlt⟩ := hs
  have h20 : maxHeap < 2 ^ 31 := by decide
  have htop : memHeapHi s = s.memBrk - 1 := sub_eq (by omega) (by omega)
  by_cases hpos' : 0 < size
  swap
  · unfold addRange
    simp only [hpos', not_false_eq_true, if_true, false_and, iff_false]
    exact fun h => by cases h
  have hsz : toSize size = size.toNat := toSize_eq hpos'.le hsize
  -- the last address, unless it wraps around and lies outside
  obtain ⟨hi, hhi⟩ : ∃ hi, hi = sub (add p (toSize size)) 1 := ⟨_, rfl⟩
  have hin : ¬ Outside s p hi ↔ s.memStartBrk ≤ p ∧ p + size.toNat ≤ s.memBrk := by
    unfold Outside memHeapLo
    rw [htop, hhi, hsz]
    unfold sub add
    omega
  have hend : ¬ Outside s p hi → hi = p + size.toNat - 1 := by
    intro h
    obtain ⟨-, hfit⟩ := hin.mp h
    rw [hhi, hsz, add_eq (by omega)]
    exact sub_eq (by omega) (by omega)
  have hover : ∀ c ∈ live, hi = p + size.toNat - 1 →
      (¬ Overlaps p hi (extent c) ↔ ApartOrInside (p, size.toNat) c) := by
    intro c hc heq
    have := hlive c hc
    unfold Overlaps extent ApartOrInside
    dsimp only
    rw [heq]
    omega
  have hnone : hi = p + size.toNat - 1 →
      ((live.map extent).find? (fun r => decide (Overlaps p hi r)) = none ↔
        ∀ c ∈ live, ApartOrInside (p, size.toNat) c) := by
    intro heq
    rw [List.find?_eq_none, List.forall_mem_map]
    refine forall₂_congr fun c hc => ?_
    rw [← hover c hc heq, decide_eq_true_iff]
  unfold addRange
  simp only [← hhi, hpos', not_true_eq_false, if_false]
  by_cases hmod : IsAligned p
  swap
  · rw [if_pos hmod]
    exact iff_of_false (fun h => by cases h) fun h => hmod h.2.1
  rw [if_neg (not_not.mpr hmod)]
  by_cases hout : Outside s p hi
  · rw [if_pos hout]
    exact iff_of_false (fun h => by cases h) fun h => hin.mpr ⟨h.2.2.1, h.2.2.2.1⟩ hout
  rw [if_neg hout]
  obtain ⟨hlo, hfit⟩ := hin.mp hout
  have heq := hend hout
  have hnone := hnone heq
  cases hfind : (live.map extent).find? fun r => decide (Overlaps p hi r) with
  | some r =>
    rw [hfind] at hnone
    exact iff_of_false (fun h => by cases h) fun h => by cases hnone.mpr h.2.2.2.2.1
  | none =>
    rw [hfind] at hnone
    have hall := hnone.mp rfl
    have hmod' : p % 8 = 0 := hmod
    dsimp only
    rw [Except.ok.injEq, eq_comm, heq]
    exact ⟨fun h => ⟨trivial, hmod', hlo, hfit, hall, h⟩, fun h => h.2.2.2.2.2⟩

/-! ## Accepted traces -/

/-- What the checks leave of the payloads in use. -/
structure Sound (live : List (ℕ × ℕ)) : Prop where
  aligned : ∀ b ∈ live, b.1 % 8 = 0
  size_pos : ∀ b ∈ live, 0 < b.2
  apart : live.Pairwise ApartOrInside

namespace Sound

/-- No payload is recorded twice. -/
theorem nodup (h : Sound live) : (live.map Prod.fst).Nodup := by
  rw [List.Nodup, List.pairwise_map]
  refine h.apart.imp_of_mem fun {b c} hb hc hbc => ?_
  have hb := h.size_pos b hb
  have hc := h.size_pos c hc
  unfold ApartOrInside at hbc
  omega

/-- A release keeps the other payloads apart. -/
theorem filter (h : Sound live) (p : ℕ) : Sound (live.filter (·.1 ≠ p)) :=
  ⟨fun b hb => h.aligned b (List.filter_sublist.subset hb),
    fun b hb => h.size_pos b (List.filter_sublist.subset hb), h.apart.sublist List.filter_sublist⟩

end Sound

/-- The invariant of `eval_mm_valid` on any package: the range list holds the extents of the
payloads in use. -/
structure Recorded (numIds limit : ℕ) (d : Driver) (ids : Ids) : Prop
    extends Held (fun _ live => Sound live) numIds limit d ids where
  ranges : d.ranges = (d.payloads ids).map extent

namespace Recorded

/-- A payload that `add_range` accepts under a fresh id. -/
theorem put {blocks blockSizes : List ℕ} (h : Recorded numIds limit d ids) (hsub : rest ⊆ ids)
    (hnd : (rest.map Prod.fst).Nodup) (hfresh : i ∉ rest.map Prod.fst) (hi : 0 ≤ i ∧ i < numIds)
    (hsize : 0 < size ∧ size ≤ limit) (hlimit : limit < 2 ^ 31) (hsound : Sound (d.payloads rest))
    (hs : HeapBounds s) (hadd : addRange s ((d.payloads rest).map extent) p size tracenum k =
      .ok ranges) (hb : assign d.blocks i p = .ok blocks)
    (hz : assign d.blockSizes i (toSize size) = .ok blockSizes) :
    Recorded numIds limit ⟨st, blocks, blockSizes, ranges⟩ ((i, size) :: rest) := by
  obtain ⟨-, hmod, -, -, hall, rfl⟩ :=
    (addRange_eq_ok_iff hs (by omega) hsound.size_pos).mp hadd
  have hinv : Sound ((p, size.toNat) :: d.payloads rest) := by
    refine ⟨?_, ?_, List.pairwise_cons.mpr ⟨hall, hsound.apart⟩⟩
    · rintro b (_ | ⟨_, hmem⟩)
      · exact hmod
      · exact hsound.aligned b hmem
    · rintro b (_ | ⟨_, hmem⟩)
      · dsimp only
        omega
      · exact hsound.size_pos b hmem
  obtain ⟨blocks', blockSizes', hb', hz', hheld⟩ :=
    h.toHeld.put hsub hnd hfresh hi hsize hlimit
      (show (fun _ live => Sound live) st ((p, size.toNat) :: d.payloads rest) from hinv)
  rw [hb] at hb'
  rw [hz] at hz'
  obtain rfl := Except.ok.inj hb'
  obtain rfl := Except.ok.inj hz'
  obtain ⟨hheld, hpay⟩ := hheld (((p, size.toNat) :: d.payloads rest).map extent)
  exact ⟨hheld, by rw [hpay]⟩

/-- **One request of the trace**, whatever the package has done. -/
theorem step (h : Recorded numIds limit d ids) (hop : op.Legal numIds limit ids)
    (hlimit : limit < 2 ^ 31) (hvalid : validOp pkg tracenum k d op = .ok d')
    (hs : HeapBounds d'.st) : Recorded numIds limit d' (op.next ids) := by
  have hnodup := h.inv.nodup
  obtain ⟨type, i, size⟩ := op
  cases validStep_of_eq_ok hvalid with
  | alloc htype hret hp hadd hb hz =>
    obtain rfl : type = .alloc := htype
    obtain ⟨⟨hi₀, hi, hfresh⟩, hsize⟩ := hop
    rw [h.ranges] at hadd
    exact h.put (List.Subset.refl ids) h.nodup hfresh ⟨hi₀, hi⟩ hsize hlimit h.inv
      ⟨hs.start_pos, hs.start_le, hs.brk_le, hs.lt⟩ hadd hb hz
  | realloc htype hload hret hp hadd hload' hdata hb hz =>
    obtain rfl : type = .realloc := htype
    obtain ⟨hmem, hsize⟩ := hop
    dsimp only at hmem hload
    obtain ⟨oldsize, hold⟩ := mem_ids_iff.mp hmem
    rw [h.load_blocks hmem] at hload
    obtain rfl := Except.ok.inj hload
    rw [h.ranges, removeRange_eq hnodup, ← Held.payloads_filter hnodup hmem] at hadd
    have hsound := h.inv.filter (d.ptr i)
    rw [← Held.payloads_filter hnodup hmem] at hsound
    exact h.put List.filter_sublist.subset (h.nodup.sublist (List.filter_sublist.map _)) (by simp)
      (h.index _ hold) hsize hlimit hsound ⟨hs.start_pos, hs.start_le, hs.brk_le, hs.lt⟩ hadd hb hz
  | free htype hload hret =>
    obtain rfl : type = .free := htype
    have hmem : i ∈ ids.map Prod.fst := hop
    dsimp only at hload
    rw [h.load_blocks hmem] at hload
    obtain rfl := Except.ok.inj hload
    have hpay := Held.payloads_filter hnodup hmem
    refine ⟨h.toHeld.drop hnodup hmem (h.inv.filter _) _, ?_⟩
    change removeRange d.ranges (d.ptr i) = (d.payloads (ids.filter (·.1 ≠ i))).map extent
    rw [h.ranges, removeRange_eq hnodup, hpay]

/-- The requests of a trace. -/
theorem run (h : Recorded numIds limit d ids) (hops : Legal numIds limit ids ops)
    (hlimit : limit < 2 ^ 31) (hvalid : validOps pkg tracenum k ops d = .ok d')
    (hs : ∀ j e, validOps pkg tracenum k (ops.take j) d = .ok e → HeapBounds e.st) :
    Recorded numIds limit d' (idsAfter ids ops) := by
  induction ops generalizing d ids k with
  | nil =>
    obtain rfl := Except.ok.inj hvalid
    exact h
  | cons op ops ih =>
    obtain ⟨d₁, hd₁, hrest⟩ := bind_eq_ok.mp hvalid
    have hfirst : ∀ j, validOps pkg tracenum k ((op :: ops).take (j + 1)) d =
        validOps pkg tracenum (k + 1) (ops.take j) d₁ := by
      intro j
      rw [List.take_succ_cons, validOps, hd₁]
      rfl
    have hs₁ : HeapBounds d₁.st := hs 1 d₁ (by rw [hfirst 0]; rfl)
    exact ih (h.step hops.1 hlimit hd₁ hs₁) hops.2 hrest fun j e he => hs (j + 1) e (by
      rw [hfirst j, he])

end Recorded

/-- **What acceptance means.** Whatever the package does, after a legal trace that `eval_mm_valid`
has accepted the payloads in use are aligned, and of two of them the younger one may at most enclose
the older one. -/
theorem payloads_apart (pkg : Package) (tracenum : ℕ) (ops : List TraceOp) (d d' : Driver)
    (hblocks : d.blocks.length = numIds) (hsizes : d.blockSizes.length = numIds)
    (hlimit : limit < 2 ^ 31) (hops : Legal numIds limit [] ops)
    (hs : ∀ j e, evalMmValid pkg tracenum (ops.take j) d = .ok e → HeapBounds e.st)
    (hvalid : evalMmValid pkg tracenum ops d = .ok d') :
    (∀ b ∈ d'.payloads (idsAfter [] ops), b.1 % 8 = 0) ∧
      (d'.payloads (idsAfter [] ops)).Pairwise ApartOrInside := by
  obtain ⟨⟨st, rc⟩, hret, hrest⟩ := bind_eq_ok.mp hvalid
  obtain ⟨hrc, hrest⟩ := ite_error_eq_ok.mp hrest
  have h₀ : Recorded numIds limit ⟨st, d.blocks, d.blockSizes, []⟩ [] :=
    ⟨⟨⟨by simp [Driver.payloads], by simp [Driver.payloads], List.Pairwise.nil⟩, List.nodup_nil,
      by simp, by simp, hblocks, hsizes, by simp⟩, rfl⟩
  have hextends : ∀ j, evalMmValid pkg tracenum (ops.take j) d =
      validOps pkg tracenum 0 (ops.take j) ⟨st, d.blocks, d.blockSizes, []⟩ := by
    intro j
    rw [evalMmValid, hret, ok_bind]
    exact if_neg hrc
  have h := h₀.run hops hlimit hrest fun j e he => hs j e ((hextends j).trans he)
  exact ⟨h.inv.aligned, h.inv.apart⟩

/-- Two payloads of `mm-firstfit.c`. -/
theorem payloads_apart_example : ∃ d', evalMmValid FirstFit.firstFit 0
    [⟨.alloc, 0, 512⟩, ⟨.alloc, 1, 128⟩] ⟨memInit 4096 fun _ => 0, [0, 0], [0, 0], []⟩ = .ok d' ∧
    (∀ b ∈ d'.payloads [(1, 128), (0, 512)], b.1 % 8 = 0) ∧
      (d'.payloads [(1, 128), (0, 512)]).Pairwise ApartOrInside := by
  have hprefix : ∀ j < 3, ∀ e ∈ (evalMmValid FirstFit.firstFit 0
      (List.take j [⟨.alloc, 0, 512⟩, ⟨.alloc, 1, 128⟩])
      ⟨memInit 4096 fun _ => 0, [0, 0], [0, 0], []⟩).toOption, HeapBounds e.st := by
    decide +kernel
  obtain ⟨d', hvalid⟩ := Option.isSome_iff_exists.mp (show (evalMmValid FirstFit.firstFit 0
    [⟨.alloc, 0, 512⟩, ⟨.alloc, 1, 128⟩]
    ⟨memInit 4096 fun _ => 0, [0, 0], [0, 0], []⟩).toOption.isSome by decide +kernel)
  have hvalid := toOption_eq_some.mp hvalid
  refine ⟨d', hvalid, payloads_apart FirstFit.firstFit 0 _ _ d' rfl rfl
    (show 512 < 2 ^ 31 by decide) (by decide) (fun j e he => ?_) hvalid⟩
  rw [List.take_eq_take_min] at he
  exact hprefix (min j 2) (by omega) e (toOption_eq_some.mpr he)

/-! ## The look at the data -/

/-- A `char` is at most 127. -/
theorem schar_lt (b : UInt8) : schar b < 128 := by
  have := b.toNat_lt
  unfold schar
  split_ifs <;> omega

/-- The size that is remembered for an id is positive as an `int`. -/
def Sized (d : Driver) (i : ℤ) : Prop := ∃ n, load d.blockSizes i = .ok n ∧ 0 < toInt n

/-- A size is the same as an `int` and as a `size_t`. -/
theorem toInt_toSize (hsize : size < 2 ^ 31) (hpos : 0 < size) : toInt (toSize size) = size := by
  rw [toSize_eq hpos.le hsize, toInt_toNat hpos.le hsize]

/-- `add_range` asserts that the size is positive. -/
theorem size_pos_of_addRange {rs : List Range} (h : addRange s rs p size tracenum k = .ok ranges) :
    0 < size := by
  by_contra hneg
  unfold addRange at h
  simp only [hneg, not_false_eq_true, if_true] at h
  cases h

/-- Reading an array that has been assigned to. -/
theorem load_assign {α : Type*} {a b : List α} {v : α} {j : ℤ} (h : assign a i v = .ok b) :
    load b j = if j = i then .ok v else load a j := by
  unfold assign at h
  split_ifs at h with hi
  obtain rfl := Except.ok.inj h
  unfold load
  by_cases hj : j < 0
  · rw [if_pos hj, if_pos hj, if_neg (by omega)]
  · rw [if_neg hj, if_neg hj]
    by_cases hji : j = i
    · rw [if_pos hji, hji, List.getElem?_set_self hi.2]
      rfl
    · rw [if_neg hji, List.getElem?_set_ne (by omega)]

/-- A request remembers a positive size for the id that it gives a block, and keeps the others. -/
theorem sized_of_validOp (hsize : op.size < 2 ^ 31)
    (hvalid : validOp pkg tracenum k d op = .ok d') (i : ℤ)
    (h : (op.type ≠ .free ∧ op.index = i) ∨ Sized d i) : Sized d' i := by
  have hput : ∀ {blockSizes : List ℕ} {st : State} {blocks : List ℕ} {ranges : List Range},
      0 < op.size → assign d.blockSizes op.index (toSize op.size) = .ok blockSizes →
      Sized ⟨st, blocks, blockSizes, ranges⟩ i := by
    intro blockSizes st blocks ranges hpos hz
    unfold Sized
    rw [load_assign hz]
    by_cases hi : i = op.index
    · rw [if_pos hi]
      exact ⟨_, rfl, by rw [toInt_toSize hsize hpos]; exact hpos⟩
    · rw [if_neg hi]
      exact h.resolve_left fun hop => hi hop.2.symm
  cases validStep_of_eq_ok hvalid with
  | alloc _ _ _ hadd _ hz => exact hput (size_pos_of_addRange hadd) hz
  | realloc _ _ _ _ hadd _ _ _ hz => exact hput (size_pos_of_addRange hadd) hz
  | free htype => exact h.resolve_left fun hop => hop.1 htype

/-- An id with a high low byte cannot be resized. -/
theorem validOp_ne_ok (hsized : Sized d op.index) (htype : op.type = .realloc)
    (hbyte : 128 ≤ lowByte op.index) : validOp pkg tracenum k d op ≠ .ok d' := by
  intro hvalid
  cases validStep_of_eq_ok hvalid with
  | alloc h => rw [htype] at h; cases h
  | free h => rw [htype] at h; cases h
  | realloc _ _ _ _ hadd hload hdata _ _ =>
    obtain ⟨n, hn, hpos⟩ := hsized
    rw [hload] at hn
    obtain rfl := Except.ok.inj hn
    have hsize := size_pos_of_addRange hadd
    -- the first byte is compared
    have hfirst := hdata 0 (by split_ifs <;> omega)
    rw [← hfirst] at hbyte
    exact absurd hbyte (not_le.mpr (schar_lt _))

/-- A trace passes if its first part does, and then the rest. -/
theorem validOps_append : validOps pkg tracenum k (ops ++ ops') d = .ok d' ↔
    ∃ e, validOps pkg tracenum k ops d = .ok e ∧
      validOps pkg tracenum (k + ops.length) ops' e = .ok d' := by
  induction ops generalizing d k with
  | nil => exact ⟨fun h => ⟨d, rfl, h⟩, fun ⟨_, he, h⟩ => Except.ok.inj he ▸ h⟩
  | cons op ops ih =>
    simp only [List.cons_append, validOps, bind_eq_ok, ih, List.length_cons]
    constructor
    · rintro ⟨d₁, h₁, e, he, h⟩
      exact ⟨e, ⟨d₁, h₁, he⟩, by rwa [Nat.add_assoc, Nat.add_comm 1] at h⟩
    · rintro ⟨e, ⟨d₁, h₁, he⟩, h⟩
      exact ⟨d₁, h₁, e, he, by rwa [Nat.add_assoc, Nat.add_comm 1]⟩

/-- The requests of a trace go on to remember a positive size. -/
theorem sized_of_validOps (hsize : ∀ op ∈ ops, op.size < 2 ^ 31)
    (hvalid : validOps pkg tracenum k ops d = .ok d') (h : Sized d i) : Sized d' i := by
  induction ops generalizing d k with
  | nil =>
    obtain rfl := Except.ok.inj hvalid
    exact h
  | cons op ops ih =>
    obtain ⟨d₁, hd₁, hrest⟩ := bind_eq_ok.mp hvalid
    have h₁ := sized_of_validOp (hsize op List.mem_cons_self) hd₁ i (.inr h)
    exact ih (fun op hop => hsize op (List.mem_cons_of_mem _ hop)) hrest h₁

/-- **A trace that no package passes.** If a block with an id whose low byte is 128 or more is
allocated and resized later on, `eval_mm_valid` does not return 1, whatever the package does: what
has been written as an `unsigned char` is compared as a signed one. -/
theorem not_accepted_of_signed (pkg : Package) (tracenum : ℕ) (before between after : List TraceOp)
    (a r : TraceOp) (d d' : Driver) (ha : a.type ≠ .free) (hr : r.type = .realloc)
    (hindex : a.index = r.index) (hbyte : 128 ≤ lowByte r.index)
    (hsize : ∀ op ∈ a :: between, op.size < 2 ^ 31) :
    evalMmValid pkg tracenum (before ++ (a :: (between ++ r :: after))) d ≠ .ok d' := by
  intro hvalid
  obtain ⟨⟨st, rc⟩, -, hrest⟩ := bind_eq_ok.mp hvalid
  obtain ⟨-, hrest⟩ := ite_error_eq_ok.mp hrest
  obtain ⟨d₁, -, hrest⟩ := validOps_append.mp hrest
  obtain ⟨d₂, ha₂, hrest⟩ := bind_eq_ok.mp hrest
  obtain ⟨d₃, hbetween, hrest⟩ := validOps_append.mp hrest
  obtain ⟨d₄, hr₄, -⟩ := bind_eq_ok.mp hrest
  have h₂ : Sized d₂ r.index :=
    sized_of_validOp (hsize a List.mem_cons_self) ha₂ r.index (.inl ⟨ha, hindex⟩)
  have h₃ := sized_of_validOps (fun op hop => hsize op (List.mem_cons_of_mem _ hop)) hbetween h₂
  exact validOp_ne_ok h₃ hr hbyte hr₄

/-- On `mm-firstfit.c`, which preserves the data. -/
theorem not_accepted_of_signed_example : ¬ ∃ d', evalMmValid FirstFit.firstFit 0
    [⟨.alloc, 200, 16⟩, ⟨.alloc, 1, 24⟩, ⟨.realloc, 200, 32⟩]
    ⟨memInit 4096 fun _ => 0, List.replicate 201 0, List.replicate 201 0, []⟩ = .ok d' := by
  rintro ⟨d', hvalid⟩
  exact not_accepted_of_signed FirstFit.firstFit 0 [] [⟨.alloc, 1, 24⟩] [] ⟨.alloc, 200, 16⟩
    ⟨.realloc, 200, 32⟩ _ d' (by decide) rfl rfl (by decide) (by decide) hvalid

end SystemsLabs.Malloclab
