import SystemsLabs.Malloclab.Driver
import SystemsLabs.Malloclab.Contract
import Mathlib.Data.List.Nodup

/-!
# What a trace asks for

A trace names its blocks by ids. `Ids` are the ids in use with their sizes, `TraceOp.next` is what a
request makes of them, and `Legal` traces use each id for one block at a time. This says what a
trace means whatever package it is replayed on. `Held` ties it to a state of the driver: the arrays
of the trace hold, for every id in use, the pointer and the size of a live payload of the package.

**Assumptions.** `Limit` bounds the sizes of a trace: a block at the top of the largest heap does
not wrap around.
-/

namespace SystemsLabs.Malloclab

open SystemsLabs.Lib

/-- The ids in use and the sizes of their blocks. -/
abbrev Ids : Type := List (ℤ × ℤ)

/-- The ids in use after a request. -/
def TraceOp.next (op : TraceOp) (ids : Ids) : Ids :=
  match op.type with
  | .alloc => (op.index, op.size) :: ids
  | .realloc => (op.index, op.size) :: ids.filter (·.1 ≠ op.index)
  | .free => ids.filter (·.1 ≠ op.index)

/-- A block may be asked for under an id below `numIds` that is not in use, and one in use may be
resized and released. Sizes are positive, and at most `limit`. -/
def TraceOp.Legal (numIds limit : ℕ) (op : TraceOp) (ids : Ids) : Prop :=
  match op.type with
  | .alloc => (0 ≤ op.index ∧ op.index < numIds ∧ op.index ∉ ids.map Prod.fst) ∧
    0 < op.size ∧ op.size ≤ limit
  | .realloc => op.index ∈ ids.map Prod.fst ∧ 0 < op.size ∧ op.size ≤ limit
  | .free => op.index ∈ ids.map Prod.fst

instance (numIds limit : ℕ) (op : TraceOp) (ids : Ids) : Decidable (op.Legal numIds limit ids) := by
  unfold TraceOp.Legal
  split <;> infer_instance

/-- Every request is legal where it stands. -/
def Legal (numIds limit : ℕ) : Ids → List TraceOp → Prop
  | _, [] => True
  | ids, op :: ops => op.Legal numIds limit ids ∧ Legal numIds limit (op.next ids) ops

instance decidableLegal (numIds limit : ℕ) : ∀ (ids : Ids) (ops : List TraceOp),
    Decidable (Legal numIds limit ids ops)
  | _, [] => inferInstanceAs (Decidable True)
  | ids, op :: ops =>
    have := decidableLegal numIds limit (op.next ids) ops
    inferInstanceAs (Decidable (_ ∧ Legal numIds limit (op.next ids) ops))

/-- The ids in use after some requests. -/
def idsAfter (ids : Ids) (ops : List TraceOp) : Ids := ops.foldl (fun ids op => op.next ids) ids

/-- The number of payload bytes in use. -/
def total (ids : Ids) : ℤ := (ids.map Prod.snd).sum

/-- What the requests of a trace may at most take from `mem_sbrk`. -/
def TraceOp.demand (op : TraceOp) : ℕ :=
  if op.type = .free then 0 else Malloclab.demand op.size.toNat

variable {pkg : Package} {Inv : State → List (ℕ × ℕ) → Prop} {d : Driver} {ids rest : Ids}
  {op : TraceOp} {ops : List TraceOp} {numIds limit n p : ℕ} {s st : State} {i size : ℤ}
  {live : List (ℕ × ℕ)}

/-- An id in use has a size. -/
theorem mem_ids_iff : i ∈ ids.map Prod.fst ↔ ∃ size, (i, size) ∈ ids := by
  simp

/-- One more id in use. -/
theorem total_cons (b : ℤ × ℤ) : total (b :: ids) = b.2 + total ids := by
  rw [total, List.map_cons, List.sum_cons]
  rfl

/-- The sizes without that of one id. -/
theorem total_filter (hnd : (ids.map Prod.fst).Nodup) (h : (i, size) ∈ ids) :
    total (ids.filter (·.1 ≠ i)) = total ids - size := by
  induction ids with
  | nil => cases h
  | cons b ids ih =>
    rw [List.map_cons, List.nodup_cons] at hnd
    rw [total_cons]
    rcases List.mem_cons.mp h with rfl | h
    · rw [List.filter_cons_of_neg (by simp), List.filter_eq_self.mpr]
      · omega
      · rintro ⟨j, k⟩ hj
        have hne : j ≠ i := by
          rintro rfl
          exact hnd.1 (mem_ids_iff.mpr ⟨k, hj⟩)
        simpa using hne
    · have hne : b.1 ≠ i := by
        rintro rfl
        exact hnd.1 (mem_ids_iff.mpr ⟨size, h⟩)
      rw [List.filter_cons_of_pos (by simpa using hne), total_cons, ih hnd.2 h]
      omega

/-! ## The arrays -/

/-- Reading an array within its bounds. -/
theorem load_eq {α : Type*} {a : List α} {v : α} (hi : 0 ≤ i) (h : a[i.toNat]? = some v) :
    load a i = .ok v := by
  unfold load
  rw [if_neg (by omega), h]
  rfl

/-- Writing to an array within its bounds. -/
theorem assign_eq {α : Type*} {a : List α} {v : α} (hi : 0 ≤ i) (h : i < a.length) :
    assign a i v = .ok (a.set i.toNat v) :=
  if_pos ⟨hi, by omega⟩

/-- A size that is not negative is the same as a `size_t`. -/
theorem toSize_eq (h : 0 ≤ size) (hlt : size < 2 ^ 31) : toSize size = size.toNat := by
  unfold toSize
  rw [Int.emod_eq_of_lt h (by omega)]

/-- The conversion back. -/
theorem toInt_toNat (h : 0 ≤ size) (hlt : size < 2 ^ 31) : toInt size.toNat = size := by
  unfold toInt
  rw [if_pos (by omega)]
  omega

/-! ## Ids and live payloads -/

/-- `trace->blocks[i]`. -/
def Driver.ptr (d : Driver) (i : ℤ) : ℕ := d.blocks.getD i.toNat NULL

/-- The live payloads, one for each id in use. -/
def Driver.payloads (d : Driver) (ids : Ids) : List (ℕ × ℕ) :=
  ids.map fun b => (d.ptr b.1, b.2.toNat)

/-- The driver holds a live payload for every id in use, and knows its size. -/
structure Held (Inv : State → List (ℕ × ℕ) → Prop) (numIds limit : ℕ) (d : Driver) (ids : Ids) :
    Prop where
  inv : Inv d.st (d.payloads ids)
  nodup : (ids.map Prod.fst).Nodup
  index : ∀ b ∈ ids, 0 ≤ b.1 ∧ b.1 < numIds
  size : ∀ b ∈ ids, 0 < b.2 ∧ b.2 ≤ limit
  length_blocks : d.blocks.length = numIds
  length_blockSizes : d.blockSizes.length = numIds
  blockSizes : ∀ b ∈ ids, d.blockSizes[b.1.toNat]? = some b.2.toNat

/-- A request of at most `limit` bytes does not wrap around. -/
structure Limit (start limit : ℕ) : Prop where
  lt : limit < 2 ^ 31
  room : start + maxHeap + limit + FirstFit.chunkSize < 2 ^ 32

instance (start limit : ℕ) : Decidable (Limit start limit) :=
  decidable_of_iff (limit < 2 ^ 31 ∧ start + maxHeap + limit + FirstFit.chunkSize < 2 ^ 32)
    ⟨fun h => ⟨h.1, h.2⟩, fun h => ⟨h.1, h.2⟩⟩

/-- A block is at most 16 bytes larger than its payload. -/
theorem adjust_le (hn : n + 15 < 2 ^ 32) : adjust n ≤ n + 16 := by
  by_cases h : n ≤ 8
  · rw [adjust, if_pos h]
    exact Nat.le_add_left _ _
  · have h₁ : add n overhead = n + 8 := add_eq (by simp only [overhead]; omega)
    have h₂ : add (n + 8) (dsize - 1) = n + 8 + 7 := add_eq (by simp only [dsize]; omega)
    rw [adjust, if_neg h, h₁, h₂]
    simp only [dsize]
    omega

/-- Within the limit no request wraps around. -/
theorem Limit.room_of_le (h : Limit s.memStartBrk limit) (hv : Valid s live) (hn : n ≤ limit) :
    Room s n := by
  obtain ⟨hlt, hroom⟩ := h
  have hmax := hv.heap.max_eq
  have hbrk := hv.brk_le
  have hn' : n + 15 < 2 ^ 32 := by omega
  have hadj := adjust_le hn'
  have hchunk : FirstFit.chunkSize = 4096 := rfl
  refine ⟨hn', fun _ => ?_⟩
  have hle : demand n ≤ n + FirstFit.chunkSize := Nat.max_le.mpr ⟨by omega, by omega⟩
  omega

namespace Held

/-- The pointer of an id in use can be read. -/
theorem load_blocks (h : Held Inv numIds limit d ids) (hi : i ∈ ids.map Prod.fst) :
    load d.blocks i = .ok (d.ptr i) := by
  obtain ⟨size, hmem⟩ := mem_ids_iff.mp hi
  obtain ⟨h₀, h₁⟩ := h.index _ hmem
  have hlen := h.length_blocks
  apply load_eq h₀
  unfold Driver.ptr
  rw [List.getD_eq_getElem?_getD, List.getElem?_eq_getElem (by dsimp only at h₁; omega)]
  rfl

/-- The size of an id in use can be read. -/
theorem load_blockSizes (h : Held Inv numIds limit d ids) (hi : (i, size) ∈ ids) :
    load d.blockSizes i = .ok size.toNat :=
  load_eq (h.index _ hi).1 (h.blockSizes _ hi)

/-- Different ids have different pointers. -/
theorem ptr_inj (hptrs : ((d.payloads ids).map Prod.fst).Nodup) {j : ℤ}
    (hi : i ∈ ids.map Prod.fst) (hj : j ∈ ids.map Prod.fst) (hij : d.ptr i = d.ptr j) : i = j := by
  have hptr : ((ids.map Prod.fst).map d.ptr).Nodup := by
    unfold Driver.payloads at hptrs
    rw [List.map_map] at hptrs ⊢
    exact hptrs
  exact List.inj_on_of_nodup_map hptr hi hj hij

/-- To drop an id is to drop its payload. -/
theorem payloads_filter (hptrs : ((d.payloads ids).map Prod.fst).Nodup)
    (hi : i ∈ ids.map Prod.fst) :
    d.payloads (ids.filter (·.1 ≠ i)) = (d.payloads ids).filter (·.1 ≠ d.ptr i) := by
  unfold Driver.payloads
  rw [List.filter_map]
  congr 1
  apply List.filter_congr
  intro b hb
  have hmem : b.1 ∈ ids.map Prod.fst := List.mem_map_of_mem hb
  have hiff : b.1 = i ↔ d.ptr b.1 = d.ptr i := by
    constructor
    · rintro rfl
      rfl
    · exact ptr_inj hptrs hmem hi
  simp [hiff]

/-- The payloads of the other ids, after the array is written. -/
theorem payloads_set {blockSizes : List ℕ} {ranges : List Range} (hi : 0 ≤ i)
    (hrest : ∀ b ∈ rest, 0 ≤ b.1 ∧ b.1 ≠ i) :
    (⟨st, d.blocks.set i.toNat p, blockSizes, ranges⟩ : Driver).payloads rest =
      d.payloads rest := by
  apply List.map_congr_left
  intro b hb
  obtain ⟨h₀, hne⟩ := hrest b hb
  have hptr : (⟨st, d.blocks.set i.toNat p, blockSizes, ranges⟩ : Driver).ptr b.1 =
      d.ptr b.1 := by
    unfold Driver.ptr
    rw [List.getD_eq_getElem?_getD, List.getElem?_set_ne (by omega),
      ← List.getD_eq_getElem?_getD]
  rw [hptr]

/-- A block under a fresh id. -/
theorem put (h : Held Inv numIds limit d ids) (hsub : rest ⊆ ids) (hnd : (rest.map Prod.fst).Nodup)
    (hfresh : i ∉ rest.map Prod.fst) (hi : 0 ≤ i ∧ i < numIds)
    (hsize : 0 < size ∧ size ≤ limit) (hlimit : limit < 2 ^ 31)
    (hinv : Inv st ((p, size.toNat) :: d.payloads rest)) : ∃ blocks blockSizes,
    assign d.blocks i p = .ok blocks ∧ assign d.blockSizes i (toSize size) = .ok blockSizes ∧
      ∀ ranges, Held Inv numIds limit ⟨st, blocks, blockSizes, ranges⟩ ((i, size) :: rest) ∧
        (⟨st, blocks, blockSizes, ranges⟩ : Driver).payloads ((i, size) :: rest) =
          (p, size.toNat) :: d.payloads rest := by
  have hlen := h.length_blocks
  have hlen' := h.length_blockSizes
  have hsz : toSize size = size.toNat := toSize_eq hsize.1.le (by omega)
  refine ⟨_, _, assign_eq hi.1 (by omega), assign_eq hi.1 (by omega), fun ranges => ?_⟩
  have hne : ∀ b ∈ rest, 0 ≤ b.1 ∧ b.1 ≠ i := by
    intro b hb
    refine ⟨(h.index b (hsub hb)).1, ?_⟩
    rintro rfl
    exact hfresh (List.mem_map_of_mem hb)
  have hptr : (⟨st, d.blocks.set i.toNat p, d.blockSizes.set i.toNat (toSize size), ranges⟩ :
      Driver).ptr i = p := by
    unfold Driver.ptr
    rw [List.getD_eq_getElem?_getD, List.getElem?_set_self (by omega)]
    rfl
  have hpay : (⟨st, d.blocks.set i.toNat p, d.blockSizes.set i.toNat (toSize size), ranges⟩ :
      Driver).payloads ((i, size) :: rest) = (p, size.toNat) :: d.payloads rest := by
    rw [← payloads_set hi.1 hne, Driver.payloads, List.map_cons, hptr]
    rfl
  refine ⟨⟨hpay ▸ hinv, ?_, ?_, ?_, ?_, ?_, ?_⟩, hpay⟩
  · rw [List.map_cons, List.nodup_cons]
    exact ⟨hfresh, hnd⟩
  · rintro b (_ | ⟨_, hb⟩)
    · exact hi
    · exact h.index b (hsub hb)
  · rintro b (_ | ⟨_, hb⟩)
    · exact hsize
    · exact h.size b (hsub hb)
  · rw [List.length_set, hlen]
  · rw [List.length_set, hlen']
  · rintro b (_ | ⟨_, hb⟩)
    · dsimp only
      rw [List.getElem?_set_self (by omega), hsz]
    · obtain ⟨h₀, hbi⟩ := hne b hb
      dsimp only
      rw [List.getElem?_set_ne (by omega)]
      exact h.blockSizes b (hsub hb)

/-- An id is dropped. -/
theorem drop (h : Held Inv numIds limit d ids) (hptrs : ((d.payloads ids).map Prod.fst).Nodup)
    (hi : i ∈ ids.map Prod.fst) (hinv : Inv st ((d.payloads ids).filter (·.1 ≠ d.ptr i)))
    (ranges : List Range) :
    Held Inv numIds limit ⟨st, d.blocks, d.blockSizes, ranges⟩ (ids.filter (·.1 ≠ i)) where
  inv := by
    change Inv st (d.payloads (ids.filter (·.1 ≠ i)))
    rw [payloads_filter hptrs hi]
    exact hinv
  nodup := h.nodup.sublist (List.filter_sublist.map _)
  index := fun b hb => h.index b (List.filter_sublist.subset hb)
  size := fun b hb => h.size b (List.filter_sublist.subset hb)
  length_blocks := h.length_blocks
  length_blockSizes := h.length_blockSizes
  blockSizes := fun b hb => h.blockSizes b (List.filter_sublist.subset hb)

end Held

end SystemsLabs.Malloclab
