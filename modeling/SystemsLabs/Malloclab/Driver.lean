import SystemsLabs.Malloclab.Package
import SystemsLabs.Lib.Except

/-!
# The driver (`mdriver.c`)

The driver replays the requests of a trace on a package. `eval_mm_valid` checks each payload that it
gets against the extents of the payloads it holds (`add_range`), fills it with the low byte of its
id, and looks for that byte after an `mm_realloc`. `eval_mm_util` replays the trace once more and
compares the largest total of live payload bytes with the size of the heap.

The driver's own storage is apart from the heap. `int` is `ℤ`; where its arithmetic overflows, C
defines no result.

**Assumptions.** The `malloc` of a range record succeeds. The texts of the messages of
`malloc_error` are modelled, and where they are printed is not.
-/

namespace SystemsLabs.Malloclab

open SystemsLabs.Lib

/-! ## The data -/

/-- `range_t`: the first and last address of a payload. -/
structure Range where
  lo : ℕ
  hi : ℕ
  deriving DecidableEq

/-- The type of a request. -/
inductive OpType
  | alloc
  | free
  | realloc
  deriving DecidableEq

/-- `traceop_t`: a request of a trace. -/
structure TraceOp where
  type : OpType
  index : ℤ
  size : ℤ
  deriving DecidableEq

/-- The memory system with the package, the arrays of a trace, and the range list. -/
structure Driver where
  st : State
  /-- `trace->blocks`: the pointer that each id has got. -/
  blocks : List ℕ
  /-- `trace->block_sizes`: and its payload size. -/
  blockSizes : List ℕ
  /-- `*ranges`. -/
  ranges : List Range

/-- Conversion of an `int` to `size_t`. -/
def toSize (v : ℤ) : ℕ := (v % 2 ^ 32).toNat

/-- `a[i]`, defined inside the array. -/
def load {α : Type*} (a : List α) (i : ℤ) : Except Stop α :=
  if i < 0 then .error .undefined else defined a[i.toNat]?

/-- `a[i] = v`, defined inside the array. -/
def assign {α : Type*} (a : List α) (i : ℤ) (v : α) : Except Stop (List α) :=
  if 0 ≤ i ∧ i.toNat < a.length then .ok (a.set i.toNat v) else .error .undefined

/-! ## The range list -/

/-- `ALIGNMENT`. -/
abbrev alignment : ℕ := 8

/-- `IS_ALIGNED(p)`. -/
def IsAligned (p : ℕ) : Prop := p % alignment = 0

instance (p : ℕ) : Decidable (IsAligned p) := inferInstanceAs (Decidable (_ = _))

/-- The payload from `lo` to `hi` lies outside the heap. -/
def Outside (s : State) (lo hi : ℕ) : Prop :=
  lo < memHeapLo s ∨ lo > memHeapHi s ∨ hi < memHeapLo s ∨ hi > memHeapHi s

instance (s : State) (lo hi : ℕ) : Decidable (Outside s lo hi) :=
  inferInstanceAs (Decidable (_ ∨ _ ∨ _ ∨ _))

/-- The test for an overlap: the first or the last address of the new payload lies in an old one. -/
def Overlaps (lo hi : ℕ) (p : Range) : Prop :=
  (p.lo ≤ lo ∧ lo ≤ p.hi) ∨ (p.lo ≤ hi ∧ hi ≤ p.hi)

instance (lo hi : ℕ) : DecidablePred (Overlaps lo hi) :=
  fun _ => inferInstanceAs (Decidable (_ ∨ _))

/-- `add_range`: check the block of `size` bytes at `lo` for correctness, and add it to the list. -/
def addRange (s : State) (ranges : List Range) (lo : ℕ) (size : ℤ) (tracenum opnum : ℕ) :
    Except Stop (List Range) :=
  let hi := sub (add lo (toSize size)) 1
  if ¬ 0 < size then .error .assertion
  else if ¬ IsAligned lo then
    .error (.mallocError tracenum opnum
      ("Payload address (" ++ showPtr lo ++ ") not aligned to " ++ toString alignment ++ " bytes"))
  else if Outside s lo hi then
    .error (.mallocError tracenum opnum
      ("Payload (" ++ showPtr lo ++ ":" ++ showPtr hi ++ ") lies outside heap (" ++
        showPtr (memHeapLo s) ++ ":" ++ showPtr (memHeapHi s) ++ ")"))
  else
    match ranges.find? fun p => decide (Overlaps lo hi p) with
    | some p =>
      .error (.mallocError tracenum opnum
        ("Payload (" ++ showPtr lo ++ ":" ++ showPtr hi ++ ") overlaps another payload (" ++
          showPtr p.lo ++ ":" ++ showPtr p.hi ++ ")\n"))
    | none => .ok (⟨lo, hi⟩ :: ranges)

/-- `remove_range`: drop the record of the block whose payload starts at `lo`. -/
def removeRange (ranges : List Range) (lo : ℕ) : List Range :=
  ranges.eraseP fun p => decide (p.lo = lo)

/-! ## Filling payloads -/

/-- A byte as a `char`, which is signed here. -/
def schar (b : UInt8) : ℤ := if b.toNat < 128 then b.toNat else b.toNat - 256

/-- `index & 0xFF`. -/
def lowByte (index : ℤ) : ℤ := index % 256

/-- `memset(p, c, n)`. -/
def memset (s : State) (p : ℕ) (c : ℤ) (n : ℕ) : State :=
  { s with mem := fun a => if p ≤ a ∧ a < p + n then UInt8.ofNat c.toNat else s.mem a }

/-- The loop that compares `newp[j]`, for `j < oldsize`, with the low byte of the id. -/
def preserved (s : State) (newp : ℕ) (oldsize index : ℤ) : Prop :=
  ∀ j < oldsize.toNat, schar (s.mem (newp + j)) = lowByte index

instance (s : State) (newp : ℕ) (oldsize index : ℤ) : Decidable (preserved s newp oldsize index) :=
  inferInstanceAs (Decidable (∀ j < oldsize.toNat, _))

/-! ## `eval_mm_valid` -/

variable (pkg : Package)

/-- One request of the trace. -/
def validOp (tracenum opnum : ℕ) (d : Driver) (op : TraceOp) : Except Stop Driver :=
  match op.type with
  | .alloc => do
    -- call the student's malloc
    let (st, p) ← pkg.mmMalloc d.st (toSize op.size)
    if p = NULL then throw (.mallocError tracenum opnum "mm_malloc failed.")
    let ranges ← addRange st d.ranges p op.size tracenum opnum
    -- fill the range with the low byte of the index
    let st := memset st p (lowByte op.index) op.size.toNat
    -- remember the region
    let blocks ← assign d.blocks op.index p
    let blockSizes ← assign d.blockSizes op.index (toSize op.size)
    return ⟨st, blocks, blockSizes, ranges⟩
  | .realloc => do
    -- call the student's realloc
    let oldp ← load d.blocks op.index
    let (st, newp) ← pkg.mmRealloc d.st oldp (toSize op.size)
    if newp = NULL then throw (.mallocError tracenum opnum "mm_realloc failed.")
    let ranges ← addRange st (removeRange d.ranges oldp) newp op.size tracenum opnum
    -- the new block contains the data of the old one
    let oldsize := toInt (← load d.blockSizes op.index)
    let oldsize := if op.size < oldsize then op.size else oldsize
    if ¬ preserved st newp oldsize op.index then
      throw (.mallocError tracenum opnum "mm_realloc did not preserve the data from old block")
    let st := memset st newp (lowByte op.index) op.size.toNat
    let blocks ← assign d.blocks op.index newp
    let blockSizes ← assign d.blockSizes op.index (toSize op.size)
    return ⟨st, blocks, blockSizes, ranges⟩
  | .free => do
    -- remove the region from the list and call the student's free
    let p ← load d.blocks op.index
    let st ← pkg.mmFree d.st p
    return { d with st := st, ranges := removeRange d.ranges p }

/-- The requests of the trace from `opnum` on. -/
def validOps (tracenum : ℕ) : ℕ → List TraceOp → Driver → Except Stop Driver
  | _, [], d => .ok d
  | opnum, op :: ops, d => do
    let d ← validOp pkg tracenum opnum d op
    validOps tracenum (opnum + 1) ops d

/-- `eval_mm_valid`: check the package for correctness on a trace. A run that returns 1 is one that
ends in a state of the driver. -/
def evalMmValid (tracenum : ℕ) (ops : List TraceOp) (d : Driver) : Except Stop Driver := do
  let (st, rc) ← pkg.mmInit (memResetBrk d.st)
  if rc < 0 then throw (.mallocError tracenum 0 "mm_init failed.")
  validOps pkg tracenum 0 ops { d with st := st, ranges := [] }

/-- What a request that passes has done. -/
inductive ValidStep (tracenum opnum : ℕ) (d : Driver) (op : TraceOp) : Driver → Prop
  | alloc {st : State} {p : ℕ} {ranges : List Range} {blocks blockSizes : List ℕ} :
      op.type = .alloc → pkg.mmMalloc d.st (toSize op.size) = .ok (st, p) → p ≠ NULL →
      addRange st d.ranges p op.size tracenum opnum = .ok ranges →
      assign d.blocks op.index p = .ok blocks →
      assign d.blockSizes op.index (toSize op.size) = .ok blockSizes →
      ValidStep tracenum opnum d op
        ⟨memset st p (lowByte op.index) op.size.toNat, blocks, blockSizes, ranges⟩
  | realloc {oldp newp oldsize : ℕ} {st : State} {ranges : List Range}
      {blocks blockSizes : List ℕ} : op.type = .realloc → load d.blocks op.index = .ok oldp →
      pkg.mmRealloc d.st oldp (toSize op.size) = .ok (st, newp) → newp ≠ NULL →
      addRange st (removeRange d.ranges oldp) newp op.size tracenum opnum = .ok ranges →
      load d.blockSizes op.index = .ok oldsize →
      preserved st newp (if op.size < toInt oldsize then op.size else toInt oldsize) op.index →
      assign d.blocks op.index newp = .ok blocks →
      assign d.blockSizes op.index (toSize op.size) = .ok blockSizes →
      ValidStep tracenum opnum d op
        ⟨memset st newp (lowByte op.index) op.size.toNat, blocks, blockSizes, ranges⟩
  | free {p : ℕ} {st : State} : op.type = .free → load d.blocks op.index = .ok p →
      pkg.mmFree d.st p = .ok st →
      ValidStep tracenum opnum d op { d with st := st, ranges := removeRange d.ranges p }

/-- What a request that passes has done. -/
theorem validStep_of_eq_ok {pkg : Package} {tracenum opnum : ℕ} {d d' : Driver} {op : TraceOp}
    (h : validOp pkg tracenum opnum d op = .ok d') : ValidStep pkg tracenum opnum d op d' := by
  unfold validOp at h
  cases htype : op.type with
  | alloc =>
    simp only [htype] at h
    obtain ⟨⟨st, p⟩, hret, h⟩ := bind_eq_ok.mp h
    obtain ⟨hp, h⟩ := ite_error_eq_ok.mp h
    obtain ⟨ranges, hadd, h⟩ := bind_eq_ok.mp h
    obtain ⟨blocks, hb, h⟩ := bind_eq_ok.mp h
    obtain ⟨blockSizes, hs, h⟩ := bind_eq_ok.mp h
    obtain rfl := Except.ok.inj h
    exact .alloc htype hret hp hadd hb hs
  | realloc =>
    simp only [htype] at h
    obtain ⟨oldp, hold, h⟩ := bind_eq_ok.mp h
    obtain ⟨⟨st, newp⟩, hret, h⟩ := bind_eq_ok.mp h
    obtain ⟨hp, h⟩ := ite_error_eq_ok.mp h
    obtain ⟨ranges, hadd, h⟩ := bind_eq_ok.mp h
    obtain ⟨oldsize, hsize, h⟩ := bind_eq_ok.mp h
    obtain ⟨hdata, h⟩ := ite_error_eq_ok.mp h
    obtain ⟨blocks, hb, h⟩ := bind_eq_ok.mp h
    obtain ⟨blockSizes, hs, h⟩ := bind_eq_ok.mp h
    obtain rfl := Except.ok.inj h
    exact .realloc htype hold hret hp hadd hsize
      (not_not.mp hdata) hb hs
  | free =>
    simp only [htype] at h
    obtain ⟨p, hp, h⟩ := bind_eq_ok.mp h
    obtain ⟨st, hret, h⟩ := bind_eq_ok.mp h
    obtain rfl := Except.ok.inj h
    exact .free htype hp hret

/-! ## `eval_mm_util` -/

/-- A sum of `int` values. -/
def addInt (a b : ℤ) : Except Stop ℤ :=
  if -2 ^ 31 ≤ a + b ∧ a + b < 2 ^ 31 then .ok (a + b) else .error .undefined

/-- `mem_heapsize`: the size of the heap in bytes. -/
def memHeapsize (s : State) : ℕ := sub s.memBrk s.memStartBrk

/-- The counters of `eval_mm_util`. -/
structure Usage where
  totalSize : ℤ
  maxTotalSize : ℤ
  deriving DecidableEq

/-- Add to the current total size of all allocated blocks, and update the maximum. -/
def Usage.grow (u : Usage) (size : ℤ) : Except Stop Usage := do
  let totalSize ← addInt u.totalSize size
  return ⟨totalSize, if totalSize > u.maxTotalSize then totalSize else u.maxTotalSize⟩

/-- One request of the trace. -/
def utilOp (d : Driver) (u : Usage) (op : TraceOp) : Except Stop (Driver × Usage) :=
  match op.type with
  | .alloc => do
    let (st, p) ← pkg.mmMalloc d.st (toSize op.size)
    if p = NULL then throw (.exit "mm_malloc failed in eval_mm_util")
    let blocks ← assign d.blocks op.index p
    let blockSizes ← assign d.blockSizes op.index (toSize op.size)
    let u ← u.grow op.size
    return (⟨st, blocks, blockSizes, d.ranges⟩, u)
  | .realloc => do
    let oldsize := toInt (← load d.blockSizes op.index)
    let oldp ← load d.blocks op.index
    let (st, newp) ← pkg.mmRealloc d.st oldp (toSize op.size)
    if newp = NULL then throw (.exit "mm_realloc failed in eval_mm_util")
    let blocks ← assign d.blocks op.index newp
    let blockSizes ← assign d.blockSizes op.index (toSize op.size)
    let u ← u.grow (← addInt op.size (-oldsize))
    return (⟨st, blocks, blockSizes, d.ranges⟩, u)
  | .free => do
    let size := toInt (← load d.blockSizes op.index)
    let p ← load d.blocks op.index
    let st ← pkg.mmFree d.st p
    let totalSize ← addInt u.totalSize (-size)
    return ({ d with st := st }, { u with totalSize := totalSize })

/-- The requests of the trace. -/
def utilOps : List TraceOp → Driver → Usage → Except Stop (Driver × Usage)
  | [], d, u => .ok (d, u)
  | op :: ops, d, u => do
    let (d, u) ← utilOp pkg d u op
    utilOps ops d u

/-- `eval_mm_util`: the two numbers whose quotient it returns, with the state it leaves. -/
def evalMmUtil (ops : List TraceOp) (d : Driver) : Except Stop (Driver × ℤ × ℕ) := do
  let (st, rc) ← pkg.mmInit (memResetBrk d.st)
  if rc < 0 then throw (.exit "mm_init failed in eval_mm_util")
  let (d, u) ← utilOps pkg ops { d with st := st } ⟨0, 0⟩
  return (d, u.maxTotalSize, memHeapsize d.st)

end SystemsLabs.Malloclab
