import SystemsLabs.Lib.ByteMem
import Mathlib.Data.Int.Notation
import Mathlib.Tactic.NormNum
import Mathlib.Tactic.SplitIfs

/-!
# The simulated heap (`memlib.c`) and the word macros of `mm.c`

The package is built with `-m32`: `size_t` and pointers are 32 bits wide, so they are natural
numbers below `2 ^ 32` and `add`/`sub` are their wrapping arithmetic. `State` holds the static
variables of `memlib.c` (the simulated heap is one `malloc` of `MAX_HEAP` bytes) and the globals of
`mm.c`. A word access outside that one object has no defined behaviour in C: `get` and `put`
return `none` there, and every function built from them does too.

**Assumptions.** The `malloc` of `mem_init` succeeds. `errno` and the message of a failing
`mem_sbrk` are left out.
-/

namespace SystemsLabs.Malloclab

open SystemsLabs.Lib

/-! ## 32-bit arithmetic -/

/-- Addition of `size_t` values and of an offset to a pointer. -/
def add (p k : ℕ) : ℕ := (p + k) % 2 ^ 32

/-- Subtraction of `size_t` values and of an offset from a pointer. -/
def sub (p k : ℕ) : ℕ := (p + (2 ^ 32 - k)) % 2 ^ 32

/-- Conversion of a `size_t` to `int`. -/
def toInt (v : ℕ) : ℤ := if v < 2 ^ 31 then v else v - 2 ^ 32

/-- A sum that does not wrap around. -/
theorem add_eq {p k : ℕ} (h : p + k < 2 ^ 32) : add p k = p + k := Nat.mod_eq_of_lt h

/-- A difference that does not wrap around. -/
theorem sub_eq {p k : ℕ} (hk : k ≤ p) (hp : p < 2 ^ 32) : sub p k = p - k := by
  unfold sub
  omega

/-- The null pointer. -/
abbrev NULL : ℕ := 0

/-- `(void *)-1`. -/
def minusOne : ℕ := 2 ^ 32 - 1

/-! ## Constants -/

/-- `WSIZE`: word size in bytes. -/
abbrev wsize : ℕ := 4

/-- `DSIZE`: doubleword size in bytes. -/
abbrev dsize : ℕ := 8

/-- `OVERHEAD`: overhead of header and footer in bytes. -/
abbrev overhead : ℕ := 8

/-- `MIN_BLOCK_SIZE`: minimum block size for the explicit free list. -/
abbrev minBlockSize : ℕ := 16

/-- `MAX_HEAP` of `config.h`: 20 MB. -/
abbrev maxHeap : ℕ := 20 * 2 ^ 20

/-! ## The state -/

/-- The static variables of `memlib.c`, the globals of `mm.c`, and the bytes of memory. -/
structure State where
  /-- The bytes of memory. -/
  mem : Mem
  /-- `mem_start_brk`: the first byte of the heap. -/
  memStartBrk : ℕ
  /-- `mem_brk`: one past the last byte of the heap. -/
  memBrk : ℕ
  /-- `mem_max_addr`: one past the largest legal heap address. -/
  memMaxAddr : ℕ
  /-- `heap_listp`. -/
  heapListp : ℕ
  /-- `free_list_root`. -/
  freeListRoot : ℕ
  /-- `free_list_end`. -/
  freeListEnd : ℕ

/-- `mem_init`: the heap is a fresh object of `MAX_HEAP` bytes at `start`, whatever bytes it
holds, and empty. The globals of `mm.c` are zero, as C's static storage is. -/
def memInit (start : ℕ) (bytes : Mem) : State where
  mem := bytes
  memStartBrk := start
  memBrk := start
  memMaxAddr := add start maxHeap
  heapListp := NULL
  freeListRoot := NULL
  freeListEnd := NULL

/-- `mem_sbrk`: extend the heap by `incr` bytes and return the start of the new area. -/
def memSbrk (s : State) (incr : ℤ) : State × ℕ :=
  if incr < 0 ∨ add s.memBrk incr.toNat > s.memMaxAddr then (s, minusOne)
  else ({ s with memBrk := add s.memBrk incr.toNat }, s.memBrk)

/-- `mem_heap_lo`: address of the first heap byte. -/
def memHeapLo (s : State) : ℕ := s.memStartBrk

/-- `mem_heap_hi`: address of the last heap byte. -/
def memHeapHi (s : State) : ℕ := sub s.memBrk 1

/-! ## Word access -/

/-- The word at `p` lies inside the object that holds the heap. -/
def State.InHeap (s : State) (p : ℕ) : Prop := s.memStartBrk ≤ p ∧ p + wsize ≤ s.memMaxAddr

instance (s : State) (p : ℕ) : Decidable (s.InHeap p) := inferInstanceAs (Decidable (_ ∧ _))

/-- The state after the word `v` is stored at `p`. -/
def State.store (s : State) (p v : ℕ) : State := { s with mem := s.mem.store32 p v }

/-- `GET(p)`: read a word at address `p`. -/
def get (s : State) (p : ℕ) : Option ℕ := if s.InHeap p then some (s.mem.load32 p) else none

/-- `PUT(p, val)`: write a word at address `p`. -/
def put (s : State) (p v : ℕ) : Option State := if s.InHeap p then some (s.store p v) else none

section store

variable (s : State) (p v : ℕ)

/-- A store writes to the memory. -/
@[simp] theorem store_mem : (s.store p v).mem = s.mem.store32 p v := by rfl

/-- A store keeps the start of the heap. -/
@[simp] theorem store_memStartBrk : (s.store p v).memStartBrk = s.memStartBrk := by rfl

/-- A store keeps the break. -/
@[simp] theorem store_memBrk : (s.store p v).memBrk = s.memBrk := by rfl

/-- A store keeps the end of the heap object. -/
@[simp] theorem store_memMaxAddr : (s.store p v).memMaxAddr = s.memMaxAddr := by rfl

/-- A store keeps `heap_listp`. -/
@[simp] theorem store_heapListp : (s.store p v).heapListp = s.heapListp := by rfl

/-- A store keeps the front of the free list. -/
@[simp] theorem store_freeListRoot : (s.store p v).freeListRoot = s.freeListRoot := by rfl

/-- A store keeps the back of the free list. -/
@[simp] theorem store_freeListEnd : (s.store p v).freeListEnd = s.freeListEnd := by rfl

variable {s p v}

/-- A word of the heap can be read. -/
theorem get_eq (h : s.InHeap p) : get s p = some (s.mem.load32 p) := if_pos h

/-- A word of the heap can be written. -/
theorem put_eq (h : s.InHeap p) : put s p v = some (s.store p v) := if_pos h

/-- Only a word of the heap can be written. -/
theorem put_eq_some_iff {s' : State} : put s p v = some s' ↔ s.InHeap p ∧ s.store p v = s' := by
  unfold put
  split_ifs with h <;> simp [h]

end store

/-! ## The macros on block pointers -/

/-- `ALIGN(size)`. -/
def align (size : ℕ) : ℕ := add size (dsize - 1) &&& 0xFFFFFFF8

/-- `PACK(size, alloc)`: pack a size and allocated bit into a word. -/
def pack (size alloc : ℕ) : ℕ := align size ||| alloc

/-- `GET_SIZE(p)`: the size field at address `p`. -/
def getSize (s : State) (p : ℕ) : Option ℕ := (get s p).map (· &&& 0xFFFFFFF8)

/-- `GET_ALLOC(p)`: the allocated field at address `p`. -/
def getAlloc (s : State) (p : ℕ) : Option ℕ := (get s p).map (· &&& 1)

/-- `HDRP(bptr)`: address of the header of a block. -/
def hdrp (bptr : ℕ) : ℕ := sub bptr wsize

/-- `FTRP(bptr)`: address of the footer of a block, found through its header. -/
def ftrp (s : State) (bptr : ℕ) : Option ℕ := do
  let size ← getSize s (hdrp bptr)
  some (sub (add bptr size) dsize)

/-- `NEXT_BLKP(bptr)`: the block after `bptr` in memory. -/
def nextBlkp (s : State) (bptr : ℕ) : Option ℕ := do
  let size ← getSize s (sub bptr wsize)
  some (add bptr size)

/-- `PREV_BLKP(bptr)`: the block before `bptr` in memory, found through its footer. -/
def prevBlkp (s : State) (bptr : ℕ) : Option ℕ := do
  let size ← getSize s (sub bptr dsize)
  some (sub bptr size)

/-- The address of `NEXT_PTR(bptr)`: the next pointer of a free block. -/
def nextPtr (bptr : ℕ) : ℕ := add (hdrp bptr) wsize

/-- The address of `PREV_PTR(bptr)`: the previous pointer of a free block. -/
def prevPtr (bptr : ℕ) : ℕ := add (hdrp bptr) dsize

/-- `PUT(HDRP(bptr), word); PUT(FTRP(bptr), word);`: write the boundary tags of a block, the
footer at the address that the header just written gives. -/
def putTags (s : State) (bptr word : ℕ) : Option State := do
  let s ← put s (hdrp bptr) word
  put s (← ftrp s bptr) word

/-! ### The macros on sizes and addresses in range -/

/-- Masking the low three bits rounds down to a multiple of eight. -/
theorem and_mask {v : ℕ} (hv : v < 2 ^ 32) : v &&& 0xFFFFFFF8 = v / 8 * 8 := by
  have hmask : (0xFFFFFFF8 : ℕ) = (2 ^ 29 - 1) <<< 3 := rfl
  have hround : v / 8 * 8 = (v >>> 3) <<< 3 := by
    rw [Nat.shiftRight_eq_div_pow, Nat.shiftLeft_eq]
  rw [hmask, hround]
  apply Nat.eq_of_testBit_eq
  intro i
  simp only [Nat.testBit_and, Nat.testBit_shiftLeft, Nat.testBit_two_pow_sub_one,
    Nat.testBit_shiftRight]
  by_cases hi : 3 ≤ i
  · by_cases hi' : i - 3 < 29
    · simp [hi, hi', Nat.add_sub_cancel' hi]
    · have : v.testBit i = false :=
        Nat.testBit_lt_two_pow (lt_of_lt_of_le hv (Nat.pow_le_pow_right (by norm_num) (by omega)))
      simp [hi, hi', this, Nat.add_sub_cancel' hi]
  · simp [hi]

/-- `ALIGN` rounds up to a multiple of eight. -/
theorem align_eq {size : ℕ} (h : size + 7 < 2 ^ 32) : align size = (size + 7) / 8 * 8 := by
  have hadd : add size 7 = size + 7 := add_eq h
  change add size 7 &&& 0xFFFFFFF8 = _
  rw [hadd, and_mask h]

/-- `PACK(size, 0)` of an aligned size is the size. -/
theorem pack_zero {size : ℕ} (h8 : size % 8 = 0) (h : size + 7 < 2 ^ 32) : pack size 0 = size := by
  unfold pack
  rw [align_eq h, Nat.or_zero]
  omega

/-- `PACK(size, 1)` of an aligned size is the size plus one. -/
theorem pack_one {size : ℕ} (h8 : size % 8 = 0) (h : size + 7 < 2 ^ 32) :
    pack size 1 = size + 1 := by
  have hs : align size = 2 ^ 3 * (size / 8) := by
    rw [align_eq h]
    omega
  unfold pack
  rw [hs, ← Nat.two_pow_add_eq_or_of_lt (by norm_num : 1 < 2 ^ 3)]
  omega

/-- The header is the word in front of the payload. -/
theorem hdrp_eq {p : ℕ} (h : 4 ≤ p) (hp : p < 2 ^ 32) : hdrp p = p - 4 := sub_eq h hp

/-- The first link is the first word of the payload. -/
theorem nextPtr_eq {p : ℕ} (h : 4 ≤ p) (hp : p < 2 ^ 32) : nextPtr p = p := by
  unfold nextPtr
  rw [hdrp_eq h hp, add_eq] <;> simp only [wsize] <;> omega

/-- The second link is the second word of the payload. -/
theorem prevPtr_eq {p : ℕ} (h : 4 ≤ p) (hp : p + 4 < 2 ^ 32) : prevPtr p = p + 4 := by
  unfold prevPtr
  rw [hdrp_eq h (by omega), add_eq] <;> simp only [dsize] <;> omega

end SystemsLabs.Malloclab
