import SystemsLabs.Malloclab.Package

/-!
# The implicit list allocator (`mm-firstfit.c`)

The other package of the lab, statement by statement: every block of the heap is on the list, which
`NEXT_BLKP` walks, a request takes the first block that fits, and a released block is merged with
its free neighbours at once. The macros on block pointers and the state are those of `mm.c`
(`free_list_root` and `free_list_end` are not used here); only `PACK` differs.

**Scope.** What `mm_checkheap` prints when it is verbose is left out.
-/

namespace SystemsLabs.Malloclab.FirstFit

open SystemsLabs.Lib

/-- `CHUNKSIZE`: initial heap size. -/
abbrev chunkSize : ℕ := 2 ^ 12

/-- `PACK(size, alloc)`. -/
def pack (size alloc : ℕ) : ℕ := size ||| alloc

/-- Multiplication of `size_t` values. -/
def mul (a b : ℕ) : ℕ := a * b % 2 ^ 32

/-- `coalesce`: boundary tag coalescing. -/
def coalesce (s : State) (bp : ℕ) : Option (State × ℕ) := do
  let prevAlloc ← getAlloc s (← ftrp s (← prevBlkp s bp))
  let nextAlloc ← getAlloc s (hdrp (← nextBlkp s bp))
  let size ← getSize s (hdrp bp)
  if prevAlloc ≠ 0 ∧ nextAlloc ≠ 0 then
    return (s, bp)
  else if prevAlloc ≠ 0 ∧ nextAlloc = 0 then
    let size := add size (← getSize s (hdrp (← nextBlkp s bp)))
    let s ← put s (hdrp bp) (pack size 0)
    let s ← put s (← ftrp s bp) (pack size 0)
    return (s, bp)
  else if prevAlloc = 0 ∧ nextAlloc ≠ 0 then
    let size := add size (← getSize s (hdrp (← prevBlkp s bp)))
    let s ← put s (← ftrp s bp) (pack size 0)
    let s ← put s (hdrp (← prevBlkp s bp)) (pack size 0)
    return (s, ← prevBlkp s bp)
  else
    let prevSize ← getSize s (hdrp (← prevBlkp s bp))
    let nextSize ← getSize s (← ftrp s (← nextBlkp s bp))
    let size := add size (add prevSize nextSize)
    let s ← put s (hdrp (← prevBlkp s bp)) (pack size 0)
    let s ← put s (← ftrp s (← nextBlkp s bp)) (pack size 0)
    return (s, ← prevBlkp s bp)

/-- `extend_heap`: extend the heap with a free block and return its block pointer. -/
def extendHeap (s : State) (words : ℕ) : Option (State × ℕ) := do
  let size := if words % 2 ≠ 0 then mul (add words 1) wsize else mul words wsize
  let (s, bp) := memSbrk s (toInt size)
  if bp = minusOne then return (s, NULL)
  let s ← putTags s bp (pack size 0)
  let s ← put s (hdrp (← nextBlkp s bp)) (pack 0 1)
  coalesce s bp

/-- `place`: place a block of `asize` bytes at the start of the free block `bp`, and split if the
remainder would be at least the minimum block size. -/
def place (s : State) (bp asize : ℕ) : Option State := do
  let csize ← getSize s (hdrp bp)
  if sub csize asize ≥ dsize + overhead then
    let s ← putTags s bp (pack asize 1)
    let bp ← nextBlkp s bp
    putTags s bp (pack (sub csize asize) 0)
  else
    putTags s bp (pack csize 1)

/-- The loop of `find_fit`, cut off after `fuel` rounds. -/
def findFitFuel : ℕ → State → ℕ → ℕ → Option ℕ
  | 0, _, _, _ => none
  | fuel + 1, s, asize, bp => do
    if (← getSize s (hdrp bp)) > 0 then
      if (← getAlloc s (hdrp bp)) = 0 ∧ asize ≤ (← getSize s (hdrp bp)) then return bp
      findFitFuel fuel s asize (← nextBlkp s bp)
    else return NULL

/-- `find_fit`: the first free block that holds `asize` bytes. The search writes nothing and there
are `2 ^ 32` pointers, so one still running after as many rounds never ends. -/
def findFit (s : State) (asize : ℕ) : Option ℕ := findFitFuel (2 ^ 32) s asize s.heapListp

/-- `mm_init`: prologue, epilogue, and a free block of `CHUNKSIZE` bytes. -/
def mmInit (s : State) : Option (State × ℤ) := do
  let (s, heapListp) := memSbrk s (4 * wsize)
  let s := { s with heapListp := heapListp }
  if heapListp = NULL then return (s, -1)
  let s ← put s heapListp 0
  let s ← put s (add heapListp wsize) (pack overhead 1)
  let s ← put s (add heapListp dsize) (pack overhead 1)
  let s ← put s (add heapListp (wsize + dsize)) (pack 0 1)
  let s := { s with heapListp := add heapListp dsize }
  let (s, bp) ← extendHeap s (chunkSize / wsize)
  if bp = NULL then return (s, -1)
  return (s, 0)

/-- `mm_malloc`: take the first fit, or extend the heap and take the new block. -/
def mmMalloc (s : State) (size : ℕ) : Option (State × ℕ) := do
  if size ≤ 0 then return (s, NULL)
  let asize := adjust size
  let bp ← findFit s asize
  if bp ≠ NULL then
    let s ← place s bp asize
    return (s, bp)
  let extendsize := max asize chunkSize
  let (s, bp) ← extendHeap s (extendsize / wsize)
  if bp = NULL then return (s, NULL)
  let s ← place s bp asize
  return (s, bp)

/-- `mm_free`: mark the block free and merge it with its free neighbours. -/
def mmFree (s : State) (bp : ℕ) : Option State := do
  let size ← getSize s (hdrp bp)
  let s ← putTags s bp (pack size 0)
  let (s, _) ← coalesce s bp
  return s

/-- `mm_realloc`: always move the block. It copies as many bytes as the old block has, tags
included, or as many as are asked for. -/
def mmRealloc (s : State) (ptr size : ℕ) : Except Stop (State × ℕ) := do
  let (s, newp) ← defined (mmMalloc s size)
  if newp = NULL then throw (.exit "ERROR: mm_malloc failed in mm_realloc")
  let copySize ← defined (getSize s (hdrp ptr))
  let copySize := if size < copySize then size else copySize
  let s ← defined (memcpy s newp ptr copySize)
  let s ← defined (mmFree s ptr)
  return (s, newp)

/-- The package of `mm-firstfit.c`. -/
def firstFit : Package where
  mmInit s := defined (mmInit s)
  mmMalloc s size := defined (mmMalloc s size)
  mmFree s bp := defined (mmFree s bp)
  mmRealloc := mmRealloc

/-! ## The heap checker -/

/-- `checkblock`: what it prints of a block. -/
def checkblock (s : State) (bp : ℕ) : Option (List String) := do
  let aligned := if bp % 8 ≠ 0 then [s!"Error: {showPtr bp} is not doubleword aligned"] else []
  let tags := if (← get s (hdrp bp)) ≠ (← get s (← ftrp s bp)) then
    ["Error: header does not match footer"] else []
  return aligned ++ tags

/-- The loop of `mm_checkheap`, cut off after `fuel` rounds: what it prints, and the block it ends
at. -/
def checkblocksFuel : ℕ → State → ℕ → Option (List String × ℕ)
  | 0, _, _ => none
  | fuel + 1, s, bp => do
    if (← getSize s (hdrp bp)) > 0 then
      let here ← checkblock s bp
      let (rest, last) ← checkblocksFuel fuel s (← nextBlkp s bp)
      return (here ++ rest, last)
    else return ([], bp)

/-- `mm_checkheap(0)`: what it prints. -/
def mmCheckheap (s : State) : Option (List String) := do
  let prologue :=
    if (← getSize s (hdrp s.heapListp)) ≠ dsize ∨ (← getAlloc s (hdrp s.heapListp)) = 0 then
      ["Bad prologue header"] else []
  let first ← checkblock s s.heapListp
  let (blocks, bp) ← checkblocksFuel (2 ^ 32) s s.heapListp
  let epilogue := if (← getSize s (hdrp bp)) ≠ 0 ∨ (← getAlloc s (hdrp bp)) = 0 then
    ["Bad epilogue header"] else []
  return prologue ++ first ++ blocks ++ epilogue

end SystemsLabs.Malloclab.FirstFit
