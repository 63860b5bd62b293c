import SystemsLabs.Malloclab.Memlib

/-!
# The explicit free list allocator (`mm.c`)

`mmInit`, `mmMalloc`, `mmFree`, `mmRealloc` and the helpers `coalesce`, `findFit`, `addFreeBlock`,
`removeFreeBlock`, statement by statement. A function returns `none` where the C program has no
defined result: a word access outside the heap object, or a search that never ends.

**Scope.** `mm2.c` is a copy of this file. Of `mm_check` only the loop over the free list is
modelled, and not here (`Check`).
-/

namespace SystemsLabs.Malloclab

open SystemsLabs.Lib

/-- `mm_init`: the alignment padding, the prologue block and the epilogue header of an empty
heap, and an empty free list. -/
def mmInit (s : State) : Option (State × ℤ) := do
  let (s, heapListp) := memSbrk s (4 * wsize)
  let s := { s with heapListp := heapListp }
  if heapListp = minusOne then return (s, -1)
  let s ← put s heapListp 0
  let s ← put s (add heapListp (1 * wsize)) (pack dsize 1)
  let s ← put s (add heapListp (2 * wsize)) (pack dsize 1)
  let s ← put s (add heapListp (3 * wsize)) (pack 0 1)
  return ({ s with
    heapListp := add heapListp (2 * wsize), freeListRoot := NULL, freeListEnd := NULL }, 0)

/-- The recursion of `find_fit`, cut off after `fuel` calls. -/
def findFitFuel : ℕ → State → ℕ → ℕ → Option ℕ
  | 0, _, _, _ => none
  | fuel + 1, s, size, bptr => do
    if bptr = NULL then return NULL
    if size ≤ (← getSize s (hdrp bptr)) then return bptr
    findFitFuel fuel s size (← get s (nextPtr bptr))

/-- `find_fit`: the first block from `bptr` on that holds `size` bytes. The search writes nothing
and there are `2 ^ 32` pointers, so one still running after as many calls never ends. -/
def findFit (s : State) (size bptr : ℕ) : Option ℕ := findFitFuel (2 ^ 32) s size bptr

/-- `add_free_block`: add a free block to the free list, by size. -/
def addFreeBlock (s : State) (bptr : ℕ) : Option State := do
  if bptr = NULL then return s
  if s.freeListRoot = NULL ∧ s.freeListEnd = NULL then
    return { s with freeListRoot := bptr, freeListEnd := bptr }
  else if (← getSize s (hdrp bptr)) ≤ (← getSize s (hdrp s.freeListRoot)) then
    let s ← put s (nextPtr bptr) s.freeListRoot
    let s ← put s (prevPtr s.freeListRoot) bptr
    return { s with freeListRoot := bptr }
  else if (← getSize s (hdrp bptr)) ≥ (← getSize s (hdrp s.freeListEnd)) then
    let s ← put s (prevPtr bptr) s.freeListEnd
    let s ← put s (nextPtr s.freeListEnd) bptr
    return { s with freeListEnd := bptr }
  else
    let place ← findFit s (← getSize s (hdrp bptr)) s.freeListRoot
    let s ← put s (nextPtr bptr) place
    let s ← put s (prevPtr bptr) (← get s (prevPtr place))
    let s ← put s (nextPtr (← get s (prevPtr bptr))) bptr
    put s (prevPtr place) bptr

/-- `remove_free_block`: take a free block off the free list. -/
def removeFreeBlock (s : State) (bptr : ℕ) : Option State := do
  if bptr = NULL then return s
  if s.freeListRoot = s.freeListEnd then
    return { s with freeListRoot := NULL, freeListEnd := NULL }
  else if s.freeListRoot = bptr then
    let s := { s with freeListRoot := ← get s (nextPtr bptr) }
    put s (prevPtr (← get s (nextPtr bptr))) NULL
  else if s.freeListEnd = bptr then
    let s := { s with freeListEnd := ← get s (prevPtr bptr) }
    put s (nextPtr (← get s (prevPtr bptr))) NULL
  else
    let s ← put s (nextPtr (← get s (prevPtr bptr))) (← get s (nextPtr bptr))
    put s (prevPtr (← get s (nextPtr bptr))) (← get s (prevPtr bptr))

/-- One of the two conditional merges of `coalesce`: if the neighbour `other` is free it leaves the
free list, and `bptr` gets the size of its own block and of the one at `nextBptr` (both merges read
that one). The allocated bit is read at `other` itself, not at its header. -/
def mergeIfFree (s : State) (heapBoundary : Bool) (bptr other nextBptr : ℕ) : Option State := do
  if heapBoundary = false then return s
  if (← getAlloc s other) ≠ 0 then return s
  let s ← removeFreeBlock s other
  let s ← put s (prevPtr other) NULL
  let s ← put s (nextPtr other) NULL
  let newSize := add (← getSize s (hdrp bptr)) (← getSize s (hdrp nextBptr))
  putTags s bptr (pack newSize 0)

/-- `coalesce`: boundary tag coalescing. -/
def coalesce (s : State) (bptr : ℕ) : Option (State × ℕ) := do
  let prevBptr ← prevBlkp s bptr
  let nextBptr ← nextBlkp s bptr
  let _size ← getSize s (hdrp bptr)
  let heapBoundary : Bool := bptr ≥ memHeapHi s ∧ bptr < memHeapLo s
  let s ← mergeIfFree s heapBoundary bptr nextBptr nextBptr
  let s ← mergeIfFree s heapBoundary bptr prevBptr nextBptr
  return (s, bptr)

/-- The adjusted block size of a request: overhead and alignment included. -/
def adjust (size : ℕ) : ℕ :=
  if size ≤ dsize then dsize + overhead
  else dsize * (add (add size overhead) (dsize - 1) / dsize)

/-- The test of `mm_malloc` on the two ends of the free list. -/
def fitsFreeList (s : State) (asize : ℕ) : Option Bool := do
  if s.freeListRoot ≠ NULL then
    if asize ≥ (← getSize s (hdrp s.freeListRoot)) then
      if s.freeListEnd ≠ NULL then
        return asize ≤ (← getSize s (hdrp s.freeListEnd))
  return false

/-- The block that `mm_malloc` takes: the root, the end, or the first fit between them. -/
def chooseFree (s : State) (asize : ℕ) : Option ℕ := do
  if asize = (← getSize s (hdrp s.freeListRoot)) then return s.freeListRoot
  else if asize = (← getSize s (hdrp s.freeListEnd)) then return s.freeListEnd
  else findFit s asize s.freeListRoot

/-- `mm_malloc`: take a block off the free list and split it, or extend the heap. -/
def mmMalloc (s : State) (size : ℕ) : Option (State × ℕ) := do
  if size ≤ 0 then return (s, NULL)
  let asize := adjust size
  if ← fitsFreeList s asize then
    let bptr ← chooseFree s asize
    let s ← removeFreeBlock s bptr
    let csize ← getSize s (hdrp bptr)
    let s ← putTags s bptr (pack asize 1)
    if sub csize asize ≥ dsize + overhead then
      let nextBptr ← nextBlkp s bptr
      let s ← putTags s nextBptr (pack (sub csize asize) 0)
      let s ← addFreeBlock s nextBptr
      return (s, bptr)
    return (s, bptr)
  let (s, bptr) := memSbrk s (toInt asize)
  if bptr = minusOne then return (s, NULL)
  let s ← putTags s bptr (pack asize 1)
  let s ← put s (hdrp (← nextBlkp s bptr)) (pack 0 1)
  return (s, bptr)

/-- `mm_free`: mark the block free and put it on the free list. -/
def mmFree (s : State) (bptr : ℕ) : Option State := do
  let size ← getSize s (hdrp bptr)
  let s ← putTags s bptr (pack size 0)
  let (s, bptr) ← coalesce s bptr
  addFreeBlock s bptr

/-- `memcpy`: both areas inside the heap object and disjoint, as C demands. -/
def memcpy (s : State) (dst src n : ℕ) : Option State :=
  if n = 0 then some s
  else if s.memStartBrk ≤ dst ∧ dst + n ≤ s.memMaxAddr ∧ s.memStartBrk ≤ src ∧
      src + n ≤ s.memMaxAddr ∧ (dst + n ≤ src ∨ src + n ≤ dst) then
    some { s with mem := s.mem.copy dst src n }
  else none

/-- `mm_realloc`: change the size of a block, in place or by moving it. -/
def mmRealloc (s : State) (bptr size : ℕ) : Option (State × ℕ) := do
  if bptr = NULL ∧ size > 0 then return ← mmMalloc s size
  else if size ≤ 0 then
    let s ← mmFree s bptr
    return (s, NULL)
  let oldSize ← getSize s (hdrp bptr)
  let newSize := align size
  if newSize = oldSize then return (s, bptr)
  if newSize < oldSize then
    let s ← putTags s bptr (pack newSize 1)
    if sub oldSize newSize ≥ minBlockSize then
      let nextBptr ← nextBlkp s bptr
      let s ← putTags s nextBptr (pack (sub oldSize newSize) 0)
      let (s, nextBptr) ← coalesce s nextBptr
      let s ← addFreeBlock s nextBptr
      return (s, bptr)
    return (s, bptr)
  let (s, newBptr) ← coalesce s bptr
  if oldSize < (← getSize s (hdrp newBptr)) ∧
      add newSize dsize < (← getSize s (hdrp newBptr)) then
    let s ← putTags s newBptr (pack newSize 1)
    let s ← if hdrp newBptr ≠ hdrp bptr then memcpy s newBptr bptr size else pure s
    let nextBptr ← nextBlkp s newBptr
    let s ← put s (hdrp nextBptr) (pack (← getSize s (sub (hdrp nextBptr) newSize)) 0)
    let s ← put s (← ftrp s nextBptr) (pack (← getSize s (sub (hdrp nextBptr) newSize)) 0)
    let s ← addFreeBlock s nextBptr
    return (s, newBptr)
  let (s, newBptr) ← mmMalloc s (sub newSize oldSize)
  let s ← memcpy s newBptr bptr (sub oldSize dsize)
  let s ← mmFree s bptr
  return (s, newBptr)

end SystemsLabs.Malloclab
