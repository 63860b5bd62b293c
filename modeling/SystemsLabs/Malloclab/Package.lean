import SystemsLabs.Malloclab.Mm

/-!
# The interface of a malloc package (`mm.h`)

The driver is linked with one of several packages, and knows of it the four functions of `mm.h`
only. `Package` is that interface. A call may end without a result (`Stop`): undefined behaviour, an
`exit` of the package, or one of the ends that the driver itself puts to a run.
-/

namespace SystemsLabs.Malloclab

/-- How a run of the driver may end other than by returning 1. -/
inductive Stop
  /-- The C program has no defined result. -/
  | undefined
  /-- `exit(1)`, after printing this line. -/
  | exit (msg : String)
  /-- A failed `assert`. -/
  | assertion
  /-- `malloc_error(tracenum, opnum, msg)`, and `return 0`. -/
  | mallocError (tracenum opnum : ℕ) (msg : String)
  deriving DecidableEq

/-- `%p`: a pointer, as `printf` writes it. -/
def showPtr (p : ℕ) : String :=
  if p = NULL then "(nil)" else "0x" ++ String.ofList (Nat.toDigits 16 p)

/-- A computation that is `none` where C has no defined result. -/
def defined {α : Type*} : Option α → Except Stop α
  | none => .error .undefined
  | some a => .ok a

/-- `mem_reset_brk`: reset the simulated brk pointer to make an empty heap. -/
def memResetBrk (s : State) : State := { s with memBrk := s.memStartBrk }

/-- The heap object that `mem_init` has allocated: `MAX_HEAP` bytes at an aligned address, within
the address space. -/
structure HeapObject (s : State) : Prop where
  start_mod : s.memStartBrk % 8 = 0
  start_pos : 0 < s.memStartBrk
  max_eq : s.memMaxAddr = s.memStartBrk + maxHeap
  max_lt : s.memMaxAddr < 2 ^ 32

/-- The functions of `mm.h`. -/
structure Package where
  mmInit : State → Except Stop (State × ℤ)
  mmMalloc : State → ℕ → Except Stop (State × ℕ)
  mmFree : State → ℕ → Except Stop State
  mmRealloc : State → ℕ → ℕ → Except Stop (State × ℕ)

/-- The package of `mm.c`. -/
def explicitList : Package where
  mmInit s := defined (mmInit s)
  mmMalloc s size := defined (mmMalloc s size)
  mmFree s bptr := defined (mmFree s bptr)
  mmRealloc s bptr size := defined (mmRealloc s bptr size)

end SystemsLabs.Malloclab
