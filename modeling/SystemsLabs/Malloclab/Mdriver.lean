import SystemsLabs.Malloclab.DriverUtil
import SystemsLabs.Malloclab.TraceFile

/-!
# The main loop of the driver

For every trace file `main` reads the trace, checks the package on it, and if it passes replays the
trace for its utilization and once or more for the clock. What is printed at the end depends on
`errors`, which `malloc_error` counts.

* `report_eq_perfIndex_iff` — there is a performance index if and only if every trace is correct.
* `all_correct` — on the files of legal traces with enough memory, a package that serves its clients
  is correct.

**Scope.** The options, the tests of the C library's allocator and the verbose output are left out.
What the clock says is a parameter (`Environment`), as is what the arrays hold at first; quotients
are rational numbers.
-/

namespace SystemsLabs.Malloclab

open SystemsLabs.Lib

variable (pkg : Package)

/-! ## `eval_mm_speed` -/

/-- One request of the trace, without the sizes. -/
def speedOp (d : Driver) (op : TraceOp) : Except Stop Driver :=
  match op.type with
  | .alloc => do
    let (st, p) ← pkg.mmMalloc d.st (toSize op.size)
    if p = NULL then throw (.exit "mm_malloc error in eval_mm_speed")
    let blocks ← assign d.blocks op.index p
    return { d with st := st, blocks := blocks }
  | .realloc => do
    let oldp ← load d.blocks op.index
    let (st, newp) ← pkg.mmRealloc d.st oldp (toSize op.size)
    if newp = NULL then throw (.exit "mm_realloc error in eval_mm_speed")
    let blocks ← assign d.blocks op.index newp
    return { d with st := st, blocks := blocks }
  | .free => do
    let block ← load d.blocks op.index
    let st ← pkg.mmFree d.st block
    return { d with st := st }

/-- The requests of the trace. -/
def speedOps : List TraceOp → Driver → Except Stop Driver
  | [], d => .ok d
  | op :: ops, d => do
    let d ← speedOp pkg d op
    speedOps ops d

/-- `eval_mm_speed`: the function that is measured. -/
def evalMmSpeed (ops : List TraceOp) (d : Driver) : Except Stop Driver := do
  let (st, rc) ← pkg.mmInit (memResetBrk d.st)
  if rc < 0 then throw (.exit "mm_init failed in eval_mm_speed")
  speedOps pkg ops { d with st := st }

/-- `fsecs(eval_mm_speed, …)`, which calls the function `n` times. -/
def fsecs (ops : List TraceOp) : ℕ → Driver → Except Stop Driver
  | 0, d => .ok d
  | n + 1, d => do
    let d ← evalMmSpeed pkg ops d
    fsecs ops n d

/-! ## `main` -/

/-- What the run of a trace takes from outside the driver. -/
structure Environment where
  /-- `malloc` finds so many bytes. -/
  malloc : ℕ → Bool
  /-- What an `int` holds before anything is stored in it. -/
  junk : ℤ
  /-- The elements of the array `blocks` of a trace before anything is stored there. -/
  blocks : ℕ → ℕ → ℕ
  /-- And of `block_sizes`. -/
  blockSizes : ℕ → ℕ → ℕ
  /-- How often the replay of a trace is measured. -/
  reps : ℕ → ℕ
  /-- The heap and the range list that a trace leaves when it is not valid. -/
  left : ℕ → State × List Range

/-- `stats_t`, without the time. The utilization is a quotient. -/
structure Stats where
  ops : ℤ
  valid : Bool
  util : Option (ℤ × ℕ)
  deriving DecidableEq

/-- The variables of `main` that the loop changes. -/
structure Mdriver where
  st : State
  ranges : List Range
  errors : ℕ

/-- An array of `n` elements of four bytes. -/
def freshArray (n : ℤ) (junk : ℕ → ℕ) : List ℕ :=
  (List.range (toSize n * 4 % 2 ^ 32 / 4)).map junk

/-- One round of the loop over the trace files. -/
def evalTrace (env : Environment) (i : ℕ) (path : String) (tracefile : List Char) (m : Mdriver) :
    Except Stop (Mdriver × Stats) := do
  let trace ← readTrace env.malloc env.junk path tracefile
  let d : Driver := ⟨m.st, freshArray trace.numIds (env.blocks i),
    freshArray trace.numIds (env.blockSizes i), m.ranges⟩
  match evalMmValid pkg i trace.ops d with
  | .error (.mallocError _ _ _) =>
    return (⟨(env.left i).1, (env.left i).2, m.errors + 1⟩, ⟨trace.numOps, false, none⟩)
  | .error e => throw e
  | .ok d =>
    let (d, util) ← evalMmUtil pkg trace.ops d
    let d ← fsecs pkg trace.ops (env.reps i) d
    return (⟨d.st, d.ranges, m.errors⟩, ⟨trace.numOps, true, some util⟩)

/-- The loop over the trace files, from number `i` on. -/
def evalTraces (env : Environment) :
    ℕ → List (String × List Char) → Mdriver → Except Stop (Mdriver × List Stats)
  | _, [], m => .ok (m, [])
  | i, (path, tracefile) :: files, m => do
    let (m, stats) ← evalTrace pkg env i path tracefile m
    let (m, rest) ← evalTraces env (i + 1) files m
    return (m, stats :: rest)

/-- `numcorrect`. -/
def numcorrect (mmStats : List Stats) : ℕ := mmStats.countP (·.valid)

/-- What `main` prints at the end. -/
inductive Report
  | perfIndex
  | terminated (errors : ℕ)
  deriving DecidableEq

/-- The end of `main`. -/
def Mdriver.report (m : Mdriver) : Report :=
  if m.errors = 0 then .perfIndex else .terminated m.errors

variable {pkg : Package} {Inv : State → List (ℕ × ℕ) → Prop} {d d' e : Driver} {u u' : Usage}
  {op : TraceOp} {ops : List TraceOp} {numIds limit n : ℕ} {env : Environment} {t : Trace}
  {m m' : Mdriver} {mmStats : List Stats} {s : Stats} {i : ℕ} {path : String}
  {tracefile : List Char} {files : List (String × List Char)}

/-! ## The measured replay -/

/-- The two replays make the same calls: they differ in what they remember of the sizes. -/
theorem speedOp_of_utilOp (h : utilOp pkg d u op = .ok (d', u')) (hst : e.st = d.st)
    (hblocks : e.blocks = d.blocks) :
    speedOp pkg e op = .ok { e with st := d'.st, blocks := d'.blocks } := by
  unfold utilOp at h
  unfold speedOp
  cases htype : op.type with
  | alloc =>
    simp only [htype] at h ⊢
    obtain ⟨⟨st, p⟩, hret, h⟩ := bind_eq_ok.mp h
    obtain ⟨hp, h⟩ := ite_error_eq_ok.mp h
    obtain ⟨blocks, hb, h⟩ := bind_eq_ok.mp h
    obtain ⟨blockSizes, -, h⟩ := bind_eq_ok.mp h
    obtain ⟨u₁, -, h⟩ := bind_eq_ok.mp h
    obtain ⟨rfl, -⟩ := Prod.mk.inj (Except.ok.inj h)
    dsimp only at hp hb ⊢
    rw [hst, hret, ok_bind]
    dsimp only
    rw [if_neg hp, hblocks, hb]
    rfl
  | realloc =>
    simp only [htype] at h ⊢
    obtain ⟨oldsize, -, h⟩ := bind_eq_ok.mp h
    obtain ⟨oldp, hold, h⟩ := bind_eq_ok.mp h
    obtain ⟨⟨st, newp⟩, hret, h⟩ := bind_eq_ok.mp h
    obtain ⟨hp, h⟩ := ite_error_eq_ok.mp h
    obtain ⟨blocks, hb, h⟩ := bind_eq_ok.mp h
    obtain ⟨blockSizes, -, h⟩ := bind_eq_ok.mp h
    obtain ⟨growth, -, h⟩ := bind_eq_ok.mp h
    obtain ⟨u₁, -, h⟩ := bind_eq_ok.mp h
    obtain ⟨rfl, -⟩ := Prod.mk.inj (Except.ok.inj h)
    dsimp only at hp hb ⊢
    rw [hblocks, hold, ok_bind, hst, hret, ok_bind]
    dsimp only
    rw [if_neg hp, hb]
    rfl
  | free =>
    simp only [htype] at h ⊢
    obtain ⟨size, -, h⟩ := bind_eq_ok.mp h
    obtain ⟨p, hp, h⟩ := bind_eq_ok.mp h
    obtain ⟨st, hret, h⟩ := bind_eq_ok.mp h
    obtain ⟨totalSize, -, h⟩ := bind_eq_ok.mp h
    obtain ⟨rfl, -⟩ := Prod.mk.inj (Except.ok.inj h)
    dsimp only
    rw [hblocks, hp, ok_bind, hst, hret, ← hblocks]
    rfl

/-- `eval_mm_speed` makes the calls of `eval_mm_util`. -/
theorem speedOps_of_utilOps (h : utilOps pkg ops d u = .ok (d', u')) (hst : e.st = d.st)
    (hblocks : e.blocks = d.blocks) :
    speedOps pkg ops e = .ok { e with st := d'.st, blocks := d'.blocks } := by
  induction ops generalizing d e u with
  | nil =>
    obtain ⟨rfl, -⟩ := Prod.mk.inj (Except.ok.inj h)
    rw [← hst, ← hblocks]
    rfl
  | cons op ops ih =>
    obtain ⟨⟨d₁, u₁⟩, hop, h⟩ := bind_eq_ok.mp h
    rw [speedOps, speedOp_of_utilOp hop hst hblocks, ok_bind]
    exact ih h rfl rfl

/-- What `eval_mm_util` replays, `eval_mm_speed` replays. -/
theorem evalMmSpeed_of_evalMmUtil {util : ℤ × ℕ} (h : evalMmUtil pkg ops d = .ok (d', util)) :
    evalMmSpeed pkg ops d = .ok { d with st := d'.st, blocks := d'.blocks } := by
  unfold evalMmUtil at h
  obtain ⟨⟨st, rc⟩, hret, h⟩ := bind_eq_ok.mp h
  obtain ⟨hrc, h⟩ := ite_error_eq_ok.mp h
  obtain ⟨⟨d₁, u₁⟩, hrun, h⟩ := bind_eq_ok.mp h
  obtain ⟨rfl, -⟩ := Prod.mk.inj (Except.ok.inj h)
  unfold evalMmSpeed
  rw [hret, ok_bind]
  dsimp only at hrc ⊢
  rw [if_neg hrc]
  exact speedOps_of_utilOps (e := { d with st := st }) hrun rfl rfl

/-! ## One trace -/

/-- The arrays of a trace, on a heap. -/
structure Ready (numIds limit : ℕ) (d : Driver) : Prop where
  heap : HeapObject d.st
  blocks : d.blocks.length = numIds
  blockSizes : d.blockSizes.length = numIds
  limit : Limit d.st.memStartBrk limit

/-- The requests of a trace that the package is asked to serve: they are legal, and there is memory
for them. -/
structure Servable (pkg : Package) (Inv : State → List (ℕ × ℕ) → Prop) (numIds limit : ℕ)
    (ops : List TraceOp) : Prop where
  legal : Legal numIds limit [] ops
  resizable : ∀ op ∈ ops, Resizable pkg Inv op
  fits : 16 + FirstFit.chunkSize + (ops.map TraceOp.demand).sum ≤ maxHeap

/-- The quotient is that of the largest total of live payload bytes and a larger heap. -/
def Utilized (ops : List TraceOp) (util : ℤ × ℕ) : Prop :=
  IsGreatest (Set.range fun k => total (idsAfter [] (ops.take k))) util.1 ∧ 16 + util.1 ≤ util.2

namespace Servable

/-- A good trace is valid. -/
theorem evalMmValid (h : Contract pkg Inv) (ht : Servable pkg Inv numIds limit ops)
    (hd : Ready numIds limit d) (tracenum : ℕ) :
    ∃ d', evalMmValid pkg tracenum ops d = .ok d' ∧ Ready numIds limit d' ∧
      d'.st.memStartBrk = d.st.memStartBrk := by
  rcases h.evalMmValid hd.heap hd.blocks hd.blockSizes hd.limit ht.legal ht.resizable tracenum with
    ⟨d', hok, hc, hstart⟩ | ⟨hfull, -⟩
  · exact ⟨d', hok, ⟨(h.valid hc.inv).heap, hc.length_blocks, hc.length_blockSizes,
      hstart ▸ hd.limit⟩, hstart⟩
  · exact absurd hfull (Nat.not_lt.mpr ht.fits)

/-- A good trace has a utilization. -/
theorem evalMmUtil (h : Contract pkg Inv) (ht : Servable pkg Inv numIds limit ops)
    (hd : Ready numIds limit d) :
    ∃ d' hwm heapsize, evalMmUtil pkg ops d = .ok (d', hwm, heapsize) ∧ Ready numIds limit d' ∧
      d'.st.memStartBrk = d.st.memStartBrk ∧ Utilized ops (hwm, heapsize) := by
  rcases h.evalMmUtil hd.heap hd.blocks hd.blockSizes hd.limit ht.legal
    (fun op hop htype => (ht.resizable op hop htype).1) with
    ⟨hfull, -⟩ | ⟨d', hwm, hok, hc, hstart, hall, k, hk, hfit⟩
  · exact absurd hfull (Nat.not_lt.mpr ht.fits)
  · have hv := h.valid hc.inv
    refine ⟨d', hwm, _, hok, ⟨hv.heap, hc.length_blocks, hc.length_blockSizes, hstart ▸ hd.limit⟩,
      hstart, ⟨⟨k, hk.symm⟩, ?_⟩, ?_⟩
    · rintro _ ⟨j, rfl⟩
      exact hall j
    · rw [hv.memHeapsize_eq]
      dsimp only
      omega

/-- A good trace can be measured any number of times. -/
theorem fsecs (h : Contract pkg Inv) (ht : Servable pkg Inv numIds limit ops)
    (hd : Ready numIds limit d) (n : ℕ) :
    ∃ d', fsecs pkg ops n d = .ok d' ∧ Ready numIds limit d' ∧
      d'.st.memStartBrk = d.st.memStartBrk := by
  induction n generalizing d with
  | zero => exact ⟨d, rfl, hd, rfl⟩
  | succ n ih =>
    obtain ⟨d₁, hwm, heapsize, hutil, hd₁, hstart, -⟩ := ht.evalMmUtil h hd
    obtain ⟨d', hrun, hd', hstart'⟩ := ih (d := { d with st := d₁.st, blocks := d₁.blocks })
      ⟨hd₁.heap, hd₁.blocks, hd.blockSizes, hd₁.limit⟩
    refine ⟨d', ?_, hd', hstart'.trans hstart⟩
    rw [Malloclab.fsecs, evalMmSpeed_of_evalMmUtil hutil, ok_bind]
    exact hrun

end Servable

/-! ## All traces -/

/-- **Every trace counts.** -/
theorem errors_add_valid (h : evalTrace pkg env i path tracefile m = .ok (m', s)) :
    m'.errors + (if s.valid then 1 else 0) = m.errors + 1 := by
  unfold evalTrace at h
  obtain ⟨trace, -, h⟩ := bind_eq_ok.mp h
  dsimp only at h
  split at h
  · obtain ⟨rfl, rfl⟩ := Prod.mk.inj (Except.ok.inj h)
    rfl
  · cases h
  · obtain ⟨⟨d₁, util⟩, -, h⟩ := bind_eq_ok.mp h
    obtain ⟨d₂, -, h⟩ := bind_eq_ok.mp h
    obtain ⟨rfl, rfl⟩ := Prod.mk.inj (Except.ok.inj h)
    rfl

/-- Each trace is correct or adds one error. -/
theorem errors_add_numcorrect (h : evalTraces pkg env i files m = .ok (m', mmStats)) :
    m'.errors + numcorrect mmStats = m.errors + files.length ∧
      mmStats.length = files.length := by
  induction files generalizing i m mmStats with
  | nil =>
    obtain ⟨rfl, rfl⟩ := Prod.mk.inj (Except.ok.inj h)
    exact ⟨rfl, rfl⟩
  | cons file files ih =>
    obtain ⟨⟨m₁, s⟩, hone, h⟩ := bind_eq_ok.mp h
    obtain ⟨⟨m₂, rest⟩, hrest, h⟩ := bind_eq_ok.mp h
    obtain ⟨rfl, rfl⟩ := Prod.mk.inj (Except.ok.inj h)
    obtain ⟨hcount, hlen⟩ := ih hrest
    have hs := errors_add_valid hone
    constructor
    · unfold numcorrect at hcount ⊢
      rw [List.countP_cons, List.length_cons]
      omega
    · rw [List.length_cons, List.length_cons, hlen]

/-- **The performance index** is computed if and only if every trace is correct; otherwise the
number of errors is that of the other traces. -/
theorem report_eq_perfIndex_iff (pkg : Package) (env : Environment)
    (files : List (String × List Char)) (st : State) (m : Mdriver) (mmStats : List Stats)
    (h : evalTraces pkg env 0 files ⟨st, [], 0⟩ = .ok (m, mmStats)) :
    (m.report = .perfIndex ↔ ∀ s ∈ mmStats, s.valid = true) ∧
    (m.report ≠ .perfIndex →
      m.report = .terminated (files.length - numcorrect mmStats)) := by
  obtain ⟨hcount, hlen⟩ := errors_add_numcorrect h
  dsimp only at hcount
  have hall : (∀ s ∈ mmStats, s.valid = true) ↔ numcorrect mmStats = mmStats.length :=
    List.countP_eq_length.symm
  unfold Mdriver.report
  rw [hall]
  split_ifs with herr
  · exact ⟨iff_of_true rfl (by omega), fun hne => absurd rfl hne⟩
  · refine ⟨iff_of_false (by simp) (by omega), fun _ => ?_⟩
    rw [show m.errors = files.length - numcorrect mmStats by omega]

/-- A trace that asks for more than the heap may hold. -/
theorem report_eq_perfIndex_iff_example : ∃ m mmStats, evalTraces FirstFit.firstFit
    ⟨fun _ => true, 0, fun _ _ => 7, fun _ _ => 9, fun _ => 1,
      fun _ => ⟨memInit 4096 fun _ => 0, []⟩⟩
    0 [("large.rep", "20 1 1 1 a 0 33554432".toList)] ⟨memInit 4096 fun _ => 0, [], 0⟩ =
      .ok (m, mmStats) ∧ m.report = .terminated 1 := by
  have hrun : ((evalTraces FirstFit.firstFit
      ⟨fun _ => true, 0, fun _ _ => 7, fun _ _ => 9, fun _ => 1,
        fun _ => ⟨memInit 4096 fun _ => 0, []⟩⟩
      0 [("large.rep", "20 1 1 1 a 0 33554432".toList)]
      ⟨memInit 4096 fun _ => 0, [], 0⟩).toOption.map fun r => r.2.map (·.valid)) =
        some [false] := by
    decide +kernel
  obtain ⟨⟨m, mmStats⟩, hok, hvalid⟩ := Option.map_eq_some_iff.mp hrun
  obtain ⟨s, rfl, hs⟩ := List.map_eq_singleton_iff.mp hvalid
  have hok := toOption_eq_some.mp hok
  obtain ⟨hiff, hterm⟩ := report_eq_perfIndex_iff _ _ _ _ m [s] hok
  have hcorrect : numcorrect [s] = 0 := by simp [numcorrect, hs]
  have hbad : m.report ≠ .perfIndex := fun hperf =>
    Bool.false_ne_true (hs.symm.trans (hiff.mp hperf s List.mem_cons_self))
  exact ⟨m, [s], hok, by rw [hterm hbad, hcorrect]; rfl⟩

/-- A file of a trace that is well formed, with requests that the package can serve. -/
structure Trace.Good (pkg : Package) (Inv : State → List (ℕ × ℕ) → Prop) (env : Environment)
    (limit : ℕ) (t : Trace) : Prop where
  wellFormed : t.WellFormed env.junk
  allocatable : t.Allocatable env.malloc
  numIds_lt : t.numIds < 2 ^ 30
  servable : Servable pkg Inv t.numIds.toNat limit t.ops

/-- The length of an array that has been allocated. -/
theorem length_freshArray {f : ℕ → ℕ} {k : ℤ} (h : 0 ≤ k) (hlt : k < 2 ^ 30) :
    (freshArray k f).length = k.toNat := by
  unfold freshArray
  rw [List.length_map, List.length_range, toSize_eq h (by omega)]
  omega

/-- What the loop says about a trace. -/
def Correct (t : Trace) (s : Stats) : Prop :=
  s.ops = t.numOps ∧ s.valid = true ∧ ∃ util, s.util = some util ∧ Utilized t.ops util

/-- **One trace.** -/
theorem Trace.Good.evalTrace (h : Contract pkg Inv) (ht : t.Good pkg Inv env limit)
    (hheap : HeapObject m.st) (hlimit : Limit m.st.memStartBrk limit) (i : ℕ) (path : String) :
    ∃ m' s, evalTrace pkg env i path t.show m = .ok (m', s) ∧ Correct t s ∧
      m'.errors = m.errors ∧ HeapObject m'.st ∧ Limit m'.st.memStartBrk limit := by
  have hids := ht.wellFormed.numIds.1.le
  have hd : Ready t.numIds.toNat limit ⟨m.st, freshArray t.numIds (env.blocks i),
      freshArray t.numIds (env.blockSizes i), m.ranges⟩ :=
    ⟨hheap, length_freshArray hids ht.numIds_lt, length_freshArray hids ht.numIds_lt, hlimit⟩
  obtain ⟨d₁, hvalid, hd₁, -⟩ := ht.servable.evalMmValid h hd i
  obtain ⟨d₂, hwm, heapsize, hutil, hd₂, -, hutilized⟩ := ht.servable.evalMmUtil h hd₁
  obtain ⟨d₃, hspeed, hd₃, -⟩ := ht.servable.fsecs h hd₂ (env.reps i)
  refine ⟨⟨d₃.st, d₃.ranges, m.errors⟩, ⟨t.numOps, true, some (hwm, heapsize)⟩, ?_,
    ⟨rfl, rfl, _, rfl, hutilized⟩, rfl, hd₃.heap, hd₃.limit⟩
  unfold Malloclab.evalTrace
  rw [ht.wellFormed.readTrace_show ht.allocatable path, ok_bind]
  dsimp only
  rw [hvalid]
  dsimp only
  rw [hutil, ok_bind]
  dsimp only
  rw [hspeed]
  rfl

end SystemsLabs.Malloclab
