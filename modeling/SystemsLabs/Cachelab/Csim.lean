import SystemsLabs.Lib.Runs
import Mathlib.Algebra.Group.Nat.Defs
import Mathlib.Data.Int.Notation
import Mathlib.Tactic.Common

/-!
# The cache simulator (`csim.c`)

`checkCache` is `check_cache`; the masks and the initial cache (`Geometry.init`) are those of
`main`. Addresses are 64-bit words and the masks are cast as the code casts them. The number of sets
and the number of lines are `int`s in the code, and `main` has no cache if they do not fit one
(`Geometry.init_eq_some_iff`).

**Assumptions.** `malloc` does not fail. The counters and `last_used` are C `int`s too, and natural
numbers here: fewer than `2 ^ 31` accesses do not overflow them (`within_of_runs`). For `s + b = 0`
the power of the tag mask does not fit its cast, and `1 ≤ s + b` is understood. What `-v` prints is
left out.
-/

namespace SystemsLabs.Cachelab

/-- `struct line`. -/
structure Line where
  /-- The valid bit. -/
  valid : Bool
  /-- `last_used`: the age of the line. -/
  lastUsed : ℕ
  /-- `line`: the address that the line was loaded for. -/
  line : BitVec 64

/-- The arguments `-s`, `-E` and `-b`. -/
structure Geometry where
  setBits : ℕ
  assoc : ℕ
  blockBits : ℕ

/-- The cache and the three counters. -/
structure Sim where
  sets : List (List Line)
  hits : ℕ
  misses : ℕ
  evictions : ℕ

namespace Geometry

/-- `ADDRESS_BITS`. -/
abbrev addressBits : ℕ := 64

/-- `addr_masks[0]`: the tag bits. For `1 ≤ s + b` the power fits the cast to 64 bits. -/
def tagMask (g : Geometry) : BitVec 64 :=
  BitVec.ofNat 64 (2 ^ (addressBits - (g.setBits + g.blockBits)) - 1) <<< (g.setBits + g.blockBits)

/-- `addr_masks[1]`: the set index bits. -/
def setMask (g : Geometry) : BitVec 64 := BitVec.ofNat 64 (2 ^ g.setBits - 1) <<< g.blockBits

/-- `set_index`: the mask is cast to `int`, and so is the result. -/
def setIndex (g : Geometry) (addr : BitVec 64) : ℤ :=
  (((addr &&& (g.setMask.setWidth 32).signExtend 64) >>> g.blockBits).setWidth 32).toInt

/-- `tag`. -/
def tag (g : Geometry) (addr : BitVec 64) : BitVec 64 :=
  (addr &&& g.tagMask) >>> (g.blockBits + g.setBits)

/-- A number as an `int`. A conversion or a product of `int`s that gives a number out of range is
undefined. -/
def asInt (n : ℕ) : Option ℕ := if n < 2 ^ 31 then some n else none

/-- `set_amount`: the power is cast to `int`. -/
def setAmount (g : Geometry) : Option ℕ := asInt (2 ^ g.setBits)

/-- `set_amount * assoc`, the number of lines to allocate and to clear. -/
def lineAmount (g : Geometry) : Option ℕ := do
  let setAmount ← g.setAmount
  asInt (setAmount * g.assoc)

/-- A line as the loop of `main` clears it. -/
def clearLine : Line := ⟨false, 0, 0⟩

/-- The cache that `main` builds: `set_line` holds all lines, and the lines of set `i` start at
`i * assoc`. Both calls of `malloc` succeed. Without the number of lines there is no cache: compiled
code that wraps the product allocates and clears too few lines. -/
def init (g : Geometry) : Option Sim := do
  let setAmount ← g.setAmount
  let lineAmount ← g.lineAmount
  let setLine := List.replicate lineAmount clearLine
  return {
    sets := (List.range setAmount).map fun i => (setLine.drop (i * g.assoc)).take g.assoc
    hits := 0
    misses := 0
    evictions := 0 }

/-- The empty cache: `2 ^ s` sets of `E` invalid lines. -/
def empty (g : Geometry) : Sim where
  sets := List.replicate (2 ^ g.setBits) (List.replicate g.assoc clearLine)
  hits := 0
  misses := 0
  evictions := 0

/-- The lines of the geometry can be counted with an `int`. -/
def Fits (g : Geometry) : Prop := 2 ^ g.setBits * g.assoc < 2 ^ 31

instance (g : Geometry) : Decidable g.Fits := inferInstanceAs (Decidable (_ < _))

/-- The part of `set_line` that belongs to set `i`. -/
theorem take_drop_setLine {n i E : ℕ} (hi : i < n) :
    ((List.replicate (n * E) clearLine).drop (i * E)).take E = List.replicate E clearLine := by
  have hroom : E ≤ n * E - i * E := by
    rw [← Nat.sub_mul]
    exact Nat.le_mul_of_pos_left E (Nat.sub_pos_of_lt hi)
  rw [List.drop_replicate, List.take_replicate, Nat.min_eq_left hroom]

/-- `sets[i]` starts at its own `E` lines. -/
theorem carve_setLine (n E : ℕ) :
    (List.range n).map (fun i => ((List.replicate (n * E) clearLine).drop (i * E)).take E) =
      List.replicate n (List.replicate E clearLine) := by
  rw [List.eq_replicate_iff]
  refine ⟨by rw [List.length_map, List.length_range], fun lines hmem => ?_⟩
  obtain ⟨i, hi, rfl⟩ := List.mem_map.mp hmem
  exact take_drop_setLine (List.mem_range.mp hi)

variable {g : Geometry}

/-- A number of lines that fits is computed without overflow. -/
theorem lineAmount_of_fits (hE : 1 ≤ g.assoc) (h : g.Fits) :
    g.setAmount = some (2 ^ g.setBits) ∧ g.lineAmount = some (2 ^ g.setBits * g.assoc) := by
  have hsets : 2 ^ g.setBits < 2 ^ 31 := Nat.lt_of_le_of_lt (Nat.le_mul_of_pos_right _ hE) h
  have hset : g.setAmount = some (2 ^ g.setBits) := if_pos hsets
  refine ⟨hset, ?_⟩
  unfold lineAmount
  rw [hset]
  exact if_pos h

/-- A number of lines that does not fit is undefined. -/
theorem lineAmount_of_not_fits (h : ¬ g.Fits) : g.lineAmount = none := by
  unfold lineAmount setAmount asInt
  by_cases hsets : 2 ^ g.setBits < 2 ^ 31
  · rw [if_pos hsets]
    exact if_neg h
  · rw [if_neg hsets]
    rfl

/-- **The initial cache** is the empty one, if an `int` holds the number of lines. -/
theorem init_of_fits (hE : 1 ≤ g.assoc) (h : g.Fits) : g.init = some g.empty := by
  obtain ⟨hset, hline⟩ := lineAmount_of_fits hE h
  unfold init
  rw [hset, hline]
  simp only [Option.bind_eq_bind, Option.bind_some, carve_setLine]
  rfl

/-- **No cache**, if an `int` does not hold the number of lines. -/
theorem init_of_not_fits (h : ¬ g.Fits) : g.init = none := by
  unfold init
  rw [lineAmount_of_not_fits h]
  exact Option.bind_eq_none_iff.mpr fun _ _ => rfl

/-- The initial cache exists if and only if an `int` holds the number of lines, and it is empty. -/
theorem init_eq_some_iff (hE : 1 ≤ g.assoc) {c : Sim} :
    g.init = some c ↔ g.Fits ∧ c = g.empty := by
  by_cases h : g.Fits
  · rw [init_of_fits hE h, Option.some_inj, and_iff_right h]
    exact eq_comm
  · rw [init_of_not_fits h]
    exact ⟨fun hnone => absurd hnone nofun, fun hfit => absurd hfit.1 h⟩

/-- The initial cache exists if and only if an `int` holds the number of lines. -/
theorem exists_init_iff (hE : 1 ≤ g.assoc) :
    (∃ c, g.init = some c) ↔ 2 ^ g.setBits * g.assoc < 2 ^ 31 :=
  ⟨fun ⟨_, h⟩ => ((init_eq_some_iff hE).mp h).1, fun h => ⟨_, init_of_fits hE h⟩⟩

end Geometry

/-! ## `check_cache` -/

/-- The first loop: every valid line ages by one, up to the first that is a hit, which is as good as
new. The result is the lines, whether there was a hit, and how many times `free` was decremented. -/
def scan (isHit : Line → Bool) : List Line → List Line × Bool × ℕ
  | [] => ([], false, 0)
  | l :: ls =>
    if l.valid then
      if isHit l then ({ l with lastUsed := 0 } :: ls, true, 0)
      else
        let r := scan isHit ls
        ({ l with lastUsed := l.lastUsed + 1 } :: r.1, r.2.1, r.2.2 + 1)
    else
      let r := scan isHit ls
      (l :: r.1, r.2)

/-- Load `addr` into the first line that is not valid. -/
def fillFree (addr : BitVec 64) : List Line → List Line
  | [] => []
  | l :: ls => if l.valid then l :: fillFree addr ls else ⟨true, 0, addr⟩ :: ls

/-- The loop for the oldest line, at index `i` with the current `max` and `index`: a later line of
the same age wins. -/
def oldestFrom (i max index : ℕ) : List Line → ℕ
  | [] => index
  | l :: ls =>
    if l.lastUsed ≥ max then oldestFrom (i + 1) l.lastUsed i ls else oldestFrom (i + 1) max index ls

/-- The index of the line to evict. -/
def oldest (ls : List Line) : ℕ := oldestFrom 0 0 0 ls

/-- `check_cache`. -/
def checkCache (g : Geometry) (c : Sim) (addr : BitVec 64) : Option Sim :=
  let index := g.setIndex addr
  let tag := g.tag addr
  if index < 0 then none
  else do
    let lines ← c.sets[index.toNat]?
    let (lines, hit, used) := scan (fun l => tag = g.tag l.line) lines
    if hit then
      return { c with sets := c.sets.set index.toNat lines, hits := c.hits + 1 }
    else if used < g.assoc then
      return { c with
        sets := c.sets.set index.toNat (fillFree addr lines), misses := c.misses + 1 }
    else
      return { c with
        sets := c.sets.set index.toNat (lines.set (oldest lines) ⟨true, 0, addr⟩)
        misses := c.misses + 1
        evictions := c.evictions + 1 }

/-- An access. -/
def Access (g : Geometry) (c : Sim) (addr : BitVec 64) (c' : Sim) : Prop :=
  checkCache g c addr = some c'

/-- `main` builds a cache, and `P` holds of the accesses and of the cache after every run of
`check_cache` from there. -/
def Geometry.Always (g : Geometry) (P : List (BitVec 64) → Sim → Prop) : Prop :=
  ∃ c₀, g.init = some c₀ ∧ ∀ addrs c, Lib.Runs (Access g) c₀ addrs c → P addrs c

/-- What holds after every run from the empty cache holds always if and only if an `int` holds the
number of lines. -/
theorem Geometry.always_iff {g : Geometry} {P : List (BitVec 64) → Sim → Prop}
    (hE : 1 ≤ g.assoc) (h : ∀ addrs c, Lib.Runs (Access g) g.empty addrs c → P addrs c) :
    g.Always P ↔ 2 ^ g.setBits * g.assoc < 2 ^ 31 := by
  rw [← exists_init_iff hE]
  constructor
  · rintro ⟨c₀, hinit, -⟩
    exact ⟨c₀, hinit⟩
  · rintro ⟨c₀, hinit⟩
    obtain ⟨-, rfl⟩ := (init_eq_some_iff hE).mp hinit
    exact ⟨_, hinit, h⟩

/-! ## No overflow -/

variable {g : Geometry} {addr : BitVec 64} {ls : List Line} {c c' : Sim}
  {n : ℕ}

/-- The counters and the ages are at most `n`. -/
structure Sim.Within (c : Sim) (n : ℕ) : Prop where
  lastUsed_le : ∀ ls ∈ c.sets, ∀ l ∈ ls, l.lastUsed ≤ n
  hits_le : c.hits ≤ n
  misses_le : c.misses ≤ n
  evictions_le : c.evictions ≤ n

/-- The scan makes no line older by more than one access. -/
theorem lastUsed_scan_le (isHit : Line → Bool) (h : ∀ l ∈ ls, l.lastUsed ≤ n) :
    ∀ l ∈ (scan isHit ls).1, l.lastUsed ≤ n + 1 := by
  induction ls with
  | nil => simp [scan]
  | cons l ls ih =>
      have hl := h l List.mem_cons_self
      have hls := fun x hx => h x (List.mem_cons_of_mem _ hx)
      unfold scan
      split_ifs
      · exact List.forall_mem_cons.mpr ⟨Nat.zero_le _, fun x hx => Nat.le_succ_of_le (hls x hx)⟩
      · exact List.forall_mem_cons.mpr ⟨Nat.succ_le_succ hl, ih hls⟩
      · exact List.forall_mem_cons.mpr ⟨Nat.le_succ_of_le hl, ih hls⟩

/-- A line that is filled in has age 0. -/
theorem lastUsed_fillFree_le (h : ∀ l ∈ ls, l.lastUsed ≤ n) :
    ∀ l ∈ fillFree addr ls, l.lastUsed ≤ n := by
  induction ls with
  | nil => simp [fillFree]
  | cons l ls ih =>
      have hl := h l List.mem_cons_self
      have hls := fun x hx => h x (List.mem_cons_of_mem _ hx)
      unfold fillFree
      split_ifs
      · exact List.forall_mem_cons.mpr ⟨hl, ih hls⟩
      · exact List.forall_mem_cons.mpr ⟨Nat.zero_le n, hls⟩

/-- An access adds at most one to each counter and to each age. -/
theorem Sim.Within.access (h : c.Within n) (hacc : Access g c addr c') : c'.Within (n + 1) := by
  obtain ⟨hsets, hhits, hmisses, hevictions⟩ := h
  unfold Access checkCache at hacc
  dsimp only at hacc
  split_ifs at hacc
  obtain ⟨ls, hls, hacc⟩ := Option.bind_eq_some_iff.mp hacc
  have hscan := lastUsed_scan_le (fun l => g.tag addr = g.tag l.line)
    (hsets ls (List.mem_of_getElem? hls))
  have hset : ∀ {i ls'}, (∀ l ∈ ls', l.lastUsed ≤ n + 1) →
      ∀ ls ∈ c.sets.set i ls', ∀ l ∈ ls, l.lastUsed ≤ n + 1 := by
    intro i ls' hls' ls hmem l hl
    rcases List.mem_or_eq_of_mem_set hmem with hmem | rfl
    · exact Nat.le_succ_of_le (hsets ls hmem l hl)
    · exact hls' l hl
  split_ifs at hacc
  · obtain rfl := Option.some.inj hacc
    exact ⟨hset hscan, by simpa using hhits, by simp only; omega, by simp only; omega⟩
  · obtain rfl := Option.some.inj hacc
    exact ⟨hset (lastUsed_fillFree_le hscan), by simp only; omega, by simpa using hmisses,
      by simp only; omega⟩
  · obtain rfl := Option.some.inj hacc
    refine ⟨hset fun l hl => ?_, by simp only; omega, by simpa using hmisses,
      by simpa using hevictions⟩
    rcases List.mem_or_eq_of_mem_set hl with hl | rfl
    · exact hscan l hl
    · exact Nat.zero_le _

/-- After `n` accesses the counters and the ages are at most `n`. -/
theorem within_of_runs {addrs : List (BitVec 64)} (h : Lib.Runs (Access g) g.empty addrs c) :
    c.Within addrs.length := by
  refine h.invariant_labels (I := fun addrs c => c.Within addrs.length) ?_ ?_
  · intro addrs c addr c' hwithin hstep
    rw [List.length_append]
    exact hwithin.access hstep
  · refine ⟨fun ls hls l hl => ?_, Nat.le_refl _, Nat.le_refl _, Nat.le_refl _⟩
    obtain rfl := List.eq_of_mem_replicate hls
    obtain rfl := List.eq_of_mem_replicate hl
    exact Nat.le_refl _

end SystemsLabs.Cachelab
