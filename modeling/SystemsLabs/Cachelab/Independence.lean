import SystemsLabs.Cachelab.Residency

/-!
# The sets are independent

An access reads and writes one set, and of the addresses in it only the block numbers matter. So
accesses to different sets commute, and the counts of a run are the sums, over all sets, of the
counts of a single set that sees the block numbers of its own accesses (`independence_iff`).

**Assumptions.** `s + b ≤ 31` and at least one line in a set. `main` can build the cache iff
`2 ^ s * E` is an `int` (`independence_iff`).
-/

namespace SystemsLabs.Cachelab

open Lib

/-! ## A single set of blocks -/

/-- An access to a single set of `assoc` lines which hold block numbers. -/
def accessBlock (assoc : ℕ) (block : BitVec 64) (lines : List Line) : List Line × Outcome :=
  let r := scan (fun l => block = l.line) lines
  if r.2.1 then (r.1, .hit)
  else if r.2.2 < assoc then (fillFree block r.1, .miss)
  else (r.1.set (oldest r.1) ⟨true, 0, block⟩, .evict)

/-- An access to a single set, which is counted. -/
def stepBlock (assoc : ℕ) (s : List Line × Counts) (block : BitVec 64) : List Line × Counts :=
  let r := accessBlock assoc block s.1
  (r.1, s.2.add r.2)

/-- A sequence of accesses to a single set, which is empty at first. -/
def runBlocks (assoc : ℕ) (blocks : List (BitVec 64)) : List Line × Counts :=
  blocks.foldl (stepBlock assoc) (List.replicate assoc ⟨false, 0, 0⟩, 0)

/-- The block number of an address, as a word: `addr >> b`. -/
def Geometry.blockNumber (g : Geometry) (addr : BitVec 64) : BitVec 64 := addr >>> g.blockBits

/-- The block numbers of the accesses to set `i`. -/
def blocksOf (g : Geometry) (addrs : List (BitVec 64)) (i : ℕ) : List (BitVec 64) :=
  (addrs.filter fun addr => g.setIndex addr = i).map g.blockNumber

variable {g : Geometry} {addr addr' : BitVec 64} {isHit isHit' : Line → Bool}
  {lines lines' : List Line} {c c' : Sim} {i : ℕ} {S : Finset ℕ} {K : Demand ℕ}
  {addrs addrs' : List (BitVec 64)}

/-! ## Block numbers instead of addresses -/

/-- The line with the block number of its address. -/
def Line.toBlock (g : Geometry) (l : Line) : Line := { l with line := g.blockNumber l.line }

/-- The block number as a word and as a number. -/
theorem Geometry.block_eq (g : Geometry) (addr : BitVec 64) :
    g.block addr = (g.blockNumber addr).toNat := by
  rw [block, blockNumber, BitVec.toNat_ushiftRight, Nat.shiftRight_eq_div_pow]

/-- A scan sees nothing of a line but whether it is valid and whether it is a hit. -/
theorem scan_toBlock
    (h : ∀ l ∈ lines, l.valid = true → isHit' (l.toBlock g) = isHit l) :
    scan isHit' (lines.map (Line.toBlock g)) =
      ((scan isHit lines).1.map (Line.toBlock g), (scan isHit lines).2) := by
  induction lines with
  | nil => rfl
  | cons l ls ih =>
    have ih' := ih fun l hl => h l (List.mem_cons_of_mem _ hl)
    have hvalid : (l.toBlock g).valid = l.valid := rfl
    rw [List.map_cons, scan, scan, hvalid]
    by_cases hl : l.valid = true
    · rw [if_pos hl, if_pos hl, h l List.mem_cons_self hl, ih']
      split_ifs <;> rfl
    · rw [if_neg hl, if_neg hl, ih']
      rfl

/-- Filling a line commutes with `toBlock`. -/
theorem fillFree_toBlock :
    fillFree (g.blockNumber addr) (lines.map (Line.toBlock g)) =
      (fillFree addr lines).map (Line.toBlock g) := by
  induction lines with
  | nil => rfl
  | cons l ls ih =>
    have hvalid : (l.toBlock g).valid = l.valid := rfl
    rw [List.map_cons, fillFree, fillFree, hvalid, ih]
    split_ifs <;> rfl

/-- The victim is chosen by the ages alone. -/
theorem oldestFrom_toBlock {max index : ℕ} :
    oldestFrom i max index (lines.map (Line.toBlock g)) = oldestFrom i max index lines := by
  induction lines generalizing i max index with
  | nil => rfl
  | cons l ls ih =>
    have hlast : (l.toBlock g).lastUsed = l.lastUsed := rfl
    rw [List.map_cons, oldestFrom, oldestFrom, hlast, ih, ih]

/-- The valid lines of a set hold blocks of the set. -/
theorem Holds.setOf_eq (h : Holds g i lines S) {l : Line} (hl : l ∈ lines)
    (hvalid : l.valid = true) : g.setOf (g.block l.line) = i := by
  obtain ⟨-, V, F, rfl, hF, hV, -⟩ := h
  rcases List.mem_append.mp hl with hl | hl
  · exact (hV l hl).2
  · exact absurd ((hF l hl).symm.trans hvalid) Bool.false_ne_true

/-- **One set.** An access works on block numbers as it does on addresses. -/
theorem Holds.accessBlock_eq (h : Holds g i lines S) (hbits : g.setBits + g.blockBits ≤ 31)
    (hi : g.setOf (g.block addr) = i) :
    accessBlock g.assoc (g.blockNumber addr) (lines.map (Line.toBlock g)) =
      ((accessSet g addr lines).1.map (Line.toBlock g), (accessSet g addr lines).2) := by
  have hscan : scan (fun l => g.blockNumber addr = l.line) (lines.map (Line.toBlock g)) =
      ((scan (fun l => g.tag addr = g.tag l.line) lines).1.map (Line.toBlock g),
        (scan (fun l => g.tag addr = g.tag l.line) lines).2) := by
    apply scan_toBlock
    intro l hl hvalid
    have htag := Geometry.tag_eq_iff (by omega) (hi.trans (h.setOf_eq hl hvalid).symm)
    rw [Geometry.block_eq, Geometry.block_eq, BitVec.toNat_inj] at htag
    exact decide_eq_decide.mpr htag.symm
  unfold accessBlock accessSet oldest
  rw [hscan]
  dsimp only
  rw [fillFree_toBlock, oldestFrom_toBlock]
  split_ifs
  · rfl
  · rfl
  · rw [List.map_set]
    rfl

/-- The single set of blocks is what `check_cache` makes of one set and blocks of one byte. -/
theorem accessSet_single (assoc : ℕ) (block : BitVec 64) (lines : List Line) :
    accessSet ⟨0, assoc, 0⟩ block lines = accessBlock assoc block lines := by
  have htag : ∀ addr, Geometry.tag ⟨0, assoc, 0⟩ addr = addr := by
    intro addr
    apply BitVec.eq_of_toNat_eq
    rw [Geometry.tag_toNat (g := ⟨0, assoc, 0⟩) (Nat.zero_le 64)]
    exact Nat.div_one _
  unfold accessSet accessBlock
  simp only [htag]

/-! ## One access -/

/-- A simulator is its sets and its counters. -/
theorem Sim.ext_counts (hsets : c.sets = c'.sets) (hcounts : c.counts = c'.counts) : c = c' := by
  obtain ⟨sets, hits, misses, evictions⟩ := c
  obtain ⟨sets', hits', misses', evictions'⟩ := c'
  obtain ⟨rfl, rfl, rfl⟩ := Counts.mk.inj hcounts
  obtain rfl := hsets
  rfl

/-- Accesses to different sets commute. -/
theorem Resides.comm (h : Resides g c K) (hbits : g.setBits + g.blockBits ≤ 31)
    (hne : g.setIndex addr ≠ g.setIndex addr') :
    ∃ c₁ c₂ c', Access g c addr c₁ ∧ Access g c₁ addr' c' ∧ Access g c addr' c₂ ∧
      Access g c₂ addr c' := by
  rw [Geometry.setIndex_eq hbits, Geometry.setIndex_eq hbits, Ne, Nat.cast_inj] at hne
  obtain ⟨lines, hset⟩ := h.exists_set addr
  obtain ⟨lines', hset'⟩ := h.exists_set addr'
  obtain ⟨c₁, hacc₁, hsets₁, hcounts₁⟩ := checkCache_spec hbits hset
  obtain ⟨c₂, hacc₂, hsets₂, hcounts₂⟩ := checkCache_spec hbits hset'
  -- the other set is untouched
  have hset₁ : c₁.sets[g.setOf (g.block addr')]? = some lines' := by
    rw [hsets₁, List.getElem?_set_ne hne]
    exact hset'
  have hset₂ : c₂.sets[g.setOf (g.block addr)]? = some lines := by
    rw [hsets₂, List.getElem?_set_ne (Ne.symm hne)]
    exact hset
  obtain ⟨c₁₂, hacc₁₂, hsets₁₂, hcounts₁₂⟩ := checkCache_spec hbits hset₁
  obtain ⟨c₂₁, hacc₂₁, hsets₂₁, hcounts₂₁⟩ := checkCache_spec hbits hset₂
  have heq : c₁₂ = c₂₁ := by
    apply Sim.ext_counts
    · rw [hsets₁₂, hsets₂₁, hsets₁, hsets₂, List.set_comm _ _ hne]
    · rw [hcounts₁₂, hcounts₂₁, hcounts₁, hcounts₂, Counts.add_right_comm]
  exact ⟨c₁, c₂, c₁₂, hacc₁, hacc₁₂, hacc₂, heq ▸ hacc₂₁⟩

/-! ## Runs -/

/-- One block more. -/
theorem runBlocks_concat (assoc : ℕ) (blocks : List (BitVec 64)) (block : BitVec 64) :
    runBlocks assoc (blocks ++ [block]) = stepBlock assoc (runBlocks assoc blocks) block := by
  rw [runBlocks, List.foldl_append]
  rfl

/-- An access adds its block to the sequence of its own set only. -/
theorem blocksOf_concat (hbits : g.setBits + g.blockBits ≤ 31) :
    blocksOf g (addrs ++ [addr]) i =
      if g.setOf (g.block addr) = i then blocksOf g addrs i ++ [g.blockNumber addr]
      else blocksOf g addrs i := by
  have hindex : g.setIndex addr = i ↔ g.setOf (g.block addr) = i := by
    rw [Geometry.setIndex_eq hbits, Nat.cast_inj]
  unfold blocksOf
  rw [List.filter_append]
  split_ifs with hi
  · simp [hindex.mpr hi]
  · simp [hindex.not.mpr hi]

/-- The sum of the counts of all sets, when one set counts one more access. -/
theorem sum_counts {f f' : ℕ → Counts} {n : ℕ} {o : Outcome} (hi : i < n)
    (hself : f' i = (f i).add o) (hother : ∀ j, j ≠ i → f' j = f j) :
    ∑ j ∈ Finset.range n, f' j = (∑ j ∈ Finset.range n, f j).add o := by
  have hmem : i ∈ Finset.range n := Finset.mem_range.mpr hi
  have hrest : ∑ j ∈ (Finset.range n).erase i, f' j = ∑ j ∈ (Finset.range n).erase i, f j :=
    Finset.sum_congr rfl fun j hj => hother j (Finset.ne_of_mem_erase hj)
  rw [← Finset.add_sum_erase _ _ hmem, ← Finset.add_sum_erase _ f hmem, hself, hrest,
    Counts.add_add]

/-- Each set is as if it were alone and its lines held block numbers, and the counts are the sums
of the counts of the single sets. -/
structure Factors (g : Geometry) (addrs : List (BitVec 64)) (c : Sim) : Prop where
  resides : ∃ K, Resides g c K
  sets_eq : ∀ i lines, c.sets[i]? = some lines →
    lines.map (Line.toBlock g) = (runBlocks g.assoc (blocksOf g addrs i)).1
  counts_eq : c.counts =
    ∑ i ∈ Finset.range (2 ^ g.setBits), (runBlocks g.assoc (blocksOf g addrs i)).2

/-- The empty cache has seen no block. -/
theorem factors_empty (g : Geometry) : Factors g [] g.empty where
  resides := ⟨_, resides_empty g⟩
  sets_eq i lines hi := by
    obtain rfl := List.eq_of_mem_replicate (List.mem_of_getElem? hi)
    rw [List.map_replicate]
    exact congrArg (fun w => List.replicate g.assoc (⟨false, 0, w⟩ : Line)) BitVec.zero_ushiftRight
  counts_eq := by
    symm
    exact Finset.sum_eq_zero fun _ _ => rfl

/-- **One access.** -/
theorem Factors.access (h : Factors g addrs c) (hE : 1 ≤ g.assoc)
    (hbits : g.setBits + g.blockBits ≤ 31) (hacc : Access g c addr c') :
    Factors g (addrs ++ [addr]) c' := by
  obtain ⟨K, hres⟩ := h.resides
  obtain ⟨K', -, hres'⟩ := hres.access hE hbits hacc
  obtain ⟨lines, hset⟩ := hres.exists_set addr
  obtain ⟨c'', heq, hsets, hcounts⟩ := checkCache_spec hbits hset
  obtain rfl : c'' = c' := Option.some.inj (heq.symm.trans hacc)
  have hrun : runBlocks g.assoc (blocksOf g (addrs ++ [addr]) (g.setOf (g.block addr))) =
      ((accessSet g addr lines).1.map (Line.toBlock g),
        (runBlocks g.assoc (blocksOf g addrs (g.setOf (g.block addr)))).2.add
          (accessSet g addr lines).2) := by
    rw [blocksOf_concat hbits, if_pos rfl, runBlocks_concat, stepBlock, ← h.sets_eq _ _ hset,
      (hres.holds _ _ hset).accessBlock_eq hbits rfl]
  have hother : ∀ j, j ≠ g.setOf (g.block addr) →
      runBlocks g.assoc (blocksOf g (addrs ++ [addr]) j) =
        runBlocks g.assoc (blocksOf g addrs j) := by
    intro j hj
    rw [blocksOf_concat hbits, if_neg (Ne.symm hj)]
  refine ⟨⟨K', hres'⟩, fun j lines' hj => ?_, ?_⟩
  · rw [hsets] at hj
    by_cases hji : j = g.setOf (g.block addr)
    · subst hji
      rw [List.getElem?_set_self (List.getElem?_eq_some_iff.mp hset).1] at hj
      obtain rfl := Option.some.inj hj
      rw [hrun]
    · rw [List.getElem?_set_ne (Ne.symm hji)] at hj
      rw [hother j hji, h.sets_eq j lines' hj]
  · rw [hcounts, h.counts_eq]
    refine (sum_counts (Nat.mod_lt _ (Nat.two_pow_pos _)) ?_ fun j hj => by rw [hother j hj]).symm
    exact congrArg Prod.snd hrun

/-- **Every run.** -/
theorem factors_of_runs (hE : 1 ≤ g.assoc) (hbits : g.setBits + g.blockBits ≤ 31)
    (h : Runs (Access g) g.empty addrs c) : Factors g addrs c :=
  h.invariant_labels (I := fun addrs c => Factors g addrs c)
    (fun _ _ _ _ hfac hacc => hfac.access hE hbits hacc) (factors_empty g)

/-- The block numbers of a set depend on the block numbers of the addresses only. -/
theorem blocksOf_eq (hbits : g.setBits + g.blockBits ≤ 31) (i : ℕ) :
    blocksOf g addrs i = (addrs.map g.blockNumber).filter
      fun block => g.setOf block.toNat = i := by
  unfold blocksOf
  rw [List.filter_map]
  congr 1
  apply List.filter_congr
  intro addr _
  rw [Function.comp_apply, ← Geometry.block_eq, Geometry.setIndex_eq hbits]
  exact decide_eq_decide.mpr Nat.cast_inj

/-- What independence says after a sequence of accesses: two accesses to different sets lead to the
same cache and the same counts in either order; the counts are the sums, over all sets, of the
counts of a single set that sees the block numbers of the accesses to it; and another sequence with
the same block numbers has the same counts. -/
structure SetsIndependent (g : Geometry) (addrs : List (BitVec 64)) (c : Sim) : Prop where
  comm : ∀ addr addr', g.setIndex addr ≠ g.setIndex addr' →
    ∃ c₁ c₂ c', Access g c addr c₁ ∧ Access g c₁ addr' c' ∧ Access g c addr' c₂ ∧
      Access g c₂ addr c'
  counts_eq : c.counts =
    ∑ i ∈ Finset.range (2 ^ g.setBits), (runBlocks g.assoc (blocksOf g addrs i)).2
  same_counts : ∀ c₀ addrs' c', g.init = some c₀ → Runs (Access g) c₀ addrs' c' →
    addrs'.map g.blockNumber = addrs.map g.blockNumber → c'.counts = c.counts

/-- The independence of the sets on every run from the empty cache. -/
theorem setsIndependent_of_runs (hE : 1 ≤ g.assoc) (hbits : g.setBits + g.blockBits ≤ 31)
    (h : Runs (Access g) g.empty addrs c) : SetsIndependent g addrs c := by
  have hfac := factors_of_runs hE hbits h
  obtain ⟨K, hres⟩ := hfac.resides
  refine ⟨fun addr addr' hne => hres.comm hbits hne, hfac.counts_eq,
    fun c₀ addrs' c' hinit h' hsame => ?_⟩
  obtain ⟨-, rfl⟩ := (Geometry.init_eq_some_iff hE).mp hinit
  rw [hfac.counts_eq, (factors_of_runs hE hbits h').counts_eq]
  refine Finset.sum_congr rfl fun i _ => ?_
  rw [blocksOf_eq hbits, blocksOf_eq hbits, hsame]

/-- **The sets are independent, and offsets do not matter**, in the cache that `main` builds. It
builds one if and only if an `int` holds the number of its lines. -/
theorem independence_iff (hE : 1 ≤ g.assoc) (hbits : g.setBits + g.blockBits ≤ 31) :
    g.Always (SetsIndependent g) ↔ 2 ^ g.setBits * g.assoc < 2 ^ 31 :=
  Geometry.always_iff hE fun _ _ h => setsIndependent_of_runs hE hbits h

/-- Two sets of one line. -/
theorem independence_iff_example : (⟨1, 1, 4⟩ : Geometry).Always (SetsIndependent ⟨1, 1, 4⟩) :=
  (independence_iff (by decide) (by decide)).mpr (by decide)

/-- With `-s 15 -E 65536` the number of lines is `2 ^ 31`, and `main` has no cache. -/
theorem exists_not_setsIndependent :
    ¬ (⟨15, 65536, 4⟩ : Geometry).Always (SetsIndependent ⟨15, 65536, 4⟩) := by
  rintro ⟨c₀, hinit, -⟩
  rw [Geometry.init_of_not_fits (by decide)] at hinit
  exact absurd hinit nofun

end SystemsLabs.Cachelab
