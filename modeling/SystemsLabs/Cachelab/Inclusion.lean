import SystemsLabs.Cachelab.Simulation

/-!
# More lines in a set (`csim.c`)

As long as no hit splits a tie, the simulator follows a least-recently-used cache, which holds with
more lines what it holds with fewer. With at most two lines in a set there is no tie to split.

* `counts_eq_of_assoc_le` — with `-E 1` and `-E 2` the simulator follows that cache on every trace.
* `moreLines_noWorse` — a larger `-E` gives no fewer hits, and no more misses and evictions.

**Assumptions.** `s + b ≤ 31`, at least one line in a set, and `main` can build the caches
(`Geometry.init`).
-/

namespace SystemsLabs.Cachelab

open Lib

variable {g : Geometry} {addr : BitVec 64} {addrs : List (BitVec 64)} {c c' : Sim}

/-! ## Sets of two lines -/

/-- All sets have as many lines as `-E` says. -/
def Sim.Lines (g : Geometry) (c : Sim) : Prop := ∀ lines ∈ c.sets, lines.length = g.assoc

/-- The scan keeps the number of lines. -/
theorem length_scan (isHit : Line → Bool) (ls : List Line) :
    (scan isHit ls).1.length = ls.length := by
  induction ls with
  | nil => rfl
  | cons l ls ih =>
    unfold scan
    split_ifs
    · rfl
    · exact congrArg Nat.succ ih
    · exact congrArg Nat.succ ih

/-- Filling a line keeps the number of lines. -/
theorem length_fillFree (addr : BitVec 64) (ls : List Line) :
    (fillFree addr ls).length = ls.length := by
  induction ls with
  | nil => rfl
  | cons l ls ih =>
    unfold fillFree
    split_ifs
    · exact congrArg Nat.succ ih
    · rfl

/-- The empty cache has the lines of its geometry. -/
theorem lines_empty (g : Geometry) : g.empty.Lines g := by
  intro lines hmem
  rw [List.eq_of_mem_replicate hmem, List.length_replicate]

/-- An access keeps the number of sets and of their lines. -/
theorem Sim.Lines.access (h : c.Lines g) (hacc : Access g c addr c') : c'.Lines g := by
  have hset : ∀ (i : ℕ) (lines lines' : List Line), c.sets[i]? = some lines →
      lines'.length = lines.length → ∀ l ∈ c.sets.set i lines', l.length = g.assoc := by
    intro i lines lines' hi hlen l hl
    rcases List.mem_or_eq_of_mem_set hl with hl | rfl
    · exact h l hl
    · exact hlen.trans (h lines (List.mem_of_getElem? hi))
  unfold Access checkCache at hacc
  dsimp only at hacc
  split_ifs at hacc
  obtain ⟨lines, hi, hacc⟩ := Option.bind_eq_some_iff.mp hacc
  split_ifs at hacc
  · rw [← Option.some.inj hacc]
    exact hset _ _ _ hi (length_scan _ _)
  · rw [← Option.some.inj hacc]
    exact hset _ _ _ hi ((length_fillFree _ _).trans (length_scan _ _))
  · rw [← Option.some.inj hacc]
    exact hset _ _ _ hi (List.length_set.trans (length_scan _ _))

/-- A tie that is split takes three lines. -/
theorem Sim.Lines.not_splitsTie (h : c.Lines g) (hE : g.assoc ≤ 2) (addr : BitVec 64) :
    ¬ c.SplitsTie g addr := by
  rintro ⟨lines, hset, x, y, z, hsub, -⟩
  have hlen := hsub.length_le
  rw [h lines (List.mem_of_getElem? hset)] at hlen
  exact absurd (hlen.trans hE) (Nat.not_succ_le_self 2)

/-- **One or two lines in a set.** No hit splits a tie, whatever the trace. -/
theorem guarded_of_assoc_le (hE : g.assoc ≤ 2) (h : Runs (Access g) g.empty addrs c) :
    Runs (Guarded (fun c addr => ¬ c.SplitsTie g addr) (Access g)) g.empty addrs c := by
  have hall : c.Lines g ∧
      Runs (Guarded (fun c addr => ¬ c.SplitsTie g addr) (Access g)) g.empty addrs c := by
    apply h.invariant_labels (I := fun addrs c => c.Lines g ∧
      Runs (Guarded (fun c addr => ¬ c.SplitsTie g addr) (Access g)) g.empty addrs c)
    · rintro as c a c' ⟨hlines, hrun⟩ hacc
      exact ⟨hlines.access hacc, hrun.snoc ⟨hlines.not_splitsTie hE a, hacc⟩⟩
    · exact ⟨lines_empty g, .nil _⟩
  exact hall.2

/-- **`-E 1` and `-E 2`.** On every trace the simulator counts the hits, misses and evictions of a
least-recently-used cache, from the cache that `main` builds. -/
theorem counts_eq_of_assoc_le {c₀ : Sim} (hpos : 1 ≤ g.assoc) (hE : g.assoc ≤ 2)
    (hbits : g.setBits + g.blockBits ≤ 31) (hinit : g.init = some c₀)
    (h : Runs (Access g) c₀ addrs c) :
    c.counts = (Cache.run g.assoc g.setOf (addrs.map g.block)).counts := by
  obtain ⟨-, rfl⟩ := (Geometry.init_eq_some_iff hpos).mp hinit
  exact (simulates_of_guarded hpos hbits (guarded_of_assoc_le hE h)).counts_eq

/-- Two lines: one hit. -/
theorem counts_eq_of_assoc_le_example : ∃ c₀ c, Geometry.init ⟨0, 2, 4⟩ = some c₀ ∧
    Runs (Access ⟨0, 2, 4⟩) c₀ [0x10, 0x20, 0x10] c ∧
    (Cache.run 2 (Geometry.setOf ⟨0, 2, 4⟩) [1, 2, 1]).counts = ⟨1, 2, 0⟩ := by
  obtain ⟨c, hrun, hcounts⟩ := exists_runs_of_runIf (Access ⟨0, 2, 4⟩) Sim.counts ⟨1, 2, 0⟩
    (fun _ _ _ h => h) (show (runIf (fun _ _ => True) (checkCache ⟨0, 2, 4⟩)
      (Geometry.empty ⟨0, 2, 4⟩) [0x10, 0x20, 0x10]).map Sim.counts = some ⟨1, 2, 0⟩ by decide)
  have hinit : Geometry.init ⟨0, 2, 4⟩ = some (Geometry.empty ⟨0, 2, 4⟩) :=
    Geometry.init_of_fits (by decide) (by decide)
  have heq := counts_eq_of_assoc_le (by decide) (by decide) (by decide) hinit hrun.of_guarded
  exact ⟨_, c, hinit, hrun.of_guarded, heq.symm.trans hcounts⟩

/-! ## More lines -/

/-- The same cache with another number of lines in a set. -/
def Geometry.withAssoc (g : Geometry) (assoc : ℕ) : Geometry := { g with assoc := assoc }

/-- **More lines in a set are no worse.** On a trace on which no hit splits a tie, in the one cache
or in the other, a cache with more lines in each set has no fewer hits, and no more misses and
evictions. -/
theorem moreLines_noWorse {assoc : ℕ} {c₀ c₀' : Sim} (hpos : 1 ≤ g.assoc) (hle : g.assoc ≤ assoc)
    (hbits : g.setBits + g.blockBits ≤ 31) (hinit : g.init = some c₀)
    (hinit' : (g.withAssoc assoc).init = some c₀')
    (h : Runs (Guarded (fun c addr => ¬ c.SplitsTie g addr) (Access g)) c₀ addrs c)
    (h' : Runs (Guarded (fun c addr => ¬ c.SplitsTie (g.withAssoc assoc) addr)
      (Access (g.withAssoc assoc))) c₀' addrs c') :
    c.counts.NoWorse c'.counts := by
  have hpos' : 1 ≤ (g.withAssoc assoc).assoc := hpos.trans hle
  obtain ⟨-, rfl⟩ := (Geometry.init_eq_some_iff hpos).mp hinit
  obtain ⟨-, rfl⟩ := (Geometry.init_eq_some_iff hpos').mp hinit'
  have hsim := simulates_of_guarded hpos hbits h
  have hsim' := simulates_of_guarded hpos' hbits h'
  rw [hsim.counts_eq, hsim'.counts_eq]
  exact Cache.counts_noWorse hpos hle g.setOf (addrs.map g.block)

/-- One line and two lines: the second cache has a hit, the first one has two evictions. -/
theorem moreLines_noWorse_example : ∃ c₀ c₀' c c',
    Geometry.init ⟨0, 1, 4⟩ = some c₀ ∧ Geometry.init ⟨0, 2, 4⟩ = some c₀' ∧
    Runs (Access ⟨0, 1, 4⟩) c₀ [0x10, 0x20, 0x10] c ∧
    Runs (Access ⟨0, 2, 4⟩) c₀' [0x10, 0x20, 0x10] c' ∧
    c.counts = ⟨0, 3, 2⟩ ∧ c'.counts = ⟨1, 2, 0⟩ ∧ c.counts.NoWorse c'.counts := by
  obtain ⟨c, hrun, hcounts⟩ := exists_runs_of_runIf (Access ⟨0, 1, 4⟩) Sim.counts ⟨0, 3, 2⟩
    (fun _ _ _ h => h) (show (runIf (fun c addr => ¬ c.SplitsTie ⟨0, 1, 4⟩ addr)
      (checkCache ⟨0, 1, 4⟩) (Geometry.empty ⟨0, 1, 4⟩) [0x10, 0x20, 0x10]).map Sim.counts =
      some ⟨0, 3, 2⟩ by decide)
  obtain ⟨c', hrun', hcounts'⟩ := exists_runs_of_runIf (Access ⟨0, 2, 4⟩) Sim.counts ⟨1, 2, 0⟩
    (fun _ _ _ h => h) (show (runIf (fun c addr => ¬ c.SplitsTie ⟨0, 2, 4⟩ addr)
      (checkCache ⟨0, 2, 4⟩) (Geometry.empty ⟨0, 2, 4⟩) [0x10, 0x20, 0x10]).map Sim.counts =
      some ⟨1, 2, 0⟩ by decide)
  have hinit : Geometry.init ⟨0, 1, 4⟩ = some (Geometry.empty ⟨0, 1, 4⟩) :=
    Geometry.init_of_fits (by decide) (by decide)
  have hinit' : Geometry.init ⟨0, 2, 4⟩ = some (Geometry.empty ⟨0, 2, 4⟩) :=
    Geometry.init_of_fits (by decide) (by decide)
  exact ⟨_, _, c, c', hinit, hinit', hrun.of_guarded, hrun'.of_guarded, hcounts, hcounts',
    moreLines_noWorse (g := ⟨0, 1, 4⟩) (by decide) (show 1 ≤ 2 by decide) (by decide) hinit hinit'
      hrun hrun'⟩

end SystemsLabs.Cachelab
