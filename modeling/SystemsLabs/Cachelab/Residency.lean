import SystemsLabs.Cachelab.Simulation
import SystemsLabs.Lib.Demand

/-!
# The blocks in the cache

Whatever the ages of the lines are, `check_cache` loads blocks on demand: `Resides` relates the
simulator to the cache of `Lib.Demand`, in which it is open which block a full set gives up. The
valid lines of a set stand in front and hold different blocks, so a block that has just been
accessed is found again, and sets that are large enough for their blocks evict nothing
(`residency_iff`).

**Assumptions.** `s + b ≤ 31` and at least one line in a set. `main` can build the cache iff
`2 ^ s * E` is an `int` (`residency_iff`).
-/

namespace SystemsLabs.Cachelab

open Lib

variable {g : Geometry} {addr : BitVec 64} {isHit : Line → Bool} {V V₁ V₂ F lines : List Line}
  {v : Line} {i : ℕ} {S : Finset ℕ}

/-- The block that a line holds. -/
def Line.block (g : Geometry) (l : Line) : ℕ := g.block l.line

/-- Ageing keeps the block. -/
@[simp] theorem Line.block_age (g : Geometry) (l : Line) : l.age.block g = l.block g := rfl

/-- The lines of set `i` hold the blocks `S`: the valid ones stand in front, and each holds a
different block of the set. -/
structure Holds (g : Geometry) (i : ℕ) (lines : List Line) (S : Finset ℕ) : Prop where
  length_eq : lines.length = g.assoc
  split : ∃ V F, lines = V ++ F ∧ (∀ l ∈ F, l.valid = false) ∧
    (∀ l ∈ V, l.valid = true ∧ g.setOf (l.block g) = i) ∧
    (V.map (Line.block g)).Nodup ∧ (V.map (Line.block g)).toFinset = S

/-- A set of invalid lines holds no block. -/
theorem holds_empty (g : Geometry) (i : ℕ) :
    Holds g i (List.replicate g.assoc ⟨false, 0, 0⟩) ∅ where
  length_eq := List.length_replicate
  split := ⟨[], _, rfl, fun _ hl => by rw [List.eq_of_mem_replicate hl], by simp,
    List.nodup_nil, rfl⟩

/-- The victim is one of the lines. -/
theorem oldestFrom_lt {max index n : ℕ} (hindex : index < n) (hn : i + V.length ≤ n) :
    oldestFrom i max index V < n := by
  induction V generalizing i max index with
  | nil => exact hindex
  | cons l V ih =>
    rw [List.length_cons] at hn
    unfold oldestFrom
    split_ifs
    · exact ih (by omega) (by omega)
    · exact ih hindex (by omega)

/-- The victim is a line of the set. -/
theorem oldest_lt (hV : V ≠ []) : oldest V < V.length :=
  oldestFrom_lt (List.length_pos_iff.mpr hV) (by omega)

/-! ## One set -/

namespace Holds

/-- Lines that are older hold the same blocks. -/
theorem forall_age (hV : ∀ l ∈ V, l.valid = true ∧ g.setOf (l.block g) = i) :
    ∀ l ∈ V.map Line.age, l.valid = true ∧ g.setOf (l.block g) = i :=
  List.forall_mem_map.mpr hV

/-- A block takes the place of another one. -/
theorem nodup_replace {l₁ l₂ : List ℕ} {a b : ℕ} (hnd : (l₁ ++ b :: l₂).Nodup)
    (ha : a ∉ (l₁ ++ b :: l₂).toFinset) :
    (l₁ ++ a :: l₂).Nodup ∧
      (l₁ ++ a :: l₂).toFinset = insert a ((l₁ ++ b :: l₂).toFinset.erase b) := by
  have hperm : ∀ c, (l₁ ++ c :: l₂).Perm (c :: (l₁ ++ l₂)) := fun c => List.perm_middle
  obtain ⟨hb, hrest⟩ := List.nodup_cons.mp ((hperm b).nodup_iff.mp hnd)
  rw [List.toFinset_eq_of_perm _ _ (hperm b), List.toFinset_cons] at ha ⊢
  have ha' : a ∉ l₁ ++ l₂ := fun hin =>
    ha (Finset.mem_insert_of_mem (List.mem_toFinset.mpr hin))
  refine ⟨(hperm a).nodup_iff.mpr (List.nodup_cons.mpr ⟨ha', hrest⟩), ?_⟩
  rw [List.toFinset_eq_of_perm _ _ (hperm a), List.toFinset_cons,
    Finset.erase_insert (by rw [List.mem_toFinset]; exact hb)]

/-- In its set, a line is a hit when it holds the block. -/
theorem isHit_iff (hbits : g.setBits + g.blockBits ≤ 31) (hi : g.setOf (g.block addr) = i)
    (hV : ∀ l ∈ V, l.valid = true ∧ g.setOf (l.block g) = i) {l : Line} (hl : l ∈ V) :
    decide (g.tag addr = g.tag l.line) = true ↔ g.block addr = l.block g := by
  rw [decide_eq_true_iff]
  exact Geometry.tag_eq_iff (by omega) (hi.trans (hV l hl).2.symm)

/-- The block is there. -/
theorem hit (h : Holds g i lines S) (hbits : g.setBits + g.blockBits ≤ 31)
    (hi : g.setOf (g.block addr) = i) (hmem : g.block addr ∈ S) :
    (accessSet g addr lines).2 = .hit ∧ Holds g i (accessSet g addr lines).1 S := by
  obtain ⟨hlen, V, F, rfl, hF, hV, hnd, rfl⟩ := h
  obtain ⟨v, hv, hblock⟩ := List.mem_map.mp (List.mem_toFinset.mp hmem)
  obtain ⟨V₁, V₂, rfl⟩ := List.append_of_mem hv
  have hmiss : ∀ l ∈ V₁, l.valid = true ∧ decide (g.tag addr = g.tag l.line) = false := by
    intro l hl
    have hl' : l ∈ V₁ ++ v :: V₂ := List.mem_append_left _ hl
    refine ⟨(hV l hl').1, Bool.eq_false_iff.mpr fun heq => ?_⟩
    have hl'' := (isHit_iff hbits hi hV hl').mp heq
    rw [List.map_append, List.map_cons] at hnd
    refine (List.nodup_append.mp hnd).2.2 _ (List.mem_map_of_mem hl) _ List.mem_cons_self ?_
    rw [← hl'', hblock]
  have hhit := (isHit_iff hbits hi hV hv).mpr hblock.symm
  have hacc : accessSet g addr (V₁ ++ v :: V₂ ++ F) =
      (V₁.map Line.age ++ { v with lastUsed := 0 } :: (V₂ ++ F), .hit) := by
    rw [accessSet, List.append_assoc, List.cons_append, scan_of_hit hmiss (hV v hv).1 hhit,
      if_pos rfl]
  have hblocks : (V₁.map Line.age ++ { v with lastUsed := 0 } :: V₂).map (Line.block g) =
      (V₁ ++ v :: V₂).map (Line.block g) := by
    rw [List.map_append, List.map_append, List.map_map]
    rfl
  rw [hacc]
  refine ⟨rfl, by simpa using hlen, V₁.map Line.age ++ { v with lastUsed := 0 } :: V₂, F, by simp,
    hF, fun l hl => ?_, by rwa [hblocks], by rw [hblocks]⟩
  rcases List.mem_append.mp hl with hl | hl
  · exact forall_age (fun l hl => hV l (List.mem_append_left _ hl)) l hl
  · rcases List.mem_cons.mp hl with rfl | hl
    · exact hV v hv
    · exact hV l (by simp [hl])

/-- Without the block, the scan finds no hit. -/
theorem scan_eq (hbits : g.setBits + g.blockBits ≤ 31) (hi : g.setOf (g.block addr) = i)
    (hF : ∀ l ∈ F, l.valid = false) (hV : ∀ l ∈ V, l.valid = true ∧ g.setOf (l.block g) = i)
    (hmem : g.block addr ∉ (V.map (Line.block g)).toFinset) :
    scan (fun l => g.tag addr = g.tag l.line) (V ++ F) =
      (V.map Line.age ++ F, false, V.length) := by
  refine scan_of_miss (fun l hl => ⟨(hV l hl).1, Bool.eq_false_iff.mpr fun heq => hmem ?_⟩) hF
  rw [(isHit_iff hbits hi hV hl).mp heq]
  exact List.mem_toFinset.mpr (List.mem_map_of_mem hl)

/-- The block is loaded into a free line. -/
theorem fill (h : Holds g i lines S) (hbits : g.setBits + g.blockBits ≤ 31)
    (hi : g.setOf (g.block addr) = i) (hmem : g.block addr ∉ S) (hlt : S.card < g.assoc) :
    (accessSet g addr lines).2 = .miss ∧
      Holds g i (accessSet g addr lines).1 (insert (g.block addr) S) := by
  obtain ⟨hlen, V, F, rfl, hF, hV, hnd, rfl⟩ := h
  rw [List.toFinset_card_of_nodup hnd, List.length_map] at hlt
  obtain ⟨f, F, rfl⟩ := List.exists_cons_of_ne_nil (l := F) (by rintro rfl; simp at hlen; omega)
  have hVage := forall_age hV
  have hacc : accessSet g addr (V ++ f :: F) = (V.map Line.age ++ ⟨true, 0, addr⟩ :: F, .miss) := by
    rw [accessSet, scan_eq hbits hi hF hV hmem]
    dsimp only
    rw [if_neg Bool.false_ne_true, if_pos hlt,
      fillFree_append (fun l hl => (hVage l hl).1) (hF f List.mem_cons_self)]
  have hblocks : (V.map Line.age ++ [(⟨true, 0, addr⟩ : Line)]).map (Line.block g) =
      V.map (Line.block g) ++ [g.block addr] := by
    rw [List.map_append, List.map_map]
    rfl
  rw [hacc]
  refine ⟨rfl, by simpa using hlen, V.map Line.age ++ [⟨true, 0, addr⟩], F, by simp,
    fun l hl => hF l (List.mem_cons_of_mem _ hl), fun l hl => ?_, ?_, ?_⟩
  · rcases List.mem_append.mp hl with hl | hl
    · exact hVage l hl
    · obtain rfl := List.mem_singleton.mp hl
      exact ⟨rfl, hi⟩
  · rw [hblocks]
    have hnot : g.block addr ∉ V.map (Line.block g) := fun hin => hmem (List.mem_toFinset.mpr hin)
    exact (List.perm_append_singleton _ _).nodup_iff.mpr (List.nodup_cons.mpr ⟨hnot, hnd⟩)
  · rw [hblocks, List.toFinset_append, List.toFinset_cons, List.toFinset_nil, insert_empty_eq,
      Finset.union_comm, ← Finset.insert_eq]

/-- The block is loaded in place of another one. -/
theorem evict (h : Holds g i lines S) (hbits : g.setBits + g.blockBits ≤ 31)
    (hi : g.setOf (g.block addr) = i) (hmem : g.block addr ∉ S) (hE : 1 ≤ g.assoc)
    (hfull : ¬ S.card < g.assoc) :
    (accessSet g addr lines).2 = .evict ∧ S.card = g.assoc ∧
      ∃ b ∈ S, Holds g i (accessSet g addr lines).1 (insert (g.block addr) (S.erase b)) := by
  obtain ⟨hlen, V, F, rfl, hF, hV, hnd, rfl⟩ := h
  rw [List.toFinset_card_of_nodup hnd, List.length_map] at hfull ⊢
  rw [List.length_append] at hlen
  obtain rfl : F = [] := List.length_eq_zero_iff.mp (by omega)
  rw [List.length_nil] at hlen
  have hne : V.map Line.age ≠ [] := by
    intro hnil
    rw [List.map_eq_nil_iff] at hnil
    subst hnil
    simp at hlen
    omega
  have hk := oldest_lt hne
  set k := oldest (V.map Line.age) with hkdef
  rw [List.length_map] at hk
  -- the victim splits the lines
  obtain ⟨V₁, v, V₂, rfl, hlen₁⟩ : ∃ V₁ v V₂, V = V₁ ++ v :: V₂ ∧ V₁.length = k :=
    ⟨V.take k, V[k], V.drop (k + 1), by rw [List.getElem_cons_drop, List.take_append_drop],
      by simp; omega⟩
  have hacc : accessSet g addr (V₁ ++ v :: V₂ ++ []) =
      (V₁.map Line.age ++ ⟨true, 0, addr⟩ :: V₂.map Line.age, .evict) := by
    rw [accessSet, scan_eq hbits hi hF hV hmem]
    dsimp only
    rw [if_neg Bool.false_ne_true, if_neg hfull, List.append_nil, ← hkdef, ← hlen₁, List.map_append,
      List.map_cons, List.set_append_right _ _ (by simp), List.length_map, Nat.sub_self,
      List.set_cons_zero]
  have hblocks : (V₁.map Line.age ++ ⟨true, 0, addr⟩ :: V₂.map Line.age).map (Line.block g) =
      V₁.map (Line.block g) ++ g.block addr :: V₂.map (Line.block g) := by
    rw [List.map_append, List.map_cons, List.map_map, List.map_map]
    rfl
  rw [List.map_append, List.map_cons] at hnd hmem ⊢
  rw [hacc]
  obtain ⟨hnd', hfin⟩ := nodup_replace hnd hmem
  refine ⟨rfl, by simpa using hlen, v.block g, by simp, by simpa using hlen,
    V₁.map Line.age ++ ⟨true, 0, addr⟩ :: V₂.map Line.age, [], by simp, hF, fun l hl => ?_,
    by rwa [hblocks], by rw [hblocks, hfin]⟩
  rcases List.mem_append.mp hl with hl | hl
  · exact forall_age (fun l hl => hV l (List.mem_append_left _ hl)) l hl
  · rcases List.mem_cons.mp hl with rfl | hl
    · exact ⟨rfl, hi⟩
    · exact forall_age (fun l hl => hV l (by simp [hl])) l hl

/-- **One set.** An access loads its block on demand. -/
theorem access (h : Holds g i lines S) (hE : 1 ≤ g.assoc) (hbits : g.setBits + g.blockBits ≤ 31)
    (hi : g.setOf (g.block addr) = i) :
    ∃ T, Demand.Access g.assoc (g.block addr) S T (accessSet g addr lines).2 ∧
      Holds g i (accessSet g addr lines).1 T := by
  by_cases hmem : g.block addr ∈ S
  · obtain ⟨hout, hholds⟩ := h.hit hbits hi hmem
    exact ⟨S, hout ▸ .hit hmem, hholds⟩
  · by_cases hlt : S.card < g.assoc
    · obtain ⟨hout, hholds⟩ := h.fill hbits hi hmem hlt
      exact ⟨_, hout ▸ .miss hmem hlt, hholds⟩
    · obtain ⟨hout, hcard, b, hb, hholds⟩ := h.evict hbits hi hmem hE hlt
      exact ⟨_, hout ▸ .evict b hmem hcard hb, hholds⟩

end Holds

/-! ## The whole cache -/

/-- The valid lines stand in front, and their tags differ. -/
def DistinctTags (g : Geometry) (lines : List Line) : Prop :=
  ∃ V F : List Line, lines = V ++ F ∧ (∀ l ∈ V, l.valid = true) ∧ (∀ l ∈ F, l.valid = false) ∧
    (V.map fun l => g.tag l.line).Nodup

/-- A valid line of its set holds the block of the address. -/
def Resident (g : Geometry) (c : Sim) (addr : BitVec 64) : Prop :=
  ∃ lines, c.sets[g.setOf (g.block addr)]? = some lines ∧
    ∃ l ∈ lines, l.valid = true ∧ g.block l.line = g.block addr

variable {c c' : Sim} {K : Demand ℕ} {addrs : List (BitVec 64)}

/-- The simulator and the cache on demand hold the same blocks, and have counted the same. -/
structure Resides (g : Geometry) (c : Sim) (K : Demand ℕ) : Prop where
  length_eq : c.sets.length = 2 ^ g.setBits
  holds : ∀ i lines, c.sets[i]? = some lines → Holds g i lines (K.sets i)
  counts_eq : c.counts = K.counts

/-- The empty cache holds no block. -/
theorem resides_empty (g : Geometry) : Resides g g.empty Demand.empty where
  length_eq := List.length_replicate
  holds i lines hi := by
    obtain rfl := List.eq_of_mem_replicate (List.mem_of_getElem? hi)
    exact holds_empty g i
  counts_eq := rfl

namespace Resides

/-- Every address has its set in the cache. -/
theorem exists_set (h : Resides g c K) (addr : BitVec 64) :
    ∃ lines, c.sets[g.setOf (g.block addr)]? = some lines := by
  refine ⟨_, List.getElem?_eq_getElem ?_⟩
  rw [h.length_eq]
  exact Nat.mod_lt _ (Nat.two_pow_pos _)

/-- `check_cache` takes every access. -/
theorem exists_access (h : Resides g c K) (hbits : g.setBits + g.blockBits ≤ 31)
    (addr : BitVec 64) : ∃ c', Access g c addr c' := by
  obtain ⟨lines, hset⟩ := h.exists_set addr
  obtain ⟨c', heq, -⟩ := checkCache_spec hbits hset
  exact ⟨c', heq⟩

/-- **One access.** -/
theorem access (h : Resides g c K) (hE : 1 ≤ g.assoc) (hbits : g.setBits + g.blockBits ≤ 31)
    (hacc : Access g c addr c') :
    ∃ K', Demand.Step g.assoc g.setOf K (g.block addr) K' ∧ Resides g c' K' := by
  obtain ⟨lines, hset⟩ := h.exists_set addr
  obtain ⟨c'', heq, hsets, hcounts⟩ := checkCache_spec hbits hset
  obtain rfl : c'' = c' := Option.some.inj (heq.symm.trans hacc)
  obtain ⟨T, hdemand, hholds⟩ := (h.holds _ _ hset).access hE hbits rfl
  refine ⟨_, ⟨T, _, hdemand, rfl⟩, by rw [hsets, List.length_set, h.length_eq],
    fun i lines' hi => ?_, by rw [hcounts, h.counts_eq]⟩
  rw [hsets] at hi
  by_cases hieq : i = g.setOf (g.block addr)
  · subst hieq
    rw [List.getElem?_set_self (List.getElem?_eq_some_iff.mp hset).1] at hi
    obtain rfl := Option.some.inj hi
    dsimp only
    rwa [Function.update_self]
  · rw [List.getElem?_set_ne (Ne.symm hieq)] at hi
    dsimp only
    rw [Function.update_of_ne hieq]
    exact h.holds i lines' hi

/-- **Every run.** The simulator refines the cache on demand. -/
theorem of_runs (hE : 1 ≤ g.assoc) (hbits : g.setBits + g.blockBits ≤ 31)
    (h : Runs (Access g) g.empty addrs c) :
    ∃ K, Runs (Demand.Step g.assoc g.setOf) Demand.empty (addrs.map g.block) K ∧ Resides g c K := by
  refine h.invariant_labels (I := fun addrs c => ∃ K, Runs (Demand.Step g.assoc g.setOf)
    Demand.empty (addrs.map g.block) K ∧ Resides g c K) ?_ ⟨_, .nil _, resides_empty g⟩
  rintro addrs c addr c' ⟨K, hrun, hres⟩ hacc
  obtain ⟨K', hstep, hres'⟩ := hres.access hE hbits hacc
  refine ⟨K', ?_, hres'⟩
  rw [List.map_append, List.map_singleton]
  exact hrun.snoc hstep

/-- No two valid lines of a set have one tag. -/
theorem distinctTags (h : Resides g c K) (hbits : g.setBits + g.blockBits ≤ 31)
    (hset : lines ∈ c.sets) : DistinctTags g lines := by
  obtain ⟨i, hset⟩ := List.getElem?_of_mem hset
  obtain ⟨-, V, F, rfl, hF, hV, hnd, -⟩ := h.holds i lines hset
  refine ⟨V, F, rfl, fun l hl => (hV l hl).1, hF, ?_⟩
  rw [List.Nodup, List.pairwise_map] at hnd ⊢
  refine hnd.imp_of_mem fun {l l'} hl hl' hne htag => hne ?_
  exact (Geometry.tag_eq_iff (by omega) ((hV l hl).2.trans (hV l' hl').2.symm)).mp htag

end Resides

/-- What is in a set of the cache on demand is resident in the simulator. -/
theorem Resides.resident (h : Resides g c K)
    (hmem : g.block addr ∈ K.sets (g.setOf (g.block addr))) : Resident g c addr := by
  obtain ⟨lines, hset⟩ := h.exists_set addr
  obtain ⟨-, V, F, rfl, -, hV, -, hS⟩ := h.holds _ _ hset
  rw [← hS] at hmem
  obtain ⟨l, hl, hblock⟩ := List.mem_map.mp (List.mem_toFinset.mp hmem)
  exact ⟨_, hset, l, List.mem_append_left F hl, (hV l hl).1, hblock⟩

/-- An access to a block that is there is a hit. -/
theorem Resides.hit (h : Resides g c K) (hbits : g.setBits + g.blockBits ≤ 31)
    (hmem : g.block addr ∈ K.sets (g.setOf (g.block addr))) :
    ∃ c', Access g c addr c' ∧ c'.counts = c.counts.add .hit := by
  obtain ⟨lines, hset⟩ := h.exists_set addr
  obtain ⟨c', heq, -, hcounts⟩ := checkCache_spec hbits hset
  exact ⟨c', heq, by rw [hcounts, ((h.holds _ _ hset).hit hbits rfl hmem).1]⟩

/-- What residency says after a sequence of accesses: the valid lines of each set stand in front and
have different tags; one more access leaves its block in its set, and after it every access to the
same block is a hit; and if no set has been asked for more blocks than it has lines, nothing has
been evicted and the misses are the different blocks. -/
structure BlocksReside (g : Geometry) (addrs : List (BitVec 64)) (c : Sim) : Prop where
  distinctTags : ∀ lines ∈ c.sets, DistinctTags g lines
  hit_again : ∀ addr, ∃ c', Access g c addr c' ∧ Resident g c' addr ∧
    ∀ addr', g.block addr' = g.block addr →
      ∃ c'', Access g c' addr' c'' ∧ c''.counts = c'.counts.add .hit
  counts_eq : (∀ i, (Demand.asked g.setOf (addrs.map g.block) i).card ≤ g.assoc) →
    c.evictions = 0 ∧ c.misses = (addrs.map g.block).toFinset.card

/-- The residency of blocks on every run from the empty cache. -/
theorem blocksReside_of_runs (hE : 1 ≤ g.assoc) (hbits : g.setBits + g.blockBits ≤ 31)
    (h : Runs (Access g) g.empty addrs c) : BlocksReside g addrs c := by
  obtain ⟨K, hrun, hres⟩ := Resides.of_runs hE hbits h
  refine ⟨fun lines hset => hres.distinctTags hbits hset, fun addr => ?_, fun hfits => ?_⟩
  · obtain ⟨c', hacc⟩ := hres.exists_access hbits addr
    obtain ⟨K', ⟨T, o, hdemand, rfl⟩, hres'⟩ := hres.access hE hbits hacc
    have hmem : g.block addr ∈ Function.update K.sets (g.setOf (g.block addr)) T
        (g.setOf (g.block addr)) := by
      rw [Function.update_self]
      exact hdemand.mem
    refine ⟨c', hacc, hres'.resident hmem, fun addr' heq => hres'.hit hbits ?_⟩
    rw [heq]
    exact hmem
  · have hfit := Demand.fits_of_runs hfits hrun
    have hcounts := hres.counts_eq
    unfold Sim.counts at hcounts
    exact ⟨by rw [← hfit.evictions_eq, ← hcounts], by rw [← hfit.misses_eq, ← hcounts]⟩

/-- **Residency.** `main` builds a cache in which blocks reside after every sequence of accesses, if
and only if an `int` holds the number of its lines. -/
theorem residency_iff (hE : 1 ≤ g.assoc) (hbits : g.setBits + g.blockBits ≤ 31) :
    g.Always (BlocksReside g) ↔ 2 ^ g.setBits * g.assoc < 2 ^ 31 :=
  Geometry.always_iff hE fun _ _ h => blocksReside_of_runs hE hbits h

/-- Two sets of two lines. -/
theorem residency_iff_example : (⟨1, 2, 4⟩ : Geometry).Always (BlocksReside ⟨1, 2, 4⟩) :=
  (residency_iff (by decide) (by decide)).mpr (by decide)

/-- With `-s 16 -E 65536` the number of lines is `2 ^ 32`, and `main` has no cache. -/
theorem exists_not_blocksReside :
    ¬ (⟨16, 65536, 4⟩ : Geometry).Always (BlocksReside ⟨16, 65536, 4⟩) := by
  rintro ⟨c₀, hinit, -⟩
  rw [Geometry.init_of_not_fits (by decide)] at hinit
  exact absurd hinit nofun

end SystemsLabs.Cachelab
