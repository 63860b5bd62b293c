import SystemsLabs.Cachelab.Recency
import Mathlib.Data.List.Sublists

/-!
# `check_cache` against a least-recently-used cache

`Simulates` relates the simulator to the reference cache of `Lib.Lru`: the valid lines of a set
stand in front, and the order of their ages is the order of last use. Every miss keeps this. A hit
keeps it unless it leaves a line in front of it and one behind it, of equal age, in the wrong order
(`Sim.SplitsTie`); runs without such a hit have the counts of the reference cache
(`counts_eq_of_guarded`).

**Assumptions.** `s + b ≤ 31`, there is at least one line in a set, and `main` can build the cache
(`Geometry.init`). The other assumptions are those of `Cachelab.Csim`.
-/

namespace SystemsLabs.Cachelab

open Lib

variable {g : Geometry} {addr : BitVec 64} {isHit : Line → Bool} {V V₁ V₂ F lines : List Line}
  {σ : List (Line × ℕ)} {v f : Line} {i : ℕ} {R : List ℕ}

/-! ## The loops of `check_cache` -/

/-- Invalid lines are passed over, and do not age. -/
theorem scan_of_invalid (hF : ∀ l ∈ F, l.valid = false) : scan isHit F = (F, false, 0) := by
  induction F with
  | nil => rfl
  | cons l F ih =>
      have hl := hF l List.mem_cons_self
      simp [scan, hl, ih fun l hl => hF l (List.mem_cons_of_mem _ hl)]

/-- A scan without a hit ages the valid lines and counts them. -/
theorem scan_of_miss (hV : ∀ l ∈ V, l.valid = true ∧ isHit l = false)
    (hF : ∀ l ∈ F, l.valid = false) :
    scan isHit (V ++ F) = (V.map Line.age ++ F, false, V.length) := by
  induction V with
  | nil => exact scan_of_invalid hF
  | cons l V ih =>
      obtain ⟨hvalid, hmiss⟩ := hV l List.mem_cons_self
      simp [scan, hvalid, hmiss, ih fun l hl => hV l (List.mem_cons_of_mem _ hl), Line.age]

/-- A scan with a hit ages the lines in front of it only. -/
theorem scan_of_hit (hV : ∀ l ∈ V₁, l.valid = true ∧ isHit l = false) (hv : v.valid = true)
    (hhit : isHit v = true) :
    scan isHit (V₁ ++ v :: F) =
      (V₁.map Line.age ++ { v with lastUsed := 0 } :: F, true, V₁.length) := by
  induction V₁ with
  | nil => simp [scan, hv, hhit]
  | cons l V ih =>
      obtain ⟨hvalid, hmiss⟩ := hV l List.mem_cons_self
      simp [scan, hvalid, hmiss, ih fun l hl => hV l (List.mem_cons_of_mem _ hl), Line.age]

/-- The first invalid line is filled. -/
theorem fillFree_append (hV : ∀ l ∈ V, l.valid = true) (hf : f.valid = false) :
    fillFree addr (V ++ f :: F) = V ++ ⟨true, 0, addr⟩ :: F := by
  induction V with
  | nil => simp [fillFree, hf]
  | cons l V ih =>
      simp [fillFree, hV l List.mem_cons_self, ih fun l hl => hV l (List.mem_cons_of_mem _ hl)]

/-- No line in the rest is as old as the one found so far. -/
theorem oldestFrom_of_lt {max index : ℕ} (h : ∀ l ∈ V, l.lastUsed < max) :
    oldestFrom i max index V = index := by
  induction V generalizing i with
  | nil => rfl
  | cons l V ih =>
      have hl := h l List.mem_cons_self
      rw [oldestFrom, if_neg (by omega), ih fun l hl => h l (List.mem_cons_of_mem _ hl)]

/-- The last of the oldest lines is found. -/
theorem oldestFrom_append {max index : ℕ} (hmax : max ≤ v.lastUsed)
    (h₁ : ∀ l ∈ V₁, l.lastUsed ≤ v.lastUsed) (h₂ : ∀ l ∈ V₂, l.lastUsed < v.lastUsed) :
    oldestFrom i max index (V₁ ++ v :: V₂) = i + V₁.length := by
  induction V₁ generalizing i max index with
  | nil => rw [List.nil_append, oldestFrom, if_pos hmax, oldestFrom_of_lt h₂]; rfl
  | cons l V ih =>
      have hl := h₁ l List.mem_cons_self
      have htail := fun l hl => h₁ l (List.mem_cons_of_mem _ hl)
      rw [List.cons_append, oldestFrom, List.length_cons]
      split_ifs
      · rw [ih hl htail]; omega
      · rw [ih hmax htail]; omega

/-- The victim: no line in front of it is older, and every line behind it is younger. -/
theorem oldest_append (h₁ : ∀ l ∈ V₁, l.lastUsed ≤ v.lastUsed)
    (h₂ : ∀ l ∈ V₂, l.lastUsed < v.lastUsed) : oldest (V₁ ++ v :: V₂) = V₁.length := by
  rw [oldest, oldestFrom_append (Nat.zero_le _) h₁ h₂, Nat.zero_add]

/-! ## The lines of an order of ages -/

namespace Recency

/-- A line of the order is a line of the set. -/
theorem exists_split {x : Line × ℕ} (h : Recency V σ) (hx : x ∈ σ) :
    ∃ V₁ V₂, V = V₁ ++ x.1 :: V₂ ∧ V₁.length = x.2 := by
  obtain ⟨hlt, hget⟩ := List.mem_zipIdx' (h.perm.mem_iff.mp hx)
  refine ⟨V.take x.2, V.drop (x.2 + 1), ?_, by simp; omega⟩
  rw [hget, List.getElem_cons_drop, List.take_append_drop]

/-- A line in front of the one given, with its place. -/
theorem mem_left (h : Recency (V₁ ++ v :: V₂) σ) {l : Line} (hl : l ∈ V₁) :
    ∃ k < V₁.length, (l, k) ∈ σ := by
  obtain ⟨k, hk, rfl⟩ := List.getElem_of_mem hl
  refine ⟨k, hk, h.perm.mem_iff.mpr ?_⟩
  rw [List.mem_zipIdx_iff_getElem?, List.getElem?_append_left hk, List.getElem?_eq_getElem hk]

/-- A line behind the one given, with its place. -/
theorem mem_right (h : Recency (V₁ ++ v :: V₂) σ) {l : Line} (hl : l ∈ V₂) :
    ∃ k > V₁.length, (l, k) ∈ σ := by
  obtain ⟨k, hk, rfl⟩ := List.getElem_of_mem hl
  refine ⟨V₁.length + (k + 1), by omega, h.perm.mem_iff.mpr ?_⟩
  rw [List.mem_zipIdx_iff_getElem?, List.getElem?_append_right (by simp)]
  simp [hk]

end Recency

/-! ## One set -/

/-- The lines of a set as an access leaves them, and what the access does. -/
def accessSet (g : Geometry) (addr : BitVec 64) (lines : List Line) : List Line × Outcome :=
  let r := scan (fun l => g.tag addr = g.tag l.line) lines
  if r.2.1 then (r.1, .hit)
  else if r.2.2 < g.assoc then (fillFree addr r.1, .miss)
  else (r.1.set (oldest r.1) ⟨true, 0, addr⟩, .evict)

/-- A hit has a valid line in front of it and one behind it that are of equal age. Only the one in
front ages, and counts as the older one from then on, although it was the younger one. -/
def SplitsTie (isHit : Line → Bool) (lines : List Line) : Prop :=
  ∃ x y z, [x, y, z].Sublist lines ∧ x.valid = true ∧ y.valid = true ∧ z.valid = true ∧
    isHit y = true ∧ x.lastUsed = z.lastUsed

/-- The condition on the three lines, as a test. -/
def splitsAt (isHit : Line → Bool) : List Line → Bool
  | [x, y, z] => x.valid && y.valid && z.valid && isHit y && x.lastUsed == z.lastUsed
  | _ => false

instance : Decidable (SplitsTie isHit lines) :=
  decidable_of_iff (∃ s ∈ lines.sublists, splitsAt isHit s = true) <| by
    constructor
    · rintro ⟨s, hs, hsplits⟩
      unfold splitsAt at hsplits
      split at hsplits
      · exact ⟨_, _, _, List.mem_sublists.mp hs, by simpa [and_assoc] using hsplits⟩
      · exact absurd hsplits Bool.false_ne_true
    · rintro ⟨x, y, z, hs, h⟩
      exact ⟨_, List.mem_sublists.mpr hs, by simpa [splitsAt, and_assoc] using h⟩

/-- The lines of set `i` keep the blocks `R`, listed from the last used one to the first. -/
structure Keeps (g : Geometry) (i : ℕ) (lines : List Line) (R : List ℕ) : Prop where
  length_eq : lines.length = g.assoc
  nodup : R.Nodup
  recency : ∃ V F σ, lines = V ++ F ∧ (∀ l ∈ F, l.valid = false) ∧
    (∀ l ∈ V, l.valid = true ∧ g.setOf (g.block l.line) = i) ∧
    Recency V σ ∧ R = σ.map fun x => g.block x.1.line

/-- An empty set. -/
theorem keeps_empty (g : Geometry) (i : ℕ) :
    Keeps g i (List.replicate g.assoc ⟨false, 0, 0⟩) [] where
  length_eq := List.length_replicate
  nodup := List.nodup_nil
  recency := ⟨[], _, [], rfl, fun _ hl => by rw [List.eq_of_mem_replicate hl], by simp,
    ⟨List.Perm.refl _, List.Pairwise.nil⟩, rfl⟩

namespace Keeps

/-- A hit keeps the order of last use unless it splits a tie. -/
theorem hit (h : Keeps g i lines R) (hbits : g.setBits + g.blockBits ≤ 31)
    (hi : g.setOf (g.block addr) = i) (hmem : g.block addr ∈ R)
    (hties : ¬ SplitsTie (fun l => g.tag addr = g.tag l.line) lines) :
    (accessSet g addr lines).2 = .hit ∧
      Keeps g i (accessSet g addr lines).1 (g.block addr :: R.erase (g.block addr)) := by
  obtain ⟨hlen, hnd, V, F, σ, rfl, hF, hV, hσ, rfl⟩ := h
  obtain ⟨⟨v, k⟩, hx, hblock⟩ := List.mem_map.mp hmem
  obtain ⟨V₁, V₂, rfl, rfl⟩ := hσ.exists_split hx
  obtain ⟨A, B, rfl⟩ := List.append_of_mem hx
  have htag : ∀ l ∈ V₁ ++ v :: V₂, g.tag addr = g.tag l.line ↔ g.block addr = g.block l.line :=
    fun l hl => Geometry.tag_eq_iff (by omega) (hi.trans (hV l hl).2.symm)
  -- the line is the only one of its block, so it is the first hit
  have hmiss : ∀ l ∈ V₁, l.valid = true ∧ decide (g.tag addr = g.tag l.line) = false := by
    intro l hl
    have hl' : l ∈ V₁ ++ v :: V₂ := List.mem_append_left _ hl
    refine ⟨(hV l hl').1, decide_eq_false fun heq => ?_⟩
    obtain ⟨k, hk, hlσ⟩ := hσ.mem_left hl
    have := List.inj_on_of_nodup_map hnd hlσ hx (((htag l hl').mp heq).symm.trans hblock.symm)
    simp only [Prod.mk.injEq] at this
    omega
  have hvV : v ∈ V₁ ++ v :: V₂ := by simp
  have hhit : decide (g.tag addr = g.tag v.line) = true :=
    decide_eq_true ((htag v hvV).mpr hblock.symm)
  have hvalid := (hV v hvV).1
  have hacc : accessSet g addr (V₁ ++ v :: V₂ ++ F) =
      (V₁.map Line.age ++ { v with lastUsed := 0 } :: (V₂ ++ F), .hit) := by
    rw [accessSet, List.append_assoc, List.cons_append, scan_of_hit hmiss hvalid hhit, if_pos rfl]
  have herase : ((A ++ (v, V₁.length) :: B).map fun x => g.block x.1.line).erase (g.block addr) =
      (A ++ B).map fun x => g.block x.1.line := by
    rw [List.map_append, List.map_cons, hblock] at hnd ⊢
    have hnot : g.block addr ∉ A.map fun x => g.block x.1.line :=
      fun ha => (List.nodup_append.mp hnd).2.2 _ ha _ List.mem_cons_self rfl
    rw [List.erase_append_right _ hnot, List.erase_cons_head, List.map_append]
  rw [hacc]
  refine ⟨rfl, ⟨by simpa using hlen, List.nodup_cons.mpr ⟨hnd.not_mem_erase, hnd.erase _⟩,
    V₁.map Line.age ++ { v with lastUsed := 0 } :: V₂, F, _, by simp, hF, ?_, hσ.hit rfl ?_, ?_⟩⟩
  · intro l hl
    rcases List.mem_append.mp hl with hl | hl
    · obtain ⟨l, hl', rfl⟩ := List.mem_map.mp hl
      exact hV l (List.mem_append_left _ hl')
    · rcases List.mem_cons.mp hl with rfl | hl
      · exact hV v hvV
      · exact hV l (by simp [hl])
  · intro x hxV z hzV heq
    refine hties ⟨x, v, z, ?_, (hV x (by simp [hxV])).1, hvalid, (hV z (by simp [hzV])).1, hhit,
      heq⟩
    have hx' : [x].Sublist V₁ := List.singleton_sublist.mpr hxV
    have hz' : [z].Sublist (V₂ ++ F) := List.singleton_sublist.mpr (List.mem_append_left _ hzV)
    rw [List.append_assoc]
    exact hx'.append (hz'.cons_cons v)
  · rw [herase, List.map_cons, List.map_map]
    congr 1
    · exact hblock.symm
    · apply List.map_congr_left
      intro x _
      unfold Recency.ageBefore
      dsimp only [Function.comp_apply]
      split_ifs <;> rfl

/-- Without the block, the scan finds no hit. -/
theorem scan_eq (hbits : g.setBits + g.blockBits ≤ 31) (hi : g.setOf (g.block addr) = i)
    (hF : ∀ l ∈ F, l.valid = false)
    (hV : ∀ l ∈ V, l.valid = true ∧ g.setOf (g.block l.line) = i) (hσ : Recency V σ)
    (hmem : g.block addr ∉ σ.map fun x => g.block x.1.line) :
    scan (fun l => g.tag addr = g.tag l.line) (V ++ F) =
      (V.map Line.age ++ F, false, V.length) := by
  refine scan_of_miss (fun l hl => ⟨(hV l hl).1, decide_eq_false fun heq => hmem ?_⟩) hF
  have hblock := (Geometry.tag_eq_iff (by omega) (hi.trans (hV l hl).2.symm)).mp heq
  obtain ⟨k, hk, rfl⟩ := List.getElem_of_mem hl
  rw [List.mem_map]
  refine ⟨(V[k], k), hσ.perm.mem_iff.mpr ?_, hblock.symm⟩
  simp [List.mem_zipIdx_iff_getElem?, hk]

/-- A miss with a free line fills it. -/
theorem fill (h : Keeps g i lines R) (hbits : g.setBits + g.blockBits ≤ 31)
    (hi : g.setOf (g.block addr) = i) (hmem : g.block addr ∉ R) (hlt : R.length < g.assoc) :
    (accessSet g addr lines).2 = .miss ∧
      Keeps g i (accessSet g addr lines).1 (g.block addr :: R) := by
  obtain ⟨hlen, hnd, V, F, σ, rfl, hF, hV, hσ, rfl⟩ := h
  have hσlen : σ.length = V.length := by simpa using hσ.perm.length_eq
  rw [List.length_map, hσlen] at hlt
  obtain ⟨f, F, rfl⟩ := List.exists_cons_of_ne_nil (l := F) (by rintro rfl; simp at hlen; omega)
  have hVage : ∀ l ∈ V.map Line.age, l.valid = true ∧ g.setOf (g.block l.line) = i := by
    intro l hl
    obtain ⟨l, hl', rfl⟩ := List.mem_map.mp hl
    exact hV l hl'
  have hacc : accessSet g addr (V ++ f :: F) = (V.map Line.age ++ ⟨true, 0, addr⟩ :: F, .miss) := by
    rw [accessSet, scan_eq hbits hi hF hV hσ hmem]
    dsimp only
    rw [if_neg Bool.false_ne_true, if_pos hlt,
      fillFree_append (fun l hl => (hVage l hl).1) (hF f List.mem_cons_self)]
  rw [hacc]
  refine ⟨rfl, ⟨by simpa using hlen, List.nodup_cons.mpr ⟨hmem, hnd⟩,
    V.map Line.age ++ [⟨true, 0, addr⟩], F, _, by simp,
    fun l hl => hF l (List.mem_cons_of_mem _ hl), ?_, hσ.fill rfl, ?_⟩⟩
  · intro l hl
    rcases List.mem_append.mp hl with hl | hl
    · exact hVage l hl
    · obtain rfl := List.mem_singleton.mp hl
      exact ⟨rfl, hi⟩
  · simp

/-- A miss on a full set evicts the block whose last use is the oldest. -/
theorem evict (h : Keeps g i lines R) (hbits : g.setBits + g.blockBits ≤ 31)
    (hi : g.setOf (g.block addr) = i) (hmem : g.block addr ∉ R) (hpos : 1 ≤ g.assoc)
    (hfull : ¬ R.length < g.assoc) :
    (accessSet g addr lines).2 = .evict ∧
      Keeps g i (accessSet g addr lines).1 (g.block addr :: R.dropLast) := by
  obtain ⟨hlen, hnd, V, F, σ, rfl, hF, hV, hσ, rfl⟩ := h
  have hσlen : σ.length = V.length := by simpa using hσ.perm.length_eq
  rw [List.length_map, hσlen] at hfull
  rw [List.length_append] at hlen
  obtain rfl : F = [] := List.length_eq_zero_iff.mp (by omega)
  obtain ⟨σ, ⟨v, k⟩, rfl⟩ : ∃ σ₀ x, σ = σ₀ ++ [x] :=
    ⟨_, _, (List.dropLast_append_getLast (by rintro rfl; simp at hσlen; omega)).symm⟩
  obtain ⟨V₁, V₂, rfl, rfl⟩ := hσ.exists_split (x := (v, k)) (by simp)
  have hyounger : ∀ l k, k ≠ V₁.length → (l, k) ∈ σ ++ [(v, V₁.length)] →
      Younger (l, k) (v, V₁.length) := by
    intro l k hne hl
    refine (List.pairwise_append.mp hσ.sorted).2.2 _ ?_ _ (List.mem_singleton.mpr rfl)
    simpa [hne] using hl
  have h₁ : ∀ l ∈ V₁.map Line.age, l.lastUsed ≤ v.age.lastUsed := by
    intro l hl
    obtain ⟨l, hl', rfl⟩ := List.mem_map.mp hl
    obtain ⟨k, hk, hlσ⟩ := hσ.mem_left hl'
    have := hyounger l k (by omega) hlσ
    simp only [Younger, Line.age_lastUsed] at this ⊢
    omega
  have h₂ : ∀ l ∈ V₂.map Line.age, l.lastUsed < v.age.lastUsed := by
    intro l hl
    obtain ⟨l, hl', rfl⟩ := List.mem_map.mp hl
    obtain ⟨k, hk, hlσ⟩ := hσ.mem_right hl'
    have := hyounger l k (by omega) hlσ
    simp only [Younger, Line.age_lastUsed] at this ⊢
    omega
  have hacc : accessSet g addr (V₁ ++ v :: V₂ ++ []) =
      (V₁.map Line.age ++ ⟨true, 0, addr⟩ :: V₂.map Line.age, .evict) := by
    rw [accessSet, scan_eq hbits hi hF hV hσ hmem]
    dsimp only
    rw [if_neg Bool.false_ne_true, if_neg hfull, List.append_nil, List.map_append, List.map_cons,
      oldest_append h₁ h₂, List.set_append_right _ _ le_rfl, Nat.sub_self, List.set_cons_zero]
  have hlast : ((σ ++ [(v, V₁.length)]).map fun x => g.block x.1.line).dropLast =
      σ.map fun x => g.block x.1.line := by
    rw [List.map_append, List.map_singleton, List.dropLast_concat]
  rw [hacc, hlast]
  rw [List.map_append] at hmem hnd
  have hnd' := List.nodup_cons.mpr
    ⟨fun hm => hmem (List.mem_append_left _ hm), (List.nodup_append.mp hnd).1⟩
  refine ⟨rfl, ⟨by simpa using hlen, hnd', V₁.map Line.age ++ ⟨true, 0, addr⟩ :: V₂.map Line.age,
    [], _, by simp, hF, ?_, hσ.evict rfl, ?_⟩⟩
  · intro l hl
    rcases List.mem_append.mp hl with hl | hl
    · obtain ⟨l, hl', rfl⟩ := List.mem_map.mp hl
      exact hV l (by simp [hl'])
    · rcases List.mem_cons.mp hl with rfl | hl
      · exact ⟨rfl, hi⟩
      · obtain ⟨l, hl', rfl⟩ := List.mem_map.mp hl
        exact hV l (by simp [hl'])
  · simp

/-- **One set.** An access does what it does in the reference cache. -/
theorem access (h : Keeps g i lines R) (hE : 1 ≤ g.assoc) (hbits : g.setBits + g.blockBits ≤ 31)
    (hi : g.setOf (g.block addr) = i)
    (hties : ¬ SplitsTie (fun l => g.tag addr = g.tag l.line) lines) :
    (accessSet g addr lines).2 = (Lru.access g.assoc (g.block addr) R).2 ∧
      Keeps g i (accessSet g addr lines).1 (Lru.access g.assoc (g.block addr) R).1 := by
  by_cases hmem : g.block addr ∈ R
  · rw [Lru.access_of_mem hmem]
    exact h.hit hbits hi hmem hties
  · by_cases hlt : R.length < g.assoc
    · rw [Lru.access_of_lt hmem hlt]
      exact h.fill hbits hi hmem hlt
    · rw [Lru.access_of_full hmem hlt]
      exact h.evict hbits hi hmem hE hlt

end Keeps

/-! ## The whole cache -/

/-- The three counters. -/
def Sim.counts (c : Sim) : Counts := ⟨c.hits, c.misses, c.evictions⟩

/-- The access is a hit that splits a tie. -/
def Sim.SplitsTie (g : Geometry) (addr : BitVec 64) (c : Sim) : Prop :=
  ∃ lines, c.sets[(g.setIndex addr).toNat]? = some lines ∧
    Cachelab.SplitsTie (fun l => g.tag addr = g.tag l.line) lines

instance (c : Sim) : Decidable (c.SplitsTie g addr) :=
  match hset : c.sets[(g.setIndex addr).toNat]? with
  | some lines =>
      if h : Cachelab.SplitsTie (fun l => g.tag addr = g.tag l.line) lines then
        isTrue ⟨lines, hset, h⟩
      else isFalse fun ⟨_, hset', h'⟩ => h (Option.some.inj (hset.symm.trans hset') ▸ h')
  | none => isFalse (by rintro ⟨_, hset', -⟩; rw [hset] at hset'; cases hset')

/-- An access works on one set and counts what it does there. -/
theorem checkCache_spec {c : Sim} (hbits : g.setBits + g.blockBits ≤ 31)
    (hset : c.sets[g.setOf (g.block addr)]? = some lines) :
    ∃ c', checkCache g c addr = some c' ∧
      c'.sets = c.sets.set (g.setOf (g.block addr)) (accessSet g addr lines).1 ∧
      c'.counts = c.counts.add (accessSet g addr lines).2 := by
  have hindex := Geometry.setIndex_eq hbits addr
  unfold checkCache accessSet
  rw [hindex, if_neg (by omega), Int.toNat_natCast, hset]
  simp only [Option.bind_eq_bind, Option.bind_some, Option.pure_def]
  split_ifs
  · exact ⟨_, rfl, rfl, rfl⟩
  · exact ⟨_, rfl, rfl, rfl⟩
  · exact ⟨_, rfl, rfl, rfl⟩

/-- The simulator and the reference cache keep the same blocks, in the same order of last use, and
have counted the same. -/
structure Simulates (g : Geometry) (c : Sim) (K : Cache ℕ) : Prop where
  length_eq : c.sets.length = 2 ^ g.setBits
  keeps : ∀ i lines, c.sets[i]? = some lines → Keeps g i lines (K.sets i)
  counts_eq : c.counts = K.counts

/-- The empty cache simulates the empty reference cache. -/
theorem simulates_empty (g : Geometry) : Simulates g g.empty Cache.empty where
  length_eq := List.length_replicate
  keeps i lines hi := by
    obtain rfl := List.eq_of_mem_replicate (List.mem_of_getElem? hi)
    exact keeps_empty g i
  counts_eq := rfl

namespace Simulates

variable {c c' : Sim} {K : Cache ℕ}

/-- Every address has its set in the cache. -/
theorem exists_set (h : Simulates g c K) (addr : BitVec 64) :
    ∃ lines, c.sets[g.setOf (g.block addr)]? = some lines := by
  refine ⟨_, List.getElem?_eq_getElem ?_⟩
  rw [h.length_eq]
  exact Nat.mod_lt _ (Nat.two_pow_pos _)

/-- **One access.** -/
theorem access (h : Simulates g c K) (hE : 1 ≤ g.assoc) (hbits : g.setBits + g.blockBits ≤ 31)
    (hties : ¬ c.SplitsTie g addr) (hacc : Access g c addr c') :
    Simulates g c' (Cache.access g.assoc g.setOf K (g.block addr)) := by
  obtain ⟨lines, hset⟩ := h.exists_set addr
  obtain ⟨c'', heq, hsets, hcounts⟩ := checkCache_spec hbits hset
  obtain rfl : c'' = c' := Option.some.inj (heq.symm.trans hacc)
  obtain ⟨hout, hkeeps⟩ := (h.keeps _ _ hset).access hE hbits rfl fun ht =>
    hties ⟨lines, by rw [Geometry.setIndex_eq hbits, Int.toNat_natCast]; exact hset, ht⟩
  refine ⟨by rw [hsets, List.length_set, h.length_eq], fun i lines' hi => ?_, ?_⟩
  · rw [hsets] at hi
    unfold Cache.access
    by_cases hieq : i = g.setOf (g.block addr)
    · subst hieq
      rw [List.getElem?_set_self (List.getElem?_eq_some_iff.mp hset).1] at hi
      obtain rfl := Option.some.inj hi
      simpa using hkeeps
    · rw [List.getElem?_set_ne (Ne.symm hieq)] at hi
      simpa [hieq] using h.keeps i lines' hi
  · rw [hcounts, hout, h.counts_eq]
    rfl

end Simulates

/-- A run whose accesses split no tie follows the reference cache. -/
theorem simulates_of_guarded {addrs : List (BitVec 64)} {c : Sim} (hE : 1 ≤ g.assoc)
    (hbits : g.setBits + g.blockBits ≤ 31)
    (h : Runs (Guarded (fun c addr => ¬ c.SplitsTie g addr) (Access g)) g.empty addrs c) :
    Simulates g c (Cache.run g.assoc g.setOf (addrs.map g.block)) := by
  refine h.invariant_labels
    (I := fun addrs c => Simulates g c (Cache.run g.assoc g.setOf (addrs.map g.block))) ?_ ?_
  · rintro addrs c addr c' hsim ⟨hties, hstep⟩
    rw [List.map_append, List.map_singleton, Cache.run_concat]
    exact hsim.access hE hbits hties hstep
  · exact simulates_empty g

/-- The ages of the valid lines are in the order of last use: a line is younger than another if its
block was used after the last use of the other one. -/
theorem usedAfter_of_guarded {addrs : List (BitVec 64)} {c : Sim} (hE : 1 ≤ g.assoc)
    (hbits : g.setBits + g.blockBits ≤ 31)
    (h : Runs (Guarded (fun c addr => ¬ c.SplitsTie g addr) (Access g)) g.empty addrs c)
    (hset : c.sets[i]? = some lines) :
    ∃ V F σ, lines = V ++ F ∧ (∀ l ∈ F, l.valid = false) ∧ Recency V σ ∧
      (σ.map fun x => g.block x.1.line).Pairwise
        (Lru.UsedAfter ((addrs.map g.block).filter fun b => g.setOf b = i)) := by
  obtain ⟨V, F, σ, hlines, hF, -, hσ, hR⟩ :=
    ((simulates_of_guarded hE hbits h).keeps i lines hset).recency
  refine ⟨V, F, σ, hlines, hF, hσ, ?_⟩
  rw [← hR, Cache.sets_run]
  exact Lru.run_pairwise _ _

/-- **The counts of a least-recently-used cache.** `main` builds a cache if and only if an `int`
holds the number of its lines. In a run from there without a hit that splits a tie, the simulator
counts the hits, misses and evictions of the reference cache, and `check_cache` can always take
another access. -/
theorem counts_eq_of_guarded (hE : 1 ≤ g.assoc) (hbits : g.setBits + g.blockBits ≤ 31) :
    ((∃ c₀, g.init = some c₀) ↔ 2 ^ g.setBits * g.assoc < 2 ^ 31) ∧
    ∀ c₀ addrs c, g.init = some c₀ →
      Runs (Guarded (fun c addr => ¬ c.SplitsTie g addr) (Access g)) c₀ addrs c →
        c.counts = (Cache.run g.assoc g.setOf (addrs.map g.block)).counts ∧
          ∀ addr, ∃ c', Access g c addr c' := by
  refine ⟨Geometry.exists_init_iff hE, fun c₀ addrs c hinit h => ?_⟩
  obtain ⟨-, rfl⟩ := (Geometry.init_eq_some_iff hE).mp hinit
  have hsim := simulates_of_guarded hE hbits h
  refine ⟨hsim.counts_eq, fun addr => ?_⟩
  obtain ⟨lines, hset⟩ := hsim.exists_set addr
  obtain ⟨c', heq, -⟩ := checkCache_spec hbits hset
  exact ⟨c', heq⟩

/-- A hit that splits no tie. -/
theorem counts_eq_of_guarded_example : ∃ c₀ c, Geometry.init ⟨0, 3, 4⟩ = some c₀ ∧
    Runs (Access ⟨0, 3, 4⟩) c₀ [0x10, 0x20, 0x10] c ∧ c.counts = ⟨1, 2, 0⟩ ∧
    (Cache.run 3 (Geometry.setOf ⟨0, 3, 4⟩) [1, 2, 1]).counts = ⟨1, 2, 0⟩ := by
  have hinit : Geometry.init ⟨0, 3, 4⟩ = some (Geometry.empty ⟨0, 3, 4⟩) :=
    Geometry.init_of_fits (by decide) (by decide)
  obtain ⟨c, hrun, hcounts⟩ := exists_runs_of_runIf (Access ⟨0, 3, 4⟩) Sim.counts ⟨1, 2, 0⟩
    (fun _ _ _ h => h) (show (runIf (fun c addr => ¬ c.SplitsTie ⟨0, 3, 4⟩ addr)
      (checkCache ⟨0, 3, 4⟩) (Geometry.empty ⟨0, 3, 4⟩) [0x10, 0x20, 0x10]).map Sim.counts =
      some ⟨1, 2, 0⟩ by decide)
  have heq := ((counts_eq_of_guarded (by decide) (by decide)).2 _ _ _ hinit hrun).1
  exact ⟨_, c, hinit, hrun.of_guarded, hcounts, heq.symm.trans hcounts⟩

/-- With three ways, a hit on the middle one of three lines makes the line in front of it age past
the one behind it, and the next miss evicts the wrong one of the two. -/
theorem exists_counts_ne : ∃ c₀ c, Geometry.init ⟨0, 3, 4⟩ = some c₀ ∧
    Runs (Access ⟨0, 3, 4⟩) c₀ [0x10, 0x20, 0x30, 0x10, 0x20, 0x40, 0x10] c ∧
    c.counts ≠ (Cache.run 3 (Geometry.setOf ⟨0, 3, 4⟩)
      ([0x10, 0x20, 0x30, 0x10, 0x20, 0x40, 0x10].map (Geometry.block ⟨0, 3, 4⟩))).counts := by
  obtain ⟨c, hrun, hcounts⟩ := exists_runs_of_runIf (Access ⟨0, 3, 4⟩) Sim.counts ⟨2, 5, 2⟩
    (fun _ _ _ h => h) (show (runIf (fun _ _ => True) (checkCache ⟨0, 3, 4⟩)
      (Geometry.empty ⟨0, 3, 4⟩) [0x10, 0x20, 0x30, 0x10, 0x20, 0x40, 0x10]).map Sim.counts =
      some ⟨2, 5, 2⟩ by decide +kernel)
  refine ⟨_, c, Geometry.init_of_fits (by decide) (by decide), hrun.of_guarded, ?_⟩
  rw [hcounts]
  decide +kernel

end SystemsLabs.Cachelab
