import SystemsLabs.Lib.Lru
import SystemsLabs.Lib.Runs
import Mathlib.Algebra.BigOperators.Group.Finset.Basic
import Mathlib.Algebra.Order.BigOperators.Group.Finset

/-!
# A set-associative cache that loads blocks on demand

A set holds at most `ways` blocks. A block is loaded when it is accessed and not there, and a full
set gives up one block for it; which one is left open. Whatever the replacement policy is:

* `Demand.Inv` — no set holds more than `ways` blocks, they have all been accessed, every access is
  counted once, and the misses that are not evictions are the blocks that are held;
* `Demand.fits_of_runs` — as long as no set is asked for more than `ways` blocks, nothing is
  evicted, and the misses are the different blocks.
-/

namespace SystemsLabs.Lib

open Finset

/-- An access to a set, the set after it, and what it does. -/
inductive Demand.Access {α : Type*} [DecidableEq α] (ways : ℕ) (a : α) (S : Finset α) :
    Finset α → Outcome → Prop
  | hit (hmem : a ∈ S) : Access ways a S S .hit
  | miss (hmem : a ∉ S) (hlt : #S < ways) : Access ways a S (insert a S) .miss
  | evict (b : α) (hmem : a ∉ S) (hfull : #S = ways) (hb : b ∈ S) :
      Access ways a S (insert a (S.erase b)) .evict

/-- The blocks in each set, and the counters. -/
structure Demand (α : Type*) where
  sets : ℕ → Finset α
  counts : Counts

namespace Demand

variable {α : Type*} [DecidableEq α] {ways n : ℕ} {index : α → ℕ} {a : α} {as : List α}
  {S T : Finset α} {o : Outcome} {K K' : Demand α}

/-- The empty cache. -/
def empty : Demand α := ⟨fun _ => ∅, ⟨0, 0, 0⟩⟩

/-- An access: only the set of the block changes. -/
def Step (ways : ℕ) (index : α → ℕ) (K : Demand α) (a : α) (K' : Demand α) : Prop :=
  ∃ T o, Access ways a (K.sets (index a)) T o ∧
    K' = ⟨Function.update K.sets (index a) T, K.counts.add o⟩

/-! ## One access -/

/-- What has been accessed is held. -/
theorem Access.mem (h : Access ways a S T o) : a ∈ T := by
  cases h with
  | hit hmem => exact hmem
  | miss _ _ => exact mem_insert_self a S
  | evict b _ _ _ => exact mem_insert_self a _

/-- Only what has been accessed is added. -/
theorem Access.subset (h : Access ways a S T o) : T ⊆ insert a S := by
  cases h with
  | hit _ => exact subset_insert a S
  | miss _ _ => exact Subset.refl _
  | evict b _ _ _ => exact insert_subset_insert a (erase_subset b S)

/-- No more is held than there are ways. -/
theorem Access.card_le (h : Access ways a S T o) (hS : #S ≤ ways) : #T ≤ ways := by
  cases h with
  | hit _ => exact hS
  | miss hmem hlt =>
    rw [card_insert_of_notMem hmem]
    exact hlt
  | evict b hmem hfull hb =>
    rw [card_insert_of_notMem fun h => hmem (mem_of_mem_erase h), card_erase_add_one hb]
    exact hS

/-- A miss that is not an eviction makes the set larger by one. -/
theorem Access.misses_add (h : Access ways a S T o) (k : Counts) :
    (k.add o).misses + #S + k.evictions = k.misses + #T + (k.add o).evictions := by
  cases h with
  | hit _ => rfl
  | miss hmem _ =>
    rw [card_insert_of_notMem hmem]
    simp only [Counts.add]
    omega
  | evict b hmem _ hb =>
    rw [card_insert_of_notMem fun h => hmem (mem_of_mem_erase h), card_erase_add_one hb]
    simp only [Counts.add]
    omega

/-- Every access is a hit or a miss. -/
theorem hits_add_misses (k : Counts) (o : Outcome) :
    (k.add o).hits + (k.add o).misses = k.hits + k.misses + 1 := by
  cases o with
  | hit =>
    simp only [Counts.add]
    omega
  | miss => rfl
  | evict => rfl

/-- A set that may still hold all blocks asked of it evicts nothing. -/
theorem Access.eq_insert (h : Access ways a S T o) (hfits : #(insert a S) ≤ ways) :
    T = insert a S ∧ (o = .hit ∧ a ∈ S ∨ o = .miss ∧ a ∉ S) := by
  cases h with
  | hit hmem => exact ⟨(insert_eq_of_mem hmem).symm, .inl ⟨rfl, hmem⟩⟩
  | miss hmem _ => exact ⟨rfl, .inr ⟨rfl, hmem⟩⟩
  | evict b hmem hfull _ =>
    rw [card_insert_of_notMem hmem, hfull] at hfits
    exact absurd hfits (Nat.not_succ_le_self ways)

/-! ## Runs -/

/-- The blocks of the history that belong to set `i`. -/
def asked (index : α → ℕ) (as : List α) (i : ℕ) : Finset α := {a ∈ as.toFinset | index a = i}

/-- The set of the access has been asked for one more. -/
theorem asked_concat_self :
    asked index (as ++ [a]) (index a) = insert a (asked index as (index a)) := by
  ext b
  simp only [asked, List.toFinset_append, List.toFinset_cons, List.toFinset_nil, mem_filter,
    mem_union, mem_insert, insert_empty_eq, mem_singleton, List.mem_toFinset]
  constructor
  · rintro ⟨hb | rfl, hi⟩
    · exact .inr ⟨hb, hi⟩
    · exact .inl rfl
  · rintro (rfl | ⟨hb, hi⟩)
    · exact ⟨.inr rfl, rfl⟩
    · exact ⟨.inl hb, hi⟩

/-- The other sets have not. -/
theorem asked_concat_of_ne {i : ℕ} (hi : i ≠ index a) :
    asked index (as ++ [a]) i = asked index as i := by
  ext b
  simp only [asked, List.toFinset_append, List.toFinset_cons, List.toFinset_nil, mem_filter,
    mem_union, insert_empty_eq, mem_singleton, List.mem_toFinset]
  constructor
  · rintro ⟨hb | rfl, hb'⟩
    · exact ⟨hb, hb'⟩
    · exact absurd hb'.symm hi
  · rintro ⟨hb, hb'⟩
    exact ⟨.inl hb, hb'⟩

/-- The invariant of a cache with `n` sets, after the accesses `as`. -/
structure Inv (ways n : ℕ) (index : α → ℕ) (as : List α) (K : Demand α) : Prop where
  card_le : ∀ i, #(K.sets i) ≤ ways
  subset : ∀ i, K.sets i ⊆ asked index as i
  hits_add_misses : K.counts.hits + K.counts.misses = as.length
  misses_eq : K.counts.misses = K.counts.evictions + ∑ i ∈ range n, #(K.sets i)

/-- The empty store has been asked for nothing. -/
theorem inv_empty : Inv ways n index [] (empty : Demand α) where
  card_le _ := Nat.zero_le _
  subset _ := empty_subset _
  hits_add_misses := rfl
  misses_eq := by simp [empty]

omit [DecidableEq α] in
/-- A sum changes where one of its terms does. -/
theorem sum_card_update (f : ℕ → Finset α) (T : Finset α) {i : ℕ} (hi : i < n) :
    ∑ j ∈ range n, #(Function.update f i T j) + #(f i) = ∑ j ∈ range n, #(f j) + #T := by
  have hmem : i ∈ range n := mem_range.mpr hi
  have hrest : ∑ j ∈ (range n).erase i, #(Function.update f i T j) =
      ∑ j ∈ (range n).erase i, #(f j) :=
    sum_congr rfl fun j hj => by rw [Function.update_of_ne (ne_of_mem_erase hj)]
  rw [← add_sum_erase _ _ hmem, ← add_sum_erase _ (fun j => #(f j)) hmem, hrest,
    Function.update_self]
  omega

/-- **One access.** -/
theorem Inv.step (h : Inv ways n index as K) (hindex : ∀ a, index a < n)
    (hs : Step ways index K a K') : Inv ways n index (as ++ [a]) K' := by
  obtain ⟨T, o, hacc, rfl⟩ := hs
  refine ⟨?_, ?_, ?_, ?_⟩
  · exact (Function.forall_update_iff K.sets fun _ S => #S ≤ ways).mpr
      ⟨hacc.card_le (h.card_le _), fun i _ => h.card_le i⟩
  · refine (Function.forall_update_iff K.sets fun i S => S ⊆ asked index (as ++ [a]) i).mpr
      ⟨?_, fun i hi => ?_⟩
    · rw [asked_concat_self]
      exact hacc.subset.trans (insert_subset_insert a (h.subset _))
    · rw [asked_concat_of_ne hi]
      exact h.subset i
  · rw [Demand.hits_add_misses, h.hits_add_misses, List.length_append]
    rfl
  · have hsum := sum_card_update K.sets T (hindex a)
    have hadd := hacc.misses_add K.counts
    have hmisses := h.misses_eq
    dsimp only at hsum hadd hmisses ⊢
    omega

/-- **Every run.** -/
theorem inv_of_runs (hindex : ∀ a, index a < n) (h : Runs (Step ways index) empty as K) :
    Inv ways n index as K :=
  h.invariant_labels (fun _ _ _ _ hinv hs => hinv.step hindex hs) inv_empty

/-- The history fits: every set holds all blocks asked of it, nothing has been evicted, and the
misses are the different blocks. -/
structure Fits (index : α → ℕ) (as : List α) (K : Demand α) : Prop where
  sets_eq : ∀ i, K.sets i = asked index as i
  evictions_eq : K.counts.evictions = 0
  misses_eq : K.counts.misses = as.toFinset.card

/-- Nothing has been asked for. -/
theorem fits_empty : Fits index [] (empty : Demand α) where
  sets_eq i := by simp [asked, empty]
  evictions_eq := rfl
  misses_eq := rfl

/-- One access to a set that may still hold all blocks asked of it. -/
theorem Fits.step (h : Fits index as K) (hs : Step ways index K a K')
    (hfits : #(asked index (as ++ [a]) (index a)) ≤ ways) : Fits index (as ++ [a]) K' := by
  obtain ⟨T, o, hacc, rfl⟩ := hs
  rw [asked_concat_self, ← h.sets_eq] at hfits
  obtain ⟨hT, hout⟩ := hacc.eq_insert hfits
  have hmem : a ∈ K.sets (index a) ↔ a ∈ as.toFinset := by
    rw [h.sets_eq, asked, mem_filter]
    exact and_iff_left rfl
  have hall : (as ++ [a]).toFinset = insert a as.toFinset := by
    rw [List.toFinset_append, List.toFinset_cons, List.toFinset_nil, insert_empty_eq, union_comm,
      ← insert_eq]
  refine ⟨?_, ?_, ?_⟩
  · refine (Function.forall_update_iff K.sets fun i S => S = asked index (as ++ [a]) i).mpr
      ⟨?_, fun i hi => ?_⟩
    · rw [hT, h.sets_eq, asked_concat_self]
    · rw [h.sets_eq, asked_concat_of_ne hi]
  · rcases hout with ⟨rfl, -⟩ | ⟨rfl, -⟩
    · exact h.evictions_eq
    · exact h.evictions_eq
  · rw [hall]
    rcases hout with ⟨rfl, ha⟩ | ⟨rfl, ha⟩
    · rw [insert_eq_of_mem (hmem.mp ha), ← h.misses_eq]
      rfl
    · rw [card_insert_of_notMem (hmem.not.mp ha), ← h.misses_eq]
      rfl

/-- **Sets that are large enough.** When no set is asked for more than `ways` blocks, the history
fits. -/
theorem fits_of_runs (hfits : ∀ i, #(asked index as i) ≤ ways)
    (h : Runs (Step ways index) empty as K) : Fits index as K := by
  refine h.invariant_labels (I := fun as K => (∀ i, #(asked index as i) ≤ ways) → Fits index as K)
    (fun as K a K' ih hs hfits => ?_) (fun _ => fits_empty) hfits
  refine (ih fun i => (card_le_card ?_).trans (hfits i)).step hs (hfits _)
  by_cases hi : i = index a
  · subst hi
    rw [asked_concat_self]
    exact subset_insert a _
  · rw [asked_concat_of_ne hi]

end Demand

end SystemsLabs.Lib
