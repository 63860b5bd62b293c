import Mathlib.Algebra.Group.Defs
import Mathlib.Data.List.Basic
import Mathlib.Data.List.Induction
import Mathlib.Data.List.Nodup
import Mathlib.Logic.Function.Basic
import Mathlib.Tactic.Common

/-!
# A set-associative cache with least-recently-used replacement

* `Lru.access` — one access to a set that keeps at most `ways` blocks, the most recently used one
  first: a hit moves the block to the front, a miss puts it there and drops the last block of a
  full set.
* `Lru.run_pairwise` — the order of a set is the order of last use: every block was used after the
  last use of any block behind it. So the block that a full set drops is the one whose last access
  is the oldest.
* `Lru.run_eq_take` — the blocks of a set are the most recently used ones, so a set with more ways
  holds those of a set with fewer.
* `Cache.access` — the cache: blocks are mapped to sets by `index`, and hits, misses and evictions
  are counted. `Cache.counts_noWorse` — more ways are no worse.
-/

namespace SystemsLabs.Lib

/-- What an access does. -/
inductive Outcome
  /-- The block is there. -/
  | hit
  /-- The block is loaded into a free place. -/
  | miss
  /-- The block is loaded in place of another one. -/
  | evict
  deriving DecidableEq

/-- The counters of a cache. -/
structure Counts where
  hits : ℕ
  misses : ℕ
  evictions : ℕ
  deriving DecidableEq

/-- Count an access; an eviction is a miss too. -/
def Counts.add (k : Counts) : Outcome → Counts
  | .hit => { k with hits := k.hits + 1 }
  | .miss => { k with misses := k.misses + 1 }
  | .evict => { k with misses := k.misses + 1, evictions := k.evictions + 1 }

/-- Counters of several caches are added up one by one. -/
instance : Add Counts :=
  ⟨fun k l => ⟨k.hits + l.hits, k.misses + l.misses, k.evictions + l.evictions⟩⟩

instance : Zero Counts := ⟨⟨0, 0, 0⟩⟩

instance : AddCommMonoid Counts where
  add_assoc _ _ _ := Counts.mk.injEq .. ▸ ⟨Nat.add_assoc .., Nat.add_assoc .., Nat.add_assoc ..⟩
  add_comm _ _ := Counts.mk.injEq .. ▸ ⟨Nat.add_comm .., Nat.add_comm .., Nat.add_comm ..⟩
  zero_add _ := Counts.mk.injEq .. ▸ ⟨Nat.zero_add _, Nat.zero_add _, Nat.zero_add _⟩
  add_zero _ := rfl
  nsmul := nsmulRec

/-- The sum counts an access that one of the caches counts. -/
theorem Counts.add_add (k l : Counts) (o : Outcome) : k.add o + l = (k + l).add o := by
  cases o with
  | hit => exact Counts.mk.injEq .. ▸ ⟨Nat.succ_add _ _, rfl, rfl⟩
  | miss => exact Counts.mk.injEq .. ▸ ⟨rfl, Nat.succ_add _ _, rfl⟩
  | evict => exact Counts.mk.injEq .. ▸ ⟨rfl, Nat.succ_add _ _, Nat.succ_add _ _⟩

/-- The order of two outcomes does not matter. -/
theorem Counts.add_right_comm (k : Counts) (o o' : Outcome) :
    (k.add o).add o' = (k.add o').add o := by
  cases o <;> cases o' <;> rfl

namespace Lru

variable {α : Type*} [DecidableEq α] {ways : ℕ} {a b : α} {l as : List α}

/-- One access to a set. -/
def access (ways : ℕ) (a : α) (l : List α) : List α × Outcome :=
  if a ∈ l then (a :: l.erase a, .hit)
  else if l.length < ways then (a :: l, .miss)
  else (a :: l.dropLast, .evict)

/-- A hit moves the block to the front. -/
theorem access_of_mem (h : a ∈ l) : access ways a l = (a :: l.erase a, .hit) := if_pos h

/-- A miss adds the block where there is room. -/
theorem access_of_lt (h : a ∉ l) (hlt : l.length < ways) : access ways a l = (a :: l, .miss) := by
  rw [access, if_neg h, if_pos hlt]

/-- A miss drops the last block where there is none. -/
theorem access_of_full (h : a ∉ l) (hlt : ¬ l.length < ways) :
    access ways a l = (a :: l.dropLast, .evict) := by
  rw [access, if_neg h, if_neg hlt]

/-- The accessed block comes first, and the others keep their order. -/
theorem access_eq_cons (ways : ℕ) (a : α) (l : List α) :
    ∃ l', (access ways a l).1 = a :: l' ∧ l'.Sublist l := by
  unfold access
  split_ifs
  · exact ⟨_, rfl, List.erase_sublist⟩
  · exact ⟨_, rfl, List.Sublist.refl l⟩
  · exact ⟨_, rfl, List.dropLast_sublist l⟩

/-- An access keeps the blocks of a set distinct. -/
theorem nodup_access (h : l.Nodup) : (access ways a l).1.Nodup := by
  unfold access
  split_ifs with hmem
  · exact List.nodup_cons.mpr ⟨h.not_mem_erase, h.erase a⟩
  · exact List.nodup_cons.mpr ⟨hmem, h⟩
  · exact List.nodup_cons.mpr
      ⟨fun ha => hmem (List.dropLast_subset l ha), h.sublist (List.dropLast_sublist l)⟩

/-- The set after a sequence of accesses, from the empty set on. -/
def run (ways : ℕ) (as : List α) : List α := as.foldl (fun l a => (access ways a l).1) []

/-- Nothing has been accessed. -/
@[simp] theorem run_nil : run ways ([] : List α) = [] := rfl

/-- One access more. -/
@[simp] theorem run_concat : run ways (as ++ [a]) = (access ways a (run ways as)).1 := by
  simp [run]

/-- In the history `as`, the block `a` is used after the last use of `b`. -/
def UsedAfter (as : List α) (a b : α) : Prop := ∃ xs ys, as = xs ++ b :: ys ∧ b ∉ ys ∧ a ∈ ys

/-- Every element has a last occurrence. -/
theorem exists_last (h : b ∈ as) : ∃ xs ys, as = xs ++ b :: ys ∧ b ∉ ys := by
  induction as with
  | nil => exact absurd h List.not_mem_nil
  | cons c as ih =>
      by_cases hb : b ∈ as
      · obtain ⟨xs, ys, rfl, hys⟩ := ih hb
        exact ⟨c :: xs, ys, rfl, hys⟩
      · obtain rfl : b = c := (List.mem_cons.mp h).resolve_right hb
        exact ⟨[], as, rfl, hb⟩

/-- A set holds accessed blocks only. -/
theorem subset_of_mem_run (h : b ∈ run ways as) : b ∈ as := by
  induction as using List.reverseRecOn with
  | nil => exact h
  | append_singleton as a ih =>
      obtain ⟨l', hl, hsub⟩ := access_eq_cons ways a (run ways as)
      rw [run_concat, hl] at h
      rcases List.mem_cons.mp h with rfl | h
      · simp
      · exact List.mem_append_left _ (ih (hsub.subset h))

/-- No block is held twice. -/
theorem nodup_run (as : List α) : (run ways as).Nodup := by
  induction as using List.reverseRecOn with
  | nil => exact List.nodup_nil
  | append_singleton as a ih =>
      rw [run_concat]
      exact nodup_access ih

/-- **A set is ordered by last use.** -/
theorem run_pairwise (ways : ℕ) (as : List α) : (run ways as).Pairwise (UsedAfter as) := by
  induction as using List.reverseRecOn with
  | nil => exact List.Pairwise.nil
  | append_singleton as a ih =>
      obtain ⟨l', hl, hsub⟩ := access_eq_cons ways a (run ways as)
      have hnd : (run ways (as ++ [a])).Nodup := nodup_run _
      rw [run_concat, hl] at hnd ⊢
      obtain ⟨ha, -⟩ := List.nodup_cons.mp hnd
      -- one more access at the end leaves last uses of other blocks where they were
      have hext : ∀ {x y : α}, y ≠ a → UsedAfter as x y → UsedAfter (as ++ [a]) x y := by
        rintro x y hya ⟨xs, ys, rfl, hys, hx⟩
        exact ⟨xs, ys ++ [a], by simp, by simp [hys, hya], by simp [hx]⟩
      refine List.pairwise_cons.mpr ⟨fun y hy => ?_, ?_⟩
      · have hya : y ≠ a := fun h => ha (h ▸ hy)
        obtain ⟨xs, ys, rfl, hys⟩ := exists_last (subset_of_mem_run (hsub.subset hy))
        exact ⟨xs, ys ++ [a], by simp, by simp [hys, hya], by simp⟩
      · refine (ih.sublist hsub).imp_of_mem fun _ hy h => hext ?_ h
        exact fun heq => ha (heq ▸ hy)

/-! ## More ways -/

/-- All blocks, the most recently used one first. -/
def stack (as : List α) : List α := as.foldl (fun l a => a :: l.erase a) []

/-- The stack is a set with room for every block. -/
@[simp] theorem stack_concat : stack (as ++ [a]) = a :: (stack as).erase a := by
  simp [stack]

/-- Erasing an element in front of the cut. -/
theorem erase_take {n : ℕ} (h : a ∈ l.take n) : (l.take n).erase a = (l.erase a).take (n - 1) := by
  induction l generalizing n with
  | nil => simp at h
  | cons b l ih =>
      cases n with
      | zero => simp at h
      | succ n =>
          rw [List.take_succ_cons] at h ⊢
          by_cases hb : b = a
          · rw [hb, List.erase_cons_head, List.erase_cons_head, Nat.add_sub_cancel]
          · have ha : a ∈ l.take n := (List.mem_cons.mp h).resolve_left (Ne.symm hb)
            have hn : n ≠ 0 := by
              rintro rfl
              simp at ha
            obtain ⟨m, rfl⟩ := Nat.exists_eq_succ_of_ne_zero hn
            have hbeq : ¬ (b == a) = true := by simpa using hb
            rw [List.erase_cons_tail hbeq, List.erase_cons_tail hbeq, ih ha]
            rfl

/-- Erasing an element behind the cut. -/
theorem take_erase_of_not_mem {n : ℕ} (h : a ∉ l.take n) : (l.erase a).take n = l.take n := by
  induction l generalizing n with
  | nil => rfl
  | cons b l ih =>
      cases n with
      | zero => simp
      | succ n =>
          rw [List.take_succ_cons, List.mem_cons, not_or] at h
          have hbeq : ¬ (b == a) = true := by simpa using Ne.symm h.1
          rw [List.erase_cons_tail hbeq, List.take_succ_cons, List.take_succ_cons, ih h.2]

/-- An access to the most recently used ones of some blocks. -/
theorem access_take (hpos : 1 ≤ ways) (a : α) (l : List α) :
    (access ways a (l.take ways)).1 = (a :: l.erase a).take ways := by
  obtain ⟨n, rfl⟩ := Nat.exists_eq_add_of_le' hpos
  rw [List.take_succ_cons]
  by_cases hmem : a ∈ l.take (n + 1)
  · rw [access_of_mem hmem, erase_take hmem, Nat.add_sub_cancel]
  · have hmem' : a ∉ l.take n := fun h => hmem (List.take_subset_take_left l (Nat.le_succ n) h)
    rw [take_erase_of_not_mem hmem']
    by_cases hlt : (l.take (n + 1)).length < n + 1
    · have hle : l.length ≤ n := by
        rw [List.length_take] at hlt
        omega
      rw [access_of_lt hmem hlt, List.take_of_length_le (by omega), List.take_of_length_le hle]
    · have hle : n + 1 ≤ l.length := by
        rw [List.length_take] at hlt
        omega
      rw [access_of_full hmem hlt, List.dropLast_eq_take, List.length_take_of_le hle,
        List.take_take, Nat.add_sub_cancel, Nat.min_eq_left (Nat.le_succ n)]

/-- **The blocks of a set** are the most recently used ones, as many as there are ways. -/
theorem run_eq_take (hpos : 1 ≤ ways) (as : List α) : run ways as = (stack as).take ways := by
  induction as using List.reverseRecOn with
  | nil => exact (List.take_nil ..).symm
  | append_singleton as a ih => rw [run_concat, stack_concat, ih, access_take hpos]

/-- **Inclusion.** A set with more ways hits where one with fewer does, and evicts only where that
one does. -/
theorem outcome_of_le {ways' : ℕ} (hpos : 1 ≤ ways) (hle : ways ≤ ways') (a : α) (as : List α) :
    ((access ways a (run ways as)).2 = .hit → (access ways' a (run ways' as)).2 = .hit) ∧
      ((access ways' a (run ways' as)).2 = .evict → (access ways a (run ways as)).2 = .evict) := by
  rw [run_eq_take hpos, run_eq_take (Nat.le_trans hpos hle)]
  have hsub : a ∈ (stack as).take ways → a ∈ (stack as).take ways' :=
    fun h => List.take_subset_take_left _ hle h
  constructor
  · intro h
    unfold access at h
    split_ifs at h with hmem
    rw [access_of_mem (hsub hmem)]
  · intro h
    unfold access at h
    split_ifs at h with hmem hlt
    rw [List.length_take] at hlt
    have hfull : ¬ ((stack as).take ways).length < ways := by
      rw [List.length_take]
      omega
    rw [access_of_full (fun h => hmem (hsub h)) hfull]

end Lru

/-- No fewer hits, and no more misses and evictions. -/
structure Counts.NoWorse (k k' : Counts) : Prop where
  hits_le : k.hits ≤ k'.hits
  misses_le : k'.misses ≤ k.misses
  evictions_le : k'.evictions ≤ k.evictions

/-- One more access: hits are added with hits, and evictions with evictions. -/
theorem Counts.NoWorse.add {k k' : Counts} {o o' : Outcome} (h : k.NoWorse k')
    (hhit : o = .hit → o' = .hit) (hevict : o' = .evict → o = .evict) :
    (k.add o).NoWorse (k'.add o') := by
  obtain ⟨hh, hm, he⟩ := h
  cases o' with
  | hit =>
    cases o with
    | hit => exact ⟨Nat.succ_le_succ hh, hm, he⟩
    | miss => exact ⟨Nat.le_succ_of_le hh, Nat.le_succ_of_le hm, he⟩
    | evict => exact ⟨Nat.le_succ_of_le hh, Nat.le_succ_of_le hm, Nat.le_succ_of_le he⟩
  | miss =>
    cases o with
    | hit => cases hhit rfl
    | miss => exact ⟨hh, Nat.succ_le_succ hm, he⟩
    | evict => exact ⟨hh, Nat.succ_le_succ hm, Nat.le_succ_of_le he⟩
  | evict =>
    obtain rfl := hevict rfl
    exact ⟨hh, Nat.succ_le_succ hm, Nat.succ_le_succ he⟩

/-! ## The cache -/

/-- A cache of blocks `α`: the sets, most recently used block first, and the counters. -/
structure Cache (α : Type*) where
  sets : ℕ → List α
  counts : Counts

namespace Cache

variable {α : Type*} [DecidableEq α]

/-- The empty cache. -/
def empty : Cache α := ⟨fun _ => [], ⟨0, 0, 0⟩⟩

/-- One access: only the set of the block changes. -/
def access (ways : ℕ) (index : α → ℕ) (c : Cache α) (a : α) : Cache α :=
  let r := Lru.access ways a (c.sets (index a))
  ⟨Function.update c.sets (index a) r.1, c.counts.add r.2⟩

/-- The cache after a sequence of accesses. -/
def run (ways : ℕ) (index : α → ℕ) (as : List α) : Cache α := as.foldl (access ways index) empty

/-- One access more. -/
@[simp] theorem run_concat {ways : ℕ} {index : α → ℕ} {as : List α} {a : α} :
    run ways index (as ++ [a]) = access ways index (run ways index as) a := by
  simp [run]

/-- Every set of the cache sees the accesses to its own blocks. -/
theorem sets_run (ways : ℕ) (index : α → ℕ) (as : List α) (i : ℕ) :
    (run ways index as).sets i = Lru.run ways (as.filter fun a => index a = i) := by
  induction as using List.reverseRecOn with
  | nil => rfl
  | append_singleton as a ih =>
      rw [run_concat, List.filter_append]
      by_cases hi : index a = i
      · subst hi
        simp [access, ih]
      · simp [access, hi, ih, Function.update_of_ne (Ne.symm hi)]

/-- **More ways are no worse.** -/
theorem counts_noWorse {ways ways' : ℕ} (hpos : 1 ≤ ways) (hle : ways ≤ ways') (index : α → ℕ)
    (as : List α) : (run ways index as).counts.NoWorse (run ways' index as).counts := by
  induction as using List.reverseRecOn with
  | nil => exact ⟨Nat.le_refl _, Nat.le_refl _, Nat.le_refl _⟩
  | append_singleton as a ih =>
      obtain ⟨hhit, hevict⟩ :=
        Lru.outcome_of_le hpos hle a (as.filter fun b => index b = index a)
      rw [← sets_run, ← sets_run] at hhit hevict
      rw [run_concat, run_concat]
      exact ih.add hhit hevict

end Cache

end SystemsLabs.Lib
