import Mathlib.Data.List.Infix
import Mathlib.Order.Basic
import Mathlib.Order.Lattice
import Mathlib.Tactic.Common

/-!
# The smallest elements of a list

`KBest k samples best` says that `best` are the `k` smallest of some samples, in order.

* `KBest.unique` — there is one such list.
* `KBest.insert`, `KBest.replace`, `KBest.skip` — what it is when there is one sample more.
* `KBest.head_le` — its first element is the smallest sample.
-/

namespace SystemsLabs.Lib

section Permutations

variable {α : Type*} {samples best : List α}

/-- The samples with one more, and the best of them with one more. -/
theorem perm_cons_append {rest : List α} (hperm : (best ++ rest).Perm samples) (x : α) :
    (x :: best ++ rest).Perm (samples ++ [x]) :=
  (hperm.cons x).trans (List.perm_append_singleton x samples).symm

end Permutations

variable {α : Type*} [LinearOrder α] {k : ℕ} {samples best l r : List α} {x y : α}

/-- `best` are the `k` smallest of the samples, or all of them, in order. -/
def KBest (k : ℕ) (samples best : List α) : Prop :=
  best.length = min k samples.length ∧ best.Pairwise (· ≤ ·) ∧
    ∃ rest, (best ++ rest).Perm samples ∧ ∀ a ∈ best, ∀ b ∈ rest, a ≤ b

/-- The first of the best samples is the smallest of all. -/
theorem KBest.head_le (h : KBest k samples (x :: best)) : x ∈ samples ∧ ∀ b ∈ samples, x ≤ b := by
  obtain ⟨-, hsorted, rest, hperm, hle⟩ := h
  refine ⟨hperm.mem_iff.mp List.mem_cons_self, fun b hb => ?_⟩
  rcases List.mem_append.mp (hperm.mem_iff.mpr hb) with hb | hb
  · rcases List.mem_cons.mp hb with rfl | hb
    · exact le_rfl
    · exact (List.pairwise_cons.mp hsorted).1 b hb
  · exact hle x List.mem_cons_self b hb

/-- There is one choice of the best samples. -/
theorem KBest.unique {best' : List α} (h : KBest k samples best) (h' : KBest k samples best') :
    best = best' := by
  have hsorted : ∀ {b : List α}, KBest k samples b →
      ∃ rest, (b ++ rest).Perm samples ∧ (b ++ rest).Pairwise (· ≤ ·) := by
    rintro b ⟨-, hb, rest, hperm, hle⟩
    have hmerge := List.mergeSort_perm rest fun a b => decide (a ≤ b)
    have hpair : (rest.mergeSort fun a b => decide (a ≤ b)).Pairwise (· ≤ ·) := by
      have htrans : ∀ a b c : α, decide (a ≤ b) = true → decide (b ≤ c) = true →
          decide (a ≤ c) = true := by
        intro a b c hab hbc
        rw [decide_eq_true_iff] at hab hbc ⊢
        exact hab.trans hbc
      have htotal : ∀ a b : α, (decide (a ≤ b) || decide (b ≤ a)) = true := by
        intro a b
        rw [Bool.or_eq_true, decide_eq_true_iff, decide_eq_true_iff]
        exact le_total a b
      exact (List.pairwise_mergeSort htrans htotal rest).imp of_decide_eq_true
    refine ⟨rest.mergeSort fun a b => decide (a ≤ b), (hmerge.append_left b).trans hperm, ?_⟩
    exact List.pairwise_append.mpr ⟨hb, hpair, fun a ha c hc => hle a ha c (hmerge.mem_iff.mp hc)⟩
  obtain ⟨rest, hperm, hpair⟩ := hsorted h
  obtain ⟨rest', hperm', hpair'⟩ := hsorted h'
  have heq : best ++ rest = best' ++ rest' :=
    (hperm.trans hperm'.symm).eq_of_pairwise (fun a b _ _ => le_antisymm) hpair hpair'
  exact (List.append_inj heq (h.1.trans h'.1.symm)).1

namespace KBest

/-- With few samples, a new one is among the best. -/
theorem insert (h : KBest k samples best) (hroom : samples.length < k)
    (hl : l.Perm (x :: best)) (hsorted : l.Pairwise (· ≤ ·)) : KBest k (samples ++ [x]) l := by
  obtain ⟨hlen, -, rest, hperm, -⟩ := h
  have hrest : rest = [] := by
    have := hperm.length_eq
    rw [List.length_append] at this
    exact List.length_eq_zero_iff.mp (by omega)
  subst hrest
  refine ⟨?_, hsorted, [], ?_, fun a _ b hb => by cases hb⟩
  · rw [hl.length_eq, List.length_append, List.length_cons, List.length_singleton]
    omega
  · exact (hl.append_right []).trans (perm_cons_append hperm x)

/-- A small one takes the place of the largest. -/
theorem replace (h : KBest k samples (l ++ [y])) (hfull : k ≤ samples.length) (hxy : x < y)
    (hr : r.Perm (x :: l)) (hsorted : r.Pairwise (· ≤ ·)) : KBest k (samples ++ [x]) r := by
  obtain ⟨hlen, hpair, rest, hperm, hle⟩ := h
  obtain ⟨-, -, hly⟩ := List.pairwise_append.mp hpair
  rw [List.length_append, List.length_singleton] at hlen
  refine ⟨?_, hsorted, y :: rest, ?_, ?_⟩
  · rw [hr.length_eq, List.length_append, List.length_cons, List.length_singleton]
    omega
  · calc r ++ y :: rest = (r ++ [y]) ++ rest := List.append_cons r y rest
      List.Perm _ (x :: (l ++ [y]) ++ rest) := (hr.append_right [y]).append_right rest
      List.Perm _ (samples ++ [x]) := perm_cons_append hperm x
  · intro a ha b hb
    have hay : a ≤ y := by
      rcases List.mem_cons.mp (hr.mem_iff.mp ha) with rfl | ha
      · exact hxy.le
      · exact hly a ha y List.mem_cons_self
    rcases List.mem_cons.mp hb with rfl | hb
    · exact hay
    · exact hay.trans (hle y (List.mem_append_right _ List.mem_cons_self) b hb)

/-- A large one changes nothing. -/
theorem skip (h : KBest k samples (l ++ [y])) (hfull : k ≤ samples.length) (hyx : y ≤ x) :
    KBest k (samples ++ [x]) (l ++ [y]) := by
  obtain ⟨hlen, hpair, rest, hperm, hle⟩ := h
  obtain ⟨-, -, hly⟩ := List.pairwise_append.mp hpair
  refine ⟨?_, hpair, x :: rest, List.perm_middle.trans (perm_cons_append hperm x), ?_⟩
  · rw [hlen, List.length_append]
    omega
  · intro a ha b hb
    rcases List.mem_cons.mp hb with rfl | hb
    · have hay : a ≤ y := by
        rcases List.mem_append.mp ha with ha | ha
        · exact hly a ha y List.mem_cons_self
        · exact (List.mem_singleton.mp ha).le
      exact hay.trans hyx
    · exact hle a ha b hb

end KBest

end SystemsLabs.Lib
