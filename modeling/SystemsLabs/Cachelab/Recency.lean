import SystemsLabs.Cachelab.Address
import SystemsLabs.Lib.Lru
import Mathlib.Data.List.Perm.Basic

/-!
# Ages and the order of last use

The lines of a set carry ages, and of two lines of the same age `check_cache` takes the one with the
larger index for the older one (`Younger`). `Recency` says that this order puts the lines in the
order of a list `σ`. A miss keeps that (`Recency.fill`, `Recency.evict`). A hit stops aging the
lines behind it, and keeps it as long as no line in front of it has the age of one behind it
(`Recency.hit`).
-/

namespace SystemsLabs.Cachelab

/-- The line one access older. -/
def Line.age (l : Line) : Line := { l with lastUsed := l.lastUsed + 1 }

/-- Ageing keeps the valid bit. -/
@[simp] theorem Line.age_valid (l : Line) : l.age.valid = l.valid := rfl

/-- Ageing adds one. -/
@[simp] theorem Line.age_lastUsed (l : Line) : l.age.lastUsed = l.lastUsed + 1 := rfl

/-- Ageing keeps the address. -/
@[simp] theorem Line.age_line (l : Line) : l.age.line = l.line := rfl

/-- Of two lines with their indices, the first is the younger one. -/
def Younger (x y : Line × ℕ) : Prop :=
  x.1.lastUsed < y.1.lastUsed ∨ (x.1.lastUsed = y.1.lastUsed ∧ x.2 < y.2)

/-- `σ` holds the lines `V` with their indices, from the youngest to the oldest. -/
structure Recency (V : List Line) (σ : List (Line × ℕ)) : Prop where
  perm : σ.Perm V.zipIdx
  sorted : σ.Pairwise Younger

variable {V V₁ V₂ F : List Line} {σ σ₀ A B : List (Line × ℕ)} {v w : Line} {k n : ℕ}
  {isHit : Line → Bool} {addr : BitVec 64}

/-! ## The three ways to change the order -/

namespace Recency

/-- All lines age. -/
theorem age (h : Recency V σ) : Recency (V.map Line.age) (σ.map (Prod.map Line.age id)) where
  perm := by
    rw [List.zipIdx_map]
    exact h.perm.map _
  sorted := by
    rw [List.pairwise_map]
    apply h.sorted.imp
    intro x y hxy
    unfold Younger at hxy ⊢
    simp only [Prod.map_fst, Line.age_lastUsed, Prod.map_snd, id_eq]
    omega

/-- A fresh line is younger than aged ones. -/
theorem younger_age (hw : w.lastUsed = 0) (x : Line × ℕ) :
    Younger (w, k) (Prod.map Line.age id x) := by
  left
  simp [hw]

/-- A new line behind the aged ones. -/
theorem fill (h : Recency V σ) (hw : w.lastUsed = 0) :
    Recency (V.map Line.age ++ [w]) ((w, V.length) :: σ.map (Prod.map Line.age id)) where
  perm := by
    rw [List.zipIdx_append, List.length_map, Nat.zero_add]
    exact (List.Perm.cons _ h.age.perm).trans (List.perm_append_singleton _ _).symm
  sorted := by
    refine List.pairwise_cons.mpr ⟨?_, h.age.sorted⟩
    intro y hy
    obtain ⟨x, -, rfl⟩ := List.mem_map.mp hy
    exact younger_age hw x

/-- The permutation without the line at one index. -/
theorem perm_erase (h : (A ++ (v, V₁.length) :: B).Perm (V₁ ++ v :: V₂).zipIdx) :
    (A ++ B).Perm (V₁.zipIdx ++ V₂.zipIdx (V₁.length + 1)) := by
  rw [List.zipIdx_append, List.zipIdx_cons, Nat.zero_add] at h
  exact (List.perm_middle.symm.trans (h.trans List.perm_middle)).cons_inv

/-- A new line in place of the oldest one, the others aged. -/
theorem evict (h : Recency (V₁ ++ v :: V₂) (σ₀ ++ [(v, V₁.length)])) (hw : w.lastUsed = 0) :
    Recency (V₁.map Line.age ++ w :: V₂.map Line.age)
      ((w, V₁.length) :: σ₀.map (Prod.map Line.age id)) where
  perm := by
    have hrest := (perm_erase h.perm).map (Prod.map Line.age id)
    rw [List.append_nil, List.map_append, ← List.zipIdx_map, ← List.zipIdx_map] at hrest
    rw [List.zipIdx_append, List.zipIdx_cons, List.length_map, Nat.zero_add]
    exact (hrest.cons _).trans List.perm_middle.symm
  sorted := by
    refine List.pairwise_cons.mpr ⟨?_, ?_⟩
    · intro y hy
      obtain ⟨x, -, rfl⟩ := List.mem_map.mp hy
      exact younger_age hw x
    · have := h.age.sorted
      rw [List.map_append] at this
      exact (List.pairwise_append.mp this).1

/-- What a hit at index `n` does to another line: those in front of it age. -/
def ageBefore (n : ℕ) (x : Line × ℕ) : Line × ℕ := if x.2 < n then (x.1.age, x.2) else x

/-- A hit ages the lines in front of it, and no line behind it. -/
theorem map_ageBefore (V₁ V₂ : List Line) :
    (V₁.zipIdx ++ V₂.zipIdx (V₁.length + 1)).map (ageBefore V₁.length) =
      (V₁.map Line.age).zipIdx ++ V₂.zipIdx (V₁.length + 1) := by
  rw [List.map_append, List.zipIdx_map]
  congr 1
  · apply List.map_congr_left
    intro x hx
    have hlt : x.2 < V₁.length := by
      have := List.snd_lt_of_mem_zipIdx hx
      simpa using this
    simp [ageBefore, hlt, Prod.map]
  · refine (List.map_congr_left fun x hx => ?_).trans (List.map_id _)
    have hge : V₁.length + 1 ≤ x.2 := List.le_snd_of_mem_zipIdx hx
    have hlt : ¬ x.2 < V₁.length := by omega
    simp [ageBefore, hlt]

/-- A hit: the line is as good as new, and those in front of it age. -/
theorem hit (h : Recency (V₁ ++ v :: V₂) (A ++ (v, V₁.length) :: B)) (hw : w.lastUsed = 0)
    (hties : ∀ j ∈ V₁, ∀ k ∈ V₂, j.lastUsed ≠ k.lastUsed) :
    Recency (V₁.map Line.age ++ w :: V₂)
      ((w, V₁.length) :: (A ++ B).map (ageBefore V₁.length)) where
  perm := by
    have hrest := (perm_erase h.perm).map (ageBefore V₁.length)
    rw [map_ageBefore] at hrest
    rw [List.zipIdx_append, List.zipIdx_cons, List.length_map, Nat.zero_add]
    exact (hrest.cons _).trans List.perm_middle.symm
  sorted := by
    have hmem : ∀ x ∈ A ++ B, (x.2 < V₁.length ∧ x.1 ∈ V₁) ∨ (V₁.length < x.2 ∧ x.1 ∈ V₂) := by
      intro x hx
      rcases List.mem_append.mp ((perm_erase h.perm).mem_iff.mp hx) with hx | hx
      · have hlt := List.snd_lt_of_mem_zipIdx hx
        exact Or.inl ⟨by simpa using hlt, List.fst_mem_of_mem_zipIdx hx⟩
      · have hge := List.le_snd_of_mem_zipIdx hx
        exact Or.inr ⟨by omega, List.fst_mem_of_mem_zipIdx hx⟩
    refine List.pairwise_cons.mpr ⟨?_, ?_⟩
    · intro y hy
      obtain ⟨x, hx, rfl⟩ := List.mem_map.mp hy
      unfold ageBefore Younger
      rcases hmem x hx with ⟨hlt, -⟩ | ⟨hgt, -⟩
      · simp [hlt, hw]
      · have hnlt : ¬ x.2 < V₁.length := by omega
        simp only [hnlt, if_false, hw]
        omega
    · have hsub : (A ++ B).Sublist (A ++ (v, V₁.length) :: B) := by simp
      rw [List.pairwise_map]
      refine (h.sorted.sublist hsub).imp_of_mem fun {x y} hx hy hxy => ?_
      unfold Younger at hxy
      unfold ageBefore Younger
      rcases hmem x hx with ⟨hxlt, hxm⟩ | ⟨hxgt, hxm⟩
      · rcases hmem y hy with ⟨hylt, -⟩ | ⟨hygt, hym⟩
        · simp only [hxlt, hylt, if_true, Line.age_lastUsed]
          omega
        · -- a line in front ages past one behind only if they had the same age
          have hne := hties x.1 hxm y.1 hym
          have hynlt : ¬ y.2 < V₁.length := by omega
          simp only [hxlt, hynlt, if_true, if_false, Line.age_lastUsed]
          omega
      · have hxnlt : ¬ x.2 < V₁.length := by omega
        rcases hmem y hy with ⟨hylt, -⟩ | ⟨hygt, -⟩
        · simp only [hxnlt, hylt, if_true, if_false, Line.age_lastUsed]
          omega
        · have hynlt : ¬ y.2 < V₁.length := by omega
          simp only [hxnlt, hynlt, if_false]
          omega

end Recency

end SystemsLabs.Cachelab
