import Mathlib.Algebra.Ring.Nat
import Mathlib.Data.List.Basic
import Mathlib.Order.Interval.Finset.Nat
import Mathlib.Tactic.Common

/-!
# Tilings of an address range

A list of pieces, each with a first address `start x` and a length `size x`, *tiles* `[lo, hi)`
when the first piece starts at `lo`, every next piece starts where the one before it ends, and
the last one ends at `hi` (`Tiles`).

* `Tiles.replace` — a piece may be exchanged for any tiling of its own extent.
* `Tiles.bounds`, `Tiles.exists_mem`, `Tiles.disjoint`, `Tiles.eq_of_start_eq` — pieces lie inside
  the range and cover it, two different pieces do not overlap, and a piece is determined by its
  first address.
* `Tiles.length_mul_le` — pieces of length at least `k` are at most `(hi - lo) / k` many.
* `sum_size_le` — pieces that do not overlap fit into the range that they lie in.
-/

namespace SystemsLabs.Lib

variable {α : Type*} {start size : α → ℕ}

/-- The pieces of the list follow each other without a gap from `lo` up to `hi`. -/
def Tiles (start size : α → ℕ) : ℕ → List α → ℕ → Prop
  | lo, [], hi => lo = hi
  | lo, x :: xs, hi => start x = lo ∧ Tiles start size (lo + size x) xs hi

namespace Tiles

variable {lo mid hi k : ℕ} {x y : α} {l l₁ l₂ new : List α}

/-- Nothing tiles an empty interval. -/
@[simp] theorem nil_iff : Tiles start size lo [] hi ↔ lo = hi := Iff.rfl

/-- The first tile, and the others behind it. -/
@[simp] theorem cons_iff :
    Tiles start size lo (x :: l) hi ↔ start x = lo ∧ Tiles start size (lo + size x) l hi := Iff.rfl

/-- A tiling ends no earlier than it starts. -/
theorem le (h : Tiles start size lo l hi) : lo ≤ hi := by
  induction l generalizing lo with
  | nil => exact Nat.le_of_eq h
  | cons x l ih =>
      have := ih h.2
      omega

/-- A tiling of two appended lists is a tiling of each, meeting at some address. -/
theorem append_iff : Tiles start size lo (l₁ ++ l₂) hi ↔
    ∃ mid, Tiles start size lo l₁ mid ∧ Tiles start size mid l₂ hi := by
  induction l₁ generalizing lo with
  | nil => simp
  | cons x l ih =>
      simp only [List.cons_append, cons_iff, ih]
      constructor
      · rintro ⟨hx, mid, h₁, h₂⟩
        exact ⟨mid, ⟨hx, h₁⟩, h₂⟩
      · rintro ⟨mid, ⟨hx, h₁⟩, h₂⟩
        exact ⟨hx, mid, h₁, h₂⟩

/-- A piece splits the range at its two ends. -/
theorem split (h : Tiles start size lo (l₁ ++ x :: l₂) hi) :
    Tiles start size lo l₁ (start x) ∧ Tiles start size (start x + size x) l₂ hi := by
  obtain ⟨mid, h₁, rfl, h₂⟩ := append_iff.mp h
  exact ⟨h₁, h₂⟩

/-- A piece may be exchanged for a tiling of its extent. -/
theorem replace (h : Tiles start size lo (l₁ ++ x :: l₂) hi)
    (hnew : Tiles start size (start x) new (start x + size x)) :
    Tiles start size lo (l₁ ++ new ++ l₂) hi := by
  obtain ⟨h₁, h₂⟩ := h.split
  rw [append_iff]
  exact ⟨_, append_iff.mpr ⟨_, h₁, hnew⟩, h₂⟩

/-- A further piece at the upper end. -/
theorem concat (h : Tiles start size lo l hi) (hx : start x = hi) :
    Tiles start size lo (l ++ [x]) (hi + size x) :=
  append_iff.mpr ⟨hi, h, hx, rfl⟩

/-- Every piece lies inside the range. -/
theorem bounds (h : Tiles start size lo l hi) (hx : x ∈ l) :
    lo ≤ start x ∧ start x + size x ≤ hi := by
  obtain ⟨l₁, l₂, rfl⟩ := List.append_of_mem hx
  obtain ⟨h₁, h₂⟩ := h.split
  exact ⟨h₁.le, h₂.le⟩

/-- Every address of the range lies in a piece. -/
theorem exists_mem (h : Tiles start size lo l hi) {a : ℕ} (hlo : lo ≤ a) (hhi : a < hi) :
    ∃ x ∈ l, start x ≤ a ∧ a < start x + size x := by
  induction l generalizing lo with
  | nil =>
      have : lo = hi := h
      omega
  | cons x l ih =>
      obtain ⟨rfl, htail⟩ := h
      by_cases ha : a < start x + size x
      · exact ⟨x, List.mem_cons_self, hlo, ha⟩
      · obtain ⟨y, hy, hya⟩ := ih htail (Nat.not_lt.mp ha)
        exact ⟨y, List.mem_cons_of_mem _ hy, hya⟩

/-- Two pieces are one, or one ends before the other starts. -/
theorem disjoint (h : Tiles start size lo l hi) (hx : x ∈ l) (hy : y ∈ l) :
    x = y ∨ start x + size x ≤ start y ∨ start y + size y ≤ start x := by
  obtain ⟨l₁, l₂, rfl⟩ := List.append_of_mem hx
  obtain ⟨h₁, h₂⟩ := h.split
  rcases List.mem_append.mp hy with hy | hy
  · exact Or.inr (Or.inr (h₁.bounds hy).2)
  · rcases List.mem_cons.mp hy with rfl | hy
    · exact Or.inl rfl
    · exact Or.inr (Or.inl (h₂.bounds hy).1)

/-- With pieces of positive length, the first address determines the piece. -/
theorem eq_of_start_eq (h : Tiles start size lo l hi) (hpos : ∀ z ∈ l, 0 < size z) (hx : x ∈ l)
    (hy : y ∈ l) (hxy : start x = start y) : x = y := by
  have hx' := hpos x hx
  have hy' := hpos y hy
  rcases h.disjoint hx hy with h | h | h
  · exact h
  · omega
  · omega

/-- With pieces of positive length, no piece occurs twice. -/
theorem nodup_map_start (h : Tiles start size lo l hi) (hpos : ∀ z ∈ l, 0 < size z) :
    (l.map start).Nodup := by
  induction l generalizing lo with
  | nil => exact List.nodup_nil
  | cons x l ih =>
      rw [List.map_cons, List.nodup_cons]
      refine ⟨?_, ih h.2 fun z hz => hpos z (List.mem_cons_of_mem _ hz)⟩
      intro hmem
      obtain ⟨y, hy, hxy⟩ := List.mem_map.mp hmem
      have hlow := (bounds h.2 hy).1
      have hstart : start x = lo := h.1
      have := hpos x List.mem_cons_self
      omega

/-- The pieces determine where the range ends. -/
theorem hi_unique {hi' : ℕ} (h : Tiles start size lo l hi) (h' : Tiles start size lo l hi') :
    hi = hi' := by
  induction l generalizing lo with
  | nil => exact h.symm.trans h'
  | cons x l ih => exact ih h.2 h'.2

/-- Pieces of length at least `k` take `k` addresses each. -/
theorem length_mul_le (h : Tiles start size lo l hi) (hk : ∀ z ∈ l, k ≤ size z) :
    lo + l.length * k ≤ hi := by
  induction l generalizing lo with
  | nil => simpa using h.le
  | cons x l ih =>
      have hx := hk x List.mem_cons_self
      have := ih h.2 fun z hz => hk z (List.mem_cons_of_mem _ hz)
      rw [List.length_cons, Nat.succ_mul]
      omega

end Tiles

/-- Pieces that do not overlap are together no longer than the range that they lie in. -/
theorem sum_size_le {lo hi : ℕ} {l : List α} (hle : lo ≤ hi)
    (hin : ∀ x ∈ l, lo ≤ start x ∧ start x + size x ≤ hi)
    (hdisj : l.Pairwise fun x y => start x + size x ≤ start y ∨ start y + size y ≤ start x) :
    lo + (l.map size).sum ≤ hi := by
  have haddr : ∃ S : Finset ℕ, S.card = (l.map size).sum ∧
      ∀ a ∈ S, ∃ x ∈ l, start x ≤ a ∧ a < start x + size x := by
    induction l with
    | nil => exact ⟨∅, rfl, by simp⟩
    | cons x l ih =>
        obtain ⟨hx, hl⟩ := List.pairwise_cons.mp hdisj
        obtain ⟨S, hcard, hS⟩ := ih (fun y hy => hin y (List.mem_cons_of_mem _ hy)) hl
        have hapart : Disjoint (Finset.Ico (start x) (start x + size x)) S := by
          rw [Finset.disjoint_left]
          intro a ha haS
          obtain ⟨y, hy, hlow, hhigh⟩ := hS a haS
          have hxa := Finset.mem_Ico.mp ha
          rcases hx y hy with h | h
          · omega
          · omega
        refine ⟨Finset.Ico (start x) (start x + size x) ∪ S, ?_, ?_⟩
        · rw [Finset.card_union_of_disjoint hapart, Nat.card_Ico, hcard, List.map_cons,
            List.sum_cons, Nat.add_sub_cancel_left]
        · intro a ha
          rcases Finset.mem_union.mp ha with ha | ha
          · exact ⟨x, List.mem_cons_self, Finset.mem_Ico.mp ha⟩
          · obtain ⟨y, hy, hya⟩ := hS a ha
            exact ⟨y, List.mem_cons_of_mem _ hy, hya⟩
  obtain ⟨S, hcard, hS⟩ := haddr
  have hsub : S ⊆ Finset.Ico lo hi := by
    intro a ha
    obtain ⟨x, hx, hlow, hhigh⟩ := hS a ha
    have := hin x hx
    rw [Finset.mem_Ico]
    omega
  have hbound := Finset.card_le_card hsub
  rw [Nat.card_Ico, hcard] at hbound
  omega

end SystemsLabs.Lib
