import Mathlib.LinearAlgebra.Matrix.Defs
import SystemsLabs.Lib.ForLoop

/-!
# Matrix transposes (`trans.c`)

The transpose functions on two matrices whose elements are read and written one by one: an access
out of bounds fails. None of them makes other moves than from `A[i][j]` to `B[j][i]`, so what each
of them does is given by the set of the elements that it moves.

* `transposeSubmit_eq_trans` — for the shapes that it is meant for, `transpose_submit` does what
  `trans` does.
* `transposeBlocking_iff` — `transpose_blocking` stays within bounds iff 4 divides both dimensions,
  and then does what `trans` does.
* `not_transposes_64M` — `transpose_64M` never transposes: with the second offset of a tile, its
  second half reaches into the next tile, and no move is made for a quarter of the first
  (`mem_moves64M_iff`).

**Scope.** Matrices with elements of any type, and any contents of `B`. The two arrays do not
overlap. Cache misses are not counted.
-/

namespace SystemsLabs.Cachelab

open Lib Effect

/-! ## The matrices -/

/-- `int A[N][M], int B[M][N]`. The functions only move elements, so these may be anything. -/
@[ext] structure Arrays (α : Type*) (N M : ℕ) where
  a : Matrix (Fin N) (Fin M) α
  b : Matrix (Fin M) (Fin N) α

namespace Arrays

variable {α : Type*} {N M : ℕ}

/-- Read `A[i][j]`. -/
def load (i j : ℕ) (s : Arrays α N M) : Option α :=
  if h : i < N ∧ j < M then some (s.a ⟨i, h.1⟩ ⟨j, h.2⟩) else none

/-- `B[j][i] = tmp`. -/
def store (j i : ℕ) (tmp : α) (s : Arrays α N M) : Option (Arrays α N M) :=
  if j < M ∧ i < N then
    some { s with b := Matrix.of fun y x => if (y : ℕ) = j ∧ (x : ℕ) = i then tmp else s.b y x }
  else none

/-- `B[j][i] = A[i][j]`. -/
def move (i j : ℕ) (s : Arrays α N M) : Option (Arrays α N M) := do
  s.store j i (← s.load i j)

/-- `tmp0 = A[i][j + 0]; tmp1 = A[i][j + 1]; ...`, for `w` temporaries. -/
def loadRow (i : ℕ) : ℕ → ℕ → Arrays α N M → Option (List α)
  | 0, _, _ => some []
  | w + 1, j, s => do
    let tmp ← s.load i j
    return tmp :: (← s.loadRow i w (j + 1))

/-- `B[j + 0][i] = tmp0; B[j + 1][i] = tmp1; ...`. -/
def storeColumn (i : ℕ) : ℕ → List α → Arrays α N M → Option (Arrays α N M)
  | _, [], s => some s
  | j, tmp :: tmps, s => do (← s.store j i tmp).storeColumn i (j + 1) tmps

/-- Read `w` elements of a row, and then write them. -/
def copyRow (w i j : ℕ) (s : Arrays α N M) : Option (Arrays α N M) := do
  s.storeColumn i j (← s.loadRow i w j)

end Arrays

open Arrays

section Functions

variable {α : Type*}

/-! ## The functions -/

/-- `trans`. -/
def trans (M N : ℕ) (s : Arrays α N M) : Option (Arrays α N M) :=
  forLoop 0 N 1 (fun i => forLoop 0 M 1 fun j => move i j) s

/-- `transpose_blocking`. -/
def transposeBlocking (M N : ℕ) (s : Arrays α N M) : Option (Arrays α N M) :=
  forLoop 0 N 4 (fun i => forLoop 0 M 4 fun j =>
    forLoop i (i + 4) 1 fun ii => forLoop j (j + 4) 1 fun jj => move ii jj) s

/-- `transpose_64M`. -/
def transpose64M (M N : ℕ) (s : Arrays α N M) : Option (Arrays α N M) :=
  forLoop 0 N 8 (fun j => forLoop 0 M 8 fun i => forLoop j (j + 8) 4 fun jj s => do
    let s ← forLoop i (i + 4) 1 (fun ii => copyRow 4 ii jj) s
    forLoop (i + 4) (i + 8) 1 (fun ii => copyRow 4 ii (jj + 4)) s) s

/-- `transpose_submit`. -/
def transposeSubmit (M N : ℕ) (s : Arrays α N M) : Option (Arrays α N M) := do
  let s ← ifThen (M = 32 ∧ N = 32) (forLoop 0 N 8 fun j => forLoop 0 M 8 fun i =>
    forLoop i (i + 8) 1 fun ii => forLoop j (j + 8) 8 fun jj => copyRow 8 ii jj) s
  let s ← ifThen (M = 64 ∧ N = 64) (forLoop 0 N 4 fun j => forLoop 0 M 4 fun i =>
    forLoop j (j + 4) 4 fun jj => forLoop i (i + 4) 1 fun ii => copyRow 4 ii jj) s
  ifThen (M = 61 ∧ N = 67) (forLoop 0 N 1 fun i => forLoop 0 M 1 fun j => move i j) s

end Functions

variable {α : Type*} {M N i j w n : ℕ} {s s' : Arrays α N M} {S : Set (ℕ × ℕ)} {p : ℕ × ℕ}

/-! ## Moves -/

/-- The `(i, j)` for which `A[i][j]` and `B[j][i]` are within bounds. -/
def bounds (N M : ℕ) : Set (ℕ × ℕ) := {p | p.1 < N ∧ p.2 < M}

/-- A place inside both arrays. -/
theorem mem_bounds : p ∈ bounds N M ↔ p.1 < N ∧ p.2 < M := Iff.rfl

/-- The matrices when `B` is the transpose of `A`. -/
def Arrays.transposed (s : Arrays α N M) : Arrays α N M := { s with b := s.a.transpose }

open Classical in
/-- The matrices after the moves from `A[i][j]` to `B[j][i]` with `(i, j)` in a set. -/
noncomputable def Arrays.moved (S : Set (ℕ × ℕ)) (s : Arrays α N M) : Arrays α N M :=
  { s with b := Matrix.of fun y x => if ((x : ℕ), (y : ℕ)) ∈ S then s.a x y else s.b y x }

/-- What has been copied. -/
theorem b_moved_of_mem {x : Fin N} {y : Fin M} (h : ((x : ℕ), (y : ℕ)) ∈ S) (s : Arrays α N M) :
    (s.moved S).b y x = s.a x y := if_pos h

/-- What is as it was. -/
theorem b_moved_of_not_mem {x : Fin N} {y : Fin M} (h : ((x : ℕ), (y : ℕ)) ∉ S)
    (s : Arrays α N M) : (s.moved S).b y x = s.b y x := if_neg h

/-- Nothing is copied. -/
theorem moved_empty (s : Arrays α N M) : s.moved ∅ = s := by
  ext y x
  · rfl
  · exact b_moved_of_not_mem (Set.notMem_empty _) s

/-- One copy after the other. -/
theorem moved_union (S T : Set (ℕ × ℕ)) (s : Arrays α N M) :
    s.moved (S ∪ T) = (s.moved S).moved T := by
  ext y x
  · rfl
  · by_cases hT : ((x : ℕ), (y : ℕ)) ∈ T
    · rw [b_moved_of_mem (.inr hT), b_moved_of_mem hT]
      rfl
    · rw [b_moved_of_not_mem hT]
      by_cases hS : ((x : ℕ), (y : ℕ)) ∈ S
      · rw [b_moved_of_mem (.inl hS), b_moved_of_mem hS]
      · rw [b_moved_of_not_mem hS, b_moved_of_not_mem fun h => h.elim hS hT]

/-- To copy everything is to transpose. -/
theorem moved_bounds (s : Arrays α N M) : s.moved (bounds N M) = s.transposed := by
  ext y x
  · rfl
  · exact b_moved_of_mem (mem_bounds.mpr ⟨x.isLt, y.isLt⟩) s

open Classical in
/-- The moves of a set, which fail if one of them is out of bounds. -/
noncomputable def moves (α : Type*) (N M : ℕ) : Effect (ℕ × ℕ) (Arrays α N M) where
  act S s := if S ⊆ bounds N M then some (s.moved S) else none
  act_empty s := by
    rw [if_pos (Set.empty_subset _), moved_empty]
  act_union S T s := by
    by_cases hS : S ⊆ bounds N M
    · by_cases hT : T ⊆ bounds N M
      · rw [if_pos (Set.union_subset hS hT), if_pos hS, Option.bind_some, if_pos hT, moved_union]
      · rw [if_neg fun h => hT (Set.union_subset_iff.mp h).2, if_pos hS, Option.bind_some,
          if_neg hT]
    · rw [if_neg fun h => hS (Set.union_subset_iff.mp h).1, if_neg hS, Option.bind_none]

/-- Copies inside the arrays are performed. -/
theorem act_of_subset (h : S ⊆ bounds N M) (s : Arrays α N M) :
    (moves α N M).act S s = some (s.moved S) := if_pos h

/-- Copies outside of them are undefined. -/
theorem act_of_not_subset (h : ¬ S ⊆ bounds N M) (s : Arrays α N M) :
    (moves α N M).act S s = none := if_neg h

/-- Copies are defined exactly inside the arrays. -/
theorem isSome_act_iff : ((moves α N M).act S s).isSome ↔ S ⊆ bounds N M := by
  by_cases h : S ⊆ bounds N M
  · rw [act_of_subset h]
    exact iff_of_true rfl h
  · rw [act_of_not_subset h]
    exact iff_of_false Bool.false_ne_true h

/-- The moves of all elements make `B` the transpose of `A`. -/
theorem act_bounds (s : Arrays α N M) : (moves α N M).act (bounds N M) s = some s.transposed := by
  rw [act_of_subset (Set.Subset.refl _), moved_bounds]

/-- One move. -/
theorem performs_move (i j : ℕ) : (moves α N M).Performs (move i j) {(i, j)} := by
  intro s
  have hbounds : {(i, j)} ⊆ bounds N M ↔ i < N ∧ j < M := Set.singleton_subset_iff
  unfold move load store
  by_cases h : i < N ∧ j < M
  · rw [dif_pos h, act_of_subset (hbounds.mpr h)]
    simp only [Option.bind_eq_bind, Option.bind_some, if_pos h.symm]
    refine congrArg some ?_
    ext y x
    · rfl
    · dsimp only [Matrix.of_apply]
      split_ifs with hx
      · obtain ⟨rfl, rfl⟩ := hx
        exact (b_moved_of_mem rfl s).symm
      · refine (b_moved_of_not_mem (fun hmem => hx ?_) s).symm
        obtain ⟨hi, hj⟩ := Prod.mk.inj hmem
        exact ⟨hj, hi⟩
  · rw [dif_neg h, act_of_not_subset fun hb => h (hbounds.mp hb)]
    rfl

/-- The elements of a row from `A[i][j]` on. -/
def row (w i j : ℕ) : Set (ℕ × ℕ) := {p | p.1 = i ∧ j ≤ p.2 ∧ p.2 < j + w}

/-- The places of a row of a tile. -/
theorem mem_row : p ∈ row w i j ↔ p.1 = i ∧ j ≤ p.2 ∧ p.2 < j + w := Iff.rfl

/-- An empty row. -/
theorem row_zero : row 0 i j = ∅ := by
  apply Set.eq_empty_of_forall_notMem
  rintro p ⟨-, hle, hlt⟩
  omega

/-- A row is its first place and the rest. -/
theorem row_succ : row (w + 1) i j = {(i, j)} ∪ row w i (j + 1) := by
  ext p
  simp only [mem_row, Set.mem_union, Set.mem_singleton_iff, Prod.ext_iff]
  omega

/-- `A` is not written to, so what has been read is still there. -/
theorem bind_loadRow (ha : s'.a = s.a) (j : ℕ) :
    (s.loadRow i w j).bind (fun tmps => s'.storeColumn i j tmps) =
      (moves α N M).act (row w i j) s' := by
  induction w generalizing s' j with
  | zero =>
    rw [row_zero, (moves α N M).act_empty]
    rfl
  | succ w ih =>
    have hload : s'.load i j = s.load i j := by
      unfold load
      rw [ha]
    have hmove : (s.load i j).bind (fun tmp => s'.store j i tmp) =
        (moves α N M).act {(i, j)} s' := by
      rw [← hload]
      exact performs_move i j s'
    rw [row_succ, (moves α N M).act_union, ← hmove, loadRow]
    simp only [Option.bind_eq_bind, Option.bind_assoc, Option.pure_def]
    cases hread : s.load i j with
    | none => rfl
    | some tmp =>
      simp only [Option.bind_some]
      cases hstore : s'.store j i tmp with
      | none => simp [storeColumn, hstore]
      | some s'' =>
        have ha' : s''.a = s.a := by
          unfold store at hstore
          split_ifs at hstore
          obtain rfl := Option.some.inj hstore
          exact ha
        rw [Option.bind_some, ← ih ha' (j + 1)]
        simp [storeColumn, hstore]

/-- A part of a row. -/
theorem performs_copyRow (w i j : ℕ) : (moves α N M).Performs (copyRow w i j) (row w i j) :=
  fun _ => bind_loadRow rfl j

/-! ## `trans` -/

/-- The moves of `trans`. -/
theorem performs_trans (M N : ℕ) :
    (moves α N M).Performs (trans M N) (rounds 0 N 1 fun i => rounds 0 M 1 fun j => {(i, j)}) :=
  .forLoop Nat.one_pos fun i => .forLoop Nat.one_pos fun j => performs_move i j

/-- Two plain loops visit every place. -/
theorem rounds_trans : (rounds 0 N 1 fun i => rounds 0 M 1 fun j => {(i, j)}) = bounds N M := by
  ext p
  simp only [mem_rounds, visits_one, Set.mem_singleton_iff, mem_bounds]
  constructor
  · rintro ⟨i, hi, j, hj, rfl⟩
    exact ⟨hi.2, hj.2⟩
  · rintro ⟨hi, hj⟩
    exact ⟨p.1, ⟨Nat.zero_le _, hi⟩, p.2, ⟨Nat.zero_le _, hj⟩, rfl⟩

/-- `trans` transposes. -/
theorem trans_eq (s : Arrays α N M) : trans M N s = some s.transposed := by
  rw [performs_trans M N s, rounds_trans, act_bounds]

/-! ## Tiles -/

/-- The whole tiles of `w * w` elements that start in a matrix. -/
def tiles (w N M : ℕ) : Set (ℕ × ℕ) := {p | p.1 / w * w < N ∧ p.2 / w * w < M}

/-- The tiles that begin inside the arrays. -/
theorem mem_tiles : p ∈ tiles w N M ↔ p.1 / w * w < N ∧ p.2 / w * w < M := Iff.rfl

/-- The whole tiles below a multiple of their size. -/
theorem div_mul_lt_iff {x : ℕ} (hw : 0 < w) (hn : w ∣ n) : x / w * w < n ↔ x < n := by
  obtain ⟨k, rfl⟩ := hn
  rw [Nat.mul_comm w k, Nat.mul_lt_mul_right hw, Nat.div_lt_iff_lt_mul hw]

/-- The tiles cover the matrix and no more if they fit. -/
theorem tiles_eq_bounds (hw : 0 < w) (hN : w ∣ N) (hM : w ∣ M) : tiles w N M = bounds N M := by
  ext p
  rw [mem_tiles, mem_bounds, div_mul_lt_iff hw hN, div_mul_lt_iff hw hM]

/-- A last tile reaches over the edge if they do not fit. -/
theorem dvd_of_tiles_subset (hN : 1 ≤ N) (hM : 1 ≤ M) (h : tiles 4 N M ⊆ bounds N M) :
    4 ∣ M ∧ 4 ∣ N := by
  have hcorner : ((N - 1) / 4 * 4 + 3, (M - 1) / 4 * 4 + 3) ∈ bounds N M := by
    apply h
    rw [mem_tiles]
    omega
  obtain ⟨hrow, hcolumn⟩ := mem_bounds.mp hcorner
  omega

/-- The rows of the tiles, one after the other. -/
theorem rounds_rows (hw : 0 < w) : (rounds 0 N w fun j => rounds 0 n w fun i =>
    rounds i (i + w) 1 fun ii => row w ii j) = tiles w n N := by
  ext p
  rw [mem_tiles, ← exists_visits_tile (n := n) hw, ← exists_visits_tile (n := N) hw]
  simp only [mem_rounds, mem_row]
  constructor
  · rintro ⟨j, hj, i, hi, ii, hii, rfl, hp⟩
    exact ⟨⟨i, hi, hii⟩, j, hj, visits_one.mpr hp⟩
  · rintro ⟨⟨i, hi, hii⟩, j, hj, hp⟩
    exact ⟨j, hj, i, hi, p.1, hii, rfl, visits_one.mp hp⟩

/-- Two matrices, the first with different elements. -/
def numbered (N M : ℕ) : Arrays ℤ N M :=
  ⟨Matrix.of fun i j => 256 * i + j, Matrix.of fun _ _ => -1⟩

/-! ## `transpose_blocking` -/

/-- The moves of `transpose_blocking`. -/
theorem performs_transposeBlocking (M N : ℕ) :
    (moves α N M).Performs (transposeBlocking M N) (rounds 0 N 4 fun i => rounds 0 M 4 fun j =>
      rounds i (i + 4) 1 fun ii => rounds j (j + 4) 1 fun jj => {(ii, jj)}) :=
  .forLoop (by decide) fun i => .forLoop (by decide) fun j =>
    .forLoop Nat.one_pos fun ii => .forLoop Nat.one_pos fun jj => performs_move ii jj

/-- It moves whole tiles. -/
theorem rounds_transposeBlocking : (rounds 0 N 4 fun i => rounds 0 M 4 fun j =>
    rounds i (i + 4) 1 fun ii => rounds j (j + 4) 1 fun jj => {(ii, jj)}) = tiles 4 N M := by
  ext p
  rw [mem_tiles, ← exists_visits_tile (n := N) (by decide),
    ← exists_visits_tile (n := M) (by decide)]
  simp only [mem_rounds, Set.mem_singleton_iff]
  constructor
  · rintro ⟨i, hi, j, hj, ii, hii, jj, hjj, rfl⟩
    exact ⟨⟨i, hi, hii⟩, j, hj, hjj⟩
  · rintro ⟨⟨i, hi, hii⟩, j, hj, hjj⟩
    exact ⟨i, hi, j, hj, p.1, hii, p.2, hjj, rfl⟩

/-- **The domain of `transpose_blocking`.** It stays within bounds iff 4 divides both dimensions,
and then does what `trans` does. -/
theorem transposeBlocking_iff (hM : 1 ≤ M) (hN : 1 ≤ N) (s : Arrays α N M) :
    ((transposeBlocking M N s).isSome ↔ 4 ∣ M ∧ 4 ∣ N) ∧
      (4 ∣ M → 4 ∣ N → transposeBlocking M N s = trans M N s) := by
  have hmoves := performs_transposeBlocking M N s
  rw [rounds_transposeBlocking] at hmoves
  refine ⟨?_, fun hM4 hN4 => ?_⟩
  · rw [hmoves, isSome_act_iff]
    refine ⟨dvd_of_tiles_subset hN hM, fun h => ?_⟩
    rw [tiles_eq_bounds (by decide) h.2 h.1]
  · rw [hmoves, tiles_eq_bounds (by decide) hN4 hM4, act_bounds, trans_eq]

/-- A shape on either side of the boundary. -/
theorem transposeBlocking_iff_example :
    transposeBlocking 64 64 (numbered 64 64) = trans 64 64 (numbered 64 64) ∧
      ¬ (transposeBlocking 61 67 (numbered 67 61)).isSome := by
  obtain ⟨-, heq⟩ := transposeBlocking_iff (M := 64) (N := 64) (by decide) (by decide)
    (numbered 64 64)
  obtain ⟨hiff, -⟩ := transposeBlocking_iff (M := 61) (N := 67) (by decide) (by decide)
    (numbered 67 61)
  exact ⟨heq (by decide) (by decide), fun h => absurd (hiff.mp h) (by decide)⟩

/-! ## `transpose_submit` -/

/-- The shapes that `transpose_submit` is meant for. -/
def supported : List (ℕ × ℕ) := [(32, 32), (64, 64), (61, 67)]

/-- A square of tiles whose rows are moved as a whole. -/
theorem act_rows (hw : 0 < w) (hn : w ∣ n) (s : Arrays α n n) :
    (moves α n n).act (rounds 0 n w fun j => rounds 0 n w fun i =>
      rounds i (i + w) 1 fun ii => row w ii j) s = some s.transposed := by
  rw [rounds_rows hw, tiles_eq_bounds hw hn hn, act_bounds]

/-- The shape 32 × 32. -/
theorem transposeSubmit_32 (s : Arrays α 32 32) : transposeSubmit 32 32 s = some s.transposed := by
  have hperforms : (moves α 32 32).Performs (forLoop 0 32 8 fun j => forLoop 0 32 8 fun i =>
      forLoop i (i + 8) 1 fun ii => forLoop j (j + 8) 8 fun jj => copyRow 8 ii jj) _ :=
    .forLoop (by decide) fun j => .forLoop (by decide) fun i => .forLoop Nat.one_pos fun ii =>
      .forLoop (by decide) fun jj => performs_copyRow 8 ii jj
  have hmoves := hperforms s
  simp only [rounds_self (show 0 < 8 by decide)] at hmoves
  rw [act_rows (by decide) (by decide)] at hmoves
  unfold transposeSubmit
  simp only [Option.bind_eq_bind]
  rw [ifThen_pos (by decide), hmoves, Option.bind_some, ifThen_neg (by decide), Option.bind_some,
    ifThen_neg (by decide)]

/-- The shape 64 × 64. -/
theorem transposeSubmit_64 (s : Arrays α 64 64) : transposeSubmit 64 64 s = some s.transposed := by
  have hperforms : (moves α 64 64).Performs (forLoop 0 64 4 fun j => forLoop 0 64 4 fun i =>
      forLoop j (j + 4) 4 fun jj => forLoop i (i + 4) 1 fun ii => copyRow 4 ii jj) _ :=
    .forLoop (by decide) fun j => .forLoop (by decide) fun i => .forLoop (by decide) fun jj =>
      .forLoop Nat.one_pos fun ii => performs_copyRow 4 ii jj
  have hmoves := hperforms s
  simp only [rounds_self (show 0 < 4 by decide)] at hmoves
  rw [act_rows (by decide) (by decide)] at hmoves
  unfold transposeSubmit
  simp only [Option.bind_eq_bind]
  rw [ifThen_neg (by decide), Option.bind_some, ifThen_pos (by decide), hmoves, Option.bind_some,
    ifThen_neg (by decide)]

/-- The shape 61 × 67. -/
theorem transposeSubmit_61 (s : Arrays α 67 61) : transposeSubmit 61 67 s = some s.transposed := by
  unfold transposeSubmit
  simp only [Option.bind_eq_bind]
  rw [ifThen_neg (by decide), Option.bind_some, ifThen_neg (by decide), Option.bind_some,
    ifThen_pos (by decide)]
  exact trans_eq s

/-- **`transpose_submit`** does what `trans` does, for the shapes that it is meant for. -/
theorem transposeSubmit_eq_trans (h : (M, N) ∈ supported) (s : Arrays α N M) :
    transposeSubmit M N s = trans M N s ∧ trans M N s = some s.transposed := by
  refine ⟨?_, trans_eq s⟩
  rw [trans_eq]
  have hcases : M = 32 ∧ N = 32 ∨ M = 64 ∧ N = 64 ∨ M = 61 ∧ N = 67 := by
    simpa [supported] using h
  rcases hcases with ⟨rfl, rfl⟩ | ⟨rfl, rfl⟩ | ⟨rfl, rfl⟩
  · exact transposeSubmit_32 s
  · exact transposeSubmit_64 s
  · exact transposeSubmit_61 s

/-- The shape that is not square, with distinct entries. -/
theorem transposeSubmit_eq_trans_example :
    transposeSubmit 61 67 (numbered 67 61) = trans 61 67 (numbered 67 61) :=
  (transposeSubmit_eq_trans (by decide) (numbered 67 61)).1

/-! ## `transpose_64M` -/

/-- The moves of `transpose_64M`. -/
def moves64M (M N : ℕ) : Set (ℕ × ℕ) :=
  rounds 0 N 8 fun j => rounds 0 M 8 fun i => rounds j (j + 8) 4 fun jj =>
    (rounds i (i + 4) 1 fun ii => row 4 ii jj) ∪
      rounds (i + 4) (i + 8) 1 fun ii => row 4 ii (jj + 4)

/-- The places that `transpose_64M` copies, in bounds or not. -/
theorem performs_transpose64M (M N : ℕ) :
    (moves α N M).Performs (transpose64M M N) (moves64M M N) :=
  .forLoop (by decide) fun j => .forLoop (by decide) fun i => .forLoop (by decide) fun jj =>
    .bind (.forLoop Nat.one_pos fun ii => performs_copyRow 4 ii jj)
      (.forLoop Nat.one_pos fun ii => performs_copyRow 4 ii (jj + 4))

/-- **What `transpose_64M` moves**: the upper half of each tile, and the lower half of each tile
except the left one of the first, and with it four columns that are not in the matrix. -/
theorem mem_moves64M_iff (hn : 8 ∣ n) : p ∈ moves64M n n ↔
    p.1 < n ∧ (p.1 % 8 < 4 → p.2 < n) ∧ (4 ≤ p.1 % 8 → 4 ≤ p.2 ∧ p.2 < n + 4) := by
  unfold moves64M
  simp only [mem_rounds, Set.mem_union, mem_row, Visits]
  constructor
  · rintro ⟨j, hj, i, hi, jj, hjj, ⟨ii, hii, rfl, hp⟩ | ⟨ii, hii, rfl, hp⟩⟩
    · omega
    · omega
  · rintro ⟨hrow, hupper, hlower⟩
    rcases Nat.lt_or_ge (p.1 % 8) 4 with hlt | hge
    · have hcolumn := hupper hlt
      refine ⟨p.2 / 8 * 8, ?_, p.1 / 8 * 8, ?_, p.2 / 4 * 4, ?_, .inl ⟨p.1, ?_, rfl, ?_⟩⟩ <;> omega
    · obtain ⟨hle, hcolumn⟩ := hlower hge
      refine ⟨(p.2 - 4) / 8 * 8, ?_, p.1 / 8 * 8, ?_, (p.2 - 4) / 4 * 4, ?_,
        .inr ⟨p.1, ?_, rfl, ?_⟩⟩ <;> omega

/-- **`transpose_64M` never transposes.** In the last column of tiles it reads from behind the rows,
and whatever may be there: the first four columns of the lower half of the tiles are not moved. -/
theorem not_transposes_64M (hn : 8 ∣ n) (hpos : 0 < n) (s : Arrays α n n) :
    transpose64M n n s = none ∧
      ∀ y x : Fin n, (y : ℕ) < 4 → 4 ≤ (x : ℕ) % 8 → (s.moved (moves64M n n)).b y x = s.b y x := by
  constructor
  · rw [performs_transpose64M n n s]
    refine act_of_not_subset (fun h => ?_) s
    have hmem : (4, n) ∈ moves64M n n := (mem_moves64M_iff hn).mpr (by dsimp only; omega)
    exact Nat.lt_irrefl n (mem_bounds.mp (h hmem)).2
  · intro y x hy hx
    apply b_moved_of_not_mem
    rw [mem_moves64M_iff hn]
    rintro ⟨-, -, hlower⟩
    exact Nat.not_le.mpr hy (hlower hx).1

/-- The shape that `transpose_64M` is written for. -/
theorem not_transposes_64M_example : transpose64M 64 64 (numbered 64 64) = none :=
  (not_transposes_64M (by decide) (by decide) (numbered 64 64)).1

/-- `transpose_64M` on the matrices that it is named after. -/
theorem exists_not_transposes_64M :
    ∃ n, 8 ∣ n ∧ 0 < n ∧ ∃ s : Arrays ℤ n n, transpose64M n n s ≠ some s.transposed := by
  have hnone : (transpose64M 64 64 (numbered 64 64)).isNone := by decide +kernel
  refine ⟨64, by decide, by decide, numbered 64 64, fun h => ?_⟩
  rw [h] at hnone
  cases hnone

end SystemsLabs.Cachelab
