import Mathlib.Data.Set.Basic
import Mathlib.Tactic.Common

/-!
# Loops that move data

* `forLoop` — `for (x = lo; x < hi; x += step)`, with a body that may fail; `Visits` says which
  values the counter takes.
* `Effect` — programs that are known by the set of the moves they make: it does not matter in which
  order a move is made, nor how often.
* `Effect.Performs.forLoop` — a loop makes the moves of its rounds. Loop nests that make the same
  moves are the same program.
* `exists_visits_tile` — a loop over tiles, and a loop over each of them.
-/

namespace SystemsLabs.Lib

variable {ι σ : Type*} {lo hi step x y n c : ℕ}

/-! ## The loop -/

/-- The rounds of a counting loop. -/
def forFrom (hi step : ℕ) (body : ℕ → σ → Option σ) : ℕ → ℕ → σ → Option σ
  | 0, _, s => some s
  | fuel + 1, x, s =>
    if x < hi then (body x s).bind (forFrom hi step body fuel (x + step)) else some s

/-- `for (x = lo; x < hi; x += step)`. The counter is raised in every round, so `hi - lo` rounds are
enough. -/
def forLoop (lo hi step : ℕ) (body : ℕ → σ → Option σ) : σ → Option σ :=
  forFrom hi step body (hi - lo) lo

/-- `if (b) { ... }`, without an alternative. -/
def ifThen (b : Prop) [Decidable b] (body : σ → Option σ) (s : σ) : Option σ :=
  if b then body s else some s

/-- The condition holds. -/
theorem ifThen_pos {b : Prop} [Decidable b] (hb : b) (body : σ → Option σ) (s : σ) :
    ifThen b body s = body s := if_pos hb

/-- The condition does not hold. -/
theorem ifThen_neg {b : Prop} [Decidable b] (hb : ¬ b) (body : σ → Option σ) (s : σ) :
    ifThen b body s = some s := if_neg hb

/-- The counter takes this value. -/
def Visits (lo hi step x : ℕ) : Prop := lo ≤ x ∧ x < hi ∧ step ∣ x - lo

/-- The first value, and those after it. -/
theorem visits_iff (hstep : 0 < step) (hlt : lo < hi) :
    Visits lo hi step y ↔ y = lo ∨ Visits (lo + step) hi step y := by
  constructor
  · rintro ⟨hle, hhi, hdvd⟩
    rcases Nat.eq_or_lt_of_le hle with heq | hgt
    · exact .inl heq.symm
    · right
      have hstep' := Nat.le_of_dvd (Nat.sub_pos_of_lt hgt) hdvd
      refine ⟨by omega, hhi, ?_⟩
      rw [← Nat.sub_sub]
      exact Nat.dvd_sub hdvd (Nat.dvd_refl step)
  · rintro (rfl | ⟨hle, hhi, hdvd⟩)
    · exact ⟨Nat.le_refl y, hlt, by rw [Nat.sub_self]; exact Nat.dvd_zero step⟩
    · refine ⟨by omega, hhi, ?_⟩
      rw [show y - lo = y - (lo + step) + step by omega]
      exact Nat.dvd_add hdvd (Nat.dvd_refl step)

/-- The loop has no round. -/
theorem not_visits (hle : hi ≤ lo) : ¬ Visits lo hi step y := by
  rintro ⟨hlo, hhi, -⟩
  omega

/-- With step 1, the counter takes every value. -/
theorem visits_one : Visits lo hi 1 y ↔ lo ≤ y ∧ y < hi := by
  unfold Visits
  simp

/-- **Tiles.** A loop over tiles of `c` values, and a loop over the values of each, visit the whole
tiles that start below `n`. -/
theorem exists_visits_tile (hc : 0 < c) :
    (∃ t, Visits 0 n c t ∧ Visits t (t + c) 1 x) ↔ x / c * c < n := by
  constructor
  · rintro ⟨t, ⟨-, hlt, k, hk⟩, hle, hltx, -⟩
    rw [Nat.sub_zero] at hk
    subst hk
    have hdiv : x / c = k := by
      apply Nat.div_eq_of_lt_le
      · rw [Nat.mul_comm]
        exact hle
      · rw [Nat.succ_mul, Nat.mul_comm]
        exact hltx
    rw [hdiv, Nat.mul_comm]
    exact hlt
  · intro hlt
    refine ⟨x / c * c, ⟨Nat.zero_le _, hlt, ?_⟩, visits_one.mpr ⟨?_, ?_⟩⟩
    · rw [Nat.sub_zero]
      exact Nat.dvd_mul_left c _
    · exact Nat.div_mul_le_self x c
    · exact Nat.lt_div_mul_add hc

/-- With steps that lead from tile to tile, the counter takes one value of a tile. -/
theorem visits_self (hc : 0 < c) : Visits lo (lo + c) c x ↔ x = lo := by
  rw [visits_iff hc (Nat.lt_add_of_pos_right hc)]
  exact or_iff_left (not_visits (Nat.le_refl _))

/-! ## Programs that are known by their moves -/

/-- What a set of moves does to a state, if all of them can be made. -/
structure Effect (ι σ : Type*) where
  act : Set ι → σ → Option σ
  act_empty (s : σ) : act ∅ s = some s
  act_union (S T : Set ι) (s : σ) : act (S ∪ T) s = (act S s).bind (act T)

namespace Effect

variable {e : Effect ι σ} {p q : σ → Option σ} {body : ℕ → σ → Option σ} {S T : Set ι}
  {R : ℕ → Set ι}

/-- The program makes these moves. -/
def Performs (e : Effect ι σ) (p : σ → Option σ) (S : Set ι) : Prop := ∀ s, p s = e.act S s

/-- The moves of the rounds of a loop. -/
def rounds (lo hi step : ℕ) (R : ℕ → Set ι) : Set ι := {m | ∃ x, Visits lo hi step x ∧ m ∈ R x}

/-- The union over the rounds. -/
theorem mem_rounds {m : ι} : m ∈ rounds lo hi step R ↔ ∃ x, Visits lo hi step x ∧ m ∈ R x := Iff.rfl

/-- The loop has no round. -/
theorem rounds_of_le (hle : hi ≤ lo) : rounds lo hi step R = ∅ := by
  apply Set.eq_empty_of_forall_notMem
  rintro m ⟨x, hx, -⟩
  exact not_visits hle hx

/-- The first round and the others. -/
theorem rounds_of_lt (hstep : 0 < step) (hlt : lo < hi) :
    rounds lo hi step R = R lo ∪ rounds (lo + step) hi step R := by
  ext m
  simp only [Set.mem_union, mem_rounds, visits_iff hstep hlt]
  constructor
  · rintro ⟨x, rfl | hx, hm⟩
    · exact .inl hm
    · exact .inr ⟨x, hx, hm⟩
  · rintro (hm | ⟨x, hx, hm⟩)
    · exact ⟨lo, .inl rfl, hm⟩
    · exact ⟨x, .inr hx, hm⟩

/-- The loop has one round. -/
theorem rounds_self (hc : 0 < c) : rounds lo (lo + c) c R = R lo := by
  ext m
  simp only [mem_rounds, visits_self hc, exists_eq_left]

namespace Performs

/-- One program after the other. -/
theorem bind (hp : e.Performs p S) (hq : e.Performs q T) :
    e.Performs (fun s => (p s).bind q) (S ∪ T) := by
  intro s
  change (p s).bind q = _
  rw [e.act_union, hp s, funext hq]

/-- **Loops.** -/
theorem forLoop (hstep : 0 < step) (h : ∀ x, e.Performs (body x) (R x)) :
    e.Performs (Lib.forLoop lo hi step body) (rounds lo hi step R) := by
  suffices hfrom : ∀ fuel lo, hi - lo ≤ fuel →
      e.Performs (forFrom hi step body fuel lo) (rounds lo hi step R) from
    hfrom _ lo (Nat.le_refl _)
  intro fuel
  induction fuel with
  | zero =>
    intro lo hfuel s
    rw [rounds_of_le (Nat.le_of_sub_eq_zero (Nat.le_zero.mp hfuel)), e.act_empty]
    rfl
  | succ fuel ih =>
    intro lo hfuel s
    unfold forFrom
    split_ifs with hlt
    · rw [rounds_of_lt hstep hlt]
      exact (h lo).bind (ih (lo + step) (by omega)) s
    · rw [rounds_of_le (Nat.not_lt.mp hlt), e.act_empty]

end Performs

end Effect

end SystemsLabs.Lib
