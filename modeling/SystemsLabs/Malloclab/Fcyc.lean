import SystemsLabs.Lib.KBest
import Mathlib.Algebra.Ring.Nat

/-!
# The K-best scheme (`fcyc.c`)

`fcyc` measures a function again and again. `add_sample` keeps the `kbest` smallest measurements in
order, and the loop ends when these are close to each other or there are too many measurements.

A measurement is an element of a linear order, and `within` says whether two of them are within the
tolerance: nothing else is asked of the arithmetic. The measurements are whatever the clock says.

* `fcyc_best` — the loop ends, after how many measurements it does, that the result is the smallest
  of them, and that the array holds the smallest ones in order.

**Scope.** The flags `compensate` and `clear_cache` are off, as they are by default, and `calloc`
succeeds.
-/

namespace SystemsLabs.Malloclab

open SystemsLabs.Lib

variable {α : Type*} [LinearOrder α] [Zero α]

/-! ## The sampler -/

/-- `values` and `samplecount`. -/
structure Sampler (α : Type*) where
  values : List α
  samplecount : ℕ

/-- `init_sampler`. -/
def initSampler (kbest : ℕ) : Sampler α := ⟨List.replicate kbest 0, 0⟩

/-- The insertion sort of `add_sample`, from index `pos` down. -/
def siftDown : ℕ → List α → List α
  | 0, values => values
  | pos + 1, values =>
    let below := values.getD pos 0
    let temp := values.getD (pos + 1) 0
    if temp < below then siftDown pos ((values.set pos temp).set (pos + 1) below) else values

/-- `add_sample`. -/
def addSample (kbest : ℕ) (s : Sampler α) (val : α) : Sampler α :=
  if s.samplecount < kbest then
    ⟨siftDown s.samplecount (s.values.set s.samplecount val), s.samplecount + 1⟩
  else if val < s.values.getD (kbest - 1) 0 then
    ⟨siftDown (kbest - 1) (s.values.set (kbest - 1) val), s.samplecount + 1⟩
  else ⟨siftDown 0 s.values, s.samplecount + 1⟩

/-- `has_converged`, where `within a b` stands for `(1 + epsilon) * a >= b`. -/
def hasConverged (within : α → α → Bool) (kbest : ℕ) (s : Sampler α) : Bool :=
  kbest ≤ s.samplecount && within (s.values.getD 0 0) (s.values.getD (kbest - 1) 0)

/-- The loop of `fcyc`, cut off after `fuel` rounds. `sample i` is what the clock says about run
`i` of the function. -/
def fcycLoop (within : α → α → Bool) (kbest : ℕ) (maxsamples : ℤ) (sample : ℕ → α) :
    ℕ → Sampler α → Option (Sampler α)
  | 0, _ => none
  | fuel + 1, s =>
    let s := addSample kbest s (sample s.samplecount)
    if hasConverged within kbest s = false ∧ s.samplecount < maxsamples then
      fcycLoop within kbest maxsamples sample fuel s
    else some s

/-- `fcyc`: its result, and how often it has called the function. Every round counts a sample, so
that the rounds are enough. -/
def fcyc (within : α → α → Bool) (kbest : ℕ) (maxsamples : ℤ) (sample : ℕ → α) : Option (α × ℕ) :=
  (fcycLoop within kbest maxsamples sample (maxsamples.toNat + 1) (initSampler kbest)).map
    fun s => (s.values.getD 0 0, s.samplecount)

/-! ## What the sampler keeps -/

variable {k n : ℕ} {samples best l r : List α} {x y : α} {within : α → α → Bool}
  {maxsamples : ℤ} {sample : ℕ → α} {s : Sampler α}

/-- **The insertion sort** puts the value at `pos` in its place among those below. -/
theorem siftDown_spec (hl : l.Pairwise (· ≤ ·)) (x : α) (r : List α) :
    ∃ s, siftDown l.length (l ++ x :: r) = s ++ r ∧ s.Perm (x :: l) ∧ s.Pairwise (· ≤ ·) := by
  induction l using List.reverseRecOn generalizing r with
  | nil => exact ⟨[x], rfl, List.Perm.refl _, List.pairwise_singleton _ _⟩
  | append_singleton l y ih =>
    obtain ⟨hl', -, hly⟩ := List.pairwise_append.mp hl
    have hbelow : ((l ++ [y]) ++ x :: r).getD l.length 0 = y := by simp
    have htemp : ((l ++ [y]) ++ x :: r).getD (l.length + 1) 0 = x := by simp
    have hswap : (((l ++ [y]) ++ x :: r).set l.length x).set (l.length + 1) y =
        l ++ x :: (y :: r) := by simp
    rw [List.length_append, List.length_singleton, siftDown, hbelow, htemp]
    by_cases hxy : x < y
    · obtain ⟨s, hs, hperm, hsorted⟩ := ih hl' (y :: r)
      refine ⟨s ++ [y], ?_, ?_, ?_⟩
      · rw [if_pos hxy, hswap, hs, List.append_assoc]
        rfl
      · exact hperm.append_right [y]
      · apply List.pairwise_append.mpr
        refine ⟨hsorted, List.pairwise_singleton _ _, ?_⟩
        intro a ha b hb
        rw [List.mem_singleton.mp hb]
        rcases List.mem_cons.mp (hperm.mem_iff.mp ha) with rfl | ha
        · exact hxy.le
        · exact hly a ha y List.mem_cons_self
    · refine ⟨(l ++ [y]) ++ [x], ?_, List.perm_append_singleton _ _, ?_⟩
      · rw [if_neg hxy, List.append_assoc (l ++ [y])]
        rfl
      · apply List.pairwise_append.mpr
        refine ⟨hl, List.pairwise_singleton _ _, ?_⟩
        intro a ha b hb
        rw [List.mem_singleton.mp hb]
        rcases List.mem_append.mp ha with ha | ha
        · exact (hly a ha y List.mem_cons_self).trans (not_lt.mp hxy)
        · rw [List.mem_singleton.mp ha]
          exact not_lt.mp hxy

/-- The array holds the best of the samples, and zeros behind them. -/
structure Sampled (k : ℕ) (samples : List α) (best : List α) (s : Sampler α) : Prop where
  kbest : KBest k samples best
  values : s.values = best ++ List.replicate (k - best.length) 0
  samplecount : s.samplecount = samples.length

namespace Sampled

/-- The sampler at the start. -/
theorem init (k : ℕ) : Sampled k [] [] (initSampler k : Sampler α) where
  kbest := ⟨(Nat.min_zero k).symm, List.Pairwise.nil, [], List.Perm.refl _, List.forall_mem_nil _⟩
  values := rfl
  samplecount := rfl

/-- **One sample.** It is among the best if there is room or it is smaller than the last of them. -/
theorem addSample (h : Sampled k samples best s) (hk : 0 < k) (x : α) :
    ∃ best', Sampled k (samples ++ [x]) best' (addSample k s x) := by
  obtain ⟨hbest, hvalues, hcount⟩ := h
  have hcount' : s.samplecount + 1 = (samples ++ [x]).length := by
    rw [hcount, List.length_append, List.length_singleton]
  have hlen := hbest.1
  unfold Malloclab.addSample
  by_cases hroom : s.samplecount < k
  · -- all samples are in the array
    have hend : best.length = s.samplecount := by omega
    obtain ⟨z, hz⟩ := Nat.exists_eq_add_of_lt hroom
    have hset : s.values.set s.samplecount x = best ++ x :: List.replicate z 0 := by
      have hk' : k - best.length = z + 1 := by omega
      rw [hvalues, hk', ← hend, List.replicate_succ]
      simp
    obtain ⟨best', hsift, hperm, hsorted⟩ := siftDown_spec hbest.2.1 x (List.replicate z 0)
    have hlen' : best'.length = best.length + 1 := hperm.length_eq
    refine ⟨best', hbest.insert (hcount ▸ hroom) hperm hsorted, ?_, ?_⟩
    · have hz' : k - best'.length = z := by omega
      rw [if_pos hroom, hset, ← hend, hz']
      exact hsift
    · rw [if_pos hroom]
      exact hcount'
  · -- the array is full
    have hfull : k ≤ samples.length := hcount ▸ Nat.not_lt.mp hroom
    have hvalues' : s.values = best := by
      have hzero : k - best.length = 0 := by omega
      rw [hvalues, hzero]
      exact List.append_nil _
    obtain ⟨l, y, rfl⟩ : ∃ l y, best = l ++ [y] := by
      rcases List.eq_nil_or_concat best with rfl | ⟨l, y, hl⟩
      · rw [List.length_nil] at hlen
        omega
      · exact ⟨l, y, hl.trans List.concat_eq_append⟩
    rw [List.length_append, List.length_singleton] at hlen
    have hl : k - 1 = l.length := by omega
    have hlast : s.values.getD (k - 1) 0 = y := by
      rw [hvalues', hl]
      simp
    rw [if_neg hroom, hlast]
    by_cases hxy : x < y
    · have hset : s.values.set (k - 1) x = l ++ x :: [] := by
        rw [hvalues', hl]
        simp
      obtain ⟨best', hsift, hperm, hsorted⟩ :=
        siftDown_spec (List.pairwise_append.mp hbest.2.1).1 x []
      have hlen' : best'.length = l.length + 1 := hperm.length_eq
      refine ⟨best', hbest.replace hfull hxy hperm hsorted, ?_, ?_⟩
      · have hzero : k - best'.length = 0 := by omega
        rw [if_pos hxy, hset, hl, hzero]
        exact hsift
      · rw [if_pos hxy]
        exact hcount'
    · refine ⟨l ++ [y], hbest.skip hfull (not_lt.mp hxy), ?_, ?_⟩
      · rw [if_neg hxy]
        exact hvalues
      · rw [if_neg hxy]
        exact hcount'

end Sampled

/-- **The sampler** keeps the best of the samples that have been added. -/
theorem exists_sampled (hk : 0 < k) (samples : List α) :
    ∃ best, Sampled k samples best (samples.foldl (addSample k) (initSampler k)) := by
  induction samples using List.reverseRecOn with
  | nil => exact ⟨[], Sampled.init k⟩
  | append_singleton samples x ih =>
    obtain ⟨best, h⟩ := ih
    rw [List.foldl_append]
    exact h.addSample hk x

/-! ## The loop -/

/-- The first `n` samples. -/
def firstSamples (sample : ℕ → α) (n : ℕ) : List α := (List.range n).map sample

/-- There are `k` samples, and the smallest and the `k`-th smallest are within the tolerance. -/
def Converged (within : α → α → Bool) (k : ℕ) (samples : List α) : Prop :=
  k ≤ samples.length ∧ ∃ best, KBest k samples best ∧
    within (best.getD 0 0) (best.getD (k - 1) 0) = true

/-- `has_converged` decides `Converged`. -/
theorem Sampled.hasConverged_iff (h : Sampled k samples best s) :
    hasConverged within k s = true ↔ Converged within k samples := by
  unfold hasConverged Converged
  rw [Bool.and_eq_true, decide_eq_true_iff, h.samplecount]
  apply and_congr_right
  intro hk
  have hlen : k - best.length = 0 := by
    have := h.kbest.1
    omega
  have hvalues : s.values = best := by
    rw [h.values, hlen]
    exact List.append_nil _
  rw [hvalues]
  constructor
  · intro hwithin
    exact ⟨best, h.kbest, hwithin⟩
  · rintro ⟨best', hbest', hwithin⟩
    rwa [h.kbest.unique hbest']

/-- One round. -/
theorem fcycLoop_step (within : α → α → Bool) (maxsamples : ℤ) (hk : 0 < k)
    (h : Sampled k (firstSamples sample n) best s) : ∃ s' best',
      Sampled k (firstSamples sample (n + 1)) best' s' ∧ ∀ fuel,
      (Converged within k (firstSamples sample (n + 1)) ∨ maxsamples ≤ (n + 1 : ℕ) →
        fcycLoop within k maxsamples sample (fuel + 1) s = some s') ∧
      (¬ Converged within k (firstSamples sample (n + 1)) → (n + 1 : ℕ) < maxsamples →
        fcycLoop within k maxsamples sample (fuel + 1) s =
          fcycLoop within k maxsamples sample fuel s') := by
  have hcount : s.samplecount = n := h.samplecount.trans (by simp [firstSamples])
  have hnext : firstSamples sample (n + 1) = firstSamples sample n ++ [sample n] := by
    simp [firstSamples, List.range_succ]
  obtain ⟨best', h'⟩ := h.addSample hk (sample n)
  rw [← hnext] at h'
  have hcount' : (addSample k s (sample n)).samplecount = n + 1 :=
    h'.samplecount.trans (by simp [firstSamples])
  refine ⟨_, best', h', fun fuel => ⟨fun hstop => ?_, fun hconv hlt => ?_⟩⟩
  · rw [fcycLoop, hcount]
    apply if_neg
    rintro ⟨hfalse, hlt⟩
    rw [hcount'] at hlt
    rcases hstop with hconv | hle
    · rw [h'.hasConverged_iff.mpr hconv] at hfalse
      cases hfalse
    · exact absurd hlt (not_lt.mpr hle)
  · rw [fcycLoop, hcount]
    apply if_pos
    rw [hcount']
    exact ⟨Bool.eq_false_iff.mpr fun htrue => hconv (h'.hasConverged_iff.mp htrue), hlt⟩

/-- **The loop** ends behind the first sample that makes it converge or reaches `maxsamples`. -/
theorem fcycLoop_spec (within : α → α → Bool) (hk : 0 < k) (fuel : ℕ)
    (h : Sampled k (firstSamples sample n) best s) (hfuel : maxsamples ≤ n + fuel) : ∃ s' n' best',
      fcycLoop within k maxsamples sample (fuel + 1) s = some s' ∧ n < n' ∧
      Sampled k (firstSamples sample n') best' s' ∧
      (Converged within k (firstSamples sample n') ∨ maxsamples ≤ n') ∧
      ∀ m, n < m → m < n' → ¬ Converged within k (firstSamples sample m) ∧ m < maxsamples := by
  induction fuel generalizing n best s with
  | zero =>
    obtain ⟨s', best', h', hloop⟩ := fcycLoop_step within maxsamples hk h
    have hstop : maxsamples ≤ (n + 1 : ℕ) := by omega
    exact ⟨s', n + 1, best', (hloop 0).1 (.inr hstop), Nat.lt_succ_self n, h', .inr hstop,
      fun m hm hm' => by omega⟩
  | succ fuel ih =>
    obtain ⟨s', best', h', hloop⟩ := fcycLoop_step within maxsamples hk h
    by_cases hstop : Converged within k (firstSamples sample (n + 1)) ∨ maxsamples ≤ (n + 1 : ℕ)
    · exact ⟨s', n + 1, best', (hloop _).1 hstop, Nat.lt_succ_self n, h', hstop,
        fun m hm hm' => by omega⟩
    · obtain ⟨hconv, hlt⟩ := not_or.mp hstop
      obtain ⟨s₂, n₂, best₂, hrun, hn₂, h₂, hstop₂, hbefore⟩ := ih h' (by omega)
      refine ⟨s₂, n₂, best₂, ?_, (Nat.lt_succ_self n).trans hn₂, h₂, hstop₂, ?_⟩
      · rw [(hloop _).2 hconv (not_le.mp hlt), hrun]
      · intro m hm hm'
        rcases Nat.lt_or_eq_of_le (Nat.succ_le_of_lt hm) with hm | rfl
        · exact hbefore m hm hm'
        · exact ⟨hconv, not_le.mp hlt⟩

/-- **K-best.** `fcyc` calls the function until the smallest `kbest` measurements are within the
tolerance for the first time, but at most `maxsamples` times, and at least once. It returns the
smallest measurement. `add_sample` keeps the `kbest` smallest of the values that it is given, in
order, or all of them if they are fewer. -/
theorem fcyc_best (within : α → α → Bool) (maxsamples : ℤ) (sample : ℕ → α) {kbest : ℕ}
    (hk : 0 < kbest) : ∃ r n, fcyc within kbest maxsamples sample = some (r, n) ∧ 0 < n ∧
      (Converged within kbest (firstSamples sample n) ∨ maxsamples ≤ n) ∧
      (∀ m, 0 < m → m < n →
        ¬ Converged within kbest (firstSamples sample m) ∧ m < maxsamples) ∧
      (∃ i < n, r = sample i) ∧ (∀ i < n, r ≤ sample i) ∧
      ∀ samples : List α, ∃ best, KBest kbest samples best ∧
        (samples.foldl (addSample kbest) (initSampler kbest)).values =
          best ++ List.replicate (kbest - best.length) 0 := by
  have hinit : Sampled kbest (firstSamples sample 0) [] (initSampler kbest) := Sampled.init kbest
  obtain ⟨s, n, best, hrun, hn, h, hstop, hbefore⟩ := fcycLoop_spec within hk
    maxsamples.toNat hinit (by omega : maxsamples ≤ (0 : ℕ) + (maxsamples.toNat : ℤ))
  have hlen : best.length = min kbest n := by
    rw [h.kbest.1]
    simp [firstSamples]
  obtain ⟨r, best, rfl⟩ : ∃ r l, best = r :: l := by
    apply List.exists_cons_of_length_pos
    omega
  obtain ⟨hmem, hle⟩ := h.kbest.head_le
  have hfirst : s.values.getD 0 0 = r := by
    rw [h.values]
    rfl
  have hcount : s.samplecount = n := h.samplecount.trans (by simp [firstSamples])
  refine ⟨r, n, ?_, hn, hstop, hbefore, ?_, fun i hi => ?_, fun samples => ?_⟩
  · rw [fcyc, hrun, ← hfirst, ← hcount]
    rfl
  · obtain ⟨i, hi, heq⟩ := List.mem_map.mp hmem
    exact ⟨i, List.mem_range.mp hi, heq.symm⟩
  · exact hle _ (List.mem_map_of_mem (List.mem_range.mpr hi))
  · obtain ⟨best', hbest'⟩ := exists_sampled hk samples
    exact ⟨best', hbest'.kbest, hbest'.values⟩

/-- Five measurements, of which the fourth makes two of them equal. -/
theorem fcyc_best_example :
    (fcyc (fun a b => b ≤ a) 2 20 fun i => [7, 5, 9, 5, 3].getD i 0) = some ((5 : ℕ), 4) ∧
      ∃ n, 0 < n ∧ ∃ i < n, (5 : ℕ) = [7, 5, 9, 5, 3].getD i 0 := by
  have hrun : (fcyc (fun a b => b ≤ a) 2 20 fun i => [7, 5, 9, 5, 3].getD i 0) =
      some ((5 : ℕ), 4) := by decide
  obtain ⟨r, n, hret, hn, -, -, hmem, -, -⟩ := fcyc_best (fun a b : ℕ => decide (b ≤ a)) 20
    (fun i => [7, 5, 9, 5, 3].getD i 0) (Nat.succ_pos 1)
  rw [hrun] at hret
  obtain ⟨rfl, rfl⟩ := Prod.mk.inj (Option.some.inj hret)
  exact ⟨hrun, 4, hn, hmem⟩

end SystemsLabs.Malloclab
