import SystemsLabs.Malloclab.Requests

/-!
# `mm_realloc` when the heap is exhausted

`mm_realloc` does not look at the result of the `mm_malloc` inside it: it copies the old payload to
the pointer it got and frees the old block.

* `not_failsCleanly` — when that `mm_malloc` returns null, the copy goes to the null pointer, so no
  call returns null with everything left as it was.

**Assumptions.** The states are those that clients reach by `mm_malloc`, `mm_free` and writes. A
`memcpy` to the null pointer is undefined.
-/

namespace SystemsLabs.Malloclab

open SystemsLabs.Lib

variable {c c₀ : Config} {ops : List Op} {s s' : State} {segs L : List Seg} {n n₀ p : ℕ}

/-- The `mm_malloc` inside `mm_realloc(p, n)` is reached and returns null: `n` rounds to more than
the size of the block, and the block does not grow in place. -/
def AllocationFails (s : State) (p n : ℕ) : Prop :=
  ∃ old s₁ q k s₂, n ≠ 0 ∧ getSize s (hdrp p) = some old ∧ old < align n ∧
    coalesce s p = some (s₁, q) ∧ getSize s₁ (hdrp q) = some k ∧
    ¬ (old < k ∧ add (align n) dsize < k) ∧ mmMalloc s₁ (sub (align n) old) = some (s₂, NULL)

/-- Every block is as it was, tags and contents included, and so is the free list. -/
def Config.KeptBy (c : Config) (s' : State) : Prop :=
  (∀ q, (q ∈ c.live.map Prod.fst ∨ q ∈ c.freed) →
    ∀ a, hdrp q ≤ a → a < hdrp q + blockSize c.st q → s'.mem a = c.st.mem a) ∧
  ∀ ps, OnFreeList c.st ps → OnFreeList s' ps

/-- `mm_realloc(p, n)` returns null and leaves every block and the free list as they were. -/
def FailsCleanly (c : Config) (p n : ℕ) : Prop :=
  ∃ s', mmRealloc c.st p n = some (s', NULL) ∧ c.KeptBy s'

/-- The difference of the sizes leaves room for the rounding in `mm_malloc`. -/
theorem sub_align_lt {old : ℕ} (h16 : 16 ≤ old) (hlt : old < align n) :
    sub (align n) old + 15 < 2 ^ 32 := by
  have hmask : align n = add n 7 / 8 * 8 := and_mask (Nat.mod_lt _ (by norm_num))
  have hadd : add n 7 < 2 ^ 32 := Nat.mod_lt _ (by norm_num)
  rw [sub_eq hlt.le (by omega)]
  omega

/-- A null result of `mm_malloc` leaves everything as it was. -/
theorem mmMalloc_null (h : Rep s segs L) (hn : n + 15 < 2 ^ 32)
    (hret : mmMalloc s n = some (s', NULL)) : s' = s := by
  by_cases hpos : n = 0
  · have hnull : mmMalloc s n = some (s, NULL) := by simp [mmMalloc, hpos]
    exact (Prod.mk.inj (Option.some.inj (hret.symm.trans hnull))).1
  rcases fitsFreeList_eq h (adjust n) with ⟨hfits, f, hchoose, hbest⟩ | ⟨hfits, -⟩
  · obtain ⟨t, -, -, hret', -⟩ := reuse_spec h hn hpos hfits hchoose hbest
    have hptr := (Prod.mk.inj (Option.some.inj (hret.symm.trans hret'))).2
    exact absurd hptr.symm (h.blocks.ptr_ne_null (h.mem_segs hbest.mem))
  · have hstart : s.memStartBrk + 16 ≤ s.memBrk := h.blocks.tiles.le
    have hle := h.blocks.brk_le
    have hmax := h.blocks.max_lt
    have hbmod := h.blocks.brk_mod
    by_cases hrefused : toInt (adjust n) < 0 ∨ add s.memBrk (toInt (adjust n)).toNat > s.memMaxAddr
    · have hnull : mmMalloc s n = some (s, NULL) := by
        simp [mmMalloc, hpos, hfits, memSbrk, hrefused]
      exact (Prod.mk.inj (Option.some.inj (hret.symm.trans hnull))).1
    · -- a granted request returns the old break
      have hne : s.memBrk ≠ minusOne := by
        unfold minusOne
        omega
      have hgrant : memSbrk s (toInt (adjust n)) =
          ({ s with memBrk := add s.memBrk (toInt (adjust n)).toNat }, s.memBrk) :=
        if_neg hrefused
      unfold mmMalloc at hret
      simp only [Nat.le_zero_eq, hpos, if_false, hfits, hgrant, hne, Option.bind_eq_bind,
        Option.bind_some, Bool.false_eq_true] at hret
      obtain ⟨t, -, hret⟩ := Option.bind_eq_some_iff.mp hret
      obtain ⟨q, -, hret⟩ := Option.bind_eq_some_iff.mp hret
      obtain ⟨u, -, hret⟩ := Option.bind_eq_some_iff.mp hret
      have hptr : s.memBrk = NULL := (Prod.mk.inj (Option.some.inj hret)).2
      simp only [NULL] at hptr
      omega

/-- **A failed allocation ends in a copy to the null pointer.** -/
theorem Abs.mmRealloc_eq_none (h : Abs c segs L) (hstart : c.st.memStartBrk ≠ NULL)
    (hp : (p, n₀) ∈ c.live) (hfail : AllocationFails c.st p n) : mmRealloc c.st p n = none := by
  obtain ⟨x, hx, hkind, rfl, -⟩ := h.payload hp
  obtain ⟨old, s₁, q, k, s₂, hpos, hold, hlt, hco, -, -, hmalloc⟩ := hfail
  have hxb : x.IsBlock := by simp [Seg.IsBlock, hkind]
  have h16 := hxb.size_ge
  have hb := h.rep.blocks.bounds hx
  obtain rfl := Option.some.inj ((h.rep.blocks.getSize_eq hx hxb).symm.trans hold)
  obtain ⟨rfl, rfl⟩ := Prod.mk.inj
    (Option.some.inj ((coalesce_eq h.rep.blocks hx).symm.trans hco))
  obtain rfl := mmMalloc_null h.rep (sub_align_lt h16 hlt) hmalloc
  have hsub : sub x.size dsize = x.size - 8 := sub_eq (by simp only [dsize]; omega) (by omega)
  have hcopy : memcpy c.st NULL x.ptr (x.size - 8) = none := by
    have hne : x.size - 8 ≠ 0 := by omega
    simp only [NULL] at hstart
    unfold memcpy
    rw [if_neg hne, if_neg]
    simp only [NULL]
    omega
  have hnull := h.rep.blocks.ptr_ne_null hx
  have hne : align n ≠ x.size := hlt.ne'
  simp [mmRealloc, hnull, hpos, hold, hne, hlt.not_gt, hco, hmalloc, hsub, hcopy]

/-- **No failed `mm_realloc` leaves everything intact.** In every run from `mm_init` whose requests
are all in range, for every live pointer and every new size for which the allocation inside
`mm_realloc` fails. `mem_init` exits if the heap is a null pointer. -/
theorem not_failsCleanly (h₀ : c₀.Initial) (hrun : Runs (Guarded InRange Call) c₀ ops c)
    (hstart : c.st.memStartBrk ≠ NULL) (hp : (p, n₀) ∈ c.live)
    (hfail : AllocationFails c.st p n) : ¬ FailsCleanly c p n := by
  obtain ⟨segs, L, habs⟩ := exists_abs_of_inRange h₀ hrun
  rintro ⟨s', hret, -⟩
  rw [habs.mmRealloc_eq_none hstart hp hfail] at hret
  cases hret

/-- An allocation that fails, computed. -/
theorem allocationFails_of_eq {old k q : ℕ} (hpos : n ≠ 0)
    (hold : getSize s (hdrp p) = some old) (hlt : old < align n)
    (hrest : ((coalesce s p).bind fun r => (getSize r.1 (hdrp r.2)).bind fun k =>
      (mmMalloc r.1 (sub (align n) old)).map fun r' => (k, r'.2)) = some (k, q))
    (hplace : ¬ (old < k ∧ add (align n) dsize < k)) (hq : q = NULL) : AllocationFails s p n := by
  obtain ⟨⟨s₁, q₁⟩, hco, hrest⟩ := Option.bind_eq_some_iff.mp hrest
  obtain ⟨k', hk, hrest⟩ := Option.bind_eq_some_iff.mp hrest
  obtain ⟨⟨s₂, q₂⟩, hmalloc, hpair⟩ := Option.map_eq_some_iff.mp hrest
  obtain ⟨rfl, rfl⟩ := Prod.mk.inj hpair
  exact ⟨old, s₁, q₁, k', s₂, hpos, hold, hlt, hco, hk, hplace, hq ▸ hmalloc⟩

/-- 32 MB are more than the heap may hold. -/
theorem not_failsCleanly_example : ∃ c₀ c, Config.boot 4096 (fun _ => 0) = some c₀ ∧
    Runs Call c₀ [.malloc 8] c ∧ c.live = [(4112, 8)] ∧ AllocationFails c.st 4112 33554432 ∧
    ¬ FailsCleanly c 4112 33554432 := by
  obtain ⟨c₀, c, hboot, hobs, h₀, hrun⟩ := exists_calls InRange 4096 (fun _ => 0) [.malloc 8]
    (fun c => (c.live, c.st.memStartBrk, getSize c.st (hdrp 4112),
      (coalesce c.st 4112).bind fun r => (getSize r.1 (hdrp r.2)).bind fun k =>
        (mmMalloc r.1 (sub (align 33554432) 16)).map fun r' => (k, r'.2)))
    ([(4112, 8)], 4096, some 16, some (16, 0)) (by decide) (by decide) (by decide +kernel)
  simp only [Prod.mk.injEq] at hobs
  obtain ⟨hlive, hstart, hold, hrest⟩ := hobs
  have hfail : AllocationFails c.st 4112 33554432 :=
    allocationFails_of_eq (by decide) hold (by decide) hrest (by decide) rfl
  have hmem : (4112, 8) ∈ c.live := by simp [hlive]
  exact ⟨c₀, c, hboot, hrun.of_guarded, hlive, hfail,
    not_failsCleanly h₀ hrun (by rw [hstart]; decide) hmem hfail⟩

/-- Growing a block of 8 bytes to 32 MB: the heap has 20 MB, and the call has no defined result. -/
theorem exists_not_failsCleanly : ∃ c₀ c, Config.boot 4096 (fun _ => 0) = some c₀ ∧ c₀.Initial ∧
    Runs Call c₀ [.malloc 8] c ∧ (4112, 8) ∈ c.live ∧ AllocationFails c.st 4112 33554432 ∧
    mmRealloc c.st 4112 33554432 = none ∧ ¬ FailsCleanly c 4112 33554432 := by
  obtain ⟨c₀, c, hboot, hobs, h₀, hrun⟩ := exists_calls (fun _ _ => True) 4096 (fun _ => 0)
    [.malloc 8]
    (fun c => (c.live, (mmRealloc c.st 4112 33554432).isNone, getSize c.st (hdrp 4112),
      (coalesce c.st 4112).bind fun r => (getSize r.1 (hdrp r.2)).bind fun k =>
        (mmMalloc r.1 (sub (align 33554432) 16)).map fun r' => (k, r'.2)))
    ([(4112, 8)], true, some 16, some (16, 0)) (by decide) (by decide) (by decide +kernel)
  simp only [Prod.mk.injEq] at hobs
  obtain ⟨hlive, hnone, hold, hrest⟩ := hobs
  have hret := Option.isNone_iff_eq_none.mp hnone
  refine ⟨c₀, c, hboot, h₀, hrun.of_guarded, by simp [hlive],
    allocationFails_of_eq (by decide) hold (by decide) hrest (by decide) rfl, hret, ?_⟩
  rintro ⟨s', hret', -⟩
  rw [hret] at hret'
  cases hret'

end SystemsLabs.Malloclab
