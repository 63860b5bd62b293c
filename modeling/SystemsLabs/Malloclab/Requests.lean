import SystemsLabs.Malloclab.Invariants

/-!
# Requests of every size

A client may ask `mm_malloc` for any `size_t` (`Call`). The rounding of the request adds 15 to it in
32-bit arithmetic; from `2 ^ 32 - 15` on it wraps around, and `mm_malloc` asks `mem_sbrk` for a
block of 0 or 8 bytes (`adjust_wrapped`), which it hands out, boundary tags and all, if there is
room.

* `InRange` — the requests that this does not happen to.
* `exists_abs_of_inRange` — every configuration reached by such calls stands for a layout.
* `mallocSafe_of_inRange` — there `mm_malloc` either changes nothing or hands out a block that holds
  the request, exactly for the sizes in range.

**Assumptions.** Those of `Client`, except for the rounding. That the end of a block does not wrap
around is still assumed where it could (`NoWrap`).
-/

namespace SystemsLabs.Malloclab

open SystemsLabs.Lib

variable {c c₀ c' : Config} {op : Op} {ops : List Op} {s : State} {segs L : List Seg} {n p : ℕ}

/-! ## Calls -/

/-- What the types let a client do: requests of any `size_t`, releases of live pointers, and writes
inside live payloads. -/
def Permitted (c : Config) : Op → Prop
  | .malloc n => n < 2 ^ 32
  | .free p => ∃ b ∈ c.live, b.1 = p
  | .write a _ => ∃ b ∈ c.live, b.1 ≤ a ∧ a < b.1 + b.2

instance (c : Config) : DecidablePred (Permitted c)
  | .malloc _ => inferInstanceAs (Decidable (_ < _))
  | .free p => inferInstanceAs (Decidable (∃ b ∈ c.live, b.1 = p))
  | .write a _ => inferInstanceAs (Decidable (∃ b ∈ c.live, b.1 ≤ a ∧ a < b.1 + b.2))

/-- One permitted operation. -/
def Call (c : Config) (op : Op) (c' : Config) : Prop := Permitted c op ∧ c.exec op = some c'

/-- The rounded size of a request holds it, or it is a wrapped one of 8 bytes that a full heap
refuses. -/
def SizeInRange (s : State) (n : ℕ) : Prop :=
  n + 15 < 2 ^ 32 ∨ (2 ^ 32 ≤ n + 7 ∧ s.memBrk = s.memMaxAddr)

instance (s : State) (n : ℕ) : Decidable (SizeInRange s n) := inferInstanceAs (Decidable (_ ∨ _))

/-- The size of a request is in range and extending the heap by the rounded size computes no address
past the end of the address space. -/
def InRange (c : Config) : Op → Prop
  | .malloc n => SizeInRange c.st n ∧ NoWrap c.st (adjust n)
  | _ => True

instance (c : Config) : DecidablePred (InRange c)
  | .malloc _ => inferInstanceAs (Decidable (_ ∧ _))
  | .free _ => inferInstanceAs (Decidable True)
  | .write _ _ => inferInstanceAs (Decidable True)

/-- Perform a permitted operation. -/
def Config.call (c : Config) (op : Op) : Option Config := if Permitted c op then c.exec op else none

/-- What is computed is a call. -/
theorem call_of_eq_some (h : c.call op = some c') : Call c op c' := by
  unfold Config.call at h
  split_ifs at h with hperm
  exact ⟨hperm, h⟩

/-- A computed run of calls from `mm_init`, with what is observed at its end. -/
theorem exists_calls (Cond : Config → Op → Prop) [∀ c, DecidablePred (Cond c)] {β : Type*}
    (start : ℕ) (bytes : Mem) (ops : List Op) (obs : Config → β) (v : β) (hmod : start % 8 = 0)
    (hlt : start + maxHeap < 2 ^ 32)
    (h : ((Config.boot start bytes).bind fun c₀ => runIf Cond Config.call c₀ ops).map obs =
      some v) :
    ∃ c₀ c, Config.boot start bytes = some c₀ ∧ obs c = v ∧ c₀.Initial ∧
      Runs (Guarded Cond Call) c₀ ops c := by
  obtain ⟨c, hbind, hobs⟩ := Option.map_eq_some_iff.mp h
  obtain ⟨c₀, hboot, hrun⟩ := Option.bind_eq_some_iff.mp hbind
  exact ⟨c₀, c, hboot, hobs, ⟨start, bytes, hmod, hlt, hboot⟩,
    runs_of_runIf Call (fun _ _ _ => call_of_eq_some) hrun⟩

/-! ## Requests that wrap around -/

/-- The rounded size of a request that wraps around. -/
theorem adjust_wrapped (hn : n < 2 ^ 32) (hwrap : 2 ^ 32 ≤ n + 15) :
    adjust n = if n + 7 < 2 ^ 32 then 0 else 8 := by
  have hlarge : ¬ n ≤ dsize := by
    simp only [dsize]
    omega
  have hadj : adjust n = 8 * ((((n + 8) % 2 ^ 32) + 7) % 2 ^ 32 / 8) := if_neg hlarge
  rw [hadj]
  split_ifs <;> omega

/-- No free block is as small as a wrapped size. -/
theorem fitsFreeList_of_small (h : Rep s segs L) {a : ℕ} (ha : a ≤ 8) :
    fitsFreeList s a = some false := by
  rcases fitsFreeList_eq h a with ⟨-, f, -, hbest⟩ | ⟨hfits, -⟩
  · obtain ⟨z, hz, hza⟩ := hbest.guard
    have := (h.isBlock hz).size_ge
    omega
  · exact hfits

/-- What a wrapped request gets: a null pointer if the heap is full and the wrapped size is not
zero, and otherwise a block whose header holds the wrapped size. -/
theorem mmMalloc_wrapped (h : Rep s segs L) (hn : n < 2 ^ 32) (hwrap : 2 ^ 32 ≤ n + 15)
    (hroom : NoWrap s (adjust n)) :
    (2 ^ 32 ≤ n + 7 ∧ s.memBrk = s.memMaxAddr ∧ mmMalloc s n = some (s, NULL)) ∨
      (¬ (2 ^ 32 ≤ n + 7 ∧ s.memBrk = s.memMaxAddr) ∧ ∃ s', mmMalloc s n = some (s', s.memBrk) ∧
        getSize s' (hdrp s.memBrk) = some (adjust n)) := by
  have hpos : n ≠ 0 := by omega
  have hadj := adjust_wrapped hn hwrap
  have hsmall : adjust n = 0 ∨ adjust n = 8 := by
    rw [hadj]
    split_ifs
    · exact Or.inl rfl
    · exact Or.inr rfl
  have hfits := fitsFreeList_of_small h (a := adjust n) (by omega)
  have hstart : s.memStartBrk + 16 ≤ s.memBrk := h.blocks.tiles.le
  have hle := h.blocks.brk_le
  have hmax := h.blocks.max_lt
  have hbmod := h.blocks.brk_mod
  have hmaxmod : s.memMaxAddr % 8 = 0 := by
    have h₁ := h.blocks.start_mod
    have h₂ := h.blocks.max_eq
    have h₃ : maxHeap % 8 = 0 := by decide
    omega
  by_cases hfull : 2 ^ 32 ≤ n + 7 ∧ s.memBrk = s.memMaxAddr
  · left
    refine ⟨hfull.1, hfull.2, ?_⟩
    have hadj8 : adjust n = 8 := by
      rw [hadj, if_neg (by omega)]
    rcases memSbrk_spec (s := s) (by omega) hroom with hsbrk | ⟨hle', -⟩
    · simp [mmMalloc, hpos, hfits, hsbrk]
    · omega
  · right
    refine ⟨hfull, ?_⟩
    have hle' : s.memBrk + adjust n ≤ s.memMaxAddr := by
      rw [hadj]
      split_ifs <;> omega
    have hadd : add s.memBrk (adjust n) = s.memBrk + adjust n := add_eq (by omega)
    have hint : toInt (adjust n) = (adjust n : ℤ) := if_pos (by omega)
    have hsbrk : memSbrk s (toInt (adjust n)) =
        ({ s with memBrk := s.memBrk + adjust n }, s.memBrk) := by
      have hnot : ¬ s.memMaxAddr < s.memBrk + adjust n := by omega
      simp [memSbrk, hint, hadd, hnot]
    have hne : s.memBrk ≠ minusOne := by
      unfold minusOne
      omega
    refine ⟨_, mmMalloc_of_sbrk hpos rfl hfits hsbrk (by omega) hle' hmax (by omega) (by omega) hne,
      ?_⟩
    have hin : State.InHeap
        { s with mem := growMem s.mem s.memBrk (adjust n), memBrk := s.memBrk + adjust n }
        (s.memBrk - 4) := by
      unfold State.InHeap
      simp only [wsize]
      omega
    unfold getSize
    rw [hdrp_eq (by omega) (by omega), get_eq hin, Option.map_some,
      growMem_header (by omega) (by omega) (by omega), and_mask (by omega)]
    congr 1
    omega

/-! ## Calls in range step the layout -/

/-- A call in range steps the layout. -/
theorem Abs.of_call (h : Abs c segs L) (hin : InRange c op) (hcall : Call c op c') :
    ∃ segs' L', Abs c' segs' L' ∧ LayoutStep segs L c.st.memBrk op segs' L' := by
  obtain ⟨hperm, hexec⟩ := hcall
  cases op with
  | malloc n =>
      obtain ⟨hsize, hroom⟩ := hin
      rcases hsize with hn | ⟨hn, hfull⟩
      · obtain ⟨d, p, segs', L', hexec', -, habs, hstep, -⟩ := h.malloc hn hroom
        obtain rfl := Option.some_inj.mp (hexec.symm.trans hexec')
        exact ⟨segs', L', habs, .malloc hstep⟩
      · -- the full heap refuses the wrapped request
        rcases mmMalloc_wrapped h.rep hperm (by omega) hroom with ⟨-, -, hret⟩ | ⟨hnot, -⟩
        · have hsame : c.exec (.malloc n) = some c := by simp [Config.exec, hret]
          obtain rfl := Option.some_inj.mp (hexec.symm.trans hsame)
          have hfits := fitsFreeList_of_small h.rep (a := adjust n) (by
            rw [adjust_wrapped hperm (by omega)]
            split_ifs <;> omega)
          refine ⟨segs, L, h, .malloc (.null (Or.inr ?_))⟩
          rcases fitsFreeList_eq h.rep (adjust n) with ⟨hfits', -⟩ | ⟨-, hnone⟩
          · rw [hfits] at hfits'
            cases hfits'
          · exact hnone
        · exact absurd ⟨hn, hfull⟩ hnot
  | free p =>
      have hstep : Step c (.free p) c' := ⟨hperm, hexec⟩
      exact h.of_step hstep
  | write a v =>
      have hstep : Step c (.write a v) c' := ⟨hperm, hexec⟩
      exact h.of_step hstep

/-- Every configuration reached by calls in range stands for a layout. -/
theorem exists_abs_of_inRange (h₀ : c₀.Initial) (hrun : Runs (Guarded InRange Call) c₀ ops c) :
    ∃ segs L, Abs c segs L := by
  refine hrun.invariant (I := fun c => ∃ segs L, Abs c segs L) ?_ ⟨[], [], h₀.abs⟩
  rintro c op c' ⟨segs, L, habs⟩ ⟨hin, hcall⟩
  obtain ⟨segs', L', habs', -⟩ := habs.of_call hin hcall
  exact ⟨segs', L', habs'⟩

/-! ## The size arithmetic of `mm_malloc` -/

/-- `mm_malloc(n)` returns null and changes nothing, or a pointer whose header holds a size of at
least `n + 8` and 16 and whose payload lies inside the heap. -/
def MallocSafe (s : State) (n : ℕ) : Prop :=
  ∃ s' p, mmMalloc s n = some (s', p) ∧ ((p = NULL ∧ s' = s) ∨
    (p ≠ NULL ∧ ∃ k, getSize s' (hdrp p) = some k ∧ n + 8 ≤ k ∧ 16 ≤ k ∧ s'.memStartBrk ≤ p ∧
      p + n ≤ s'.memBrk))

/-- A request that does not wrap around is safe. -/
theorem mallocSafe_of_lt (h : Rep s segs L) (hn : n + 15 < 2 ^ 32) (hroom : NoWrap s (adjust n)) :
    MallocSafe s n := by
  obtain ⟨s', p, segs', L', hret, h', hstep, -, hnull, -⟩ := mmMalloc_spec h hn hroom
  refine ⟨s', p, hret, ?_⟩
  by_cases hp : p = NULL
  · exact Or.inl ⟨hp, hnull hp⟩
  · obtain ⟨x, hx, hhand⟩ := hstep.handed hp
    obtain ⟨-, hge, h16, -⟩ := adjust_spec hn
    have hb := h'.blocks.bounds hx
    have hsize := hhand.size
    have hptr := hhand.ptr
    have hget := h'.blocks.getSize_eq hx (by simp [Seg.IsBlock, hhand.kind])
    rw [hptr, hsize] at hget
    exact Or.inr ⟨hp, adjust n, hget, hge, h16, by omega, by omega⟩

/-- A request is safe exactly if its size is in range. -/
theorem mallocSafe_iff (h : Rep s segs L) (hn : n < 2 ^ 32) (hroom : NoWrap s (adjust n)) :
    MallocSafe s n ↔ SizeInRange s n := by
  by_cases hsmall : n + 15 < 2 ^ 32
  · exact iff_of_true (mallocSafe_of_lt h hsmall hroom) (Or.inl hsmall)
  rcases mmMalloc_wrapped h hn (by omega) hroom with ⟨hlarge, hfull, hret⟩ | ⟨hnot, s', hret, hk⟩
  · exact iff_of_true ⟨s, NULL, hret, Or.inl ⟨rfl, rfl⟩⟩ (Or.inr ⟨hlarge, hfull⟩)
  · refine iff_of_false ?_ (not_or.mpr ⟨hsmall, hnot⟩)
    rintro ⟨t, p, hret', hcase⟩
    obtain ⟨rfl, rfl⟩ := Prod.mk.inj (Option.some.inj (hret.symm.trans hret'))
    have hstart : s.memStartBrk + 16 ≤ s.memBrk := h.blocks.tiles.le
    have hsize : adjust n ≤ 8 := by
      rw [adjust_wrapped hn (by omega)]
      split_ifs <;> omega
    rcases hcase with ⟨hp, -⟩ | ⟨-, k, hk', -, h16, -⟩
    · simp only [NULL] at hp
      omega
    · obtain rfl := Option.some.inj (hk.symm.trans hk')
      omega

/-- **The size arithmetic of `mm_malloc`.** In every run from `mm_init` whose requests are all in
range, and for every `size_t` that the heap can be extended by without passing the end of the
address space: `mm_malloc` changes nothing or hands out a large enough block inside the heap,
exactly if the size is in range. -/
theorem mallocSafe_of_inRange (h₀ : c₀.Initial) (hrun : Runs (Guarded InRange Call) c₀ ops c)
    (hn : n < 2 ^ 32) (hroom : NoWrap c.st (adjust n)) :
    MallocSafe c.st n ↔ SizeInRange c.st n := by
  obtain ⟨segs, L, habs⟩ := exists_abs_of_inRange h₀ hrun
  exact mallocSafe_iff habs.rep hn hroom

/-- After one request the largest one in range is safe. -/
theorem mallocSafe_of_inRange_example : ∃ c₀ c, Config.boot 4096 (fun _ => 0) = some c₀ ∧
    Runs Call c₀ [.malloc 8] c ∧ MallocSafe c.st (2 ^ 32 - 16) := by
  obtain ⟨c₀, c, hboot, hroom, h₀, hrun⟩ := exists_calls InRange 4096 (fun _ => 0) [.malloc 8]
    (fun c => decide (NoWrap c.st (adjust (2 ^ 32 - 16)))) true (by decide) (by decide)
    (by decide +kernel)
  exact ⟨c₀, c, hboot, hrun.of_guarded, (mallocSafe_of_inRange h₀ hrun (by norm_num)
    (of_decide_eq_true hroom)).mpr (Or.inl (by norm_num))⟩

/-- A request of `2 ^ 32 - 15` bytes gets a pointer whose header holds size 0. -/
theorem exists_not_mallocSafe : ∃ c₀ c, Config.boot 4096 (fun _ => 0) = some c₀ ∧ c₀.Initial ∧
    Runs Call c₀ [.malloc 8] c ∧ NoWrap c.st (adjust 4294967281) ∧
    ¬ MallocSafe c.st 4294967281 := by
  obtain ⟨c₀, c, hboot, hobs, h₀, hrun⟩ := exists_calls (fun _ _ => True) 4096 (fun _ => 0)
    [.malloc 8]
    (fun c => (decide (NoWrap c.st (adjust 4294967281)),
      (mmMalloc c.st 4294967281).map fun r => (r.2, getSize r.1 (hdrp r.2))))
    (true, some (4128, some 0)) (by decide) (by decide) (by decide +kernel)
  obtain ⟨hroom, hmap⟩ := Prod.mk.inj hobs
  obtain ⟨⟨t, q⟩, hret, hpair⟩ := Option.map_eq_some_iff.mp hmap
  obtain ⟨hq, hsize⟩ := Prod.mk.inj hpair
  refine ⟨c₀, c, hboot, h₀, hrun.of_guarded, of_decide_eq_true hroom, ?_⟩
  rintro ⟨s', p, hret', hcase⟩
  obtain ⟨rfl, rfl⟩ := Prod.mk.inj (Option.some.inj (hret.symm.trans hret'))
  rcases hcase with ⟨hp, -⟩ | ⟨-, k, hk, -, h16, -⟩
  · exact absurd (hq.symm.trans hp) (by decide)
  · obtain rfl := Option.some.inj (hsize.symm.trans hk)
    exact absurd h16 (by decide)

end SystemsLabs.Malloclab
