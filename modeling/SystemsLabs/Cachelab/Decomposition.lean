import SystemsLabs.Cachelab.Address

/-!
# The decomposition of an address for every geometry

`check_cache` casts the set mask to `int` before it combines it with the address. The cast keeps the
low 32 bits and copies bit 31 into the upper half, so that

* for `s + b ≤ 31` it changes nothing (`setIndex_eq`);
* for `b ≤ 31 < s + b` the mask keeps every bit of the block number (`setIndex_of_lt`), and the set
  index of most addresses is outside the cache;
* for `32 ≤ b` nothing is left of it (`setIndex_of_ge`), and every address is in set 0.

`decomposition_iff` says for which geometries and which addresses the set index is right, and for
which geometries the set index and the tag together determine the block.

**Assumptions.** `s ≤ 30` and `1 ≤ s + b ≤ 63`: for other geometries the casts of `main` are
undefined.
-/

namespace SystemsLabs.Cachelab.Geometry

variable {g : Geometry} {addr addr' : BitVec 64}

/-! ## The mask after the cast -/

/-- `(int) masks[1]`, as the `&` converts it back to 64 bits. -/
def castMask (g : Geometry) : BitVec 64 := (g.setMask.setWidth 32).signExtend 64

/-- The bits of the set mask. -/
theorem getLsbD_setMask (hk : g.setBits + g.blockBits ≤ 64) (i : ℕ) :
    g.setMask.getLsbD i = decide (g.blockBits ≤ i ∧ i < g.setBits + g.blockBits) := by
  unfold setMask
  rw [BitVec.getLsbD_shiftLeft, BitVec.getLsbD_ofNat, Nat.testBit_two_pow_sub_one]
  rw [Bool.eq_iff_iff]
  simp only [Bool.and_eq_true, Bool.not_eq_true', decide_eq_true_eq, decide_eq_false_iff_not]
  omega

/-- The bits of the mask after the cast: bit 31 of the set mask is copied into the upper half. -/
theorem getLsbD_castMask (hk : g.setBits + g.blockBits ≤ 64) (i : ℕ) :
    g.castMask.getLsbD i = decide (i < 64 ∧ g.blockBits ≤ min i 31 ∧
      min i 31 < g.setBits + g.blockBits) := by
  unfold castMask
  rw [BitVec.getLsbD_signExtend, BitVec.msb_eq_getLsbD_last, BitVec.getLsbD_setWidth,
    BitVec.getLsbD_setWidth, getLsbD_setMask hk, getLsbD_setMask hk, Bool.eq_iff_iff]
  split_ifs with hi
  · simp only [Bool.and_eq_true, decide_eq_true_eq]
    omega
  · simp only [Bool.and_eq_true, decide_eq_true_eq]
    omega

/-- No bit is left of a mask that is empty or lies in the upper half. -/
theorem castMask_eq_zero (hk : g.setBits + g.blockBits ≤ 64)
    (h : g.setBits = 0 ∨ 32 ≤ g.blockBits) : g.castMask = 0 := by
  apply BitVec.eq_of_getLsbD_eq
  intro i _
  rw [getLsbD_castMask hk, show (0 : BitVec 64).getLsbD i = false from BitVec.getLsbD_zero,
    decide_eq_false_iff_not]
  omega

/-! ## The set index -/

/-- With no set index bits, or with 32 block offset bits or more, every address is in set 0. -/
theorem setIndex_of_ge (hk : g.setBits + g.blockBits ≤ 64)
    (h : g.setBits = 0 ∨ 32 ≤ g.blockBits) (addr : BitVec 64) : g.setIndex addr = 0 := by
  have hmask : (g.setMask.setWidth 32).signExtend 64 = 0 := castMask_eq_zero hk h
  unfold setIndex
  rw [hmask]
  simp

/-- When the set mask reaches bit 31 from below, the set index is the block number as an `int`. -/
theorem setIndex_of_lt (hk : g.setBits + g.blockBits ≤ 64) (hb : g.blockBits ≤ 31)
    (hlt : 31 < g.setBits + g.blockBits) (addr : BitVec 64) :
    g.setIndex addr = ((addr >>> g.blockBits).setWidth 32).toInt := by
  have hshift : (addr &&& g.castMask) >>> g.blockBits = addr >>> g.blockBits := by
    apply BitVec.eq_of_getLsbD_eq
    intro i _
    rw [BitVec.getLsbD_ushiftRight, BitVec.getLsbD_ushiftRight, BitVec.getLsbD_and,
      getLsbD_castMask hk]
    by_cases hi : g.blockBits + i < 64
    · rw [decide_eq_true (by omega), Bool.and_true]
    · rw [BitVec.getLsbD_of_ge _ _ (by omega), Bool.false_and]
  unfold setIndex
  rw [show (g.setMask.setWidth 32).signExtend 64 = g.castMask from rfl, hshift]

/-- An `int` made of a block number is that number modulo `2 ^ s` exactly when its low 32 bits are
below `2 ^ s`. -/
theorem toInt_setWidth_eq_iff (hs : g.setBits ≤ 30) (n : BitVec 64) :
    (n.setWidth 32).toInt = (n.toNat % 2 ^ g.setBits : ℕ) ↔ n.toNat % 2 ^ 32 < 2 ^ g.setBits := by
  have hpos : 0 < 2 ^ g.setBits := Nat.two_pow_pos _
  have hpow : 2 ^ g.setBits ≤ 2 ^ 30 := Nat.pow_le_pow_right (by norm_num) hs
  have hmod : n.toNat % 2 ^ g.setBits = n.toNat % 2 ^ 32 % 2 ^ g.setBits :=
    (Nat.mod_mod_of_dvd _ (Nat.pow_dvd_pow 2 (by omega))).symm
  have hlt : n.toNat % 2 ^ 32 % 2 ^ g.setBits < 2 ^ g.setBits := Nat.mod_lt _ hpos
  rw [BitVec.toInt_eq_toNat_cond, BitVec.toNat_setWidth, hmod]
  constructor
  · intro heq
    split_ifs at heq <;> omega
  · intro hsmall
    rw [Nat.mod_eq_of_lt hsmall, if_pos (by omega)]

/-! ## When the decomposition is right -/

/-- The set index of `addr` is its block number modulo `2 ^ s`, hence the index of a set, and its
tag is what is above the set index. -/
def SplitsAddress (g : Geometry) (addr : BitVec 64) : Prop :=
  g.setIndex addr = ((addr >>> g.blockBits).toNat % 2 ^ g.setBits : ℕ) ∧
    (0 ≤ g.setIndex addr ∧ g.setIndex addr < (2 ^ g.setBits : ℕ)) ∧
      g.tag addr = addr >>> (g.setBits + g.blockBits)

/-- Two addresses have the same set index and tag exactly when they are in the same block. -/
def TellsBlocksApart (g : Geometry) : Prop :=
  ∀ addr addr' : BitVec 64, (g.setIndex addr = g.setIndex addr' ∧ g.tag addr = g.tag addr') ↔
    addr >>> g.blockBits = addr' >>> g.blockBits

/-- The decomposition is right for every address. -/
def Decomposes (g : Geometry) : Prop := (∀ addr, g.SplitsAddress addr) ∧ g.TellsBlocksApart

/-- The cast to `int` does not spoil the set index of `addr`. -/
def CastHarmless (g : Geometry) (addr : BitVec 64) : Prop :=
  g.setBits = 0 ∨ g.setBits + g.blockBits ≤ 31 ∨
    (g.blockBits ≤ 31 ∧ (addr >>> g.blockBits).toNat % 2 ^ 32 < 2 ^ g.setBits) ∨
      (32 ≤ g.blockBits ∧ (addr >>> g.blockBits).toNat % 2 ^ g.setBits = 0)

/-- The block number. -/
theorem toNat_ushiftRight_blockBits (addr : BitVec 64) :
    (addr >>> g.blockBits).toNat = g.block addr := by
  rw [BitVec.toNat_ushiftRight, Nat.shiftRight_eq_div_pow, block]

/-- The tag is always what is above the set index. -/
theorem tag_eq_ushiftRight (hk : g.setBits + g.blockBits ≤ 64) (addr : BitVec 64) :
    g.tag addr = addr >>> (g.setBits + g.blockBits) := by
  apply BitVec.eq_of_toNat_eq
  rw [tag_toNat hk, BitVec.toNat_ushiftRight, Nat.shiftRight_eq_div_pow]

/-- The set index is right exactly when the cast does no harm. -/
theorem setIndex_eq_iff (hs : g.setBits ≤ 30) (hk : g.setBits + g.blockBits ≤ 64)
    (addr : BitVec 64) :
    g.setIndex addr = ((addr >>> g.blockBits).toNat % 2 ^ g.setBits : ℕ) ↔
      g.CastHarmless addr := by
  unfold CastHarmless
  by_cases hzero : g.setBits = 0
  · rw [setIndex_of_ge hk (Or.inl hzero), hzero]
    simp [Nat.mod_one]
  by_cases hsmall : g.setBits + g.blockBits ≤ 31
  · rw [setIndex_eq hsmall, toNat_ushiftRight_blockBits, setOf]
    exact iff_of_true rfl (Or.inr (Or.inl hsmall))
  rcases Nat.lt_or_ge 31 g.blockBits with hb | hb
  · rw [setIndex_of_ge hk (Or.inr hb)]
    omega
  · rw [setIndex_of_lt hk hb (by omega), toInt_setWidth_eq_iff hs]
    omega

/-- An address is decomposed right exactly when the cast does no harm. -/
theorem splitsAddress_iff (hs : g.setBits ≤ 30) (hk : g.setBits + g.blockBits ≤ 64)
    (addr : BitVec 64) : g.SplitsAddress addr ↔ g.CastHarmless addr := by
  rw [← setIndex_eq_iff hs hk addr]
  refine ⟨fun h => h.1, fun heq => ⟨heq, ?_, tag_eq_ushiftRight hk addr⟩⟩
  rw [heq]
  exact ⟨Int.natCast_nonneg _, Int.ofNat_lt.mpr (Nat.mod_lt _ (Nat.two_pow_pos _))⟩

/-- Equal shifted addresses are equal block numbers. -/
theorem ushiftRight_eq_iff :
    addr >>> g.blockBits = addr' >>> g.blockBits ↔ g.block addr = g.block addr' := by
  rw [← BitVec.toNat_inj, toNat_ushiftRight_blockBits, toNat_ushiftRight_blockBits]

/-- With fewer than 32 block offset bits the set index determines the block number modulo
`2 ^ s`. -/
theorem setOf_eq_of_setIndex_eq (hs : g.setBits ≤ 30) (hk : g.setBits + g.blockBits ≤ 64)
    (hb : g.blockBits ≤ 31) (heq : g.setIndex addr = g.setIndex addr') :
    g.setOf (g.block addr) = g.setOf (g.block addr') := by
  rcases Nat.lt_or_ge 31 (g.setBits + g.blockBits) with hlt | hle
  · rw [setIndex_of_lt hk hb hlt, setIndex_of_lt hk hb hlt, BitVec.toInt_inj, ← BitVec.toNat_inj,
      BitVec.toNat_setWidth, BitVec.toNat_setWidth, toNat_ushiftRight_blockBits,
      toNat_ushiftRight_blockBits] at heq
    have hdvd : 2 ^ g.setBits ∣ 2 ^ 32 := Nat.pow_dvd_pow 2 (by omega)
    unfold setOf
    rw [← Nat.mod_mod_of_dvd _ hdvd, heq, Nat.mod_mod_of_dvd _ hdvd]
  · rw [setIndex_eq hle, setIndex_eq hle] at heq
    exact Int.ofNat_inj.mp heq

/-- Addresses of one block have the same set index. -/
theorem setIndex_congr (hk : g.setBits + g.blockBits ≤ 64)
    (heq : addr >>> g.blockBits = addr' >>> g.blockBits) : g.setIndex addr = g.setIndex addr' := by
  rcases Nat.lt_or_ge 31 g.blockBits with hb | hb
  · rw [setIndex_of_ge hk (Or.inr hb), setIndex_of_ge hk (Or.inr hb)]
  rcases Nat.lt_or_ge 31 (g.setBits + g.blockBits) with hlt | hle
  · rw [setIndex_of_lt hk hb hlt, setIndex_of_lt hk hb hlt, heq]
  · rw [setIndex_eq hle, setIndex_eq hle, ushiftRight_eq_iff.mp heq]

/-- The block number of `2 ^ (b + i)`. -/
theorem block_twoPow {i : ℕ} (hi : g.blockBits + i < 64) :
    g.block (BitVec.twoPow 64 (g.blockBits + i)) = 2 ^ i := by
  have hlt : 2 ^ (g.blockBits + i) < 2 ^ 64 := Nat.pow_lt_pow_right (by norm_num) hi
  unfold block
  rw [BitVec.toNat_twoPow, Nat.mod_eq_of_lt hlt, Nat.pow_add,
    Nat.mul_div_cancel_left _ (Nat.two_pow_pos _)]

/-- Set index and tag together determine the block unless the set index bits are all in the upper
half of the word, where the cast loses them. -/
theorem tellsBlocksApart_iff (hs : g.setBits ≤ 30) (hk : g.setBits + g.blockBits ≤ 63) :
    g.TellsBlocksApart ↔ g.setBits = 0 ∨ g.blockBits ≤ 31 := by
  have hk' : g.setBits + g.blockBits ≤ 64 := by omega
  constructor
  · intro h
    by_contra hnot
    -- the first two blocks differ in a set index bit only
    have hblock : g.block (BitVec.twoPow 64 (g.blockBits + 0)) = 1 := block_twoPow (by omega)
    have hzero : g.block 0 = 0 := Nat.zero_div _
    have htwo : 1 < 2 ^ g.setBits := Nat.one_lt_two_pow (by omega)
    have htag : g.tag (BitVec.twoPow 64 (g.blockBits + 0)) = g.tag 0 := by
      rw [tag_eq_tag_iff hk', hblock, hzero, Nat.zero_div, Nat.div_eq_of_lt htwo]
    have hindex : g.setIndex (BitVec.twoPow 64 (g.blockBits + 0)) = g.setIndex 0 := by
      rw [setIndex_of_ge hk' (by omega), setIndex_of_ge hk' (by omega)]
    have heq := ushiftRight_eq_iff.mp ((h _ _).mp ⟨hindex, htag⟩)
    rw [hblock, hzero] at heq
    exact one_ne_zero heq
  · intro h addr addr'
    refine ⟨fun hsame => ?_, fun heq => ⟨setIndex_congr hk' heq, ?_⟩⟩
    · have hdiv := (tag_eq_tag_iff hk').mp hsame.2
      rw [ushiftRight_eq_iff, block_eq_iff]
      refine ⟨?_, hdiv⟩
      rcases h with hzero | hb
      · unfold setOf
        rw [hzero, Nat.pow_zero, Nat.mod_one, Nat.mod_one]
      · exact setOf_eq_of_setIndex_eq hs hk' hb hsame.1
    · rw [tag_eq_tag_iff hk', ushiftRight_eq_iff.mp heq]

/-- Every address is decomposed right exactly when there are no set index bits or they are below
bit 31. -/
theorem forall_castHarmless_iff (hs : g.setBits ≤ 30) (hk : g.setBits + g.blockBits ≤ 63) :
    (∀ addr, g.CastHarmless addr) ↔ g.setBits = 0 ∨ g.setBits + g.blockBits ≤ 31 := by
  constructor
  · intro h
    by_contra hnot
    have hpow : 2 ^ g.setBits ≤ 2 ^ 30 := Nat.pow_le_pow_right (by norm_num) hs
    have htwo : 1 < 2 ^ g.setBits := Nat.one_lt_two_pow (by omega)
    rcases Nat.lt_or_ge 31 g.blockBits with hb | hb
    · -- block 1 belongs to set 1
      have hharm := h (BitVec.twoPow 64 (g.blockBits + 0))
      unfold CastHarmless at hharm
      rw [toNat_ushiftRight_blockBits, block_twoPow (by omega), Nat.pow_zero,
        Nat.mod_eq_of_lt htwo] at hharm
      omega
    · -- block `2 ^ s` belongs to set 0
      have hharm := h (BitVec.twoPow 64 (g.blockBits + g.setBits))
      unfold CastHarmless at hharm
      rw [toNat_ushiftRight_blockBits, block_twoPow (by omega)] at hharm
      omega
  · rintro (hzero | hsmall) addr
    · exact Or.inl hzero
    · exact Or.inr (Or.inl hsmall)

/-- The set index, the tag and the two together are right for an address, for every pair of
addresses and for a whole geometry in exactly these cases. -/
theorem decomposition_iff (hs : g.setBits ≤ 30) (_hpos : 1 ≤ g.setBits + g.blockBits)
    (hk : g.setBits + g.blockBits ≤ 63) :
    (∀ addr, g.SplitsAddress addr ↔ g.CastHarmless addr) ∧
      (g.TellsBlocksApart ↔ g.setBits = 0 ∨ g.blockBits ≤ 31) ∧
        (g.Decomposes ↔ g.setBits = 0 ∨ g.setBits + g.blockBits ≤ 31) := by
  have hk' : g.setBits + g.blockBits ≤ 64 := by omega
  refine ⟨splitsAddress_iff hs hk', tellsBlocksApart_iff hs hk, ?_⟩
  unfold Decomposes
  rw [tellsBlocksApart_iff hs hk, ← forall_castHarmless_iff hs hk]
  refine ⟨fun h addr => (splitsAddress_iff hs hk' addr).mp (h.1 addr), fun h => ⟨?_, ?_⟩⟩
  · exact fun addr => (splitsAddress_iff hs hk' addr).mpr (h addr)
  · rcases (forall_castHarmless_iff hs hk).mp h with hzero | hsmall
    · exact Or.inl hzero
    · exact Or.inr (by omega)

/-- The geometry `-s 5 -E 1 -b 5`. -/
theorem decomposes_typical : (⟨5, 1, 5⟩ : Geometry).Decomposes :=
  (decomposition_iff (by decide) (by decide) (by decide)).2.2.mpr (Or.inr (by decide))

/-- Two sets of blocks of `2 ^ 31` bytes: the block at `2 ^ 32` is looked up in set 2. -/
theorem setIndex_past_the_cache :
    (⟨1, 1, 31⟩ : Geometry).setIndex 0x100000000 = 2 ∧ ¬ (⟨1, 1, 31⟩ : Geometry).Decomposes := by
  have hindex : (⟨1, 1, 31⟩ : Geometry).setIndex 0x100000000 = 2 := by decide
  refine ⟨hindex, fun h => ?_⟩
  have hlt := (h.1 0x100000000).2.1.2
  rw [hindex] at hlt
  exact absurd hlt (by decide)

end SystemsLabs.Cachelab.Geometry
