import SystemsLabs.Cachelab.Csim
import Mathlib.Tactic.NormNum

/-!
# Set index and tag as arithmetic

For `s + b ≤ 31` the casts of `check_cache` change nothing: the set index of an address is its block
number modulo `2 ^ s` and its tag is the rest of the block number, so within a set the tag
determines the block.

**Scope.** `s + b ≤ 31`; `Decomposition` is about the other geometries.
-/

namespace SystemsLabs.Cachelab

namespace Geometry

variable {g : Geometry} {addr addr' : BitVec 64}

/-- The block number of an address. -/
def block (g : Geometry) (addr : BitVec 64) : ℕ := addr.toNat / 2 ^ g.blockBits

/-- The set that a block belongs to. -/
def setOf (g : Geometry) (block : ℕ) : ℕ := block % 2 ^ g.setBits

/-- The set mask as a number. -/
theorem setMask_toNat (h : g.setBits + g.blockBits ≤ 31) :
    g.setMask.toNat = (2 ^ g.setBits - 1) * 2 ^ g.blockBits ∧ g.setMask.toNat < 2 ^ 31 := by
  have hs : 2 ^ g.setBits * 2 ^ g.blockBits ≤ 2 ^ 31 := by
    rw [← Nat.pow_add]
    exact Nat.pow_le_pow_right (by norm_num) h
  have hb : 0 < 2 ^ g.blockBits := Nat.two_pow_pos _
  have hs' : 0 < 2 ^ g.setBits := Nat.two_pow_pos _
  have hlt : (2 ^ g.setBits - 1) * 2 ^ g.blockBits < 2 ^ 31 := by
    have : (2 ^ g.setBits - 1) * 2 ^ g.blockBits < 2 ^ g.setBits * 2 ^ g.blockBits :=
      Nat.mul_lt_mul_of_pos_right (by omega) hb
    omega
  have hlt' : 2 ^ g.setBits - 1 < 2 ^ 64 := by
    have : 2 ^ g.setBits - 1 ≤ (2 ^ g.setBits - 1) * 2 ^ g.blockBits := Nat.le_mul_of_pos_right _ hb
    omega
  have heq : g.setMask.toNat = (2 ^ g.setBits - 1) * 2 ^ g.blockBits := by
    unfold setMask
    rw [BitVec.toNat_shiftLeft, BitVec.toNat_ofNat, Nat.mod_eq_of_lt hlt', Nat.shiftLeft_eq,
      Nat.mod_eq_of_lt (by omega)]
  exact ⟨heq, heq ▸ hlt⟩

/-- Casting the set mask to `int` and back does not change it. -/
theorem signExtend_setMask (h : g.setBits + g.blockBits ≤ 31) :
    (g.setMask.setWidth 32).signExtend 64 = g.setMask := by
  obtain ⟨-, hlt⟩ := setMask_toNat h
  have hw : (g.setMask.setWidth 32).toNat = g.setMask.toNat := by
    rw [BitVec.toNat_setWidth, Nat.mod_eq_of_lt (by omega)]
  have hmsb : (g.setMask.setWidth 32).msb = false := by
    rw [BitVec.msb_eq_false_iff_two_mul_lt, hw]
    omega
  apply BitVec.eq_of_toNat_eq
  rw [BitVec.signExtend_eq_setWidth_of_msb_false hmsb, BitVec.toNat_setWidth, hw,
    Nat.mod_eq_of_lt g.setMask.isLt]

/-- The set index. -/
theorem setIndex_eq (h : g.setBits + g.blockBits ≤ 31) (addr : BitVec 64) :
    g.setIndex addr = (g.setOf (g.block addr) : ℕ) := by
  have hbits : (addr.toNat &&& g.setMask.toNat) >>> g.blockBits =
      addr.toNat / 2 ^ g.blockBits % 2 ^ g.setBits := by
    rw [(setMask_toNat h).1, Nat.shiftRight_and_distrib, ← Nat.shiftLeft_eq,
      Nat.shiftLeft_shiftRight, Nat.and_two_pow_sub_one_eq_mod, Nat.shiftRight_eq_div_pow]
  have hlt : addr.toNat / 2 ^ g.blockBits % 2 ^ g.setBits < 2 ^ 31 :=
    (Nat.mod_lt _ (Nat.two_pow_pos _)).trans_le (Nat.pow_le_pow_right (by norm_num) (by omega))
  have htoNat : (((addr &&& g.setMask) >>> g.blockBits).setWidth 32).toNat =
      addr.toNat / 2 ^ g.blockBits % 2 ^ g.setBits := by
    rw [BitVec.toNat_setWidth, BitVec.toNat_ushiftRight, BitVec.toNat_and, hbits,
      Nat.mod_eq_of_lt (by omega)]
  unfold setIndex
  rw [signExtend_setMask h, BitVec.toInt_eq_toNat_of_lt (by rw [htoNat]; omega), htoNat]
  rfl

/-- The tag. -/
theorem tag_toNat (h : g.setBits + g.blockBits ≤ 64) (addr : BitVec 64) :
    (g.tag addr).toNat = addr.toNat / 2 ^ (g.setBits + g.blockBits) := by
  set k := g.setBits + g.blockBits with hk
  have hmask : g.tagMask.toNat = (2 ^ (64 - k) - 1) <<< k := by
    have hpow : 2 ^ (64 - k) * 2 ^ k = 2 ^ 64 := by
      rw [← Nat.pow_add, Nat.sub_add_cancel h]
    have hk' : 0 < 2 ^ k := Nat.two_pow_pos k
    have hle : 2 ^ (64 - k) ≤ 2 ^ 64 := Nat.pow_le_pow_right (by norm_num) (by omega)
    have hlt : 2 ^ (64 - k) - 1 < 2 ^ 64 := by
      have := Nat.two_pow_pos (64 - k)
      omega
    have hshift : (2 ^ (64 - k) - 1) <<< k < 2 ^ 64 := by
      rw [Nat.shiftLeft_eq, Nat.sub_mul, hpow]
      omega
    unfold tagMask
    rw [BitVec.toNat_shiftLeft, BitVec.toNat_ofNat, Nat.mod_eq_of_lt hlt, ← hk,
      Nat.mod_eq_of_lt hshift]
  have hlt : addr.toNat / 2 ^ k < 2 ^ (64 - k) := by
    apply Nat.div_lt_of_lt_mul
    rw [← Nat.pow_add, Nat.add_sub_cancel' h]
    exact addr.isLt
  unfold tag
  rw [BitVec.toNat_ushiftRight, BitVec.toNat_and, hmask, Nat.add_comm, ← hk,
    Nat.shiftRight_and_distrib, Nat.shiftLeft_shiftRight, Nat.and_two_pow_sub_one_eq_mod,
    Nat.shiftRight_eq_div_pow, Nat.mod_eq_of_lt hlt]

/-- Tags are the same when the block numbers agree above the set index. -/
theorem tag_eq_tag_iff (h : g.setBits + g.blockBits ≤ 64) :
    g.tag addr = g.tag addr' ↔ g.block addr / 2 ^ g.setBits = g.block addr' / 2 ^ g.setBits := by
  have htag : ∀ a : BitVec 64, (g.tag a).toNat = g.block a / 2 ^ g.setBits := by
    intro a
    rw [tag_toNat h, block, Nat.div_div_eq_div_mul, Nat.add_comm, Nat.pow_add]
  rw [← BitVec.toNat_inj, htag, htag]

/-- Block numbers are the same when they agree modulo `2 ^ s` and above. -/
theorem block_eq_iff :
    g.block addr = g.block addr' ↔
      g.setOf (g.block addr) = g.setOf (g.block addr') ∧
        g.block addr / 2 ^ g.setBits = g.block addr' / 2 ^ g.setBits := by
  constructor
  · intro hb
    rw [hb]
    exact ⟨rfl, rfl⟩
  · rintro ⟨hmod, hdiv⟩
    unfold setOf at hmod
    rw [← Nat.div_add_mod (g.block addr) (2 ^ g.setBits), hdiv, hmod, Nat.div_add_mod]

/-- Within a set, equal tags mean equal blocks. -/
theorem tag_eq_iff (h : g.setBits + g.blockBits ≤ 64)
    (hset : g.setOf (g.block addr) = g.setOf (g.block addr')) :
    g.tag addr = g.tag addr' ↔ g.block addr = g.block addr' := by
  rw [tag_eq_tag_iff h, block_eq_iff]
  exact (and_iff_right hset).symm

end Geometry

end SystemsLabs.Cachelab
