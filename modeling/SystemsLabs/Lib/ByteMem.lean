import Mathlib.Algebra.Group.Nat.Defs
import Mathlib.Tactic.Common

/-!
# A flat byte memory with little-endian 32-bit words

* `Mem` — one byte at every address.
* `load32`/`store32` — the little-endian word at an address; addresses need no alignment.
* `copy` — the effect of a block copy whose source is read before the destination is written.

The rules: a word reads back as it was stored (`load32_store32_self`), a store leaves every
disjoint word and every byte outside its four bytes alone (`load32_store32_of_disjoint`,
`store32_apply_of_not_mem`), and a word depends on its four bytes only (`load32_congr`).
-/

namespace SystemsLabs.Lib

/-- A memory: one byte at every address. -/
abbrev Mem := ℕ → UInt8

namespace Mem

variable {m m' : Mem} {a b v w : ℕ}

/-- The little-endian 32-bit word at `a`. -/
def load32 (m : Mem) (a : ℕ) : ℕ :=
  (m a).toNat + 256 * (m (a + 1)).toNat + 65536 * (m (a + 2)).toNat + 16777216 * (m (a + 3)).toNat

/-- Store the low 32 bits of `v` at `a`, little-endian. -/
def store32 (m : Mem) (a v : ℕ) : Mem := fun x =>
  if a ≤ x ∧ x < a + 4 then UInt8.ofNat (v / 256 ^ (x - a)) else m x

/-- Store one byte. -/
def store8 (m : Mem) (a : ℕ) (b : UInt8) : Mem := fun x => if x = a then b else m x

/-- Copy `n` bytes from `src` to `dst`, the source read in the memory before the copy. -/
def copy (m : Mem) (dst src n : ℕ) : Mem := fun x =>
  if dst ≤ x ∧ x < dst + n then m (src + (x - dst)) else m x

/-- A word is below `2 ^ 32`. -/
theorem load32_lt (m : Mem) (a : ℕ) : load32 m a < 2 ^ 32 := by
  have h0 := (m a).toNat_lt
  have h1 := (m (a + 1)).toNat_lt
  have h2 := (m (a + 2)).toNat_lt
  have h3 := (m (a + 3)).toNat_lt
  unfold load32
  omega

/-- A word depends on its four bytes only. -/
theorem load32_congr (h : ∀ x, a ≤ x → x < a + 4 → m' x = m x) : load32 m' a = load32 m a := by
  unfold load32
  rw [h a (by omega) (by omega), h (a + 1) (by omega) (by omega), h (a + 2) (by omega) (by omega),
    h (a + 3) (by omega) (by omega)]

/-- A store changes its four bytes only. -/
theorem store32_apply_of_not_mem {x : ℕ} (h : x < a ∨ a + 4 ≤ x) : store32 m a v x = m x := by
  unfold store32
  rw [if_neg (by omega)]

/-- A stored word reads back modulo `2 ^ 32`. -/
theorem load32_store32 (m : Mem) (a v : ℕ) : load32 (store32 m a v) a = v % 2 ^ 32 := by
  have h0 : store32 m a v a = UInt8.ofNat v := by simp [store32]
  have h1 : store32 m a v (a + 1) = UInt8.ofNat (v / 256) := by simp [store32]
  have h2 : store32 m a v (a + 2) = UInt8.ofNat (v / 65536) := by simp [store32]
  have h3 : store32 m a v (a + 3) = UInt8.ofNat (v / 16777216) := by simp [store32]
  unfold load32
  rw [h0, h1, h2, h3]
  simp only [UInt8.toNat_ofNat']
  omega

/-- A stored word reads back. -/
theorem load32_store32_self (hv : v < 2 ^ 32) : load32 (store32 m a v) a = v := by
  rw [load32_store32, Nat.mod_eq_of_lt hv]

/-- A store leaves every disjoint word alone. -/
theorem load32_store32_of_disjoint (h : b + 4 ≤ a ∨ a + 4 ≤ b) :
    load32 (store32 m a v) b = load32 m b :=
  load32_congr fun _ _ _ => store32_apply_of_not_mem (by omega)

/-- Among aligned words, a store changes its own word only. -/
theorem load32_store32_of_ne (ha : a % 4 = 0) (hb : b % 4 = 0) (h : b ≠ a) :
    load32 (store32 m a v) b = load32 m b :=
  load32_store32_of_disjoint (by omega)

/-- A byte store changes its byte only. -/
theorem store8_apply_of_ne {x : ℕ} {y : UInt8} (h : x ≠ a) : store8 m a y x = m x := if_neg h

/-- A copy changes its destination only. -/
theorem copy_apply_of_not_mem {dst src n x : ℕ} (h : x < dst ∨ dst + n ≤ x) :
    copy m dst src n x = m x := by
  unfold copy
  rw [if_neg (by omega)]

end Mem

end SystemsLabs.Lib
