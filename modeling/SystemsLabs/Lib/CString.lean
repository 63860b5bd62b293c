import Mathlib.Algebra.Ring.Int.Defs
import Mathlib.Algebra.Ring.Nat
import Mathlib.Data.Int.Notation
import Mathlib.Data.List.Basic
import Mathlib.Data.List.TakeWhile
import Mathlib.Tactic.Common

/-!
# Strings in arrays of characters

A C string is what stands in an array in front of the first zero byte. Reading an array that has no
zero byte as a string, and writing past its end, is undefined, which is `none` here.

* `CBuf.string` — the string in an array.
* `CBuf.puts` — write a string to an array, with its zero byte.
* `CBuf.strncpy` — copy so many bytes of a string.
* `CBuf.isString`, `CBuf.isStringNoCase` — `strcmp` and `strcasecmp` with a constant, which look at
  no more bytes than the constant has.
* `strchr` — search a string for a byte.
* `CBuf.string_puts` — what has been written is read back.
-/

namespace SystemsLabs.Lib

/-- An array of `n` bytes. -/
structure CBuf (n : ℕ) where
  bytes : List UInt8
  length_eq : bytes.length = n
  deriving DecidableEq

/-- The bytes of a text. -/
def cbytes (s : String) : List UInt8 := s.toList.map fun c => UInt8.ofNat c.toNat

/-- `tolower` on the letters of ASCII. -/
def clower (b : UInt8) : UInt8 := if 65 ≤ b ∧ b ≤ 90 then b + 32 else b

/-- The bytes in front of the first zero byte. -/
def untilNul (s : List UInt8) : List UInt8 := s.takeWhile (· ≠ 0)

/-- A decimal digit. -/
def isDecimal (b : UInt8) : Bool := 48 ≤ b && b ≤ 57

/-- The value of a sequence of decimal digits. -/
def decimalValue (ds : List UInt8) : ℕ := ds.foldl (fun n b => 10 * n + (b.toNat - 48)) 0

/-- A number as a `long` of 64 bits, or the nearest number that a `long` holds. -/
def clampLong (n : ℤ) : ℤ := if n < -2 ^ 63 then -2 ^ 63 else if 2 ^ 63 ≤ n then 2 ^ 63 - 1 else n

/-- `strtol` in base ten: white space, a sign and digits, as many as there are. Without digits it is
zero. -/
def strtol (s : List UInt8) : ℤ :=
  let s := s.dropWhile fun b => b = 32 ∨ (9 ≤ b ∧ b ≤ 13)
  let neg := s.head? = some 45
  let s := if neg ∨ s.head? = some 43 then s.tail else s
  let n : ℕ := decimalValue (s.takeWhile isDecimal)
  clampLong (if neg then -n else n)

/-- `atoi`, as the C library defines it: `(int)strtol(s, NULL, 10)`, where the cast keeps the low 32
bits. -/
def atoi (s : List UInt8) : ℤ := (strtol s).bmod (2 ^ 32)

/-- `s` is the decimal numeral of `n`: digits, with a sign or without, and nothing else. -/
inductive Numeral : List UInt8 → ℤ → Prop
  | digits {ds : List UInt8} (hne : ds ≠ []) (hds : ∀ b ∈ ds, isDecimal b = true) :
    Numeral ds (decimalValue ds)
  | plus {ds : List UInt8} (hne : ds ≠ []) (hds : ∀ b ∈ ds, isDecimal b = true) :
    Numeral (43 :: ds) (decimalValue ds)
  | minus {ds : List UInt8} (hne : ds ≠ []) (hds : ∀ b ∈ ds, isDecimal b = true) :
    Numeral (45 :: ds) (-decimalValue ds)

/-- `strchr` for a byte other than zero: where this byte stands first in the string that starts at
index `i` of an array. -/
def strchr (array : List UInt8) (i : ℕ) (c : UInt8) : Option ℕ :=
  let s := untilNul (array.drop i)
  if c ∈ s then some (i + s.idxOf c) else none

namespace CBuf

variable {n : ℕ} {b : CBuf n} {s t : List UInt8}

/-- An array of zero bytes. -/
def zero (n : ℕ) : CBuf n := ⟨List.replicate n 0, List.length_replicate⟩

/-- Write bytes to the start of an array; those that do not fit are dropped. -/
def put (b : CBuf n) (s : List UInt8) : CBuf n where
  bytes := s.take n ++ b.bytes.drop s.length
  length_eq := by
    rw [List.length_append, List.length_take, List.length_drop, b.length_eq]
    omega

/-- The string in an array. -/
def string (b : CBuf n) : Option (List UInt8) :=
  if 0 ∈ b.bytes then some (untilNul b.bytes) else none

/-- Write a string to an array. -/
def puts (b : CBuf n) (s : List UInt8) : Option (CBuf n) :=
  if s.length < n then some (b.put (s ++ [0])) else none

/-- Write one byte. -/
def set (b : CBuf n) (i : ℕ) (c : UInt8) : CBuf n :=
  ⟨b.bytes.set i c, List.length_set.trans b.length_eq⟩

/-- `strncpy`: write the first `k` bytes of a string, or all of it and then zero bytes. -/
def strncpy (b : CBuf n) (s : List UInt8) (k : ℕ) : CBuf n :=
  let t := (untilNul s).take k
  b.put (t ++ List.replicate (k - t.length) 0)

/-- `strcmp` finds the string to be this one. -/
def isString (b : CBuf n) (s : List UInt8) : Bool := b.bytes.take (s.length + 1) = s ++ [0]

/-- `strcasecmp` finds the string to be this one, which is in small letters. -/
def isStringNoCase (b : CBuf n) (s : List UInt8) : Bool :=
  (b.bytes.take (s.length + 1)).map clower = s ++ [0]

end CBuf

/-! ## Strings -/

variable {n : ℕ} {b b' : CBuf n} {s t : List UInt8}

/-- The string ends at the first zero byte. -/
theorem untilNul_append (h : 0 ∉ s) (t : List UInt8) : untilNul (s ++ 0 :: t) = s := by
  have hs : ∀ x ∈ s, decide (x ≠ 0) = true := by
    rintro x hx
    exact decide_eq_true fun h0 => h (h0 ▸ hx)
  rw [untilNul, List.takeWhile_append_of_pos hs, List.takeWhile_cons_of_neg (by decide),
    List.append_nil]

/-- A zero byte ends the string, wherever it stands. -/
theorem untilNul_append_nul (s t : List UInt8) : untilNul (s ++ 0 :: t) = untilNul s := by
  induction s with
  | nil => rfl
  | cons x s ih =>
    unfold untilNul at ih ⊢
    rw [List.cons_append, List.takeWhile_cons, List.takeWhile_cons, ih]

/-- A string has no zero byte. -/
theorem not_mem_untilNul (s : List UInt8) : 0 ∉ untilNul s := by
  intro h
  exact absurd (List.mem_takeWhile_imp h) (by decide)

/-- Bytes without a zero byte are a string. -/
theorem untilNul_of_not_mem (h : 0 ∉ s) : untilNul s = s := by
  rw [untilNul, List.takeWhile_eq_self_iff]
  exact fun x hx => decide_eq_true fun h0 => h (h0 ▸ hx)

/-- Zero bytes behind a string do not belong to it. -/
theorem untilNul_append_replicate (h : 0 ∉ s) (k : ℕ) :
    untilNul (s ++ List.replicate k 0) = s := by
  cases k with
  | zero => rw [List.replicate_zero, List.append_nil, untilNul_of_not_mem h]
  | succ k => exact untilNul_append h _

/-- An array with a zero byte has one right behind its string. -/
theorem exists_eq_untilNul (h : 0 ∈ s) : ∃ t, s = untilNul s ++ 0 :: t := by
  induction s with
  | nil => exact absurd h List.not_mem_nil
  | cons x s ih =>
    unfold untilNul at ih ⊢
    by_cases hx : x = 0
    · subst hx
      exact ⟨s, by rw [List.takeWhile_cons_of_neg (by decide), List.nil_append]⟩
    · obtain ⟨t, ht⟩ := ih ((List.mem_cons.mp h).resolve_left (Ne.symm hx))
      refine ⟨t, ?_⟩
      rw [List.takeWhile_cons_of_pos (by simpa using hx), List.cons_append, ← ht]

/-- A byte that is not zero belongs to the string. -/
theorem untilNul_cons_of_ne {b : UInt8} (h : b ≠ 0) (s : List UInt8) :
    untilNul (b :: s) = b :: untilNul s := by
  unfold untilNul
  exact List.takeWhile_cons_of_pos (decide_eq_true h)

/-- Bytes without a zero byte belong to the string. -/
theorem untilNul_append_of_not_mem (h : 0 ∉ s) (t : List UInt8) :
    untilNul (s ++ t) = s ++ untilNul t := by
  unfold untilNul
  exact List.takeWhile_append_of_pos fun x hx => decide_eq_true fun h0 => h (h0 ▸ hx)

/-- A part of an array that has a zero byte holds the same string as the array. -/
theorem untilNul_take {k : ℕ} (h : 0 ∈ s.take k) : untilNul (s.take k) = untilNul s := by
  obtain ⟨t, ht⟩ := exists_eq_untilNul h
  have happend := List.take_append_drop k s
  rw [ht, List.append_assoc, List.cons_append] at happend
  have hnul := congrArg untilNul happend
  rwa [untilNul_append (not_mem_untilNul _)] at hnul

/-- Lower case keeps the end of a string. -/
theorem clower_eq_zero_iff {b : UInt8} : clower b = 0 ↔ b = 0 := by
  unfold clower
  split_ifs with h
  · refine iff_of_false (fun h0 => ?_) ?_
    · have hnat := congrArg UInt8.toNat h0
      have hle : b.toNat ≤ 90 := h.2
      rw [UInt8.toNat_add] at hnat
      change (b.toNat + 32) % 256 = 0 at hnat
      omega
    · rintro rfl
      exact absurd h.1 (by decide)
  · exact Iff.rfl

/-- Lower case keeps the extent of a string. -/
theorem untilNul_map_clower (s : List UInt8) :
    untilNul (s.map clower) = (untilNul s).map clower := by
  induction s with
  | nil => rfl
  | cons b s ih =>
    by_cases hb : b = 0
    · subst hb
      rfl
    · rw [untilNul_cons_of_ne hb, List.map_cons, List.map_cons, ← ih]
      exact untilNul_cons_of_ne (mt clower_eq_zero_iff.mp hb) _

/-! ## Numbers -/

/-- The bytes from `0` to `9`. -/
theorem isDecimal_iff {b : UInt8} : isDecimal b = true ↔ 48 ≤ b ∧ b ≤ 57 := by
  rw [isDecimal, Bool.and_eq_true, decide_eq_true_eq, decide_eq_true_eq]

/-- An `int` is a `long`. -/
theorem clampLong_of_int {n : ℤ} (hlo : -2 ^ 31 ≤ n) (hhi : n < 2 ^ 31) : clampLong n = n := by
  unfold clampLong
  rw [if_neg (by omega), if_neg (by omega)]

/-- The cast to `int` keeps an `int`. -/
theorem bmod_of_int {n : ℤ} (hlo : -2 ^ 31 ≤ n) (hhi : n < 2 ^ 31) : n.bmod (2 ^ 32) = n :=
  Int.bmod_eq_of_le (by omega) (by omega)

/-- `atoi` gives an `int`. -/
theorem atoi_range (s : List UInt8) : -2 ^ 31 ≤ atoi s ∧ atoi s < 2 ^ 31 := by
  have hlo := Int.le_bmod (x := strtol s) (m := 2 ^ 32) (by decide)
  have hhi := Int.bmod_lt (x := strtol s) (m := 2 ^ 32) (by decide)
  unfold atoi
  omega

/-- A digit is neither white space nor a sign. -/
theorem isDecimal_ne {d : UInt8} (h : isDecimal d = true) :
    ¬ (d = 32 ∨ (9 ≤ d ∧ d ≤ 13)) ∧ d ≠ 45 ∧ d ≠ 43 := by
  obtain ⟨hlo, -⟩ := isDecimal_iff.mp h
  refine ⟨?_, ?_, ?_⟩
  · rintro (rfl | ⟨-, hle⟩)
    · exact absurd hlo (by decide)
    · exact absurd (UInt8.le_trans hlo hle) (by decide)
  · rintro rfl
    exact absurd hlo (by decide)
  · rintro rfl
    exact absurd hlo (by decide)

/-- The digits at the start of a string. -/
theorem takeWhile_digits {ds : List UInt8} (hds : ∀ b ∈ ds, isDecimal b = true)
    (ht : ∀ b ∈ t.head?, isDecimal b = false) : (ds ++ t).takeWhile isDecimal = ds := by
  rw [List.takeWhile_append_of_pos hds]
  cases t with
  | nil => exact List.append_nil _
  | cons b t =>
    rw [List.takeWhile_cons_of_neg (Bool.eq_false_iff.mp (ht b rfl)), List.append_nil]

/-- `strtol` reads the digits at the start of a string. -/
theorem strtol_digits {ds : List UInt8} (hne : ds ≠ []) (hds : ∀ b ∈ ds, isDecimal b = true)
    (ht : ∀ b ∈ t.head?, isDecimal b = false) :
    strtol (ds ++ t) = clampLong (decimalValue ds) := by
  have htake := takeWhile_digits hds ht
  obtain ⟨d, ds, rfl⟩ := List.exists_cons_of_ne_nil hne
  obtain ⟨hspace, hminus, hplus⟩ := isDecimal_ne (hds d List.mem_cons_self)
  unfold strtol
  rw [List.cons_append] at htake ⊢
  rw [List.dropWhile_cons_of_neg (by rwa [decide_eq_true_eq])]
  simp only [List.head?_cons, Option.some.injEq, hminus, hplus, or_self, if_false, htake]

/-- `strtol` reads a sign and digits. -/
theorem strtol_sign {sign : UInt8} (hsign : sign = 45 ∨ sign = 43) {ds : List UInt8}
    (hds : ∀ b ∈ ds, isDecimal b = true) :
    strtol (sign :: ds) = clampLong (if sign = 45 then -decimalValue ds else decimalValue ds) := by
  have hspace : ¬ (sign = 32 ∨ (9 ≤ sign ∧ sign ≤ 13)) := by
    rcases hsign with rfl | rfl <;> decide
  have htake : ds.takeWhile isDecimal = ds := List.takeWhile_eq_self_iff.mpr hds
  unfold strtol
  rw [List.dropWhile_cons_of_neg (by rwa [decide_eq_true_eq])]
  simp only [List.head?_cons, Option.some.injEq, hsign, if_true, List.tail_cons, htake]

/-- **`atoi`** reads the digits at the start of a string. -/
theorem atoi_digits {ds : List UInt8} (hne : ds ≠ []) (hds : ∀ b ∈ ds, isDecimal b = true)
    (ht : ∀ b ∈ t.head?, isDecimal b = false) (hlt : decimalValue ds < 2 ^ 31) :
    atoi (ds ++ t) = decimalValue ds := by
  have hlo : -2 ^ 31 ≤ (decimalValue ds : ℤ) := by omega
  have hhi : (decimalValue ds : ℤ) < 2 ^ 31 := by omega
  unfold atoi
  rw [strtol_digits hne hds ht, clampLong_of_int hlo hhi, bmod_of_int hlo hhi]

/-- **`atoi`** reads the numeral of an `int`. -/
theorem Numeral.atoi_eq {n : ℤ} (h : Numeral s n) (hlo : -2 ^ 31 ≤ n) (hhi : n < 2 ^ 31) :
    atoi s = n := by
  have hstrtol : strtol s = clampLong n := by
    cases h with
    | digits hne hds => simpa using strtol_digits (t := []) hne hds nofun
    | plus hne hds => exact strtol_sign (.inr rfl) hds
    | minus hne hds => exact strtol_sign (.inl rfl) hds
  unfold atoi
  rw [hstrtol, clampLong_of_int hlo hhi, bmod_of_int hlo hhi]

/-- A number that an `int` does not hold: the cast keeps the low 32 bits of a number. -/
example : atoi (cbytes "4294967297") = 1 := by decide +kernel

/-! ## Search -/

variable {c : UInt8}

/-- `strchr` finds a byte behind a part of the string in which it is not. -/
theorem strchr_append (hc : c ≠ 0) (h0 : 0 ∉ s) (hs : c ∉ s) (l t : List UInt8) :
    strchr (l ++ (s ++ c :: t)) l.length c = some (l.length + s.length) := by
  unfold strchr
  rw [List.drop_left, untilNul_append_of_not_mem h0, untilNul_cons_of_ne hc]
  have hidx : (s ++ c :: untilNul t).idxOf c = s.length := by
    rw [List.idxOf_append_of_notMem hs, List.idxOf_cons_self, Nat.add_zero]
  rw [if_pos (List.mem_append_right s List.mem_cons_self), hidx]

/-- `strchr` looks no further than the string. -/
theorem strchr_eq_none (h0 : 0 ∉ s) (hs : c ∉ s) (l t : List UInt8) :
    strchr (l ++ (s ++ 0 :: t)) l.length c = none := by
  unfold strchr
  rw [List.drop_left, untilNul_append h0]
  exact if_neg hs

namespace CBuf

/-- An array holds a string if it has a zero byte. -/
theorem string_eq_some_iff : b.string = some s ↔ 0 ∈ b.bytes ∧ untilNul b.bytes = s := by
  unfold string
  split_ifs with h
  · rw [Option.some.injEq, and_iff_right h]
  · exact iff_of_false (fun h => nomatch h) fun h' => h h'.1

/-- The string of an array has no zero byte. -/
theorem not_mem_of_string (h : b.string = some s) : 0 ∉ s :=
  (string_eq_some_iff.mp h).2 ▸ not_mem_untilNul _

/-- The string stands at the start of the array. -/
theorem exists_bytes_of_string (h : b.string = some s) : ∃ t, b.bytes = s ++ 0 :: t := by
  obtain ⟨hmem, rfl⟩ := string_eq_some_iff.mp h
  exact exists_eq_untilNul hmem

/-- There is room for the zero byte. -/
theorem length_lt_of_string (h : b.string = some s) : s.length < n := by
  obtain ⟨hmem, rfl⟩ := string_eq_some_iff.mp h
  obtain ⟨t, ht⟩ := exists_eq_untilNul hmem
  have hlen := congrArg List.length ht
  rw [b.length_eq, List.length_append, List.length_cons] at hlen
  omega

/-- The bytes of an array that has been written to. -/
theorem bytes_put (h : s.length ≤ n) : (b.put s).bytes = s ++ b.bytes.drop s.length := by
  change s.take n ++ _ = _
  rw [List.take_of_length_le h]

/-- Nothing is written. -/
@[simp] theorem put_nil (b : CBuf n) : b.put [] = b := by
  obtain ⟨bytes, rfl⟩ := b
  simp [put]

/-- The string in an array to which a zero byte has been written. -/
theorem string_put (h : s.length < n) : (b.put (s ++ [0])).string = some (untilNul s) := by
  have hlen : (s ++ [0]).length ≤ n := by
    rw [List.length_append]
    exact h
  refine string_eq_some_iff.mpr ⟨?_, ?_⟩
  · rw [bytes_put hlen]
    simp
  · rw [bytes_put hlen, List.append_assoc]
    exact untilNul_append_nul s _

/-- A string is copied if its zero byte fits. -/
theorem puts_eq_some_iff : b.puts s = some b' ↔ s.length < n ∧ b.put (s ++ [0]) = b' := by
  unfold puts
  split_ifs with h
  · rw [Option.some.injEq, and_iff_right h]
  · exact iff_of_false (fun h => nomatch h) fun h' => h h'.1

/-- **What has been written is read back.** -/
theorem string_puts (h : b.puts s = some b') (hs : 0 ∉ s) : b'.string = some s := by
  obtain ⟨hlt, rfl⟩ := puts_eq_some_iff.mp h
  rw [string_put hlt, untilNul_of_not_mem hs]

/-- A zero byte cuts the string in an array. -/
theorem string_set {k : ℕ} (h : k < n) (b : CBuf n) :
    (b.set k 0).string = some (untilNul (b.bytes.take k)) := by
  have hset : (b.set k 0).bytes = b.bytes.take k ++ 0 :: b.bytes.drop (k + 1) := by
    change b.bytes.set k 0 = _
    rw [List.set_eq_take_append_cons_drop, if_pos (by rw [b.length_eq]; exact h)]
  rw [string_eq_some_iff, hset]
  exact ⟨by simp, untilNul_append_nul _ _⟩

/-- What `strncpy` leaves in front of the last byte: the string, filled up with zero bytes. -/
theorem take_strncpy {k : ℕ} (h : k < n) (b : CBuf n) (s : List UInt8) :
    (b.strncpy s (k + 1)).bytes.take k =
      (untilNul s).take k ++ List.replicate (k - (untilNul s).length) 0 := by
  have hlen : ((untilNul s).take (k + 1) ++
      List.replicate (k + 1 - ((untilNul s).take (k + 1)).length) 0).length = k + 1 := by
    rw [List.length_append, List.length_replicate, List.length_take]
    omega
  rw [strncpy, bytes_put (by omega), List.take_append_of_le_length (by omega), List.take_append,
    List.take_take, List.take_replicate, List.length_take]
  congr 2 <;> omega

/-- **`strncpy`, and a zero byte behind.** A string that is too long is cut. -/
theorem string_strncpy_set {k : ℕ} (h : k < n) (b : CBuf n) (s : List UInt8) :
    ((b.strncpy s (k + 1)).set k 0).string = some ((untilNul s).take k) := by
  rw [string_set h, take_strncpy h, untilNul_append_replicate]
  intro hmem
  exact not_mem_untilNul s (List.mem_of_mem_take hmem)

/-- `strcmp` finds an array to hold a string iff it does. -/
theorem isString_iff (ht : 0 ∉ t) : b.isString t = true ↔ b.string = some t := by
  rw [isString, decide_eq_true_iff, string_eq_some_iff]
  constructor
  · intro h
    have hbytes : b.bytes = t ++ 0 :: b.bytes.drop (t.length + 1) := by
      rw [← List.singleton_append, ← List.append_assoc, ← h, List.take_append_drop]
    rw [hbytes]
    exact ⟨by simp, untilNul_append ht _⟩
  · rintro ⟨hmem, rfl⟩
    obtain ⟨r, hr⟩ := exists_eq_untilNul hmem
    generalize untilNul b.bytes = t at hr
    rw [hr, List.take_append, List.take_of_length_le (Nat.le_succ _), Nat.add_sub_cancel_left]
    rfl

/-- `strcasecmp` finds a string to be this one iff it is, in any letter case. -/
theorem isStringNoCase_iff (hs : b.string = some s) (ht : 0 ∉ t) :
    b.isStringNoCase t = true ↔ s.map clower = t := by
  obtain ⟨hmem, rfl⟩ := string_eq_some_iff.mp hs
  rw [isStringNoCase, decide_eq_true_iff]
  constructor
  · intro h
    have h0 : 0 ∈ b.bytes.take (t.length + 1) := by
      have hlast : (0 : UInt8) ∈ (b.bytes.take (t.length + 1)).map clower := by
        rw [h]
        simp
      obtain ⟨x, hx, hx0⟩ := List.mem_map.mp hlast
      rwa [clower_eq_zero_iff.mp hx0] at hx
    rw [← untilNul_take h0, ← untilNul_map_clower, h, untilNul_append ht]
  · rintro rfl
    obtain ⟨r, hr⟩ := exists_eq_untilNul hmem
    generalize untilNul b.bytes = u at hr ⊢
    rw [hr, List.length_map, ← List.singleton_append, ← List.append_assoc,
      List.take_left' (by simp), List.map_append]
    rfl

/-- `strcasecmp` finds an array to hold this string iff it does, in any letter case. -/
theorem isStringNoCase_eq_true_iff (ht : 0 ∉ t) :
    b.isStringNoCase t = true ↔ ∃ s, b.string = some s ∧ s.map clower = t := by
  constructor
  · intro h
    have hmem : 0 ∈ b.bytes := by
      rw [isStringNoCase, decide_eq_true_iff] at h
      have hlast : (0 : UInt8) ∈ (b.bytes.take (t.length + 1)).map clower := by
        rw [h]
        simp
      obtain ⟨x, hx, hx0⟩ := List.mem_map.mp hlast
      exact clower_eq_zero_iff.mp hx0 ▸ List.mem_of_mem_take hx
    have hs := string_eq_some_iff.mpr ⟨hmem, rfl⟩
    exact ⟨_, hs, (isStringNoCase_iff hs ht).mp h⟩
  · rintro ⟨s, hs, hst⟩
    exact (isStringNoCase_iff hs ht).mpr hst

end CBuf

end SystemsLabs.Lib
