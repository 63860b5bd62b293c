import Mathlib.Algebra.Ring.Nat
import Mathlib.Data.Int.Notation
import Mathlib.Data.List.Basic
import Mathlib.Tactic.Common

/-!
# Formatted input

`scanf` as in the C standard: the directives of a format are carried out in order, each on what the
ones before it have left, until one fails.

* `Directive.run` — one directive. White space in a format matches any amount of white space, also
  none; conversions of strings and numbers skip white space first and take the longest input that
  can be (the start of) a value.
* `scanf` — the directives of a format: the values that are stored, how it ended, and the rest.
* `Scan.count` — what `scanf` returns.
* `hex_run`, `dec_run` — the digits of a number are read back as its value.
* `str_run` — a word is read up to the white space behind it.
* `str_sublist` — a string that has been read is a part of the input.

**Scope.** The C locale, no field widths, and the conversions `%c`, `%s`, `%x` and `%d` only. A
prefix `0x` without a digit behind it does not match, as in the standard.
-/

namespace SystemsLabs.Lib.Scanf

/-! ## Characters -/

/-- `isspace` in the C locale. -/
def isSpace (c : Char) : Bool := c == ' ' || (9 ≤ c.toNat && c.toNat ≤ 13)

/-- The value of a hexadecimal digit, and 16 for any other character. -/
def digitValue (c : Char) : ℕ :=
  if '0' ≤ c ∧ c ≤ '9' then c.toNat - 48
  else if 'a' ≤ c ∧ c ≤ 'f' then c.toNat - 87
  else if 'A' ≤ c ∧ c ≤ 'F' then c.toNat - 55
  else 16

/-- A digit of a number in base 10 or 16. -/
def isDigit (base : ℕ) (c : Char) : Bool := digitValue c < min base 16

/-- The value of a sequence of digits. -/
def value (base : ℕ) (ds : List Char) : ℕ := ds.foldl (fun n c => base * n + digitValue c) 0

/-! ## Directives -/

/-- The directives of a format. -/
inductive Directive
  /-- White space. -/
  | space
  /-- Any other character. -/
  | lit (c : Char)
  /-- `%c`. -/
  | char
  /-- `%s`. -/
  | str
  /-- `%llx`. -/
  | hex
  /-- `%d`. -/
  | dec

/-- A value that a conversion stores. -/
inductive Item
  | char (c : Char)
  | str (s : List Char)
  | hex (w : BitVec 64)
  | dec (n : ℤ)
  deriving DecidableEq

/-- Why a directive fails: the input has ended, or is not what the directive asks for. -/
inductive Failure
  | input
  | matching
  deriving DecidableEq

/-- What a directive stores and leaves, or how it fails and what it leaves. -/
abbrev Result : Type := Except (Failure × List Char) (List Item × List Char)

/-- An optional sign. -/
def sign : List Char → Bool × List Char
  | '+' :: s => (false, s)
  | '-' :: s => (true, s)
  | s => (false, s)

/-- The optional prefix of a hexadecimal number. -/
def hexPrefix : List Char → List Char
  | '0' :: 'x' :: s => s
  | '0' :: 'X' :: s => s
  | s => s

/-- Convert the digits that come next. -/
def digits (base : ℕ) (item : ℕ → Item) (s : List Char) : Result :=
  let ds := s.takeWhile (isDigit base)
  if ds = [] then .error (.matching, s)
  else .ok ([item (value base ds)], s.dropWhile (isDigit base))

/-- `strtoull` on the digits of a number with a sign or without: a number that does not fit 64 bits
gives the largest one, whatever its sign. -/
def strtoull (neg : Bool) (n : ℕ) : BitVec 64 :=
  if 2 ^ 64 ≤ n then BitVec.allOnes 64
  else if neg then -BitVec.ofNat 64 n else BitVec.ofNat 64 n

/-- Carry out a directive. A number that does not fit its type is undefined in the C standard; a
hexadecimal one is what the C library makes of it (`strtoull`), and a decimal one is kept. -/
def Directive.run : Directive → List Char → Result
  | .space, s => .ok ([], s.dropWhile isSpace)
  | .lit _, [] => .error (.input, [])
  | .lit c, x :: s => if x = c then .ok ([], s) else .error (.matching, x :: s)
  | .char, [] => .error (.input, [])
  | .char, x :: s => .ok ([.char x], s)
  | .str, s =>
    match s.dropWhile isSpace with
    | [] => .error (.input, [])
    | s => .ok ([.str (s.takeWhile fun c => !isSpace c)], s.dropWhile fun c => !isSpace c)
  | .hex, s =>
    match s.dropWhile isSpace with
    | [] => .error (.input, [])
    | s =>
      let (neg, s) := sign s
      digits 16 (fun n => .hex (strtoull neg n)) (hexPrefix s)
  | .dec, s =>
    match s.dropWhile isSpace with
    | [] => .error (.input, [])
    | s =>
      let (neg, s) := sign s
      digits 10 (fun n => .dec (if neg then -n else n)) s

/-! ## Formats -/

/-- What a call of `scanf` does. -/
structure Scan where
  items : List Item
  failure : Option Failure
  rest : List Char

/-- The values that have been stored before come first. -/
def Scan.after (r : Scan) (items : List Item) : Scan := { r with items := items ++ r.items }

/-- Carry out the directives of a format, up to the first that fails. -/
def scanf : List Directive → List Char → Scan
  | [], s => ⟨[], none, s⟩
  | d :: ds, s =>
    match d.run s with
    | .error (failure, rest) => ⟨[], some failure, rest⟩
    | .ok (items, s) => (scanf ds s).after items

/-- `EOF`. -/
abbrev eof : ℤ := -1

/-- The number of values stored, or `EOF` if the input ends before the first of them. -/
def Scan.count (r : Scan) : ℤ :=
  if r.items = [] ∧ r.failure = some .input then eof else r.items.length

variable {base : ℕ} {c : Char} {ds s sp rest : List Char} {d : Directive} {fmt : List Directive}
  {items : List Item} {p : Char → Bool}

/-- A directive that matches goes on with the next one. -/
theorem scanf_cons (h : d.run s = .ok (items, rest)) :
    scanf (d :: fmt) s = (scanf fmt rest).after items := by
  rw [scanf, h]

/-! ## What the directives do -/

/-- The input does not go on with such a character. -/
def Stops (p : Char → Bool) (s : List Char) : Prop := ∀ c ∈ s.head?, p c = false

/-- Nothing belongs to the number. -/
theorem takeWhile_of_stops (h : Stops p s) : s.takeWhile p = [] := by
  cases s with
  | nil => rfl
  | cons c s => rw [List.takeWhile_cons_of_neg (Bool.eq_false_iff.mp (h c rfl))]

/-- Nothing is passed over. -/
theorem dropWhile_of_stops (h : Stops p s) : s.dropWhile p = s := by
  cases s with
  | nil => rfl
  | cons c s => rw [List.dropWhile_cons_of_neg (Bool.eq_false_iff.mp (h c rfl))]

/-- What stops at once stops in front of anything. -/
theorem stops_append (hds : ∀ c ∈ ds, p c = false) (h : Stops p s) : Stops p (ds ++ s) := by
  cases ds with
  | nil => exact h
  | cons c ds =>
    intro x hx
    obtain rfl := Option.some.inj hx
    exact hds c List.mem_cons_self

/-- The digits end where no digit follows. -/
theorem takeWhile_append (hds : ∀ c ∈ ds, p c = true) (h : Stops p s) :
    (ds ++ s).takeWhile p = ds := by
  rw [List.takeWhile_append_of_pos hds, takeWhile_of_stops h, List.append_nil]

/-- Exactly the digits are passed over. -/
theorem dropWhile_append (hds : ∀ c ∈ ds, p c = true) (h : Stops p s) :
    (ds ++ s).dropWhile p = s := by
  rw [List.dropWhile_append_of_pos hds, dropWhile_of_stops h]

/-- White space is passed over. -/
theorem space_run (s : List Char) : Directive.space.run s = .ok ([], s.dropWhile isSpace) := rfl

/-- A character matches itself. -/
theorem lit_run (c : Char) (s : List Char) : (Directive.lit c).run (c :: s) = .ok ([], s) :=
  if_pos rfl

/-- `%c` takes any character. -/
theorem char_run (c : Char) (s : List Char) : Directive.char.run (c :: s) = .ok ([.char c], s) :=
  rfl

/-- A digit is neither white space nor a sign, nor the letter of a prefix. -/
theorem digit_cases (h : isDigit base c = true) :
    isSpace c = false ∧ c ≠ '+' ∧ c ≠ '-' ∧ c ≠ 'x' ∧ c ≠ 'X' := by
  have hlt : digitValue c < 16 := Nat.lt_of_lt_of_le (of_decide_eq_true h) (Nat.min_le_right _ _)
  have hne : ∀ x, ¬ digitValue x < 16 → c ≠ x := by
    rintro x hx rfl
    exact hx hlt
  refine ⟨Bool.eq_false_iff.mpr fun hspace => ?_, hne _ (by decide), hne _ (by decide),
    hne _ (by decide), hne _ (by decide)⟩
  -- the characters below '0' are no digits
  have hnat : c.toNat < 48 := by
    rcases Bool.or_eq_true_iff.mp hspace with hc | hc
    · rw [eq_of_beq hc]
      decide
    · have := of_decide_eq_true (Bool.and_eq_true_iff.mp hc).2
      omega
  have hle : ∀ x : Char, 48 ≤ x.toNat → ¬ x ≤ c := by
    intro x hx hxc
    have : x.toNat ≤ c.toNat := hxc
    omega
  unfold digitValue at hlt
  rw [if_neg fun h => hle '0' (by decide) h.1, if_neg fun h => hle 'a' (by decide) h.1,
    if_neg fun h => hle 'A' (by decide) h.1] at hlt
  exact Nat.lt_irrefl 16 hlt

/-- A digit is no sign. -/
theorem sign_of_digit (h : isDigit base c = true) : sign (c :: s) = (false, c :: s) := by
  obtain ⟨-, hplus, hminus, -⟩ := digit_cases h
  unfold sign
  split
  · next heq => exact absurd (List.cons.inj heq).1 hplus
  · next heq => exact absurd (List.cons.inj heq).1 hminus
  · rfl

/-- Digits with nothing else behind them have no prefix. -/
theorem hexPrefix_of_digits (hds : ∀ c ∈ ds, isDigit 16 c = true)
    (hs : Stops (fun c => c == 'x' || c == 'X') s) : hexPrefix (c :: ds ++ s) = c :: ds ++ s := by
  have hstops : Stops (fun c => c == 'x' || c == 'X') (ds ++ s) := by
    apply stops_append _ hs
    intro c hc
    obtain ⟨-, -, -, hx, hX⟩ := digit_cases (hds c hc)
    rw [beq_eq_false_iff_ne.mpr hx, beq_eq_false_iff_ne.mpr hX]
    rfl
  rw [List.cons_append]
  unfold hexPrefix
  split
  · next heq =>
    rw [(List.cons.inj heq).2] at hstops
    exact absurd (hstops 'x' rfl) (by decide)
  · next heq =>
    rw [(List.cons.inj heq).2] at hstops
    exact absurd (hstops 'X' rfl) (by decide)
  · rfl

/-- A number ends where no digit follows. -/
theorem digits_append {item : ℕ → Item} (hne : ds ≠ []) (hds : ∀ c ∈ ds, isDigit base c = true)
    (hs : Stops (isDigit base) s) :
    digits base item (ds ++ s) = .ok ([item (value base ds)], s) := by
  unfold digits
  dsimp only
  rw [takeWhile_append hds hs, dropWhile_append hds hs, if_neg hne]

/-- White space and digits: no white space is left. -/
theorem dropWhile_digits (hsp : ∀ c ∈ sp, isSpace c = true) (hc : isDigit base c = true) :
    (sp ++ c :: s).dropWhile isSpace = c :: s := by
  refine dropWhile_append hsp fun x hx => ?_
  obtain rfl := Option.some.inj hx
  exact (digit_cases hc).1

/-- A number that fits 64 bits is kept. -/
theorem strtoull_of_lt {n : ℕ} (h : n < 2 ^ 64) : strtoull false n = BitVec.ofNat 64 n :=
  if_neg (Nat.not_le.mpr h)

/-- The low 32 bits of what `strtoull` returns are no more than the number. -/
theorem toNat_strtoull_le (n : ℕ) : ((strtoull false n).setWidth 32).toNat ≤ n := by
  rcases Nat.lt_or_ge n (2 ^ 64) with hlt | hge
  · rw [strtoull_of_lt hlt, BitVec.toNat_setWidth, BitVec.toNat_ofNat]
    exact Nat.le_trans (Nat.mod_le _ _) (Nat.mod_le _ _)
  · have hword := ((strtoull false n).setWidth 32).isLt
    omega

/-- **Hexadecimal numbers.** -/
theorem hex_run (hsp : ∀ c ∈ sp, isSpace c = true) (hne : ds ≠ [])
    (hds : ∀ c ∈ ds, isDigit 16 c = true) (hs : Stops (isDigit 16) s)
    (hx : Stops (fun c => c == 'x' || c == 'X') s) :
    Directive.hex.run (sp ++ (ds ++ s)) = .ok ([.hex (strtoull false (value 16 ds))], s) := by
  obtain ⟨c, ds, rfl⟩ := List.exists_cons_of_ne_nil hne
  have hc := hds c List.mem_cons_self
  rw [Directive.run, List.cons_append, dropWhile_digits hsp hc]
  dsimp only
  rw [sign_of_digit hc]
  dsimp only
  rw [← List.cons_append, hexPrefix_of_digits (fun c hc => hds c (List.mem_cons_of_mem _ hc)) hx,
    digits_append hne hds hs]

/-- **Decimal numbers.** -/
theorem dec_run (hsp : ∀ c ∈ sp, isSpace c = true) (hne : ds ≠ [])
    (hds : ∀ c ∈ ds, isDigit 10 c = true) (hs : Stops (isDigit 10) s) :
    Directive.dec.run (sp ++ (ds ++ s)) = .ok ([.dec (value 10 ds)], s) := by
  obtain ⟨c, ds, rfl⟩ := List.exists_cons_of_ne_nil hne
  have hc := hds c List.mem_cons_self
  rw [Directive.run, List.cons_append, dropWhile_digits hsp hc]
  dsimp only
  rw [sign_of_digit hc]
  dsimp only
  rw [← List.cons_append, digits_append hne hds hs]
  rfl

/-! ## Strings -/

/-- A number is one item, and is taken from the input. -/
theorem sublist_digits {item : ℕ → Item} (h : digits base item s = .ok (items, rest)) :
    (∃ n, items = [item n]) ∧ rest.Sublist s := by
  unfold digits at h
  dsimp only at h
  split_ifs at h
  obtain ⟨rfl, rfl⟩ := Prod.mk.inj (Except.ok.inj h)
  exact ⟨⟨_, rfl⟩, List.dropWhile_sublist _⟩

/-- A sign is taken from the input. -/
theorem sign_sublist (s : List Char) : (sign s).2.Sublist s := by
  unfold sign
  split
  · exact List.sublist_cons_self _ _
  · exact List.sublist_cons_self _ _
  · exact List.Sublist.refl _

/-- The prefix `0x` is taken from the input. -/
theorem hexPrefix_sublist (s : List Char) : (hexPrefix s).Sublist s := by
  unfold hexPrefix
  split
  · exact List.sublist_append_right ['0', 'x'] _
  · exact List.sublist_append_right ['0', 'X'] _
  · exact List.Sublist.refl _

/-- A directive leaves a part of what there was, and a string is a part of the input. -/
theorem sublist_run (h : d.run s = .ok (items, rest)) :
    rest.Sublist s ∧ ∀ t, .str t ∈ items → t.Sublist s := by
  have hdrop := List.dropWhile_sublist (l := s) isSpace
  unfold Directive.run at h
  split at h
  · obtain ⟨rfl, rfl⟩ := Prod.mk.inj (Except.ok.inj h)
    exact ⟨hdrop, fun t ht => absurd ht List.not_mem_nil⟩
  · cases h
  · split_ifs at h
    obtain ⟨rfl, rfl⟩ := Prod.mk.inj (Except.ok.inj h)
    exact ⟨List.sublist_cons_self _ _, fun t ht => absurd ht List.not_mem_nil⟩
  · cases h
  · obtain ⟨rfl, rfl⟩ := Prod.mk.inj (Except.ok.inj h)
    exact ⟨List.sublist_cons_self _ _, fun t ht => by simp at ht⟩
  · split at h
    · cases h
    · obtain ⟨rfl, rfl⟩ := Prod.mk.inj (Except.ok.inj h)
      refine ⟨(List.dropWhile_sublist _).trans hdrop, fun t ht => ?_⟩
      obtain rfl := Item.str.inj (List.mem_singleton.mp ht)
      exact (List.takeWhile_sublist _).trans hdrop
  · split at h
    · cases h
    · obtain ⟨⟨n, rfl⟩, hsub⟩ := sublist_digits h
      refine ⟨?_, fun t ht => by simp at ht⟩
      exact hsub.trans ((hexPrefix_sublist _).trans ((sign_sublist _).trans hdrop))
  · split at h
    · cases h
    · obtain ⟨⟨n, rfl⟩, hsub⟩ := sublist_digits h
      exact ⟨hsub.trans ((sign_sublist _).trans hdrop), fun t ht => by simp at ht⟩

/-- What a directive that fails leaves is a part of the input as well. -/
theorem sublist_of_run_eq_error {failure : Failure} (h : d.run s = .error (failure, rest)) :
    rest.Sublist s := by
  have hdrop := List.dropWhile_sublist (l := s) isSpace
  have hdigits : ∀ {base item} {l : List Char}, digits base item l = .error (failure, rest) →
      rest = l := by
    intro base item l h
    unfold digits at h
    dsimp only at h
    split_ifs at h
    exact (Prod.mk.inj (Except.error.inj h)).2.symm
  unfold Directive.run at h
  split at h
  · cases h
  · exact (Prod.mk.inj (Except.error.inj h)).2 ▸ List.nil_sublist _
  · split_ifs at h
    exact (Prod.mk.inj (Except.error.inj h)).2 ▸ List.Sublist.refl _
  · exact (Prod.mk.inj (Except.error.inj h)).2 ▸ List.nil_sublist _
  · cases h
  · split at h
    · exact (Prod.mk.inj (Except.error.inj h)).2 ▸ List.nil_sublist _
    · cases h
  · split at h
    · exact (Prod.mk.inj (Except.error.inj h)).2 ▸ List.nil_sublist _
    · rw [hdigits h]
      exact (hexPrefix_sublist _).trans ((sign_sublist _).trans hdrop)
  · split at h
    · exact (Prod.mk.inj (Except.error.inj h)).2 ▸ List.nil_sublist _
    · rw [hdigits h]
      exact (sign_sublist _).trans hdrop

/-- What a format leaves is a part of the input. -/
theorem scanf_sublist (fmt : List Directive) (s : List Char) : (scanf fmt s).rest.Sublist s := by
  induction fmt generalizing s with
  | nil => exact List.Sublist.refl s
  | cons d fmt ih =>
    cases hrun : d.run s with
    | error e =>
      rw [scanf, hrun]
      exact sublist_of_run_eq_error hrun
    | ok r =>
      rw [scanf_cons hrun]
      exact (ih r.2).trans (sublist_run hrun).1

/-- A word takes at least one character. -/
theorem str_run_length_lt (h : Directive.str.run s = .ok (items, rest)) :
    rest.length < s.length := by
  have hle := (List.dropWhile_sublist (l := s) isSpace).length_le
  unfold Directive.run at h
  dsimp only at h
  cases hs : s.dropWhile isSpace with
  | nil =>
    rw [hs] at h
    cases h
  | cons c l =>
    rw [hs] at h hle
    obtain ⟨-, rfl⟩ := Prod.mk.inj (Except.ok.inj h)
    have hc : (!isSpace c) = true := by
      have hne : s.dropWhile isSpace ≠ [] := hs ▸ List.cons_ne_nil c l
      have hhead := List.head_dropWhile_not isSpace hne
      simp only [hs, List.head_cons] at hhead
      rw [hhead]
      rfl
    rw [List.dropWhile_cons_of_pos (p := fun c => !isSpace c) hc]
    have := (List.dropWhile_sublist (l := l) fun c => !isSpace c).length_le
    rw [List.length_cons] at hle
    omega

/-- White space in front of a word is skipped. -/
theorem str_run_append (hsp : ∀ c ∈ sp, isSpace c = true) (s : List Char) :
    Directive.str.run (sp ++ s) = Directive.str.run s := by
  unfold Directive.run
  dsimp only
  rw [List.dropWhile_append_of_pos hsp]

/-- **Words.** A string is read up to the white space behind it. -/
theorem str_run {w : List Char} (hne : w ≠ []) (hw : ∀ c ∈ w, isSpace c = false)
    (hs : Stops (fun c => !isSpace c) s) : Directive.str.run (w ++ s) = .ok ([.str w], s) := by
  have hw' : ∀ c ∈ w, (!isSpace c) = true := fun c hc => by rw [hw c hc]; rfl
  have hskip : (w ++ s).dropWhile isSpace = w ++ s := by
    obtain ⟨c, w, rfl⟩ := List.exists_cons_of_ne_nil hne
    exact List.dropWhile_cons_of_neg (Bool.eq_false_iff.mp (hw c List.mem_cons_self))
  rw [Directive.run, hskip]
  split
  · next heq => exact absurd (List.append_eq_nil_iff.mp heq).1 hne
  · rw [takeWhile_append hw' hs, dropWhile_append hw' hs]

/-- White space in a format, in front of a word. -/
theorem space_run_word {w : List Char} (hne : w ≠ []) (hw : ∀ c ∈ w, isSpace c = false)
    (hsp : ∀ c ∈ sp, isSpace c = true) :
    Directive.space.run (sp ++ (w ++ s)) = .ok ([], w ++ s) := by
  obtain ⟨c, w, rfl⟩ := List.exists_cons_of_ne_nil hne
  rw [space_run, dropWhile_append hsp]
  intro x hx
  obtain rfl := Option.some.inj hx
  exact hw _ List.mem_cons_self

/-- A string that has been read is a part of the input. -/
theorem str_sublist {t : List Char} (h : .str t ∈ (scanf fmt s).items) : t.Sublist s := by
  induction fmt generalizing s with
  | nil => exact absurd h List.not_mem_nil
  | cons d fmt ih =>
    cases hrun : d.run s with
    | error e =>
      rw [scanf, hrun] at h
      exact absurd h List.not_mem_nil
    | ok r =>
      obtain ⟨items, rest⟩ := r
      obtain ⟨hrest, hitems⟩ := sublist_run hrun
      rw [scanf_cons hrun] at h
      rcases List.mem_append.mp h with h | h
      · exact hitems t h
      · exact (ih h).trans hrest

end SystemsLabs.Lib.Scanf
