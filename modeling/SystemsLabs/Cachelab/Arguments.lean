import SystemsLabs.Lib.CString
import SystemsLabs.Lib.Except

/-!
# The command line (`csim.c`)

`parse_arguments` counts the flags `-s`, `-E`, `-b` and `-t` that it meets, and does not note which.
When it returns, it has met four. A number is read by `atoi`, which takes every string for an `int`.

* `Options.Complete` — each flag has been given with a value, and the results are these values.
* `complete_iff` — when it returns, the results are complete iff no flag occurs twice and the
  numbers are numerals of `int`s.

**Scope.** `argv[argc]` is the null pointer of the C standard, and `fopen` is a parameter. What
`print_usage` and the help flag print is left out.
-/

namespace SystemsLabs.Cachelab

open Lib

/-! ## `parse_arguments` -/

/-- An argument of the program. -/
abbrev Arg : Type := List UInt8

/-- Why `parse_arguments` does not return. -/
inductive Exit
  /-- It prints the help message. -/
  | help
  /-- `print_usage`. -/
  | usage
  /-- The trace file cannot be opened. -/
  | failedToOpen (trace : Arg)
  /-- `argv[argc]`, which is a null pointer, is read as a string. -/
  | undefined
  deriving DecidableEq

/-- The variables that `parse_arguments` sets. The numbers are `int`s (`numberFlag` stores what
`atoi` returns). -/
structure Options where
  s : ℤ
  E : ℤ
  b : ℤ
  verb : Bool
  flags : ℕ
  /-- The file that has been opened, if one has been. -/
  traceFile : Option Arg
  deriving DecidableEq

/-- The string `argv[i + 1]`. -/
def argValue : Option Arg → Except Exit Arg
  | some v => .ok v
  | none => .error .undefined

/-- A flag with a number as its value. -/
def numberFlag (flag : String) (set : Options → ℤ → Options) (arg : Arg) (next : Option Arg)
    (o : Options) : Except Exit Options :=
  if arg = cbytes flag then do
    let v ← argValue next
    .ok { set o (atoi v) with flags := o.flags + 1 }
  else .ok o

/-- `-s`. -/
def flagS : Arg → Option Arg → Options → Except Exit Options :=
  numberFlag "-s" fun o n => { o with s := n }

/-- `-E`. -/
def flagE : Arg → Option Arg → Options → Except Exit Options :=
  numberFlag "-E" fun o n => { o with E := n }

/-- `-b`. -/
def flagB : Arg → Option Arg → Options → Except Exit Options :=
  numberFlag "-b" fun o n => { o with b := n }

/-- `-t`. -/
def flagT (fopen : Arg → Bool) (arg : Arg) (next : Option Arg) (o : Options) :
    Except Exit Options :=
  if arg = cbytes "-t" then do
    let trace ← argValue next
    if fopen trace then .ok { o with traceFile := some trace, flags := o.flags + 1 }
    else .error (.failedToOpen trace)
  else .ok o

/-- `-v`. -/
def flagV (arg : Arg) (o : Options) : Options :=
  if arg = cbytes "-v" then { o with verb := true } else o

/-- One round of the loop, with `argv[i]` and `argv[i + 1]`. -/
def parseArgument (fopen : Arg → Bool) (arg : Arg) (next : Option Arg) (o : Options) :
    Except Exit Options := do
  let o ← flagS arg next (flagV arg o)
  let o ← flagE arg next o
  let o ← flagB arg next o
  flagT fopen arg next o

/-- The loop over `argv[i], ..., argv[argc - 1]`. -/
def parseLoop (fopen : Arg → Bool) : List Arg → Options → Except Exit Options
  | [], o => .ok o
  | arg :: args, o => do
    let o ← parseArgument fopen arg args.head? o
    parseLoop fopen args o

/-- `parse_arguments`, with what the variables hold before. `fopen` says which files can be opened.
-/
def parseArguments (fopen : Arg → Bool) (argv : List Arg) (o : Options) : Except Exit Options := do
  if argv.length < 9 ∨ 11 < argv.length then
    .error (if cbytes "-h" ∈ argv then .help else .usage)
  else
    let o ← parseLoop fopen argv { o with flags := 0, traceFile := none }
    if o.flags ≠ 4 then .error .usage
    else .ok o

/-! ## What it is for -/

/-- The flags that have a value. -/
def valueFlags : List Arg := [cbytes "-s", cbytes "-E", cbytes "-b", cbytes "-t"]

/-- The flag has been given with this value. -/
def Given (argv : List Arg) (flag v : Arg) : Prop := ∃ l r, argv = l ++ flag :: v :: r

/-- The flag has been given, and the value of every occurrence is read as `x`. -/
def GivenAs {β : Type} (argv : List Arg) (flag : Arg) (reads : Arg → β → Prop) (x : β) : Prop :=
  (∃ v, Given argv flag v) ∧ ∀ v, Given argv flag v → reads v x

/-- All flags have been given, and their values are the results: the integers that the numerals
behind `-s`, `-E` and `-b` stand for, and the file that `-t` names. -/
structure Options.Complete (argv : List Arg) (o : Options) : Prop where
  s : GivenAs argv (cbytes "-s") Numeral o.s
  E : GivenAs argv (cbytes "-E") Numeral o.E
  b : GivenAs argv (cbytes "-b") Numeral o.b
  traceFile : GivenAs argv (cbytes "-t") (fun v file => file = some v) o.traceFile
  /-- `argv[argc]` is not read as a value. -/
  inArgv : ∀ flag ∈ valueFlags, argv.getLast? ≠ some flag

/-- The flags whose value is a number. -/
def numberFlags : List Arg := [cbytes "-s", cbytes "-E", cbytes "-b"]

/-- The value is a decimal numeral, and an `int` holds its number. -/
def IntNumeral (v : Arg) : Prop := ∃ n : ℤ, Numeral v n ∧ -2 ^ 31 ≤ n ∧ n < 2 ^ 31

variable {β : Type} {fopen : Arg → Bool} {arg flag v : Arg} {args argv : List Arg}
  {next : Option Arg} {o o' : Options}

/-! ## One argument -/

/-- A value is there exactly if an element follows. -/
theorem argValue_eq_ok : argValue next = .ok v ↔ next = some v := by
  cases next <;> simp [argValue]

/-- Any other element is passed over. -/
theorem numberFlag_of_ne {name : String} {set : Options → ℤ → Options} (h : arg ≠ cbytes name) :
    numberFlag name set arg next o = .ok o := if_neg h

/-- The flag stores the number that follows, and counts. -/
theorem numberFlag_self {name : String} {set : Options → ℤ → Options}
    (h : numberFlag name set (cbytes name) next o = .ok o') :
    ∃ v, next = some v ∧ o' = { set o (atoi v) with flags := o.flags + 1 } := by
  rw [numberFlag, if_pos rfl, bind_eq_ok] at h
  obtain ⟨v, hv, heq⟩ := h
  exact ⟨v, argValue_eq_ok.mp hv, (Except.ok.inj heq).symm⟩

/-- Any other element is passed over. -/
theorem flagT_of_ne (h : arg ≠ cbytes "-t") : flagT fopen arg next o = .ok o := if_neg h

/-- `-t` stores the name that follows if the file opens, and counts. -/
theorem flagT_self (h : flagT fopen (cbytes "-t") next o = .ok o') :
    ∃ v, next = some v ∧ fopen v = true ∧
      o' = { o with traceFile := some v, flags := o.flags + 1 } := by
  rw [flagT, if_pos rfl, bind_eq_ok] at h
  obtain ⟨v, hv, heq⟩ := h
  split_ifs at heq with hopen
  exact ⟨v, argValue_eq_ok.mp hv, hopen, (Except.ok.inj heq).symm⟩

/-- Any other element is passed over. -/
theorem flagV_of_ne (h : arg ≠ cbytes "-v") : flagV arg o = o := if_neg h

/-- The variables after a flag with its value. -/
def Options.set (o : Options) (flag v : Arg) : Options where
  s := if flag = cbytes "-s" then atoi v else o.s
  E := if flag = cbytes "-E" then atoi v else o.E
  b := if flag = cbytes "-b" then atoi v else o.b
  verb := o.verb
  flags := o.flags + 1
  traceFile := if flag = cbytes "-t" then some v else o.traceFile

/-- **What a round of the loop does.** -/
theorem parseArgument_cases (h : parseArgument fopen arg next o = .ok o') :
    (arg ∈ valueFlags ∧ ∃ v, next = some v ∧ o' = o.set arg v) ∨
      (arg ∉ valueFlags ∧ o' = flagV arg o) := by
  unfold parseArgument flagS flagE flagB at h
  by_cases hs : arg = cbytes "-s"
  · subst hs
    rw [flagV_of_ne (by decide), bind_eq_ok] at h
    obtain ⟨o₁, h₁, h⟩ := h
    rw [numberFlag_of_ne (by decide), ok_bind, numberFlag_of_ne (by decide), ok_bind,
      flagT_of_ne (by decide)] at h
    obtain ⟨v, hv, rfl⟩ := numberFlag_self h₁
    exact .inl ⟨by decide, v, hv, (Except.ok.inj h).symm⟩
  rw [numberFlag_of_ne hs, ok_bind] at h
  by_cases hE : arg = cbytes "-E"
  · subst hE
    rw [flagV_of_ne (by decide), bind_eq_ok] at h
    obtain ⟨o₁, h₁, h⟩ := h
    rw [numberFlag_of_ne (by decide), ok_bind, flagT_of_ne (by decide)] at h
    obtain ⟨v, hv, rfl⟩ := numberFlag_self h₁
    exact .inl ⟨by decide, v, hv, (Except.ok.inj h).symm⟩
  rw [numberFlag_of_ne hE, ok_bind] at h
  by_cases hb : arg = cbytes "-b"
  · subst hb
    rw [flagV_of_ne (by decide), bind_eq_ok] at h
    obtain ⟨o₁, h₁, h⟩ := h
    rw [flagT_of_ne (by decide)] at h
    obtain ⟨v, hv, rfl⟩ := numberFlag_self h₁
    exact .inl ⟨by decide, v, hv, (Except.ok.inj h).symm⟩
  rw [numberFlag_of_ne hb, ok_bind] at h
  by_cases ht : arg = cbytes "-t"
  · subst ht
    rw [flagV_of_ne (by decide)] at h
    obtain ⟨v, hv, -, rfl⟩ := flagT_self h
    exact .inl ⟨by decide, v, hv, rfl⟩
  rw [flagT_of_ne ht] at h
  refine .inr ⟨?_, (Except.ok.inj h).symm⟩
  simp [valueFlags, hs, hE, hb, ht]

/-- `get` is the variable that holds the value of a flag, as the code reads it with `read`. -/
structure ValueOf (flag : Arg) (read : Arg → β) (get : Options → β) : Prop where
  mem : flag ∈ valueFlags
  get_set (o : Options) (arg v : Arg) : get (o.set arg v) = if arg = flag then read v else get o
  get_flagV (o : Options) (arg : Arg) : get (flagV arg o) = get o

/-- `-s` determines `*s`, and no other flag does. -/
theorem valueOf_s : ValueOf (cbytes "-s") atoi Options.s where
  mem := by decide
  get_set _ _ _ := rfl
  get_flagV o arg := by
    unfold flagV
    split_ifs <;> rfl

/-- `-E` determines `*E`. -/
theorem valueOf_E : ValueOf (cbytes "-E") atoi Options.E where
  mem := by decide
  get_set _ _ _ := rfl
  get_flagV o arg := by
    unfold flagV
    split_ifs <;> rfl

/-- `-b` determines `*b`. -/
theorem valueOf_b : ValueOf (cbytes "-b") atoi Options.b where
  mem := by decide
  get_set _ _ _ := rfl
  get_flagV o arg := by
    unfold flagV
    split_ifs <;> rfl

/-- `-t` determines `trace_file`. -/
theorem valueOf_t : ValueOf (cbytes "-t") some Options.traceFile where
  mem := by decide
  get_set _ _ _ := rfl
  get_flagV o arg := by
    unfold flagV
    split_ifs <;> rfl

/-! ## The loop -/

/-- One round of the loop, and the others. -/
theorem parseLoop_cons (h : parseLoop fopen (arg :: args) o = .ok o') :
    ∃ o₁, parseArgument fopen arg args.head? o = .ok o₁ ∧ parseLoop fopen args o₁ = .ok o' :=
  bind_eq_ok.mp h

/-- The flags are counted. -/
theorem flags_parseLoop (h : parseLoop fopen args o = .ok o') :
    o'.flags = o.flags + args.countP (· ∈ valueFlags) := by
  induction args generalizing o with
  | nil =>
    obtain rfl := Except.ok.inj h
    rfl
  | cons arg args ih =>
    obtain ⟨o₁, h₁, h⟩ := parseLoop_cons h
    rw [ih h]
    rcases parseArgument_cases h₁ with ⟨hmem, v, -, rfl⟩ | ⟨hnot, rfl⟩
    · rw [List.countP_cons_of_pos (by simpa using hmem), Options.set]
      dsimp only
      omega
    · have hflags : (flagV arg o).flags = o.flags := by
        unfold flagV
        split_ifs <;> rfl
      rw [List.countP_cons_of_neg (by simpa using hnot), hflags]

/-- No flag stands last: the loop would read behind `argv`. -/
theorem getLast?_ne_of_parseLoop (h : parseLoop fopen args o = .ok o') (hflag : flag ∈ valueFlags) :
    args.getLast? ≠ some flag := by
  induction args generalizing o with
  | nil => exact fun hlast => by cases hlast
  | cons arg args ih =>
    obtain ⟨o₁, h₁, h⟩ := parseLoop_cons h
    cases args with
    | nil =>
      rintro hlast
      obtain rfl := Option.some.inj hlast
      rcases parseArgument_cases h₁ with ⟨-, v, hnone, -⟩ | ⟨hnot, -⟩
      · cases hnone
      · exact hnot hflag
    | cons next args =>
      rw [List.getLast?_cons_cons]
      exact ih h

/-- A flag and its value stand at the front or further on. -/
theorem given_cons : Given (arg :: args) flag v ↔
    arg = flag ∧ args.head? = some v ∨ Given args flag v := by
  constructor
  · rintro ⟨_ | ⟨x, l⟩, r, heq⟩
    · obtain ⟨rfl, rfl⟩ := List.cons.inj heq
      exact .inl ⟨rfl, rfl⟩
    · obtain ⟨rfl, rfl⟩ := List.cons.inj heq
      exact .inr ⟨l, r, rfl⟩
  · rintro (⟨rfl, hnext⟩ | ⟨l, r, rfl⟩)
    · obtain ⟨r, rfl⟩ := List.head?_eq_some_iff.mp hnext
      exact ⟨[], r, rfl⟩
    · exact ⟨arg :: l, r, rfl⟩

/-- A flag with its value is an argument with the next one. -/
theorem given_iff : Given args flag v ↔ (flag, v) ∈ args.zip args.tail := by
  induction args with
  | nil => exact iff_of_false (fun ⟨l, r, heq⟩ => by simp at heq) List.not_mem_nil
  | cons arg args ih =>
    rw [given_cons, ih, List.tail_cons]
    cases args with
    | nil => simp
    | cons next args =>
      rw [List.zip_cons_cons, List.mem_cons, Prod.mk.injEq, List.head?_cons, Option.some_inj,
        List.tail_cons, eq_comm (a := arg), eq_comm (a := next)]

/-- A flag that has a value occurs. -/
theorem mem_of_given (h : Given args flag v) : flag ∈ args := by
  obtain ⟨l, r, rfl⟩ := h
  simp

/-- A flag that does not stand last has been given with a value. -/
theorem exists_given (hmem : flag ∈ args) (hlast : args.getLast? ≠ some flag) :
    ∃ v, Given args flag v := by
  obtain ⟨l, r, rfl⟩ := List.append_of_mem hmem
  cases r with
  | nil => exact absurd (by simp) hlast
  | cons v r => exact ⟨v, l, r, rfl⟩

variable {read : Arg → β} {get : Options → β}

/-- A variable keeps its value if its flag does not occur. -/
theorem get_parseLoop_of_not_mem (hget : ValueOf flag read get)
    (h : parseLoop fopen args o = .ok o') (hnot : flag ∉ args) : get o' = get o := by
  induction args generalizing o with
  | nil => rw [Except.ok.inj h]
  | cons arg args ih =>
    obtain ⟨o₁, h₁, h⟩ := parseLoop_cons h
    obtain ⟨hne, hnot⟩ := not_or.mp (mt List.mem_cons.mpr hnot)
    rw [ih h hnot]
    rcases parseArgument_cases h₁ with ⟨-, v, -, rfl⟩ | ⟨-, rfl⟩
    · rw [hget.get_set, if_neg (Ne.symm hne)]
    · exact hget.get_flagV o arg

/-- A variable holds the value of its flag if this occurs once. -/
theorem get_parseLoop (hget : ValueOf flag read get) (h : parseLoop fopen args o = .ok o')
    (hcount : args.count flag ≤ 1) (hgiven : Given args flag v) : get o' = read v := by
  induction args generalizing o with
  | nil => exact absurd (mem_of_given hgiven) List.not_mem_nil
  | cons arg args ih =>
    obtain ⟨o₁, h₁, h⟩ := parseLoop_cons h
    by_cases harg : arg = flag
    · subst harg
      rw [List.count_cons_self] at hcount
      have hnot : arg ∉ args := List.count_eq_zero.mp (by omega)
      obtain ⟨-, hnext⟩ := (given_cons.mp hgiven).resolve_right (mt mem_of_given hnot)
      rw [get_parseLoop_of_not_mem hget h hnot]
      rcases parseArgument_cases h₁ with ⟨-, v', hv', rfl⟩ | ⟨hnmem, -⟩
      · obtain rfl := Option.some.inj (hnext.symm.trans hv')
        rw [hget.get_set, if_pos rfl]
      · exact absurd hget.mem hnmem
    · rw [List.count_cons_of_ne harg] at hcount
      exact ih h hcount ((given_cons.mp hgiven).resolve_left fun h => harg h.1)

/-! ## `parse_arguments` -/

/-- What is known when it returns. -/
theorem parseArguments_eq_ok (h : parseArguments fopen argv o = .ok o') :
    parseLoop fopen argv { o with flags := 0, traceFile := none } = .ok o' ∧
      argv.countP (· ∈ valueFlags) = 4 := by
  unfold parseArguments at h
  rw [ite_error_eq_ok, bind_eq_ok] at h
  obtain ⟨-, o₁, hloop, h⟩ := h
  obtain ⟨hflags, heq⟩ := ite_error_eq_ok.mp h
  obtain rfl := Except.ok.inj heq
  refine ⟨hloop, ?_⟩
  rw [not_not, flags_parseLoop hloop] at hflags
  simpa using hflags

/-- The flags are counted one by one. -/
theorem countP_valueFlags (args : List Arg) : args.countP (· ∈ valueFlags) =
    args.count (cbytes "-s") + args.count (cbytes "-E") + args.count (cbytes "-b") +
      args.count (cbytes "-t") := by
  induction args with
  | nil => rfl
  | cons arg args ih =>
    have hcount : valueFlags.count arg = if arg ∈ valueFlags then 1 else 0 :=
      List.Nodup.count (by decide)
    simp only [List.countP_cons, List.count_cons, ih]
    rw [valueFlags] at *
    simp only [List.count_cons, List.count_nil] at hcount
    grind

/-- Four flags, none of them twice: each occurs once. -/
theorem count_eq_one (hfour : argv.countP (· ∈ valueFlags) = 4)
    (hcount : ∀ flag ∈ valueFlags, argv.count flag ≤ 1) (hflag : flag ∈ valueFlags) :
    argv.count flag = 1 := by
  have hs := hcount (cbytes "-s") (by decide)
  have hE := hcount (cbytes "-E") (by decide)
  have hb := hcount (cbytes "-b") (by decide)
  have ht := hcount (cbytes "-t") (by decide)
  rw [countP_valueFlags] at hfour
  simp only [valueFlags, List.mem_cons, List.not_mem_nil, or_false] at hflag
  rcases hflag with rfl | rfl | rfl | rfl <;> omega

/-- The value of a flag that occurs once is the one that the code has read. -/
theorem givenAs_of_count {reads : Arg → β → Prop} (hget : ValueOf flag read get)
    (h : parseLoop fopen argv o = .ok o') (hcount : argv.count flag = 1)
    (hreads : ∀ v, Given argv flag v → reads v (read v)) : GivenAs argv flag reads (get o') := by
  have hmem : flag ∈ argv := List.count_pos_iff.mp (by omega)
  refine ⟨exists_given hmem (getLast?_ne_of_parseLoop h hget.mem), fun v hv => ?_⟩
  rw [get_parseLoop hget h (Nat.le_of_eq hcount) hv]
  exact hreads v hv

/-- A flag that has been given occurs. -/
theorem count_pos_of_givenAs {reads : Arg → β → Prop} {x : β} (h : GivenAs argv flag reads x) :
    1 ≤ argv.count flag := by
  obtain ⟨⟨v, hv⟩, -⟩ := h
  exact List.count_pos_iff.mpr (mem_of_given hv)

/-- The variable of a number flag holds an `int`, so the numeral behind the flag is that of an
`int`. -/
theorem intNumeral_of_givenAs {get : Options → ℤ} (hget : ValueOf flag atoi get)
    (h : parseLoop fopen argv o = .ok o') (hcount : argv.count flag ≤ 1)
    (hgiven : GivenAs argv flag Numeral (get o')) (hv : Given argv flag v) : IntNumeral v := by
  have heq : get o' = atoi v := get_parseLoop hget h hcount hv
  obtain ⟨hlo, hhi⟩ := atoi_range v
  exact ⟨get o', hgiven.2 v hv, heq ▸ hlo, heq ▸ hhi⟩

/-- `atoi` reads the numeral of an `int`. -/
theorem IntNumeral.atoi (h : IntNumeral v) : Numeral v (atoi v) := by
  obtain ⟨n, hn, hlo, hhi⟩ := h
  rwa [hn.atoi_eq hlo hhi]

/-- Digits of a number that is not too large. -/
theorem intNumeral_of_digits (hne : v ≠ []) (hds : ∀ b ∈ v, isDecimal b = true)
    (hlt : decimalValue v < 2 ^ 31) : IntNumeral v :=
  ⟨decimalValue v, .digits hne hds, by omega, by omega⟩

/-- **When the results are complete.** `parse_arguments` has returned: the results are complete iff
no flag occurs twice, as a flag or as a value, and the values of `-s`, `-E` and `-b` are numerals of
`int`s. -/
theorem complete_iff (h : parseArguments fopen argv o = .ok o') :
    o'.Complete argv ↔ (∀ flag ∈ valueFlags, argv.count flag ≤ 1) ∧
      ∀ flag ∈ numberFlags, ∀ v, Given argv flag v → IntNumeral v := by
  obtain ⟨hloop, hfour⟩ := parseArguments_eq_ok h
  constructor
  · intro hc
    have hcount : ∀ flag ∈ valueFlags, argv.count flag ≤ 1 := by
      intro flag hflag
      have hs := count_pos_of_givenAs hc.s
      have hE := count_pos_of_givenAs hc.E
      have hb := count_pos_of_givenAs hc.b
      have ht := count_pos_of_givenAs hc.traceFile
      rw [countP_valueFlags] at hfour
      simp only [valueFlags, List.mem_cons, List.not_mem_nil, or_false] at hflag
      rcases hflag with rfl | rfl | rfl | rfl <;> omega
    refine ⟨hcount, fun flag hflag v hv => ?_⟩
    simp only [numberFlags, List.mem_cons, List.not_mem_nil, or_false] at hflag
    rcases hflag with rfl | rfl | rfl
    · exact intNumeral_of_givenAs valueOf_s hloop (hcount _ (by decide)) hc.s hv
    · exact intNumeral_of_givenAs valueOf_E hloop (hcount _ (by decide)) hc.E hv
    · exact intNumeral_of_givenAs valueOf_b hloop (hcount _ (by decide)) hc.b hv
  · rintro ⟨hcount, hnumeral⟩
    have hone : ∀ {flag : Arg}, flag ∈ valueFlags → argv.count flag = 1 :=
      count_eq_one hfour hcount
    have hnum : ∀ flag ∈ numberFlags, ∀ v, Given argv flag v → Numeral v (Lib.atoi v) :=
      fun flag hflag v hv => (hnumeral flag hflag v hv).atoi
    exact {
      s := givenAs_of_count valueOf_s hloop (hone (by decide)) (hnum _ (by decide))
      E := givenAs_of_count valueOf_E hloop (hone (by decide)) (hnum _ (by decide))
      b := givenAs_of_count valueOf_b hloop (hone (by decide)) (hnum _ (by decide))
      traceFile := givenAs_of_count valueOf_t hloop (hone (by decide)) fun _ _ => rfl
      inArgv := fun flag hflag => getLast?_ne_of_parseLoop hloop hflag }

/-- What the variables of `main` may hold before. -/
def unset : Options := ⟨-1, -1, -1, false, 0, none⟩

/-- The usual call. -/
theorem complete_iff_example :
    Options.Complete (["./csim", "-s", "4", "-E", "1", "-b", "5", "-t", "t"].map cbytes)
      ⟨4, 1, 5, false, 4, some (cbytes "t")⟩ := by
  have h : parseArguments (fun _ => true)
      (["./csim", "-s", "4", "-E", "1", "-b", "5", "-t", "t"].map cbytes) unset =
      .ok ⟨4, 1, 5, false, 4, some (cbytes "t")⟩ := by
    decide +kernel
  refine (complete_iff h).mpr ⟨by decide +kernel, fun flag hflag v hv => ?_⟩
  -- the values of the three flags are numerals of one digit
  have hvalues : ∀ p ∈ (["./csim", "-s", "4", "-E", "1", "-b", "5", "-t", "t"].map cbytes).zip
      (["-s", "4", "-E", "1", "-b", "5", "-t", "t"].map cbytes), p.1 ∈ numberFlags →
      p.2 ≠ [] ∧ (∀ b ∈ p.2, isDecimal b = true) ∧ decimalValue p.2 < 2 ^ 31 := by
    decide +kernel
  obtain ⟨hne, hds, hlt⟩ := hvalues _ (given_iff.mp hv) hflag
  exact intNumeral_of_digits hne hds hlt

/-- Four flags, but no trace file: the pointer that is returned has not been set. -/
theorem exists_not_complete : ∃ fopen argv o o', parseArguments fopen argv o = .ok o' ∧
    ¬ o'.Complete argv ∧ o'.traceFile = none := by
  refine ⟨fun _ => true, ["./csim", "-s", "1", "-s", "2", "-E", "1", "-b", "1"].map cbytes, unset,
    ⟨2, 1, 1, false, 4, none⟩, by decide +kernel, fun h => ?_, rfl⟩
  obtain ⟨⟨v, hv⟩, -⟩ := h.traceFile
  exact absurd (mem_of_given hv) (by decide +kernel)

end SystemsLabs.Cachelab
