import SystemsLabs.Shlab.Parseline

/-!
# From the command line to `argv` (`parseline` and `eval` of `tsh.c`)

* `parseline_words` — the arguments are the words of the line.
* `parseline_renderWords` — so they are the arguments that have been written to it.
* `argvInBounds_iff` — the stores stay in `argv` iff the line has fewer than `MAXARGS` words.
* `dispatches_iff` — `builtin_cmd` gets a command iff the line has a word that is not the last one
  or does not begin with `&`.
-/

open SystemsLabs.Lib

namespace SystemsLabs.Shlab

variable {array : CBuf maxLine} {cmdline : List UInt8} {ws : List (Word space quote)}

/-- `'\n'`. -/
def newline : UInt8 := 10

namespace Parsed

/-- The arguments to which pointers have been stored, in the order of the stores. -/
def tokens (p : Parsed) : List (List UInt8) :=
  (p.argv.reverse.filterMap (·.2)).map (stringAt p.array)

/-- What has been stored to `argv[i]` last: the string there, or `none` for a null pointer. -/
def entry (p : Parsed) (i : ℕ) : Option (Option (List UInt8)) :=
  (p.argv.lookup i).map (Option.map (stringAt p.array))

/-- `argv` holds these arguments and then a null pointer. -/
def HoldsArgs (p : Parsed) (args : List (List UInt8)) : Prop :=
  ∀ i ≤ args.length, p.entry i = some args[i]?

/-- No store is behind the end of `argv`. -/
def InBounds (p : Parsed) : Prop := ∀ st ∈ p.argv, st.1 < maxArgs

end Parsed

/-- What is left of the arguments: a last one that begins with `&` goes. -/
def commandArgs (args : List (List UInt8)) : List (List UInt8) :=
  if EndsInBackground args then args.dropLast else args

/-! ## The arguments are the words of the line -/

namespace Parsed

variable {p : Parsed} {ptrs : List ℕ}

/-- The tokens, if only `NULL`s have been stored behind the pointers. -/
theorem tokens_eq {l : List (ℕ × Option ℕ)} (hl : ∀ st ∈ l, st.2 = none)
    (h : p.argv = l ++ stores 0 ptrs) : p.tokens = ptrs.map (stringAt p.array) := by
  have hnil : l.reverse.filterMap (·.2) = [] := by
    rw [List.filterMap_eq_nil_iff]
    exact fun st hst => hl st (List.mem_reverse.mp hst)
  rw [tokens, h, List.reverse_append, List.filterMap_append, filterMap_stores, hnil,
    List.append_nil]

/-- The pointers that have been stored, and `NULL` behind them. -/
theorem holdsArgs_stores (h : p.argv = (ptrs.length, none) :: stores 0 ptrs) :
    p.HoldsArgs (ptrs.map (stringAt p.array)) := by
  intro i hi
  rw [List.length_map] at hi
  rw [entry, h, lookup_argv hi, List.getElem?_map]
  rfl

/-- The null pointer that `parseline` stores over the last argument. -/
theorem holdsArgs_dropLast
    (h : p.argv = (ptrs.length - 1, none) :: (ptrs.length, none) :: stores 0 ptrs) :
    p.HoldsArgs (ptrs.map (stringAt p.array)).dropLast := by
  intro i hi
  rw [List.length_dropLast, List.length_map] at hi
  rw [entry, h, List.getElem?_dropLast, List.length_map]
  rcases Nat.lt_or_eq_of_le hi with hlt | rfl
  · rw [List.lookup_cons, beq_eq_false_iff_ne.mpr (Nat.ne_of_lt hlt), if_pos hlt,
      List.getElem?_map]
    exact congrArg (Option.map _) (lookup_argv (Nat.le_trans hi (Nat.sub_le _ 1)))
  · rw [List.lookup_cons_self, if_neg (Nat.lt_irrefl _)]
    rfl

/-- The highest store is the null pointer behind the arguments. -/
theorem inBounds_iff {l : List (ℕ × Option ℕ)} (hl : ∀ st ∈ l, st.1 ≤ ptrs.length)
    (h : p.argv = l ++ (ptrs.length, none) :: stores 0 ptrs) :
    p.InBounds ↔ ptrs.length < maxArgs := by
  unfold InBounds
  rw [h]
  constructor
  · intro hall
    exact hall (ptrs.length, none) (List.mem_append_right _ List.mem_cons_self)
  · intro hlt st hst
    rcases List.mem_append.mp hst with hst | hst
    · exact Nat.lt_of_le_of_lt (hl st hst) hlt
    · rcases List.mem_cons.mp hst with rfl | hst
      · exact hlt
      · have := (mem_stores hst).2
        omega

end Parsed

/-- The result of `parseline` in terms of the words of the line. -/
theorem parseline_words (array : CBuf maxLine) (hlen : cmdline.length < maxLine)
    (h : Words space quote (blankLast (untilNul cmdline)) ws) :
    ∃ p, parseline array cmdline = some p ∧ p.tokens = ws.map Word.text ∧
      p.HoldsArgs (commandArgs (ws.map Word.text)) ∧
      (p.bg = true ↔ EndsInBackground (ws.map Word.text) ∨ ws = []) ∧
      (p.InBounds ↔ ws.length < maxArgs) := by
  obtain ⟨p, ptrs, hp, hstr, hres⟩ := parseline_spec array hlen h
  have hlength : ws.length = ptrs.length := by
    rw [← List.length_map Word.text, ← hstr, List.length_map]
  unfold commandArgs
  rw [hlength] at hres ⊢
  by_cases hamp : EndsInBackground (ws.map Word.text)
  · rw [if_pos hamp] at hres ⊢
    obtain ⟨hbg, hargv⟩ := hres
    refine ⟨p, hp, ?_, ?_, ?_, ?_⟩
    · rw [← hstr]
      exact Parsed.tokens_eq (l := [(ptrs.length - 1, none), (ptrs.length, none)]) (by simp) hargv
    · rw [← hstr]
      exact Parsed.holdsArgs_dropLast hargv
    · exact iff_of_true hbg (Or.inl hamp)
    · exact Parsed.inBounds_iff (l := [(ptrs.length - 1, none)]) (by simp) hargv
  · rw [if_neg hamp] at hres ⊢
    obtain ⟨hbg, hargv⟩ := hres
    refine ⟨p, hp, ?_, ?_, ?_, ?_⟩
    · rw [← hstr]
      exact Parsed.tokens_eq (l := [(ptrs.length, none)]) (by simp) hargv
    · rw [← hstr]
      exact Parsed.holdsArgs_stores hargv
    · rw [hbg, decide_eq_true_iff]
      exact ⟨Or.inr, fun h => h.resolve_left hamp⟩
    · exact Parsed.inBounds_iff (l := []) (by simp) hargv

/-! ## Arguments that have been written to a line -/

/-- The last byte of a line becomes a space. -/
theorem blankLast_append_singleton {s : List UInt8} {b : UInt8} (h0 : 0 ∉ s ++ [b]) :
    blankLast (s ++ [b]) = s ++ [space] := by
  unfold blankLast
  rw [untilNul_of_not_mem h0, List.length_append, List.length_singleton]
  dsimp only
  rw [if_neg (Nat.succ_ne_zero _), Nat.add_sub_cancel, List.set_append_right _ _ (Nat.le_refl _),
    Nat.sub_self, List.set_cons_zero]

/-- A line has no zero byte if its words have none. -/
theorem zero_not_mem_renderWords {args : List (ℕ × Word space quote)}
    (h : ∀ a ∈ args, 0 ∉ a.2.text) : 0 ∉ renderWords args := by
  intro h0
  rcases mem_renderWords h0 with h0 | h0 | ⟨a, ha, h0⟩
  · exact absurd h0 (by decide)
  · exact absurd h0 (by decide)
  · exact h a ha h0

/-- A line to which words have been written has these words. -/
theorem words_line (args : List (ℕ × Word space quote)) (hsep : ∀ a ∈ args.tail, 0 < a.1)
    (hnul : ∀ a ∈ args, 0 ∉ a.2.text) :
    Words space quote (blankLast (untilNul (renderWords args ++ [newline])))
      (args.map (·.2)) := by
  have h0 : 0 ∉ renderWords args ++ [newline] := by
    rw [List.mem_append, not_or]
    exact ⟨zero_not_mem_renderWords hnul, by decide⟩
  rw [untilNul_of_not_mem h0, blankLast_append_singleton h0]
  exact words_renderWords args hsep

/-- **What `parseline` reads from a line are the arguments that have been written to it**, bare or
in quotes, with spaces between them. -/
theorem parseline_renderWords (array : CBuf maxLine) (args : List (ℕ × Word space quote))
    (hne : args ≠ []) (hcount : args.length < maxArgs) (hsep : ∀ a ∈ args.tail, 0 < a.1)
    (hnul : ∀ a ∈ args, 0 ∉ a.2.text) (hlen : (renderWords args ++ [newline]).length < maxLine) :
    ∃ p, parseline array (renderWords args ++ [newline]) = some p ∧
      p.tokens = args.map (·.2.text) ∧ p.InBounds ∧
      (p.bg = true ↔ EndsInBackground (args.map (·.2.text))) ∧
      p.HoldsArgs (if p.bg then (args.map (·.2.text)).dropLast else args.map (·.2.text)) := by
  obtain ⟨p, hp, htokens, hargs, hbg, hbounds⟩ :=
    parseline_words array hlen (words_line args hsep hnul)
  have hmap : (args.map (·.2)).map Word.text = args.map (·.2.text) := List.map_map
  have hbg' : p.bg = true ↔ EndsInBackground (args.map (·.2.text)) := by
    rw [hbg, hmap, or_iff_left (by simpa using hne)]
  rw [hmap] at htokens hargs
  refine ⟨p, hp, htokens, hbounds.mpr (by rwa [List.length_map]), hbg', ?_⟩
  unfold commandArgs at hargs
  by_cases hamp : EndsInBackground (args.map (·.2.text))
  · rw [if_pos hamp] at hargs
    rwa [if_pos (hbg'.mpr hamp)]
  · rw [if_neg hamp] at hargs
    rwa [if_neg (mt hbg'.mp hamp)]

/-- `echo 'a b' &`. -/
theorem parseline_renderWords_example :
    ∃ p, parseline (CBuf.zero maxLine) (cbytes "echo 'a b' &\n") = some p ∧
      p.tokens = [cbytes "echo", cbytes "a b", cbytes "&"] ∧ p.InBounds ∧
      (p.bg = true ↔ EndsInBackground [cbytes "echo", cbytes "a b", cbytes "&"]) ∧
      p.HoldsArgs (if p.bg then [cbytes "echo", cbytes "a b"]
        else [cbytes "echo", cbytes "a b", cbytes "&"]) :=
  parseline_renderWords (CBuf.zero maxLine)
    [(0, .bare (cbytes "echo") (by decide) (by decide) (by decide)),
      (1, .quoted (cbytes "a b") (by decide)),
      (1, .bare (cbytes "&") (by decide) (by decide) (by decide))]
    (by decide) (by decide) (by decide) (by decide) (by decide)

/-! ## The size of `argv` -/

/-- All stores of `parseline` to `argv` are at the indices `0, …, MAXARGS - 1`. -/
def ArgvInBounds (array : CBuf maxLine) (cmdline : List UInt8) : Prop :=
  ∃ p, parseline array cmdline = some p ∧ p.InBounds

/-- A line that `fgets` can deliver: not empty, and with a newline at its end only. -/
def FgetsLine (cmdline : List UInt8) : Prop :=
  cmdline ≠ [] ∧ cmdline.length < maxLine ∧ newline ∉ cmdline.dropLast

instance (cmdline : List UInt8) : Decidable (FgetsLine cmdline) :=
  inferInstanceAs (Decidable (_ ∧ _ ∧ _))

/-- **The stores stay in `argv` iff the line has fewer than `MAXARGS` words.** -/
theorem argvInBounds_iff (array : CBuf maxLine) (hlen : cmdline.length < maxLine) :
    ArgvInBounds array cmdline ↔
      ∃ ws, Words space quote (blankLast (untilNul cmdline)) ws ∧ ws.length < maxArgs := by
  constructor
  · rintro ⟨p, hp, hbounds⟩
    obtain ⟨ws, hws⟩ := exists_words space quote (blankLast (untilNul cmdline))
    obtain ⟨p', hp', -, -, -, hiff⟩ := parseline_words array hlen hws
    obtain rfl : p = p' := Option.some.inj (hp.symm.trans hp')
    exact ⟨ws, hws, hiff.mp hbounds⟩
  · rintro ⟨ws, hws, hlt⟩
    obtain ⟨p, hp, -, -, -, hiff⟩ := parseline_words array hlen hws
    exact ⟨p, hp, hiff.mpr hlt⟩

/-- A line of one word. -/
theorem argvInBounds_iff_example :
    ArgvInBounds (CBuf.zero maxLine) (cbytes "jobs\n") ↔
      ∃ ws, Words space quote (blankLast (untilNul (cbytes "jobs\n"))) ws ∧
        ws.length < maxArgs :=
  argvInBounds_iff (CBuf.zero maxLine) (by decide)

/-- A line with that many words has twice as many characters. -/
theorem argvInBounds_of_lt (array : CBuf maxLine) (h : cmdline.length < 2 * maxArgs) :
    ArgvInBounds array cmdline := by
  have hlen : cmdline.length < maxLine := Nat.lt_trans h (by decide)
  obtain ⟨ws, hws⟩ := exists_words space quote (blankLast (untilNul cmdline))
  obtain ⟨p, hp, -, -, -, hiff⟩ := parseline_words array hlen hws
  have hline : (untilNul cmdline).length ≤ cmdline.length :=
    (List.takeWhile_sublist _).length_le
  have hwords := hws.length_le
  rw [length_blankLast] at hwords
  refine ⟨p, hp, hiff.mpr ?_⟩
  omega

/-- A word of one letter, `MAXARGS` times. -/
def crowded : List (ℕ × Word space quote) :=
  List.replicate maxArgs (1, .bare [97] (by decide) (by decide) (by decide))

/-- On a line with these words, the null pointer is stored behind the end of `argv`. -/
theorem exists_not_argvInBounds :
    ∃ cmdline, FgetsLine cmdline ∧ ¬ ArgvInBounds (CBuf.zero maxLine) cmdline := by
  refine ⟨renderWords crowded ++ [newline], by decide +kernel, ?_⟩
  rintro ⟨p, hp, hbounds⟩
  have hsep : ∀ a ∈ crowded.tail, 0 < a.1 := fun a ha => by
    rw [List.eq_of_mem_replicate (List.mem_of_mem_tail ha)]
    exact Nat.one_pos
  have hnul : ∀ a ∈ crowded, 0 ∉ a.2.text := fun a ha => by
    rw [List.eq_of_mem_replicate ha]
    decide
  obtain ⟨p', hp', -, -, -, hiff⟩ := parseline_words (CBuf.zero maxLine) (by decide +kernel)
    (words_line crowded hsep hnul)
  obtain rfl : p = p' := Option.some.inj (hp.symm.trans hp')
  have hlt := hiff.mp hbounds
  rw [List.length_map, crowded, List.length_replicate] at hlt
  exact Nat.lt_irrefl _ hlt

/-! ## The first argument -/

/-- The text of these bytes. -/
def ofBytes (s : List UInt8) : String := String.ofList (s.map fun b => Char.ofNat b.toNat)

/-- The command line as `eval` goes on with it. -/
def Parsed.command (p : Parsed) (cmdline : List UInt8) : Command where
  argv0 := (p.entry 0).join.map ofBytes
  bg := p.bg
  cmdline := ofBytes cmdline

/-- `eval` up to the end of `builtin_cmd`, which it calls whatever `parseline` returns; `none` where
`strcmp` gets a null pointer. -/
def evalBuiltin (array : CBuf maxLine) (cmdline : List UInt8) : Option Builtin := do
  let p ← parseline array cmdline
  let argv0 ← (p.command cmdline).argv0
  some (builtinCmd (some argv0))

/-- `builtin_cmd` gets an `argv` whose first entry is not a null pointer. -/
def Dispatches (array : CBuf maxLine) (cmdline : List UInt8) : Prop :=
  (evalBuiltin array cmdline).isSome = true

/-- A line with a word has a command, unless its only word begins with `&`. -/
theorem commandArgs_ne_nil_iff (w : List UInt8) (args : List (List UInt8)) :
    commandArgs (w :: args) ≠ [] ↔ (args = [] → w.head? ≠ some ampersand) := by
  cases args with
  | nil =>
      have hamp : EndsInBackground [w] ↔ w.head? = some ampersand := Iff.rfl
      unfold commandArgs
      by_cases h : EndsInBackground [w]
      · rw [if_pos h]
        exact iff_of_false (fun hne => hne rfl) fun hne => hne rfl (hamp.mp h)
      · rw [if_neg h]
        exact iff_of_true (List.cons_ne_nil w _) fun _ hw => h (hamp.mpr hw)
  | cons w' args =>
      have hne : commandArgs (w :: w' :: args) ≠ [] := by
        unfold commandArgs
        by_cases h : EndsInBackground (w :: w' :: args)
        · rw [if_pos h]
          exact List.cons_ne_nil w _
        · rw [if_neg h]
          exact List.cons_ne_nil w _
      exact iff_of_true hne fun h => absurd h (List.cons_ne_nil w' args)

/-- The command is the first argument. -/
theorem Parsed.argv0_eq {p : Parsed} {args : List (List UInt8)} (h : p.HoldsArgs args)
    (cmdline : List UInt8) : (p.command cmdline).argv0 = args.head?.map ofBytes := by
  unfold command
  rw [h 0 (Nat.zero_le _), List.head?_eq_getElem?]
  rfl

/-- **`builtin_cmd` gets a command iff the line has a word**, other than a single one that begins
with `&`. -/
theorem dispatches_iff (array : CBuf maxLine) (h0 : 0 ∉ cmdline) (hlen : cmdline.length < maxLine) :
    Dispatches array cmdline ↔
      ∃ w ws, Words space quote (blankLast cmdline) (w :: ws) ∧
        (ws = [] → w.text.head? ≠ some ampersand) := by
  have hiff : ∀ ws, Words space quote (blankLast cmdline) ws →
      (Dispatches array cmdline ↔ commandArgs (ws.map Word.text) ≠ []) := by
    intro ws hws
    have hws' : Words space quote (blankLast (untilNul cmdline)) ws := by
      rwa [untilNul_of_not_mem h0]
    obtain ⟨p, hp, -, hargs, -, -⟩ := parseline_words array hlen hws'
    unfold Dispatches evalBuiltin
    rw [hp]
    simp only [Option.bind_eq_bind, Option.bind_some, Option.isSome_bind]
    rw [p.argv0_eq hargs cmdline]
    cases commandArgs (ws.map Word.text) <;> simp
  constructor
  · intro h
    obtain ⟨ws, hws⟩ := exists_words space quote (blankLast cmdline)
    have hne := (hiff ws hws).mp h
    cases ws with
    | nil => exact absurd rfl hne
    | cons w ws =>
        have hlast := (commandArgs_ne_nil_iff w.text (ws.map Word.text)).mp hne
        exact ⟨w, ws, hws, fun hnil => hlast (hnil ▸ rfl)⟩
  · rintro ⟨w, ws, hws, hlast⟩
    apply (hiff (w :: ws) hws).mpr
    apply (commandArgs_ne_nil_iff _ _).mpr
    intro hnil
    exact hlast (List.map_eq_nil_iff.mp hnil)

/-- A built-in command. -/
theorem dispatches_iff_example :
    Dispatches (CBuf.zero maxLine) (cbytes "jobs\n") ↔
      ∃ w ws, Words space quote (blankLast (cbytes "jobs\n")) (w :: ws) ∧
        (ws = [] → w.text.head? ≠ some ampersand) :=
  dispatches_iff (CBuf.zero maxLine) (by decide) (by decide)

/-- Where `strcmp` gets a null pointer, the shell of `Shell.next` comes to its end. -/
theorem exits_of_not_dispatches {p : Parsed} (hp : parseline array cmdline = some p)
    (h : ¬ Dispatches array cmdline) : builtinCmd (p.command cmdline).argv0 = .exits := by
  unfold Dispatches evalBuiltin at h
  rw [hp] at h
  simp only [Option.bind_eq_bind, Option.bind_some, Option.isSome_bind] at h
  cases hargv : (p.command cmdline).argv0 with
  | none => rfl
  | some argv0 =>
      rw [hargv] at h
      exact absurd rfl h

/-- On an empty line, `strcmp` gets a null pointer. -/
theorem exists_not_dispatches :
    ∃ cmdline, FgetsLine cmdline ∧ 0 ∉ cmdline ∧ ¬ Dispatches (CBuf.zero maxLine) cmdline := by
  refine ⟨cbytes "\n", by decide, by decide, ?_⟩
  unfold Dispatches
  decide +kernel

end SystemsLabs.Shlab
