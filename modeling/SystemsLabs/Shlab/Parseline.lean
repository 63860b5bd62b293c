import SystemsLabs.Lib.CString
import SystemsLabs.Lib.Words
import SystemsLabs.Shlab.Tsh

/-!
# Command lines (`parseline` of `tsh.c`)

`parseline` copies the command line to a static array and cuts it into strings there: it replaces
the delimiter of each argument by a zero byte and stores a pointer to the argument in `argv`. A
pointer into the array is an index here. The stores to `argv` are a list, the last one first; its
bounds are not checked, as in the source, and what a store behind its end overwrites is nothing
that `parseline` reads.

* `parseline` — the function.
* `Scanner.loop_nextArg` — what the loop makes of a line with given words.
* `parseline_spec` — its result: the words of the line, in order, are the arguments.

**Scope.** Any line that fits the array, with any number of words. `parseline` takes the last byte
of the line for the newline and overwrites it.
-/

open SystemsLabs.Lib

namespace SystemsLabs.Shlab

/-- `MAXLINE`. -/
def maxLine : ℕ := 1024

/-- `MAXARGS`. -/
def maxArgs : ℕ := 128

/-- `' '`. -/
def space : UInt8 := 32

/-- `'\''`. -/
def quote : UInt8 := 39

/-- `'&'`. -/
def ampersand : UInt8 := 38

/-- `while (*buf && (*buf == ' ')) buf++`. -/
def skipSpaces (array : List UInt8) (buf : ℕ) : ℕ :=
  buf + ((array.drop buf).takeWhile (· = space)).length

/-- `buf[strlen(buf)-1] = ' '`. For an empty string this is the byte in front of the array. -/
def blankLast (array : List UInt8) : List UInt8 :=
  let n := (untilNul array).length
  if n = 0 then array else array.set (n - 1) space

/-- The variables of `parseline`. -/
structure Scanner where
  array : List UInt8
  buf : ℕ
  delim : Option ℕ
  argc : ℕ
  argv : List (ℕ × Option ℕ)

namespace Scanner

/-- Skip spaces and an opening quote, and look for the delimiter. -/
def nextArg (s : Scanner) : Scanner :=
  let buf := skipSpaces s.array s.buf
  if s.array[buf]? = some quote then
    { s with buf := buf + 1, delim := strchr s.array (buf + 1) quote }
  else { s with buf := buf, delim := strchr s.array buf space }

/-- The body of `while (delim)`. -/
def takeArg (s : Scanner) (delim : ℕ) : Scanner :=
  nextArg
    { s with
      argv := (s.argc, some s.buf) :: s.argv
      argc := s.argc + 1
      array := s.array.set delim 0
      buf := delim + 1 }

/-- `while (delim)`, for at most so many rounds. -/
def loop : ℕ → Scanner → Option Scanner
  | 0, _ => none
  | fuel + 1, s =>
    match s.delim with
    | none => some s
    | some delim => loop fuel (s.takeArg delim)

end Scanner

/-- What `parseline` leaves behind. -/
structure Parsed where
  array : List UInt8
  argv : List (ℕ × Option ℕ)
  bg : Bool

/-- The string to which a pointer into the array points. -/
def stringAt (array : List UInt8) (a : ℕ) : List UInt8 := untilNul (array.drop a)

/-- `parseline`. -/
def parseline (array : CBuf maxLine) (cmdline : List UInt8) : Option Parsed := do
  let array ← array.puts (untilNul cmdline)
  let s ← Scanner.loop maxLine (Scanner.nextArg ⟨blankLast array.bytes, 0, none, 0, []⟩)
  let argv := (s.argc, none) :: s.argv
  if s.argc = 0 then
    some ⟨s.array, argv, true⟩
  else if (argv.lookup (s.argc - 1)).join.bind (s.array[·]?) = some ampersand then
    some ⟨s.array, (s.argc - 1, none) :: argv, true⟩
  else some ⟨s.array, argv, false⟩

/-! ## The next argument -/

variable {rest l t : List UInt8} {ws : List (Word space quote)} {n fuel : ℕ} {s : Scanner}

/-- Separator and quote differ. -/
theorem space_ne_quote : space ≠ quote := by
  decide

/-- The spaces at a place are passed over. -/
theorem skipSpaces_append (h : rest.head? ≠ some space) (l : List UInt8) (n : ℕ) :
    skipSpaces (l ++ (List.replicate n space ++ rest)) l.length =
      (l ++ List.replicate n space).length := by
  unfold skipSpaces
  have hrest : rest.takeWhile (· = space) = [] := by
    cases rest with
    | nil => rfl
    | cons b rest =>
        exact List.takeWhile_cons_of_neg (by simpa using fun hb : b = space => h (congrArg some hb))
  rw [List.drop_left, List.takeWhile_append_of_pos (by simp), hrest, List.append_nil,
    List.length_append]

/-- The byte behind a list. -/
theorem getElem?_append_length (l t : List UInt8) : (l ++ t)[l.length]? = t.head? := by
  rw [List.getElem?_append_right (Nat.le_refl _), Nat.sub_self, List.head?_eq_getElem?]

namespace Scanner

/-- A quoted argument ends at the next quote. -/
theorem nextArg_of_quote (h : s.array[skipSpaces s.array s.buf]? = some quote) :
    s.nextArg =
      { s with
        buf := skipSpaces s.array s.buf + 1
        delim := strchr s.array (skipSpaces s.array s.buf + 1) quote } :=
  if_pos h

/-- A plain argument ends at the next space. -/
theorem nextArg_of_ne_quote (h : s.array[skipSpaces s.array s.buf]? ≠ some quote) :
    s.nextArg =
      { s with
        buf := skipSpaces s.array s.buf
        delim := strchr s.array (skipSpaces s.array s.buf) space } :=
  if_neg h

/-- Behind the spaces stands what is not one. -/
theorem skipSpaces_eq (h : rest.head? ≠ some space) (hbuf : s.buf = l.length)
    (harray : s.array = l ++ (List.replicate n space ++ rest)) :
    s.array = l ++ List.replicate n space ++ rest ∧
      skipSpaces s.array s.buf = (l ++ List.replicate n space).length ∧
      s.array[skipSpaces s.array s.buf]? = rest.head? := by
  have hskip : skipSpaces s.array s.buf = (l ++ List.replicate n space).length := by
    rw [hbuf, harray]
    exact skipSpaces_append h l n
  rw [← List.append_assoc] at harray
  refine ⟨harray, hskip, ?_⟩
  rw [hskip, harray]
  exact getElem?_append_length _ _

/-- In front of a word. -/
theorem nextArg_word (w : Word space quote) (h0 : 0 ∉ w.text) (hbuf : s.buf = l.length)
    (harray : s.array = l ++ (List.replicate n space ++ (w.code ++ rest))) :
    s.nextArg =
      { s with
        buf := (l ++ List.replicate n space ++ w.opening).length
        delim := some ((l ++ List.replicate n space ++ w.opening).length + w.text.length) } := by
  obtain ⟨harray, hskip, hhead⟩ :=
    skipSpaces_eq (w.head_code space_ne_quote rest) hbuf harray
  generalize l ++ List.replicate n space = m at hskip harray ⊢
  cases w with
  | bare text hne hsp hq =>
      have hcode : (Word.bare text hne hsp hq).code ++ rest = text ++ space :: rest := by
        simp [Word.code, Word.opening, Word.text, Word.delim]
      rw [hcode] at hhead harray
      have hhead' : s.array[skipSpaces s.array s.buf]? ≠ some quote := by
        obtain ⟨b, text, rfl⟩ := List.exists_cons_of_ne_nil hne
        exact hhead ▸ hq
      have hdelim : strchr s.array m.length space = some (m.length + text.length) := by
        rw [harray]
        exact strchr_append (by decide) h0 hsp m rest
      rw [nextArg_of_ne_quote hhead', hskip, hdelim]
      simp [Word.opening, Word.text]
  | quoted text hq =>
      have hcode : (Word.quoted text hq : Word space quote).code ++ rest =
          [quote] ++ (text ++ quote :: rest) := by
        simp [Word.code, Word.opening, Word.text, Word.delim]
      have hlen : m.length + 1 = (m ++ [quote]).length := by
        rw [List.length_append, List.length_singleton]
      rw [hcode] at hhead harray
      have hdelim : strchr s.array (m ++ [quote]).length quote
          = some ((m ++ [quote]).length + text.length) := by
        rw [harray, ← List.append_assoc]
        exact strchr_append (by decide) h0 hq (m ++ [quote]) rest
      rw [nextArg_of_quote hhead, hskip, hlen, hdelim]
      rfl

/-- Where no word is complete. -/
theorem delim_nextArg_unfinished (hrest : Unfinished space quote rest) (h0 : 0 ∉ rest)
    (hbuf : s.buf = l.length)
    (harray : s.array = l ++ (List.replicate n space ++ (rest ++ 0 :: t))) :
    s.nextArg.delim = none ∧ s.nextArg.argc = s.argc ∧ s.nextArg.argv = s.argv ∧
      s.nextArg.array = s.array := by
  have hne : (rest ++ 0 :: t).head? ≠ some space := by
    cases rest with
    | nil => exact fun h => absurd (Option.some.inj h) (by decide)
    | cons b rest =>
        have := hrest.head space_ne_quote
        exact this
  obtain ⟨harray, hskip, hhead⟩ := skipSpaces_eq hne hbuf harray
  generalize l ++ List.replicate n space = m at hskip harray
  rcases hrest with ⟨hq, hmem⟩ | ⟨hq, hmem⟩
  · obtain ⟨rest, rfl⟩ : ∃ u, rest = quote :: u := ⟨rest.tail, (List.cons_head?_tail hq).symm⟩
    have hlen : m.length + 1 = (m ++ [quote]).length := by
      rw [List.length_append, List.length_singleton]
    rw [nextArg_of_quote hhead]
    refine ⟨?_, rfl, rfl, rfl⟩
    change strchr s.array (skipSpaces s.array s.buf + 1) quote = none
    rw [hskip, harray, hlen, List.cons_append, ← List.singleton_append, ← List.append_assoc]
    exact strchr_eq_none (fun h => h0 (List.mem_cons_of_mem _ h)) hmem _ t
  · have hhead' : s.array[skipSpaces s.array s.buf]? ≠ some quote := by
      rw [hhead]
      cases rest with
      | nil => exact fun h => absurd (Option.some.inj h) (by decide)
      | cons b rest => exact hq
    rw [nextArg_of_ne_quote hhead']
    refine ⟨?_, rfl, rfl, rfl⟩
    change strchr s.array (skipSpaces s.array s.buf) space = none
    rw [hskip, harray]
    exact strchr_eq_none h0 hmem m t

end Scanner

/-! ## The loop -/

/-- The stores of these pointers to `argv`, from index `i` on. -/
def stores (i : ℕ) : List ℕ → List (ℕ × Option ℕ)
  | [] => []
  | a :: ptrs => stores (i + 1) ptrs ++ [(i, some a)]

/-- The entries that have been stored to. -/
theorem mem_stores {i : ℕ} {ptrs : List ℕ} {st : ℕ × Option ℕ} (h : st ∈ stores i ptrs) :
    i ≤ st.1 ∧ st.1 < i + ptrs.length := by
  induction ptrs generalizing i with
  | nil => exact absurd h List.not_mem_nil
  | cons a ptrs ih =>
      rw [List.length_cons]
      rcases List.mem_append.mp h with h | h
      · have := ih h
        omega
      · rw [List.mem_singleton.mp h]
        exact ⟨Nat.le_refl i, by omega⟩

/-- What an entry holds that has been stored to. -/
theorem lookup_stores (i : ℕ) (ptrs : List ℕ) (argv : List (ℕ × Option ℕ)) {j : ℕ}
    (hj : j < ptrs.length) : (stores i ptrs ++ argv).lookup (i + j) = some ptrs[j]? := by
  induction ptrs generalizing i argv j with
  | nil => exact absurd hj (Nat.not_lt_zero j)
  | cons a ptrs ih =>
      rw [stores, List.append_assoc]
      cases j with
      | succ j =>
          rw [← Nat.succ_add_eq_add_succ]
          exact ih (i + 1) _ (Nat.lt_of_succ_lt_succ hj)
      | zero =>
          have hnone : (stores (i + 1) ptrs).lookup i = none := by
            rw [List.lookup_eq_none_iff]
            intro st hst
            have := (mem_stores hst).1
            exact bne_iff_ne.mpr (Nat.ne_of_lt this)
          rw [Nat.add_zero, List.lookup_append, hnone]
          exact List.lookup_cons_self

/-- `argv` with a null pointer behind the pointers that have been stored. -/
theorem lookup_argv {ptrs : List ℕ} {i : ℕ} (hi : i ≤ ptrs.length) :
    ((ptrs.length, none) :: stores 0 ptrs).lookup i = some ptrs[i]? := by
  rcases Nat.lt_or_eq_of_le hi with hlt | rfl
  · have hstored := lookup_stores 0 ptrs [] hlt
    rw [Nat.zero_add, List.append_nil] at hstored
    rw [List.lookup_cons, beq_eq_false_iff_ne.mpr (Nat.ne_of_lt hlt)]
    exact hstored
  · rw [List.lookup_cons_self, List.getElem?_eq_none (Nat.le_refl _)]

/-- The pointers that have been stored. -/
theorem filterMap_stores (i : ℕ) (ptrs : List ℕ) :
    (stores i ptrs).reverse.filterMap (·.2) = ptrs := by
  induction ptrs generalizing i with
  | nil => rfl
  | cons a ptrs ih =>
      rw [stores, List.reverse_append, List.filterMap_append, ih]
      rfl

/-- The string at a place. -/
theorem stringAt_append {u : List UInt8} (h0 : 0 ∉ u) (l t : List UInt8) :
    stringAt (l ++ (u ++ 0 :: t)) l.length = u := by
  unfold stringAt
  rw [List.drop_left, untilNul_append h0]

namespace Scanner

/-- A round of the loop: the delimiter of the word becomes its zero byte. -/
theorem loop_word (w : Word space quote) (h0 : 0 ∉ w.text) (hbuf : s.buf = l.length)
    (harray : s.array = l ++ (List.replicate n space ++ (w.code ++ rest))) {m : List UInt8}
    (hm : m = l ++ List.replicate n space ++ w.opening) (fuel : ℕ) :
    loop (fuel + 1) s.nextArg =
      loop fuel (nextArg
        { array := m ++ (w.text ++ 0 :: rest)
          buf := m.length + w.text.length + 1
          delim := some (m.length + w.text.length)
          argc := s.argc + 1
          argv := (s.argc, some m.length) :: s.argv }) := by
  have harray' : s.array = m ++ (w.text ++ w.delim :: rest) := by
    rw [harray, hm]
    simp [Word.code]
  have hset : s.array.set (m.length + w.text.length) 0 = m ++ (w.text ++ 0 :: rest) := by
    rw [harray', List.set_append_right _ _ (Nat.le_add_right _ _), Nat.add_sub_cancel_left,
      List.set_append_right _ _ (Nat.le_refl _), Nat.sub_self, List.set_cons_zero]
  rw [nextArg_word w h0 hbuf harray, ← hm, ← hset]
  rfl

/-- **The loop takes one word after the other.** What it has passed stays as it is. -/
theorem loop_nextArg (h : Words space quote rest ws) (h0 : 0 ∉ rest) (hfuel : ws.length < fuel)
    (hbuf : s.buf = l.length) (harray : s.array = l ++ (rest ++ 0 :: t)) :
    ∃ s' ptrs r, loop fuel s.nextArg = some s' ∧ s'.argc = s.argc + ws.length ∧
      s'.argv = stores s.argc ptrs ++ s.argv ∧ s'.array = l ++ r ∧
      ptrs.map (stringAt s'.array) = ws.map Word.text := by
  induction h generalizing fuel s l with
  | nil n hu =>
      obtain ⟨k, rfl⟩ : ∃ k, fuel = k + 1 := Nat.exists_eq_add_of_le' hfuel
      rw [List.append_assoc] at harray
      have h0' := fun h => h0 (List.mem_append_right _ h)
      obtain ⟨hdelim, hargc, hargv, harr⟩ := delim_nextArg_unfinished hu h0' hbuf harray
      refine ⟨s.nextArg, [], _, ?_, hargc, hargv, harr.trans harray, rfl⟩
      rw [loop, hdelim]
  | @cons n w rest ws h ih =>
      obtain ⟨k, rfl⟩ : ∃ k, fuel = k + 1 := Nat.exists_eq_add_of_le' (Nat.zero_lt_of_lt hfuel)
      rw [List.append_assoc, List.append_assoc] at harray
      have h0text : 0 ∉ w.text := fun h => h0 (by simp [Word.code, h])
      have h0rest : 0 ∉ rest := fun h => h0 (by simp [h])
      generalize hm : l ++ List.replicate n space ++ w.opening = m
      obtain ⟨s', ptrs, r, hloop, hargc, hargv, harr, hstr⟩ :=
        ih (l := m ++ (w.text ++ [0])) (s := ⟨m ++ (w.text ++ 0 :: (rest ++ 0 :: t)),
            m.length + w.text.length + 1, some (m.length + w.text.length), s.argc + 1,
            (s.argc, some m.length) :: s.argv⟩)
          h0rest (Nat.lt_of_succ_lt_succ hfuel) (by simp [Nat.add_assoc]) (by simp)
      refine ⟨s', m.length :: ptrs, List.replicate n space ++ (w.opening ++ (w.text ++ 0 :: r)),
        ?_, ?_, ?_, ?_, ?_⟩
      · rw [loop_word w h0text hbuf harray hm.symm]
        exact hloop
      · rw [hargc, List.length_cons, Nat.add_right_comm, Nat.add_assoc]
      · rw [hargv, stores, List.append_assoc]
        rfl
      · rw [harr, ← hm]
        simp
      · have hfirst : stringAt s'.array m.length = w.text := by
          rw [harr, List.append_assoc, List.append_assoc]
          exact stringAt_append h0text m r
        rw [List.map_cons, List.map_cons, hfirst, hstr]

end Scanner

/-! ## The result -/

variable {array : CBuf maxLine} {cmdline : List UInt8}

/-- A byte is replaced by another. -/
theorem length_blankLast (s : List UInt8) : (blankLast s).length = s.length := by
  unfold blankLast
  dsimp only
  split_ifs
  · rfl
  · exact List.length_set

/-- A space is no zero byte. -/
theorem zero_not_mem_blankLast (h0 : 0 ∉ l) : 0 ∉ blankLast l := by
  unfold blankLast
  dsimp only
  split_ifs
  · exact h0
  · intro h
    rcases List.mem_or_eq_of_mem_set h with h | h
    · exact h0 h
    · exact absurd h (by decide)

/-- The last byte of the string is replaced, not of the array. -/
theorem blankLast_append (h0 : 0 ∉ l) (t : List UInt8) :
    blankLast (l ++ 0 :: t) = blankLast l ++ 0 :: t := by
  unfold blankLast
  rw [untilNul_append h0, untilNul_of_not_mem h0]
  dsimp only
  split_ifs with hl
  · rfl
  · exact List.set_append_left _ _ (by omega)

/-- The first byte of a string, with which `parseline` looks for `&`. -/
theorem head?_stringAt {array : List UInt8} {a : ℕ} {c : UInt8} (hc : c ≠ 0) :
    (stringAt array a).head? = some c ↔ array[a]? = some c := by
  unfold stringAt
  rw [← List.head?_drop]
  cases array.drop a with
  | nil => exact Iff.rfl
  | cons b s =>
      by_cases hb : b = 0
      · subst hb
        exact ⟨fun h => absurd h (by simp [untilNul]), fun h => absurd (Option.some.inj h).symm hc⟩
      · rw [untilNul_cons_of_ne hb]
        rfl

/-- The last of these arguments begins with `&`. -/
def EndsInBackground (args : List (List UInt8)) : Prop :=
  args.getLast?.bind List.head? = some ampersand

instance (args : List (List UInt8)) : Decidable (EndsInBackground args) :=
  inferInstanceAs (Decidable (_ = _))

/-- No words, no `&`. -/
theorem not_endsInBackground_nil : ¬ EndsInBackground [] := by
  decide

/-- `*argv[argc-1] == '&'`. -/
theorem last_eq_ampersand (array : List UInt8) (ptrs : List ℕ) :
    ((((ptrs.length, none) :: stores 0 ptrs).lookup (ptrs.length - 1)).join.bind (array[·]?) =
      some ampersand) ↔ EndsInBackground (ptrs.map (stringAt array)) := by
  unfold EndsInBackground
  rw [lookup_argv (Nat.sub_le _ 1), ← List.getLast?_eq_getElem?, List.getLast?_map]
  cases ptrs.getLast? with
  | none => exact Iff.rfl
  | some a => exact (head?_stringAt (by decide)).symm

/-- The copy of the line and the loop over it. -/
theorem loop_puts (array : CBuf maxLine) (hlen : cmdline.length < maxLine)
    (h : Words space quote (blankLast (untilNul cmdline)) ws) :
    ∃ b s' ptrs, array.puts (untilNul cmdline) = some b ∧
      Scanner.loop maxLine (Scanner.nextArg ⟨blankLast b.bytes, 0, none, 0, []⟩) = some s' ∧
      s'.argc = ws.length ∧ s'.argv = stores 0 ptrs ∧
      ptrs.map (stringAt s'.array) = ws.map Word.text := by
  have h0 := not_mem_untilNul cmdline
  have hline : (untilNul cmdline).length < maxLine :=
    Nat.lt_of_le_of_lt (List.takeWhile_sublist _).length_le hlen
  have hfuel : ws.length < maxLine := by
    have := h.length_le
    rw [length_blankLast] at this
    omega
  generalize untilNul cmdline = line at h h0 hline
  have hputs : (array.put (line ++ [0])).bytes =
      line ++ 0 :: array.bytes.drop (line.length + 1) := by
    have hle : (line ++ [0]).length ≤ maxLine := by
      rw [List.length_append]
      exact hline
    rw [CBuf.bytes_put hle, List.append_assoc, List.length_append]
    rfl
  obtain ⟨s', ptrs, r, hloop, hargc, hargv, harr, hstr⟩ :=
    Scanner.loop_nextArg (l := [])
      (s := ⟨blankLast (array.put (line ++ [0])).bytes, 0, none, 0, []⟩) h
      (zero_not_mem_blankLast h0) hfuel rfl (by rw [hputs]; exact blankLast_append h0 _)
  refine ⟨_, s', ptrs, CBuf.puts_eq_some_iff.mpr ⟨hline, rfl⟩, hloop, ?_, ?_, hstr⟩
  · exact hargc.trans (Nat.zero_add _)
  · exact hargv.trans (List.append_nil _)

/-- **`parseline` stores pointers to the words of the line**, a null pointer behind them, and one in
place of a last word that begins with `&`. -/
theorem parseline_spec (array : CBuf maxLine) (hlen : cmdline.length < maxLine)
    (h : Words space quote (blankLast (untilNul cmdline)) ws) :
    ∃ p ptrs, parseline array cmdline = some p ∧
      ptrs.map (stringAt p.array) = ws.map Word.text ∧
      if EndsInBackground (ws.map Word.text) then
        p.bg = true ∧ p.argv = (ws.length - 1, none) :: (ws.length, none) :: stores 0 ptrs
      else p.bg = decide (ws = []) ∧ p.argv = (ws.length, none) :: stores 0 ptrs := by
  obtain ⟨b, s, ptrs, hputs, hloop, hargc, hargv, hstr⟩ := loop_puts array hlen h
  have hlen : ptrs.length = ws.length := by
    have := congrArg List.length hstr
    rwa [List.length_map, List.length_map] at this
  unfold parseline
  rw [hputs]
  simp only [Option.bind_eq_bind, Option.bind_some]
  rw [hloop]
  simp only [Option.bind_some]
  rw [hargc, hargv]
  by_cases hws : ws = []
  · subst hws
    exact ⟨_, ptrs, rfl, hstr, by simpa using not_endsInBackground_nil⟩
  · have hne : ws.length ≠ 0 := by simpa using hws
    rw [if_neg hne, ← hlen]
    have hlast := last_eq_ampersand s.array ptrs
    rw [hstr] at hlast
    by_cases hamp : EndsInBackground (ws.map Word.text)
    · rw [if_pos (hlast.mpr hamp)]
      exact ⟨_, ptrs, rfl, hstr, by rw [if_pos hamp]; exact ⟨rfl, rfl⟩⟩
    · rw [if_neg (mt hlast.mp hamp)]
      exact ⟨_, ptrs, rfl, hstr, by rw [if_neg hamp]; exact ⟨by simp [hws], rfl⟩⟩

end SystemsLabs.Shlab
