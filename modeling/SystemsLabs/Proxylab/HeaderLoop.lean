import SystemsLabs.Lib.Except
import SystemsLabs.Proxylab.Doit

/-!
# The header loop

The header loop of `doit` reads lines until one is blank, and appends them to the message for the
origin server. At the end of the stream `Rio_readlineb` leaves the line in the buffer that is there,
and so the loop goes on.

* `Headers` — the lines of a stream up to the blank one.
* `HeadersFit` — there is such a line, and `client_message` has room for the lines.
* `headersFit_of_headerLoop`, `exists_headerLoop_of_headersFit` — the loop comes to its end, without
  an access out of bounds, iff this is so.

A stream is given by what the reads of the connection deliver, and by whether one fails after that
(`Rio.delivered`).
-/

namespace SystemsLabs.Proxylab

open Lib

variable {rp rp' : Rio} {conn : Fd} {buf buf' : CBuf maxline} {m m' : CBuf maxbuf} {fuel n : ℕ}
  {s line bytes rest : List UInt8} {ls : List (List UInt8)} {e : Env}

/-! ## Results of steps -/

section Steps

variable {α : Type} {ok : Bool} {msg : String}

/-- The call succeeds. -/
theorem check_eq_ok {u : Unit} : check ok msg = .ok u ↔ ok = true := by
  cases ok <;> simp [check]

/-- The value is there. -/
theorem defined_eq_ok {o : Option α} {a : α} : defined o = .ok a ↔ o = some a := by
  cases o <;> simp [defined]

end Steps

/-! ## Lines -/

/-- The first line of a stream, as `rio_readlineb` reads it. -/
def firstLine (s : List UInt8) : List UInt8 := (takeLine newline (maxline - 1) s).1

/-- The lines of the headers, up to the blank one. -/
inductive Headers : List UInt8 → List (List UInt8) → Prop
  | blank {s : List UInt8} : (takeLine newline (maxline - 1) s).1 = crlf → Headers s [crlf]
  | line {s : List UInt8} {ls : List (List UInt8)} :
      Complete newline (maxline - 1) (takeLine newline (maxline - 1) s).1 →
      (takeLine newline (maxline - 1) s).1 ≠ crlf →
      Headers (takeLine newline (maxline - 1) s).2 ls →
      Headers s ((takeLine newline (maxline - 1) s).1 :: ls)

/-- A line of the stream is blank, as it is cut into lines by `rio_readlineb`. -/
def HasBlankLine (s : List UInt8) : Prop := ∃ ls, Headers s ls

/-- A line is taken, and it or a later one is blank. -/
theorem hasBlankLine_iff : HasBlankLine s ↔
    Complete newline (maxline - 1) (takeLine newline (maxline - 1) s).1 ∧
      ((takeLine newline (maxline - 1) s).1 = crlf ∨
        HasBlankLine (takeLine newline (maxline - 1) s).2) := by
  constructor
  · rintro ⟨ls, hls⟩
    cases hls with
    | blank hcrlf => exact ⟨by rw [hcrlf]; exact .inl rfl, .inl hcrlf⟩
    | line hc hcrlf hls => exact ⟨hc, .inr ⟨_, hls⟩⟩
  · rintro ⟨hc, h⟩
    by_cases hcrlf : (takeLine newline (maxline - 1) s).1 = crlf
    · exact ⟨_, .blank hcrlf⟩
    · obtain ⟨ls, hls⟩ := h.resolve_left hcrlf
      exact ⟨_, .line hc hcrlf hls⟩

/-- What is cut off has no blank line. -/
theorem not_hasBlankLine_of_not_complete
    (h : ¬ Complete newline (maxline - 1) (takeLine newline (maxline - 1) s).1) :
    ¬ HasBlankLine s := fun hblank => h (hasBlankLine_iff.mp hblank).1

/-- The length of lines, as strings. -/
def linesLength (ls : List (List UInt8)) : ℕ := (ls.map untilNul).flatten.length

/-- The first line and the others. -/
theorem linesLength_cons (line : List UInt8) (ls : List (List UInt8)) :
    linesLength (line :: ls) = (untilNul line).length + linesLength ls := by
  rw [linesLength, List.map_cons, List.flatten_cons, List.length_append, linesLength]

/-- `client_message` has room for `size` bytes and the headers behind `line`. -/
def HeadersFit (line rest : List UInt8) (size : ℕ) : Prop :=
  (line = crlf ∧ size < maxbuf) ∨ ∃ ls, Headers rest ls ∧ size + linesLength ls < maxbuf

/-- What is there already fits. -/
theorem HeadersFit.lt {size : ℕ} (h : HeadersFit line rest size) : size < maxbuf := by
  rcases h with ⟨-, h⟩ | ⟨ls, -, h⟩
  · exact h
  · exact Nat.lt_of_le_of_lt (Nat.le_add_right _ _) h

/-! ## Reading a line -/

/-- `Rio_readlineb` stores a line, or exits, or finds the end of the stream. -/
theorem rioReadlinebExit_cases (rp : Rio) (buf : CBuf maxline) :
    (Complete newline (maxline - 1) (takeLine newline (maxline - 1) rp.delivered.1).1 ∧ ∃ rp',
      rioReadlinebExit rp buf =
        .ok (rp', buf.put ((takeLine newline (maxline - 1) rp.delivered.1).1 ++ [0])) ∧
      rp'.delivered.1 = (takeLine newline (maxline - 1) rp.delivered.1).2) ∨
    ¬ Complete newline (maxline - 1) (takeLine newline (maxline - 1) rp.delivered.1).1 ∧
      (rp.delivered.2 = true ∧
        rioReadlinebExit rp buf = .error (.exit "Rio_readlineb error") ∨
      rp.delivered.2 = false ∧ ∃ rp', rioReadlinebExit rp buf =
        .ok (rp', if rp.delivered.1 = [] then buf else buf.put (rp.delivered.1 ++ [0])) ∧
        rp'.rest = []) := by
  obtain ⟨hcomplete, hcut⟩ := rioReadlineb_delivered rp
  unfold rioReadlinebExit
  by_cases hc : Complete newline (maxline - 1) (takeLine newline (maxline - 1) rp.delivered.1).1
  · obtain ⟨rp', hread, hdel⟩ := hcomplete hc
    exact .inl ⟨hc, rp', by rw [hread], by rw [hdel]⟩
  · obtain ⟨hfail, hend⟩ := hcut hc
    cases hb : rp.delivered.2 with
    | true => exact .inr ⟨hc, .inl ⟨rfl, by rw [hfail hb]⟩⟩
    | false =>
      obtain ⟨rp', hrest, hread⟩ := hend hb
      refine .inr ⟨hc, .inr ⟨rfl, rp', ?_, hrest⟩⟩
      rw [hread]
      split_ifs
      · exact congrArg (fun b => Except.ok (rp', b)) buf.put_nil
      · rfl

/-- `Rio_readlineb` when no read fails. -/
theorem rioReadlinebExit_of_noErrors (h : rp.fd.NoErrors) (buf : CBuf maxline) :
    ∃ rp', rioReadlinebExit rp buf = .ok (rp', if rp.rest = [] then buf
        else buf.put ((takeLine newline (maxline - 1) rp.rest).1 ++ [0])) ∧
      rp'.fd.NoErrors ∧ rp'.rest = (takeLine newline (maxline - 1) rp.rest).2 := by
  obtain ⟨rp', hne, hrest, hread⟩ := rioReadlineb_spec h (show 1 < maxline by decide)
  refine ⟨rp', ?_, hne, hrest⟩
  unfold rioReadlinebExit
  rw [hread]
  split_ifs
  · exact congrArg (fun b => Except.ok (rp', b)) buf.put_nil
  · rfl

/-- The string in an array that a line has been read into. -/
theorem string_put_line (buf : CBuf maxline) (s : List UInt8) :
    (buf.put ((takeLine newline (maxline - 1) s).1 ++ [0])).string =
      some (untilNul (takeLine newline (maxline - 1) s).1) :=
  CBuf.string_put (Nat.lt_succ_of_le (length_takeLine_le newline (maxline - 1) s))

/-- A line is blank iff the array that it has been read into is found to be. -/
theorem isString_put_line (buf : CBuf maxline) (s : List UInt8) :
    (buf.put ((takeLine newline (maxline - 1) s).1 ++ [0])).isString crlf = true ↔
      (takeLine newline (maxline - 1) s).1 = crlf := by
  rw [CBuf.isString_iff (by decide), string_put_line, Option.some.injEq]
  constructor
  · intro h
    have hprefix := List.takeWhile_prefix (l := (takeLine newline (maxline - 1) s).1) (· ≠ 0)
    obtain ⟨t, ht⟩ := hprefix
    rw [show List.takeWhile _ _ = crlf from h] at ht
    have hline : (takeLine newline (maxline - 1) s).1 = [13] ++ newline :: t := ht.symm
    rw [hline, eq_nil_of_takeLine_eq hline]
    rfl
  · intro h
    rw [h]
    decide

/-- The end of the stream is not taken for a blank line. -/
theorem isString_put_rest
    (h : ¬ Complete newline (maxline - 1) (takeLine newline (maxline - 1) s).1)
    (hbuf : buf.isString crlf = false) :
    (if s = [] then buf else buf.put (s ++ [0])).isString crlf = false := by
  split_ifs with hnil
  · exact hbuf
  · have hline := congrArg Prod.fst (takeLine_of_not_complete h)
    have hiff := isString_put_line buf s
    rw [hline] at h hiff
    refine Bool.eq_false_iff.mpr fun hcrlf => h (.inl ?_)
    rw [hiff.mp hcrlf]
    rfl

/-! ## The loop -/

/-- One round, with the message. -/
theorem headerLoop_succ_eq_ok (hbuf : buf.isString crlf = false) :
    headerLoop (fuel + 1) rp buf m = .ok m' ↔ ∃ rp₁ buf₁ message line m₁,
      rioReadlinebExit rp buf = .ok (rp₁, buf₁) ∧ m.string = some message ∧
      buf₁.string = some line ∧ m.puts (message ++ line) = some m₁ ∧
      headerLoop fuel rp₁ buf₁ m₁ = .ok m' := by
  rw [headerLoop, if_neg (Bool.eq_false_iff.mp hbuf), bind_eq_ok]
  simp only [bind_eq_ok, defined_eq_ok, Prod.exists]
  constructor
  · rintro ⟨rp₁, buf₁, hread, message, hmessage, line, hline, m₁, hm₁, h⟩
    exact ⟨rp₁, buf₁, message, line, m₁, hread, hmessage, hline, hm₁, h⟩
  · rintro ⟨rp₁, buf₁, message, line, m₁, hread, hmessage, hline, hm₁, h⟩
    exact ⟨rp₁, buf₁, hread, message, hmessage, line, hline, m₁, hm₁, h⟩

/-- Nothing ends the loop after the end of the stream. -/
theorem headerLoop_of_rest_nil (hrest : rp.rest = []) (hbuf : buf.isString crlf = false) :
    headerLoop fuel rp buf m ≠ .ok m' := by
  induction fuel generalizing rp m with
  | zero =>
    intro h
    cases h
  | succ fuel ih =>
    intro h
    obtain ⟨rp₁, buf₁, -, -, m₁, hread, -, -, -, hloop⟩ := (headerLoop_succ_eq_ok hbuf).mp h
    unfold rioReadlinebExit at hread
    cases hline : rioReadlineb rp maxline with
    | none =>
      rw [hline] at hread
      cases hread
    | some r =>
      obtain ⟨n, bytes, rp₂⟩ := r
      rw [hline] at hread
      obtain ⟨rfl, rfl⟩ := Prod.mk.inj (Except.ok.inj hread)
      rcases rest_rioReadlineb hline with ⟨-, rfl, -, hrest'⟩ | hlt
      · rw [CBuf.put_nil] at hloop
        exact ih hrest' hloop
      · rw [hrest] at hlt
        exact Nat.not_lt_zero _ hlt

/-- What is in the buffer is a blank line iff the array is found to hold one. -/
theorem isString_crlf_iff (hline : buf.string = some line) :
    buf.isString crlf = true ↔ line = crlf := by
  rw [CBuf.isString_iff (by decide), hline, Option.some.injEq]

/-- The message fits if the loop ends. -/
theorem headersFit_of_headerLoop (hs : m.string = some s) (hline : buf.string = some line)
    (h : headerLoop fuel rp buf m = .ok m') : HeadersFit line rp.delivered.1 s.length := by
  induction fuel generalizing rp buf m s line with
  | zero => cases h
  | succ fuel ih =>
    cases hbuf : buf.isString crlf with
    | true => exact .inl ⟨(isString_crlf_iff hline).mp hbuf, CBuf.length_lt_of_string hs⟩
    | false =>
      right
      obtain ⟨rp₁, buf₁, message, line₁, m₁, hread, hmessage, hline₁, hm₁, hloop⟩ :=
        (headerLoop_succ_eq_ok hbuf).mp h
      obtain rfl := Option.some.inj (hs.symm.trans hmessage)
      rcases rioReadlinebExit_cases rp buf with ⟨hc, rp₂, heq, hdel⟩ | ⟨hc, ⟨-, heq⟩ |
        ⟨-, rp₂, heq, hrest⟩⟩
      · obtain ⟨rfl, rfl⟩ := Prod.mk.inj (Except.ok.inj (heq.symm.trans hread))
        obtain rfl := Option.some.inj ((string_put_line buf _).symm.trans hline₁)
        have hs₁ := CBuf.string_puts hm₁ (List.not_mem_append (CBuf.not_mem_of_string hs)
          (not_mem_untilNul _))
        have hfit := ih hs₁ hline₁ hloop
        rw [List.length_append, hdel] at hfit
        by_cases hcrlf : (takeLine newline (maxline - 1) rp.delivered.1).1 = crlf
        · have hlt := hfit.lt
          rw [hcrlf] at hlt
          exact ⟨[crlf], .blank hcrlf, hlt⟩
        · obtain ⟨hblank, -⟩ | ⟨ls, hls, hlt⟩ := hfit
          · have hfound := (isString_crlf_iff hline₁).mpr hblank
            exact absurd ((isString_put_line buf _).mp hfound) hcrlf
          · refine ⟨_, .line hc hcrlf hls, ?_⟩
            rw [linesLength_cons, ← Nat.add_assoc]
            exact hlt
      · cases heq.symm.trans hread
      · obtain ⟨rfl, rfl⟩ := Prod.mk.inj (Except.ok.inj (heq.symm.trans hread))
        exact absurd hloop (headerLoop_of_rest_nil hrest (isString_put_rest hc hbuf))

/-- A round of the loop that appends a line. -/
theorem headerLoop_line (hbuf : buf.isString crlf = false)
    (hc : Complete newline (maxline - 1) (takeLine newline (maxline - 1) rp.delivered.1).1)
    (hs : m.string = some s)
    (hfit : s.length + (untilNul (takeLine newline (maxline - 1) rp.delivered.1).1).length <
      maxbuf) :
    ∃ rp₁ m₁, rp₁.delivered.1 = (takeLine newline (maxline - 1) rp.delivered.1).2 ∧
      m₁.string = some (s ++ untilNul (takeLine newline (maxline - 1) rp.delivered.1).1) ∧
      ∀ fuel m', headerLoop fuel rp₁
          (buf.put ((takeLine newline (maxline - 1) rp.delivered.1).1 ++ [0])) m₁ = .ok m' →
        headerLoop (fuel + 1) rp buf m = .ok m' := by
  obtain ⟨-, rp₁, hread, hdel⟩ | ⟨hnc, -⟩ := rioReadlinebExit_cases rp buf
  · obtain ⟨m₁, hm₁⟩ : ∃ m₁, m.puts (s ++ untilNul _) = some m₁ :=
      ⟨_, CBuf.puts_eq_some_iff.mpr ⟨(List.length_append ..).trans_lt hfit, rfl⟩⟩
    refine ⟨rp₁, m₁, hdel, ?_, fun fuel m' hloop => ?_⟩
    · exact CBuf.string_puts hm₁ (List.not_mem_append (CBuf.not_mem_of_string hs)
        (not_mem_untilNul _))
    · exact (headerLoop_succ_eq_ok hbuf).mpr
        ⟨rp₁, _, s, _, m₁, hread, hs, string_put_line buf _, hm₁, hloop⟩
  · exact absurd hc hnc

/-- **The header loop** appends the lines to the message, if they fit. -/
theorem headerLoop_of_headers (hls : Headers rp.delivered.1 ls) (hbuf : buf.isString crlf = false)
    (hs : m.string = some s) (hfit : s.length + linesLength ls < maxbuf)
    (hfuel : ls.length < fuel) :
    ∃ m', headerLoop fuel rp buf m = .ok m' ∧
      m'.string = some (s ++ (ls.map untilNul).flatten) := by
  obtain ⟨bytes, hbytes⟩ : ∃ bytes, rp.delivered.1 = bytes := ⟨_, rfl⟩
  rw [hbytes] at hls
  induction hls generalizing rp buf m s fuel with
  | @blank bytes hcrlf =>
    obtain ⟨fuel, rfl⟩ : ∃ k, fuel = k + 1 + 1 := Nat.exists_eq_add_of_le' hfuel
    subst hbytes
    obtain ⟨rp₁, m₁, -, hs₁, hloop⟩ := headerLoop_line hbuf (by rw [hcrlf]; exact .inl rfl) hs
      (by rw [hcrlf]; exact hfit)
    have hblank := (isString_put_line buf rp.delivered.1).mpr hcrlf
    refine ⟨m₁, hloop _ _ ?_, ?_⟩
    · rw [headerLoop, if_pos hblank]
    · rw [hs₁, hcrlf]
      rfl
  | @line bytes ls hc hcrlf hls ih =>
    obtain ⟨fuel, rfl⟩ : ∃ k, fuel = k + 1 :=
      Nat.exists_eq_add_one_of_ne_zero (Nat.ne_of_gt (Nat.zero_lt_of_lt hfuel))
    subst hbytes
    rw [linesLength_cons, ← Nat.add_assoc] at hfit
    obtain ⟨rp₁, m₁, hdel, hs₁, hloop⟩ := headerLoop_line hbuf hc hs
      (Nat.lt_of_le_of_lt (Nat.le_add_right _ _) hfit)
    have hbuf₁ := Bool.eq_false_iff.mpr fun h => hcrlf ((isString_put_line buf rp.delivered.1).mp h)
    obtain ⟨m', hok, hstring⟩ := ih hbuf₁ hs₁ (by rw [List.length_append]; exact hfit)
      (Nat.lt_of_succ_lt_succ hfuel) hdel
    refine ⟨m', hloop _ _ hok, ?_⟩
    rw [hstring, List.map_cons, List.flatten_cons, List.append_assoc]

/-- The loop ends if the message fits. -/
theorem exists_headerLoop_of_headersFit (hs : m.string = some s) (hline : buf.string = some line)
    (h : HeadersFit line rp.delivered.1 s.length) :
    ∃ fuel m', headerLoop fuel rp buf m = .ok m' ∧ ∃ message, m'.string = some message := by
  cases hbuf : buf.isString crlf with
  | true => exact ⟨1, m, by rw [headerLoop, if_pos hbuf], s, hs⟩
  | false =>
    obtain ⟨hblank, -⟩ | ⟨ls, hls, hlt⟩ := h
    · exact absurd ((isString_crlf_iff hline).mpr hblank) (Bool.eq_false_iff.mp hbuf)
    · obtain ⟨m', hloop, hstring⟩ :=
        headerLoop_of_headers hls hbuf hs hlt (Nat.lt_add_one ls.length)
      exact ⟨_, m', hloop, _, hstring⟩

/-! ## The first line of the message -/

/-- The message starts with the three strings of the request line. -/
theorem firstMessage_eq_some_iff {a pathname version : CBuf maxline} :
    firstMessage m a pathname version = some m' ↔ ∃ s₁ s₂ s₃, a.string = some s₁ ∧
      pathname.string = some s₂ ∧ version.string = some s₃ ∧
      m.puts (s₁ ++ [32] ++ s₂ ++ [32] ++ s₃ ++ crlf) = some m' := by
  unfold firstMessage
  simp only [Option.bind_eq_bind, Option.bind_eq_some_iff, exists_and_left]

/-- The message after the request line, as a string. -/
theorem string_firstMessage {a pathname version : CBuf maxline} {s₁ s₂ s₃ : List UInt8}
    (h₁ : a.string = some s₁) (h₂ : pathname.string = some s₂) (h₃ : version.string = some s₃)
    (h : m.puts (s₁ ++ [32] ++ s₂ ++ [32] ++ s₃ ++ crlf) = some m') :
    m'.string = some (s₁ ++ [32] ++ s₂ ++ [32] ++ s₃ ++ crlf) := by
  refine CBuf.string_puts h ?_
  have hs₁ := CBuf.not_mem_of_string h₁
  have hs₂ := CBuf.not_mem_of_string h₂
  have hs₃ := CBuf.not_mem_of_string h₃
  simp [hs₁, hs₂, hs₃]

/-- The request line of the message: three strings, two spaces and CRLF. -/
theorem length_firstMessage (s₁ s₂ s₃ : List UInt8) :
    (s₁ ++ [32] ++ s₂ ++ [32] ++ s₃ ++ crlf).length = s₁.length + s₂.length + s₃.length + 4 := by
  simp only [List.length_append, List.length_cons, List.length_nil]
  omega

end SystemsLabs.Proxylab
