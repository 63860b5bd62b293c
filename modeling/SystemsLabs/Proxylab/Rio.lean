import SystemsLabs.Lib.Lines

/-!
# Buffered and unbuffered robust I/O (`csapp.c`)

The peer of a descriptor sends a byte stream and closes; how its bytes are split among the results
of `read` is a parameter, and so is how many bytes each `write` accepts. A `read` that a signal
interrupts is repeated by every caller and does not appear. `rioReadlineb_spec`, `rioReadn_spec` and
`out_rioWriten` say what the routines do to the stream, whatever the segmentation.

**Assumptions.** A descriptor is read by one thread only. Requests for more bytes than a `ssize_t`
holds do not occur.
-/

namespace SystemsLabs.Proxylab

open Lib

/-- `MAXLINE`. -/
abbrev maxline : ℕ := 8192

/-- `RIO_BUFSIZE`. -/
abbrev rioBufsize : ℕ := 8192

/-- The newline character. -/
abbrev newline : UInt8 := 10

/-! ## Reading -/

/-- A descriptor that is read from. -/
structure Fd where
  /-- What the peer sends before it closes, and has not been read yet. -/
  pending : List UInt8
  /-- The outcomes of the next calls of `read`: an error, or at most `k + 1` bytes. -/
  reads : ℕ → Option ℕ

/-- `read`: the bytes read, none of them at end of file; `none` is an error. -/
def Fd.read (fd : Fd) (n : ℕ) : Option (List UInt8 × Fd) :=
  (fd.reads 0).map fun k =>
    (fd.pending.take (min n (k + 1)), ⟨fd.pending.drop (min n (k + 1)), fun i => fd.reads (i + 1)⟩)

/-- `rio_t`. -/
structure Rio where
  fd : Fd
  /-- The `rio_cnt` bytes from `rio_bufptr` on. -/
  unread : List UInt8

/-- `rio_readinitb`. -/
def rioReadinitb (fd : Fd) : Rio := ⟨fd, []⟩

/-- `rio_read`. -/
def rioRead (rp : Rio) (n : ℕ) : Option (List UInt8 × Rio) := do
  let rp ←
    if rp.unread = [] then (rp.fd.read rioBufsize).map fun r => ⟨r.2, r.1⟩
    else some rp
  return (rp.unread.take n, { rp with unread := rp.unread.drop n })

/-- The loop of `rio_readlineb`, with `k = maxlen - n`. The result is the returned value and the
bytes that are stored to `usrbuf` from here on. -/
def readlineFrom : ℕ → ℕ → Rio → Option (ℕ × List UInt8 × Rio)
  | 0, n, rp => some (n, [0], rp)
  | k + 1, n, rp =>
    match rioRead rp 1 with
    | none => none
    | some ([], rp) => some (if n = 1 then (0, [], rp) else (n, [0], rp))
    | some (c :: _, rp) =>
      if c = newline then some (n, [c, 0], rp)
      else (readlineFrom k (n + 1) rp).map fun r => (r.1, c :: r.2.1, r.2.2)

/-- `rio_readlineb`. -/
def rioReadlineb (rp : Rio) (maxlen : ℕ) : Option (ℕ × List UInt8 × Rio) :=
  readlineFrom (maxlen - 1) 1 rp

/-- The loop of `rio_readn`. -/
def readnFrom : ℕ → Fd → ℕ → Option (List UInt8 × Fd)
  | 0, fd, _ => some ([], fd)
  | fuel + 1, fd, nleft =>
    if nleft = 0 then some ([], fd)
    else
      match fd.read nleft with
      | none => none
      | some ([], fd) => some ([], fd)
      | some (bytes, fd) =>
        (readnFrom fuel fd (nleft - bytes.length)).map fun r => (bytes ++ r.1, r.2)

/-- `rio_readn`: the bytes stored to `usrbuf`. Every round reads a byte, so `n` rounds are enough.
-/
def rioReadn (fd : Fd) (n : ℕ) : Option (List UInt8 × Fd) := readnFrom n fd n

/-! ## Writing -/

/-- A descriptor that is written to. -/
structure Sink where
  out : List UInt8
  /-- The next calls of `write` accept at most `k + 1` bytes. -/
  writes : ℕ → ℕ

/-- `write`: the number of bytes accepted. -/
def Sink.write (s : Sink) (bytes : List UInt8) : ℕ × Sink :=
  let k := min bytes.length (s.writes 0 + 1)
  (k, ⟨s.out ++ bytes.take k, fun i => s.writes (i + 1)⟩)

/-- The loop of `rio_writen`. -/
def writenFrom : ℕ → Sink → List UInt8 → Sink
  | 0, s, _ => s
  | fuel + 1, s, bytes =>
    if bytes = [] then s
    else
      let r := s.write bytes
      writenFrom fuel r.2 (bytes.drop r.1)

/-- `rio_writen`. Every round writes a byte. -/
def rioWriten (s : Sink) (bytes : List UInt8) : Sink := writenFrom bytes.length s bytes

/-! ## What the routines do to the streams -/

variable {fd : Fd} {rp : Rio} {k n : ℕ}

/-- No `read` fails. -/
def Fd.NoErrors (fd : Fd) : Prop := ∀ i, fd.reads i ≠ none

/-- What a reader will still see. -/
def Rio.rest (rp : Rio) : List UInt8 := rp.unread ++ rp.fd.pending

/-- The buffer is empty. -/
@[simp] theorem rest_rioReadinitb : (rioReadinitb fd).rest = fd.pending := rfl

/-- A `read` takes a part of the stream, which is empty only at its end. -/
theorem Fd.NoErrors.read (h : fd.NoErrors) (hn : 0 < n) :
    ∃ bytes fd', fd.read n = some (bytes, fd') ∧ fd'.NoErrors ∧ fd.pending = bytes ++ fd'.pending ∧
      bytes.length ≤ n ∧ (bytes = [] → fd.pending = []) := by
  obtain ⟨k, hk⟩ := Option.ne_none_iff_exists'.mp (h 0)
  refine ⟨_, _, by rw [Fd.read, hk, Option.map_some], fun i => h (i + 1), ?_, ?_, ?_⟩
  · exact (List.take_append_drop _ _).symm
  · rw [List.length_take]
    omega
  · intro hnil
    rcases List.take_eq_nil_iff.mp hnil with hmin | hnil
    · omega
    · exact hnil

/-- One byte of the stream, or end of file. -/
theorem rioRead_one (h : rp.fd.NoErrors) :
    (rp.rest = [] ∧ ∃ rp', rioRead rp 1 = some ([], rp') ∧ rp'.fd.NoErrors ∧ rp'.rest = []) ∨
    ∃ c s rp', rp.rest = c :: s ∧ rioRead rp 1 = some ([c], rp') ∧ rp'.fd.NoErrors ∧
      rp'.rest = s := by
  obtain ⟨fd, unread⟩ := rp
  unfold rioRead Rio.rest
  cases unread with
  | nil =>
    obtain ⟨bytes, fd', hread, hne, hpending, -, heof⟩ :=
      Fd.NoErrors.read h (show 0 < rioBufsize by decide)
    simp only [hread, if_true, Option.map_some, Option.bind_eq_bind, Option.bind_some,
      Option.pure_def]
    cases bytes with
    | nil =>
      have hnil := heof rfl
      refine Or.inl ⟨hnil, _, rfl, hne, ?_⟩
      rw [hnil] at hpending
      simpa using hpending.symm
    | cons c bytes => exact Or.inr ⟨c, bytes ++ fd'.pending, _, hpending, rfl, hne, rfl⟩
  | cons c unread =>
    exact Or.inr ⟨c, unread ++ fd.pending, ⟨fd, unread⟩, rfl, rfl, h, rfl⟩

/-- The count that `rio_readlineb` returns for a line that it has read `n - 1` bytes before: at a
newline it leaves the loop before `n` is raised. -/
def lineCount (n : ℕ) (line : List UInt8) : ℕ :=
  if Terminated newline line then n - 1 + line.length else n + line.length

/-- At the end of the stream the count stays. -/
theorem lineCount_nil (n : ℕ) : lineCount n [] = n := by
  rw [lineCount, if_neg not_terminated_nil, List.length_nil, Nat.add_zero]

/-- An empty line counts. -/
theorem lineCount_newline (hn : 0 < n) : lineCount n [newline] = n := by
  rw [lineCount, if_pos (terminated_singleton.mpr rfl), List.length_singleton]
  omega

/-- Counting goes on behind a byte that does not end the line. -/
theorem lineCount_succ {c : UInt8} (hc : c ≠ newline) (hn : 0 < n) (line : List UInt8) :
    lineCount (n + 1) line = lineCount n (c :: line) := by
  unfold lineCount
  by_cases hnil : line = []
  · simp [hnil, not_terminated_nil, terminated_singleton, hc]
  · simp only [terminated_cons hnil, List.length_cons]
    split_ifs <;> omega

/-- The loop reads a line of the stream. -/
theorem readlineFrom_spec (h : rp.fd.NoErrors) (hn : 1 < n ∨ rp.rest ≠ []) (hpos : 0 < n) :
    ∃ rp', readlineFrom k n rp = some (lineCount n (takeLine newline k rp.rest).1,
        (takeLine newline k rp.rest).1 ++ [0], rp') ∧
      rp'.fd.NoErrors ∧ rp'.rest = (takeLine newline k rp.rest).2 := by
  induction k generalizing n rp with
  | zero => exact ⟨rp, rfl, h, rfl⟩
  | succ k ih =>
    rcases rioRead_one h with ⟨hnil, rp', hread, hne, hrest⟩ | ⟨c, s, rp', hcons, hread, hne, rfl⟩
    · have hn1 : n ≠ 1 := by
        rcases hn with hn | hn
        · omega
        · exact absurd hnil hn
      refine ⟨rp', ?_, hne, by rw [hrest, hnil]; rfl⟩
      rw [readlineFrom, hread, hnil]
      simp [hn1, lineCount, not_terminated_nil]
    · rw [readlineFrom, hread, hcons, takeLine]
      by_cases hc : c = newline
      · refine ⟨rp', ?_, hne, by simp [hc]⟩
        simp [hc, lineCount_newline hpos]
      · obtain ⟨rp'', heq, hne', hrest⟩ := ih (n := n + 1) hne (Or.inl (by omega)) (by omega)
        refine ⟨rp'', ?_, hne', by rw [if_neg hc]; exact hrest⟩
        simp [hc, heq, lineCount_succ hc hpos]

/-- **`rio_readlineb`.** At end of file it returns 0. Otherwise it stores a line of at most `maxlen
- 1` bytes and a zero byte, and returns the length of the line, plus one if it does not end with a
newline. -/
theorem rioReadlineb_spec {maxlen : ℕ} (h : rp.fd.NoErrors) (hmax : 1 < maxlen) :
    ∃ rp', rp'.fd.NoErrors ∧ rp'.rest = (takeLine newline (maxlen - 1) rp.rest).2 ∧
      rioReadlineb rp maxlen = some (
        if rp.rest = [] then (0, [], rp')
        else (lineCount 1 (takeLine newline (maxlen - 1) rp.rest).1,
          (takeLine newline (maxlen - 1) rp.rest).1 ++ [0], rp')) := by
  by_cases hnil : rp.rest = []
  · obtain ⟨k, hk⟩ := Nat.exists_eq_add_of_lt hmax
    rcases rioRead_one h with ⟨-, rp', hread, hne, hrest⟩ | ⟨c, s, rp', hcons, -⟩
    · refine ⟨rp', hne, by rw [hrest, hnil, takeLine_nil], ?_⟩
      rw [rioReadlineb, if_pos hnil, hk, show 1 + k + 1 - 1 = k + 1 by omega, readlineFrom, hread]
      rfl
    · exact absurd (hnil.symm.trans hcons) (List.cons_ne_nil _ _).symm
  · obtain ⟨rp', heq, hne, hrest⟩ := readlineFrom_spec h (Or.inr hnil) Nat.one_pos
    exact ⟨rp', hne, hrest, by rw [if_neg hnil]; exact heq⟩

/-- If no read fails, as many bytes are read as are asked for, or all. -/
theorem readnFrom_spec {fuel : ℕ} (h : fd.NoErrors) (hfuel : n ≤ fuel) :
    ∃ fd', readnFrom fuel fd n = some (fd.pending.take n, fd') ∧ fd'.NoErrors ∧
      fd'.pending = fd.pending.drop n := by
  induction fuel generalizing fd n with
  | zero =>
    obtain rfl : n = 0 := by omega
    exact ⟨fd, rfl, h, rfl⟩
  | succ fuel ih =>
    by_cases hn : n = 0
    · subst hn
      exact ⟨fd, rfl, h, rfl⟩
    · obtain ⟨bytes, fd', hread, hne, hpending, hlen, heof⟩ := h.read (Nat.pos_of_ne_zero hn)
      rw [readnFrom, if_neg hn, hread]
      cases bytes with
      | nil =>
        have hnil := heof rfl
        rw [hnil] at hpending
        refine ⟨fd', by rw [hnil, List.take_nil], hne, ?_⟩
        rw [hnil, List.drop_nil]
        simpa using hpending.symm
      | cons c bytes =>
        have hpos : 0 < (c :: bytes).length := Nat.succ_pos _
        obtain ⟨fd'', heq, hne', hrest⟩ := ih (n := n - (c :: bytes).length) hne (by omega)
        refine ⟨fd'', ?_, hne', ?_⟩
        · rw [hpending, List.take_append, List.take_of_length_le hlen]
          simp only [heq, Option.map_some]
        · rw [hpending, List.drop_append, List.drop_of_length_le hlen]
          exact hrest

/-- **`rio_readn`.** It reads `n` bytes, or the rest of the stream. -/
theorem rioReadn_spec (h : fd.NoErrors) (n : ℕ) :
    ∃ fd', rioReadn fd n = some (fd.pending.take n, fd') ∧ fd'.NoErrors ∧
      fd'.pending = fd.pending.drop n :=
  readnFrom_spec h (Nat.le_refl n)

/-- All bytes are written. -/
theorem out_writenFrom {fuel : ℕ} {bytes : List UInt8} (s : Sink) (h : bytes.length ≤ fuel) :
    (writenFrom fuel s bytes).out = s.out ++ bytes := by
  induction fuel generalizing s bytes with
  | zero =>
    obtain rfl := List.length_eq_zero_iff.mp (Nat.le_zero.mp h)
    exact (List.append_nil _).symm
  | succ fuel ih =>
    unfold writenFrom
    split_ifs with hnil
    · rw [hnil, List.append_nil]
    · have hpos := List.length_pos_iff.mpr hnil
      rw [ih _ (by simp only [Sink.write, List.length_drop]; omega)]
      simp only [Sink.write, List.append_assoc, List.take_append_drop]

/-- **`rio_writen`.** All bytes are written. -/
theorem out_rioWriten (s : Sink) (bytes : List UInt8) : (rioWriten s bytes).out = s.out ++ bytes :=
  out_writenFrom s (Nat.le_refl _)

end SystemsLabs.Proxylab
