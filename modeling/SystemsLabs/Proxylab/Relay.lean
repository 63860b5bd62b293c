import SystemsLabs.Proxylab.Rio
import Mathlib.Algebra.Group.Nat.Defs
import Mathlib.Data.Int.Notation
import Mathlib.Data.List.Infix

/-!
# Relaying the response (`proxy.c`)

The part of `doit` between the request to the origin server and the log entry. Images are copied
block by block, which is exact (`relayBlocks_spec`). Text goes through `rio_readlineb`, whose count
is one too large for a line without a newline: each of these is followed by a zero byte
(`relayLines_spec`).

**Assumptions.** No read and no write fails; `FailingRelay` is about those that do.
-/

namespace SystemsLabs.Proxylab

open Lib

/-- `get_filetype`. -/
def getFiletype (filename : List Char) : String :=
  if ".html".toList <:+: filename then "text/html"
  else if ".gif".toList <:+: filename then "image/gif"
  else if ".jpg".toList <:+: filename then "image/jpeg"
  else if ".png".toList <:+: filename then "image/png"
  else "text/plain"

/-- `Rio_readlineb_w`: an error counts as end of file. -/
def rioReadlinebW (rp : Rio) (maxlen : ℕ) : ℕ × List UInt8 × Rio :=
  (rioReadlineb rp maxlen).getD (0, [], rp)

/-- `Rio_readn_w`: an error counts as end of file. -/
def rioReadnW (fd : Fd) (n : ℕ) : List UInt8 × Fd := (rioReadn fd n).getD ([], fd)

/-- Store bytes at the start of a buffer. -/
def store (buf bytes : List UInt8) : List UInt8 := bytes ++ buf.drop bytes.length

/-- The relay loop for text: `size` and the client's socket after it. -/
def relayLines : ℕ → Rio → List UInt8 → ℕ → Sink → Option (ℕ × Sink)
  | 0, _, _, _, _ => none
  | fuel + 1, clientRio, clientBuf, size, connfd =>
    match rioReadlinebW clientRio maxline with
    | (n, bytes, clientRio) =>
      let clientBuf := store clientBuf bytes
      if n = 0 then some (size, connfd)
      else relayLines fuel clientRio clientBuf (size + n) (rioWriten connfd (clientBuf.take n))

/-- The relay loop for images. -/
def relayBlocks : ℕ → Fd → List UInt8 → ℕ → Sink → Option (ℕ × Sink)
  | 0, _, _, _, _ => none
  | fuel + 1, clientfd, clientBuf, size, connfd =>
    match rioReadnW clientfd maxline with
    | (bytes, clientfd) =>
      let n := bytes.length
      let clientBuf := store clientBuf bytes
      if n = 0 then some (size, connfd)
      else relayBlocks fuel clientfd clientBuf (size + n) (rioWriten connfd (clientBuf.take n))

/-- The response part of `doit`. -/
def relay (fuel : ℕ) (pathname : List Char) (clientfd : Fd) (clientBuf : List UInt8)
    (connfd : Sink) : Option (ℕ × Sink) :=
  let filetype := getFiletype pathname
  if filetype = "text/html" ∨ filetype = "text/plain" then
    relayLines fuel (rioReadinitb clientfd) clientBuf 0 connfd
  else if filetype = "image/gif" ∨ filetype = "image/jpeg" ∨ filetype = "image/png" then
    relayBlocks fuel clientfd clientBuf 0 connfd
  else some (0, connfd)

/-- The size in the log entry: `format_log_entry` takes it as an `int`. -/
def loggedSize (size : ℕ) : ℤ := Int.bmod size (2 ^ 32)

variable {fuel : ℕ} {rp : Rio} {fd : Fd} {buf bytes line : List UInt8}

/-! ## Text -/

/-- The bytes that have been stored are at the front. -/
theorem take_store {n : ℕ} (h : n ≤ bytes.length) : (store buf bytes).take n = bytes.take n := by
  rw [store, List.take_append_of_le_length h]

/-- What is written for a line: a zero byte follows one that does not end with a newline. -/
theorem take_lineCount (line : List UInt8) :
    (line ++ [0]).take (lineCount 1 line) =
      line ++ if Terminated newline line then [] else [0] := by
  unfold lineCount
  split_ifs
  · simp
  · rw [Nat.add_comm, List.take_of_length_le (by simp)]

/-- A line that is not empty counts. -/
theorem lineCount_pos (h : line ≠ []) : lineCount 1 line ≠ 0 := by
  have := List.length_pos_iff.mpr h
  unfold lineCount
  split_ifs <;> omega

/-- The count does not exceed the bytes of the line and its zero byte. -/
theorem lineCount_le (line : List UInt8) : lineCount 1 line ≤ (line ++ [0]).length := by
  rw [List.length_append, List.length_singleton]
  unfold lineCount
  split_ifs <;> omega

/-- **The loop for text.** It writes at least the stream, and exactly the stream iff that consists
of lines which `client_buf` can hold. -/
theorem relayLines_spec (buf : List UInt8) (size : ℕ) (connfd : Sink) (h : rp.fd.NoErrors)
    (hfuel : rp.rest.length < fuel) :
    ∃ out connfd', relayLines fuel rp buf size connfd = some (size + out.length, connfd') ∧
      connfd'.out = connfd.out ++ out ∧ rp.rest.length ≤ out.length ∧
      (out = rp.rest ↔ Lines newline (maxline - 1) rp.rest) := by
  induction fuel generalizing rp buf size connfd with
  | zero => exact absurd hfuel (Nat.not_lt_zero _)
  | succ fuel ih =>
    obtain ⟨rp', hne, hrest, hread⟩ := rioReadlineb_spec h (show 1 < maxline by decide)
    unfold relayLines rioReadlinebW
    rw [hread, Option.getD_some]
    by_cases hnil : rp.rest = []
    · refine ⟨[], connfd, ?_, (List.append_nil _).symm, by simp [hnil], ?_⟩
      · simp [hnil]
      · exact ⟨fun _ => hnil ▸ .nil, fun _ => hnil.symm⟩
    · rw [if_neg hnil]
      obtain ⟨line, hline⟩ : ∃ line, (takeLine newline (maxline - 1) rp.rest).1 = line := ⟨_, rfl⟩
      have happend := takeLine_append newline (maxline - 1) rp.rest
      have hlines : Lines newline (maxline - 1) rp.rest ↔ _ := lines_iff hnil
      have hline_ne : (takeLine newline (maxline - 1) rp.rest).1 ≠ [] :=
        takeLine_ne_nil (by decide) hnil
      rw [← hrest, hline] at happend hlines
      rw [hline] at hline_ne ⊢
      have hpos := List.length_pos_iff.mpr hline_ne
      have hlen := congrArg List.length happend
      rw [List.length_append] at hlen
      obtain ⟨out, connfd', heq, hout, hle, hiff⟩ := ih (store buf (line ++ [0]))
        (size + lineCount 1 line)
        (rioWriten connfd ((store buf (line ++ [0])).take (lineCount 1 line))) hne (by omega)
      rw [out_rioWriten, take_store (lineCount_le line), take_lineCount] at hout
      refine ⟨(line ++ if Terminated newline line then [] else [0]) ++ out, connfd', ?_, ?_, ?_, ?_⟩
      · dsimp only
        rw [if_neg (lineCount_pos hline_ne), heq, ← take_lineCount, List.length_append,
          List.length_take, Nat.min_eq_left (lineCount_le line), Nat.add_assoc]
      · rw [hout, List.append_assoc]
      · simp only [List.length_append]
        omega
      · rw [hlines, ← happend]
        by_cases hterm : Terminated newline line
        · rw [if_pos hterm, List.append_nil, List.append_cancel_left_eq, hiff]
          exact ⟨fun h => ⟨hterm, h⟩, fun h => h.2⟩
        · -- the zero byte makes the output longer than the stream
          rw [if_neg hterm]
          refine ⟨fun heq => ?_, fun h => absurd h.1 hterm⟩
          have := congrArg List.length heq
          simp only [List.length_append, List.length_singleton] at this
          omega

/-! ## Images -/

/-- **The loop for images.** It writes the stream. -/
theorem relayBlocks_spec (buf : List UInt8) (size : ℕ) (connfd : Sink) (h : fd.NoErrors)
    (hfuel : fd.pending.length < fuel) :
    ∃ connfd', relayBlocks fuel fd buf size connfd = some (size + fd.pending.length, connfd') ∧
      connfd'.out = connfd.out ++ fd.pending := by
  induction fuel generalizing fd buf size connfd with
  | zero => exact absurd hfuel (Nat.not_lt_zero _)
  | succ fuel ih =>
    obtain ⟨fd', hread, hne, hrest⟩ := rioReadn_spec h maxline
    unfold relayBlocks rioReadnW
    rw [hread, Option.getD_some]
    dsimp only
    by_cases hnil : fd.pending = []
    · exact ⟨connfd, by simp [hnil], by simp [hnil]⟩
    · have hpos := List.length_pos_iff.mpr hnil
      have hmax : 0 < maxline := by decide
      have htake := List.length_take (i := maxline) (l := fd.pending)
      have hlen : (fd.pending.take maxline).length ≠ 0 := by omega
      have hsplit : size + (fd.pending.take maxline).length + fd'.pending.length =
          size + fd.pending.length := by
        rw [hrest, List.length_drop]
        omega
      obtain ⟨connfd', heq, hout⟩ := ih (store buf (fd.pending.take maxline))
        (size + (fd.pending.take maxline).length)
        (rioWriten connfd ((store buf (fd.pending.take maxline)).take
          (fd.pending.take maxline).length)) hne (by omega)
      rw [out_rioWriten, take_store (Nat.le_refl _), List.take_length, hrest, List.append_assoc,
        List.take_append_drop] at hout
      refine ⟨connfd', ?_, hout⟩
      rw [if_neg hlen, heq, hsplit]

/-! ## `doit` -/

/-- The file name is that of an image for `get_filetype`. -/
def IsImage (pathname : List Char) : Prop :=
  getFiletype pathname = "image/gif" ∨ getFiletype pathname = "image/jpeg" ∨
    getFiletype pathname = "image/png"

/-- `get_filetype` chooses a type of text or of an image. -/
theorem getFiletype_cases (pathname : List Char) :
    ((getFiletype pathname = "text/html" ∨ getFiletype pathname = "text/plain") ∧
      ¬ IsImage pathname) ∨
    (¬ (getFiletype pathname = "text/html" ∨ getFiletype pathname = "text/plain") ∧
      IsImage pathname) := by
  unfold IsImage getFiletype
  split_ifs <;> decide

/-- A stream shorter than `2 ^ 31` bytes is logged with its length. -/
theorem loggedSize_of_lt {size : ℕ} (h : size < 2 ^ 31) : loggedSize size = size := by
  unfold loggedSize
  rw [Int.bmod_eq_of_le] <;> omega

/-- **When the relay is exact.** The client gets the stream of the origin server and its length is
logged, if and only if the file is an image or the stream consists of lines of at most 8191 bytes,
each with its newline. -/
theorem relay_exact_iff (pathname : List Char) (stream : List UInt8) (reads : ℕ → Option ℕ)
    (writes : ℕ → ℕ) (clientBuf : List UInt8) (hreads : ∀ i, reads i ≠ none)
    (hlen : stream.length < 2 ^ 31) (fuel : ℕ) (hfuel : stream.length < fuel) :
    ∃ size connfd,
      relay fuel pathname ⟨stream, reads⟩ clientBuf ⟨[], writes⟩ = some (size, connfd) ∧
      ((connfd.out = stream ∧ loggedSize size = stream.length) ↔
        (IsImage pathname ∨ Lines newline (maxline - 1) stream)) := by
  have hne : (⟨stream, reads⟩ : Fd).NoErrors := hreads
  unfold relay
  rcases getFiletype_cases pathname with ⟨htext, himage⟩ | ⟨htext, himage⟩
  · obtain ⟨out, connfd, heq, hout, -, hiff⟩ :=
      relayLines_spec clientBuf 0 ⟨[], writes⟩
        (show (rioReadinitb ⟨stream, reads⟩).fd.NoErrors from hne) hfuel
    rw [if_pos htext]
    refine ⟨_, connfd, heq, ?_⟩
    rw [hout, List.nil_append, Nat.zero_add]
    rw [rest_rioReadinitb] at hiff
    constructor
    · exact fun h => Or.inr (hiff.mp h.1)
    · intro h
      have heq' := hiff.mpr (h.resolve_left himage)
      exact ⟨heq', by rw [heq', loggedSize_of_lt hlen]⟩
  · obtain ⟨connfd, heq, hout⟩ := relayBlocks_spec clientBuf 0 ⟨[], writes⟩ hne hfuel
    rw [if_neg htext, if_pos (show _ ∨ _ from himage)]
    refine ⟨_, connfd, heq, fun _ => Or.inl himage, fun _ => ⟨hout, ?_⟩⟩
    rw [Nat.zero_add]
    exact loggedSize_of_lt hlen

/-- A line with its newline, read and written byte by byte. -/
theorem relay_exact_iff_example :
    ∃ size connfd, relay 4 "/index.html".toList ⟨[104, 105, 10], fun _ => some 0⟩ []
      ⟨[], fun _ => 0⟩ = some (size, connfd) ∧
      connfd.out = [104, 105, 10] ∧ loggedSize size = 3 := by
  obtain ⟨size, connfd, heq, hiff⟩ := relay_exact_iff "/index.html".toList [104, 105, 10]
    (fun _ => some 0) (fun _ => 0) [] (fun _ => Option.some_ne_none 0) (by decide) 4 (by decide)
  have hlines : Lines newline (maxline - 1) ([104, 105] ++ newline :: []) :=
    .line (by decide) (by decide) .nil
  exact ⟨size, connfd, heq, hiff.mpr (Or.inr hlines)⟩

/-- A page of one byte reaches the client as two. -/
theorem exists_relay_ne :
    ∃ size connfd, relay 2 "/index.html".toList ⟨[104], fun _ => some 0⟩ [] ⟨[], fun _ => 0⟩ =
      some (size, connfd) ∧ connfd.out ≠ [104] ∧ loggedSize size ≠ 1 := by
  obtain ⟨⟨size, connfd⟩, heq, hval⟩ := Option.map_eq_some_iff.mp (show
    (relay 2 "/index.html".toList ⟨[104], fun _ => some 0⟩ [] ⟨[], fun _ => 0⟩).map
      (fun r => (loggedSize r.1, r.2.out)) = some (2, [104, 0]) by decide +kernel)
  obtain ⟨hsize, hout⟩ := Prod.mk.inj hval
  exact ⟨size, connfd, heq, by rw [hout]; decide, by rw [hsize]; decide⟩

end SystemsLabs.Proxylab
