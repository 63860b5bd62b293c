import SystemsLabs.Proxylab.Delivery
import SystemsLabs.Proxylab.Relay

/-!
# Relaying the response when reads and writes may fail

The relay loops over any kind of socket that the client is written to. Over `rio_writen` they are
those of `relay` (`relay_eq`); `Sock` is a socket whose writes may fail. Whatever fails, the relay
ends and has counted `responseSize` bytes, which is about the stream of the origin server only: an
error of a read counts as its end (`relayWith_size`).

**Scope.** Any read and any write may fail, and writes may be partial.
-/

namespace SystemsLabs.Proxylab

open Lib

/-! ## Descriptors -/

/-- A descriptor that is written to, when writes may fail. -/
structure Sock where
  out : List UInt8
  /-- The outcomes of the next calls of `write`: an error, or at most `k + 1` bytes are accepted. -/
  writes : ℕ → Option ℕ

/-- The loop of `rio_writen`, which ends with the first error. -/
def writenWFrom : ℕ → Sock → List UInt8 → Sock
  | 0, s, _ => s
  | fuel + 1, s, bytes =>
    if bytes = [] then s
    else
      match s.writes 0 with
      | none => { s with writes := fun i => s.writes (i + 1) }
      | some k =>
        let n := min bytes.length (k + 1)
        writenWFrom fuel ⟨s.out ++ bytes.take n, fun i => s.writes (i + 1)⟩ (bytes.drop n)

/-- `Rio_writen_w`: an error is ignored, also that of a connection which the other side has closed
(`main` ignores `SIGPIPE`). -/
def rioWritenW (s : Sock) (bytes : List UInt8) : Sock := writenWFrom bytes.length s bytes

/-- A negative descriptor cannot be read from. -/
def Fd.bad : Fd := ⟨[], fun _ => none⟩

/-- A negative descriptor cannot be written to. -/
def Sock.bad : Sock := ⟨[], fun _ => none⟩

/-! ## The relay loops -/

section With

variable {σ : Type*} (writen : σ → List UInt8 → σ)

/-- The relay loop for text. -/
def relayLinesWith : ℕ → Rio → List UInt8 → ℕ → σ → Option (ℕ × σ)
  | 0, _, _, _, _ => none
  | fuel + 1, clientRio, clientBuf, size, connfd =>
    match rioReadlinebW clientRio maxline with
    | (n, bytes, clientRio) =>
      let clientBuf := store clientBuf bytes
      if n = 0 then some (size, connfd)
      else relayLinesWith fuel clientRio clientBuf (size + n) (writen connfd (clientBuf.take n))

/-- The relay loop for images. -/
def relayBlocksWith : ℕ → Fd → List UInt8 → ℕ → σ → Option (ℕ × σ)
  | 0, _, _, _, _ => none
  | fuel + 1, clientfd, clientBuf, size, connfd =>
    match rioReadnW clientfd maxline with
    | (bytes, clientfd) =>
      let n := bytes.length
      let clientBuf := store clientBuf bytes
      if n = 0 then some (size, connfd)
      else relayBlocksWith fuel clientfd clientBuf (size + n) (writen connfd (clientBuf.take n))

/-- The response part of `doit`. -/
def relayWith (fuel : ℕ) (pathname : List Char) (clientfd : Fd) (clientBuf : List UInt8)
    (connfd : σ) : Option (ℕ × σ) :=
  let filetype := getFiletype pathname
  if filetype = "text/html" ∨ filetype = "text/plain" then
    relayLinesWith writen fuel (rioReadinitb clientfd) clientBuf 0 connfd
  else if filetype = "image/gif" ∨ filetype = "image/jpeg" ∨ filetype = "image/png" then
    relayBlocksWith writen fuel clientfd clientBuf 0 connfd
  else some (0, connfd)

end With

/-! ## The response as it is counted -/

/-- What the loop for text counts: a line counts for one more byte if it does not end with a
newline, and one that a failure cuts off does not count. -/
def linesSize (failed : Bool) : ℕ → List UInt8 → ℕ
  | 0, _ => 0
  | fuel + 1, bytes =>
    let r := takeLine newline (maxline - 1) bytes
    if bytes = [] then 0
    else if Complete newline (maxline - 1) r.1 then lineCount 1 r.1 + linesSize failed fuel r.2
    else if failed then 0
    else lineCount 1 bytes

/-- What the loop for images counts: a block that a failure cuts off does not count. -/
def blocksSize (n : ℕ) (failed : Bool) (size : ℕ) : ℕ := if failed then size / n * n else size

/-- How many bytes of the response are counted. -/
def responseSize (pathname : List Char) (clientfd : Fd) : ℕ :=
  let filetype := getFiletype pathname
  if filetype = "text/html" ∨ filetype = "text/plain" then
    let r := clientfd.delivered
    linesSize r.2 r.1.length r.1
  else if filetype = "image/gif" ∨ filetype = "image/jpeg" ∨ filetype = "image/png" then
    let r := clientfd.deliveredTo (nextBlock maxline) maxline
    blocksSize maxline r.2 r.1.length
  else 0

variable {σ : Type*} {fuel n k : ℕ} {rp : Rio} {fd : Fd}

/-! ## Writes that do not fail -/

/-- If no write fails, all bytes are written. -/
theorem out_writenWFrom {bytes : List UInt8} (s : Sock) (hs : ∀ i, s.writes i ≠ none)
    (h : bytes.length ≤ fuel) : (writenWFrom fuel s bytes).out = s.out ++ bytes := by
  induction fuel generalizing s bytes with
  | zero =>
    obtain rfl := List.length_eq_zero_iff.mp (Nat.le_zero.mp h)
    exact (List.append_nil _).symm
  | succ fuel ih =>
    unfold writenWFrom
    split_ifs with hnil
    · rw [hnil, List.append_nil]
    · have hpos := List.length_pos_iff.mpr hnil
      obtain ⟨k, hk⟩ := Option.ne_none_iff_exists'.mp (hs 0)
      rw [hk]
      dsimp only
      rw [ih _ (fun i => hs (i + 1)) (by rw [List.length_drop]; omega), List.append_assoc,
        List.take_append_drop]

/-- All bytes are written. -/
theorem out_rioWritenW (s : Sock) (hs : ∀ i, s.writes i ≠ none) (bytes : List UInt8) :
    (rioWritenW s bytes).out = s.out ++ bytes :=
  out_writenWFrom s hs (Nat.le_refl _)

/-! ## The relay ends -/

/-- The loops of `relay` write with `rio_writen`. -/
theorem relayLines_eq (fuel : ℕ) (rp : Rio) (buf : List UInt8) (size : ℕ) (connfd : Sink) :
    relayLinesWith rioWriten fuel rp buf size connfd = relayLines fuel rp buf size connfd := by
  induction fuel generalizing rp buf size connfd with
  | zero => rfl
  | succ fuel ih =>
    unfold relayLinesWith relayLines
    dsimp only
    split_ifs
    · rfl
    · exact ih _ _ _ _

/-- The relay of blocks with the routine that does not fail. -/
theorem relayBlocks_eq (fuel : ℕ) (fd : Fd) (buf : List UInt8) (size : ℕ) (connfd : Sink) :
    relayBlocksWith rioWriten fuel fd buf size connfd = relayBlocks fuel fd buf size connfd := by
  induction fuel generalizing fd buf size connfd with
  | zero => rfl
  | succ fuel ih =>
    unfold relayBlocksWith relayBlocks
    dsimp only
    split_ifs
    · rfl
    · exact ih _ _ _ _

/-- **The relay of the response**, if no write fails. -/
theorem relay_eq (fuel : ℕ) (pathname : List Char) (clientfd : Fd) (buf : List UInt8)
    (connfd : Sink) :
    relayWith rioWriten fuel pathname clientfd buf connfd =
      relay fuel pathname clientfd buf connfd := by
  unfold relayWith relay
  rw [relayLines_eq, relayBlocks_eq]

/-- No lines, no bytes. -/
@[simp] theorem linesSize_nil (b : Bool) (k : ℕ) : linesSize b k [] = 0 := by
  cases k <;> rfl

/-- Nothing is left to deliver. -/
theorem delivered_of_rest_nil (h : rp.rest = []) : rp.delivered.1 = [] := by
  have hle := rp.length_delivered
  rw [h] at hle
  exact List.length_eq_zero_iff.mp (Nat.le_zero.mp hle)

/-- One round of the loop for text: nothing more counts, or the line counts and less is left. -/
theorem rioReadlinebW_size (hk : rp.delivered.1.length ≤ k) :
    ∃ n bytes rp', rioReadlinebW rp maxline = (n, bytes, rp') ∧
      (n = 0 ∧ linesSize rp.delivered.2 k rp.delivered.1 = 0 ∨
        n ≠ 0 ∧ rp'.rest.length < rp.rest.length ∧ ∃ k', rp'.delivered.1.length ≤ k' ∧
          linesSize rp.delivered.2 k rp.delivered.1 =
            n + linesSize rp'.delivered.2 k' rp'.delivered.1) := by
  obtain ⟨hcomplete, hcut⟩ := rioReadlineb_delivered rp
  unfold rioReadlinebW
  by_cases hnil : rp.delivered.1 = []
  · rw [hnil, takeLine_nil] at hcut
    obtain ⟨hfail, hend⟩ := hcut (not_complete_nil (by decide))
    rw [hnil, linesSize_nil]
    cases hb : rp.delivered.2 with
    | true => exact ⟨0, [], rp, by rw [hfail hb]; rfl, .inl ⟨rfl, rfl⟩⟩
    | false =>
      obtain ⟨rp', -, hread⟩ := hend hb
      exact ⟨0, [], rp', by rw [hread]; rfl, .inl ⟨rfl, rfl⟩⟩
  · have hlen := List.length_pos_iff.mpr hnil
    have hrest := rp.length_delivered
    obtain ⟨k, rfl⟩ : ∃ k', k = k' + 1 := Nat.exists_eq_add_one_of_ne_zero (by omega)
    rw [linesSize, if_neg hnil]
    by_cases hc : Complete newline (maxline - 1) (takeLine newline (maxline - 1) rp.delivered.1).1
    · obtain ⟨rp', hread, hdel⟩ := hcomplete hc
      have hline : (takeLine newline (maxline - 1) rp.delivered.1).1 ≠ [] :=
        takeLine_ne_nil (by decide) hnil
      have happend := congrArg List.length (takeLine_append newline (maxline - 1) rp.delivered.1)
      rw [List.length_append] at happend
      have hpos := List.length_pos_iff.mpr hline
      refine ⟨_, _, rp', by rw [hread]; rfl, .inr ⟨lineCount_pos hline, ?_, k, ?_, ?_⟩⟩
      · exact (rest_rioReadlineb hread).resolve_left fun h => lineCount_pos hline h.1
      · rw [hdel]
        dsimp only
        omega
      · rw [if_pos hc, hdel]
    · obtain ⟨hfail, hend⟩ := hcut hc
      rw [if_neg hc]
      cases hb : rp.delivered.2 with
      | true => exact ⟨0, [], rp, by rw [hfail hb]; rfl, .inl ⟨rfl, rfl⟩⟩
      | false =>
        obtain ⟨rp', hrest', hread⟩ := hend hb
        rw [if_neg hnil] at hread
        refine ⟨_, _, rp', by rw [hread]; rfl, .inr ⟨lineCount_pos hnil, ?_, 0, ?_, ?_⟩⟩
        · rw [hrest']
          exact Nat.lt_of_lt_of_le hlen hrest
        · rw [delivered_of_rest_nil hrest']
          exact Nat.le_refl 0
        · rw [delivered_of_rest_nil hrest', linesSize_nil]
          rfl

/-- The loop for text. -/
theorem relayLinesWith_size (writen : σ → List UInt8 → σ) (rp : Rio) (buf : List UInt8)
    (size : ℕ) (connfd : σ) (hk : rp.delivered.1.length ≤ k) (hfuel : rp.rest.length < fuel) :
    ∃ connfd', relayLinesWith writen fuel rp buf size connfd =
      some (size + linesSize rp.delivered.2 k rp.delivered.1, connfd') := by
  induction fuel generalizing rp buf size connfd k with
  | zero => exact absurd hfuel (Nat.not_lt_zero _)
  | succ fuel ih =>
    obtain ⟨n, bytes, rp', hread, ⟨rfl, hzero⟩ | ⟨hn, hlt, k', hk', hsize⟩⟩ :=
      rioReadlinebW_size hk
    · rw [relayLinesWith, hread, hzero]
      exact ⟨connfd, rfl⟩
    · rw [relayLinesWith, hread, hsize]
      dsimp only
      rw [if_neg hn, ← Nat.add_assoc]
      exact ih rp' _ _ _ hk' (by omega)

/-- Nothing is pending. -/
theorem deliveredTo_of_pending_nil (h : fd.pending = []) (next : ℕ → ℕ → ℕ) (ask : ℕ) :
    (fd.deliveredTo next ask).1 = [] := by
  have hle : (fd.deliveredTo next ask).1.length ≤ fd.pending.length :=
    length_deliveredFrom next (fd.pending.length + 1) ask fd
  rw [h] at hle
  exact List.length_eq_zero_iff.mp (Nat.le_zero.mp hle)

/-- A block that is complete counts. -/
theorem blocksSize_add (hn : 0 < n) (failed : Bool) (size : ℕ) :
    blocksSize n failed (n + size) = n + blocksSize n failed size := by
  unfold blocksSize
  split_ifs
  · rw [Nat.add_div_left size hn, Nat.succ_mul, Nat.add_comm]
  · rfl

/-- No bytes, no blocks. -/
theorem blocksSize_zero (n : ℕ) (failed : Bool) : blocksSize n failed 0 = 0 := by
  simp [blocksSize]

/-- One round of the loop for images: nothing more counts, or the block counts and less is left. -/
theorem rioReadnW_size (fd : Fd) (hn : 0 < n) :
    ∃ bytes fd', rioReadnW fd n = (bytes, fd') ∧
      (bytes = [] ∧ blocksSize n (fd.deliveredTo (nextBlock n) n).2
          (fd.deliveredTo (nextBlock n) n).1.length = 0 ∨
        bytes ≠ [] ∧ fd'.pending.length < fd.pending.length ∧
          blocksSize n (fd.deliveredTo (nextBlock n) n).2
              (fd.deliveredTo (nextBlock n) n).1.length =
            bytes.length + blocksSize n (fd'.deliveredTo (nextBlock n) n).2
              (fd'.deliveredTo (nextBlock n) n).1.length) := by
  obtain ⟨hfull, hshort⟩ := readnFrom_delivered n fd hn (Nat.le_refl n)
  unfold rioReadnW rioReadn
  rcases Nat.lt_or_ge (fd.deliveredTo (nextBlock n) n).1.length n with hlt | hge
  · obtain ⟨hfail, hend⟩ := hshort hlt
    cases hb : (fd.deliveredTo (nextBlock n) n).2 with
    | true =>
      refine ⟨[], fd, by rw [hfail hb]; rfl, .inl ⟨rfl, ?_⟩⟩
      rw [blocksSize, if_pos rfl, Nat.div_eq_of_lt hlt, Nat.zero_mul]
    | false =>
      obtain ⟨fd', hnil', hread⟩ := hend hb
      refine ⟨_, fd', by rw [hread]; rfl, ?_⟩
      rw [deliveredTo_of_pending_nil hnil']
      by_cases hnil : (fd.deliveredTo (nextBlock n) n).1 = []
      · exact .inl ⟨hnil, by rw [hnil]; rfl⟩
      · have hlen := congrArg List.length (pending_readnFrom hread)
        rw [List.length_append] at hlen
        have hpos := List.length_pos_iff.mpr hnil
        refine .inr ⟨hnil, by omega, ?_⟩
        rw [List.length_nil, blocksSize_zero]
        rfl
  · obtain ⟨fd', hread, hdel⟩ := hfull hge
    have hlen := congrArg List.length (pending_readnFrom hread)
    have htake := List.length_take_of_le hge
    rw [List.length_append, htake] at hlen
    refine ⟨_, fd', by rw [hread]; rfl, .inr ⟨?_, by omega, ?_⟩⟩
    · exact List.length_pos_iff.mp (by rw [htake]; exact hn)
    · rw [hdel, htake, List.length_drop, ← blocksSize_add hn, Nat.add_sub_cancel' hge]

/-- The loop for images. -/
theorem relayBlocksWith_size (writen : σ → List UInt8 → σ) (fd : Fd) (buf : List UInt8)
    (size : ℕ) (connfd : σ) (hfuel : fd.pending.length < fuel) :
    ∃ connfd', relayBlocksWith writen fuel fd buf size connfd =
      some (size + blocksSize maxline (fd.deliveredTo (nextBlock maxline) maxline).2
        (fd.deliveredTo (nextBlock maxline) maxline).1.length, connfd') := by
  induction fuel generalizing fd buf size connfd with
  | zero => exact absurd hfuel (Nat.not_lt_zero _)
  | succ fuel ih =>
    obtain ⟨bytes, fd', hread, ⟨rfl, hzero⟩ | ⟨hne, hlt, hsize⟩⟩ :=
      rioReadnW_size fd (show 0 < maxline by decide)
    · rw [relayBlocksWith, hread, hzero]
      exact ⟨connfd, rfl⟩
    · rw [relayBlocksWith, hread, hsize]
      dsimp only
      rw [if_neg (mt List.length_eq_zero_iff.mp hne), ← Nat.add_assoc]
      exact ih fd' _ _ _ (by omega)

/-- **The relay ends**, whatever fails, and has counted the response. -/
theorem relayWith_size (writen : σ → List UInt8 → σ) (pathname : List Char) (clientfd : Fd)
    (buf : List UInt8) (connfd : σ) (hfuel : clientfd.pending.length < fuel) :
    ∃ connfd', relayWith writen fuel pathname clientfd buf connfd =
      some (responseSize pathname clientfd, connfd') := by
  unfold relayWith responseSize
  dsimp only
  split_ifs
  · obtain ⟨connfd', heq⟩ := relayLinesWith_size writen (rioReadinitb clientfd) buf 0 connfd
      (Nat.le_refl _) hfuel
    rw [Nat.zero_add, delivered_rioReadinitb] at heq
    exact ⟨connfd', heq⟩
  · obtain ⟨connfd', heq⟩ := relayBlocksWith_size writen clientfd buf 0 connfd hfuel
    rw [Nat.zero_add] at heq
    exact ⟨connfd', heq⟩
  · exact ⟨connfd, rfl⟩

end SystemsLabs.Proxylab
