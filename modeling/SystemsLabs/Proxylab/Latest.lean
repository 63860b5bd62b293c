import SystemsLabs.Lib.Traced
import SystemsLabs.Proxylab.Doit
import Mathlib.Algebra.GroupWithZero.Nat

/-!
# Relaying chunked responses (`proxy-latest.c`)

The response loops of `doit` in `proxy-latest.c`. They read the header and look for `chunked` in it.
Of a chunked response they read the lines with the sizes through the buffer of `rio_t`, and the
chunks with unbuffered reads from the same descriptor. A `read` that fails ends one loop, and the
next loop goes on behind it. Writing to the client does not fail.

The trace of a run (`Event`) has the lines that are taken for the headers of chunks, and the
unbuffered reads: how many bytes are asked for, and what is read and written to the client.

**Scope.** `proxy-latest.c` from the line behind the request on; the rest of the file is as in
`proxy.c`.
-/

namespace SystemsLabs.Proxylab.Latest

open Lib Scanf

/-! ## Reading -/

/-- The descriptor behind a `read` that has failed. -/
def afterFailure (fd : Fd) : Fd := ⟨fd.pending, fun i => fd.reads (i + 1)⟩

/-- What `rio_readlineb` has stored when it fails, and what it leaves. -/
def failedLine : ℕ → Rio → List UInt8 × Rio
  | 0, rp => ([], rp)
  | k + 1, rp =>
    match rioRead rp 1 with
    | none => ([], { rp with fd := afterFailure rp.fd })
    | some ([], rp) => ([], rp)
    | some (c :: _, rp) =>
      let r := failedLine k rp
      (c :: r.1, r.2)

/-- What `rio_readn` has stored when it fails, and what it leaves. -/
def failedBlock : ℕ → Fd → ℕ → List UInt8 × Fd
  | 0, fd, _ => ([], fd)
  | fuel + 1, fd, nleft =>
    match fd.read nleft with
    | none => ([], afterFailure fd)
    | some ([], fd) => ([], fd)
    | some (bytes, fd) =>
      let r := failedBlock fuel fd (nleft - bytes.length)
      (bytes ++ r.1, r.2)

/-- `Rio_readlineb_w`: it returns 0 if a `read` fails, and the next one goes on behind that. -/
def rioReadlinebW (rp : Rio) (maxlen : ℕ) : ℕ × List UInt8 × Rio :=
  (rioReadlineb rp maxlen).getD (0, failedLine (maxlen - 1) rp)

/-- `Rio_readn_w`: what it returns, the bytes stored, and the descriptor behind them. -/
def rioReadnW (fd : Fd) (n : ℕ) : ℕ × List UInt8 × Fd :=
  match rioReadn fd n with
  | some r => (r.1.length, r)
  | none => (0, failedBlock n fd n)

/-! ## The loops -/

/-- What the chunk loop reads. -/
inductive Event
  /-- A line that is taken for the header of a chunk. -/
  | header (line : List UInt8)
  /-- A call of `Rio_readn_w`: the third argument, and the bytes that it returns. -/
  | readn (nbytes : ℕ) (bytes : List UInt8)
  deriving DecidableEq

/-- The variables of the loops. `clientfd` is the descriptor of `client_rio`. -/
structure Loop where
  clientRio : Rio
  clientBuf : List UInt8
  /-- An `int`. -/
  chunkSize : BitVec 32
  size : ℕ
  connfd : Sink

/-- What `%x` reads from the string in an array. The C library reads a number of 64 bits, or the
largest one if it does not fit, and stores the low 32 bits of it. -/
def lineSize (buf : List UInt8) : Option (BitVec 32) :=
  match (scanf [.hex] (chars (untilNul buf))).items with
  | [.hex w] => some (w.setWidth 32)
  | _ => none

/-- `n = Rio_readlineb_w(&client_rio, client_buf, MAXLINE)`. -/
def Loop.readLine (s : Loop) : ℕ × Loop :=
  match rioReadlinebW s.clientRio maxline with
  | (n, bytes, clientRio) => (n, { s with clientRio, clientBuf := store s.clientBuf bytes })

/-- `size += n; Rio_writen_w(connfd, client_buf, n)`. -/
def Loop.relay (s : Loop) (n : ℕ) : Loop :=
  { s with size := s.size + n, connfd := rioWriten s.connfd (s.clientBuf.take n) }

/-- `sscanf(client_buf, "%x", &chunk_size)`: a line without a number leaves the size as it is. -/
def Loop.scan (s : Loop) : Loop :=
  { s with chunkSize := (lineSize s.clientBuf).getD s.chunkSize }

/-- Read the header; is the response chunked? -/
def readHeader : ℕ → Loop → Bool → Except Stop (Loop × Bool)
  | 0, _, _ => .error .fuel
  | fuel + 1, s, chunked =>
    let (n, s) := s.readLine
    if n = 0 then .ok (s, chunked)
    else
      let s := s.relay n
      let chunked := chunked || cbytes "chunked" <:+: untilNul s.clientBuf
      if untilNul s.clientBuf = crlf then .ok (s, chunked)
      else readHeader fuel s chunked

/-- The conversion of an `int` to `size_t`. -/
def sizeT (n : BitVec 32) : ℕ := (n.signExtend 64).toNat

/-- `n = Rio_readn_w(clientfd, client_buf, nbytes)`, and write this to the client. More bytes than
`client_buf` holds are written behind its end. -/
def readChunk (nbytes : ℕ) (s : Loop) : Traced Event Stop Loop := do
  let (n, bytes, fd) := rioReadnW s.clientRio.fd nbytes
  Traced.emit (.readn nbytes (bytes.take n))
  if maxline < bytes.length then Traced.lift (.error .undefined)
  else
    pure ({ s with
      clientRio := ⟨fd, s.clientRio.unread⟩
      clientBuf := store s.clientBuf bytes }.relay n)

/-- `while(chunk_size > MAXLINE)`: read a part of the chunk. -/
def readLarge : ℕ → Loop → Traced Event Stop Loop
  | 0, _ => Traced.lift (.error .fuel)
  | fuel + 1, s =>
    if (maxline : ℤ) < s.chunkSize.toInt then do
      let s ← readChunk maxline s
      readLarge fuel { s with chunkSize := s.chunkSize - BitVec.ofNat 32 maxline }
    else pure s

/-- The loop for the chunks, and whether a size of 0 ends it; otherwise it is the end of the stream.
Every round of `readLarge` takes from the size, so its fuel is enough. -/
def chunkLoop : ℕ → Loop → Traced Event Stop (Loop × Bool)
  | 0, _ => Traced.lift (.error .fuel)
  | fuel + 1, s =>
    let (n, s) := s.readLine
    if n = 0 then pure (s, false)
    else do
      Traced.emit (.header (s.clientBuf.take n))
      let s := s.scan.relay n
      if s.chunkSize = 0 then pure (s, true)
      else do
        let s ← readLarge s.chunkSize.toNat s
        let s ← readChunk (sizeT s.chunkSize) s
        chunkLoop fuel s

/-- The loop for other responses. -/
def lineLoop : ℕ → Loop → Except Stop Loop
  | 0, _ => .error .fuel
  | fuel + 1, s =>
    let (n, s) := s.readLine
    if n = 0 then .ok s
    else lineLoop fuel (s.relay n)

/-- The response loops of `doit`, and whether a chunk of size 0 has ended them. -/
def response (fuel : ℕ) (s : Loop) : Traced Event Stop (Loop × Bool) := do
  let (s, chunked) ← Traced.lift (readHeader fuel s false)
  if chunked then chunkLoop fuel { s with chunkSize := 0 }
  else do
    let s ← Traced.lift (lineLoop fuel s)
    pure (s, false)

/-! ## What is written -/

/-- The bytes of an event. -/
def Event.bytes : Event → List UInt8
  | .header line => line
  | .readn _ bytes => bytes

/-- The lines that are taken for the headers of chunks. -/
def headerLines (trace : List Event) : List (List UInt8) :=
  trace.filterMap fun
    | .header line => some line
    | .readn _ _ => none

variable {fuel nbytes n : ℕ} {s s' : Loop} {broke : Bool}

/-- The client gets what has been read. -/
theorem out_relay (s : Loop) (n : ℕ) :
    (s.relay n).connfd.out = s.connfd.out ++ s.clientBuf.take n := out_rioWriten _ _

/-- The bytes of the unbuffered reads. -/
def readBytes (trace : List Event) : List UInt8 :=
  trace.flatMap fun
    | .header _ => []
    | .readn _ bytes => bytes

/-- A header line. -/
@[simp] theorem headerLines_header (line : List UInt8) (trace : List Event) :
    headerLines (.header line :: trace) = line :: headerLines trace := rfl

/-- A read is no header line. -/
@[simp] theorem headerLines_readn (nbytes : ℕ) (bytes : List UInt8) (trace : List Event) :
    headerLines (.readn nbytes bytes :: trace) = headerLines trace := rfl

/-- A header line is no part of the body. -/
@[simp] theorem readBytes_header (line : List UInt8) (trace : List Event) :
    readBytes (.header line :: trace) = readBytes trace := rfl

/-- The bytes of a read. -/
@[simp] theorem readBytes_readn (nbytes : ℕ) (bytes : List UInt8) (trace : List Event) :
    readBytes (.readn nbytes bytes :: trace) = bytes ++ readBytes trace := rfl

/-- The header lines of two traces. -/
@[simp] theorem headerLines_append (t₁ t₂ : List Event) :
    headerLines (t₁ ++ t₂) = headerLines t₁ ++ headerLines t₂ := List.filterMap_append

/-- The bytes of two traces. -/
@[simp] theorem readBytes_append (t₁ t₂ : List Event) :
    readBytes (t₁ ++ t₂) = readBytes t₁ ++ readBytes t₂ := List.flatMap_append

/-- A part of the loops has read so many bytes at most with unbuffered reads only, and has written
them. -/
structure Copies (s s' : Loop) (trace : List Event) (k : ℕ) : Prop where
  out : s'.connfd.out = s.connfd.out ++ readBytes trace
  bytes : trace.flatMap Event.bytes = readBytes trace
  headers : headerLines trace = []
  length : (readBytes trace).length ≤ k

/-- Nothing is copied. -/
theorem Copies.nil (s : Loop) : Copies s s [] 0 where
  out := (List.append_nil _).symm
  bytes := rfl
  headers := rfl
  length := Nat.le_refl 0

/-- One after the other. -/
theorem Copies.append {s₁ s₂ s₃ : Loop} {t₁ t₂ : List Event} {k₁ k₂ : ℕ} (h₁ : Copies s₁ s₂ t₁ k₁)
    (h₂ : Copies s₂ s₃ t₂ k₂) : Copies s₁ s₃ (t₁ ++ t₂) (k₁ + k₂) where
  out := by rw [h₂.out, h₁.out, readBytes_append, List.append_assoc]
  bytes := by rw [List.flatMap_append, h₁.bytes, h₂.bytes, readBytes_append]
  headers := by rw [headerLines_append, h₁.headers, h₂.headers, List.append_nil]
  length := by
    rw [readBytes_append, List.length_append]
    exact Nat.add_le_add h₁.length h₂.length

/-- A larger bound. -/
theorem Copies.mono {trace : List Event} {k k' : ℕ} (h : Copies s s' trace k) (hle : k ≤ k') :
    Copies s s' trace k' :=
  { h with length := h.length.trans hle }

/-- No more is returned than is asked for, and no more than is stored. -/
theorem rioReadnW_le (fd : Fd) (n : ℕ) :
    (rioReadnW fd n).1 ≤ n ∧ (rioReadnW fd n).1 ≤ (rioReadnW fd n).2.1.length := by
  unfold rioReadnW rioReadn
  cases h : readnFrom n fd n with
  | none => exact ⟨Nat.zero_le _, Nat.zero_le _⟩
  | some r => exact ⟨length_readnFrom h, Nat.le_refl _⟩

/-- What is read is written. -/
theorem copies_readChunk (h : (readChunk nbytes s).result = .ok s') :
    Copies s s' (readChunk nbytes s).trace (min nbytes maxline) ∧
      s'.chunkSize = s.chunkSize := by
  obtain ⟨hle, hstored⟩ := rioReadnW_le s.clientRio.fd nbytes
  unfold readChunk at h ⊢
  generalize rioReadnW s.clientRio.fd nbytes = r at h hle hstored ⊢
  obtain ⟨n, bytes, fd⟩ := r
  dsimp only at h hle hstored ⊢
  by_cases hlen : maxline < bytes.length
  · rw [if_pos hlen] at h
    cases h
  · rw [if_neg hlen] at h ⊢
    obtain rfl := Except.ok.inj h
    refine ⟨⟨?_, rfl, rfl, ?_⟩, rfl⟩
    · rw [out_relay, take_store hstored]
      exact congrArg _ (List.append_nil (bytes.take n)).symm
    · change (bytes.take n ++ []).length ≤ _
      rw [List.append_nil, List.length_take_of_le hstored]
      exact Nat.le_min.mpr ⟨hle, hstored.trans (Nat.le_of_not_lt hlen)⟩

/-- As an `int` and as a `size_t`, a size below `2 ^ 31` is what it is. -/
theorem toInt_eq {c : BitVec 32} (h : c.toNat < 2 ^ 31) : c.toInt = c.toNat := by
  rw [BitVec.toInt_eq_toNat_cond]
  exact if_pos (by omega)

/-- A size that is not negative. -/
theorem sizeT_eq {c : BitVec 32} (h : c.toNat < 2 ^ 31) : sizeT c = c.toNat := by
  have hmsb : c.msb = false := by
    rw [BitVec.msb_eq_decide]
    exact decide_eq_false (by omega)
  rw [sizeT, BitVec.signExtend_eq_setWidth_of_msb_false hmsb, BitVec.toNat_setWidth]
  exact Nat.mod_eq_of_lt (by omega)

/-- Other sizes are negative. -/
theorem toInt_neg {c : BitVec 32} (h : 2 ^ 31 ≤ c.toNat) : c.toInt < 0 := by
  have hlt := c.isLt
  rw [BitVec.toInt_eq_toNat_cond]
  split_ifs <;> omega

/-- A size above `MAXLINE` is reduced without wrapping around. -/
theorem toNat_sub_maxline {c : BitVec 32} (h : maxline < c.toNat) :
    (c - BitVec.ofNat 32 maxline).toNat = c.toNat - maxline := by
  have hlt := c.isLt
  have hmax : maxline = 8192 := rfl
  rw [BitVec.toNat_sub, BitVec.toNat_ofNat]
  omega

/-- A chunk of this size is read with so many bytes at most: a negative size is taken for a huge
one, but no more bytes are stored than `client_buf` holds. -/
def limit (chunkSize : BitVec 32) : ℕ := if 0 ≤ chunkSize.toInt then chunkSize.toNat else maxline

/-- The largest read of a size that is not negative. -/
theorem limit_of_lt {c : BitVec 32} (h : c.toNat < 2 ^ 31) : limit c = c.toNat := by
  rw [limit, toInt_eq h, if_pos (Int.natCast_nonneg _)]

/-- The largest read of a size that is negative as an `int`. -/
theorem limit_of_ge {c : BitVec 32} (h : 2 ^ 31 ≤ c.toNat) : limit c = maxline := by
  rw [limit, if_neg (Int.not_le.mpr (toInt_neg h))]

/-- A size that is large enough for a round of `readLarge`. -/
theorem limit_sub {c : BitVec 32} (h : (maxline : ℤ) < c.toInt) :
    maxline + limit (c - BitVec.ofNat 32 maxline) ≤ limit c := by
  have hlt : c.toNat < 2 ^ 31 := by
    by_contra hge
    have hneg := toInt_neg (Nat.le_of_not_lt hge)
    omega
  have hlarge : maxline < c.toNat := by
    rw [toInt_eq hlt] at h
    exact Int.ofNat_lt.mp h
  have hsub := toNat_sub_maxline hlarge
  rw [limit_of_lt hlt, limit_of_lt (by omega), hsub]
  omega

/-- The rest of a chunk. -/
theorem min_sizeT_le (c : BitVec 32) : min (sizeT c) maxline ≤ limit c := by
  rcases Nat.lt_or_ge c.toNat (2 ^ 31) with hlt | hge
  · rw [sizeT_eq hlt, limit_of_lt hlt]
    exact Nat.min_le_left _ _
  · rw [limit_of_ge hge]
    exact Nat.min_le_right _ _

/-- The rounds of `readLarge` take from the size what they read. -/
theorem copies_readLarge (h : (readLarge fuel s).result = .ok s') :
    ∃ k, Copies s s' (readLarge fuel s).trace k ∧ k + limit s'.chunkSize ≤ limit s.chunkSize := by
  induction fuel generalizing s with
  | zero => cases h
  | succ fuel ih =>
    unfold readLarge at h ⊢
    split_ifs at h ⊢ with hlarge
    · rw [Traced.result_bind] at h
      obtain ⟨s₁, hchunk, hrest⟩ := bind_eq_ok.mp h
      obtain ⟨hcopies, hsize⟩ := copies_readChunk hchunk
      obtain ⟨k, hcopies', hle⟩ := ih hrest
      rw [Traced.trace_bind_of_ok hchunk]
      refine ⟨min maxline maxline + k, hcopies.append ⟨hcopies'.out, hcopies'.bytes,
        hcopies'.headers, hcopies'.length⟩, ?_⟩
      have hlimit := limit_sub hlarge
      rw [← hsize] at hlimit
      rw [Nat.min_self, Nat.add_assoc]
      exact (Nat.add_le_add_left hle maxline).trans (hsize ▸ hlimit)
    · obtain rfl := Except.ok.inj h
      exact ⟨0, .nil s, (Nat.zero_add _).le⟩

/-- What one round of the chunk loop does: it finds the end of the stream, a size of 0, or a chunk.
-/
theorem chunkLoop_cases {r : Loop × Bool} (h : (chunkLoop (fuel + 1) s).result = .ok r) :
    (s.readLine.1 = 0 ∧ r = (s.readLine.2, false) ∧ (chunkLoop (fuel + 1) s).trace = []) ∨
    (s.readLine.2.scan.chunkSize = 0 ∧ r = (s.readLine.2.scan.relay s.readLine.1, true) ∧
      (chunkLoop (fuel + 1) s).trace = [.header (s.readLine.2.clientBuf.take s.readLine.1)]) ∨
    ∃ s' t, Copies (s.readLine.2.scan.relay s.readLine.1) s' t
        (limit s.readLine.2.scan.chunkSize) ∧
      (chunkLoop fuel s').result = .ok r ∧
      (chunkLoop (fuel + 1) s).trace =
        .header (s.readLine.2.clientBuf.take s.readLine.1) :: (t ++ (chunkLoop fuel s').trace) := by
  obtain ⟨⟨n, s₁⟩, hread⟩ : ∃ q, s.readLine = q := ⟨_, rfl⟩
  rw [chunkLoop, hread] at h ⊢
  dsimp only at h ⊢
  by_cases hn : n = 0
  · rw [if_pos hn] at h ⊢
    exact .inl ⟨hn, (Except.ok.inj h).symm, rfl⟩
  · rw [if_neg hn, Traced.result_bind] at h
    rw [if_neg hn, Traced.trace_bind_of_ok (Traced.result_emit _)]
    change Traced.result (if _ then _ else _) = _ at h
    by_cases hsize : (s₁.scan.relay n).chunkSize = 0
    · rw [if_pos hsize] at h ⊢
      exact .inr (.inl ⟨hsize, (Except.ok.inj h).symm, rfl⟩)
    · rw [if_neg hsize] at h ⊢
      rw [Traced.result_bind] at h
      obtain ⟨s₂, hlarge, h⟩ := bind_eq_ok.mp h
      rw [Traced.result_bind] at h
      obtain ⟨s₃, hrest, h⟩ := bind_eq_ok.mp h
      obtain ⟨k, hcopies, hle⟩ := copies_readLarge hlarge
      refine .inr (.inr ⟨s₃, _, (hcopies.append (copies_readChunk hrest).1).mono ?_, h, ?_⟩)
      · exact (Nat.add_le_add_left (min_sizeT_le _) k).trans hle
      · rw [Traced.trace_bind_of_ok hlarge, Traced.trace_bind_of_ok hrest, List.append_assoc]
        rfl

variable {r : Loop × Bool}

/-- The chunk loop writes what its events say. -/
theorem out_chunkLoop (h : (chunkLoop fuel s).result = .ok r) :
    r.1.connfd.out = s.connfd.out ++ (chunkLoop fuel s).trace.flatMap Event.bytes := by
  induction fuel generalizing s with
  | zero => cases h
  | succ fuel ih =>
    rcases chunkLoop_cases h with ⟨-, rfl, htrace⟩ | ⟨-, rfl, htrace⟩ | ⟨s', t, hcopies, h, htrace⟩
    · rw [htrace]
      exact (List.append_nil _).symm
    · rw [htrace, out_relay, List.flatMap_singleton]
      rfl
    · rw [htrace, ih h, hcopies.out, out_relay, List.flatMap_cons, List.flatMap_append,
        hcopies.bytes, List.append_assoc, List.append_assoc]
      rfl

/-- A line is the last thing that the chunk loop has read when a size of 0 ends it. -/
theorem exists_last_header (h : (chunkLoop fuel s).result = .ok (s', true)) :
    ∃ t line, (chunkLoop fuel s).trace = t ++ [.header line] := by
  induction fuel generalizing s with
  | zero => cases h
  | succ fuel ih =>
    rcases chunkLoop_cases h with ⟨-, hr, -⟩ | ⟨-, -, htrace⟩ | ⟨s', t, -, h, htrace⟩
    · exact absurd (Prod.mk.inj hr).2 (by decide)
    · exact ⟨[], _, htrace⟩
    · obtain ⟨t', line, hlast⟩ := ih h
      refine ⟨.header (s.readLine.2.clientBuf.take s.readLine.1) :: (t ++ t'), line, ?_⟩
      rw [htrace, hlast, List.cons_append, List.append_assoc]

/-- What is written: the lines, and what the unbuffered reads return. -/
theorem length_bytes (trace : List Event) :
    (trace.flatMap Event.bytes).length =
      (headerLines trace).flatten.length + (readBytes trace).length := by
  induction trace with
  | nil => rfl
  | cons event trace ih =>
    cases event with
    | header line =>
      rw [List.flatMap_cons, headerLines_header, readBytes_header, List.flatten_cons,
        List.length_append, List.length_append, ih, Nat.add_assoc]
      rfl
    | readn nbytes bytes =>
      rw [List.flatMap_cons, headerLines_readn, readBytes_readn, List.length_append,
        List.length_append, ih, Nat.add_left_comm]
      rfl

/-- **How much is read for the chunks.** If each line has a size in it, then no more bytes are read
than these sizes allow. -/
theorem length_readBytes_le {α : Type*} {sizes : List α} (f : α → ℕ) (g : α → List UInt8)
    (h : (chunkLoop fuel s).result = .ok r)
    (hlines : headerLines (chunkLoop fuel s).trace = sizes.map g)
    (hf : ∀ a ∈ sizes, ∀ t, ∃ c, lineSize (g a ++ t) = some c ∧ limit c ≤ f a) :
    (readBytes (chunkLoop fuel s).trace).length ≤ (sizes.map f).sum := by
  induction fuel generalizing s sizes with
  | zero => cases h
  | succ fuel ih =>
    rcases chunkLoop_cases h with ⟨-, -, htrace⟩ | ⟨-, -, htrace⟩ | ⟨s', t, hcopies, h, htrace⟩
    · rw [htrace]
      exact Nat.zero_le _
    · rw [htrace]
      exact Nat.zero_le _
    · rw [htrace, headerLines_header, headerLines_append, hcopies.headers,
        List.nil_append] at hlines
      obtain ⟨a, sizes, rfl, ha, hsizes⟩ := List.map_eq_cons_iff.mp hlines.symm
      obtain ⟨c, hsize, hc⟩ := hf a List.mem_cons_self
        (s.readLine.2.clientBuf.drop s.readLine.1)
      rw [ha, List.take_append_drop] at hsize
      have hscan : s.readLine.2.scan.chunkSize = c := by
        rw [Loop.scan, hsize]
        rfl
      have hread : (readBytes t).length ≤ limit c := hscan ▸ hcopies.length
      have hrest := ih h hsizes.symm fun a ha => hf a (List.mem_cons_of_mem _ ha)
      rw [htrace, readBytes_header, readBytes_append, List.map_cons, List.sum_cons,
        List.length_append]
      exact Nat.add_le_add (hread.trans hc) hrest

/-- Only the loop for chunks ends with a size of 0. -/
theorem exists_chunkLoop_of_response (h : (response fuel s).result = .ok (s', true)) :
    ∃ s₁, (chunkLoop fuel s₁).result = .ok (s', true) ∧
      (response fuel s).trace = (chunkLoop fuel s₁).trace := by
  unfold response at h ⊢
  rw [Traced.result_bind, Traced.result_lift] at h
  obtain ⟨⟨s₁, chunked⟩, hheader, h⟩ := bind_eq_ok.mp h
  rw [Traced.trace_lift_bind hheader]
  cases chunked with
  | true => exact ⟨{ s₁ with chunkSize := 0 }, h, rfl⟩
  | false =>
    change Traced.result (Traced.lift (lineLoop fuel s₁) >>= _) = _ at h
    rw [Traced.result_bind] at h
    obtain ⟨s₂, -, h⟩ := bind_eq_ok.mp h
    exact absurd (Prod.mk.inj (Except.ok.inj h)).2 (by decide)

end SystemsLabs.Proxylab.Latest
