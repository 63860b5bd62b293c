import SystemsLabs.Proxylab.Latest
import Mathlib.Logic.Function.Iterate

/-!
# The sizes of chunks (`proxy-latest.c`)

`chunk_size` is an `int`. It is compared with `MAXLINE` as a signed number, and `Rio_readn_w` takes
it for an unsigned one.

* `SizeComes` — the sizes that the lines between the chunks give, read from the stream alone. A size
  is the low 32 bits of what `strtoull` makes of the digits, so a number that does not fit 64 bits
  gives `ffffffff`.
* `Loop.ReadsFit` — no call of `Rio_readn_w` asks for more bytes than `client_buf` holds, and the
  loop that reads the parts of a large chunk ends.
* `readsFit_iff` — this is so iff no size is `2 ^ 31` or more: such a size is a negative `int`, and
  a huge `size_t`.

**Scope.** Any state of the loops: any stream, any segmentation, and any read may fail.
-/

namespace SystemsLabs.Proxylab.Latest

open Lib

/-! ## The sizes in a stream -/

/-- The size of the part of a chunk that is read last. -/
def lastPart (size : ℕ) : ℕ := (size - 1) % maxline + 1

/-- The descriptor behind a part of `MAXLINE` bytes. -/
def behindPart (fd : Fd) : Fd := (rioReadnW fd maxline).2.2

/-- The descriptor behind a chunk, which is read in parts. -/
def behindChunk (size : ℕ) (fd : Fd) : Fd :=
  (rioReadnW (behindPart^[(size - 1) / maxline] fd) (lastPart size)).2.2

/-- The size that the next line gives, and the reader behind this line. A line without a number
leaves the size as it was. -/
def nextSize (rp : Rio) (old : ℕ) : Option (ℕ × Rio) :=
  match rioReadlinebW rp maxline with
  | (n, line, rp) => if n = 0 then none else some (((lineSize line).map BitVec.toNat).getD old, rp)

/-- A size that comes in a stream of chunks. -/
inductive SizeComes : Rio → ℕ → ℕ → Prop
  | next {rp rp' : Rio} {old size : ℕ} (hnext : nextSize rp old = some (size, rp')) :
      SizeComes rp old size
  | later {rp rp' : Rio} {old size size' : ℕ} (hnext : nextSize rp old = some (size, rp'))
      (hsize : size ≠ 0)
      (hlater : SizeComes ⟨behindChunk size rp'.fd, rp'.unread⟩ (lastPart size) size') :
      SizeComes rp old size'

/-- No size in a chunked response is `2 ^ 31` or more. -/
def Loop.SizesFit (s : Loop) : Prop :=
  ∀ fuel s', readHeader fuel s false = .ok (s', true) →
    ∀ size, SizeComes s'.clientRio 0 size → size < 2 ^ 31

/-- No call of `Rio_readn_w` asks for more bytes than `client_buf` holds, and the loop for large
chunks ends, with the fuel that it gets. -/
structure Loop.ReadsFit (s : Loop) : Prop where
  atMost : ∀ fuel nbytes bytes, .readn nbytes bytes ∈ (response fuel s).trace → nbytes ≤ maxline
  ends : ∀ s' : Loop, s'.chunkSize ≠ 0 → ∃ s'', (readLarge s'.chunkSize.toNat s').result = .ok s''

variable {rp : Rio} {fd : Fd} {fuel n nbytes size old : ℕ} {bytes : List UInt8}
  {s s' : Loop}

/-! ## Lines -/

/-- A line that is not empty is stored with a zero byte. -/
theorem zero_mem_rioReadlinebW (rp : Rio) (h : (rioReadlinebW rp maxline).1 ≠ 0) :
    0 ∈ (rioReadlinebW rp maxline).2.1 := by
  unfold rioReadlinebW at h ⊢
  cases hread : rioReadlineb rp maxline with
  | none =>
    rw [hread] at h
    exact absurd rfl h
  | some r =>
    rw [hread] at h
    exact zero_mem_readlineFrom hread h

/-- Only the line counts, not what `client_buf` has held before. -/
theorem lineSize_store (buf : List UInt8) (h : 0 ∈ bytes) :
    lineSize (store buf bytes) = lineSize bytes := by
  obtain ⟨t, ht⟩ := exists_eq_untilNul h
  have hstring : untilNul (store buf bytes) = untilNul bytes := by
    rw [store, ht, List.append_assoc, List.cons_append, untilNul_append_nul, untilNul_append_nul]
  rw [lineSize, hstring, lineSize]

/-- The loop reads the size that comes next. -/
theorem nextSize_eq (s : Loop) : nextSize s.clientRio s.chunkSize.toNat =
    if s.readLine.1 = 0 then none
    else some (s.readLine.2.scan.chunkSize.toNat, s.readLine.2.clientRio) := by
  have hzero := zero_mem_rioReadlinebW s.clientRio
  unfold nextSize Loop.readLine
  obtain ⟨⟨n, line, rp'⟩, hread⟩ : ∃ q, rioReadlinebW s.clientRio maxline = q := ⟨_, rfl⟩
  rw [hread] at hzero ⊢
  dsimp only at hzero ⊢
  by_cases hn : n = 0
  · rw [if_pos hn, if_pos hn]
  · rw [if_neg hn, if_neg hn, Loop.scan]
    dsimp only
    rw [lineSize_store s.clientBuf (hzero hn)]
    cases lineSize line <;> rfl

/-- A number of 17 digits is stored as -1. -/
example : lineSize (cbytes "10000000000000000\r\n") = some 0xffffffff := by decide +kernel

/-! ## Chunks -/

/-- No more is stored than is asked for. -/
theorem length_failedBlock : (failedBlock fuel fd n).1.length ≤ n := by
  induction fuel generalizing fd n with
  | zero => exact Nat.zero_le n
  | succ fuel ih =>
    unfold failedBlock
    cases hread : fd.read n with
    | none => exact Nat.zero_le n
    | some r =>
      obtain ⟨_ | ⟨c, first⟩, fd₁⟩ := r
      · exact Nat.zero_le n
      · have hfirst := Nat.add_sub_of_le (Fd.length_read hread)
        dsimp only
        rw [List.length_append]
        exact Nat.le_trans (Nat.add_le_add_left ih _) (Nat.le_of_eq hfirst)

/-- A read gets at most as many bytes as it asks for. -/
theorem length_rioReadnW (fd : Fd) (n : ℕ) : (rioReadnW fd n).2.1.length ≤ n := by
  unfold rioReadnW
  cases hread : rioReadn fd n with
  | none => exact length_failedBlock
  | some r => exact length_readnFrom hread

/-- One call of `Rio_readn_w`, whether or not the bytes fit. -/
theorem trace_readChunk (nbytes : ℕ) (s : Loop) :
    ∃ bytes, (readChunk nbytes s).trace = [.readn nbytes bytes] := by
  refine ⟨(rioReadnW s.clientRio.fd nbytes).2.1.take (rioReadnW s.clientRio.fd nbytes).1, ?_⟩
  unfold readChunk
  dsimp only
  rw [Traced.trace_bind_of_ok (Traced.result_emit _)]
  split_ifs <;> rfl

/-- A part of at most `MAXLINE` bytes fits into `client_buf`. -/
theorem exists_readChunk (h : nbytes ≤ maxline) (s : Loop) :
    ∃ s', (readChunk nbytes s).result = .ok s' ∧ s'.chunkSize = s.chunkSize ∧
      s'.clientRio = ⟨(rioReadnW s.clientRio.fd nbytes).2.2, s.clientRio.unread⟩ := by
  have hlength := (length_rioReadnW s.clientRio.fd nbytes).trans h
  unfold readChunk
  dsimp only
  rw [Traced.result_bind, Traced.result_emit, ok_bind, if_neg (Nat.not_lt.mpr hlength)]
  exact ⟨_, rfl, rfl, rfl⟩

/-- A small size is its own last part. -/
theorem lastPart_of_le (hpos : 0 < n) (h : n ≤ maxline) : lastPart n = n := by
  rw [lastPart, Nat.mod_eq_of_lt (by omega)]
  omega

/-- The other parts have `MAXLINE` bytes. -/
theorem lastPart_sub (h : maxline < n) : lastPart (n - maxline) = lastPart n := by
  unfold lastPart maxline at *
  omega

/-- No part has more than `MAXLINE` bytes. -/
theorem lastPart_le (n : ℕ) : lastPart n ≤ maxline := Nat.mod_lt (n - 1) (by decide)

/-- The parts of a chunk in front of the last. -/
theorem parts_succ (h : maxline < n) : (n - 1) / maxline = (n - maxline - 1) / maxline + 1 := by
  unfold maxline at *
  omega

/-- `readLarge` reads the parts of a chunk up to the last. -/
theorem exists_readLarge (hpos : 0 < s.chunkSize.toNat) (hlt : s.chunkSize.toNat < 2 ^ 31)
    (hfuel : s.chunkSize.toNat ≤ fuel) :
    ∃ s', (readLarge fuel s).result = .ok s' ∧
      s'.chunkSize.toNat = lastPart s.chunkSize.toNat ∧
      s'.clientRio = ⟨behindPart^[(s.chunkSize.toNat - 1) / maxline] s.clientRio.fd,
        s.clientRio.unread⟩ ∧
      ∀ ev ∈ (readLarge fuel s).trace, ∃ bytes, ev = .readn maxline bytes := by
  have hmax : maxline = 8192 := rfl
  induction fuel generalizing s with
  | zero => omega
  | succ fuel ih =>
    unfold readLarge
    rw [toInt_eq hlt]
    by_cases hlarge : maxline < s.chunkSize.toNat
    · rw [if_pos (Int.ofNat_lt.mpr hlarge)]
      obtain ⟨bytes, htrace⟩ := trace_readChunk maxline s
      obtain ⟨s₁, hresult, hsize, hrio⟩ := exists_readChunk (Nat.le_refl maxline) s
      have hsub : (s₁.chunkSize - BitVec.ofNat 32 maxline).toNat =
          s.chunkSize.toNat - maxline := by
        rw [hsize, toNat_sub_maxline hlarge]
      obtain ⟨s', hrest, hsize', hrio', hevents⟩ :=
        ih (s := { s₁ with chunkSize := s₁.chunkSize - BitVec.ofNat 32 maxline })
          (by rw [hsub]; omega) (by rw [hsub]; omega) (by rw [hsub]; omega)
      refine ⟨s', ?_, ?_, ?_, ?_⟩
      · rw [Traced.result_bind, hresult]
        exact hrest
      · rw [hsize', hsub, lastPart_sub hlarge]
      · rw [hrio', hsub, hrio, parts_succ hlarge, Function.iterate_succ_apply]
        rfl
      · intro ev hev
        rw [Traced.trace_bind_of_ok hresult, htrace] at hev
        rcases List.mem_cons.mp hev with rfl | hev
        · exact ⟨bytes, rfl⟩
        · exact hevents ev hev
    · rw [if_neg (mt Int.ofNat_lt.mp hlarge)]
      refine ⟨s, rfl, ?_, ?_, ?_⟩
      · exact (lastPart_of_le hpos (Nat.le_of_not_lt hlarge)).symm
      · rw [Nat.div_eq_of_lt (by omega)]
        rfl
      · intro ev hev
        exact absurd hev List.not_mem_nil

/-- A negative size is not large. -/
theorem readLarge_of_neg (hneg : 2 ^ 31 ≤ s.chunkSize.toNat) :
    readLarge s.chunkSize.toNat s = pure s := by
  obtain ⟨fuel, hfuel⟩ := Nat.exists_eq_add_one_of_ne_zero (n := s.chunkSize.toNat) (by omega)
  have hint : ¬ (maxline : ℤ) < s.chunkSize.toInt := by
    have hlt := toInt_neg hneg
    have hmax : maxline = 8192 := rfl
    omega
  rw [hfuel, readLarge, if_neg hint]

/-- The loop for large chunks ends. -/
theorem readLarge_ends (s : Loop) (h : s.chunkSize ≠ 0) :
    ∃ s', (readLarge s.chunkSize.toNat s).result = .ok s' := by
  have hpos : 0 < s.chunkSize.toNat := by
    apply Nat.pos_of_ne_zero
    intro hzero
    exact h (BitVec.eq_of_toNat_eq hzero)
  rcases Nat.lt_or_ge s.chunkSize.toNat (2 ^ 31) with hlt | hge
  · obtain ⟨s', hresult, -⟩ := exists_readLarge hpos hlt (Nat.le_refl _)
    exact ⟨s', hresult⟩
  · rw [readLarge_of_neg hge]
    exact ⟨s, rfl⟩

/-- A negative size is a huge `size_t`. -/
theorem maxline_lt_sizeT {c : BitVec 32} (h : 2 ^ 31 ≤ c.toNat) : maxline < sizeT c := by
  have hmsb : c.msb = true := by
    rw [BitVec.msb_eq_decide]
    exact decide_eq_true (by omega)
  rw [sizeT, BitVec.toNat_signExtend, BitVec.toNat_setWidth, if_pos hmsb]
  have hmax : maxline = 8192 := rfl
  omega

/-! ## The rounds of the chunk loop -/

/-- What the chunk loop does behind a line. -/
def readRest (fuel : ℕ) (s : Loop) : Traced Event Stop (Loop × Bool) := do
  let s ← readLarge s.chunkSize.toNat s
  let s ← readChunk (sizeT s.chunkSize) s
  chunkLoop fuel s

/-- A round of the chunk loop starts with a line, and goes on unless the size is 0. -/
theorem chunkLoop_line (h : nextSize s.clientRio s.chunkSize.toNat = some (size, rp)) :
    ∃ s' line, s'.clientRio = rp ∧ s'.chunkSize.toNat = size ∧ ∀ fuel,
      (chunkLoop (fuel + 1) s).trace =
        .header line :: if size = 0 then [] else (readRest fuel s').trace := by
  rw [nextSize_eq] at h
  obtain ⟨⟨n, s₁⟩, hread⟩ : ∃ q, s.readLine = q := ⟨_, rfl⟩
  rw [hread] at h
  dsimp only at h
  split_ifs at h with hn
  obtain ⟨rfl, rfl⟩ := Prod.mk.inj (Option.some.inj h)
  refine ⟨s₁.scan.relay n, s₁.clientBuf.take n, rfl, rfl, fun fuel => ?_⟩
  rw [chunkLoop, hread]
  dsimp only
  rw [if_neg hn, Traced.trace_bind_of_ok (Traced.result_emit _), Traced.trace_emit,
    List.singleton_append]
  refine congrArg _ ?_
  by_cases hsize : (s₁.scan.relay n).chunkSize = 0
  · have hsize' : s₁.scan.chunkSize.toNat = 0 := congrArg BitVec.toNat hsize
    rw [if_pos hsize, if_pos hsize']
    rfl
  · have hsize' : s₁.scan.chunkSize.toNat ≠ 0 := fun h0 => hsize (BitVec.eq_of_toNat_eq h0)
    rw [if_neg hsize, if_neg hsize']
    rfl

/-- At the end of the stream nothing is read. -/
theorem chunkLoop_end (fuel : ℕ) (h : nextSize s.clientRio s.chunkSize.toNat = none) :
    (chunkLoop (fuel + 1) s).trace = [] := by
  rw [nextSize_eq] at h
  split_ifs at h with hn
  rw [chunkLoop]
  dsimp only
  rw [if_pos hn]
  rfl

/-- A chunk of less than `2 ^ 31` bytes is read in parts. -/
theorem readRest_chunk (hpos : 0 < s.chunkSize.toNat) (hlt : s.chunkSize.toNat < 2 ^ 31) :
    ∃ s' parts bytes,
      s'.clientRio = ⟨behindChunk s.chunkSize.toNat s.clientRio.fd, s.clientRio.unread⟩ ∧
      s'.chunkSize.toNat = lastPart s.chunkSize.toNat ∧
      (∀ ev ∈ parts, ∃ bytes, ev = .readn maxline bytes) ∧ ∀ fuel, (readRest fuel s).trace =
        parts ++ .readn (lastPart s.chunkSize.toNat) bytes :: (chunkLoop fuel s').trace := by
  obtain ⟨s₁, hlarge, hsize₁, hrio₁, hparts⟩ := exists_readLarge hpos hlt (Nat.le_refl _)
  have hmax : maxline = 8192 := rfl
  have hle := lastPart_le s.chunkSize.toNat
  have hsizeT : sizeT s₁.chunkSize = lastPart s.chunkSize.toNat := by
    rw [sizeT_eq (by omega), hsize₁]
  obtain ⟨bytes, htrace⟩ := trace_readChunk (sizeT s₁.chunkSize) s₁
  obtain ⟨s₂, hchunk, hsize₂, hrio₂⟩ := exists_readChunk (hsizeT ▸ hle) s₁
  refine ⟨s₂, _, bytes, ?_, by rw [hsize₂, hsize₁], hparts, fun fuel => ?_⟩
  · rw [hrio₂, hrio₁, hsizeT]
    rfl
  · rw [readRest, Traced.trace_bind_of_ok hlarge, Traced.trace_bind_of_ok hchunk, htrace, hsizeT]
    rfl

/-- A size of `2 ^ 31` or more goes to `Rio_readn_w` as a huge number. -/
theorem readRest_neg (fuel : ℕ) (h : 2 ^ 31 ≤ s.chunkSize.toNat) :
    ∃ nbytes bytes, maxline < nbytes ∧ .readn nbytes bytes ∈ (readRest fuel s).trace := by
  obtain ⟨bytes, htrace⟩ := trace_readChunk (sizeT s.chunkSize) s
  refine ⟨sizeT s.chunkSize, bytes, maxline_lt_sizeT h, ?_⟩
  rw [readRest, readLarge_of_neg h]
  apply Traced.mem_trace_bind.mpr
  refine .inr ⟨s, rfl, ?_⟩
  apply Traced.mem_trace_bind.mpr
  refine .inl ?_
  rw [htrace]
  exact List.mem_singleton_self _

/-- If the sizes that come are below `2 ^ 31`, all calls of `Rio_readn_w` fit. -/
theorem atMost_of_sizes (h : ∀ size, SizeComes s.clientRio s.chunkSize.toNat size → size < 2 ^ 31)
    (hmem : .readn nbytes bytes ∈ (chunkLoop fuel s).trace) : nbytes ≤ maxline := by
  induction fuel generalizing s with
  | zero => exact absurd hmem List.not_mem_nil
  | succ fuel ih =>
    cases hnext : nextSize s.clientRio s.chunkSize.toNat with
    | none =>
      rw [chunkLoop_end fuel hnext] at hmem
      exact absurd hmem List.not_mem_nil
    | some next =>
      obtain ⟨size, rp⟩ := next
      obtain ⟨s₁, line, rfl, rfl, htrace⟩ := chunkLoop_line hnext
      rw [htrace fuel] at hmem
      rcases List.mem_cons.mp hmem with heq | hmem
      · cases heq
      split_ifs at hmem with hsize
      · exact absurd hmem List.not_mem_nil
      · have hlt := h _ (.next hnext)
        obtain ⟨s₂, parts, last, hrio, hsize₂, hparts, htrace₂⟩ :=
          readRest_chunk (Nat.pos_of_ne_zero hsize) hlt
        rw [htrace₂ fuel] at hmem
        rcases List.mem_append.mp hmem with hmem | hmem
        · obtain ⟨part, heq⟩ := hparts _ hmem
          obtain ⟨rfl, -⟩ := Event.readn.inj heq
          exact Nat.le_refl maxline
        rcases List.mem_cons.mp hmem with heq | hmem
        · obtain ⟨rfl, -⟩ := Event.readn.inj heq
          exact lastPart_le _
        · apply ih _ hmem
          intro size' hcomes
          rw [hrio, hsize₂] at hcomes
          exact h size' (.later hnext hsize hcomes)

/-- A size of `2 ^ 31` or more comes at once. -/
theorem exists_readn_of_next (fuel : ℕ)
    (h : nextSize s.clientRio s.chunkSize.toNat = some (size, rp)) (hsize : 2 ^ 31 ≤ size) :
    ∃ nbytes bytes, maxline < nbytes ∧ .readn nbytes bytes ∈ (chunkLoop (fuel + 1) s).trace := by
  obtain ⟨s₁, line, -, rfl, htrace⟩ := chunkLoop_line h
  obtain ⟨nbytes, bytes, hlt, hmem⟩ := readRest_neg fuel hsize
  refine ⟨nbytes, bytes, hlt, ?_⟩
  rw [htrace fuel, if_neg (by omega)]
  exact List.mem_cons_of_mem _ hmem

/-- If a size of `2 ^ 31` or more comes, some call of `Rio_readn_w` asks for too much. -/
theorem exists_readn_of_sizeComes (hcomes : SizeComes rp old size) (hsize : 2 ^ 31 ≤ size)
    (hrio : s.clientRio = rp) (hold : s.chunkSize.toNat = old) :
    ∃ fuel, ∀ fuel', fuel ≤ fuel' →
      ∃ nbytes bytes, maxline < nbytes ∧ .readn nbytes bytes ∈ (chunkLoop fuel' s).trace := by
  induction hcomes generalizing s with
  | next hnext =>
    subst hrio hold
    refine ⟨1, fun fuel' hfuel => ?_⟩
    obtain ⟨fuel, rfl⟩ := Nat.exists_eq_add_of_le' hfuel
    exact exists_readn_of_next fuel hnext hsize
  | @later rp rp' old size₁ size' hnext hne hlater ih =>
    subst hrio hold
    rcases Nat.lt_or_ge size₁ (2 ^ 31) with hlt | hge
    · obtain ⟨s₁, line, rfl, rfl, htrace⟩ := chunkLoop_line hnext
      obtain ⟨s₂, parts, last, hrio₂, hsize₂, -, htrace₂⟩ :=
        readRest_chunk (Nat.pos_of_ne_zero hne) hlt
      obtain ⟨fuel, hfuel⟩ := ih hsize hrio₂ hsize₂
      refine ⟨fuel + 1, fun fuel' hle => ?_⟩
      obtain ⟨fuel'', rfl⟩ := Nat.exists_eq_add_of_le' (Nat.le_of_add_left_le hle)
      obtain ⟨nbytes, bytes, hover, hmem⟩ := hfuel fuel'' (Nat.le_of_succ_le_succ hle)
      refine ⟨nbytes, bytes, hover, ?_⟩
      rw [htrace fuel'', if_neg hne, htrace₂ fuel'']
      exact List.mem_cons_of_mem _ (List.mem_append_right _ (List.mem_cons_of_mem _ hmem))
    · refine ⟨1, fun fuel' hfuel => ?_⟩
      obtain ⟨fuel, rfl⟩ := Nat.exists_eq_add_of_le' hfuel
      exact exists_readn_of_next fuel hnext hge

/-! ## The response -/

/-- More fuel does not change what the header is. -/
theorem readHeader_mono {chunked : Bool} {r : Loop × Bool} (h : readHeader fuel s chunked = .ok r)
    {fuel' : ℕ} (hle : fuel ≤ fuel') : readHeader fuel' s chunked = .ok r := by
  induction fuel generalizing s chunked fuel' with
  | zero => cases h
  | succ fuel ih =>
    obtain ⟨fuel', rfl⟩ := Nat.exists_eq_add_of_le' (Nat.le_of_add_left_le hle)
    unfold readHeader at h ⊢
    dsimp only at h ⊢
    split_ifs at h ⊢
    · exact h
    · exact h
    · exact ih h (Nat.le_of_succ_le_succ hle)

/-- The chunk loop works on a response whose header has `chunked` in it. -/
theorem trace_response (h : readHeader fuel s false = .ok (s', true)) :
    (response fuel s).trace = (chunkLoop fuel { s' with chunkSize := 0 }).trace := by
  rw [response, Traced.trace_lift_bind h]
  rfl

/-- Only the chunk loop calls `Rio_readn_w`. -/
theorem exists_readHeader (h : .readn nbytes bytes ∈ (response fuel s).trace) :
    ∃ s', readHeader fuel s false = .ok (s', true) := by
  cases hheader : readHeader fuel s false with
  | error e =>
    have hlift : (Traced.lift (readHeader fuel s false) : Traced Event Stop _).result = .error e :=
      hheader
    rw [response, Traced.trace_bind_of_error hlift] at h
    exact absurd h List.not_mem_nil
  | ok r =>
    obtain ⟨s', _ | _⟩ := r
    · rw [response, Traced.trace_lift_bind hheader] at h
      rcases Traced.mem_trace_bind.mp h with hmem | ⟨_, -, hmem⟩
      · exact absurd hmem List.not_mem_nil
      · exact absurd hmem List.not_mem_nil
    · exact ⟨s', rfl⟩

/-- **Chunk sizes cannot overrun the buffer** iff all of them are below `2 ^ 31`. -/
theorem readsFit_iff (s : Loop) : s.ReadsFit ↔ s.SizesFit := by
  constructor
  · intro hfit fuel s' hheader size hcomes
    by_contra hge
    obtain ⟨fuel', hfuel'⟩ := exists_readn_of_sizeComes (s := { s' with chunkSize := 0 }) hcomes
      (Nat.le_of_not_lt hge) rfl rfl
    obtain ⟨nbytes, bytes, hlt, hmem⟩ := hfuel' (max fuel fuel') (Nat.le_max_right _ _)
    rw [← trace_response (readHeader_mono hheader (Nat.le_max_left _ _))] at hmem
    exact absurd (hfit.atMost _ _ _ hmem) (Nat.not_le.mpr hlt)
  · intro hsizes
    refine ⟨fun fuel nbytes bytes hmem => ?_, readLarge_ends⟩
    obtain ⟨s', hheader⟩ := exists_readHeader hmem
    rw [trace_response hheader] at hmem
    exact atMost_of_sizes (s := { s' with chunkSize := 0 }) (hsizes fuel s' hheader) hmem

/-! ## A negative size -/

/-- The response whose first chunk has the size `80000000`. -/
def negative : Loop where
  clientRio := rioReadinitb ⟨cbytes "HTTP/1.1 200 OK\r\nTransfer-Encoding: chunked\r\n\r\n" ++
    cbytes "80000000\r\n", fun _ => some 8191⟩
  clientBuf := List.replicate maxline 0
  chunkSize := 0
  size := 0
  connfd := ⟨[], fun _ => 8191⟩

/-- `Rio_readn_w` is asked for `2 ^ 64 - 2 ^ 31` bytes. -/
theorem not_readsFit_negative : ¬ negative.ReadsFit := by
  intro hfit
  have hmem : .readn (2 ^ 64 - 2 ^ 31) [] ∈ (response 5 negative).trace := by
    decide +kernel
  exact absurd (hfit.atMost _ _ _ hmem) (by decide)

end SystemsLabs.Proxylab.Latest
