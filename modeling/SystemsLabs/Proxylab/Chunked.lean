import SystemsLabs.Proxylab.Latest
import SystemsLabs.Proxylab.Uri

/-!
# Chunked responses do not get through (`proxy-latest.c`)

`ChunkedResponse` is a well-formed chunked response, and `InStep` says that the loops of `doit`
relay it as they should. They never do, however the stream is cut into pieces (`not_inStep`): the
read of the last empty line is commented out, so a size of 0 ends the output.

That is not all. The chunks are read behind what `rio_t` has buffered, and the line ends behind them
are not read at all. So the loops do not even get to the last size in step, unless the response has
no chunks (`chunks_eq_nil`): there are more bytes between the sizes than are read.

**Assumptions.** No read and no write fails.
-/

namespace SystemsLabs.Proxylab.Latest

open Lib Scanf

/-! ## Chunked responses -/

/-- The line with the size of a chunk: hexadecimal digits, and maybe extensions. -/
structure SizeLine where
  digits : List UInt8
  ext : List UInt8
  digits_ne_nil : digits ≠ []
  isDigit_digits : ∀ b ∈ digits, isDigit 16 (Char.ofNat b.toNat) = true
  /-- Extensions start with a semicolon, maybe behind a space or a tab. -/
  head_ext : ∀ b ∈ ext.head?, b = 59 ∨ b = 32 ∨ b = 9
  newline_not_mem : newline ∉ ext

/-- The size. -/
def SizeLine.value (l : SizeLine) : ℕ := Scanf.value 16 (chars l.digits)

/-- The line. -/
def SizeLine.bytes (l : SizeLine) : List UInt8 := l.digits ++ l.ext ++ crlf

/-- A chunk with its data. -/
structure Chunk where
  size : SizeLine
  data : List UInt8
  data_ne_nil : data ≠ []
  length_data : data.length = size.value

/-- The data end with a CRLF, which the size does not count. -/
def Chunk.bytes (c : Chunk) : List UInt8 := c.size.bytes ++ c.data ++ crlf

/-- A chunked response. The lines are without their CRLFs. -/
structure ChunkedResponse where
  /-- The status line and the headers. -/
  headers : List (List UInt8)
  chunks : List Chunk
  last : SizeLine
  trailers : List (List UInt8)
  headers_line : ∀ h ∈ headers, h ≠ [] ∧ newline ∉ h
  trailers_line : ∀ h ∈ trailers, h ≠ [] ∧ newline ∉ h
  value_last : last.value = 0
  /-- A header says that the response is chunked. -/
  chunked : ∃ h ∈ headers, ∃ codings sp, (∀ b ∈ sp, b = 32 ∨ b = 9) ∧
    h.map clower = cbytes "transfer-encoding:" ++ codings ++ cbytes "chunked" ++ sp

namespace ChunkedResponse

/-- The header, up to its empty line. -/
def header (q : ChunkedResponse) : List UInt8 := (q.headers.map (· ++ crlf)).flatten ++ crlf

/-- The chunks, up to the size of the last. -/
def upToLast (q : ChunkedResponse) : List UInt8 := q.chunks.flatMap Chunk.bytes ++ q.last.bytes

/-- What follows the size of the last chunk. -/
def afterLast (q : ChunkedResponse) : List UInt8 := (q.trailers.map (· ++ crlf)).flatten ++ crlf

/-- The response. -/
def bytes (q : ChunkedResponse) : List UInt8 := q.header ++ q.upToLast ++ q.afterLast

/-- The lines with the sizes of the chunks. -/
def sizes (q : ChunkedResponse) : List SizeLine := q.chunks.map Chunk.size ++ [q.last]

/-- The loops of `doit` with a response before them. -/
def start (q : ChunkedResponse) (reads : ℕ → Option ℕ) (writes : ℕ → ℕ) (clientBuf : List UInt8) :
    Loop where
  clientRio := rioReadinitb ⟨q.bytes, reads⟩
  clientBuf := clientBuf
  chunkSize := 0
  size := 0
  connfd := ⟨[], writes⟩

/-- The loops write the response to the client, take the lines with the sizes and no others for the
headers of chunks, and end at the chunk of size 0. -/
def InStep (q : ChunkedResponse) (reads : ℕ → Option ℕ) (writes : ℕ → ℕ) (clientBuf : List UInt8) :
    Prop :=
  ∃ fuel s, (response fuel (q.start reads writes clientBuf)).result = .ok (s, true) ∧
    s.connfd.out = q.bytes ∧
    headerLines (response fuel (q.start reads writes clientBuf)).trace = q.sizes.map SizeLine.bytes

end ChunkedResponse

/-! ## The last empty line -/

variable {q : ChunkedResponse} {l : SizeLine} {fuel : ℕ} {s s' : Loop}

/-- The byte in front of the CRLF of a size is not a newline. -/
theorem exists_bytes_eq (l : SizeLine) : ∃ t b, b ≠ newline ∧ l.bytes = t ++ [b] ++ crlf := by
  have hne : l.digits ++ l.ext ≠ [] := List.append_ne_nil_of_left_ne_nil l.digits_ne_nil _
  refine ⟨(l.digits ++ l.ext).dropLast, (l.digits ++ l.ext).getLast hne, ?_, ?_⟩
  · rintro heq
    rcases List.mem_append.mp (heq ▸ List.getLast_mem hne) with hmem | hmem
    · exact absurd (l.isDigit_digits _ hmem) (by decide)
    · exact l.newline_not_mem hmem
  · rw [List.dropLast_append_getLast hne]
    rfl

/-- The response ends with an empty line. -/
theorem exists_bytes_eq_newline (q : ChunkedResponse) : ∃ t, q.bytes = t ++ [newline] ++ crlf := by
  obtain ⟨t, b, -, ht⟩ := exists_bytes_eq q.last
  rcases List.eq_nil_or_concat q.trailers with hnil | ⟨trailers, line, hconcat⟩
  · refine ⟨q.header ++ (q.chunks.flatMap Chunk.bytes ++ (t ++ [b] ++ [13])), ?_⟩
    rw [ChunkedResponse.bytes, ChunkedResponse.upToLast, ChunkedResponse.afterLast, hnil, ht]
    simp
  · refine ⟨q.header ++ q.upToLast ++ ((trailers.map (· ++ crlf)).flatten ++ (line ++ [13])), ?_⟩
    rw [ChunkedResponse.bytes, ChunkedResponse.afterLast, hconcat]
    simp

/-- The output ends with a line that is taken for the header of a chunk. -/
theorem exists_out_eq (h : (response fuel s).result = .ok (s', true)) :
    ∃ t lines line, headerLines (response fuel s).trace = lines ++ [line] ∧
      s'.connfd.out = t ++ line := by
  obtain ⟨s₁, hloop, htrace⟩ := exists_chunkLoop_of_response h
  obtain ⟨t, line, hlast⟩ := exists_last_header hloop
  refine ⟨s₁.connfd.out ++ t.flatMap Event.bytes, headerLines t, line, ?_, ?_⟩
  · rw [htrace, hlast, headerLines_append]
    rfl
  · rw [out_chunkLoop hloop, hlast, List.flatMap_append, List.flatMap_singleton, List.append_assoc]
    rfl

/-- If the line with the last size ends the loops, the output is not the response. -/
theorem out_ne_bytes (h : (response fuel s).result = .ok (s', true))
    (hlines : headerLines (response fuel s).trace = q.sizes.map SizeLine.bytes) :
    s'.connfd.out ≠ q.bytes := by
  obtain ⟨t, lines, line, hheader, hout⟩ := exists_out_eq h
  rw [hlines, ChunkedResponse.sizes, List.map_append] at hheader
  obtain ⟨-, hline⟩ := List.append_inj' hheader rfl
  obtain ⟨u, b, hb, hlast⟩ := exists_bytes_eq q.last
  obtain ⟨v, hbytes⟩ := exists_bytes_eq_newline q
  obtain rfl : q.last.bytes = line := (List.cons.inj hline).1
  intro heq
  rw [hout, hlast, hbytes, ← List.append_assoc, ← List.append_assoc] at heq
  have hend := (List.append_inj' (List.append_inj' heq rfl).1 rfl).2
  exact hb (List.cons.inj hend).1

/-- **The loops are never in step** with a chunked response. -/
theorem not_inStep (q : ChunkedResponse) (reads : ℕ → Option ℕ) (writes : ℕ → ℕ)
    (clientBuf : List UInt8) : ¬ q.InStep reads writes clientBuf := by
  rintro ⟨fuel, s, hresult, hout, hlines⟩
  exact out_ne_bytes hresult hlines hout

/-! ## The chunks -/

/-- The digits of a size are no zero byte. -/
theorem zero_not_mem_digits (l : SizeLine) : 0 ∉ l.digits :=
  fun h => absurd (l.isDigit_digits 0 h) (by decide)

/-- What follows the digits does not go on with the number. -/
theorem head_ext_crlf (l : SizeLine) (t : List UInt8) :
    ∀ b ∈ (l.ext ++ crlf ++ t).head?, b = 59 ∨ b = 32 ∨ b = 9 ∨ b = 13 := by
  have hhead := l.head_ext
  cases hext : l.ext with
  | nil =>
    rintro b hb
    obtain rfl : 13 = b := Option.some.inj hb
    decide
  | cons c ext =>
    rw [hext] at hhead
    rintro b hb
    obtain rfl : c = b := Option.some.inj hb
    rcases hhead c rfl with rfl | rfl | rfl <;> decide

/-- `%x` reads the size. -/
theorem lineSize_bytes (l : SizeLine) (t : List UInt8) :
    lineSize (l.bytes ++ t) = some ((strtoull false l.value).setWidth 32) := by
  obtain ⟨c, u, hcu, hc⟩ : ∃ c u, l.ext ++ crlf ++ t = c :: u ∧
      (c = 59 ∨ c = 32 ∨ c = 9 ∨ c = 13) := by
    cases hrest : l.ext ++ crlf ++ t with
    | nil => simp at hrest
    | cons c u => exact ⟨c, u, rfl, head_ext_crlf l t c (by rw [hrest]; rfl)⟩
  have hc0 : c ≠ 0 := by
    rcases hc with rfl | rfl | rfl | rfl <;> decide
  have hstring : untilNul (l.bytes ++ t) = l.digits ++ c :: untilNul u := by
    rw [SizeLine.bytes, List.append_assoc, List.append_assoc,
      untilNul_append_of_not_mem (zero_not_mem_digits l), ← List.append_assoc, hcu,
      untilNul_cons_of_ne hc0]
  have hdigits : ∀ d ∈ chars l.digits, isDigit 16 d = true := by
    intro d hd
    obtain ⟨b, hb, rfl⟩ := List.mem_map.mp hd
    exact l.isDigit_digits b hb
  have hstops : ∀ p : Char → Bool, (∀ b ∈ [59, 32, 9, 13], p (Char.ofNat b) = false) →
      Stops p (chars (c :: untilNul u)) := by
    intro p hp d hd
    obtain rfl := Option.some.inj hd
    rcases hc with rfl | rfl | rfl | rfl <;> exact hp _ (by decide)
  have hrun : Directive.hex.run (chars l.digits ++ chars (c :: untilNul u)) =
      .ok ([.hex (strtoull false l.value)], chars (c :: untilNul u)) :=
    hex_run (List.forall_mem_nil _) (mt List.map_eq_nil_iff.mp l.digits_ne_nil) hdigits
      (hstops _ (by decide)) (hstops _ (by decide))
  rw [lineSize, hstring, chars, List.map_append, ← chars, ← chars, scanf_cons hrun]
  rfl

/-- A chunk is read with no more bytes than the number in its line. -/
theorem limit_le (v : ℕ) : limit ((strtoull false v).setWidth 32) ≤ v := by
  have hv := toNat_strtoull_le v
  rcases Nat.lt_or_ge ((strtoull false v).setWidth 32).toNat (2 ^ 31) with hlt | hge
  · rw [limit_of_lt hlt]
    exact hv
  · have hmax : maxline = 8192 := rfl
    rw [limit_of_ge hge]
    omega

/-- The sizes are those of the chunks. -/
theorem sum_values (q : ChunkedResponse) :
    (q.sizes.map SizeLine.value).sum = (q.chunks.map fun c => c.data.length).sum := by
  rw [ChunkedResponse.sizes, List.map_append, List.sum_append, List.map_map, List.map_singleton,
    List.sum_singleton, q.value_last, Nat.add_zero]
  exact congrArg List.sum (List.map_congr_left fun c _ => c.length_data.symm)

/-- The bytes up to the last size: the lines with the sizes, the data, and their line ends. -/
theorem length_upToLast (q : ChunkedResponse) :
    q.upToLast.length = (q.sizes.map SizeLine.bytes).flatten.length +
      (q.chunks.map fun c => c.data.length).sum + 2 * q.chunks.length := by
  rw [ChunkedResponse.upToLast, ChunkedResponse.sizes]
  induction q.chunks with
  | nil => simp
  | cons c chunks ih =>
    simp only [List.flatMap_cons, List.map_cons, List.cons_append, List.flatten_cons, List.sum_cons,
      List.length_cons, List.length_append, Chunk.bytes, List.length_nil] at ih ⊢
    omega

/-- **The line ends behind the chunks.** If the loops take the lines with the sizes for the headers
of chunks and write all bytes from the first size to the last, then there are no chunks. -/
theorem chunks_eq_nil (h : (response fuel s).result = .ok (s', true))
    (hlines : headerLines (response fuel s).trace = q.sizes.map SizeLine.bytes)
    (hbytes : (response fuel s).trace.flatMap Event.bytes = q.upToLast) : q.chunks = [] := by
  obtain ⟨s₁, hloop, htrace⟩ := exists_chunkLoop_of_response h
  rw [htrace] at hlines hbytes
  have hread : (readBytes (chunkLoop fuel s₁).trace).length ≤
      (q.chunks.map fun c => c.data.length).sum := by
    rw [← sum_values]
    refine length_readBytes_le SizeLine.value SizeLine.bytes hloop hlines fun l _ t => ?_
    exact ⟨_, lineSize_bytes l t, limit_le l.value⟩
  have hlen := length_bytes (chunkLoop fuel s₁).trace
  rw [hlines, hbytes, length_upToLast] at hlen
  exact List.length_eq_zero_iff.mp (by omega)

/-! ## A chunk of five bytes -/

/-- The size line with the digit 5. -/
def five : SizeLine where
  digits := [53]
  ext := []
  digits_ne_nil := by decide
  isDigit_digits := List.forall_mem_singleton.mpr (by decide)
  head_ext := fun _ h => nomatch h
  newline_not_mem := by decide

/-- The size line with the digit 0. -/
def zero : SizeLine where
  digits := [48]
  ext := []
  digits_ne_nil := by decide
  isDigit_digits := List.forall_mem_singleton.mpr (by decide)
  head_ext := fun _ h => nomatch h
  newline_not_mem := by decide

/-- The response with `hello` as its only chunk. -/
def hello : ChunkedResponse where
  headers := [cbytes "HTTP/1.1 200 OK", cbytes "Transfer-Encoding: chunked"]
  chunks := [⟨five, cbytes "hello", by decide, by decide⟩]
  last := zero
  trailers := []
  headers_line := by decide
  trailers_line := by decide
  value_last := by decide
  chunked := ⟨cbytes "Transfer-Encoding: chunked", by decide, cbytes " ", [],
    List.forall_mem_nil _, by decide⟩

/-- It does not get through when one `read` returns all of it. -/
theorem exists_not_inStep :
    ∃ q reads writes clientBuf, (∀ i, reads i ≠ none) ∧
      ¬ ChunkedResponse.InStep q reads writes clientBuf :=
  ⟨hello, fun _ => some 8191, fun _ => 8191, List.replicate maxline 0,
    fun _ => Option.some_ne_none _,
    fun ⟨_, _, hresult, hout, hlines⟩ => out_ne_bytes hresult hlines hout⟩

/-- The whole response is in the buffer before the chunk is read. -/
example : headerLines (response 5
      (hello.start (fun _ => some 8191) (fun _ => 8191) (List.replicate maxline 0))).trace =
    [cbytes "5\r\n", cbytes "hello\r\n", cbytes "0\r\n"] := by
  decide +kernel

end SystemsLabs.Proxylab.Latest
