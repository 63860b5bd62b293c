import SystemsLabs.Proxylab.Survival

/-!
# What the origin server gets

* `ClientRequest` — a request as a client writes it, and the message that is made of it.
* `sendRequest` — `doit` up to the request to the origin server.
* `forwarded_of_host` — the origin server gets this message, whatever the segmentation of the
  request, if there is no white space in the host name. `sscanf` takes a tab in it for the end of
  the URI (`exists_not_forwarded`).

**Assumptions.** The calls up to the request succeed and no write fails (`Env.Reaches`), `sprintf`
with `client_message` among its arguments appends to it, and the lines and the message fit their
arrays (`ClientRequest.Valid`).
-/

namespace SystemsLabs.Proxylab

open Lib Scanf

/-! ## Requests -/

/-- White space, for `sscanf`. -/
def isWhite (b : UInt8) : Bool := isSpace (Char.ofNat b.toNat)

/-- A request `GET http://HOST[:PORT]/PATH VERSION`, with headers. -/
structure ClientRequest where
  host : List UInt8
  port : Option (List UInt8)
  path : List UInt8
  version : List UInt8
  headers : List (List UInt8)

namespace ClientRequest

/-- The part of the URI from the end of the host name on. -/
def afterHost (q : ClientRequest) : List UInt8 :=
  (q.port.elim [] fun port => 58 :: port) ++ 47 :: q.path

/-- The URI. -/
def uri (q : ClientRequest) : List UInt8 := cbytes "http://" ++ (q.host ++ q.afterHost)

/-- The request line. -/
def requestLine (q : ClientRequest) : List UInt8 :=
  cbytes "GET " ++ q.uri ++ cbytes " " ++ q.version ++ crlf

/-- The header lines. -/
def headerLines (q : ClientRequest) : List (List UInt8) := q.headers.map (· ++ crlf)

/-- The request. -/
def bytes (q : ClientRequest) : List UInt8 := q.requestLine ++ q.headerLines.flatten ++ crlf

/-- What the origin server is to get. -/
def message (q : ClientRequest) : List UInt8 :=
  cbytes "GET /" ++ q.path ++ cbytes " " ++ q.version ++ crlf ++ q.headerLines.flatten ++ crlf

/-- A request that is well formed, and short enough. -/
structure Valid (q : ClientRequest) : Prop where
  host_ne_nil : q.host ≠ []
  /-- No space, colon, slash, CR or LF. -/
  host : ∀ b ∈ q.host, isHostEnd b = false
  port : ∀ port ∈ q.port, ∀ b ∈ port, isWhite b = false ∧ b ≠ 47
  path : ∀ b ∈ q.path, isWhite b = false
  version_ne_nil : q.version ≠ []
  version : ∀ b ∈ q.version, isWhite b = false
  headers : ∀ header ∈ q.headers, header ≠ [] ∧ newline ∉ header
  nul : 0 ∉ q.bytes
  requestLine_lt : q.requestLine.length < maxline
  headerLines_lt : ∀ line ∈ q.headerLines, line.length < maxline
  message_lt : q.message.length < maxbuf

end ClientRequest

/-! ## The message to the origin server -/

/-- `doit` up to the request to the origin server: what is written there, if the method is not
turned down. -/
def sendRequest (fuel : ℕ) (e : Env) : Except Stop (Option (List UInt8)) := do
  check e.detach "Pthread_detach error"
  match ← readRequest fuel e with
  | none => .ok none
  | some r => do
    let clientfd ← openClientfd e
    let message ← defined r.clientMessage.string
    .ok (some (rioWritenW (if clientfd < 0 then Sock.bad else ⟨[], e.originWrites⟩) message).out)

/-- The thread runs, the connection to the origin server is opened, and writes to it succeed. -/
structure Env.Reaches (e : Env) : Prop where
  detach : e.detach = true
  socket : 0 ≤ e.socket
  lockTs : e.lockTs = true
  gethostbyname : e.gethostbyname = true
  unlockTs : e.unlockTs = true
  connect : e.connect = true
  writes : ∀ i, e.originWrites i ≠ none

/-- The origin server gets the message for this request, and has got nothing else when `doit`
returns. -/
def Env.Forwarded (e : Env) (q : ClientRequest) : Prop :=
  ∀ fuel, q.headers.length + 1 < fuel → sendRequest fuel e = .ok (some q.message) ∧
    ∀ d, doit fuel e = .ok d → d.toOrigin = q.message

variable {e : Env} {q : ClientRequest} {fuel : ℕ} {s t : List UInt8} {rp : Rio}

/-- What is sent, if `doit` gets as far as the write to the origin server. -/
theorem sendRequest_eq_some_iff {sent : List UInt8} :
    sendRequest fuel e = .ok (some sent) ↔ e.detach = true ∧ ∃ r clientfd message,
      readRequest fuel e = .ok (some r) ∧ openClientfd e = .ok clientfd ∧
      r.clientMessage.string = some message ∧
      (rioWritenW (if clientfd < 0 then Sock.bad else ⟨[], e.originWrites⟩) message).out =
        sent := by
  unfold sendRequest
  simp only [bind_eq_ok, check_eq_ok, exists_and_left, exists_const]
  refine and_congr_right fun _ => ⟨?_, ?_⟩
  · rintro ⟨_ | r, hread, h⟩
    · cases Except.ok.inj h
    · simp only [bind_eq_ok, defined_eq_ok, Except.ok.injEq, Option.some.injEq] at h
      obtain ⟨clientfd, hopen, message, hmessage, hsent⟩ := h
      exact ⟨r, hread, clientfd, hopen, message, hmessage, hsent⟩
  · rintro ⟨r, hread, clientfd, hopen, message, hmessage, rfl⟩
    refine ⟨some r, hread, ?_⟩
    simp only [bind_eq_ok, defined_eq_ok]
    exact ⟨clientfd, hopen, message, hmessage, rfl⟩

/-- `doit` goes on where `sendRequest` ends. -/
theorem toOrigin_eq {d : Done} {sent : List UInt8} (hsent : sendRequest fuel e = .ok (some sent))
    (h : doit fuel e = .ok d) : d.toOrigin = sent := by
  obtain ⟨-, r, clientfd, message, hread, hopen, hmessage, rfl⟩ := sendRequest_eq_some_iff.mp hsent
  obtain ⟨-, ⟨hnone, -⟩ | ⟨r', hread', hforward⟩⟩ := doit_eq_ok_iff.mp h
  · cases hread.symm.trans hnone
  · obtain rfl := Option.some.inj (Except.ok.inj (hread.symm.trans hread'))
    unfold forward at hforward
    simp only [bind_eq_ok, defined_eq_ok, hopen, hmessage, Except.ok.injEq, Option.some.injEq,
      exists_eq_left'] at hforward
    obtain ⟨-, -, -, -, -, -, -, -, -, -, rfl⟩ := hforward
    rfl

/-! ## The request line -/

/-- A string that fits is stored. -/
theorem storeItem_chars (b : CBuf maxline) (hlen : s.length < maxline) (h0 : 0 ∉ s) :
    ∃ b', storeItem b (some (.str (chars s))) = some b' ∧ b'.string = some s := by
  have hputs : b.puts s = some (b.put (s ++ [0])) := CBuf.puts_eq_some_iff.mpr ⟨hlen, rfl⟩
  exact ⟨_, by rw [storeItem, ofChars_chars, hputs], CBuf.string_puts hputs h0⟩

/-- A word of a request line, for `sscanf`. -/
def IsWord (w : List UInt8) : Prop := w ≠ [] ∧ ∀ b ∈ w, isWhite b = false

/-- A word for `sscanf`. -/
theorem IsWord.chars {w : List UInt8} (h : IsWord w) :
    chars w ≠ [] ∧ ∀ c ∈ chars w, isSpace c = false := by
  refine ⟨fun hnil => h.1 (List.map_eq_nil_iff.mp hnil), fun c hc => ?_⟩
  obtain ⟨b, hb, rfl⟩ := List.mem_map.mp hc
  exact h.2 b hb

/-- `%s %s %s` on three words. -/
theorem scanf_words {a b c : List UInt8} (ha : IsWord a) (hb : IsWord b) (hc : IsWord c) :
    (scanf requestFormat (chars (a ++ cbytes " " ++ b ++ cbytes " " ++ c ++ crlf))).items =
      [.str (chars a), .str (chars b), .str (chars c)] := by
  have happend : ∀ s t, chars (s ++ t) = chars s ++ chars t := fun s t => List.map_append
  have hsp : ∀ x ∈ chars (cbytes " "), isSpace x = true := by
    intro x hx
    obtain rfl := List.mem_singleton.mp hx
    rfl
  have hstop : ∀ s, Stops (fun c => !isSpace c) (chars (cbytes " ") ++ s) := by
    rintro s x hx
    obtain rfl := Option.some.inj hx
    rfl
  have hend : Stops (fun c => !isSpace c) (chars crlf) := by
    rintro x hx
    obtain rfl := Option.some.inj hx
    rfl
  obtain ⟨hane, haw⟩ := ha.chars
  obtain ⟨hbne, hbw⟩ := hb.chars
  obtain ⟨hcne, hcw⟩ := hc.chars
  rw [happend, happend, happend, happend, happend, List.append_assoc, List.append_assoc,
    List.append_assoc, List.append_assoc, requestFormat]
  rw [scanf_cons (str_run hane haw (hstop _)), scanf_cons (space_run_word hbne hbw hsp),
    scanf_cons (str_run hbne hbw (hstop _)), scanf_cons (space_run_word hcne hcw hsp),
    scanf_cons (str_run hcne hcw hend)]
  rfl

/-- `sscanf` splits a line with three words. -/
theorem sscanfRequest_words {buf : CBuf maxline} (r : RequestLine) {a b c : List UInt8}
    (hbuf : buf.string = some (a ++ cbytes " " ++ b ++ cbytes " " ++ c ++ crlf))
    (ha : IsWord a) (hb : IsWord b) (hc : IsWord c) :
    ∃ r', sscanfRequest buf r = some r' ∧ r'.method.string = some a ∧ r'.uri.string = some b ∧
      r'.version.string = some c := by
  have hlen := CBuf.length_lt_of_string hbuf
  have h0 := CBuf.not_mem_of_string hbuf
  simp only [List.length_append, List.mem_append, not_or] at hlen h0
  obtain ⟨⟨⟨⟨⟨ha0, -⟩, hb0⟩, -⟩, hc0⟩, -⟩ := h0
  obtain ⟨m, hm, hms⟩ := storeItem_chars r.method (by omega) ha0
  obtain ⟨u, hu, hus⟩ := storeItem_chars r.uri (by omega) hb0
  obtain ⟨v, hv, hvs⟩ := storeItem_chars r.version (by omega) hc0
  refine ⟨⟨m, u, v⟩, ?_, hms, hus, hvs⟩
  unfold sscanfRequest
  rw [hbuf]
  simp only [Option.bind_eq_bind, Option.bind_some, scanf_words ha hb hc, List.getElem?_cons_zero,
    List.getElem?_cons_succ, hm, hu, hv, Option.pure_def]

/-! ## The URI -/

/-- Behind the host name there is a port or the path. -/
theorem head_afterHost (q : ClientRequest) : ∀ b ∈ q.afterHost.head?, isHostEnd b = true := by
  intro b hb
  unfold ClientRequest.afterHost at hb
  cases hp : q.port with
  | none =>
    rw [hp] at hb
    obtain rfl := Option.some.inj hb
    decide
  | some port =>
    rw [hp] at hb
    obtain rfl := Option.some.inj hb
    decide

/-- The path starts at the first slash. -/
theorem dropWhile_afterHost (hq : q.Valid) :
    q.afterHost.dropWhile (fun b => b != 47) = 47 :: q.path := by
  have hport : ∀ b ∈ q.port.elim [] (fun port => 58 :: port), (b != 47) = true := by
    intro b hb
    cases hp : q.port with
    | none =>
      rw [hp] at hb
      exact absurd hb List.not_mem_nil
    | some port =>
      rw [hp] at hb
      rcases List.mem_cons.mp hb with rfl | hb
      · decide
      · exact bne_iff_ne.mpr (hq.port port hp b hb).2
  rw [ClientRequest.afterHost, List.dropWhile_append_of_pos hport]
  exact List.dropWhile_cons_of_neg (by decide)

/-- `parse_uri` finds the host name, the port and the path. -/
theorem parseUri_uri (hq : q.Valid) {uri : CBuf maxline} (huri : uri.string = some q.uri)
    (pathname : CBuf maxline) (port : ℤ) :
    ∃ path, pathname.puts (47 :: q.path) = some path ∧
      parseUri uri pathname port = some ⟨0, q.host, path,
        if q.afterHost.head? = some 58 then atoi q.afterHost.tail else 80⟩ := by
  have hne : q.afterHost ≠ [] := by
    unfold ClientRequest.afterHost
    simp
  obtain ⟨path, hpath, heq⟩ :=
    (parseUri_parts (by decide) hq.host (head_afterHost q) huri pathname port).2 hne
  rw [dropWhile_afterHost hq, if_neg (List.cons_ne_nil 47 q.path)] at hpath
  exact ⟨path, hpath, heq⟩

/-! ## The lines of the request -/

/-- A line that ends in CRLF is taken as one. -/
theorem takeLine_crlf (hs : newline ∉ s) (hlen : (s ++ crlf).length < maxline) (t : List UInt8) :
    takeLine newline (maxline - 1) (s ++ crlf ++ t) = (s ++ crlf, t) := by
  have hbody : newline ∉ s ++ [13] := by
    rw [List.mem_append, not_or]
    exact ⟨hs, by decide⟩
  have hshort : (s ++ [13]).length < maxline - 1 := by
    simp only [List.length_append, List.length_cons, List.length_nil] at hlen ⊢
    omega
  have hline := takeLine_line (s := t) hbody hshort
  rw [List.append_assoc, List.append_assoc] at hline
  rw [List.append_assoc]
  exact hline

/-- CRLF ends a line. -/
theorem terminated_crlf (s : List UInt8) : Terminated newline (s ++ crlf) := by
  simp [Terminated]

/-- The header lines, and the blank one. -/
theorem headers_lines {headers : List (List UInt8)}
    (h : ∀ header ∈ headers, header ≠ [] ∧ newline ∉ header)
    (hlen : ∀ line ∈ headers.map (· ++ crlf), line.length < maxline) :
    Headers ((headers.map (· ++ crlf)).flatten ++ crlf) (headers.map (· ++ crlf) ++ [crlf]) := by
  induction headers with
  | nil => exact .blank (by decide)
  | cons header headers ih =>
    obtain ⟨hne, hnl⟩ := h header List.mem_cons_self
    have hline := takeLine_crlf hnl (hlen _ List.mem_cons_self)
      ((headers.map (· ++ crlf)).flatten ++ crlf)
    have hrest := ih (fun l hl => h l (List.mem_cons_of_mem _ hl))
      fun l hl => hlen l (List.mem_cons_of_mem _ hl)
    rw [List.map_cons, List.flatten_cons, List.cons_append, List.append_assoc]
    have hne' : header ++ crlf ≠ crlf := fun hcrlf => hne (List.append_left_eq_self.mp hcrlf)
    have hcons := @Headers.line (header ++ crlf ++ ((headers.map (· ++ crlf)).flatten ++ crlf))
      (headers.map (· ++ crlf) ++ [crlf])
    rw [hline] at hcons
    exact hcons (Or.inl (terminated_crlf header)) hne' hrest

/-! ## Forwarding -/

/-- A word goes on until white space. -/
theorem isWord_append {a b : List UInt8} (ha : IsWord a) (hb : ∀ x ∈ b, isWhite x = false) :
    IsWord (a ++ b) := by
  refine ⟨List.append_ne_nil_of_left_ne_nil ha.1 b, fun x hx => ?_⟩
  exact (List.mem_append.mp hx).elim (ha.2 x) (hb x)

/-- The URI is one word. -/
theorem isWord_uri (hq : q.Valid) (hhost : ∀ b ∈ q.host, isWhite b = false) : IsWord q.uri := by
  apply isWord_append ⟨by decide, by decide +kernel⟩
  intro b hb
  rcases List.mem_append.mp hb with hb | hb
  · exact hhost b hb
  rcases List.mem_append.mp hb with hb | hb
  · cases hp : q.port with
    | none =>
      rw [hp] at hb
      exact absurd hb List.not_mem_nil
    | some port =>
      rw [hp] at hb
      rcases List.mem_cons.mp hb with rfl | hb
      · decide
      · exact (hq.port port hp b hb).1
  · rcases List.mem_cons.mp hb with rfl | hb
    · decide
    · exact hq.path b hb

/-- A word has no newline. -/
theorem newline_not_mem_of_isWord {w : List UInt8} (h : IsWord w) : newline ∉ w := by
  intro hmem
  exact absurd (h.2 newline hmem) (by decide)

/-- The request line is the first line that is read. -/
theorem takeLine_bytes (hq : q.Valid) (hhost : ∀ b ∈ q.host, isWhite b = false) :
    takeLine newline (maxline - 1) q.bytes = (q.requestLine, q.headerLines.flatten ++ crlf) := by
  have hnl : newline ∉ cbytes "GET " ++ q.uri ++ cbytes " " ++ q.version := by
    simp only [List.mem_append, not_or]
    exact ⟨⟨⟨by decide, newline_not_mem_of_isWord (isWord_uri hq hhost)⟩, by decide⟩,
      newline_not_mem_of_isWord ⟨hq.version_ne_nil, hq.version⟩⟩
  have hline := takeLine_crlf hnl hq.requestLine_lt (q.headerLines.flatten ++ crlf)
  rwa [ClientRequest.bytes, List.append_assoc]

/-- No line has a zero byte, so each goes to the message as it is. -/
theorem flatten_untilNul {ls : List (List UInt8)} (h : 0 ∉ ls.flatten) :
    (ls.map untilNul).flatten = ls.flatten := by
  have hmap : ls.map untilNul = ls.map id :=
    List.map_congr_left fun l hl => untilNul_of_not_mem fun h0 =>
      h (List.mem_flatten.mpr ⟨l, hl, h0⟩)
  rw [hmap, List.map_id]

/-- The buffer after the request line has been read. -/
theorem string_requestLine (hq : q.Valid) (buf : CBuf maxline) :
    (buf.put (q.requestLine ++ [0])).string = some q.requestLine := by
  have h0 : 0 ∉ q.requestLine := by
    have := hq.nul
    simp only [ClientRequest.bytes, List.mem_append, not_or] at this
    exact this.1.1
  rw [CBuf.string_put hq.requestLine_lt, untilNul_of_not_mem h0]

/-- The first line that is read. -/
theorem read_requestLine (hq : q.Valid) (hhost : ∀ b ∈ q.host, isWhite b = false)
    (hconn : e.conn.delivered.1 = q.bytes) (buf : CBuf maxline) :
    ∃ rp, rioReadlinebExit (rioReadinitb e.conn) buf = .ok (rp, buf.put (q.requestLine ++ [0])) ∧
      rp.delivered.1 = q.headerLines.flatten ++ crlf := by
  have hcases := rioReadlinebExit_cases (rioReadinitb e.conn) buf
  rw [delivered_rioReadinitb, hconn, takeLine_bytes hq hhost] at hcases
  rcases hcases with ⟨-, rp, hread, hrest⟩ | ⟨hnot, -⟩
  · exact ⟨rp, hread, hrest⟩
  · exact absurd (Or.inl (terminated_crlf _)) hnot

/-- The request line is not taken for a blank line. -/
theorem isString_requestLine (hq : q.Valid) (buf : CBuf maxline) :
    (buf.put (q.requestLine ++ [0])).isString crlf = false := by
  rw [Bool.eq_false_iff]
  intro h
  rw [CBuf.isString_iff (by decide), string_requestLine hq buf] at h
  have hhead := congrArg List.head? (Option.some.inj h)
  exact absurd hhead (by simp [ClientRequest.requestLine, cbytes])

/-- The header has no zero byte. -/
theorem zero_not_mem_headerLines (hq : q.Valid) : 0 ∉ (q.headerLines ++ [crlf]).flatten := by
  have := hq.nul
  simp only [ClientRequest.bytes, List.mem_append, not_or] at this
  rw [List.flatten_append, List.flatten_singleton, List.mem_append, not_or]
  exact ⟨this.1.2, this.2⟩

/-- The path has no zero byte. -/
theorem zero_not_mem_path (hq : q.Valid) : 0 ∉ 47 :: q.path := by
  have := hq.nul
  simp only [ClientRequest.bytes, ClientRequest.requestLine, ClientRequest.uri,
    ClientRequest.afterHost, List.mem_append, not_or] at this
  exact this.1.1.1.1.1.2.2.2.2

/-- The message, as it is put together. -/
theorem message_eq (q : ClientRequest) :
    cbytes "GET" ++ [32] ++ 47 :: q.path ++ [32] ++ q.version ++ crlf ++
      (q.headerLines ++ [crlf]).flatten = q.message := by
  have hget : cbytes "GET /" = cbytes "GET" ++ [32] ++ [47] := by decide
  have hspace : cbytes " " = [32] := by decide
  rw [ClientRequest.message, hget, hspace]
  simp

/-- The request is read, and the message assembled. -/
theorem readRequest_of_valid (hq : q.Valid) (hhost : ∀ b ∈ q.host, isWhite b = false)
    (hconn : e.conn.delivered.1 = q.bytes) (hfuel : q.headers.length + 1 < fuel) :
    ∃ r, readRequest fuel e = .ok (some r) ∧ r.clientMessage.string = some q.message := by
  -- The request line.
  obtain ⟨rp, hread, hrest⟩ := read_requestLine hq hhost hconn e.stack.buf
  have hbuf := string_requestLine hq e.stack.buf
  obtain ⟨r, hscan, hmethod, huri, hversion⟩ := sscanfRequest_words (a := cbytes "GET")
    e.stack.requestLine hbuf ⟨by decide, by decide +kernel⟩ (isWord_uri hq hhost)
    ⟨hq.version_ne_nil, hq.version⟩
  obtain ⟨path, hpath, hparse⟩ := parseUri_uri hq huri e.stack.pathname e.stack.port
  -- The message.
  have hlines := flatten_untilNul (zero_not_mem_headerLines hq)
  have hlt := hq.message_lt
  rw [← message_eq, List.length_append] at hlt
  have hpathString := CBuf.string_puts hpath (zero_not_mem_path hq)
  obtain ⟨first, hputs⟩ : ∃ m, e.stack.clientMessage.puts
      (cbytes "GET" ++ [32] ++ 47 :: q.path ++ [32] ++ q.version ++ crlf) = some m :=
    ⟨_, CBuf.puts_eq_some_iff.mpr ⟨Nat.lt_of_le_of_lt (Nat.le_add_right _ _) hlt, rfl⟩⟩
  have hfirst := firstMessage_eq_some_iff.mpr ⟨_, _, _, hmethod, hpathString, hversion, hputs⟩
  have hstring := string_firstMessage hmethod hpathString hversion hputs
  have hheaders : Headers rp.delivered.1 (q.headerLines ++ [crlf]) := by
    rw [hrest]
    exact headers_lines hq.headers hq.headerLines_lt
  have hfit : linesLength (q.headerLines ++ [crlf]) = (q.headerLines ++ [crlf]).flatten.length :=
    congrArg List.length hlines
  have hfuel' : (q.headerLines ++ [crlf]).length < fuel := by
    rw [List.length_append, ClientRequest.headerLines, List.length_map]
    exact hfuel
  obtain ⟨m, hloop, hm⟩ := headerLoop_of_headers hheaders (isString_requestLine hq e.stack.buf)
    hstring (hfit ▸ hlt) hfuel'
  rw [hlines, message_eq] at hm
  have hget : r.method.isStringNoCase (cbytes "get") = true :=
    (CBuf.isStringNoCase_iff hmethod (by decide)).mpr (by decide)
  exact ⟨_, readRequest_eq_some_iff.mpr
    ⟨rp, _, r, hread, hscan, hget, _, first, m, hparse, hfirst, hloop, rfl⟩, hm⟩

/-- **The origin server gets the message for the request**, whatever the segmentation, if there is
no white space in the host name. -/
theorem forwarded_of_host (hq : q.Valid) (hhost : ∀ b ∈ q.host, isWhite b = false)
    (he : e.Reaches) (hreads : e.conn.NoErrors) (hconn : e.conn.pending = q.bytes) :
    e.Forwarded q := by
  intro fuel hfuel
  have hdelivered : e.conn.delivered.1 = q.bytes := by rw [hreads.delivered, hconn]
  obtain ⟨r, hread, hmessage⟩ := readRequest_of_valid hq hhost hdelivered hfuel
  obtain ⟨clientfd, hopen, hpos⟩ :=
    openClientfd_iff.mpr ⟨he.socket, he.lockTs, he.gethostbyname, he.unlockTs, he.connect⟩
  have hsent : sendRequest fuel e = .ok (some q.message) := by
    refine sendRequest_eq_some_iff.mpr ⟨he.detach, r, clientfd, _, hread, hopen, hmessage, ?_⟩
    rw [if_neg (Int.not_lt.mpr hpos)]
    exact out_rioWritenW _ he.writes _
  exact ⟨hsent, fun d hd => toOrigin_eq hsent hd⟩

/-! ## Two requests -/

/-- A request with a port and a header. -/
def plain : ClientRequest where
  host := cbytes "a"
  port := some (cbytes "8080")
  path := cbytes "x.html"
  version := cbytes "HTTP/1.0"
  headers := [cbytes "Host: a"]

/-- A request with a tab in the host name. -/
def tabbed : ClientRequest where
  host := cbytes "a\tb"
  port := none
  path := []
  version := cbytes "HTTP/1.0"
  headers := []

/-- The request arrives and the message leaves three bytes at a time. -/
def reached (q : ClientRequest) : Env :=
  { refused with
    conn := ⟨q.bytes, fun _ => some 2⟩
    connect := true
    originWrites := fun _ => some 2 }

/-- Every call succeeds. -/
theorem reaches_reached (q : ClientRequest) : (reached q).Reaches where
  detach := rfl
  socket := by
    change (0 : ℤ) ≤ 5
    decide
  lockTs := rfl
  gethostbyname := rfl
  unlockTs := rfl
  connect := rfl
  writes _ := Option.some_ne_none 2

/-- No read fails. -/
theorem noErrors_reached (q : ClientRequest) : (reached q).conn.NoErrors :=
  fun _ => Option.some_ne_none 2

/-- A plain request. -/
theorem valid_plain : plain.Valid where
  host_ne_nil := by decide
  host := by decide +kernel
  port := by decide +kernel
  path := by decide +kernel
  version_ne_nil := by decide
  version := by decide +kernel
  headers := by decide
  nul := by decide
  requestLine_lt := by decide
  headerLines_lt := by decide
  message_lt := by decide

/-- All but the tab is as the theorem asks. -/
theorem valid_tabbed : tabbed.Valid where
  host_ne_nil := by decide
  host := by decide +kernel
  port := by decide
  path := by decide +kernel
  version_ne_nil := by decide
  version := by decide +kernel
  headers := by decide
  nul := by decide
  requestLine_lt := by decide
  headerLines_lt := by decide
  message_lt := by decide

/-- The request with a port and one header line. -/
theorem forwarded_of_host_example : (reached plain).Forwarded plain :=
  forwarded_of_host valid_plain (by decide +kernel) (reaches_reached plain)
    (noErrors_reached plain) rfl

/-- `sscanf` takes the tab for the end of the URI, and `parse_uri` finds no end of the host name:
its `strpbrk` returns a null pointer. -/
theorem exists_not_forwarded :
    ∃ (e : Env) (q : ClientRequest), q.Valid ∧ e.Reaches ∧ e.conn.NoErrors ∧
      e.conn.pending = q.bytes ∧ ¬ e.Forwarded q := by
  refine ⟨reached tabbed, tabbed, valid_tabbed, reaches_reached tabbed,
    noErrors_reached tabbed, rfl, fun h => ?_⟩
  have hstop : sendRequest 2 (reached tabbed) = .error .undefined := by
    decide +kernel
  cases hstop.symm.trans (h 2 (by decide)).1

end SystemsLabs.Proxylab
