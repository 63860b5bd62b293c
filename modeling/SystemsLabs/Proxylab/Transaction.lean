import SystemsLabs.Proxylab.Forwarding
import SystemsLabs.Proxylab.Logging

/-!
# A whole transaction (`doit`)

`doit` from the first byte of a request to the entry in the log, when every call succeeds. The
sockets deliver and accept their bytes in any portions.

* `relayWith_rel` — the relay does the same to two descriptors that accept all bytes, whatever they
  are.
* `transaction` — the origin server gets the message of the request, and the client gets its answer
  unaltered if and only if that is an image or consists of lines which fit.

**Assumptions.** Every call succeeds, the request is well-formed and fits the arrays
(`ClientRequest.Valid`), and the log entry fits `logstring` (`Env.Completes`).
-/

namespace SystemsLabs.Proxylab

open Lib

variable {e : Env} {q : ClientRequest} {r : Request} {fuel : ℕ}

/-! ## The request -/

namespace ClientRequest

/-- The port that `parse_uri` finds. -/
def portNumber (q : ClientRequest) : ℤ :=
  match q.port with
  | some port => atoi (port ++ 47 :: q.path)
  | none => 80

/-- The path, as `get_filetype` gets it. -/
def pathname (q : ClientRequest) : List Char := chars (47 :: q.path)

/-- The port behind the colon, or 80. -/
theorem portNumber_eq (q : ClientRequest) :
    (if q.afterHost.head? = some 58 then atoi q.afterHost.tail else 80) = q.portNumber := by
  unfold afterHost portNumber
  cases q.port with
  | none => rfl
  | some port => rfl

end ClientRequest

/-- What has been read of a well-formed request. -/
theorem request_of_valid (hq : q.Valid) (hhost : ∀ b ∈ q.host, isWhite b = false)
    (hconn : e.conn.delivered.1 = q.bytes) (h : readRequest fuel e = .ok (some r)) :
    r.hostname = q.host ∧ r.port = q.portNumber ∧ r.uri.string = some q.uri ∧
      r.pathname.string = some (47 :: q.path) := by
  obtain ⟨rp, buf, line, hread, hscan, -, p, m, m', hparse, -, -, rfl⟩ :=
    readRequest_eq_some_iff.mp h
  obtain ⟨rp', hread', -⟩ := read_requestLine hq hhost hconn e.stack.buf
  obtain ⟨rfl, rfl⟩ := Prod.mk.inj (Except.ok.inj (hread'.symm.trans hread))
  obtain ⟨line', hscan', -, huri, -⟩ := sscanfRequest_words (a := cbytes "GET")
    e.stack.requestLine (string_requestLine hq e.stack.buf) ⟨by decide, by decide +kernel⟩
    (isWord_uri hq hhost) ⟨hq.version_ne_nil, hq.version⟩
  obtain rfl := Option.some.inj (hscan'.symm.trans hscan)
  obtain ⟨path, hpath, hparse'⟩ := parseUri_uri hq huri e.stack.pathname e.stack.port
  obtain rfl := Option.some.inj (hparse'.symm.trans hparse)
  exact ⟨rfl, q.portNumber_eq, huri, CBuf.string_puts hpath (zero_not_mem_path hq)⟩

/-! ## The response -/

section Rel

variable {σ τ : Type*} {R : σ → τ → Prop} {writen : σ → List UInt8 → σ}
  {writen' : τ → List UInt8 → τ} {s s' : σ} {t : τ} {buf : List UInt8} {n size : ℕ}

/-- Two sinks that are related stay so, and get the same number of bytes. -/
theorem relayLinesWith_rel (hR : ∀ s t bytes, R s t → R (writen s bytes) (writen' t bytes))
    {rp : Rio} (hst : R s t) (h : relayLinesWith writen fuel rp buf n s = some (size, s')) :
    ∃ t', relayLinesWith writen' fuel rp buf n t = some (size, t') ∧ R s' t' := by
  induction fuel generalizing rp buf n s t with
  | zero => cases h
  | succ fuel ih =>
    unfold relayLinesWith at h ⊢
    dsimp only at h ⊢
    split_ifs at h ⊢
    · obtain ⟨rfl, rfl⟩ := Prod.mk.inj (Option.some.inj h)
      exact ⟨t, rfl, hst⟩
    · exact ih (hR _ _ _ hst) h

/-- Two sinks that are related stay so, and get the same number of bytes. -/
theorem relayBlocksWith_rel (hR : ∀ s t bytes, R s t → R (writen s bytes) (writen' t bytes))
    {fd : Fd} (hst : R s t) (h : relayBlocksWith writen fuel fd buf n s = some (size, s')) :
    ∃ t', relayBlocksWith writen' fuel fd buf n t = some (size, t') ∧ R s' t' := by
  induction fuel generalizing fd buf n s t with
  | zero => cases h
  | succ fuel ih =>
    unfold relayBlocksWith at h ⊢
    dsimp only at h ⊢
    split_ifs at h ⊢
    · obtain ⟨rfl, rfl⟩ := Prod.mk.inj (Option.some.inj h)
      exact ⟨t, rfl, hst⟩
    · exact ih (hR _ _ _ hst) h

/-- **Two descriptors to write to.** What the relay does to them, it does to both. -/
theorem relayWith_rel (hR : ∀ s t bytes, R s t → R (writen s bytes) (writen' t bytes))
    {pathname : List Char} {fd : Fd} (hst : R s t)
    (h : relayWith writen fuel pathname fd buf s = some (size, s')) :
    ∃ t', relayWith writen' fuel pathname fd buf t = some (size, t') ∧ R s' t' := by
  unfold relayWith at h ⊢
  dsimp only at h ⊢
  split_ifs at h ⊢
  · exact relayLinesWith_rel hR hst h
  · exact relayBlocksWith_rel hR hst h
  · obtain ⟨rfl, rfl⟩ := Prod.mk.inj (Option.some.inj h)
    exact ⟨t, rfl, hst⟩

end Rel

/-- The same bytes have been written, and all writes succeed. -/
def Alike (s : Sink) (t : Sock) : Prop := t.out = s.out ∧ ∀ i, t.writes i ≠ none

/-- A socket that fails no write goes on like that. -/
theorem writes_writenWFrom {t : Sock} (ht : ∀ i, t.writes i ≠ none) (bytes : List UInt8) :
    ∀ i, (writenWFrom fuel t bytes).writes i ≠ none := by
  induction fuel generalizing t bytes with
  | zero => exact ht
  | succ fuel ih =>
    unfold writenWFrom
    split_ifs
    · exact ht
    · split
      · exact fun i => ht (i + 1)
      · apply ih
        exact fun i => ht (i + 1)

/-- Both sinks get the same bytes. -/
theorem Alike.writen {s : Sink} {t : Sock} (h : Alike s t) (bytes : List UInt8) :
    Alike (rioWriten s bytes) (rioWritenW t bytes) := by
  obtain ⟨hout, hwrites⟩ := h
  refine ⟨?_, writes_writenWFrom hwrites bytes⟩
  rw [out_rioWriten, out_rioWritenW t hwrites, hout]

/-- **What the client gets**: as many bytes as are counted, and exactly the answer if that is an
image or consists of lines which `client_buf` can hold. -/
theorem relayWith_exact (pathname : List Char) (buf : List UInt8) {fd : Fd} {t : Sock}
    (hreads : fd.NoErrors) (hout : t.out = []) (hwrites : ∀ i, t.writes i ≠ none)
    (hfuel : fd.pending.length < fuel) :
    ∃ t', relayWith rioWritenW fuel pathname fd buf t = some (t'.out.length, t') ∧
      (t'.out = fd.pending ↔ IsImage pathname ∨ Lines newline (maxline - 1) fd.pending) := by
  have halike : Alike ⟨[], fun _ => 0⟩ t := ⟨hout, hwrites⟩
  have hsink : ∃ s : Sink, relayWith rioWriten fuel pathname fd buf ⟨[], fun _ => 0⟩ =
      some (s.out.length, s) ∧
      (s.out = fd.pending ↔ IsImage pathname ∨ Lines newline (maxline - 1) fd.pending) := by
    rw [relay_eq]
    unfold relay
    dsimp only
    rcases getFiletype_cases pathname with ⟨htext, himage⟩ | ⟨htext, himage⟩
    · have hreads' : (rioReadinitb fd).fd.NoErrors := hreads
      obtain ⟨out, s, heq, hs, -, hiff⟩ :=
        relayLines_spec buf 0 ⟨[], fun _ => 0⟩ hreads' hfuel
      rw [List.nil_append] at hs
      rw [rest_rioReadinitb] at hiff
      rw [if_pos htext, or_iff_right himage, heq, Nat.zero_add, ← hs]
      exact ⟨s, rfl, hs ▸ hiff⟩
    · obtain ⟨s, heq, hs⟩ := relayBlocks_spec buf 0 ⟨[], fun _ => 0⟩ hreads hfuel
      rw [List.nil_append] at hs
      rw [if_neg htext, if_pos (show _ ∨ _ from himage), heq, Nat.zero_add, ← hs]
      exact ⟨s, rfl, iff_of_true rfl (.inl himage)⟩
  obtain ⟨s, hrelay, hiff⟩ := hsink
  obtain ⟨t', hrelay', hout', -⟩ :=
    relayWith_rel (R := Alike) (fun _ _ bytes h => h.writen bytes) halike hrelay
  rw [← hout'] at hrelay' hiff
  exact ⟨t', hrelay', hiff⟩

/-! ## The transaction -/

/-- The request arrives, every call succeeds, and `logstring` has room for the entry. -/
structure Env.Completes (e : Env) (q : ClientRequest) : Prop extends e.Reaches where
  reads : e.conn.NoErrors
  request : e.conn.pending = q.bytes
  answerReads : e.origin.NoErrors
  connWrites : ∀ i, e.connWrites i ≠ none
  closeClient : e.closeClient = true
  connfd : 0 ≤ e.args.connfd
  closeConn : e.closeConn = true
  lockLog : e.lockLog = true
  time : 0 ∉ e.timeStr
  entry : (logEntry e.timeStr e.args.clientaddr q.uri
    (loggedSize (responseSize q.pathname e.origin))).length < maxline
  fopen : e.fopen = true
  fwrite : e.fwrite = true
  fclose : e.fclose = true
  unlockLog : e.unlockLog = true

/-- The socket is connected. -/
theorem openClientfd_eq (h : e.Reaches) : openClientfd e = .ok e.socket := by
  unfold openClientfd
  rw [if_neg (Int.not_lt.mpr h.socket), h.lockTs, h.gethostbyname, h.unlockTs, h.connect]
  rfl

/-- **A whole transaction.** The origin server gets the message of the request, both connections are
closed, and what the client has got is logged with its size. The client gets the answer unaltered if
and only if that is an image or consists of lines of at most 8191 bytes, each with its newline. -/
theorem transaction (hq : q.Valid) (hhost : ∀ b ∈ q.host, isWhite b = false)
    (h : e.Completes q) (hfuel : q.headers.length + 1 < fuel) :
    ∃ d, doit fuel e = .ok d ∧ d.target = some (q.host, q.portNumber) ∧ d.toOrigin = q.message ∧
      d.closed = [e.socket, e.args.connfd] ∧
      d.logged =
        some (logEntry e.timeStr e.args.clientaddr q.uri (loggedSize d.toClient.length)) ∧
      (d.toClient = e.origin.pending ↔
        IsImage q.pathname ∨ Lines newline (maxline - 1) e.origin.pending) := by
  have hdelivered : e.conn.delivered.1 = q.bytes := by
    rw [h.reads.delivered, h.request]
  obtain ⟨r, hread, hmessage⟩ := readRequest_of_valid hq hhost hdelivered hfuel
  obtain ⟨hname, hport, huri, hpath⟩ := request_of_valid hq hhost hdelivered hread
  have hopen := openClientfd_eq h.toReaches
  have hbad : ¬ e.socket < 0 := Int.not_lt.mpr h.socket
  -- the response
  obtain ⟨conn, hrelay, hexact⟩ := relayWith_exact q.pathname e.stack.clientBuf.bytes
    (t := ⟨[], e.connWrites⟩) h.answerReads rfl h.connWrites
    (Nat.lt_add_one e.origin.pending.length)
  have hresponse : relayResponse e e.socket q.pathname = .ok (conn.out.length, conn) := by
    unfold relayResponse
    rw [if_neg hbad]
    dsimp only
    rw [hrelay]
  obtain ⟨conn', hsize⟩ := relayResponse_eq_ok (e := e) h.socket q.pathname
  have hlength : responseSize q.pathname e.origin = conn.out.length :=
    congrArg Prod.fst (Except.ok.inj (hsize.symm.trans hresponse))
  -- the log
  have hentry := h.entry
  rw [hlength] at hentry
  obtain ⟨logstring, hlog⟩ := writeLog_iff.mpr
    ⟨h.lockLog, ⟨q.uri, huri, hentry⟩, h.fopen, h.fwrite, h.fclose, h.unlockLog⟩
  obtain ⟨uri, huri', hlogged⟩ := writeLog_eq_ok h.time hlog
  obtain rfl := Option.some.inj (huri.symm.trans huri')
  refine ⟨⟨conn.out, some (r.hostname, r.port), q.message, [e.socket, e.args.connfd],
    logstring.string⟩, doit_eq_ok_iff.mpr ⟨h.detach, .inr ⟨r, hread, ?_⟩⟩, ?_, rfl, rfl, ?_,
    hexact⟩
  · have hsent : (rioWritenW ⟨[], e.originWrites⟩ q.message).out = q.message :=
      out_rioWritenW _ h.writes _
    have hclose : closeExit e.socket e.closeClient = .ok () := by
      rw [closeExit, decide_eq_true h.socket, h.closeClient]
      rfl
    have hcloseConn : closeExit e.args.connfd e.closeConn = .ok () := by
      rw [closeExit, decide_eq_true h.connfd, h.closeConn]
      rfl
    unfold forward
    rw [hopen, ok_bind, hmessage, hpath, defined, ok_bind, defined, ok_bind]
    change relayResponse e e.socket q.pathname >>= _ = _
    rw [hresponse, ok_bind]
    dsimp only
    rw [hclose, ok_bind, hcloseConn, ok_bind, hlog, ok_bind, if_neg hbad, hsent]
  · rw [hname, hport]
  · unfold LogRequest.entry at hlogged
    dsimp only at hlogged ⊢
    exact hlogged

/-- An answer of two lines, which comes in two portions and is sent on byte by byte. -/
def answered : Env :=
  { reached plain with
    origin := ⟨cbytes "HTTP/1.0 200 OK\r\n\r\n", fun i => some (i + 3)⟩
    connWrites := fun _ => some 0 }

/-- Every call succeeds. -/
theorem completes_answered : answered.Completes plain where
  toReaches :=
    { detach := rfl
      socket := by decide
      lockTs := rfl
      gethostbyname := rfl
      unlockTs := rfl
      connect := rfl
      writes := fun _ => Option.some_ne_none _ }
  reads _ := Option.some_ne_none _
  request := rfl
  answerReads _ := Option.some_ne_none _
  connWrites _ := Option.some_ne_none _
  closeClient := rfl
  connfd := by decide
  closeConn := rfl
  lockLog := rfl
  time := by decide
  entry := by decide +kernel
  fopen := rfl
  fwrite := rfl
  fclose := rfl
  unlockLog := rfl

/-- The client gets the two lines, and the log says so. -/
theorem transaction_example : ∃ d, doit 3 answered = .ok d ∧
    d.target = some (cbytes "a", 8080) ∧ d.toOrigin = plain.message ∧
    d.toClient = cbytes "HTTP/1.0 200 OK\r\n\r\n" ∧
    d.logged = some (cbytes
      "Thu 27 Mar 2014 22:52:08 GMT: 80.0.0.0 http://a:8080/x.html 19\n") := by
  obtain ⟨d, hdone, htarget, horigin, -, hlogged, hexact⟩ :=
    transaction valid_plain (by decide +kernel) completes_answered (show 2 < 3 by decide)
  have hblank : Lines newline (maxline - 1) ([13] ++ newline :: []) :=
    .line (by decide) (by decide) .nil
  have hlines : Lines newline (maxline - 1)
      (cbytes "HTTP/1.0 200 OK\r" ++ newline :: ([13] ++ newline :: [])) :=
    .line (by decide) (by decide) hblank
  have hclient := hexact.mpr (.inr hlines)
  rw [hclient] at hlogged
  exact ⟨d, hdone, htarget, horigin, hclient, hlogged.trans (by decide +kernel)⟩

end SystemsLabs.Proxylab
