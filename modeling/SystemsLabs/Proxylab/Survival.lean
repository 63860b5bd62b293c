import SystemsLabs.Proxylab.Reading

/-!
# When a request ends without taking the proxy down

`Env.Survivable` says of a client's stream, of the outcomes of the calls, and of what the variables
hold before they are set, whether `doit` returns (`doit_iff`). It does not if a wrapper exits, if an
array is too small or a string is missing, or if the header loop waits for a line that does not
come.

The response of the origin server is whatever its reads deliver (`responseSize`).

**Scope.** Any outcome of any call, and anything on the stack. The thread is looked at by itself:
another one may still end the process.
-/

namespace SystemsLabs.Proxylab

open Lib

variable {e : Env} {rp : Rio} {fuel : ℕ} {s uri path line : List UInt8}

/-! ## The log entry -/

/-- `"%d.%d.%d.%d"`, for an address in network byte order. -/
def dotted (sinAddr : BitVec 32) : List UInt8 :=
  let byte := fun k : ℕ => decimal ((ntohl sinAddr >>> k).setWidth 8).toNat
  byte 24 ++ cbytes "." ++ byte 16 ++ cbytes "." ++ byte 8 ++ cbytes "." ++ byte 0

/-- `"%s: %d.%d.%d.%d %s %d\n"`. -/
def logEntry (timeStr : List UInt8) (sockaddr : SockaddrIn) (uri : List UInt8) (size : ℤ) :
    List UInt8 :=
  timeStr ++ cbytes ": " ++ dotted sockaddr.sinAddr ++ cbytes " " ++ uri ++ cbytes " " ++
    decimal size ++ cbytes "\n"

/-- The parts of an entry, a colon, three spaces and a newline. -/
theorem length_logEntry (timeStr uri : List UInt8) (sockaddr : SockaddrIn) (size : ℤ) :
    (logEntry timeStr sockaddr uri size).length =
      timeStr.length + (dotted sockaddr.sinAddr).length + uri.length + (decimal size).length +
        5 := by
  have hcolon : (cbytes ": ").length = 2 := by decide
  have hspace : (cbytes " ").length = 1 := by decide
  have hnewline : (cbytes "\n").length = 1 := by decide
  simp only [logEntry, List.length_append, hcolon, hspace, hnewline]
  omega

/-- `format_log_entry` writes this text. -/
theorem formatLogEntry_eq (logstring : CBuf maxline) (timeStr : List UInt8) (sockaddr : SockaddrIn)
    (uri : CBuf maxline) (size : ℤ) : formatLogEntry logstring timeStr sockaddr uri size =
      uri.string.bind fun s => logstring.puts (logEntry timeStr sockaddr s size) := by
  unfold formatLogEntry logEntry dotted
  simp only [List.append_assoc]
  rfl

/-! ## The condition -/

/-- `logstring` has room for the entry: the time, the address, the URI and the size of the response,
with the marks between them. -/
def Env.EntryFits (e : Env) (uri path : List UInt8) : Prop :=
  e.timeStr.length + (dotted e.args.clientaddr.sinAddr).length + uri.length +
    (decimal (loggedSize (responseSize (chars path) e.origin))).length + 5 < maxline

/-- The origin server is reached, both connections are closed, and the request is logged. -/
structure Env.Forwards (e : Env) (uri path : List UInt8) : Prop where
  socket : 0 ≤ e.socket
  lockTs : e.lockTs = true
  gethostbyname : e.gethostbyname = true
  unlockTs : e.unlockTs = true
  connect : e.connect = true
  closeClient : e.closeClient = true
  connfd : 0 ≤ e.args.connfd
  closeConn : e.closeConn = true
  lockLog : e.lockLog = true
  entry : e.EntryFits uri path
  fopen : e.fopen = true
  fwrite : e.fwrite = true
  fclose : e.fclose = true
  unlockLog : e.unlockLog = true

/-- What it takes for `doit` to return. -/
def Env.Survivable (e : Env) : Prop :=
  e.detach = true ∧ ∃ line, e.Reads line ∧ (e.IsGet line → e.HeadFits line ∧
    ∃ uri path, e.uri line = some uri ∧ e.path line = some path ∧ e.Forwards uri path)

/-! ## The origin server -/

/-- When `open_clientfd_ts` returns a descriptor. -/
theorem openClientfd_iff : (∃ fd, openClientfd e = .ok fd ∧ 0 ≤ fd) ↔ 0 ≤ e.socket ∧
    e.lockTs = true ∧ e.gethostbyname = true ∧ e.unlockTs = true ∧ e.connect = true := by
  unfold openClientfd
  constructor
  · rintro ⟨fd, h, hfd⟩
    by_cases hsocket : e.socket < 0
    · rw [if_pos hsocket] at h
      obtain rfl := Except.ok.inj h
      exact absurd hfd (by decide)
    · simp only [if_neg hsocket, bind_eq_ok, check_eq_ok, exists_and_left, exists_const] at h
      obtain ⟨hlock, h⟩ := h
      cases hfound : e.gethostbyname with
      | false =>
        rw [if_pos hfound] at h
        obtain rfl := Except.ok.inj h
        exact absurd hfd (by decide)
      | true =>
        simp only [hfound, Bool.true_eq_false, if_false, bind_eq_ok, check_eq_ok, exists_and_left,
          exists_const] at h
        obtain ⟨hunlock, h⟩ := h
        obtain rfl := Except.ok.inj h
        cases hconnect : e.connect with
        | false =>
          rw [hconnect, if_neg Bool.false_ne_true] at hfd
          exact absurd hfd (by decide)
        | true => exact ⟨Int.not_lt.mp hsocket, hlock, rfl, hunlock, rfl⟩
  · rintro ⟨hsocket, hlock, hfound, hunlock, hconnect⟩
    refine ⟨e.socket, ?_, hsocket⟩
    rw [if_neg (Int.not_lt.mpr hsocket), hlock, hfound, hunlock, hconnect]
    rfl

/-- When the entry is written to `logstring`. -/
theorem formatLogEntry_isSome_iff (logstring : CBuf maxline) {timeStr : List UInt8}
    {sockaddr : SockaddrIn} {uri : CBuf maxline} {size : ℤ} :
    (formatLogEntry logstring timeStr sockaddr uri size).isSome ↔
      ∃ s, uri.string = some s ∧ (logEntry timeStr sockaddr s size).length < maxline := by
  rw [formatLogEntry_eq, Option.isSome_iff_exists]
  simp only [Option.bind_eq_some_iff, CBuf.puts_eq_some_iff]
  constructor
  · rintro ⟨-, s, hs, hlt, -⟩
    exact ⟨s, hs, hlt⟩
  · rintro ⟨s, hs, hlt⟩
    exact ⟨_, s, hs, hlt, rfl⟩

/-- When the request is logged. -/
theorem writeLog_iff {uri : CBuf maxline} {size : ℕ} :
    (∃ logstring, writeLog e uri size = .ok logstring) ↔ e.lockLog = true ∧
      (∃ s, uri.string = some s ∧
        (logEntry e.timeStr e.args.clientaddr s (loggedSize size)).length < maxline) ∧
      e.fopen = true ∧ e.fwrite = true ∧ e.fclose = true ∧ e.unlockLog = true := by
  rw [← formatLogEntry_isSome_iff e.stack.logstring]
  unfold writeLog
  simp only [bind_eq_ok, check_eq_ok, defined_eq_ok, exists_and_left, exists_const,
    Option.isSome_iff_exists, Except.ok.injEq]
  constructor
  · rintro ⟨hlock, -, entry, hentry, hopen, hwrite, hclose, hunlock, -⟩
    exact ⟨hlock, ⟨entry, hentry⟩, hopen, hwrite, hclose, hunlock⟩
  · rintro ⟨hlock, ⟨entry, hentry⟩, hopen, hwrite, hclose, hunlock⟩
    exact ⟨hlock, entry, entry, hentry, hopen, hwrite, hclose, hunlock, rfl⟩

/-- The relay ends, and has counted the response. -/
theorem relayResponse_eq_ok {fd : ℤ} (hfd : 0 ≤ fd) (pathname : List Char) :
    ∃ conn, relayResponse e fd pathname = .ok (responseSize pathname e.origin, conn) := by
  obtain ⟨conn, heq⟩ := relayWith_size rioWritenW pathname e.origin e.stack.clientBuf.bytes
    ⟨[], e.connWrites⟩ (Nat.lt_add_one e.origin.pending.length)
  refine ⟨conn, ?_⟩
  simp only [relayResponse, if_neg (Int.not_lt.mpr hfd), heq]

/-- When a request is forwarded, and `doit` goes on to its end. -/
theorem forward_iff {r : Request} (hpathname : r.pathname.string = some path) :
    (∃ d, forward e r = .ok d) ↔ (∃ message, r.clientMessage.string = some message) ∧
      ∃ uri, r.uri.string = some uri ∧ e.Forwards uri path := by
  unfold forward closeExit
  simp only [bind_eq_ok, check_eq_ok, defined_eq_ok, exists_and_left, exists_const, hpathname,
    Option.some.injEq, exists_eq_left', Prod.exists, Bool.and_eq_true, decide_eq_true_eq]
  constructor
  · rintro ⟨d, fd, hfd, message, hmessage, size, conn, hrelay, ⟨hpos, hclose⟩, ⟨hconn, hcloseConn⟩,
      logstring, hlog, -⟩
    obtain ⟨hsocket, hlock, hfound, hunlock, hconnect⟩ := openClientfd_iff.mp ⟨fd, hfd, hpos⟩
    obtain ⟨conn', hrelay'⟩ := relayResponse_eq_ok (e := e) hpos (chars path)
    obtain ⟨rfl, rfl⟩ := Prod.mk.inj (Except.ok.inj (hrelay'.symm.trans hrelay))
    obtain ⟨hlockLog, ⟨uri, huri, hentry⟩, hopen, hwrite, hfclose, hunlockLog⟩ :=
      writeLog_iff.mp ⟨_, hlog⟩
    rw [length_logEntry] at hentry
    exact ⟨⟨message, hmessage⟩, uri, huri, ⟨hsocket, hlock, hfound, hunlock, hconnect, hclose,
      hconn, hcloseConn, hlockLog, hentry, hopen, hwrite, hfclose, hunlockLog⟩⟩
  · rintro ⟨⟨message, hmessage⟩, uri, huri, h⟩
    obtain ⟨fd, hfd, hpos⟩ := openClientfd_iff.mpr
      ⟨h.socket, h.lockTs, h.gethostbyname, h.unlockTs, h.connect⟩
    obtain ⟨conn, hrelay⟩ := relayResponse_eq_ok (e := e) hpos (chars path)
    have hentry := h.entry
    rw [Env.EntryFits, ← length_logEntry] at hentry
    obtain ⟨logstring, hlog⟩ := writeLog_iff.mpr
      ⟨h.lockLog, ⟨uri, huri, hentry⟩, h.fopen, h.fwrite, h.fclose, h.unlockLog⟩
    exact ⟨_, fd, hfd, message, hmessage, _, conn, hrelay, ⟨hpos, h.closeClient⟩,
      ⟨h.connfd, h.closeConn⟩, logstring, hlog, rfl⟩

/-! ## `doit` -/

/-- `doit` returns behind the 501 answer, or when it has forwarded the request. -/
theorem doit_eq_ok_iff {d : Done} : doit fuel e = .ok d ↔ e.detach = true ∧
    (readRequest fuel e = .ok none ∧ notImplemented e = d ∨
      ∃ r, readRequest fuel e = .ok (some r) ∧ forward e r = .ok d) := by
  unfold doit
  simp only [bind_eq_ok, check_eq_ok, exists_and_left, exists_const]
  refine and_congr_right fun _ => ⟨?_, ?_⟩
  · rintro ⟨_ | r, hread, hdone⟩
    · exact .inl ⟨hread, Except.ok.inj hdone⟩
    · exact .inr ⟨r, hread, hdone⟩
  · rintro (⟨hread, rfl⟩ | ⟨r, hread, hdone⟩)
    · exact ⟨none, hread, rfl⟩
    · exact ⟨some r, hread, hdone⟩

/-- What has to be true if `doit` returns. -/
theorem survivable_of_doit {d : Done} (h : doit fuel e = .ok d) : e.Survivable := by
  obtain ⟨hdetach, ⟨hread, -⟩ | ⟨q, hread, hdone⟩⟩ := doit_eq_ok_iff.mp h
  · obtain ⟨line, hline, hget⟩ :=
      readTarget_eq_none_iff.mp (readRequest_eq_none_iff_target.mp hread)
    exact ⟨hdetach, line, hline, fun h => absurd h hget⟩
  · obtain ⟨t, ht, hq⟩ := readRequest_eq_some_iff_target.mp hread
    obtain ⟨line, hline, -, huri, hof⟩ := exists_line_of_readTarget ht
    have hfits := (hof.fits_iff huri).mp (fits_of_assemble hof.string hq)
    obtain ⟨-, path, -, -, hpath, -⟩ := hfits.message
    obtain ⟨m, m', -, -, rfl⟩ := assemble_eq_ok.mp hq
    obtain ⟨-, uri, hstring, hforwards⟩ := (forward_iff (hof.path.trans hpath)).mp ⟨d, hdone⟩
    exact ⟨hdetach, line, hline, fun _ =>
      ⟨hfits, uri, path, hof.uri.symm.trans hstring, hpath, hforwards⟩⟩

/-- `doit` returns. -/
theorem exists_doit_of_survivable (h : e.Survivable) : ∃ fuel d, doit fuel e = .ok d := by
  obtain ⟨hdetach, line, hline, hsurvives⟩ := h
  by_cases hget : e.IsGet line
  · obtain ⟨hfits, uri, path, huri, hpath, hforwards⟩ := hsurvives hget
    obtain ⟨t, ht, hof⟩ := exists_readTarget_of_isGet hline hget hfits.uri
    obtain ⟨fuel, q, hq, hmessage, hquri, hqpath⟩ := exists_assemble_of_fits (e := e) hof.string
      ((hof.fits_iff hfits.uri).mpr hfits)
    have hpathname : q.pathname.string = some path := by rw [hqpath, hof.path, hpath]
    have huri' : q.uri.string = some uri := by rw [hquri, hof.uri, huri]
    obtain ⟨d, hdone⟩ := (forward_iff hpathname).mpr ⟨hmessage, uri, huri', hforwards⟩
    have hrequest := readRequest_eq_some_iff_target.mpr ⟨t, ht, hq⟩
    exact ⟨fuel, d, doit_eq_ok_iff.mpr ⟨hdetach, .inr ⟨q, hrequest, hdone⟩⟩⟩
  · have hnone : readRequest 0 e = .ok none := readRequest_eq_none_iff_target.mpr
      (readTarget_eq_none_iff.mpr ⟨line, hline, hget⟩)
    exact ⟨0, notImplemented e, doit_eq_ok_iff.mpr ⟨hdetach, .inl ⟨hnone, rfl⟩⟩⟩

/-- **When `doit` returns.** -/
theorem doit_iff (e : Env) : (∃ fuel d, doit fuel e = .ok d) ↔ e.Survivable :=
  ⟨fun ⟨_, _, h⟩ => survivable_of_doit h, exists_doit_of_survivable⟩

/-- A request for a page of a host that refuses the connection. -/
def refused : Env :=
  { cutOff with
    conn := ⟨cbytes "GET http://a/ HTTP/1.0\r\n\r\n", fun _ => some 4096⟩
    connect := false }

/-- **A refused connection takes the proxy down**: -1 is closed, and the wrapper exits. -/
theorem refused_not_survived : doit 2 refused = .error (.exit "Close error") ∧
    ∀ fuel d, doit fuel refused ≠ .ok d := by
  refine ⟨by decide +kernel, fun fuel d h => ?_⟩
  obtain ⟨-, line, hline, hsurvives⟩ := survivable_of_doit h
  have hstring : refused.firstString = some (cbytes "GET http://a/ HTTP/1.0\r\n") := by
    decide +kernel
  obtain rfl := Option.some.inj (hstring.symm.trans hline.string)
  have hmethod : refused.method (cbytes "GET http://a/ HTTP/1.0\r\n") = some (cbytes "GET") := by
    decide +kernel
  obtain ⟨-, uri, path, -, -, hforwards⟩ := hsurvives ⟨_, hmethod, by decide⟩
  exact absurd hforwards.connect Bool.false_ne_true

end SystemsLabs.Proxylab
