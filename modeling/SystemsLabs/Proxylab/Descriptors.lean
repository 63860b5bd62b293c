import SystemsLabs.Lib.Traced
import SystemsLabs.Proxylab.Forwarding

/-!
# The descriptors of a request

* `doitTraced` — `doit` with the descriptors that it gets from `socket` and those that it passes to
  `Close`, in order.
* `Env.Clean` — whenever it returns, it has closed the connection to the client and every socket
  exactly once, and it never passes a negative descriptor to `Close`.
* `clean_iff` — this is so iff the method is GET, and the connection to the origin server is opened
  unless the process exits before.

**Assumptions.** `connfd` is not negative, and `socket` does not return it again while it is open.
-/

namespace SystemsLabs.Proxylab

open Lib

/-! ## The calls -/

/-- A call that concerns a descriptor. -/
inductive FdCall
  /-- `socket` returns it. -/
  | socket (fd : ℤ)
  /-- It is passed to `Close`. -/
  | close (fd : ℤ)
  deriving DecidableEq

/-- `Open_clientfd_ts`. -/
def openClientfdTraced (e : Env) : Traced FdCall Stop ℤ :=
  if e.socket < 0 then pure (-1)
  else do
    Traced.emit (.socket e.socket)
    Traced.lift (check e.lockTs "Pthread_mutex_lock error")
    if e.gethostbyname = false then pure (-2)
    else do
      Traced.lift (check e.unlockTs "Pthread_mutex_unlock error")
      pure (if e.connect then e.socket else -1)

/-- `Close`. -/
def closeTraced (fd : ℤ) (ok : Bool) : Traced FdCall Stop Unit := do
  Traced.emit (.close fd)
  Traced.lift (closeExit fd ok)

/-- `forward`. -/
def forwardTraced (e : Env) (r : Request) : Traced FdCall Stop Done := do
  let clientfd ← openClientfdTraced e
  let message ← Traced.lift (defined r.clientMessage.string)
  let origin := rioWritenW (if clientfd < 0 then Sock.bad else ⟨[], e.originWrites⟩) message
  let pathname ← Traced.lift (defined r.pathname.string)
  let (size, conn) ← Traced.lift (relayResponse e clientfd (chars pathname))
  closeTraced clientfd e.closeClient
  closeTraced e.args.connfd e.closeConn
  let logstring ← Traced.lift (writeLog e r.uri size)
  pure {
    toClient := conn.out
    target := some (r.hostname, r.port)
    toOrigin := origin.out
    closed := [clientfd, e.args.connfd]
    logged := logstring.string }

/-- `doit`. -/
def doitTraced (fuel : ℕ) (e : Env) : Traced FdCall Stop Done := do
  Traced.lift (check e.detach "Pthread_detach error")
  match ← Traced.lift (readRequest fuel e) with
  | none => pure (notImplemented e)
  | some r => forwardTraced e r

variable {e : Env} {fuel : ℕ} {line : List UInt8}

/-- The trace does not change the result. -/
theorem result_openClientfdTraced (e : Env) : (openClientfdTraced e).result = openClientfd e := by
  unfold openClientfdTraced openClientfd
  split_ifs
  · rfl
  · simp [ok_bind]
  · simp [ok_bind]
  · simp [ok_bind]

/-- The trace does not change the result. -/
theorem result_forwardTraced (e : Env) (r : Request) :
    (forwardTraced e r).result = forward e r := by
  unfold forwardTraced forward closeTraced
  simp only [Traced.result_bind, Traced.result_lift, Traced.result_emit, Traced.result_pure,
    result_openClientfdTraced, ok_bind]

/-- Without the calls, this is `doit`. -/
theorem result_doitTraced (fuel : ℕ) (e : Env) : (doitTraced fuel e).result = doit fuel e := by
  unfold doitTraced doit
  simp only [Traced.result_bind, Traced.result_lift]
  refine congrArg _ (funext fun _ => congrArg _ (funext fun r => ?_))
  cases r with
  | none => rfl
  | some r => exact result_forwardTraced e r

/-! ## The condition -/

/-- The connection to the client and every socket are closed exactly once when `doit` returns, and
no negative descriptor is passed to `Close`. -/
structure Env.Clean (e : Env) : Prop where
  closed : ∀ fuel d, doit fuel e = .ok d →
    (doitTraced fuel e).trace.count (.close e.args.connfd) = 1 ∧
      ∀ fd, .socket fd ∈ (doitTraced fuel e).trace →
        (doitTraced fuel e).trace.count (.close fd) = 1
  nonneg : ∀ fuel fd, .close fd ∈ (doitTraced fuel e).trace → 0 ≤ fd

/-- The connection to the origin server is opened, or the process exits. -/
def Env.Connects (e : Env) : Prop :=
  0 ≤ e.socket ∧
    (e.lockTs = true → e.gethostbyname = true ∧ (e.unlockTs = true → e.connect = true))

/-! ## The calls of the parts -/

variable {r : Request} {fd : ℤ} {ok : Bool} {c : FdCall}

/-- `open_clientfd_ts` does not succeed. -/
theorem exists_negative_iff :
    (∃ fd < 0, openClientfd e = .ok fd) ↔ ¬ e.Connects := by
  unfold openClientfd Env.Connects check
  by_cases hsocket : e.socket < 0
  · rw [if_pos hsocket]
    refine iff_of_true ⟨-1, by decide, rfl⟩ fun h => absurd h.1 (Int.not_le.mpr hsocket)
  · have hpos := Int.not_lt.mp hsocket
    rw [if_neg hsocket, and_iff_right hpos]
    cases e.lockTs <;> cases e.gethostbyname <;> cases e.unlockTs <;> cases e.connect <;>
      simp [ok_bind, bind_eq_ok, hpos]

/-- A socket that has been created is the only descriptor that is opened. -/
theorem mem_trace_openClientfdTraced :
    c ∈ (openClientfdTraced e).trace ↔ 0 ≤ e.socket ∧ c = .socket e.socket := by
  unfold openClientfdTraced
  split_ifs with hsocket hfound
  · exact iff_of_false (List.not_mem_nil) fun h => absurd h.1 (Int.not_le.mpr hsocket)
  · simp [Traced.mem_trace_bind, Int.not_lt.mp hsocket]
  · simp [Traced.mem_trace_bind, Int.not_lt.mp hsocket]
  · simp [Traced.mem_trace_bind, Int.not_lt.mp hsocket]

/-- A call of `Close` is traced, whether it succeeds or not. -/
theorem mem_trace_closeTraced : c ∈ (closeTraced fd ok).trace ↔ c = .close fd := by
  unfold closeTraced
  simp [Traced.mem_trace_bind]

/-- Only these descriptors are closed. -/
theorem close_mem_forwardTraced (h : .close fd ∈ (forwardTraced e r).trace) :
    openClientfd e = .ok fd ∨ fd = e.args.connfd := by
  unfold forwardTraced at h
  simp only [Traced.mem_trace_bind, mem_trace_openClientfdTraced, mem_trace_closeTraced,
    Traced.trace_lift, Traced.trace_pure, List.not_mem_nil, false_or, result_openClientfdTraced,
    reduceCtorEq, and_false, or_false, exists_false, FdCall.close.injEq] at h
  obtain ⟨clientfd, hopen, message, -, pathname, -, ⟨size, conn⟩, -, hclose⟩ := h
  rcases hclose with rfl | ⟨-, -, hclose⟩
  · exact .inl hopen
  · exact .inr hclose

/-- The relay of the response ends. -/
theorem exists_relayResponse (e : Env) (clientfd : ℤ) (pathname : List Char) :
    ∃ size conn, relayResponse e clientfd pathname = .ok (size, conn) := by
  unfold relayResponse
  obtain ⟨conn, heq⟩ := relayWith_size rioWritenW pathname
    (if clientfd < 0 then Fd.bad else e.origin) e.stack.clientBuf.bytes ⟨[], e.connWrites⟩
    (Nat.lt_add_one _)
  simp only [heq]
  exact ⟨_, conn, rfl⟩

/-- What `open_clientfd_ts` returns is passed to `Close`. -/
theorem close_mem_of_openClientfd (hopen : openClientfd e = .ok fd)
    {message pathname : List UInt8} (hmessage : r.clientMessage.string = some message)
    (hpathname : r.pathname.string = some pathname) :
    .close fd ∈ (forwardTraced e r).trace := by
  obtain ⟨size, conn, hrelay⟩ := exists_relayResponse e fd (chars pathname)
  unfold forwardTraced
  simp only [Traced.mem_trace_bind, mem_trace_closeTraced, Traced.trace_lift, List.not_mem_nil,
    false_or, result_openClientfdTraced, Traced.result_lift, defined_eq_ok]
  exact .inr ⟨fd, hopen, message, hmessage, pathname, hpathname, ⟨size, conn⟩, hrelay, .inl rfl⟩

/-- A descriptor that `Close` closes is the socket. -/
theorem openClientfdTraced_of_close {u : Unit} (hopen : openClientfd e = .ok fd)
    (hclose : closeExit fd ok = .ok u) :
    (openClientfdTraced e).trace = [.socket e.socket] ∧ fd = e.socket := by
  have hpos : 0 ≤ fd := by
    rw [closeExit, check_eq_ok, Bool.and_eq_true, decide_eq_true_eq] at hclose
    exact hclose.1
  obtain ⟨hsocket, hlock, hfound, hunlock, hconnect⟩ := openClientfd_iff.mp ⟨fd, hopen, hpos⟩
  unfold openClientfd at hopen
  unfold openClientfdTraced
  rw [if_neg (Int.not_lt.mpr hsocket), hlock, hfound, hunlock, hconnect] at hopen ⊢
  exact ⟨rfl, (Except.ok.inj hopen).symm⟩

/-- `Close` returns. -/
theorem closeTraced_of_closeExit {u : Unit} (h : closeExit fd ok = .ok u) :
    (closeTraced fd ok).trace = [.close fd] ∧ (closeTraced fd ok).result = .ok () :=
  ⟨rfl, by rw [closeTraced, Traced.result_bind]; exact h⟩

/-- The calls of a request that is forwarded. -/
theorem trace_forwardTraced {d : Done} (h : forward e r = .ok d) :
    (forwardTraced e r).trace = [.socket e.socket, .close e.socket, .close e.args.connfd] := by
  unfold forward at h
  simp only [bind_eq_ok, defined_eq_ok, Prod.exists] at h
  obtain ⟨fd, hopen, message, hmessage, pathname, hpathname, size, conn, hrelay, u, hclose, u',
    hcloseConn, logstring, hlog, -⟩ := h
  obtain ⟨htrace, rfl⟩ := openClientfdTraced_of_close hopen hclose
  have hopen' : (openClientfdTraced e).result = .ok e.socket := by
    rw [result_openClientfdTraced, hopen]
  obtain ⟨hfirst, hfirst'⟩ := closeTraced_of_closeExit hclose
  obtain ⟨hsecond, hsecond'⟩ := closeTraced_of_closeExit hcloseConn
  unfold forwardTraced
  rw [Traced.trace_bind_of_ok hopen', htrace, Traced.trace_lift_bind (defined_eq_ok.mpr hmessage),
    Traced.trace_lift_bind (defined_eq_ok.mpr hpathname), Traced.trace_lift_bind hrelay,
    Traced.trace_bind_of_ok hfirst', hfirst, Traced.trace_bind_of_ok hsecond', hsecond,
    Traced.trace_lift_bind hlog]
  rfl

/-- `doit` opens a connection only for a request that it has read. -/
theorem mem_trace_doitTraced : c ∈ (doitTraced fuel e).trace ↔ e.detach = true ∧
    ∃ r, readRequest fuel e = .ok (some r) ∧ c ∈ (forwardTraced e r).trace := by
  unfold doitTraced
  simp only [Traced.mem_trace_bind, Traced.trace_lift, List.not_mem_nil, false_or,
    Traced.result_lift, check_eq_ok, exists_and_left, exists_const]
  refine and_congr_right fun _ => ⟨?_, ?_⟩
  · rintro ⟨_ | r, hread, hc⟩
    · exact absurd hc List.not_mem_nil
    · exact ⟨r, hread, hc⟩
  · rintro ⟨r, hread, hc⟩
    exact ⟨some r, hread, hc⟩

/-- Behind the request the descriptors are those of the forwarding. -/
theorem trace_doitTraced (hdetach : e.detach = true) (hread : readRequest fuel e = .ok (some r)) :
    (doitTraced fuel e).trace = (forwardTraced e r).trace := by
  unfold doitTraced
  have hcheck : check e.detach "Pthread_detach error" = .ok () := check_eq_ok.mpr hdetach
  rw [Traced.trace_lift_bind hcheck, Traced.trace_lift_bind hread]

/-! ## When the descriptors are closed -/

/-- A request that is read to its end is forwarded. -/
theorem connects_of_clean (h : e.Clean) (hdetach : e.detach = true) (hline : e.Reads line)
    (hget : e.IsGet line) (hfits : e.HeadFits line) : e.Connects := by
  by_contra hnot
  obtain ⟨fd, hneg, hopen⟩ := exists_negative_iff.mpr hnot
  obtain ⟨t, ht, hof⟩ := exists_readTarget_of_isGet hline hget hfits.uri
  obtain ⟨fuel, q, hq, ⟨message, hmessage⟩, -, hqpath⟩ := exists_assemble_of_fits (e := e)
    hof.string ((hof.fits_iff hfits.uri).mpr hfits)
  obtain ⟨-, path, -, -, hpath, -⟩ := hfits.message
  have hpathname : q.pathname.string = some path := by rw [hqpath, hof.path, hpath]
  have hmem := close_mem_of_openClientfd hopen hmessage hpathname
  have hpos := h.nonneg fuel fd (mem_trace_doitTraced.mpr
    ⟨hdetach, q, readRequest_eq_some_iff_target.mpr ⟨t, ht, hq⟩, hmem⟩)
  exact absurd hneg (Int.not_lt.mpr hpos)

/-- The method is `GET`. -/
theorem isGet_of_clean (h : e.Clean) (hdetach : e.detach = true) (hline : e.Reads line) :
    e.IsGet line := by
  by_contra hget
  have hread : readRequest 0 e = .ok none := readRequest_eq_none_iff_target.mpr
    (readTarget_eq_none_iff.mpr ⟨line, hline, hget⟩)
  obtain ⟨hcount, -⟩ := h.closed 0 _ (doit_eq_ok_iff.mpr ⟨hdetach, .inl ⟨hread, rfl⟩⟩)
  have hmem := List.count_pos_iff.mp (hcount ▸ Nat.one_pos)
  obtain ⟨-, r, hsome, -⟩ := mem_trace_doitTraced.mp hmem
  cases hread.symm.trans hsome

/-- If the connection to the origin server succeeds, both descriptors are closed once. -/
theorem clean_of_connects (hconnfd : 0 ≤ e.args.connfd) (hfresh : e.socket ≠ e.args.connfd)
    (h : e.detach = true → ∀ line, e.Reads line →
      e.IsGet line ∧ (e.HeadFits line → e.Connects)) : e.Clean where
  closed := by
    intro fuel d hdone
    obtain ⟨hdetach, ⟨hread, -⟩ | ⟨r, hread, hforward⟩⟩ := doit_eq_ok_iff.mp hdone
    · obtain ⟨line, hline, hget⟩ :=
        readTarget_eq_none_iff.mp (readRequest_eq_none_iff_target.mp hread)
      exact absurd (h hdetach line hline).1 hget
    · have htrace : (doitTraced fuel e).trace =
          [.socket e.socket, .close e.socket, .close e.args.connfd] := by
        rw [trace_doitTraced hdetach hread, trace_forwardTraced hforward]
      rw [htrace]
      refine ⟨by simp [hfresh], fun fd hmem => ?_⟩
      obtain rfl : fd = e.socket := by simpa using hmem
      simp [hfresh.symm]
  nonneg := by
    intro fuel fd hmem
    obtain ⟨hdetach, r, hread, hmem⟩ := mem_trace_doitTraced.mp hmem
    rcases close_mem_forwardTraced hmem with hopen | rfl
    · by_contra hneg
      obtain ⟨line, hline, -, hfits⟩ := exists_readRequest_eq_some_iff.mp ⟨fuel, r, hread⟩
      exact absurd ((h hdetach line hline).2 hfits)
        (exists_negative_iff.mp ⟨fd, Int.not_le.mp hneg, hopen⟩)
    · exact hconnfd

/-- **When no descriptor is leaked.** The connection to the client has a descriptor, and the socket
gets another one. -/
theorem clean_iff (hconnfd : 0 ≤ e.args.connfd) (hfresh : e.socket ≠ e.args.connfd) :
    e.Clean ↔ (e.detach = true → ∀ line, e.Reads line →
      e.IsGet line ∧ (e.HeadFits line → e.Connects)) :=
  ⟨fun h hdetach _ hline => ⟨isGet_of_clean h hdetach hline, fun hfits =>
      connects_of_clean h hdetach hline (isGet_of_clean h hdetach hline) hfits⟩,
    clean_of_connects hconnfd hfresh⟩

/-- A request that is served. -/
theorem clean_iff_example : (reached plain).Clean := by
  refine (clean_iff (by decide) (by decide)).mpr fun _ line hline => ⟨?_, fun _ => ?_⟩
  · have hstring : (reached plain).firstString = some plain.requestLine := by decide +kernel
    obtain rfl := Option.some.inj (hstring.symm.trans hline.string)
    have hmethod : (reached plain).method plain.requestLine = some (cbytes "GET") := by
      decide +kernel
    exact ⟨_, hmethod, by decide⟩
  · exact ⟨by decide, fun _ => ⟨rfl, fun _ => rfl⟩⟩

/-- A POST. -/
def post : Env :=
  { refused with conn := ⟨cbytes "POST http://a/ HTTP/1.0\r\n\r\n", fun _ => some 0⟩ }

/-- After a POST, the connection to the client stays open. -/
theorem exists_not_clean :
    ∃ e : Env, 0 ≤ e.args.connfd ∧ e.socket ≠ e.args.connfd ∧ ¬ e.Clean := by
  refine ⟨post, by decide, by decide, fun h => ?_⟩
  have hdone : doit 0 post = .ok (notImplemented post) := by decide +kernel
  have htrace : (doitTraced 0 post).trace = [] := by decide +kernel
  have hcount := (h.closed 0 _ hdone).1
  rw [htrace] at hcount
  cases hcount

end SystemsLabs.Proxylab
