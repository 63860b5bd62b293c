import SystemsLabs.Proxylab.Forwarding

/-!
# What `sprintf` writes to the arrays of `doit`

`client_message` and `logstring` have a fixed size, and no call of `sprintf` is told of it.

* `headerWrites`, `messageWrites`, `logWrite` — how many bytes each call writes, as if there were
  room for them.
* `BuffersSuffice` — no call writes more than the array holds.
* `buffersSuffice_iff` — this is so iff the request line and the headers fit into `client_message`
  together, and the log entry into `logstring`. A stream that ends without a blank line has to leave
  an empty string in `buf`, as that is appended from there on again and again.

**Assumptions.** No read of the client's connection fails.
-/

namespace SystemsLabs.Proxylab

open Lib Scanf

/-! ## The calls -/

/-- The header loop, with a message of any length: how many bytes each call writes. -/
def headerWrites : ℕ → Rio → CBuf maxline → List UInt8 → List ℕ
  | 0, _, _, _ => []
  | fuel + 1, rio, buf, message =>
    if buf.isString crlf then []
    else
      match rioReadlinebExit rio buf with
      | .error _ => []
      | .ok (rio, buf) =>
        match buf.string with
        | none => []
        | some line =>
          ((message ++ line).length + 1) :: headerWrites fuel rio buf (message ++ line)

/-- `"%s %s %s\r\n"`, if the arguments are strings. -/
def firstText (t : Target) : Option (List UInt8) := do
  return (← t.line.method.string) ++ [32] ++ (← t.uri.pathname.string) ++ [32] ++
    (← t.line.version.string) ++ crlf

/-- How many bytes each call writes to `client_message`; nobody knows if an argument is not a
string. -/
def messageWrites (fuel : ℕ) (e : Env) : List (Option ℕ) :=
  match check e.detach "Pthread_detach error" >>= fun _ => readTarget e with
  | .ok (some t) =>
    match firstText t with
    | none => [none]
    | some message =>
      some (message.length + 1) :: (headerWrites fuel t.rio t.buf message).map some
  | _ => []

/-- `forward` up to the log entry: the size of the response. -/
def respond (e : Env) (r : Request) : Except Stop ℕ := do
  let clientfd ← openClientfd e
  let _ ← defined r.clientMessage.string
  let pathname ← defined r.pathname.string
  let (size, _) ← relayResponse e clientfd (chars pathname)
  closeExit clientfd e.closeClient
  closeExit e.args.connfd e.closeConn
  check e.lockLog "Pthread_mutex_lock error"
  .ok size

/-- How many bytes are written to `logstring`, if `doit` comes that far. -/
def logWrite (fuel : ℕ) (e : Env) : Except Stop (Option (Option ℕ)) := do
  check e.detach "Pthread_detach error"
  match ← readRequest fuel e with
  | none => .ok none
  | some r => do
    let size ← respond e r
    .ok (some (r.uri.string.map fun uri =>
      (logEntry e.timeStr e.args.clientaddr uri (loggedSize size)).length + 1))

/-- A call writes so many bytes at most. -/
def WritesAtMost (n : ℕ) (written : Option ℕ) : Prop := ∃ k ≤ n, written = some k

/-- No call writes more than the array holds. -/
def BuffersSuffice (e : Env) : Prop := ∀ fuel,
  (∀ written ∈ messageWrites fuel e, WritesAtMost maxbuf written) ∧
    ∀ written, logWrite fuel e = .ok (some written) → WritesAtMost maxline written

/-! ## The condition -/

/-- The lines of a stream that has no blank line. -/
inductive Unfinished : List UInt8 → List (List UInt8) → Prop
  | nil : Unfinished [] []
  | line {s : List UInt8} {ls : List (List UInt8)} : s ≠ [] →
      (takeLine newline (maxline - 1) s).1 ≠ crlf →
      Unfinished (takeLine newline (maxline - 1) s).2 ls →
      Unfinished s ((takeLine newline (maxline - 1) s).1 :: ls)

/-- `client_message` has room for `size` bytes and for what the header loop appends if the stream
has no blank line. `line` is the request line. -/
def UnfinishedFit (line rest : List UInt8) (size : ℕ) : Prop :=
  ∃ ls, Unfinished rest ls ∧ size + linesLength ls < maxbuf ∧
    (ls.map untilNul).getLastD line = []

/-- The calls between the request and the log entry succeed. -/
structure Env.ReachesLog (e : Env) : Prop where
  detach : e.detach = true
  socket : 0 ≤ e.socket
  lockTs : e.lockTs = true
  gethostbyname : e.gethostbyname = true
  unlockTs : e.unlockTs = true
  connect : e.connect = true
  closeClient : e.closeClient = true
  connfd : 0 ≤ e.args.connfd
  closeConn : e.closeConn = true
  lockLog : e.lockLog = true

/-- The request line, the headers and the log entry are short enough. -/
structure Env.Fits (e : Env) (line : List UInt8) : Prop where
  message : ∃ method path version, e.method line = some method ∧ e.path line = some path ∧
    e.version line = some version ∧
    (HeadersFit line e.rest (method.length + path.length + version.length + 4) ∨
      line ≠ crlf ∧ UnfinishedFit line e.rest (method.length + path.length + version.length + 4))
  log : e.ReachesLog → line = crlf ∨ HasBlankLine e.rest → ∀ path, e.path line = some path →
    ∃ uri, e.uri line = some uri ∧ e.EntryFits uri path

variable {e : Env} {t : Target} {rp : Rio} {buf : CBuf maxline} {fuel size : ℕ}
  {s line message rest : List UInt8} {ls : List (List UInt8)}

/-- A stream has a blank line or not. -/
theorem headers_or_unfinished (s : List UInt8) : HasBlankLine s ∨ ∃ ls, Unfinished s ls := by
  induction hn : s.length using Nat.strongRecOn generalizing s with
  | _ n ih =>
    by_cases hnil : s = []
    · subst hnil
      exact .inr ⟨[], .nil⟩
    by_cases hcrlf : (takeLine newline (maxline - 1) s).1 = crlf
    · exact .inl ⟨_, .blank hcrlf⟩
    -- the rest of the stream is shorter
    have hne : (takeLine newline (maxline - 1) s).1 ≠ [] := takeLine_ne_nil (by decide) hnil
    have hpos := List.length_pos_iff.mpr hne
    have hlen := congrArg List.length (takeLine_append newline (maxline - 1) s)
    rw [List.length_append] at hlen
    rcases ih _ (by omega) (takeLine newline (maxline - 1) s).2 rfl with hblank | ⟨ls, hls⟩
    · by_cases hc : Complete newline (maxline - 1) (takeLine newline (maxline - 1) s).1
      · exact .inl (hasBlankLine_iff.mpr ⟨hc, .inr hblank⟩)
      · rw [takeLine_of_not_complete hc] at hblank
        have hnot : ¬ HasBlankLine [] := by
          apply not_hasBlankLine_of_not_complete
          rw [takeLine_nil]
          exact not_complete_nil (by decide)
        exact absurd hblank hnot
    · exact .inr ⟨_, .line hnil hcrlf hls⟩

/-! ## The header loop -/

/-- Every call of the loop fits. -/
def LoopFits (rp : Rio) (buf : CBuf maxline) (message : List UInt8) : Prop :=
  ∀ fuel, ∀ n ∈ headerWrites fuel rp buf message, n ≤ maxbuf

/-- The loop does not run. -/
theorem loopFits_of_blank (hbuf : buf.isString crlf = true) : LoopFits rp buf message := by
  rintro (_ | fuel) n hn
  · exact absurd hn List.not_mem_nil
  · rw [headerWrites, if_pos hbuf] at hn
    exact absurd hn List.not_mem_nil

/-- A round of the loop. -/
theorem loopFits_succ {rp' : Rio} {buf' : CBuf maxline} (hbuf : buf.isString crlf = false)
    (hread : rioReadlinebExit rp buf = .ok (rp', buf')) (hs : buf'.string = some line) :
    LoopFits rp buf message ↔
      message.length + line.length < maxbuf ∧ LoopFits rp' buf' (message ++ line) := by
  have hwrites : ∀ fuel, headerWrites (fuel + 1) rp buf message =
      ((message ++ line).length + 1) :: headerWrites fuel rp' buf' (message ++ line) := by
    intro fuel
    rw [headerWrites, if_neg (Bool.eq_false_iff.mp hbuf), hread]
    simp only [hs]
  rw [← List.length_append]
  constructor
  · intro h
    refine ⟨h 1 _ ?_, fun fuel n hn => h (fuel + 1) n ?_⟩
    · rw [hwrites]
      exact List.mem_cons_self
    · rw [hwrites]
      exact List.mem_cons_of_mem _ hn
  · rintro ⟨hlt, h⟩ (_ | fuel) n hn
    · exact absurd hn List.not_mem_nil
    · rw [hwrites] at hn
      rcases List.mem_cons.mp hn with rfl | hn
      · exact hlt
      · exact h fuel n hn

/-- A round that appends a line of the stream. -/
theorem loopFits_line (h : rp.fd.NoErrors) (hne : rp.rest ≠ []) (hbuf : buf.isString crlf = false) :
    ∃ rp', rp'.fd.NoErrors ∧ rp'.rest = (takeLine newline (maxline - 1) rp.rest).2 ∧
      ∀ message, LoopFits rp buf message ↔
        message.length + (untilNul (takeLine newline (maxline - 1) rp.rest).1).length < maxbuf ∧
          LoopFits rp' (buf.put ((takeLine newline (maxline - 1) rp.rest).1 ++ [0]))
            (message ++ untilNul (takeLine newline (maxline - 1) rp.rest).1) := by
  obtain ⟨rp', hread, hne', hrest⟩ := rioReadlinebExit_of_noErrors h buf
  rw [if_neg hne] at hread
  exact ⟨rp', hne', hrest, fun message => loopFits_succ hbuf hread (string_put_line buf rp.rest)⟩

/-- **The headers** fit if they fit together. -/
theorem loopFits_headers_iff (hls : Headers rest ls) (h : rp.fd.NoErrors) (hrest : rp.rest = rest)
    (hbuf : buf.isString crlf = false) (message : List UInt8) :
    LoopFits rp buf message ↔ message.length + linesLength ls < maxbuf := by
  induction hls generalizing rp buf message with
  | blank hcrlf =>
    subst hrest
    have hne : rp.rest ≠ [] := by
      intro hnil
      rw [hnil, takeLine_nil] at hcrlf
      cases hcrlf
    obtain ⟨rp', -, -, hround⟩ := loopFits_line h hne hbuf
    have hblank := (isString_put_line buf rp.rest).mpr hcrlf
    rw [hround, and_iff_left (loopFits_of_blank hblank), hcrlf]
    rfl
  | line hc hcrlf _ ih =>
    subst hrest
    have hne : rp.rest ≠ [] := by
      intro hnil
      rw [hnil, takeLine_nil] at hc
      exact not_complete_nil (by decide) hc
    obtain ⟨rp', hne', hrest', hround⟩ := loopFits_line h hne hbuf
    have hbuf' := Bool.eq_false_iff.mpr fun hb => hcrlf ((isString_put_line buf rp.rest).mp hb)
    rw [hround, ih hne' hrest' hbuf', List.length_append, linesLength_cons, Nat.add_assoc,
      and_iff_right_of_imp]
    intro hlt
    exact Nat.lt_of_le_of_lt (Nat.add_le_add_left (Nat.le_add_right _ _) _) hlt

/-- A round at the end of the stream: what is in the buffer is appended again. -/
theorem loopFits_end (h : rp.fd.NoErrors) (hrest : rp.rest = []) (hbuf : buf.isString crlf = false)
    (hs : buf.string = some line) : ∃ rp', rp'.fd.NoErrors ∧ rp'.rest = [] ∧
      ∀ message, LoopFits rp buf message ↔
        message.length + line.length < maxbuf ∧ LoopFits rp' buf (message ++ line) := by
  obtain ⟨rp', hread, hne, hrest'⟩ := rioReadlinebExit_of_noErrors h buf
  rw [if_pos hrest] at hread
  rw [hrest, takeLine_nil] at hrest'
  exact ⟨rp', hne, hrest', fun message => loopFits_succ hbuf hread hs⟩

/-- Each round at the end of the stream needs room for the line once more. -/
theorem length_lt_of_loopFits_end (h : rp.fd.NoErrors) (hrest : rp.rest = [])
    (hbuf : buf.isString crlf = false) (hs : buf.string = some line)
    (hfits : LoopFits rp buf message) (k : ℕ) :
    message.length + (k + 1) * line.length < maxbuf := by
  induction k generalizing rp message with
  | zero =>
    obtain ⟨rp', -, -, hround⟩ := loopFits_end h hrest hbuf hs
    rw [Nat.zero_add, Nat.one_mul]
    exact ((hround message).mp hfits).1
  | succ k ih =>
    obtain ⟨rp', hne, hrest', hround⟩ := loopFits_end h hrest hbuf hs
    have hlt := ih hne hrest' ((hround message).mp hfits).2
    rw [List.length_append] at hlt
    rw [Nat.succ_mul (k + 1)]
    omega

/-- At the end of the stream nothing is appended if there is an empty string in the buffer. -/
theorem loopFits_end_of_nil (h : rp.fd.NoErrors) (hrest : rp.rest = [])
    (hbuf : buf.isString crlf = false) (hs : buf.string = some []) (hlt : message.length < maxbuf) :
    LoopFits rp buf message := by
  intro fuel
  induction fuel generalizing rp with
  | zero => exact fun n hn => absurd hn List.not_mem_nil
  | succ fuel ih =>
    obtain ⟨rp', hread, hne, hrest'⟩ := rioReadlinebExit_of_noErrors h buf
    rw [if_pos hrest] at hread
    rw [hrest, takeLine_nil] at hrest'
    intro n hn
    rw [headerWrites, if_neg (Bool.eq_false_iff.mp hbuf), hread] at hn
    simp only [hs, List.append_nil] at hn
    rcases List.mem_cons.mp hn with rfl | hn
    · exact hlt
    · exact ih hne hrest' n hn

/-- **The end of the stream.** -/
theorem loopFits_end_iff (h : rp.fd.NoErrors) (hrest : rp.rest = [])
    (hbuf : buf.isString crlf = false) (hs : buf.string = some line) (message : List UInt8) :
    LoopFits rp buf message ↔ message.length < maxbuf ∧ line = [] := by
  constructor
  · intro hfits
    have hlt := length_lt_of_loopFits_end h hrest hbuf hs hfits maxbuf
    refine ⟨by omega, List.length_eq_zero_iff.mp ?_⟩
    by_contra hne
    have hle := Nat.le_mul_of_pos_right (maxbuf + 1) (Nat.pos_of_ne_zero hne)
    omega
  · rintro ⟨hlt, rfl⟩
    exact loopFits_end_of_nil h hrest hbuf hs hlt

/-- **A stream without a blank line.** -/
theorem loopFits_unfinished_iff (hls : Unfinished rest ls) (h : rp.fd.NoErrors)
    (hrest : rp.rest = rest) (hbuf : buf.isString crlf = false) (hs : buf.string = some line)
    (message : List UInt8) :
    LoopFits rp buf message ↔
      message.length + linesLength ls < maxbuf ∧ (ls.map untilNul).getLastD line = [] := by
  induction hls generalizing rp buf message line with
  | nil => exact loopFits_end_iff h hrest hbuf hs message
  | line hne hcrlf _ ih =>
    subst hrest
    obtain ⟨rp', hne', hrest', hround⟩ := loopFits_line h hne hbuf
    have hbuf' := Bool.eq_false_iff.mpr fun hb => hcrlf ((isString_put_line buf rp.rest).mp hb)
    rw [hround, ih hne' hrest' hbuf' (string_put_line buf rp.rest), List.length_append,
      linesLength_cons, Nat.add_assoc, List.map_cons, List.getLastD_cons, and_iff_right_of_imp]
    rintro ⟨hlt, -⟩
    exact Nat.lt_of_le_of_lt (Nat.add_le_add_left (Nat.le_add_right _ _) _) hlt

/-! ## The message -/

/-- What the first `sprintf` writes, if its arguments are strings. -/
theorem firstText_eq_some_iff : firstText t = some message ↔ ∃ method pathname version,
    t.line.method.string = some method ∧ t.uri.pathname.string = some pathname ∧
      t.line.version.string = some version ∧
      method ++ [32] ++ pathname ++ [32] ++ version ++ crlf = message := by
  unfold firstText
  simp only [Option.bind_eq_bind, Option.bind_eq_some_iff, Option.pure_def, Option.some.injEq,
    exists_and_left]

/-- Nothing is written to `client_message` for a request without a target. -/
theorem messageWrites_eq_nil (h : ¬ (e.detach = true ∧ ∃ t, readTarget e = .ok (some t))) :
    messageWrites fuel e = [] := by
  unfold messageWrites
  split
  · next t ht =>
    obtain ⟨_, hdetach, ht⟩ := bind_eq_ok.mp ht
    exact absurd ⟨check_eq_ok.mp hdetach, t, ht⟩ h
  · rfl

/-- Every call for `client_message` fits. -/
theorem messageWrites_iff (hdetach : e.detach = true) (ht : readTarget e = .ok (some t)) :
    (∀ fuel, ∀ written ∈ messageWrites fuel e, WritesAtMost maxbuf written) ↔
      ∃ message, firstText t = some message ∧ message.length < maxbuf ∧
        LoopFits t.rio t.buf message := by
  have hcheck : check e.detach "Pthread_detach error" = .ok () := check_eq_ok.mpr hdetach
  cases hfirst : firstText t with
  | none =>
    have hwrites : messageWrites 0 e = [none] := by
      simp only [messageWrites, hcheck, ok_bind, ht, hfirst]
    refine iff_of_false (fun h => ?_) (by rintro ⟨message, hmessage, -⟩; cases hmessage)
    obtain ⟨k, -, hk⟩ := h 0 none (by rw [hwrites]; exact List.mem_singleton_self _)
    cases hk
  | some message =>
    have hwrites : ∀ fuel, messageWrites fuel e =
        some (message.length + 1) :: (headerWrites fuel t.rio t.buf message).map some := by
      intro fuel
      simp only [messageWrites, hcheck, ok_bind, ht, hfirst]
    simp only [hwrites, Option.some.injEq, exists_eq_left']
    constructor
    · intro h
      obtain ⟨k, hk, hsome⟩ := h 0 _ List.mem_cons_self
      obtain rfl := Option.some.inj hsome
      refine ⟨hk, fun fuel n hn => ?_⟩
      obtain ⟨k, hk, hsome⟩ := h fuel (some n)
        (List.mem_cons_of_mem _ (List.mem_map_of_mem hn))
      obtain rfl := Option.some.inj hsome
      exact hk
    · rintro ⟨hlt, hfits⟩ fuel written hmem
      rcases List.mem_cons.mp hmem with rfl | hmem
      · exact ⟨_, hlt, rfl⟩
      · obtain ⟨n, hn, rfl⟩ := List.mem_map.mp hmem
        exact ⟨n, hfits fuel n hn, rfl⟩

/-- No read fails behind the first line. -/
theorem noErrors_of_readTarget (h : e.conn.NoErrors) (ht : readTarget e = .ok (some t)) :
    t.rio.fd.NoErrors := by
  obtain ⟨hread, -⟩ := readTarget_eq_some_iff.mp ht
  obtain ⟨rp', hread', hne, -⟩ :=
    rioReadlinebExit_of_noErrors (show (rioReadinitb e.conn).fd.NoErrors from h) e.stack.buf
  obtain ⟨rfl, -⟩ := Prod.mk.inj (Except.ok.inj (hread'.symm.trans hread))
  exact hne

/-- The loop fits if it has room for the headers, or for a stream without a blank line. -/
theorem loopFits_iff (h : rp.fd.NoErrors) (hs : buf.string = some line) (message : List UInt8) :
    message.length < maxbuf ∧ LoopFits rp buf message ↔
      HeadersFit line rp.rest message.length ∨
        line ≠ crlf ∧ UnfinishedFit line rp.rest message.length := by
  have hblank := isString_crlf_iff hs
  by_cases hline : line = crlf
  · rw [and_iff_left (loopFits_of_blank (hblank.mpr hline)), HeadersFit]
    constructor
    · exact fun hlt => .inl (.inl ⟨hline, hlt⟩)
    · rintro (hfit | ⟨hne, -⟩)
      · exact HeadersFit.lt hfit
      · exact absurd hline hne
  · have hbuf := Bool.eq_false_iff.mpr (hblank.not.mpr hline)
    constructor
    · rintro ⟨-, hfits⟩
      rcases headers_or_unfinished rp.rest with ⟨ls, hls⟩ | ⟨ls, hls⟩
      · exact .inl (.inr ⟨ls, hls, (loopFits_headers_iff hls h rfl hbuf message).mp hfits⟩)
      · exact .inr ⟨hline, ls, hls, (loopFits_unfinished_iff hls h rfl hbuf hs message).mp hfits⟩
    · rintro ((⟨hb, -⟩ | ⟨ls, hls, hlt⟩) | ⟨-, ls, hls, hlt, hlast⟩)
      · exact absurd hb hline
      · exact ⟨Nat.lt_of_le_of_lt (Nat.le_add_right _ _) hlt,
          (loopFits_headers_iff hls h rfl hbuf message).mpr hlt⟩
      · exact ⟨Nat.lt_of_le_of_lt (Nat.le_add_right _ _) hlt,
          (loopFits_unfinished_iff hls h rfl hbuf hs message).mpr ⟨hlt, hlast⟩⟩

/-! ## The log entry -/

/-- `forward` is made of these parts: what it logs is what is written after `respond`. -/
theorem forward_logged (e : Env) (r : Request) : (forward e r).map Done.logged =
    respond e r >>= fun size => (writeLog e r.uri size).map CBuf.string := by
  unfold forward respond
  rcases openClientfd e with stop | fd
  · rfl
  rcases defined r.clientMessage.string with stop | message
  · rfl
  rcases defined r.pathname.string with stop | pathname
  · rfl
  simp only [ok_bind]
  rcases relayResponse e fd (chars pathname) with stop | ⟨size, conn⟩
  · rfl
  simp only [ok_bind]
  rcases closeExit fd e.closeClient with stop | u
  · rfl
  rcases closeExit e.args.connfd e.closeConn with stop | u
  · rfl
  simp only [ok_bind]
  unfold writeLog
  rcases check e.lockLog "Pthread_mutex_lock error" with stop | u
  · rfl
  simp only [ok_bind]
  rcases defined (formatLogEntry e.stack.logstring e.timeStr e.args.clientaddr r.uri
    (loggedSize size)) with stop | entry
  · rfl
  simp only [ok_bind]
  rcases check e.fopen "Fopen error" with stop | u
  · rfl
  rcases check e.fwrite "Fwrite error" with stop | u
  · rfl
  rcases check e.fclose "Fclose error" with stop | u
  · rfl
  rcases check e.unlockLog "Pthread_mutex_unlock error" with stop | u
  · rfl
  · rfl

/-- When `doit` comes to the log entry. -/
theorem respond_iff {r : Request} {size : ℕ} (hdetach : e.detach = true) :
    respond e r = .ok size ↔ e.ReachesLog ∧ (∃ message, r.clientMessage.string = some message) ∧
      ∃ pathname, r.pathname.string = some pathname ∧
        responseSize (chars pathname) e.origin = size := by
  unfold respond closeExit
  simp only [bind_eq_ok, check_eq_ok, defined_eq_ok, exists_and_left, exists_const,
    Prod.exists, Bool.and_eq_true, decide_eq_true_eq, Except.ok.injEq]
  constructor
  · rintro ⟨fd, hfd, message, hmessage, pathname, hpathname, size', conn, hrelay,
      ⟨hpos, hclose⟩, ⟨hconn, hcloseConn⟩, hlog, rfl⟩
    obtain ⟨hsocket, hlock, hfound, hunlock, hconnect⟩ := openClientfd_iff.mp ⟨fd, hfd, hpos⟩
    obtain ⟨conn', hrelay'⟩ := relayResponse_eq_ok (e := e) hpos (chars pathname)
    obtain ⟨rfl, rfl⟩ := Prod.mk.inj (Except.ok.inj (hrelay'.symm.trans hrelay))
    exact ⟨⟨hdetach, hsocket, hlock, hfound, hunlock, hconnect, hclose, hconn, hcloseConn, hlog⟩,
      ⟨message, hmessage⟩, pathname, hpathname, rfl⟩
  · rintro ⟨h, ⟨message, hmessage⟩, pathname, hpathname, rfl⟩
    obtain ⟨fd, hfd, hpos⟩ := openClientfd_iff.mpr
      ⟨h.socket, h.lockTs, h.gethostbyname, h.unlockTs, h.connect⟩
    obtain ⟨conn, hrelay⟩ := relayResponse_eq_ok (e := e) hpos (chars pathname)
    exact ⟨fd, hfd, message, hmessage, pathname, hpathname, _, conn, hrelay, ⟨hpos, h.closeClient⟩,
      ⟨h.connfd, h.closeConn⟩, h.lockLog, rfl⟩

/-- What the `sprintf` of the log entry writes, if `doit` gets there. -/
theorem logWrite_eq_some_iff {written : Option ℕ} : logWrite fuel e = .ok (some written) ↔
    e.detach = true ∧ ∃ r size, readRequest fuel e = .ok (some r) ∧ respond e r = .ok size ∧
      r.uri.string.map (fun uri =>
        (logEntry e.timeStr e.args.clientaddr uri (loggedSize size)).length + 1) = written := by
  unfold logWrite
  simp only [bind_eq_ok, check_eq_ok, exists_and_left, exists_const]
  refine and_congr_right fun _ => ⟨?_, ?_⟩
  · rintro ⟨_ | r, hread, h⟩
    · cases Except.ok.inj h
    · obtain ⟨size, hrespond, h⟩ := bind_eq_ok.mp h
      exact ⟨r, hread, size, hrespond, Option.some.inj (Except.ok.inj h)⟩
  · rintro ⟨r, hread, size, hrespond, rfl⟩
    exact ⟨some r, hread, bind_eq_ok.mpr ⟨size, hrespond, rfl⟩⟩

/-- If no read fails, everything is delivered. -/
theorem Rio.delivered_of_noErrors (h : rp.fd.NoErrors) : rp.delivered.1 = rp.rest := by
  rw [delivered, h.delivered, rest]

/-! ## When the arrays suffice -/

/-- The calls for `client_message` fit iff the request line and the headers do. -/
theorem messageWrites_fit_iff (h : e.conn.NoErrors) (hdetach : e.detach = true)
    (ht : readTarget e = .ok (some t)) (hof : t.Of e line) :
    (∀ fuel, ∀ written ∈ messageWrites fuel e, WritesAtMost maxbuf written) ↔
      ∃ method path version, e.method line = some method ∧ e.path line = some path ∧
        e.version line = some version ∧
        (HeadersFit line e.rest (method.length + path.length + version.length + 4) ∨
          line ≠ crlf ∧
            UnfinishedFit line e.rest (method.length + path.length + version.length + 4)) := by
  have hne := noErrors_of_readTarget h ht
  rw [messageWrites_iff hdetach ht, ← hof.method, ← hof.path, ← hof.version, ← hof.rest,
    Rio.delivered_of_noErrors hne]
  constructor
  · rintro ⟨message, hfirst, hfits⟩
    obtain ⟨method, path, version, h₁, h₂, h₃, rfl⟩ := firstText_eq_some_iff.mp hfirst
    rw [loopFits_iff hne hof.string, length_firstMessage] at hfits
    exact ⟨method, path, version, h₁, h₂, h₃, hfits⟩
  · rintro ⟨method, path, version, h₁, h₂, h₃, hfits⟩
    rw [← length_firstMessage, ← loopFits_iff hne hof.string] at hfits
    exact ⟨_, firstText_eq_some_iff.mpr ⟨method, path, version, h₁, h₂, h₃, rfl⟩, hfits⟩

/-- If the calls fit, `doit` comes to the end of headers that a blank line ends. -/
theorem target_fits_of_loopFits (hne : t.rio.fd.NoErrors) (hline : t.buf.string = some line)
    (hfirst : firstText t = some message) (hlt : message.length < maxbuf)
    (hfits : LoopFits t.rio t.buf message) (hblank : line = crlf ∨ HasBlankLine t.rio.rest) :
    t.Fits line := by
  obtain ⟨method, path, version, h₁, h₂, h₃, rfl⟩ := firstText_eq_some_iff.mp hfirst
  refine ⟨method, path, version, h₁, h₂, h₃, ?_⟩
  rw [Rio.delivered_of_noErrors hne, ← length_firstMessage]
  by_cases hcrlf : line = crlf
  · exact .inl ⟨hcrlf, hlt⟩
  · obtain ⟨ls, hls⟩ := hblank.resolve_left hcrlf
    have hbuf := Bool.eq_false_iff.mpr ((isString_crlf_iff hline).not.mpr hcrlf)
    exact .inr ⟨ls, hls, (loopFits_headers_iff hls hne rfl hbuf _).mp hfits⟩

/-- The headers end with a blank line if they fit. -/
theorem Env.HeadFits.blank (h : e.HeadFits line) : line = crlf ∨ HasBlankLine e.rest := by
  obtain ⟨method, path, version, -, -, -, ⟨hcrlf, -⟩ | ⟨ls, hls, -⟩⟩ := h.message
  · exact .inl hcrlf
  · exact .inr ⟨ls, hls⟩

/-- If the arrays suffice, the request line, the headers and the log entry are short enough. -/
theorem fits_of_buffersSuffice (h : e.conn.NoErrors) (hsuffice : BuffersSuffice e)
    (hdetach : e.detach = true) (hline : e.Reads line) (hget : e.IsGet line)
    (huri : e.UriParses line) : e.Fits line := by
  obtain ⟨t, ht, hof⟩ := exists_readTarget_of_isGet hline hget huri
  refine ⟨(messageWrites_fit_iff h hdetach ht hof).mp fun fuel => (hsuffice fuel).1, ?_⟩
  intro hreach hblank path hpath
  have hne := noErrors_of_readTarget h ht
  obtain ⟨message, hfirst, hlt, hloop⟩ :=
    (messageWrites_iff hdetach ht).mp fun fuel => (hsuffice fuel).1
  rw [← hof.rest, Rio.delivered_of_noErrors hne] at hblank
  obtain ⟨fuel, q, hq, hs, hquri, hqpath⟩ := exists_assemble_of_fits (e := e) hof.string
    (target_fits_of_loopFits hne hof.string hfirst hlt hloop hblank)
  have hpathname : q.pathname.string = some path := by rw [hqpath, hof.path, hpath]
  have hrespond := (respond_iff hdetach).mpr ⟨hreach, hs, path, hpathname, rfl⟩
  obtain ⟨k, hk, hwritten⟩ := (hsuffice fuel).2 _ (logWrite_eq_some_iff.mpr
    ⟨hdetach, q, _, readRequest_eq_some_iff_target.mpr ⟨t, ht, hq⟩, hrespond, rfl⟩)
  obtain ⟨uri, hstring, rfl⟩ := Option.map_eq_some_iff.mp hwritten
  rw [length_logEntry] at hk
  rw [hquri, hof.uri] at hstring
  exact ⟨uri, hstring, hk⟩

/-- If those are short enough, the arrays suffice. -/
theorem buffersSuffice_of_fits (h : e.conn.NoErrors)
    (hfits : e.detach = true → ∀ line, e.Reads line → e.IsGet line → e.UriParses line →
      e.Fits line) : BuffersSuffice e := by
  intro fuel
  constructor
  · by_cases htarget : e.detach = true ∧ ∃ t, readTarget e = .ok (some t)
    · obtain ⟨hdetach, t, ht⟩ := htarget
      obtain ⟨line, hline, hget, huri, hof⟩ := exists_line_of_readTarget ht
      exact (messageWrites_fit_iff h hdetach ht hof).mpr
        (hfits hdetach line hline hget huri).message fuel
    · rw [messageWrites_eq_nil htarget]
      exact fun _ hw => absurd hw List.not_mem_nil
  · intro written hw
    obtain ⟨hdetach, q, size, hread, hrespond, rfl⟩ := logWrite_eq_some_iff.mp hw
    obtain ⟨t, ht, hq⟩ := readRequest_eq_some_iff_target.mp hread
    obtain ⟨line, hline, hget, huri, hof⟩ := exists_line_of_readTarget ht
    obtain ⟨hreach, -, path, hpath, rfl⟩ := (respond_iff hdetach).mp hrespond
    have hblank := ((hof.fits_iff huri).mp (fits_of_assemble hof.string hq)).blank
    obtain ⟨m, m', -, -, rfl⟩ := assemble_eq_ok.mp hq
    obtain ⟨uri, hstring, hlt⟩ :=
      (hfits hdetach line hline hget huri).log hreach hblank path (hof.path.symm.trans hpath)
    rw [Env.EntryFits, ← length_logEntry] at hlt
    rw [← hof.uri] at hstring
    exact ⟨_, hlt, congrArg _ hstring⟩

/-- They suffice if `doit` returns. -/
theorem buffersSuffice_of_doit {d : Done} (h : e.conn.NoErrors) (hdone : doit fuel e = .ok d) :
    BuffersSuffice e := by
  refine buffersSuffice_of_fits h fun _ line hline hget _ => ?_
  obtain ⟨-, line', hline', hsurvives⟩ := survivable_of_doit hdone
  obtain rfl := hline.unique hline'
  obtain ⟨hfits, uri, path, huri, hpath, hforwards⟩ := hsurvives hget
  obtain ⟨method, path', version, hmethod, hpath', hversion, hfit⟩ := hfits.message
  refine ⟨⟨method, path', version, hmethod, hpath', hversion, .inl hfit⟩, fun _ _ p hp => ?_⟩
  obtain rfl := Option.some.inj (hpath.symm.trans hp)
  exact ⟨uri, huri, hforwards.entry⟩

/-- **When the arrays suffice.** -/
theorem buffersSuffice_iff (h : e.conn.NoErrors) :
    BuffersSuffice e ↔ (e.detach = true → ∀ line, e.Reads line → e.IsGet line →
      e.UriParses line → e.Fits line) :=
  ⟨fun hsuffice hdetach _ => fits_of_buffersSuffice h hsuffice hdetach, buffersSuffice_of_fits h⟩

/-- A request that the proxy serves. -/
theorem buffersSuffice_iff_example : BuffersSuffice (reached plain) := by
  refine (buffersSuffice_iff (noErrors_reached plain)).mpr fun hdetach line => ?_
  have hclosed : (doit 3 (reached plain)).map Done.closed = .ok [5, 4] := by decide +kernel
  cases hdone : doit 3 (reached plain) with
  | error stop =>
    rw [hdone] at hclosed
    cases hclosed
  | ok d =>
    exact fits_of_buffersSuffice (noErrors_reached plain)
      (buffersSuffice_of_doit (noErrors_reached plain) hdone) hdetach

/-- A request with two long headers. -/
def verbose : ClientRequest :=
  { plain with headers := [List.replicate 5000 120, List.replicate 5000 120] }

/-- Two header lines of 5002 bytes and the blank line. -/
theorem linesLength_verbose : linesLength (verbose.headerLines ++ [crlf]) = 10006 := by
  have h0 : (0 : UInt8) ∉ List.replicate 5000 120 ++ crlf := by
    rw [List.mem_append, not_or]
    exact ⟨fun h => absurd (List.eq_of_mem_replicate h) (by decide), by decide⟩
  have hline := untilNul_of_not_mem h0
  have hcrlf : untilNul crlf = crlf := by decide
  simp only [verbose, ClientRequest.headerLines, List.map_cons, List.map_nil, List.cons_append,
    List.nil_append, linesLength_cons, hline, hcrlf, List.length_append, List.length_replicate]
  rfl

/-- The header lines of the request. -/
theorem headers_verbose :
    Headers (verbose.headerLines.flatten ++ crlf) (verbose.headerLines ++ [crlf]) := by
  have hheader : ∀ header ∈ verbose.headers, header = List.replicate 5000 120 := by
    intro header hmem
    rcases List.mem_cons.mp hmem with rfl | hmem
    · rfl
    · exact List.mem_singleton.mp hmem
  have hnl : ∀ header ∈ verbose.headers, header ≠ [] ∧ newline ∉ header := by
    intro header hmem
    rw [hheader header hmem]
    exact ⟨List.cons_ne_nil _ _, fun h => absurd (List.eq_of_mem_replicate h) (by decide)⟩
  have hlen : ∀ line ∈ verbose.headers.map (· ++ crlf), line.length < maxline := by
    intro line hline
    obtain ⟨header, hmem, hline⟩ := List.mem_map.mp hline
    have hlong := hheader header hmem
    subst hlong hline
    rw [List.length_append, List.length_replicate]
    decide
  exact headers_lines hnl hlen

/-- Its request line is read. -/
theorem exists_readTarget_verbose : ∃ t, readTarget (reached verbose) = .ok (some t) ∧
    t.rio.fd.NoErrors ∧ t.rio.rest = verbose.headerLines.flatten ++ crlf ∧
      t.buf.isString crlf = false := by
  have htake : takeLine newline (maxline - 1) (reached verbose).conn.pending =
      (verbose.requestLine, verbose.headerLines.flatten ++ crlf) := by
    have hline := takeLine_crlf (s := cbytes "GET http://a:8080/x.html HTTP/1.0") (by decide)
      (by decide) (verbose.headerLines.flatten ++ crlf)
    rw [← List.append_assoc] at hline
    exact hline
  have hconn : (rioReadinitb (reached verbose).conn).fd.NoErrors := noErrors_reached verbose
  obtain ⟨rp, hread, hne, hrest⟩ := rioReadlinebExit_of_noErrors hconn (.zero maxline)
  rw [rest_rioReadinitb, htake, if_neg (by decide)] at hread
  rw [rest_rioReadinitb, htake] at hrest
  have hbuf : ((CBuf.zero maxline).put (verbose.requestLine ++ [0])).string =
      some verbose.requestLine := by
    decide +kernel
  obtain ⟨r, hscan, hmethod, huri, -⟩ := sscanfRequest_words (a := cbytes "GET")
    (b := cbytes "http://a:8080/x.html") (c := cbytes "HTTP/1.0")
    (reached verbose).stack.requestLine hbuf ⟨by decide, by decide +kernel⟩
    ⟨by decide, by decide +kernel⟩ ⟨by decide, by decide +kernel⟩
  have hget : r.method.isStringNoCase (cbytes "get") = true :=
    (CBuf.isStringNoCase_iff hmethod (by decide)).mpr (by decide)
  have hparts : r.uri.string = some (cbytes "http://" ++ (cbytes "a" ++ cbytes ":8080/x.html")) :=
    huri
  obtain ⟨path, -, hparse⟩ := (parseUri_parts (by decide) (by decide +kernel) (by decide +kernel)
    hparts (reached verbose).stack.pathname (reached verbose).stack.port).2 (by decide)
  have hblank : ((CBuf.zero maxline).put (verbose.requestLine ++ [0])).isString crlf = false := by
    decide +kernel
  exact ⟨⟨rp, _, r, _⟩, readTarget_eq_some_iff.mpr ⟨hread, hscan, hget, hparse⟩, hne, hrest, hblank⟩

/-- The two lines do not fit into `client_message`. -/
theorem exists_not_buffersSuffice : ∃ e : Env, e.conn.NoErrors ∧ ¬ BuffersSuffice e := by
  refine ⟨reached verbose, noErrors_reached verbose, fun hsuffice => ?_⟩
  obtain ⟨t, ht, hne, hrest, hblank⟩ := exists_readTarget_verbose
  obtain ⟨message, -, -, hfits⟩ := (messageWrites_iff rfl ht).mp fun fuel => (hsuffice fuel).1
  have hheaders : Headers t.rio.rest (verbose.headerLines ++ [crlf]) := by
    rw [hrest]
    exact headers_verbose
  have hlt := (loopFits_headers_iff hheaders hne rfl hblank message).mp hfits
  rw [linesLength_verbose] at hlt
  exact absurd (Nat.lt_of_le_of_lt (Nat.le_add_left _ _) hlt) (by decide)

end SystemsLabs.Proxylab
