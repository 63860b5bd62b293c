import SystemsLabs.Proxylab.Target

/-!
# When a request has been read

What `doit` reads of a request, in terms of the bytes that the client sends and of what the
variables hold before they are set. The words of the first line are those that `sscanf` finds.

* `Env.Reads` — the first line arrives.
* `Env.IsGet`, `Env.UriParses` — its method is GET, and `parse_uri` is defined on its URI.
* `Env.HeadFits` — moreover, the headers end with a blank line, and `client_message` has room for
  the request line of the message and for them.
* `readTarget_eq_none_iff`, `exists_readRequest_eq_some_iff` — how far `doit` comes with a first
  line.
* `readingEnds_iff` — `doit` comes to the end of a request iff the first line arrives, and the head
  fits or the method is not GET.

The reads may have any sizes, and each of them may fail. An access out of bounds is no end of a
request, and neither is an `exit`.
-/

namespace SystemsLabs.Proxylab

open Lib Scanf

/-! ## The first line -/

/-- The string in `buf` when the first line has been read. If nothing is sent, `buf` is left as it
is. -/
def Env.firstString (e : Env) : Option (List UInt8) :=
  if e.conn.delivered.1 = [] then e.stack.buf.string
  else some (untilNul (firstLine e.conn.delivered.1))

/-- The first line arrives: no read fails before its end, and `line` is the string in `buf`. -/
structure Env.Reads (e : Env) (line : List UInt8) : Prop where
  whole : Complete newline (maxline - 1) (firstLine e.conn.delivered.1) ∨ e.conn.delivered.2 = false
  string : e.firstString = some line

/-- What is delivered behind the first line. -/
def Env.rest (e : Env) : List UInt8 := (takeLine newline (maxline - 1) e.conn.delivered.1).2

/-- The string in a variable after `sscanf`: the word that it has read for it, or what was there
before. -/
def held (word : Option (List UInt8)) (b : CBuf maxline) : Option (List UInt8) := word.or b.string

/-- The method. -/
def Env.method (e : Env) (line : List UInt8) : Option (List UInt8) :=
  held (words line)[0]? e.stack.requestLine.method

/-- The URI. -/
def Env.uri (e : Env) (line : List UInt8) : Option (List UInt8) :=
  held (words line)[1]? e.stack.requestLine.uri

/-- The version. -/
def Env.version (e : Env) (line : List UInt8) : Option (List UInt8) :=
  held (words line)[2]? e.stack.requestLine.version

/-- The method is GET, in any letter case. -/
def Env.IsGet (e : Env) (line : List UInt8) : Prop :=
  ∃ method, e.method line = some method ∧ method.map clower = cbytes "get"

/-! ## The URI -/

/-- The string starts with `http://`, in any letter case. -/
def HasScheme (s : List UInt8) : Prop := (s.take 7).map clower = cbytes "http://"

instance (s : List UInt8) : Decidable (HasScheme s) := inferInstanceAs (Decidable (_ = _))

/-- The path in a URI: what starts with the first slash behind the scheme. -/
def pathOf (uri : List UInt8) : List UInt8 :=
  let pathbegin := (uri.drop 7).dropWhile fun b => b != 47
  if pathbegin = [] then [47] else pathbegin

/-- What stands in the array for the URI, also if it is no string. -/
def Env.uriBytes (e : Env) (line : List UInt8) : List UInt8 :=
  (words line)[1]?.getD e.stack.requestLine.uri.bytes

/-- A URI with a scheme is a string, and something ends its host name. -/
def Env.UriParses (e : Env) (line : List UInt8) : Prop :=
  HasScheme (e.uriBytes line) →
    ∃ uri, e.uri line = some uri ∧ ∃ b ∈ uri.drop 7, isHostEnd b = true

/-- The path for the message. If the URI has no scheme, `pathname` is left as it is. -/
def Env.path (e : Env) (line : List UInt8) : Option (List UInt8) :=
  if HasScheme (e.uriBytes line) then (e.uri line).map pathOf else e.stack.pathname.string

/-! ## The message -/

/-- The URI is parsed, and `client_message` has room for the request line and the headers, which end
with a blank line. -/
structure Env.HeadFits (e : Env) (line : List UInt8) : Prop where
  uri : e.UriParses line
  message : ∃ method path version, e.method line = some method ∧ e.path line = some path ∧
    e.version line = some version ∧
    HeadersFit line e.rest (method.length + path.length + version.length + 4)

/-- `doit` comes to the end of the request: of its headers, or of the first line if the method is
turned down. -/
def Env.ReadingEnds (e : Env) : Prop := ∃ fuel r, readRequest fuel e = .ok r

variable {e : Env} {t : Target} {rp : Rio} {buf b b' : CBuf maxline} {r : RequestLine} {fuel : ℕ}
  {s line line' : List UInt8} {word : Option (List UInt8)}

/-- There is one first line. -/
theorem Env.Reads.unique (h : e.Reads line) (h' : e.Reads line') : line = line' :=
  Option.some.inj (h.string.symm.trans h'.string)

/-! ## Reading the first line -/

/-- The first line is read, or the process exits. -/
theorem read_cases (e : Env) :
    (Complete newline (maxline - 1) (firstLine e.conn.delivered.1) ∨ e.conn.delivered.2 = false) ∧
      (∃ rp buf, rioReadlinebExit (rioReadinitb e.conn) e.stack.buf = .ok (rp, buf) ∧
        rp.delivered.1 = e.rest ∧ buf.string = e.firstString) ∨
    ¬ (Complete newline (maxline - 1) (firstLine e.conn.delivered.1) ∨
        e.conn.delivered.2 = false) ∧
      rioReadlinebExit (rioReadinitb e.conn) e.stack.buf =
        .error (.exit "Rio_readlineb error") := by
  have hcases := rioReadlinebExit_cases (rioReadinitb e.conn) e.stack.buf
  rw [delivered_rioReadinitb] at hcases
  unfold Env.firstString
  rcases hcases with ⟨hc, rp, hread, hdel⟩ | ⟨hc, ⟨hfail, hread⟩ | ⟨hfail, rp, hread, hrest⟩⟩
  · have hne : e.conn.delivered.1 ≠ [] := by
      intro hnil
      rw [hnil, takeLine_nil] at hc
      exact not_complete_nil (by decide) hc
    refine .inl ⟨.inl hc, rp, _, hread, hdel, ?_⟩
    rw [if_neg hne, string_put_line, firstLine]
  · refine .inr ⟨?_, hread⟩
    rintro (hwhole | hwhole)
    · exact hc hwhole
    · cases hfail.symm.trans hwhole
  · -- the stream ends within the line, or nothing is sent
    have hline := takeLine_of_not_complete hc
    refine .inl ⟨.inr hfail, rp, _, hread, ?_, ?_⟩
    · rw [delivered_of_rest_nil hrest, Env.rest, hline]
    · split_ifs with hnil
      · rfl
      · have hput := string_put_line e.stack.buf e.conn.delivered.1
        rw [hline] at hput
        rw [firstLine, hline]
        exact hput

/-- The first line is read and scanned: `line` is what stands in `buf`, and the words are stored. -/
structure Env.Scans (e : Env) (line : List UInt8) (rp : Rio) (buf : CBuf maxline)
    (r : RequestLine) : Prop where
  read : rioReadlinebExit (rioReadinitb e.conn) e.stack.buf = .ok (rp, buf)
  scan : sscanfRequest buf e.stack.requestLine = some r
  string : buf.string = some line
  rest : rp.delivered.1 = e.rest
  method : Stored e.stack.requestLine.method (words line)[0]? r.method
  uri : Stored e.stack.requestLine.uri (words line)[1]? r.uri
  version : Stored e.stack.requestLine.version (words line)[2]? r.version

/-- A line that arrives is scanned. -/
theorem Env.Reads.exists_scans (h : e.Reads line) : ∃ rp buf r, e.Scans line rp buf r := by
  obtain ⟨-, rp, buf, hread, hrest, hstring⟩ | ⟨hnot, -⟩ := read_cases e
  · rw [h.string] at hstring
    obtain ⟨r, hscan, hmethod, huri, hversion⟩ :=
      sscanfRequest_stored hstring e.stack.requestLine
    exact ⟨rp, buf, r, hread, hscan, hstring, hrest, hmethod, huri, hversion⟩
  · exact absurd h.whole hnot

/-- Only a line that arrives is scanned. -/
theorem exists_reads_of_scan
    (hread : rioReadlinebExit (rioReadinitb e.conn) e.stack.buf = .ok (rp, buf))
    (hscan : sscanfRequest buf e.stack.requestLine = some r) :
    ∃ line, e.Reads line ∧ e.Scans line rp buf r := by
  obtain ⟨hwhole, rp', buf', hread', hrest, hstring⟩ | ⟨-, hexit⟩ := read_cases e
  · obtain ⟨rfl, rfl⟩ := Prod.mk.inj (Except.ok.inj (hread.symm.trans hread'))
    obtain ⟨line, hline⟩ : ∃ line, buf.string = some line :=
      ⟨_, CBuf.string_eq_some_iff.mpr
        ⟨sscanfRequest_isSome_iff.mp (Option.isSome_of_mem hscan), rfl⟩⟩
    obtain ⟨r', hscan', hmethod, huri, hversion⟩ :=
      sscanfRequest_stored hline e.stack.requestLine
    obtain rfl := Option.some.inj (hscan.symm.trans hscan')
    exact ⟨line, ⟨hwhole, hstring ▸ hline⟩, hread, hscan, hline, hrest, hmethod, huri, hversion⟩
  · cases hread.symm.trans hexit

/-! ## The variables -/

/-- The string in a variable after `sscanf`. -/
theorem Stored.string_eq (h : Stored b word b') : b'.string = held word b := by
  cases word with
  | none => exact congrArg CBuf.string h
  | some w => exact h

/-- `strncasecmp` with the scheme looks at the first bytes. -/
theorem Stored.hasScheme_iff (h : Stored b word b') :
    hasScheme b' = true ↔ HasScheme (word.getD b.bytes) := by
  cases word with
  | none =>
    obtain rfl : b' = b := h
    exact decide_eq_true_iff
  | some w => exact Proxylab.hasScheme_iff h

/-- The method is compared with GET. -/
theorem Env.Scans.isGet_iff (h : e.Scans line rp buf r) :
    r.method.isStringNoCase (cbytes "get") = true ↔ e.IsGet line := by
  rw [CBuf.isStringNoCase_eq_true_iff (by decide), h.method.string_eq]
  rfl

/-- When `parse_uri` is defined. -/
theorem Env.Scans.parses_iff (h : e.Scans line rp buf r) :
    (parseUri r.uri e.stack.pathname e.stack.port).isSome ↔ e.UriParses line := by
  rw [parseUri_isSome_iff, h.uri.hasScheme_iff, h.uri.string_eq]
  rfl

/-- A path has no zero byte if the URI has none. -/
theorem zero_not_mem_pathOf (h : 0 ∉ s) : 0 ∉ pathOf s := by
  unfold pathOf
  dsimp only
  split_ifs
  · decide
  · exact fun hmem => h (List.mem_of_mem_drop ((List.dropWhile_sublist _).subset hmem))

/-- The path that `parse_uri` finds, or the previous one. -/
theorem string_pathname {uri pathname : CBuf maxline} {port : ℤ} {p : ParsedUri}
    (h : parseUri uri pathname port = some p) :
    p.pathname.string =
      if hasScheme uri = true then uri.string.map pathOf else pathname.string := by
  unfold parseUri at h
  by_cases hscheme : hasScheme uri = true
  · rw [if_neg (Bool.not_eq_false _ ▸ hscheme)] at h
    rw [if_pos hscheme]
    obtain ⟨s, hs, h⟩ := Option.bind_eq_some_iff.mp h
    dsimp only at h
    rw [ite_eq_iff] at h
    obtain ⟨-, h⟩ | ⟨-, h⟩ := h
    · cases h
    · obtain ⟨path, hputs, h⟩ := Option.bind_eq_some_iff.mp h
      obtain rfl := Option.some.inj h
      have hpath : pathname.puts (pathOf s) = some path := hputs
      rw [hs]
      exact CBuf.string_puts hpath (zero_not_mem_pathOf (CBuf.not_mem_of_string hs))
  · rw [if_pos (Bool.eq_false_iff.mpr hscheme)] at h
    obtain rfl := Option.some.inj h
    rw [if_neg hscheme]

/-! ## The target -/

/-- What is known of the target of a request with this first line. -/
structure Target.Of (t : Target) (e : Env) (line : List UInt8) : Prop where
  string : t.buf.string = some line
  rest : t.rio.delivered.1 = e.rest
  method : t.line.method.string = e.method line
  uri : t.line.uri.string = e.uri line
  version : t.line.version.string = e.version line
  path : t.uri.pathname.string = e.path line

/-- **A request that is turned down** has a first line with another method than GET. -/
theorem readTarget_eq_none_iff :
    readTarget e = .ok none ↔ ∃ line, e.Reads line ∧ ¬ e.IsGet line := by
  unfold readTarget
  simp only [bind_eq_ok, defined_eq_ok, Prod.exists]
  constructor
  · rintro ⟨rp, buf, hread, r, hscan, h⟩
    obtain ⟨line, hline, hscans⟩ := exists_reads_of_scan hread hscan
    refine ⟨line, hline, fun hget => ?_⟩
    rw [if_neg (Bool.not_eq_false _ ▸ hscans.isGet_iff.mpr hget)] at h
    obtain ⟨p, -, h⟩ := bind_eq_ok.mp h
    cases Except.ok.inj h
  · rintro ⟨line, hline, hget⟩
    obtain ⟨rp, buf, r, hscans⟩ := hline.exists_scans
    refine ⟨rp, buf, hscans.read, r, hscans.scan, if_pos ?_⟩
    exact Bool.eq_false_iff.mpr (hscans.isGet_iff.not.mpr hget)

/-- The target of a request. -/
theorem exists_line_of_readTarget (h : readTarget e = .ok (some t)) :
    ∃ line, e.Reads line ∧ e.IsGet line ∧ e.UriParses line ∧ t.Of e line := by
  obtain ⟨hread, hscan, hget, hparse⟩ := readTarget_eq_some_iff.mp h
  obtain ⟨line, hline, hscans⟩ := exists_reads_of_scan hread hscan
  refine ⟨line, hline, hscans.isGet_iff.mp hget, hscans.parses_iff.mp (Option.isSome_of_mem hparse),
    hscans.string, hscans.rest, hscans.method.string_eq, hscans.uri.string_eq,
    hscans.version.string_eq, ?_⟩
  rw [string_pathname hparse, hscans.uri.string_eq, Env.path]
  exact if_congr hscans.uri.hasScheme_iff rfl rfl

/-- **A request has a target** if it is a GET with a URI that can be parsed. -/
theorem exists_readTarget_of_isGet (hline : e.Reads line) (hget : e.IsGet line)
    (huri : e.UriParses line) : ∃ t, readTarget e = .ok (some t) ∧ t.Of e line := by
  obtain ⟨rp, buf, r, hscans⟩ := hline.exists_scans
  obtain ⟨p, hparse⟩ := Option.isSome_iff_exists.mp (hscans.parses_iff.mpr huri)
  have ht : readTarget e = .ok (some ⟨rp, buf, r, p⟩) := readTarget_eq_some_iff.mpr
    ⟨hscans.read, hscans.scan, hscans.isGet_iff.mpr hget, hparse⟩
  obtain ⟨line', hline', -, -, hof⟩ := exists_line_of_readTarget ht
  obtain rfl := hline.unique hline'
  exact ⟨_, ht, hof⟩

/-- The head fits iff the message for the target does. -/
theorem Target.Of.fits_iff (h : t.Of e line) (huri : e.UriParses line) :
    t.Fits line ↔ e.HeadFits line := by
  unfold Target.Fits
  rw [h.method, h.path, h.version, h.rest]
  exact ⟨fun hfit => ⟨huri, hfit⟩, Env.HeadFits.message⟩

/-- `doit` comes to the end of the headers iff they fit. -/
theorem exists_readRequest_eq_some_iff : (∃ fuel q, readRequest fuel e = .ok (some q)) ↔
    ∃ line, e.Reads line ∧ e.IsGet line ∧ e.HeadFits line := by
  constructor
  · rintro ⟨fuel, q, h⟩
    obtain ⟨t, ht, hq⟩ := readRequest_eq_some_iff_target.mp h
    obtain ⟨line, hline, hget, huri, hof⟩ := exists_line_of_readTarget ht
    exact ⟨line, hline, hget, (hof.fits_iff huri).mp (fits_of_assemble hof.string hq)⟩
  · rintro ⟨line, hline, hget, hfits⟩
    obtain ⟨t, ht, hof⟩ := exists_readTarget_of_isGet hline hget hfits.uri
    obtain ⟨fuel, q, hq, -⟩ := exists_assemble_of_fits (e := e) hof.string
      ((hof.fits_iff hfits.uri).mpr hfits)
    exact ⟨fuel, q, readRequest_eq_some_iff_target.mpr ⟨t, ht, hq⟩⟩

/-- What has to be true if `doit` comes to the end of a request. -/
theorem headFits_of_readRequest {q : Option Request} (h : readRequest fuel e = .ok q) :
    ∃ line, e.Reads line ∧ (e.IsGet line → e.HeadFits line) := by
  cases q with
  | none =>
    obtain ⟨line, hline, hget⟩ := readTarget_eq_none_iff.mp (readRequest_eq_none_iff_target.mp h)
    exact ⟨line, hline, fun h => absurd h hget⟩
  | some q =>
    obtain ⟨line, hline, -, hfits⟩ := exists_readRequest_eq_some_iff.mp ⟨fuel, q, h⟩
    exact ⟨line, hline, fun _ => hfits⟩

/-- `doit` comes to the end of a request whose head fits. -/
theorem Env.Reads.readingEnds (hline : e.Reads line) (hfits : e.IsGet line → e.HeadFits line) :
    e.ReadingEnds := by
  by_cases hget : e.IsGet line
  · obtain ⟨fuel, q, h⟩ := exists_readRequest_eq_some_iff.mpr ⟨line, hline, hget, hfits hget⟩
    exact ⟨fuel, _, h⟩
  · have hnone := readTarget_eq_none_iff.mpr ⟨line, hline, hget⟩
    exact ⟨0, none, readRequest_eq_none_iff_target.mpr hnone⟩

/-- **When `doit` comes to the end of a request**: the first line arrives, and the method is not GET
or the head fits. -/
theorem readingEnds_iff (e : Env) :
    e.ReadingEnds ↔ ∃ line, e.Reads line ∧ (e.IsGet line → e.HeadFits line) :=
  ⟨fun ⟨_, _, h⟩ => headFits_of_readRequest h, fun ⟨_, hline, hfits⟩ => hline.readingEnds hfits⟩

/-- A client that sends a request line and closes. -/
def cutOff : Env where
  args := ⟨4, ⟨80, 0⟩⟩
  stack := ⟨.zero _, ⟨.zero _, .zero _, .zero _⟩, .zero _, 0, .zero _, .zero _, .zero _⟩
  detach := true
  conn := ⟨cbytes "GET http://a/ HTTP/1.0\r\n", fun _ => some 4096⟩
  connWrites := fun _ => some 4096
  closeConn := true
  lockTs := true
  unlockTs := true
  socket := 5
  gethostbyname := true
  connect := true
  origin := ⟨[], fun _ => none⟩
  originWrites := fun _ => none
  closeClient := true
  lockLog := true
  unlockLog := true
  timeStr := cbytes "Thu 27 Mar 2014 22:52:08 GMT"
  fopen := true
  fwrite := true
  fclose := true

/-- **Reading need not end**: the header loop waits for a blank line that does not come. -/
theorem exists_not_readingEnds : ∃ e : Env, e.conn.NoErrors ∧ ¬ e.ReadingEnds := by
  refine ⟨cutOff, fun _ => Option.some_ne_none 4096, fun ⟨fuel, q, h⟩ => ?_⟩
  obtain ⟨line, hline, hfits⟩ := headFits_of_readRequest h
  have hstring : cutOff.firstString = some (cbytes "GET http://a/ HTTP/1.0\r\n") := by
    decide +kernel
  obtain rfl := Option.some.inj (hstring.symm.trans hline.string)
  have hmethod : cutOff.method (cbytes "GET http://a/ HTTP/1.0\r\n") = some (cbytes "GET") := by
    decide +kernel
  obtain ⟨-, method, path, version, -, -, -, hfit⟩ := hfits ⟨_, hmethod, by decide⟩
  have hrest : cutOff.rest = [] := by decide +kernel
  rw [hrest] at hfit
  obtain ⟨hblank, -⟩ | ⟨ls, hls, -⟩ := hfit
  · exact absurd hblank (by decide)
  · refine not_hasBlankLine_of_not_complete ?_ ⟨ls, hls⟩
    rw [takeLine_nil]
    exact not_complete_nil (by decide)

end SystemsLabs.Proxylab
