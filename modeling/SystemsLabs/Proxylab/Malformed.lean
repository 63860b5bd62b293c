import SystemsLabs.Proxylab.Forwarding

/-!
# Malformed requests

`doit` looks neither at what `sscanf` nor at what `parse_uri` returns. If the first line of a
request is short of words, or its URI is none, it goes on with what the variables hold before.

* `LineSafe` — no request is sent for a first line unless its three words are read and the URI is
  parsed, and the result of `doit` does not depend on what the variables hold before.
* `lineSafe_iff` — the first lines for which this is so: the method is read and is not GET, or
  nothing is left to chance, or the thread stops with undefined behaviour before it could send
  anything.

**Scope.** The calls may have any outcomes. Two runs are compared that differ in what the variables
hold.
-/

namespace SystemsLabs.Proxylab

open Lib Scanf

/-! ## First lines -/

/-- The variables that `sscanf` and `parse_uri` may leave as they are. `hostname` is always set. -/
structure Vars where
  requestLine : RequestLine
  pathname : CBuf maxline
  port : ℤ

/-- The same thread, with other values of the variables. -/
def Env.withVars (e : Env) (v : Vars) : Env :=
  { e with stack :=
    { e.stack with requestLine := v.requestLine, pathname := v.pathname, port := v.port } }

/-- The values of the variables. -/
def Env.vars (e : Env) : Vars := ⟨e.stack.requestLine, e.stack.pathname, e.stack.port⟩

/-- A request is sent only if method, URI and version are read from this first line and `parse_uri`
returns 0, and the result does not depend on the previous values of the variables. -/
def LineSafe (line : List UInt8) : Prop :=
  ∀ e : Env, firstLine e.conn.delivered.1 = line →
    (∀ fuel sent, sendRequest fuel e = .ok (some sent) →
      (∃ version, (words (untilNul line))[2]? = some version) ∧
        ∃ t, readTarget e = .ok (some t) ∧ t.uri.status = 0) ∧
    ∀ v fuel, doit fuel (e.withVars v) = doit fuel e

/-- The first word is not GET; or the second is a URI with a scheme, and there is a third one or
nothing ends the host name (then `parse_uri` uses a null pointer); or the URI has no scheme, and
there is a third word, but no room for the first and the third in `client_message`. -/
def Harmless (line : List UInt8) : Prop :=
  ∃ method, (words line)[0]? = some method ∧
    (method.map clower = cbytes "get" → ∃ uri, (words line)[1]? = some uri ∧
      (HasScheme uri ∧ ((∃ version, (words line)[2]? = some version) ∨
          ∀ b ∈ uri.drop 7, isHostEnd b = false) ∨
        ¬ HasScheme uri ∧ ∃ version, (words line)[2]? = some version ∧
          maxbuf ≤ method.length + version.length + 4))

variable {e : Env} {t : Target} {v : Vars} {fuel : ℕ} {line s : List UInt8} {rp : Rio}
  {buf : CBuf maxline}

/-- A harmless line is not empty. -/
theorem Harmless.ne_nil (h : Harmless (untilNul line)) : line ≠ [] := by
  rintro rfl
  obtain ⟨method, hmethod, -⟩ := h
  cases hmethod

/-! ## The target of a request -/

/-- `readTarget` behind `sscanf`. -/
def targetOf (rp : Rio) (buf : CBuf maxline) (v : Vars) : Except Stop (Option Target) :=
  if v.requestLine.method.isStringNoCase (cbytes "get") = false then .ok none
  else do
    let p ← defined (parseUri v.requestLine.uri v.pathname v.port)
    .ok (some ⟨rp, buf, v.requestLine, p⟩)

/-- The values of the variables after `sscanf`. -/
structure Vars.Scanned (v : Vars) (ws : List (List UInt8)) (v' : Vars) : Prop where
  method : Stored v.requestLine.method ws[0]? v'.requestLine.method
  uri : Stored v.requestLine.uri ws[1]? v'.requestLine.uri
  version : Stored v.requestLine.version ws[2]? v'.requestLine.version
  pathname : v'.pathname = v.pathname
  port : v'.port = v.port

/-- `sscanf` sets some of the variables, whatever they hold. -/
theorem exists_readTarget_eq
    (hread : rioReadlinebExit (rioReadinitb e.conn) e.stack.buf = .ok (rp, buf))
    (hs : buf.string = some s) (v : Vars) :
    ∃ v', v.Scanned (words s) v' ∧ readTarget (e.withVars v) = targetOf rp buf v' := by
  obtain ⟨r, hscan, hmethod, huri, hversion⟩ := sscanfRequest_stored hs v.requestLine
  refine ⟨⟨r, v.pathname, v.port⟩, ⟨hmethod, huri, hversion, rfl, rfl⟩, ?_⟩
  have hread' : rioReadlinebExit (rioReadinitb (e.withVars v).conn) (e.withVars v).stack.buf =
    .ok (rp, buf) := hread
  have hscan' : sscanfRequest buf (e.withVars v).stack.requestLine = some r := hscan
  rw [readTarget, hread', ok_bind]
  dsimp only
  rw [hscan']
  rfl

/-- The first line is read, or the thread ends before. -/
theorem readTarget_cases (hline : firstLine e.conn.delivered.1 = line) (hne : line ≠ []) :
    (∃ stop, ∀ v, readTarget (e.withVars v) = .error stop) ∨
      ∃ rp, ∀ v, ∃ v', v.Scanned (words (untilNul line)) v' ∧
        readTarget (e.withVars v) = targetOf rp (e.stack.buf.put (line ++ [0])) v' := by
  have hs : (e.stack.buf.put (line ++ [0])).string = some (untilNul line) := by
    rw [← hline]
    exact string_put_line e.stack.buf e.conn.delivered.1
  have hcases := rioReadlinebExit_cases (rioReadinitb e.conn) e.stack.buf
  rw [delivered_rioReadinitb] at hcases
  rw [firstLine] at hline
  rcases hcases with ⟨-, rp, hread, -⟩ | ⟨hc, ⟨-, hread⟩ | ⟨-, rp, hread, -⟩⟩
  · rw [hline] at hread
    exact .inr ⟨rp, exists_readTarget_eq hread hs⟩
  · refine .inl ⟨.exit "Rio_readlineb error", fun v => ?_⟩
    have hread' : rioReadlinebExit (rioReadinitb (e.withVars v).conn) (e.withVars v).stack.buf =
      .error (.exit "Rio_readlineb error") := hread
    rw [readTarget, hread']
    rfl
  · rw [takeLine_of_not_complete hc] at hline
    change e.conn.delivered.1 = line at hline
    rw [hline, if_neg hne] at hread
    exact .inr ⟨rp, exists_readTarget_eq hread hs⟩

/-- `doit` behind `readTarget`. -/
def finish (fuel : ℕ) (e : Env) (target : Except Stop (Option Target)) : Except Stop Done := do
  check e.detach "Pthread_detach error"
  match ← target with
  | none => .ok (notImplemented e)
  | some t => do
    let q ← assemble fuel e t
    forward e q

/-- The variables matter for the target only. -/
theorem doit_withVars (fuel : ℕ) (e : Env) (v : Vars) :
    doit fuel (e.withVars v) = finish fuel e (readTarget (e.withVars v)) := by
  rw [doit, finish, readRequest_eq]
  change (check e.detach _ >>= _) = (check e.detach _ >>= _)
  rcases check e.detach "Pthread_detach error" with stop | u
  · rfl
  rcases readTarget (e.withVars v) with stop | _ | t
  · rfl
  · rfl
  simp only [ok_bind]
  change (assemble fuel e t >>= _) >>= _ = (assemble fuel e t >>= _)
  rcases assemble fuel e t with stop | q
  · rfl
  · rfl

/-! ## What the result depends on -/

/-- The same strings stand in the arrays. -/
structure Target.Same (t t' : Target) : Prop where
  rio : t'.rio = t.rio
  buf : t'.buf = t.buf
  method : t'.line.method.string = t.line.method.string
  uri : t'.line.uri.string = t.line.uri.string
  version : t'.line.version.string = t.line.version.string
  hostname : t'.uri.hostname = t.uri.hostname
  pathname : t'.uri.pathname.string = t.uri.pathname.string
  port : t'.uri.port = t.uri.port

/-- The result depends on these strings only. -/
theorem finish_congr {t' : Target} (h : t.Same t') :
    finish fuel e (.ok (some t')) = finish fuel e (.ok (some t)) := by
  have hfirst : firstMessage e.stack.clientMessage t'.line.method t'.uri.pathname t'.line.version =
      firstMessage e.stack.clientMessage t.line.method t.uri.pathname t.line.version := by
    rw [firstMessage, firstMessage, h.method, h.pathname, h.version]
  unfold finish
  refine congrArg _ (funext fun _ => ?_)
  simp only [ok_bind]
  unfold assemble
  rw [hfirst, h.rio, h.buf]
  rcases defined (firstMessage e.stack.clientMessage t.line.method t.uri.pathname t.line.version)
    with stop | m
  · rfl
  simp only [ok_bind]
  rcases headerLoop fuel t.rio t.buf m with stop | m'
  · rfl
  simp only [ok_bind]
  unfold forward writeLog formatLogEntry
  dsimp only
  rw [h.pathname, h.uri, h.hostname, h.port]

/-- There is no room for the message. -/
theorem finish_of_firstMessage_eq_none
    (h : firstMessage e.stack.clientMessage t.line.method t.uri.pathname t.line.version = none) :
    finish fuel e (.ok (some t)) = finish fuel e (.error .undefined) := by
  unfold finish
  refine congrArg _ (funext fun _ => ?_)
  simp only [ok_bind]
  rw [assemble, h]
  rfl

/-! ## What `parse_uri` returns -/

/-- Without a scheme, `parse_uri` leaves the variables as they are. -/
theorem parseUri_of_not_hasScheme {uri pathname : CBuf maxline} {port : ℤ}
    (huri : uri.string = some s) (h : ¬ HasScheme s) :
    parseUri uri pathname port = some ⟨-1, [], pathname, port⟩ := by
  have hfalse : hasScheme uri = false := Bool.eq_false_iff.mpr fun htrue =>
    h ((hasScheme_iff huri).mp htrue)
  rw [parseUri, if_pos hfalse]

/-- A word that has been stored is the string of its array. -/
theorem stored_some {b b' : CBuf maxline} {word : Option (List UInt8)} {w : List UInt8}
    (h : Stored b word b') (hw : word = some w) : b'.string = some w := by
  subst hw
  exact h

section TargetOf

variable {method uri : List UInt8}

/-- Another method than `GET`. -/
theorem targetOf_of_not_get (hmethod : v.requestLine.method.string = some method)
    (hget : method.map clower ≠ cbytes "get") : targetOf rp buf v = .ok none := by
  refine if_pos (Bool.eq_false_iff.mpr fun h => hget ?_)
  exact (CBuf.isStringNoCase_iff hmethod (by decide)).mp h

/-- The method `GET`: the URI is parsed. -/
theorem targetOf_of_get (hmethod : v.requestLine.method.string = some method)
    (hget : method.map clower = cbytes "get") :
    targetOf rp buf v = defined (parseUri v.requestLine.uri v.pathname v.port) >>= fun p =>
      .ok (some ⟨rp, buf, v.requestLine, p⟩) := by
  refine if_neg (Bool.not_eq_false _ ▸ ?_)
  exact (CBuf.isStringNoCase_iff hmethod (by decide)).mpr hget

/-- Without a scheme. -/
theorem targetOf_of_not_hasScheme (hmethod : v.requestLine.method.string = some method)
    (hget : method.map clower = cbytes "get") (huri : v.requestLine.uri.string = some uri)
    (hscheme : ¬ HasScheme uri) :
    targetOf rp buf v = .ok (some ⟨rp, buf, v.requestLine, -1, [], v.pathname, v.port⟩) := by
  rw [targetOf_of_get hmethod hget, parseUri_of_not_hasScheme huri hscheme]
  rfl

/-- With a scheme, and nothing that ends the host name. -/
theorem targetOf_of_hostEnd_free (hmethod : v.requestLine.method.string = some method)
    (hget : method.map clower = cbytes "get") (huri : v.requestLine.uri.string = some uri)
    (hscheme : HasScheme uri) (hfree : ∀ b ∈ uri.drop 7, isHostEnd b = false) :
    targetOf rp buf v = .error .undefined := by
  rw [targetOf_of_get hmethod hget, parseUri_of_hostEnd_free hscheme hfree huri]
  rfl

/-- With a scheme and a host name, what is found depends on the URI only. -/
theorem exists_targetOf (hscheme : HasScheme uri) (hend : ∃ b ∈ uri.drop 7, isHostEnd b = true) :
    ∃ host pathbegin port, pathbegin.length + 7 ≤ uri.length ∧
      ∀ (rp : Rio) (buf : CBuf maxline) {v : Vars} {method : List UInt8},
        v.requestLine.method.string = some method → method.map clower = cbytes "get" →
        v.requestLine.uri.string = some uri →
        ∃ path : CBuf maxline, path.string = some pathbegin ∧
          targetOf rp buf v = .ok (some ⟨rp, buf, v.requestLine, 0, host, path, port⟩) := by
  obtain ⟨host, pathbegin, port, hlen, hparse⟩ := exists_parseUri_eq hscheme hend
  refine ⟨host, pathbegin, port, hlen, fun rp buf _ _ hmethod hget huri => ?_⟩
  obtain ⟨path, hpath, heq⟩ := hparse _ _ _ huri
  refine ⟨path, hpath, ?_⟩
  rw [targetOf_of_get hmethod hget, heq]
  rfl

end TargetOf

/-- There is no room for so long words. -/
theorem firstMessage_eq_none {m : CBuf maxbuf} {a pathname version : CBuf maxline}
    {s₁ s₃ : List UInt8} (h₁ : a.string = some s₁) (h₃ : version.string = some s₃)
    (hlen : maxbuf ≤ s₁.length + s₃.length + 4) : firstMessage m a pathname version = none := by
  rw [Option.eq_none_iff_forall_ne_some]
  intro m' h
  obtain ⟨t₁, s₂, t₃, h₁', -, h₃', hputs⟩ := firstMessage_eq_some_iff.mp h
  obtain rfl := Option.some.inj (h₁.symm.trans h₁')
  obtain rfl := Option.some.inj (h₃.symm.trans h₃')
  have hlt := (CBuf.puts_eq_some_iff.mp hputs).1
  rw [length_firstMessage] at hlt
  omega

/-! ## Harmless lines -/

/-- The result does not depend on the variables. -/
theorem finish_targetOf_congr {v₁ v₁' v₂ v₂' : Vars} (h : Harmless line)
    (hv₁ : v₁.Scanned (words line) v₁') (hv₂ : v₂.Scanned (words line) v₂') :
    finish fuel e (targetOf rp buf v₁') = finish fuel e (targetOf rp buf v₂') := by
  obtain ⟨method, hmethod, hharmless⟩ := h
  have hmethod₁ := stored_some hv₁.method hmethod
  have hmethod₂ := stored_some hv₂.method hmethod
  by_cases hget : method.map clower = cbytes "get"
  · obtain ⟨uri, huri, hcase⟩ := hharmless hget
    have huri₁ := stored_some hv₁.uri huri
    have huri₂ := stored_some hv₂.uri huri
    rcases hcase with ⟨hscheme, hversion⟩ | ⟨hscheme, version, hversion, hlen⟩
    · by_cases hfree : ∀ b ∈ uri.drop 7, isHostEnd b = false
      · rw [targetOf_of_hostEnd_free hmethod₁ hget huri₁ hscheme hfree,
          targetOf_of_hostEnd_free hmethod₂ hget huri₂ hscheme hfree]
      · obtain ⟨version, hversion⟩ := hversion.resolve_right hfree
        have hend : ∃ b ∈ uri.drop 7, isHostEnd b = true := by simpa using hfree
        obtain ⟨host, pathbegin, port, -, htarget⟩ := exists_targetOf hscheme hend
        obtain ⟨path₁, hpath₁, heq₁⟩ := htarget _ _ hmethod₁ hget huri₁
        obtain ⟨path₂, hpath₂, heq₂⟩ := htarget _ _ hmethod₂ hget huri₂
        rw [heq₁, heq₂]
        refine finish_congr ⟨rfl, rfl, ?_, ?_, ?_, rfl, ?_, rfl⟩
        · exact hmethod₁.trans hmethod₂.symm
        · exact huri₁.trans huri₂.symm
        · exact (stored_some hv₁.version hversion).trans (stored_some hv₂.version hversion).symm
        · exact hpath₁.trans hpath₂.symm
    · -- `sprintf` writes beyond the end of `client_message`
      rw [targetOf_of_not_hasScheme hmethod₁ hget huri₁ hscheme,
        targetOf_of_not_hasScheme hmethod₂ hget huri₂ hscheme,
        finish_of_firstMessage_eq_none
          (firstMessage_eq_none hmethod₁ (stored_some hv₁.version hversion) hlen),
        finish_of_firstMessage_eq_none
          (firstMessage_eq_none hmethod₂ (stored_some hv₂.version hversion) hlen)]
  · rw [targetOf_of_not_get hmethod₁ hget, targetOf_of_not_get hmethod₂ hget]

/-- A request has three words and a URI that is parsed. -/
theorem status_of_targetOf (h : Harmless line) {v' : Vars} (hv : v.Scanned (words line) v')
    {q : Request} (ht : targetOf rp buf v' = .ok (some t)) (hq : assemble fuel e t = .ok q) :
    (∃ version, (words line)[2]? = some version) ∧ t.uri.status = 0 := by
  obtain ⟨method, hmethod, hharmless⟩ := h
  have hmethod' := stored_some hv.method hmethod
  by_cases hget : method.map clower = cbytes "get"
  · obtain ⟨uri, huri, hcase⟩ := hharmless hget
    have huri' := stored_some hv.uri huri
    rcases hcase with ⟨hscheme, hversion⟩ | ⟨hscheme, version, hversion, hlen⟩
    · by_cases hfree : ∀ b ∈ uri.drop 7, isHostEnd b = false
      · rw [targetOf_of_hostEnd_free hmethod' hget huri' hscheme hfree] at ht
        cases ht
      · have hend : ∃ b ∈ uri.drop 7, isHostEnd b = true := by simpa using hfree
        obtain ⟨host, pathbegin, port, -, htarget⟩ := exists_targetOf hscheme hend
        obtain ⟨path, -, heq⟩ := htarget _ _ hmethod' hget huri'
        obtain rfl := Option.some.inj (Except.ok.inj (heq.symm.trans ht))
        exact ⟨hversion.resolve_right hfree, rfl⟩
    · rw [targetOf_of_not_hasScheme hmethod' hget huri' hscheme] at ht
      obtain rfl := Option.some.inj (Except.ok.inj ht)
      obtain ⟨m, -, hfirst, -⟩ := assemble_eq_ok.mp hq
      rw [firstMessage_eq_none hmethod' (stored_some hv.version hversion) hlen] at hfirst
      cases hfirst
  · rw [targetOf_of_not_get hmethod' hget] at ht
    cases Except.ok.inj ht

/-- A harmless line reads no array in which there is no string. -/
theorem lineSafe_of_harmless (h : Harmless (untilNul line)) : LineSafe line := by
  intro e hline
  constructor
  · intro fuel sent hsent
    obtain ⟨-, q, -, -, hread, -⟩ := sendRequest_eq_some_iff.mp hsent
    obtain ⟨t, ht, hq⟩ := readRequest_eq_some_iff_target.mp hread
    rcases readTarget_cases hline h.ne_nil with ⟨stop, hstop⟩ | ⟨rp, hcases⟩
    · cases (hstop e.vars).symm.trans ht
    · obtain ⟨v', hv, heq⟩ := hcases e.vars
      obtain ⟨hversion, hstatus⟩ := status_of_targetOf h hv (heq.symm.trans ht) hq
      exact ⟨hversion, t, ht, hstatus⟩
  · intro v fuel
    change _ = doit fuel (e.withVars e.vars)
    rw [doit_withVars, doit_withVars]
    rcases readTarget_cases hline h.ne_nil with ⟨stop, hstop⟩ | ⟨rp, hcases⟩
    · rw [hstop, hstop]
    · obtain ⟨v₁, hv₁, heq₁⟩ := hcases v
      obtain ⟨v₂, hv₂, heq₂⟩ := hcases e.vars
      rw [heq₁, heq₂]
      exact finish_targetOf_congr h hv₁ hv₂

/-! ## Lines that are not harmless -/

/-- A client that sends one line and closes. -/
def alone (line : List UInt8) : Env := { refused with conn := ⟨line, fun _ => some 0⟩ }

/-- An array without a zero byte. -/
def filled : CBuf maxline := ⟨List.replicate maxline 1, List.length_replicate⟩

/-- The empty string. -/
theorem string_zero (n : ℕ) (hn : 0 < n) : (CBuf.zero n).string = some [] := by
  obtain ⟨k, rfl⟩ := Nat.exists_eq_add_one_of_ne_zero (Nat.ne_of_gt hn)
  exact CBuf.string_eq_some_iff.mpr ⟨List.mem_cons_self, rfl⟩

/-- An array without a zero byte. -/
theorem string_filled : filled.string = none := by
  rw [CBuf.string, if_neg]
  intro h
  exact absurd (List.eq_of_mem_replicate h) (by decide)

/-- An array that holds a URI without an end of the host name. -/
def openUri : CBuf maxline := (CBuf.zero maxline).put (cbytes "http://a" ++ [0])

/-- A URI with nothing behind the host name. -/
theorem string_openUri : openUri.string = some (cbytes "http://a") := by
  decide +kernel

/-- The line is read. -/
theorem exists_targetOf_alone (s : List UInt8) : ∃ rp buf, ∀ v, ∃ v',
    v.Scanned (words (untilNul (firstLine s))) v' ∧
      readTarget ((alone (firstLine s)).withVars v) = targetOf rp buf v' := by
  have hconn : (rioReadinitb (alone (firstLine s)).conn).fd.NoErrors :=
    fun _ => Option.some_ne_none 0
  obtain ⟨rp, hread, -⟩ := rioReadlinebExit_of_noErrors hconn (.zero maxline)
  refine ⟨rp, _, fun v => exists_readTarget_eq (e := alone (firstLine s)) hread ?_ v⟩
  change (if firstLine s = [] then CBuf.zero maxline else (CBuf.zero maxline).put
    ((takeLine newline (maxline - 1) (firstLine s)).1 ++ [0])).string = _
  have hline : (takeLine newline (maxline - 1) (firstLine s)).1 = firstLine s :=
    by rw [firstLine, takeLine_takeLine]
  rw [hline]
  split_ifs with hnil
  · rw [hnil]
    exact string_zero maxline (by decide)
  · exact string_put_line (.zero maxline) s

/-- The headers are still to be read. -/
theorem finish_zero {m : CBuf maxbuf} (hdetach : e.detach = true)
    (h : firstMessage e.stack.clientMessage t.line.method t.uri.pathname t.line.version = some m) :
    finish 0 e (.ok (some t)) = .error .fuel := by
  rw [finish, hdetach]
  simp only [ok_bind]
  rw [assemble, h]
  rfl

/-- What is undefined stays so. -/
theorem finish_undefined (hdetach : e.detach = true) (fuel : ℕ) :
    finish fuel e (.error .undefined) = .error .undefined := by
  rw [finish, hdetach]
  rfl

/-- There is room for the first line of the message. -/
theorem exists_firstMessage {m : CBuf maxbuf} {a pathname version : CBuf maxline}
    {s₁ s₂ s₃ : List UInt8} (h₁ : a.string = some s₁) (h₂ : pathname.string = some s₂)
    (h₃ : version.string = some s₃) (hlen : s₁.length + s₂.length + s₃.length + 4 < maxbuf) :
    ∃ m', firstMessage m a pathname version = some m' := by
  rw [← length_firstMessage] at hlen
  exact ⟨_, firstMessage_eq_some_iff.mpr
    ⟨s₁, s₂, s₃, h₁, h₂, h₃, CBuf.puts_eq_some_iff.mpr ⟨hlen, rfl⟩⟩⟩

/-- `version` is not a string. -/
theorem firstMessage_of_version {m : CBuf maxbuf} {a pathname version : CBuf maxline}
    (h : version.string = none) : firstMessage m a pathname version = none := by
  rw [Option.eq_none_iff_forall_ne_some]
  intro m' hm
  obtain ⟨-, -, s₃, -, -, h₃, -⟩ := firstMessage_eq_some_iff.mp hm
  cases h.symm.trans h₃

/-- `pathname` is not a string. -/
theorem firstMessage_of_pathname {m : CBuf maxbuf} {a pathname version : CBuf maxline}
    (h : pathname.string = none) : firstMessage m a pathname version = none := by
  rw [Option.eq_none_iff_forall_ne_some]
  intro m' hm
  obtain ⟨-, s₂, -, -, h₂, -⟩ := firstMessage_eq_some_iff.mp hm
  cases h.symm.trans h₂

/-- The variables before `sscanf`, when the array for the method holds GET. -/
def varsWith (uri version pathname : CBuf maxline) : Vars :=
  ⟨⟨(CBuf.zero maxline).put (cbytes "GET" ++ [0]), uri, version⟩, pathname, 0⟩

/-- An array for a word that is not read holds the same string as before. -/
theorem string_stored_none {b b' : CBuf maxline} {word : Option (List UInt8)}
    {o : Option (List UInt8)} (h : Stored b word b') (hw : word = none) (hb : b.string = o) :
    b'.string = o := by
  subst hw
  exact (congrArg CBuf.string h).trans hb

/-- The three letters of the method. -/
theorem length_of_get {method : List UInt8} (h : method.map clower = cbytes "get") :
    method.length = 3 := by
  rw [← List.length_map, h]
  decide

/-- `doit` answers 501 and ends. -/
theorem finish_none (hdetach : e.detach = true) (fuel : ℕ) :
    finish fuel e (.ok none) = .ok (notImplemented e) := by
  rw [finish, hdetach]
  rfl

/-- What `doit` makes of a line with the words `ws` does not depend on the variables `v`; `f v` is
what they hold after `sscanf`. -/
structure Indifferent (e : Env) (rp : Rio) (buf : CBuf maxline) (ws : List (List UInt8))
    (f : Vars → Vars) : Prop where
  detach : e.detach = true
  scanned : ∀ v : Vars, v.Scanned ws (f v)
  same : ∀ v₁ v₂, finish 0 e (targetOf rp buf (f v₁)) = finish 0 e (targetOf rp buf (f v₂))

namespace Indifferent

variable {ws : List (List UInt8)} {f : Vars → Vars} {method uri : List UInt8} {v₁ v₂ : Vars}

/-- The thread cannot both read the headers and stop before. -/
theorem false_of_firstMessage (h : Indifferent e rp buf ws f) {m : CBuf maxbuf}
    (h₁ : targetOf rp buf (f v₁) = .ok (some t))
    (hm : firstMessage e.stack.clientMessage t.line.method t.uri.pathname t.line.version = some m)
    (h₂ : finish 0 e (targetOf rp buf (f v₂)) = .error .undefined) : False := by
  have heq := h.same v₁ v₂
  rw [h₁, finish_zero h.detach hm, h₂] at heq
  cases heq

/-- There cannot be room for the message with some variables only. -/
theorem false_of_firstMessage_eq_none (h : Indifferent e rp buf ws f) {t₁ t₂ : Target}
    (h₁ : targetOf rp buf (f v₁) = .ok (some t₁))
    (hm₁ : ∃ m, firstMessage e.stack.clientMessage t₁.line.method t₁.uri.pathname t₁.line.version =
      some m)
    (h₂ : targetOf rp buf (f v₂) = .ok (some t₂))
    (hm₂ : firstMessage e.stack.clientMessage t₂.line.method t₂.uri.pathname t₂.line.version =
      none) : False := by
  obtain ⟨m, hm₁⟩ := hm₁
  have hstop : finish 0 e (targetOf rp buf (f v₂)) = .error .undefined := by
    rw [h₂, finish_of_firstMessage_eq_none hm₂, finish_undefined h.detach]
  exact h.false_of_firstMessage h₁ hm₁ hstop

/-- There is a method. -/
theorem exists_method (h : Indifferent e rp buf ws f) : ∃ method, ws[0]? = some method := by
  refine Option.ne_none_iff_exists'.mp fun h0 => ?_
  have h1 : ws[1]? = none := List.getElem?_eq_none_iff.mpr
    (Nat.le_succ_of_le (List.getElem?_eq_none_iff.mp h0))
  -- the array for the method is empty, or holds GET
  obtain ⟨v₁, hv₁⟩ : ∃ v : Vars, v.requestLine.method = .zero maxline :=
    ⟨⟨⟨.zero _, .zero _, .zero _⟩, .zero _, 0⟩, rfl⟩
  have hmethod₁ : (f v₁).requestLine.method.string = some [] := by
    refine string_stored_none (h.scanned v₁).method h0 ?_
    rw [hv₁]
    exact string_zero maxline (by decide)
  have hv₂ := h.scanned (varsWith openUri (.zero _) (.zero _))
  have hmethod₂ : (f (varsWith openUri (.zero _) (.zero _))).requestLine.method.string =
      some (cbytes "GET") :=
    string_stored_none hv₂.method h0 (by decide +kernel)
  have huri₂ := string_stored_none hv₂.uri h1 string_openUri
  have heq := h.same v₁ (varsWith openUri (.zero _) (.zero _))
  rw [targetOf_of_not_get hmethod₁ (by decide), finish_none h.detach,
    targetOf_of_hostEnd_free hmethod₂ (by decide) huri₂ (by decide +kernel) (by decide +kernel),
    finish_undefined h.detach] at heq
  cases heq

/-- If the method is GET, there is a URI. -/
theorem exists_uri (h : Indifferent e rp buf ws f) (hmethod : ws[0]? = some method)
    (hget : method.map clower = cbytes "get") : ∃ uri, ws[1]? = some uri := by
  refine Option.ne_none_iff_exists'.mp fun h1 => ?_
  have h2 : ws[2]? = none := List.getElem?_eq_none_iff.mpr
    (Nat.le_succ_of_le (List.getElem?_eq_none_iff.mp h1))
  have hzero := string_zero maxline (by decide)
  have hv₁ := h.scanned (varsWith (.zero _) (.zero _) (.zero _))
  have hv₂ := h.scanned (varsWith openUri (.zero _) (.zero _))
  have hmethod₁ := stored_some hv₁.method hmethod
  have hmethod₂ := stored_some hv₂.method hmethod
  have huri₁ := string_stored_none hv₁.uri h1 hzero
  have huri₂ := string_stored_none hv₂.uri h1 string_openUri
  have hversion₁ := string_stored_none hv₁.version h2 hzero
  have hpathname₁ := (congrArg CBuf.string hv₁.pathname).trans hzero
  obtain ⟨m, hm⟩ := exists_firstMessage (m := e.stack.clientMessage) hmethod₁ hpathname₁ hversion₁
    (by rw [length_of_get hget]; decide)
  have htarget₂ : targetOf rp buf (f (varsWith openUri (.zero _) (.zero _))) =
      .error .undefined :=
    targetOf_of_hostEnd_free hmethod₂ hget huri₂ (by decide +kernel) (by decide +kernel)
  have hstop := finish_undefined h.detach 0
  rw [← htarget₂] at hstop
  exact h.false_of_firstMessage
    (targetOf_of_not_hasScheme hmethod₁ hget huri₁ (by decide +kernel)) hm hstop

/-- If a URI with a host name is found, there is a version. -/
theorem exists_version (h : Indifferent e rp buf ws f) (hmethod : ws[0]? = some method)
    (hget : method.map clower = cbytes "get") (huri : ws[1]? = some uri)
    (hlen : uri.length < maxline) (hend : HasScheme uri → ∃ b ∈ uri.drop 7, isHostEnd b = true) :
    ∃ version, ws[2]? = some version := by
  refine Option.ne_none_iff_exists'.mp fun h2 => ?_
  have hzero := string_zero maxline (by decide)
  have hv₁ := h.scanned (varsWith (.zero _) (.zero _) (.zero _))
  have hv₂ := h.scanned (varsWith (.zero _) filled (.zero _))
  have hmethod₁ := stored_some hv₁.method hmethod
  have hmethod₂ := stored_some hv₂.method hmethod
  have huri₁ := stored_some hv₁.uri huri
  have huri₂ := stored_some hv₂.uri huri
  have hversion₁ := string_stored_none hv₁.version h2 hzero
  have hversion₂ := string_stored_none hv₂.version h2 string_filled
  by_cases hscheme : HasScheme uri
  · obtain ⟨host, pathbegin, port, hle, htarget⟩ := exists_targetOf hscheme (hend hscheme)
    obtain ⟨path₁, hpath₁, heq₁⟩ := htarget rp buf hmethod₁ hget huri₁
    obtain ⟨path₂, -, heq₂⟩ := htarget rp buf hmethod₂ hget huri₂
    have hroom : method.length + pathbegin.length + ([] : List UInt8).length + 4 < maxbuf := by
      rw [length_of_get hget, List.length_nil]
      have hlt : uri.length < maxbuf := hlen
      omega
    exact h.false_of_firstMessage_eq_none heq₁
      (exists_firstMessage hmethod₁ hpath₁ hversion₁ hroom) heq₂ (firstMessage_of_version hversion₂)
  · have hpathname₁ := (congrArg CBuf.string hv₁.pathname).trans hzero
    have hroom : method.length + ([] : List UInt8).length + ([] : List UInt8).length + 4 <
        maxbuf := by
      rw [length_of_get hget]
      decide
    exact h.false_of_firstMessage_eq_none
      (targetOf_of_not_hasScheme hmethod₁ hget huri₁ hscheme)
      (exists_firstMessage hmethod₁ hpathname₁ hversion₁ hroom)
      (targetOf_of_not_hasScheme hmethod₂ hget huri₂ hscheme) (firstMessage_of_version hversion₂)

/-- If there is no scheme, there is no room for the message. -/
theorem le_of_not_hasScheme (h : Indifferent e rp buf ws f) {version : List UInt8}
    (hmethod : ws[0]? = some method) (hget : method.map clower = cbytes "get")
    (huri : ws[1]? = some uri) (hscheme : ¬ HasScheme uri) (hversion : ws[2]? = some version) :
    maxbuf ≤ method.length + version.length + 4 := by
  by_contra hlt
  have hv₁ := h.scanned (varsWith (.zero _) (.zero _) (.zero _))
  have hv₂ := h.scanned (varsWith (.zero _) (.zero _) filled)
  have hmethod₁ := stored_some hv₁.method hmethod
  have hmethod₂ := stored_some hv₂.method hmethod
  have hpathname₁ := (congrArg CBuf.string hv₁.pathname).trans (string_zero maxline (by decide))
  have hpathname₂ := (congrArg CBuf.string hv₂.pathname).trans string_filled
  exact h.false_of_firstMessage_eq_none
    (targetOf_of_not_hasScheme hmethod₁ hget (stored_some hv₁.uri huri) hscheme)
    (exists_firstMessage hmethod₁ hpathname₁ (stored_some hv₁.version hversion)
      (Nat.lt_of_not_le hlt))
    (targetOf_of_not_hasScheme hmethod₂ hget (stored_some hv₂.uri huri) hscheme)
    (firstMessage_of_pathname hpathname₂)

end Indifferent

/-- A line that is not harmless leaves something to chance. -/
theorem harmless_of_lineSafe (h : LineSafe (firstLine s)) : Harmless (untilNul (firstLine s)) := by
  obtain ⟨rp, buf, htarget⟩ := exists_targetOf_alone s
  choose f hf hread using htarget
  have hfirst : firstLine (alone (firstLine s)).conn.delivered.1 = firstLine s := by
    have hreads : (alone (firstLine s)).conn.NoErrors := fun _ => Option.some_ne_none 0
    rw [hreads.delivered]
    change firstLine (firstLine s) = firstLine s
    rw [firstLine, firstLine, takeLine_takeLine]
  have hsame : ∀ v₁ v₂, finish 0 (alone (firstLine s)) (targetOf rp buf (f v₁)) =
      finish 0 (alone (firstLine s)) (targetOf rp buf (f v₂)) := by
    intro v₁ v₂
    rw [← hread, ← hread, ← doit_withVars, ← doit_withVars, (h _ hfirst).2, (h _ hfirst).2]
  have hindifferent : Indifferent (alone (firstLine s)) rp buf _ f := ⟨rfl, hf, hsame⟩
  obtain ⟨method, hmethod⟩ := hindifferent.exists_method
  refine ⟨method, hmethod, fun hget => ?_⟩
  obtain ⟨uri, huri⟩ := hindifferent.exists_uri hmethod hget
  have hlen : uri.length < maxline := by
    have hword := (word_sublist (List.mem_of_getElem? huri)).length_le
    have huntil := (List.takeWhile_sublist (l := firstLine s) (· ≠ 0)).length_le
    have hle := length_takeLine_le newline (maxline - 1) s
    exact Nat.lt_of_le_of_lt (hword.trans (huntil.trans hle)) (by decide)
  refine ⟨uri, huri, ?_⟩
  by_cases hscheme : HasScheme uri
  · by_cases hfree : ∀ b ∈ uri.drop 7, isHostEnd b = false
    · exact .inl ⟨hscheme, .inr hfree⟩
    · exact .inl ⟨hscheme, .inl (hindifferent.exists_version hmethod hget huri hlen
        fun _ => by simpa using hfree)⟩
  · obtain ⟨version, hversion⟩ := hindifferent.exists_version hmethod hget huri hlen
      fun h => absurd h hscheme
    exact .inr ⟨hscheme, version, hversion,
      hindifferent.le_of_not_hasScheme hmethod hget huri hscheme hversion⟩

/-- **When a first line is safe.** -/
theorem lineSafe_iff (s : List UInt8) :
    LineSafe (firstLine s) ↔ Harmless (untilNul (firstLine s)) :=
  ⟨harmless_of_lineSafe, lineSafe_of_harmless⟩

/-- A request without a version. -/
def versionless : Env :=
  { reached plain with conn := ⟨cbytes "GET http://a/\r\n\r\n", fun _ => some 0⟩ }

/-- It is sent with the string that the array for the version holds. -/
theorem exists_not_lineSafe : ∃ s, ¬ LineSafe (firstLine s) := by
  refine ⟨cbytes "GET http://a/\r\n\r\n", fun h => ?_⟩
  have hreads : versionless.conn.NoErrors := fun _ => Option.some_ne_none 0
  have hsent : sendRequest 2 versionless = .ok (some (cbytes "GET / \r\n\r\n")) := by
    decide +kernel
  have hline : firstLine versionless.conn.delivered.1 =
      firstLine (cbytes "GET http://a/\r\n\r\n") := by
    rw [hreads.delivered]
    rfl
  obtain ⟨⟨version, hversion⟩, -⟩ := (h versionless hline).1 2 _ hsent
  have hnone : (words (untilNul (firstLine (cbytes "GET http://a/\r\n\r\n"))))[2]? = none := by
    decide +kernel
  cases hnone.symm.trans hversion

end SystemsLabs.Proxylab
