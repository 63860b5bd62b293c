import SystemsLabs.Proxylab.HeaderLoop

/-!
# What `doit` makes of the request line

* `words` — the words that `sscanf` finds in the first line; the variables of those that it does not
  find keep their values (`sscanfRequest_stored`).
* `readTarget` — `doit` up to the place where it starts to put the request together, and
  `assemble` — from there up to the end of the headers. Together they are `readRequest`
  (`readRequest_eq`).

**Scope.** Any stream, any outcome of the reads, and anything in the variables.
-/

namespace SystemsLabs.Proxylab

open Lib Scanf

/-! ## Words -/

/-- The bytes of a string that `scanf` has read. -/
def itemBytes : Item → List UInt8
  | .str t => ofChars t
  | _ => []

/-- The words that `sscanf(buf, "%s %s %s", ...)` reads: at most three. -/
def words (s : List UInt8) : List (List UInt8) :=
  (scanf requestFormat (chars s)).items.map itemBytes

/-- A variable after `sscanf`, which has read this word for it or nothing. -/
def Stored (b : CBuf maxline) (word : Option (List UInt8)) (b' : CBuf maxline) : Prop :=
  match word with
  | none => b' = b
  | some w => b'.string = some w

variable {s w : List UInt8} {buf b b' : CBuf maxline} {r : RequestLine} {k : ℕ}

/-- Only strings are read. -/
theorem eq_str_of_mem {fmt : List Directive} (hfmt : ∀ d ∈ fmt, d = .str ∨ d = .space)
    {t : List Char} {i : Item} (h : i ∈ (scanf fmt t).items) : ∃ u, i = .str u := by
  induction fmt generalizing t with
  | nil => exact absurd h List.not_mem_nil
  | cons d fmt ih =>
    cases hrun : d.run t with
    | error e =>
      rw [scanf, hrun] at h
      exact absurd h List.not_mem_nil
    | ok r =>
      obtain ⟨items, rest⟩ := r
      rw [scanf_cons hrun] at h
      rcases List.mem_append.mp h with h | h
      · rcases hfmt d List.mem_cons_self with rfl | rfl
        · rw [Directive.run] at hrun
          split at hrun
          · cases hrun
          · obtain ⟨rfl, -⟩ := Prod.mk.inj (Except.ok.inj hrun)
            exact ⟨_, List.mem_singleton.mp h⟩
        · rw [space_run] at hrun
          obtain ⟨rfl, -⟩ := Prod.mk.inj (Except.ok.inj hrun)
          exact absurd h List.not_mem_nil
      · exact ih (fun d hd => hfmt d (List.mem_cons_of_mem _ hd)) h

/-- `sscanf` stores strings only. -/
theorem eq_str_of_mem_request {t : List Char} {i : Item}
    (h : i ∈ (scanf requestFormat t).items) : ∃ u, i = .str u :=
  eq_str_of_mem (by simp [requestFormat]) h

/-- A word is a part of the line. -/
theorem word_sublist (h : w ∈ words s) : w.Sublist s := by
  obtain ⟨i, hi, rfl⟩ := List.mem_map.mp h
  obtain ⟨t, rfl⟩ := eq_str_of_mem_request hi
  have hsub := (str_sublist hi).map fun c => UInt8.ofNat c.toNat
  change (ofChars t).Sublist (ofChars (chars s)) at hsub
  rwa [ofChars_chars] at hsub

/-- A word is stored, or the variable keeps its value. -/
theorem stored_storeItem (hs : buf.string = some s) (b : CBuf maxline) (k : ℕ) :
    ∃ b', storeItem b (scanf requestFormat (chars s)).items[k]? = some b' ∧
      Stored b (words s)[k]? b' := by
  unfold words
  rw [List.getElem?_map]
  cases hi : (scanf requestFormat (chars s)).items[k]? with
  | none => exact ⟨b, rfl, rfl⟩
  | some i =>
    obtain ⟨t, rfl⟩ := eq_str_of_mem_request (List.mem_of_getElem? hi)
    have hw : ofChars t ∈ words s :=
      List.mem_map.mpr ⟨.str t, List.mem_of_getElem? hi, rfl⟩
    have hsub := word_sublist hw
    have hlt := Nat.lt_of_le_of_lt hsub.length_le (CBuf.length_lt_of_string hs)
    have h0 : 0 ∉ ofChars t := fun h => CBuf.not_mem_of_string hs (hsub.subset h)
    have hputs : b.puts (ofChars t) = some (b.put (ofChars t ++ [0])) :=
      CBuf.puts_eq_some_iff.mpr ⟨hlt, rfl⟩
    exact ⟨_, hputs, CBuf.string_puts hputs h0⟩

/-- **`sscanf` on the request line.** -/
theorem sscanfRequest_stored (hs : buf.string = some s) (r : RequestLine) :
    ∃ r', sscanfRequest buf r = some r' ∧ Stored r.method (words s)[0]? r'.method ∧
      Stored r.uri (words s)[1]? r'.uri ∧ Stored r.version (words s)[2]? r'.version := by
  obtain ⟨m, hm, hms⟩ := stored_storeItem hs r.method 0
  obtain ⟨u, hu, hus⟩ := stored_storeItem hs r.uri 1
  obtain ⟨v, hv, hvs⟩ := stored_storeItem hs r.version 2
  refine ⟨⟨m, u, v⟩, ?_, hms, hus, hvs⟩
  unfold sscanfRequest
  rw [hs]
  simp only [Option.bind_eq_bind, Option.bind_some, hm, hu, hv, Option.pure_def]

/-! ## The request line, and the rest -/

/-- What `doit` knows when it starts to put the request together. -/
structure Target where
  rio : Rio
  buf : CBuf maxline
  line : RequestLine
  uri : ParsedUri

/-- `doit` up to `parse_uri`. Other methods than GET are turned down: `none`. -/
def readTarget (e : Env) : Except Stop (Option Target) := do
  let (rio, buf) ← rioReadlinebExit (rioReadinitb e.conn) e.stack.buf
  let r ← defined (sscanfRequest buf e.stack.requestLine)
  if r.method.isStringNoCase (cbytes "get") = false then .ok none
  else do
    let p ← defined (parseUri r.uri e.stack.pathname e.stack.port)
    .ok (some ⟨rio, buf, r, p⟩)

/-- `doit` from there to the end of the header loop. -/
def assemble (fuel : ℕ) (e : Env) (t : Target) : Except Stop Request := do
  let clientMessage ← defined
    (firstMessage e.stack.clientMessage t.line.method t.uri.pathname t.line.version)
  let clientMessage ← headerLoop fuel t.rio t.buf clientMessage
  .ok ⟨t.uri.hostname, t.uri.port, t.line.uri, t.uri.pathname, clientMessage⟩

variable {e : Env} {t : Target} {fuel : ℕ} {line : List UInt8}

/-- The request is to be forwarded. -/
theorem readRequest_eq_some_iff {q : Request} : readRequest fuel e = .ok (some q) ↔
    ∃ rp buf r, rioReadlinebExit (rioReadinitb e.conn) e.stack.buf = .ok (rp, buf) ∧
      sscanfRequest buf e.stack.requestLine = some r ∧
      r.method.isStringNoCase (cbytes "get") = true ∧ ∃ p m m',
        parseUri r.uri e.stack.pathname e.stack.port = some p ∧
        firstMessage e.stack.clientMessage r.method p.pathname r.version = some m ∧
        headerLoop fuel rp buf m = .ok m' ∧ ⟨p.hostname, p.port, r.uri, p.pathname, m'⟩ = q := by
  unfold readRequest
  simp only [bind_eq_ok, defined_eq_ok, Prod.exists, exists_and_left]
  refine exists_congr fun rp => exists_congr fun buf => and_congr_right fun _ =>
    exists_congr fun r => and_congr_right fun _ => ?_
  cases hmethod : r.method.isStringNoCase (cbytes "get") with
  | false => simp
  | true => simp [bind_eq_ok, defined_eq_ok]

/-- `doit` is made of these parts. -/
theorem readRequest_eq (fuel : ℕ) (e : Env) : readRequest fuel e = (do
    match ← readTarget e with
    | none => .ok none
    | some t => do
      let r ← assemble fuel e t
      .ok (some r)) := by
  unfold readRequest readTarget assemble
  rcases rioReadlinebExit (rioReadinitb e.conn) e.stack.buf with stop | ⟨rio, buf⟩
  · rfl
  simp only [ok_bind]
  rcases defined (sscanfRequest buf e.stack.requestLine) with stop | r
  · rfl
  simp only [ok_bind]
  split_ifs with hmethod
  · rfl
  rcases defined (parseUri r.uri e.stack.pathname e.stack.port) with stop | p
  · rfl
  simp only [ok_bind]
  rcases defined (firstMessage e.stack.clientMessage r.method p.pathname r.version) with stop | m
  · rfl
  simp only [ok_bind]
  rcases headerLoop fuel rio buf m with stop | m'
  · rfl
  · rfl

/-- The request line has been read, is a `GET`, and its URI has been parsed. -/
theorem readTarget_eq_some_iff : readTarget e = .ok (some t) ↔
    rioReadlinebExit (rioReadinitb e.conn) e.stack.buf = .ok (t.rio, t.buf) ∧
      sscanfRequest t.buf e.stack.requestLine = some t.line ∧
      t.line.method.isStringNoCase (cbytes "get") = true ∧
      parseUri t.line.uri e.stack.pathname e.stack.port = some t.uri := by
  unfold readTarget
  simp only [bind_eq_ok, defined_eq_ok, Prod.exists]
  constructor
  · rintro ⟨rp, buf, hread, r, hscan, h⟩
    cases hmethod : r.method.isStringNoCase (cbytes "get") with
    | false =>
      rw [if_pos hmethod] at h
      cases Except.ok.inj h
    | true =>
      simp only [hmethod, Bool.true_eq_false, if_false, bind_eq_ok, defined_eq_ok] at h
      obtain ⟨p, hparse, h⟩ := h
      obtain rfl := Option.some.inj (Except.ok.inj h)
      exact ⟨hread, hscan, hmethod, hparse⟩
  · rintro ⟨hread, hscan, hmethod, hparse⟩
    refine ⟨t.rio, t.buf, hread, t.line, hscan, ?_⟩
    simp only [hmethod, Bool.true_eq_false, if_false, bind_eq_ok, defined_eq_ok]
    exact ⟨t.uri, hparse, rfl⟩

/-- The message has been assembled up to the blank line. -/
theorem assemble_eq_ok {q : Request} : assemble fuel e t = .ok q ↔ ∃ m m',
    firstMessage e.stack.clientMessage t.line.method t.uri.pathname t.line.version = some m ∧
      headerLoop fuel t.rio t.buf m = .ok m' ∧
      ⟨t.uri.hostname, t.uri.port, t.line.uri, t.uri.pathname, m'⟩ = q := by
  unfold assemble
  simp only [bind_eq_ok, defined_eq_ok, Except.ok.injEq, exists_and_left]

/-- The request line and the headers fit into `client_message`. `line` is what stands in `buf`. -/
def Target.Fits (t : Target) (line : List UInt8) : Prop :=
  ∃ method pathname version, t.line.method.string = some method ∧
    t.uri.pathname.string = some pathname ∧ t.line.version.string = some version ∧
    HeadersFit line t.rio.delivered.1 (method.length + pathname.length + version.length + 4)

/-- They fit if `doit` comes to the end of the headers. -/
theorem fits_of_assemble {q : Request} (hline : t.buf.string = some line)
    (h : assemble fuel e t = .ok q) : t.Fits line := by
  obtain ⟨m, m', hfirst, hloop, -⟩ := assemble_eq_ok.mp h
  obtain ⟨s₁, s₂, s₃, h₁, h₂, h₃, hputs⟩ := firstMessage_eq_some_iff.mp hfirst
  have hfit := headersFit_of_headerLoop (string_firstMessage h₁ h₂ h₃ hputs) hline hloop
  rw [length_firstMessage] at hfit
  exact ⟨s₁, s₂, s₃, h₁, h₂, h₃, hfit⟩

/-- If they fit, `doit` comes to the end of the headers. -/
theorem exists_assemble_of_fits (hline : t.buf.string = some line) (h : t.Fits line) :
    ∃ fuel q, assemble fuel e t = .ok q ∧ (∃ s, q.clientMessage.string = some s) ∧
      q.uri = t.line.uri ∧ q.pathname = t.uri.pathname := by
  obtain ⟨s₁, s₂, s₃, h₁, h₂, h₃, hfit⟩ := h
  obtain ⟨m, hputs⟩ : ∃ m, e.stack.clientMessage.puts
      (s₁ ++ [32] ++ s₂ ++ [32] ++ s₃ ++ crlf) = some m :=
    ⟨_, CBuf.puts_eq_some_iff.mpr ⟨length_firstMessage s₁ s₂ s₃ ▸ hfit.lt, rfl⟩⟩
  rw [← length_firstMessage] at hfit
  obtain ⟨fuel, m', hloop, s, hs⟩ := exists_headerLoop_of_headersFit
    (string_firstMessage h₁ h₂ h₃ hputs) hline hfit
  exact ⟨fuel, _, assemble_eq_ok.mpr ⟨m, m', firstMessage_eq_some_iff.mpr
    ⟨s₁, s₂, s₃, h₁, h₂, h₃, hputs⟩, hloop, rfl⟩, ⟨s, hs⟩, rfl, rfl⟩

/-- A request that is to be forwarded has a target. -/
theorem readRequest_eq_some_iff_target {q : Request} : readRequest fuel e = .ok (some q) ↔
    ∃ t, readTarget e = .ok (some t) ∧ assemble fuel e t = .ok q := by
  rw [readRequest_eq, bind_eq_ok]
  constructor
  · rintro ⟨_ | t, ht, h⟩
    · cases Except.ok.inj h
    · obtain ⟨r, hr, h⟩ := bind_eq_ok.mp h
      obtain rfl := Option.some.inj (Except.ok.inj h)
      exact ⟨t, ht, hr⟩
  · rintro ⟨t, ht, hq⟩
    exact ⟨some t, ht, bind_eq_ok.mpr ⟨q, hq, rfl⟩⟩

/-- The others are turned down. -/
theorem readRequest_eq_none_iff_target : readRequest fuel e = .ok none ↔
    readTarget e = .ok none := by
  rw [readRequest_eq, bind_eq_ok]
  constructor
  · rintro ⟨_ | t, ht, h⟩
    · exact ht
    · obtain ⟨r, -, h⟩ := bind_eq_ok.mp h
      cases Except.ok.inj h
  · exact fun ht => ⟨none, ht, rfl⟩

end SystemsLabs.Proxylab
