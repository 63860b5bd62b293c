import SystemsLabs.Lib.CString
import SystemsLabs.Lib.Scanf
import SystemsLabs.Proxylab.Rio

/-!
# The request line (`proxy.c`)

`sscanfRequest` splits the first line of a request into method, URI and version; what it does not
find keeps its value. `parseUri` splits a URI into host name, port and path. Both say when the code
reads or writes outside of an array: `sscanfRequest` never does if it is given a string
(`sscanfRequest_isSome_iff`), and `parseUri` does if nothing ends the host name
(`parseUri_isSome_iff`).
-/

namespace SystemsLabs.Proxylab

open Lib Scanf

/-! ## `sscanf` -/

/-- The characters of a string. -/
def chars (s : List UInt8) : List Char := s.map fun b => Char.ofNat b.toNat

/-- The bytes of characters. -/
def ofChars (s : List Char) : List UInt8 := s.map fun c => UInt8.ofNat c.toNat

/-- The variables `method`, `uri` and `version`. -/
structure RequestLine where
  method : CBuf maxline
  uri : CBuf maxline
  version : CBuf maxline

/-- `"%s %s %s"`. -/
def requestFormat : List Directive := [.str, .space, .str, .space, .str]

/-- Store a string that `sscanf` has read, if it has. -/
def storeItem (b : CBuf maxline) : Option Item → Option (CBuf maxline)
  | some (.str s) => b.puts (ofChars s)
  | _ => some b

/-- `sscanf(buf, "%s %s %s", method, uri, version)`. -/
def sscanfRequest (buf : CBuf maxline) (r : RequestLine) : Option RequestLine := do
  let items := (scanf requestFormat (chars (← buf.string))).items
  return {
    method := ← storeItem r.method items[0]?
    uri := ← storeItem r.uri items[1]?
    version := ← storeItem r.version items[2]? }

/-! ## `parse_uri` -/

/-- `" :/\r\n"`: what ends a host name. -/
def isHostEnd (b : UInt8) : Bool := b == 32 || b == 58 || b == 47 || b == 13 || b == 10

/-- What `parse_uri` returns, and the variables that it sets. A host name is shorter than the URI,
so the array has room for it. -/
structure ParsedUri where
  status : ℤ
  hostname : List UInt8
  pathname : CBuf maxline
  port : ℤ

/-- The URI starts with `http://`. -/
def hasScheme (uri : CBuf maxline) : Bool := (uri.bytes.take 7).map clower = cbytes "http://"

/-- `parse_uri`. It fails if `strpbrk` finds nothing: the code dereferences the null pointer. -/
def parseUri (uri pathname : CBuf maxline) (port : ℤ) : Option ParsedUri :=
  if hasScheme uri = false then some ⟨-1, [], pathname, port⟩
  else do
    let hostbegin := (← uri.string).drop 7
    let hostend := hostbegin.dropWhile fun b => !isHostEnd b
    if hostend = [] then none
    else
      let hostname := hostbegin.takeWhile fun b => !isHostEnd b
      let port := if hostend.head? = some 58 then atoi hostend.tail else 80
      let pathbegin := hostbegin.dropWhile fun b => b != 47
      let pathname ← pathname.puts (if pathbegin = [] then [47] else pathbegin)
      return ⟨0, hostname, pathname, port⟩

variable {buf uri pathname : CBuf maxline} {r : RequestLine} {port : ℤ} {s : List UInt8}

/-! ## When they are defined -/

/-- A character for each byte. -/
@[simp] theorem length_chars (s : List UInt8) : (chars s).length = s.length := List.length_map _

/-- A byte for each character. -/
@[simp] theorem length_ofChars (s : List Char) : (ofChars s).length = s.length := List.length_map _

/-- The code of a character that stands for a byte. -/
theorem toNat_ofNat_byte (b : UInt8) : (Char.ofNat b.toNat).toNat = b.toNat := by
  have hvalid : b.toNat.isValidChar := Or.inl (Nat.lt_trans b.toNat_lt (by decide))
  unfold Char.ofNat
  rw [dif_pos hvalid]
  rfl

/-- The bytes back. -/
@[simp] theorem ofChars_chars (s : List UInt8) : ofChars (chars s) = s := by
  unfold ofChars chars
  rw [List.map_map]
  refine List.map_id'' (fun b => ?_) s
  rw [Function.comp_apply, toNat_ofNat_byte, UInt8.ofNat_toNat]

/-- There is room for what `sscanf` reads from a string. -/
theorem storeItem_isSome (b : CBuf maxline) (hs : s.length < maxline) (k : ℕ) :
    (storeItem b (scanf requestFormat (chars s)).items[k]?).isSome := by
  unfold storeItem
  split
  · next t ht =>
    have hle := (str_sublist (List.mem_of_getElem? ht)).length_le
    rw [length_chars] at hle
    have hlt : (ofChars t).length < maxline := by
      rw [length_ofChars]
      exact Nat.lt_of_le_of_lt hle hs
    rw [CBuf.puts, if_pos hlt]
    rfl
  · rfl

/-- `sscanf` needs a string. -/
theorem sscanfRequest_isSome_iff : (sscanfRequest buf r).isSome ↔ 0 ∈ buf.bytes := by
  have hstring := @CBuf.string_eq_some_iff _ buf
  unfold sscanfRequest
  cases hs : buf.string with
  | none =>
    refine iff_of_false (fun h => nomatch h) fun hmem => ?_
    have := (hstring (s := untilNul buf.bytes)).mpr ⟨hmem, rfl⟩
    cases hs.symm.trans this
  | some s =>
    refine iff_of_true ?_ (hstring.mp hs).1
    have hlt := CBuf.length_lt_of_string hs
    obtain ⟨m, hm⟩ := Option.isSome_iff_exists.mp (storeItem_isSome r.method hlt 0)
    obtain ⟨u, hu⟩ := Option.isSome_iff_exists.mp (storeItem_isSome r.uri hlt 1)
    obtain ⟨v, hv⟩ := Option.isSome_iff_exists.mp (storeItem_isSome r.version hlt 2)
    simp only [Option.bind_eq_bind, Option.bind_some, hm, hu, hv, Option.pure_def]
    rfl

/-- There is room for the path. -/
theorem puts_pathbegin (pathname : CBuf maxline) (hs : s.length < maxline) :
    ∃ b, pathname.puts (if (s.drop 7).dropWhile (fun b => b != 47) = [] then [47]
      else (s.drop 7).dropWhile fun b => b != 47) = some b := by
  have hlen := (List.dropWhile_sublist (l := s.drop 7) fun b => b != 47).length_le
  rw [List.length_drop] at hlen
  refine ⟨_, CBuf.puts_eq_some_iff.mpr ⟨?_, rfl⟩⟩
  split_ifs
  · decide
  · omega

/-- **When `parse_uri` is defined**: the URI has no scheme, or it is a string with something behind
the host name. -/
theorem parseUri_isSome_iff :
    (parseUri uri pathname port).isSome ↔ (hasScheme uri = true →
      ∃ s, uri.string = some s ∧ ∃ b ∈ s.drop 7, isHostEnd b = true) := by
  unfold parseUri
  by_cases hscheme : hasScheme uri = false
  · rw [if_pos hscheme]
    exact iff_of_true rfl fun h => nomatch hscheme.symm.trans h
  · rw [if_neg hscheme, Bool.not_eq_false] at *
    rw [forall_prop_of_true hscheme]
    cases hs : uri.string with
    | none =>
      refine iff_of_false (fun h => nomatch h) ?_
      rintro ⟨s, hs', -⟩
      cases hs'
    | some s =>
      obtain ⟨path, hpath⟩ := puts_pathbegin pathname (CBuf.length_lt_of_string hs)
      have hend : (s.drop 7).dropWhile (fun b => !isHostEnd b) = [] ↔
          ¬ ∃ b ∈ s.drop 7, isHostEnd b = true := by
        rw [List.dropWhile_eq_nil_iff]
        simp
      simp only [Option.bind_eq_bind, Option.bind_some, hpath, Option.some.injEq,
        exists_eq_left']
      split_ifs with hnil
      · exact iff_of_false (fun h => nomatch h) (hend.mp hnil)
      · exact iff_of_true rfl (not_not.mp (hend.not.mp hnil))
      · exact iff_of_true rfl (not_not.mp (hend.not.mp hnil))

/-! ## A URI in parts -/

/-- A string has the scheme iff its first bytes are that, in any letter case. -/
theorem hasScheme_iff (h : uri.string = some s) :
    hasScheme uri = true ↔ (s.take 7).map clower = cbytes "http://" := by
  obtain ⟨t, ht⟩ := CBuf.exists_bytes_of_string h
  unfold hasScheme
  rw [ht, decide_eq_true_eq]
  rcases Nat.lt_or_ge s.length 7 with hlt | hge
  · -- the zero byte behind a short string is not in the scheme
    refine iff_of_false (fun heq => ?_) fun heq => ?_
    · have hmem : (0 : UInt8) ∈ (s ++ 0 :: t).take 7 := by
        rw [List.take_append, List.take_of_length_le (Nat.le_of_lt hlt)]
        obtain ⟨k, hk⟩ := Nat.exists_eq_add_of_lt hlt
        rw [show 7 - s.length = k + 1 by omega]
        simp
      have hscheme := List.mem_map_of_mem (f := clower) hmem
      rw [heq] at hscheme
      exact absurd hscheme (by decide)
    · have hlen := congrArg List.length heq
      rw [List.length_map, List.length_take, Nat.min_eq_right (Nat.le_of_lt hlt)] at hlen
      exact Nat.ne_of_lt hlt hlen
  · rw [List.take_append_of_le_length hge]

/-- The host name ends where the rest starts. -/
theorem takeWhile_host {host rest : List UInt8} (hhost : ∀ b ∈ host, isHostEnd b = false)
    (hrest : ∀ b ∈ rest.head?, isHostEnd b = true) :
    (host ++ rest).takeWhile (fun b => !isHostEnd b) = host ∧
      (host ++ rest).dropWhile (fun b => !isHostEnd b) = rest := by
  have hall : ∀ b ∈ host, (!isHostEnd b) = true := fun b hb => by rw [hhost b hb]; rfl
  rw [List.takeWhile_append_of_pos hall, List.dropWhile_append_of_pos hall]
  cases rest with
  | nil => exact ⟨List.append_nil _, rfl⟩
  | cons b rest =>
    simp [hrest b rfl]

/-- A host name has no slash. -/
theorem dropWhile_slash {host : List UInt8} (hhost : ∀ b ∈ host, isHostEnd b = false)
    (rest : List UInt8) :
    (host ++ rest).dropWhile (fun b => b != 47) = rest.dropWhile fun b => b != 47 := by
  apply List.dropWhile_append_of_pos
  intro b hb
  apply bne_iff_ne.mpr
  rintro rfl
  exact absurd (hhost _ hb) (by decide)

/-- **`parse_uri` on a URI in parts**: the scheme, the host name, and what is behind it. -/
theorem parseUri_parts {scheme host rest : List UInt8}
    (hscheme : scheme.map clower = cbytes "http://") (hhost : ∀ b ∈ host, isHostEnd b = false)
    (hrest : ∀ b ∈ rest.head?, isHostEnd b = true)
    (huri : uri.string = some (scheme ++ (host ++ rest))) (pathname : CBuf maxline) (port : ℤ) :
    (rest = [] → parseUri uri pathname port = none) ∧
      (rest ≠ [] → ∃ path,
        pathname.puts (if rest.dropWhile (fun b => b != 47) = [] then [47]
          else rest.dropWhile fun b => b != 47) = some path ∧
        parseUri uri pathname port = some ⟨0, host, path,
          if rest.head? = some 58 then atoi rest.tail else 80⟩) := by
  have hlen : scheme.length = 7 := by
    rw [← List.length_map, hscheme]
    decide
  have hdrop : (scheme ++ (host ++ rest)).drop 7 = host ++ rest := List.drop_left' hlen
  have htrue : hasScheme uri = true := by
    rw [hasScheme_iff huri, List.take_left' hlen]
    exact hscheme
  obtain ⟨htake, hend⟩ := takeWhile_host hhost hrest
  obtain ⟨path, hpath⟩ := puts_pathbegin pathname (CBuf.length_lt_of_string huri)
  rw [hdrop, dropWhile_slash hhost] at hpath
  unfold parseUri
  rw [if_neg (by rw [htrue]; decide), huri]
  simp only [Option.bind_eq_bind, Option.bind_some, hdrop, htake, hend, dropWhile_slash hhost,
    hpath, Option.pure_def]
  constructor
  · intro hnil
    rw [if_pos hnil]
  · intro hne
    exact ⟨path, rfl, by rw [if_neg hne]⟩

/-- The URI ends with the host name, and `parse_uri` looks for what is behind it. -/
theorem parseUri_of_hostEnd_free (hscheme : (s.take 7).map clower = cbytes "http://")
    (hend : ∀ b ∈ s.drop 7, isHostEnd b = false) (huri : uri.string = some s)
    (pathname : CBuf maxline) (port : ℤ) : parseUri uri pathname port = none := by
  have hparts : uri.string = some (s.take 7 ++ (s.drop 7 ++ [])) := by
    rw [List.append_nil, List.take_append_drop, huri]
  have hnone : ∀ b ∈ ([] : List UInt8).head?, isHostEnd b = true := fun b hb => nomatch hb
  exact (parseUri_parts hscheme hend hnone hparts pathname port).1 rfl

/-- What `parse_uri` finds depends on the URI only. -/
theorem exists_parseUri_eq (hscheme : (s.take 7).map clower = cbytes "http://")
    (hend : ∃ b ∈ s.drop 7, isHostEnd b = true) :
    ∃ host pathbegin port', pathbegin.length + 7 ≤ s.length ∧
      ∀ (uri pathname : CBuf maxline) (port : ℤ), uri.string = some s →
        ∃ path, path.string = some pathbegin ∧
          parseUri uri pathname port = some ⟨0, host, path, port'⟩ := by
  -- the host name, and what is behind it
  obtain ⟨host, rest, hhost, hrest, hne, hs⟩ : ∃ host rest, (∀ b ∈ host, isHostEnd b = false) ∧
      (∀ b ∈ rest.head?, isHostEnd b = true) ∧ rest ≠ [] ∧ s.drop 7 = host ++ rest := by
    refine ⟨(s.drop 7).takeWhile fun b => !isHostEnd b, (s.drop 7).dropWhile fun b => !isHostEnd b,
      fun b hb => ?_, fun b hb => ?_, fun hnil => ?_, List.takeWhile_append_dropWhile.symm⟩
    · simpa using List.mem_takeWhile_imp hb
    · have hhead := List.head?_dropWhile_not (fun b => !isHostEnd b) (s.drop 7)
      rw [Option.mem_def.mp hb] at hhead
      simpa using hhead
    · obtain ⟨b, hb, hbend⟩ := hend
      have hall := List.dropWhile_eq_nil_iff.mp hnil b hb
      rw [hbend] at hall
      cases hall
  have hparts : s.take 7 ++ (host ++ rest) = s := by rw [← hs, List.take_append_drop]
  obtain ⟨pathbegin, hpathbegin⟩ : ∃ pathbegin,
    (if rest.dropWhile (fun b => b != 47) = [] then [47]
      else rest.dropWhile fun b => b != 47) = pathbegin := ⟨_, rfl⟩
  refine ⟨host, pathbegin, if rest.head? = some 58 then atoi rest.tail else 80, ?_,
    fun uri pathname port huri => ?_⟩
  · have hlen := congrArg List.length hs
    have hpos := List.length_pos_iff.mpr hne
    have hdrop := (List.dropWhile_sublist (l := rest) fun b => b != 47).length_le
    rw [List.length_drop, List.length_append] at hlen
    subst hpathbegin
    split_ifs
    · rw [List.length_singleton]
      omega
    · omega
  · have huri' : uri.string = some (s.take 7 ++ (host ++ rest)) := by rw [hparts, huri]
    obtain ⟨path, hpath, hparse⟩ := (parseUri_parts hscheme hhost hrest huri' pathname port).2 hne
    rw [hpathbegin] at hpath
    refine ⟨path, CBuf.string_puts hpath fun h0 => ?_, hparse⟩
    subst hpathbegin
    split_ifs at h0
    · exact absurd h0 (by decide)
    · refine CBuf.not_mem_of_string huri' (List.mem_append_right _ (List.mem_append_right _ ?_))
      exact (List.dropWhile_sublist _).subset h0

end SystemsLabs.Proxylab
