import SystemsLabs.Proxylab.Uri

/-!
# URLs

* `Url` — the URLs of HTTP, as they are written: the port and the path may be missing.
* `parsed_iff` — `parse_uri` finds the parts of such a URL iff the port or the path is there. If
  both are missing its `strpbrk` finds no end of the host name.

**Scope.** A URL fits the array that `sscanf` stores it to, and has no zero byte.
-/

namespace SystemsLabs.Proxylab

open Lib

/-- A URL `http://HOST[:PORT][PATH]`. -/
structure Url where
  /-- `http://`, in any letter case. -/
  scheme : List UInt8
  host : List UInt8
  /-- The digits of the port. -/
  port : Option (List UInt8)
  path : List UInt8

namespace Url

/-- What is behind the host name. -/
def afterHost (u : Url) : List UInt8 := (u.port.elim [] fun port => 58 :: port) ++ u.path

/-- The URL as a string. -/
def bytes (u : Url) : List UInt8 := u.scheme ++ (u.host ++ u.afterHost)

/-- The port that is meant. -/
def portNumber (u : Url) : ℕ := u.port.elim 80 decimalValue

/-- The path that is meant. -/
def fullPath (u : Url) : List UInt8 := if u.path = [] then [47] else u.path

/-- A URL that is well formed. -/
structure Valid (u : Url) : Prop where
  scheme : u.scheme.map clower = cbytes "http://"
  host_ne_nil : u.host ≠ []
  /-- No space, colon, slash, CR or LF. -/
  host : ∀ b ∈ u.host, isHostEnd b = false
  port : ∀ port ∈ u.port, port ≠ [] ∧ (∀ b ∈ port, isDecimal b = true) ∧
    1 ≤ decimalValue port ∧ decimalValue port ≤ 65535
  /-- The path starts with a slash, if there is one. -/
  path : ∀ b ∈ u.path.head?, b = 47
  nul : 0 ∉ u.bytes
  bytes_lt : u.bytes.length < maxline

/-- `parse_uri` has found the parts of the URL. -/
def Parsed (u : Url) (r : Option ParsedUri) : Prop :=
  ∃ p, r = some p ∧ p.status = 0 ∧ p.hostname = u.host ∧ p.port = u.portNumber ∧
    p.pathname.string = some u.fullPath

variable {u : Url}

/-- Neither a port nor a path is there. -/
theorem afterHost_eq_nil_iff : u.afterHost = [] ↔ ¬ (u.port ≠ none ∨ u.path ≠ []) := by
  unfold afterHost
  cases u.port with
  | none => simp
  | some port => simp

/-- The host name ends where the URL goes on. -/
theorem head_afterHost (hu : u.Valid) : ∀ b ∈ u.afterHost.head?, isHostEnd b = true := by
  intro b hb
  unfold afterHost at hb
  cases hp : u.port with
  | none =>
    rw [hp] at hb
    rw [hu.path b hb]
    decide
  | some port =>
    rw [hp] at hb
    obtain rfl := Option.some.inj hb
    decide

/-- The first slash is that of the path. -/
theorem dropWhile_afterHost (hu : u.Valid) : u.afterHost.dropWhile (fun b => b != 47) = u.path := by
  have hport : ∀ b ∈ u.port.elim [] (fun port => 58 :: port), (b != 47) = true := by
    intro b hb
    cases hp : u.port with
    | none =>
      rw [hp] at hb
      exact absurd hb List.not_mem_nil
    | some port =>
      rw [hp] at hb
      rcases List.mem_cons.mp hb with rfl | hb
      · decide
      · apply bne_iff_ne.mpr
        rintro rfl
        exact absurd ((hu.port port hp).2.1 _ hb) (by decide)
  rw [afterHost, List.dropWhile_append_of_pos hport]
  cases hpath : u.path with
  | nil => rfl
  | cons b path =>
    have hb := hu.path b (by rw [hpath]; rfl)
    rw [List.dropWhile_cons_of_neg (by rw [hb]; decide)]

/-- `atoi` finds the port. -/
theorem port_afterHost (hu : u.Valid) :
    (if u.afterHost.head? = some 58 then atoi u.afterHost.tail else 80) = u.portNumber := by
  unfold afterHost portNumber
  cases hp : u.port with
  | none =>
    have hpath : u.path.head? ≠ some 58 := fun h => absurd (hu.path 58 h) (by decide)
    exact if_neg hpath
  | some port =>
    obtain ⟨hne, hdigits, -, hle⟩ := hu.port port hp
    refine (if_pos rfl).trans (atoi_digits hne hdigits (fun b hb => ?_) (by omega))
    rw [hu.path b hb]
    decide

/-- The path has no zero byte. -/
theorem zero_not_mem_fullPath (hu : u.Valid) : 0 ∉ u.fullPath := by
  unfold fullPath
  split_ifs
  · decide
  · have := hu.nul
    simp only [bytes, afterHost, List.mem_append, not_or] at this
    exact this.2.2.2

/-- **When `parse_uri` finds the parts of a URL**: the port or the path is there. -/
theorem parsed_iff (hu : u.Valid) {uri : CBuf maxline} (huri : uri.string = some u.bytes)
    (pathname : CBuf maxline) (port : ℤ) :
    u.Parsed (parseUri uri pathname port) ↔ u.port ≠ none ∨ u.path ≠ [] := by
  obtain ⟨hnil, hrest⟩ :=
    parseUri_parts hu.scheme hu.host (head_afterHost hu) huri pathname port
  by_cases hempty : u.afterHost = []
  · refine iff_of_false ?_ (afterHost_eq_nil_iff.mp hempty)
    rintro ⟨p, hp, -⟩
    cases (hnil hempty).symm.trans hp
  · refine iff_of_true ?_ (not_not.mp (mt afterHost_eq_nil_iff.mpr hempty))
    obtain ⟨path, hpath, heq⟩ := hrest hempty
    rw [dropWhile_afterHost hu] at hpath
    exact ⟨_, heq, rfl, rfl, port_afterHost hu, CBuf.string_puts hpath (zero_not_mem_fullPath hu)⟩

/-- A URL in mixed letters, with colons and slashes in its path. -/
def full : Url where
  scheme := cbytes "hTTp://"
  host := cbytes "a.is"
  port := some (cbytes "8080")
  path := cbytes "/b:c//d"

/-- A URL of a host. -/
def short : Url where
  scheme := cbytes "http://"
  host := cbytes "a.is"
  port := none
  path := []

/-- With a port and a path. -/
theorem valid_full : full.Valid where
  scheme := by decide
  host_ne_nil := by decide
  host := by decide +kernel
  port := by decide +kernel
  path := by
    intro b hb
    exact (Option.some.inj hb).symm
  nul := by decide
  bytes_lt := by decide

/-- With neither. -/
theorem valid_short : short.Valid where
  scheme := by decide
  host_ne_nil := by decide
  host := by decide +kernel
  port := by decide
  path := by
    intro b hb
    cases hb
  nul := by decide
  bytes_lt := by decide

/-- An array that holds the URL. -/
theorem exists_string (hu : u.Valid) : ∃ uri : CBuf maxline, uri.string = some u.bytes := by
  refine ⟨(CBuf.zero maxline).put (u.bytes ++ [0]), ?_⟩
  rw [CBuf.string_put hu.bytes_lt, untilNul_of_not_mem hu.nul]

/-- The URL with a port and a path. -/
theorem parsed_iff_example :
    ∃ uri : CBuf maxline, full.Parsed (parseUri uri (.zero maxline) (-1)) := by
  obtain ⟨uri, huri⟩ := exists_string valid_full
  exact ⟨uri, (parsed_iff valid_full huri (.zero maxline) (-1)).mpr (.inl (by decide))⟩

/-- The URL of a host, without a slash behind it, is not accepted. -/
theorem exists_not_parsed : ∃ (u : Url) (uri : CBuf maxline), u.Valid ∧
    uri.string = some u.bytes ∧ ¬ u.Parsed (parseUri uri (.zero maxline) 0) := by
  obtain ⟨uri, huri⟩ := exists_string valid_short
  refine ⟨short, uri, valid_short, huri, ?_⟩
  obtain ⟨hnil, -⟩ := parseUri_parts valid_short.scheme valid_short.host
    (head_afterHost valid_short) huri (.zero maxline) 0
  rintro ⟨p, hp, -⟩
  cases (hnil (by decide)).symm.trans hp

end Url

end SystemsLabs.Proxylab
