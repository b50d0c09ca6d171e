import WiiMC.Http.Encoding

/-!
# The WebDAV configuration

`gc_dav_config_load` of `webdav_client.c`: the file is read line by line into a `gc_dav_config`.

* `GcDavConfig`: what the loader fills in, and the cancel callback beside it.
* `gcDavConfigLoad`: the loader.
* `gcDavConfigLoad_url`: the URL it leaves has a path that a file can be put behind.
* `gcDavConfigLoad_cancel`: whatever the caller has put there, the loader leaves no callback.
-/

namespace WiiMC.Dav

open Bytes Http

/-- The values of `errno` that the client sets. -/
inductive Errno
  | enoent | enomem | einval | eio | eacces | eisdir | ebadf | eoverflow | enametoolong
  deriving DecidableEq

/-- A code for `errno` and the text for the user. -/
abbrev Failure := Errno × String

/-- `gc_dav_config`. -/
structure GcDavConfig (κ : Type) where
  url : List UInt8
  name : List UInt8
  authorization : List UInt8
  cancel : Option κ
  cancelOpaque : ℕ
  deriving DecidableEq

/-- A configuration after `memset`. -/
def GcDavConfig.zero (κ : Type) : GcDavConfig κ where
  url := []
  name := []
  authorization := []
  cancel := none
  cancelOpaque := 0

/-- `fgets`: the line, what follows it, and whether the end of the file has been met. -/
def fgets (cap : ℕ) (s : List UInt8) : Option (List UInt8 × List UInt8 × Bool) :=
  if s = [] then none
  else
    let text := s.takeWhile (· != 10)
    if text.length < cap - 1 then
      if text.length < s.length then
        some (s.take (text.length + 1), s.drop (text.length + 1), false)
      else some (s, [], true)
    else some (s.take (cap - 1), s.drop (cap - 1), false)

/-- The C string at the start of a buffer. -/
def cString (s : List UInt8) : List UInt8 := s.takeWhile (· != 0)

/-- `trim`. -/
def trim (s : List UInt8) : List UInt8 := trimEnd isSpace (s.dropWhile isSpace)

/-- The settings that the lines of the file give. -/
structure Settings where
  url : List UInt8
  name : List UInt8
  user : List UInt8
  password : List UInt8
  deriving DecidableEq

/-- One setting. -/
def assign (s : Settings) (key value : List UInt8) : Except Failure Settings :=
  let tooLong : Except Failure Settings := .error (.einval, "WebDAV setting is too long")
  if key = ascii "url" then
    if value.length ≥ 2304 then tooLong else .ok { s with url := value }
  else if key = ascii "name" then
    if value.length ≥ 80 then tooLong else .ok { s with name := value }
  else if key = ascii "username" then
    if value.length ≥ 256 then tooLong else .ok { s with user := value }
  else if key = ascii "password" then
    if value.length ≥ 256 then tooLong else .ok { s with password := value }
  else .error (.einval, "Unknown key in webdav.conf")

/-- One line of the file. -/
def readLine (s : Settings) (text : List UInt8) : Except Failure Settings :=
  let key := trim (cString text)
  if key = [] ∨ key.head? = some 35 ∨ key.head? = some 59 then .ok s
  else match splitAt? 61 key with
    | none => .error (.einval, "Expected key=value in webdav.conf")
    | some (key, value) => assign s (trim key) (trim value)

/-- The loop over the lines, with the number of lines that may still come. -/
def readLines : ℕ → Settings → List UInt8 → Except Failure Settings
  | left, s, file =>
      match fgets 4096 file with
      | none => .ok s
      | some (text, rest, eof) =>
          match left with
          | 0 => .error (.einval, "WebDAV configuration is too large")
          | left + 1 =>
              if ¬ (10 ∈ cString text) ∧ eof = false then
                .error (.einval, "WebDAV configuration is too large")
              else match readLine s text with
                | .error e => .error e
                | .ok s => readLines left s rest

/-- The checks behind the loop. -/
def finish (κ : Type) (s : Settings) : Except Failure (GcDavConfig κ) :=
  let badUrl : Except Failure (GcDavConfig κ) :=
    .error (.einval, "WebDAV requires an http:// LAN URL without query or credentials")
  match gcHttpParseUrl s.url with
  | none => badUrl
  | some u =>
      if u.tls = true ∨ 63 ∈ u.path ∨ 35 ∈ s.url then badUrl
      else if 2304 ≤ s.url.length + 1 then .error (.einval, "WebDAV URL is too long")
      else
        let url := if s.url.getLast? = some 47 then s.url else s.url ++ [47]
        let config : GcDavConfig κ := { GcDavConfig.zero κ with url, name := s.name }
        if s.user = [] ∧ s.password = [] then .ok config
        else match gcHttpBasic s.user s.password 1025 with
          | none => .error (.einval, "Invalid WebDAV credentials")
          | some authorization => .ok { config with authorization }

/-- `gc_dav_config_load` of a file with the given content, if there is one; `memory` says whether
the allocations succeed. The configuration that the caller passes is cleared. -/
def gcDavConfigLoad {κ : Type} (_config : GcDavConfig κ) (file : Option (List UInt8))
    (memory : Bool) : Except Failure Unit × GcDavConfig κ :=
  match file with
  | none => (.error (.enoent, "No webdav.conf"), GcDavConfig.zero κ)
  | some content =>
      if memory = false then (.error (.enomem, "Out of memory"), GcDavConfig.zero κ)
      else match readLines 64 ⟨[], ascii "WebDAV", [], []⟩ content with
        | .error e => (.error e, GcDavConfig.zero κ)
        | .ok s =>
            match finish κ s with
            | .error e => (.error e, GcDavConfig.zero κ)
            | .ok config => (.ok (), config)

/-- What the checks behind the loop accept, and the URL and the callback they leave. -/
theorem finish_ok {κ : Type} {s : Settings} {config : GcDavConfig κ}
    (h : finish κ s = .ok config) : ∃ u, gcHttpParseUrl s.url = some u ∧ u.tls = false ∧
      63 ∉ u.path ∧ 35 ∉ s.url ∧
      config.url = (if s.url.getLast? = some 47 then s.url else s.url ++ [47]) ∧
      config.cancel = none ∧ config.cancelOpaque = 0 := by
  unfold finish at h
  cases hparse : gcHttpParseUrl s.url with
  | none => simp [hparse] at h
  | some u =>
      simp only [hparse] at h
      -- the tests behind the last line, in their order
      by_cases hbad : u.tls = true ∨ 63 ∈ u.path ∨ 35 ∈ s.url
      · rw [if_pos hbad] at h
        cases h
      rw [if_neg hbad] at h
      rw [not_or, not_or, Bool.not_eq_true] at hbad
      obtain ⟨htls, hquery, hhash⟩ := hbad
      by_cases hlong : 2304 ≤ s.url.length + 1
      · rw [if_pos hlong] at h
        cases h
      rw [if_neg hlong] at h
      refine ⟨u, rfl, htls, hquery, hhash, ?_⟩
      by_cases hanonymous : s.user = [] ∧ s.password = []
      · rw [if_pos hanonymous] at h
        cases h
        exact ⟨rfl, rfl, rfl⟩
      rw [if_neg hanonymous] at h
      cases hbasic : gcHttpBasic s.user s.password 1025 with
      | none => simp [hbasic] at h
      | some authorization =>
          simp only [hbasic] at h
          cases h
          exact ⟨rfl, rfl, rfl⟩

/-- A successful call of the loader is one of its checks. -/
theorem gcDavConfigLoad_ok {κ : Type} {config c : GcDavConfig κ} {file : Option (List UInt8)}
    {memory : Bool} (h : gcDavConfigLoad config file memory = (.ok (), c)) :
    ∃ s, finish κ s = .ok c := by
  unfold gcDavConfigLoad at h
  cases file with
  | none => cases h
  | some content =>
      cases memory with
      | false => cases h
      | true =>
          simp only [Bool.true_eq_false, if_false] at h
          rcases hlines : readLines 64 ⟨[], ascii "WebDAV", [], []⟩ content with e | s
          · rw [hlines] at h
            cases h
          rw [hlines] at h
          simp only at h
          rcases hfinish : finish κ s with e | c'
          · rw [hfinish] at h
            cases h
          · rw [hfinish] at h
            cases h
            exact ⟨s, hfinish⟩

/-- The loader leaves no callback, whatever it finds in the configuration and in the file. -/
theorem gcDavConfigLoad_cancel {κ : Type} (config : GcDavConfig κ) (file : Option (List UInt8))
    (memory : Bool) : (gcDavConfigLoad config file memory).2.cancel = none ∧
      (gcDavConfigLoad config file memory).2.cancelOpaque = 0 := by
  have hzero : (GcDavConfig.zero κ).cancel = none ∧ (GcDavConfig.zero κ).cancelOpaque = 0 :=
    ⟨rfl, rfl⟩
  unfold gcDavConfigLoad
  cases file with
  | none => exact hzero
  | some content =>
      cases memory with
      | false => exact hzero
      | true =>
          simp only [Bool.true_eq_false, if_false]
          cases readLines 64 ⟨[], ascii "WebDAV", [], []⟩ content with
          | error e => exact hzero
          | ok s =>
              simp only
              cases hfinish : finish κ s with
              | error e => exact hzero
              | ok config =>
                  obtain ⟨-, -, -, -, -, -, hcancel⟩ := finish_ok hfinish
                  exact hcancel

/-! ## The base URL -/

/-- The URL `base` has the parts `u`, and a path that a file can be put behind. -/
structure BaseUrl (base : List UInt8) (u : GcHttpUrl) : Prop where
  path : PathText (urlPath base)
  query : 63 ∉ urlPath base
  last : (urlPath base).getLast? = some 47
  parse : ∀ p, PathText p → gcHttpParseUrl (urlFront base ++ p) =
    if 2048 ≤ p.length then none else some { u with path := p }

/-- Behind the authority of an accepted URL without a query there is its path, or nothing. -/
theorem urlPath_cases {s : List UInt8} {u : GcHttpUrl} (hparse : gcHttpParseUrl s = some u)
    (htls : u.tls = false) (hquery : 63 ∉ u.path) (hhash : 35 ∉ s) :
    urlPath s = [] ∨ (urlPath s = u.path ∧ PathText u.path) := by
  obtain ⟨hsafe, -, hhost⟩ := gcHttpParseUrl_http hparse htls
  obtain ⟨host, port, -, -, -, -, hpath⟩ := parseHost_cases hhost
  have hmem : ∀ c ∈ urlPath s, c ≠ 35 := by
    rintro c hc rfl
    exact hhash (List.mem_of_mem_drop ((List.dropWhile_suffix _).subset hc))
  have htake : (urlPath s).takeWhile (· != 35) = urlPath s :=
    takeWhile_of_not_mem fun h => hmem 35 h rfl
  have hpath' := parsePath_path hpath
  rw [show (s.drop 7).dropWhile inAuthority = urlPath s from rfl, htake] at hpath'
  rcases hrest : urlPath s with _ | ⟨c, rest⟩
  · exact Or.inl rfl
  rw [hrest] at hpath' hmem
  have hnot : inAuthority c = false := by
    have hhead := List.head?_dropWhile_not inAuthority (s.drop 7)
    rw [show (s.drop 7).dropWhile inAuthority = c :: rest from hrest] at hhead
    simpa using hhead
  -- the byte behind the authority is a slash, `?` or `#`, and the last two are refused
  have hslash : c = 47 := by
    by_contra hne
    simp only [inAuthority, Bool.and_eq_false_iff, bne_eq_false_iff_eq] at hnot
    rcases hnot with (hnot | rfl) | hnot
    · exact hne hnot
    · exact hquery (by rw [hpath']; simp)
    · exact hmem c List.mem_cons_self hnot
  subst hslash
  rw [List.headD_cons, if_pos rfl, List.nil_append] at hpath'
  have hclean := gcHttpParseUrl_clean hparse
  refine Or.inr ⟨hpath'.symm, hclean.path_start, fun d hd => ?_⟩
  obtain ⟨hlt, hne, hback⟩ := hclean.path d hd
  rw [hpath'] at hd
  exact ⟨hlt, hne, hback, hmem d hd⟩

/-- A slash behind a URL is a slash behind its path. -/
theorem urlPath_slash {s : List UInt8} (hlen : 7 ≤ s.length) :
    urlFront (s ++ [47]) = urlFront s ∧ urlPath (s ++ [47]) = urlPath s ++ [47] := by
  have hhead : ∀ c ∈ [(47 : UInt8)].head?, inAuthority c = false := by
    rintro _ ⟨⟩
    rfl
  obtain ⟨htake, hdrop⟩ := takeWhile_append_head hhead (s.drop 7)
  rw [urlFront, urlPath, List.take_append_of_le_length hlen, List.drop_append_of_le_length hlen,
    htake, hdrop]
  exact ⟨rfl, rfl⟩

/-- A URL that ends with a slash has one at the end of its path. -/
theorem getLast?_urlPath {s : List UInt8} {u : GcHttpUrl} (hparse : gcHttpParseUrl s = some u)
    (htls : u.tls = false) (hlast : s.getLast? = some 47) : (urlPath s).getLast? = some 47 := by
  obtain ⟨-, -, hhost⟩ := gcHttpParseUrl_http hparse htls
  rw [← urlFront_append_urlPath s, List.getLast?_append] at hlast
  rcases hrest : (urlPath s).getLast? with _ | c
  · -- without a path the last byte is one of the authority
    exfalso
    rw [hrest, Option.none_or, urlFront, List.getLast?_append,
      Option.or_of_isSome (List.getLast?_isSome.mpr (authority_ne_nil hhost))] at hlast
    have hauth := List.all_eq_true.mp List.all_takeWhile _ (List.mem_of_getLast? hlast)
    exact Bool.false_ne_true hauth
  · rwa [hrest, Option.some_or] at hlast

/-- The loader leaves a base URL. -/
theorem gcDavConfigLoad_url {κ : Type} {config c : GcDavConfig κ} {file : Option (List UInt8)}
    {memory : Bool} (h : gcDavConfigLoad config file memory = (.ok (), c)) :
    ∃ u, BaseUrl c.url u := by
  obtain ⟨s, hfinish⟩ := gcDavConfigLoad_ok h
  obtain ⟨u, hparse, htls, hquery, hhash, hurl, -⟩ := finish_ok hfinish
  obtain ⟨-, hhttp, -⟩ := gcHttpParseUrl_http hparse htls
  have hcases := urlPath_cases hparse htls hquery hhash
  have hstart : ∀ c ∈ (urlPath s.url).head?, c = 47 := by
    rcases hcases with hnil | ⟨hpath, htext⟩
    · rw [hnil]
      nofun
    · rw [hpath, htext.start]
      rintro _ ⟨⟩
      rfl
  -- Scheme, host and port are the text's own, so another path can stand behind them.
  have hparse' : ∀ p, PathText p → gcHttpParseUrl (urlFront s.url ++ p) =
      if 2048 ≤ p.length then none else some { u with path := p } :=
    fun p hp => gcHttpParseUrl_path hparse htls hstart hp
  refine ⟨u, ?_⟩
  -- the loader adds a slash if there is none
  by_cases hlast : s.url.getLast? = some 47
  · rw [if_pos hlast] at hurl
    rw [hurl]
    have hend := getLast?_urlPath hparse htls hlast
    rcases hcases with hnil | ⟨hpath, htext⟩
    · rw [hnil] at hend
      cases hend
    · exact ⟨hpath ▸ htext, hpath ▸ hquery, hend, hparse'⟩
  · rw [if_neg hlast] at hurl
    have hlen : 7 ≤ s.url.length := by
      have htake := length_take_of_startsNoCase hhttp
      rw [show (ascii "http://").length = 7 from rfl, List.length_take] at htake
      omega
    obtain ⟨hfront, hslash⟩ := urlPath_slash hlen
    rw [hurl]
    refine ⟨?_, ?_, ?_, ?_⟩
    · rw [hslash]
      rcases hcases with hnil | ⟨hpath, htext⟩
      · rw [hnil]
        exact pathText_singleton
      · rw [hpath]
        exact htext.append pathText_singleton.bytes
    · rw [hslash, List.mem_append, not_or]
      rcases hcases with hnil | ⟨hpath, -⟩
      · rw [hnil]
        exact ⟨List.not_mem_nil, by decide⟩
      · rw [hpath]
        exact ⟨hquery, by decide⟩
    · rw [hslash]
      exact List.getLast?_concat
    · rw [hfront]
      exact hparse'

end WiiMC.Dav
