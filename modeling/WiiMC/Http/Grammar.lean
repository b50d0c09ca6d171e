import Mathlib.Data.List.TakeWhile
import WiiMC.Http.Url

/-!
# The grammar of URLs

What `gc_http_parse_url` accepts, stated for the text as a whole and not for the search in it.

* `UrlForm`: a scheme, a host, a port and a path, one behind the other.
* `DigitPort`, `PaddedPort`: the ports with digits only, and those with blanks or a sign in front.
* `gcHttpParseUrl_eq_some_iff`: the strings that are accepted, and the parts that are found.
* `gcHttpParseUrl_text`: an accepted URL that is written out again has the same parts.
* `gcHttpParseUrl_grammar`: the client accepts the grammar, except for the padding of the port.
-/

namespace WiiMC.Http

open Bytes

/-- A scheme in any case. -/
def Scheme (t : List UInt8) (tls : Bool) : Prop :=
  (eqNoCase t (ascii "http://") = true ∧ tls = false) ∨
    (eqNoCase t (ascii "https://") = true ∧ tls = true)

/-- 1 to 255 letters, digits, dots and hyphens. -/
def HostForm (host : List UInt8) : Prop :=
  host ≠ [] ∧ host.length ≤ 255 ∧ ∀ c ∈ host, isAlnum c = true ∨ c = 46 ∨ c = 45

/-- No port, or a colon and decimal digits. -/
def DigitPort (t : List UInt8) (tls : Bool) (port : ℤ) : Prop :=
  (t = [] ∧ port = if tls then 443 else 80) ∨
    ∃ ds n, t = 58 :: ds ∧ Numeral ds n ∧ 1 ≤ n ∧ n ≤ 65535 ∧ port = n

/-- A colon and decimal digits, with blanks or a plus sign between them. -/
def PaddedPort (t : List UInt8) (_tls : Bool) (port : ℤ) : Prop :=
  ∃ k sign ds n, t = 58 :: (List.replicate k 32 ++ sign ++ ds) ∧ (sign = [] ∨ sign = [43]) ∧
    (k ≠ 0 ∨ sign ≠ []) ∧ Numeral ds n ∧ 1 ≤ n ∧ n ≤ 65535 ∧ port = n

/-- The text behind the port, and the path that it means: a slash is put in front if there is none,
and a fragment is left off. -/
def PathForm (rest path : List UInt8) : Prop :=
  (∀ c ∈ rest.head?, c = 47 ∨ c = 63 ∨ c = 35) ∧
    ∃ body fragment, rest = body ++ fragment ∧ 35 ∉ body ∧ (∀ c ∈ fragment.head?, c = 35) ∧
      path = (if body.head? = some 47 then body else 47 :: body) ∧
      path.length ≤ 2047 ∧ 32 ∉ path ∧ 92 ∉ path

/-- `s` is a URL with the parts `u`; `port` is the form of its port. -/
def UrlForm (port : List UInt8 → Bool → ℤ → Prop) (s : List UInt8) (u : GcHttpUrl) : Prop :=
  (∀ c ∈ s, 32 ≤ c ∧ c ≠ 127) ∧
    ∃ scheme t rest, s = scheme ++ (u.host ++ t ++ rest) ∧ Scheme scheme u.tls ∧
      HostForm u.host ∧ port t u.tls u.port ∧ PathForm rest u.path

/-- `u` as a text, with its port. -/
def GcHttpUrl.text (u : GcHttpUrl) : List UInt8 :=
  u.scheme ++ ascii "://" ++ u.host ++ ascii ":" ++ decimal u.port.toNat ++ u.path

variable {s t rest host : List UInt8} {port : ℤ} {tls : Bool} {u v : GcHttpUrl}

/-! ## Ports -/

/-- All of a text is read as a number if it is a numeral. -/
theorem scanDigits_eq_some_iff {n : ℕ} : scanDigits s = some (n, []) ↔ Numeral s n := by
  refine ⟨fun h => ?_, fun h => ?_⟩
  · rw [scanDigits] at h
    obtain ⟨hne, heq⟩ := Option.ite_none_left_eq_some.mp h
    obtain ⟨hval, hrest⟩ := Prod.mk.inj (Option.some.inj heq)
    have hall := List.dropWhile_eq_nil_iff.mp hrest
    rw [List.takeWhile_eq_self_iff.mpr hall] at hne hval
    exact ⟨hne, hall, hval⟩
  · have hscan := scanDigits_numeral (t := []) h fun c hc => by cases hc
    rwa [List.append_nil] at hscan

/-- Spaces in front of a number are skipped. -/
theorem scanInt_replicate (k : ℕ) (s : List UInt8) :
    scanInt (List.replicate k 32 ++ s) = scanInt s := by
  induction k with
  | zero => rfl
  | succ k ih => exact (scanInt_blank _).trans ih

/-- A text that starts with blanks or a sign is scanned like the digits behind them. -/
theorem scanInt_padded {k n : ℕ} {sign ds : List UInt8} (hsign : sign = [] ∨ sign = [43])
    (hds : Numeral ds n) : scanInt (List.replicate k 32 ++ sign ++ ds) = some ((n : ℤ), []) := by
  rw [List.append_assoc, scanInt_replicate]
  rcases hsign with rfl | rfl
  · have hscan := scanInt_numeral (t := []) hds nofun
    rwa [List.append_nil] at hscan
  · have hdrop : (43 :: ds).dropWhile isSpace = 43 :: ds := rfl
    rw [List.singleton_append, scanInt, hdrop]
    simp only [scanDigits_eq_some_iff.mpr hds, Option.map_some]

/-- What `strtol` reads to the end is a number, possibly behind blanks and a plus sign. -/
theorem scanInt_positive (hsafe : ∀ c ∈ t, 32 ≤ c) {z : ℤ} (hscan : scanInt t = some (z, []))
    (hz : 1 ≤ z) :
    ∃ k sign ds n, t = List.replicate k 32 ++ sign ++ ds ∧ (sign = [] ∨ sign = [43]) ∧
      Numeral ds n ∧ z = n := by
  have hblank : ∀ c ∈ t.takeWhile isSpace, c = 32 := by
    intro c hc
    have hspace : isSpace c = true := List.all_eq_true.mp List.all_takeWhile c hc
    have hlow := hsafe c ((List.takeWhile_prefix _).subset hc)
    rw [isSpace, Bool.or_eq_true, Bool.and_eq_true, beq_iff_eq, decide_eq_true_eq,
      decide_eq_true_eq] at hspace
    rcases hspace with heq | ⟨-, hhigh⟩
    · exact heq
    · exact absurd (UInt8.le_trans hlow hhigh) (by decide)
  have hsplit : t = List.replicate (t.takeWhile isSpace).length 32 ++ t.dropWhile isSpace := by
    rw [← List.eq_replicate_of_mem hblank, List.takeWhile_append_dropWhile]
  rw [scanInt] at hscan
  split at hscan
  · -- a number behind a minus sign is not positive
    obtain ⟨⟨n, w⟩, -, heq⟩ := Option.map_eq_some_iff.mp hscan
    obtain ⟨rfl, -⟩ := Prod.mk.inj heq
    simp only at hz
    omega
  · next ds hdrop =>
    obtain ⟨⟨n, w⟩, hdigits, heq⟩ := Option.map_eq_some_iff.mp hscan
    obtain ⟨rfl, rfl⟩ := Prod.mk.inj heq
    rw [hdrop] at hsplit
    exact ⟨_, [43], ds, n, by rw [List.append_assoc]; exact hsplit, .inr rfl,
      scanDigits_eq_some_iff.mp hdigits, rfl⟩
  · obtain ⟨⟨n, w⟩, hdigits, heq⟩ := Option.map_eq_some_iff.mp hscan
    obtain ⟨rfl, rfl⟩ := Prod.mk.inj heq
    exact ⟨_, [], _, n, by rw [List.append_nil]; exact hsplit, .inl rfl,
      scanDigits_eq_some_iff.mp hdigits, rfl⟩

/-- The number behind a colon, as the client reads it. -/
theorem scanInt_port_iff (hsafe : ∀ c ∈ t, 32 ≤ c) :
    (scanInt t = some (port, []) ∧ 1 ≤ port ∧ port ≤ 65535) ↔
      DigitPort (58 :: t) tls port ∨ PaddedPort (58 :: t) tls port := by
  refine ⟨fun ⟨hscan, hlow, hhigh⟩ => ?_, ?_⟩
  · obtain ⟨k, sign, ds, n, rfl, hsign, hds, rfl⟩ := scanInt_positive hsafe hscan hlow
    by_cases hpad : k ≠ 0 ∨ sign ≠ []
    · exact .inr ⟨k, sign, ds, n, rfl, hsign, hpad, hds, by omega, by omega, rfl⟩
    · rw [not_or, not_not, not_not] at hpad
      obtain ⟨rfl, rfl⟩ := hpad
      exact .inl (.inr ⟨ds, n, rfl, hds, by omega, by omega, rfl⟩)
  · rintro ((⟨⟨⟩, -⟩ | ⟨ds, n, heq, hds, hlow, hhigh, rfl⟩) |
      ⟨k, sign, ds, n, heq, hsign, -, hds, hlow, hhigh, rfl⟩)
    · obtain ⟨-, rfl⟩ := List.cons.inj heq
      exact ⟨scanInt_padded (k := 0) (.inl rfl) hds, by omega, by omega⟩
    · obtain ⟨-, rfl⟩ := List.cons.inj heq
      exact ⟨scanInt_padded hsign hds, by omega, by omega⟩

/-! ## Paths -/

/-- What follows the host ends the authority. -/
theorem pathForm_head (hform : PathForm rest host) : ∀ c ∈ rest.head?, inAuthority c = false :=
  fun c hc => inAuthority_eq_false_iff.mpr (hform.1 c hc)

/-- A text is divided at the start of its fragment. -/
theorem fragment_split (rest : List UInt8) :
    35 ∉ rest.takeWhile (· != 35) ∧ ∀ c ∈ (rest.dropWhile (· != 35)).head?, c = 35 := by
  refine ⟨fun hmem => ?_, fun c hc => ?_⟩
  · have hall : ∀ c ∈ rest.takeWhile (· != 35), (c != 35) = true :=
      List.all_eq_true.mp List.all_takeWhile
    exact absurd (hall 35 hmem) (by decide)
  · have hne := List.head?_dropWhile_not (· != 35) rest
    rw [hc] at hne
    simpa using hne

/-- The path of a text is what stands in front of its fragment. -/
theorem parsePath_eq_some_iff (hrest : ∀ c ∈ rest.head?, inAuthority c = false) :
    parsePath host port tls rest = some u ↔
      u.host = host ∧ u.port = port ∧ u.tls = tls ∧ PathForm rest u.path := by
  have hhead : ∀ c ∈ rest.head?, c = 47 ∨ c = 63 ∨ c = 35 := fun c hc =>
    inAuthority_eq_false_iff.mp (hrest c hc)
  -- only a text without a fragment in front starts with a slash
  have hslash : ∀ {body fragment : List UInt8}, rest = body ++ fragment →
      (∀ c ∈ fragment.head?, c = 35) → (rest.headD 0 = 47 ↔ body.head? = some 47) := by
    rintro body fragment rfl hfragment
    rw [List.headD_eq_head?_getD, List.head?_append]
    rcases body with _ | ⟨b, body⟩
    · rcases fragment with _ | ⟨f, fragment⟩
      · simp
      · rw [hfragment f rfl]
        simp
    · simp
  have hpaths : ∀ body : List UInt8, (if body.head? = some 47 then [] else [47]) ++ body =
      if body.head? = some 47 then body else 47 :: body := fun body => by
    split_ifs
    · rfl
    · rfl
  have hlen : ∀ a b : List UInt8, (a ++ b).length = b.length + a.length := fun a b => by
    rw [List.length_append, Nat.add_comm]
  rw [parsePath]
  simp only [← hlen]
  refine ⟨fun h => ?_, ?_⟩
  · obtain ⟨hlong, h⟩ := Option.ite_none_left_eq_some.mp h
    obtain ⟨hbad, ⟨⟩⟩ := Option.ite_none_left_eq_some.mp h
    rw [not_or] at hbad
    obtain ⟨hbody, hfragment⟩ := fragment_split rest
    have hsplit := (List.takeWhile_append_dropWhile (p := (· != 35)) (l := rest)).symm
    refine ⟨rfl, rfl, rfl, hhead, _, _, hsplit, hbody, hfragment, ?_, ?_, hbad.1, hbad.2⟩
    · rw [← hpaths]
      exact congrArg (· ++ _) (if_congr (hslash hsplit hfragment) rfl rfl)
    · exact Nat.lt_succ_iff.mp (Nat.not_le.mp hlong)
  · rintro ⟨rfl, rfl, rfl, -, body, fragment, rfl, hbody, hfragment, hpath, hshort, hblank, hback⟩
    have htake : (body ++ fragment).takeWhile (· != 35) = body := (span_of_not_mem hbody hfragment).1
    have hcond := hslash rfl hfragment
    simp only [htake, hcond, hpaths, ← hpath]
    rw [if_neg (by omega), if_neg (by rw [not_or]; exact ⟨hblank, hback⟩)]

/-! ## Hosts -/

/-- A host has no colon in it, and nothing that ends the authority. -/
theorem HostForm.bytes (h : HostForm host) {c : UInt8} (hc : c ∈ host) :
    inAuthority c = true ∧ c ≠ 58 :=
  forall_byte (p := fun c => (isAlnum c = true ∨ c = 46 ∨ c = 45) → inAuthority c = true ∧ c ≠ 58)
    (by decide +kernel) c (h.2.2 c hc)

/-- The two tests of the host. -/
theorem hostForm_iff : HostForm host ↔ ¬ (host = [] ∨ host.length ≥ 256) ∧
    (host.all fun c => isAlnum c || c == 46 || c == 45) = true := by
  rw [HostForm, not_or, List.all_eq_true, and_assoc]
  refine and_congr_right fun _ => and_congr (by omega) (forall₂_congr fun c _ => ?_)
  rw [Bool.or_eq_true, Bool.or_eq_true, beq_iff_eq, beq_iff_eq, or_assoc]

/-- An authority without a colon. -/
theorem parseHost_host (hauth : ∀ c ∈ host, inAuthority c = true) (hhost : 58 ∉ host)
    (hrest : ∀ c ∈ rest.head?, inAuthority c = false) :
    parseHost (host ++ rest) port tls = some u ↔
      HostForm host ∧ parsePath host port tls rest = some u := by
  have htake := takeWhile_of_not_mem hhost
  have hsplit : splitAt? 58 host = none := by
    rw [splitAt?, if_neg hhost]
  rw [parseHost, (span_append hauth hrest).1, (span_append hauth hrest).2, htake, hsplit,
    hostForm_iff]
  simp only [Option.ite_none_left_eq_some, not_not, and_assoc]

/-- An authority with a colon. -/
theorem parseHost_colon (hauth : ∀ c ∈ host ++ 58 :: t, inAuthority c = true) (hhost : 58 ∉ host)
    (hrest : ∀ c ∈ rest.head?, inAuthority c = false) :
    parseHost (host ++ 58 :: t ++ rest) port tls = some u ↔
      HostForm host ∧ ∃ port', (scanInt t = some (port', []) ∧ 1 ≤ port' ∧ port' ≤ 65535) ∧
        parsePath host port' tls rest = some u := by
  have hcolon : ∀ c ∈ (58 :: t).head?, c = 58 := fun _ hc => (Option.some.inj hc).symm
  have htake := (span_of_not_mem hhost hcolon).1
  rw [parseHost, (span_append hauth hrest).1, (span_append hauth hrest).2, htake,
    splitAt?_append hhost, hostForm_iff]
  simp only [scanInt_append fun c hc => inNumber_of_inAuthority (hrest c hc),
    Option.ite_none_left_eq_some, not_not, and_assoc]
  refine and_congr_right fun _ => and_congr_right fun _ => ?_
  rcases hscan : scanInt t with _ | ⟨port', w⟩
  · simp only [Option.map_none, reduceCtorEq, false_and, exists_false]
  · simp only [Option.map_some, Option.ite_none_left_eq_some, List.length_append]
    refine ⟨fun ⟨hok, hpath⟩ => ?_, ?_⟩
    · simp only [not_or, not_not, not_lt] at hok
      obtain rfl : w = [] := List.length_eq_zero_iff.mp (by omega)
      exact ⟨port', rfl, by omega, hok.2.2, hpath⟩
    · rintro ⟨port'', heq, hlow, hhigh, hpath⟩
      cases heq
      refine ⟨?_, hpath⟩
      rw [List.length_nil]
      omega

/-- A port is empty, or starts with a colon. -/
theorem port_cases (hport : DigitPort t tls port ∨ PaddedPort t tls port) :
    (t = [] ∧ port = if tls then 443 else 80) ∨ ∃ ds, t = 58 :: ds := by
  rcases hport with (hnone | ⟨ds, n, rfl, -⟩) | ⟨k, sign, ds, n, rfl, -⟩
  · exact .inl hnone
  · exact .inr ⟨_, rfl⟩
  · exact .inr ⟨_, rfl⟩

/-- The authority of a URL is a host and a port. -/
theorem parseHost_eq_some_iff {a : List UInt8} (hauth : ∀ c ∈ a, inAuthority c = true)
    (hsafe : ∀ c ∈ a, 32 ≤ c) (hrest : ∀ c ∈ rest.head?, inAuthority c = false) :
    parseHost (a ++ rest) (if tls then 443 else 80) tls = some u ↔
      ∃ t, a = u.host ++ t ∧ u.tls = tls ∧ HostForm u.host ∧
        (DigitPort t tls u.port ∨ PaddedPort t tls u.port) ∧ PathForm rest u.path := by
  by_cases hcolon : 58 ∈ a
  · obtain ⟨host, t, rfl, hhost⟩ := List.eq_append_cons_of_mem hcolon
    rw [parseHost_colon hauth hhost hrest]
    simp only [parsePath_eq_some_iff hrest]
    have hdigits : ∀ c ∈ t, 32 ≤ c := fun c hc =>
      hsafe c (List.mem_append_right _ (List.mem_cons_of_mem _ hc))
    refine ⟨?_, ?_⟩
    · rintro ⟨hform, port', hport, rfl, rfl, htls, hpath⟩
      exact ⟨58 :: t, rfl, htls, hform, (scanInt_port_iff hdigits).mp hport, hpath⟩
    · rintro ⟨t', heq, htls, hform, hport, hpath⟩
      have hnot : 58 ∉ u.host := fun hc => (hform.bytes hc).2 rfl
      -- the first colon is the one behind the host
      rcases port_cases hport with ⟨rfl, -⟩ | ⟨ds, rfl⟩
      · rw [List.append_nil] at heq
        rw [heq] at hcolon
        exact absurd hcolon hnot
      have hsplit := splitAt?_append hhost t
      rw [heq, splitAt?_append hnot] at hsplit
      obtain ⟨rfl, rfl⟩ := Prod.mk.inj (Option.some.inj hsplit)
      exact ⟨hform, u.port, (scanInt_port_iff hdigits).mpr hport, rfl, rfl, htls, hpath⟩
  · rw [parseHost_host hauth hcolon hrest, parsePath_eq_some_iff hrest]
    refine ⟨?_, ?_⟩
    · rintro ⟨hform, rfl, hport, htls, hpath⟩
      exact ⟨[], (List.append_nil _).symm, htls, hform, .inl (.inl ⟨rfl, hport⟩), hpath⟩
    · rintro ⟨t, rfl, htls, hform, hport, hpath⟩
      rcases port_cases hport with ⟨rfl, hdefault⟩ | ⟨ds, rfl⟩
      · rw [List.append_nil]
        exact ⟨hform, rfl, hdefault, htls, hpath⟩
      · exact absurd (List.mem_append_right _ List.mem_cons_self) hcolon

/-- What belongs to the port belongs to the authority. -/
theorem inAuthority_of_inNumber {c : UInt8} (h : inNumber c = true) : inAuthority c = true := by
  by_contra hno
  rw [inNumber_of_inAuthority (Bool.not_eq_true _ ▸ hno)] at h
  cases h

/-- A port does not reach into the path. -/
theorem port_inAuthority (hport : DigitPort t tls port ∨ PaddedPort t tls port) :
    ∀ c ∈ t, inAuthority c = true := by
  have hdigits : ∀ {ds : List UInt8} {n : ℕ}, Numeral ds n → ∀ c ∈ ds, inAuthority c = true := by
    intro ds n hds c hc
    refine inAuthority_of_inNumber ?_
    rw [inNumber, hds.digits c hc, Bool.or_true, Bool.true_or, Bool.true_or]
  rcases hport with (⟨rfl, -⟩ | ⟨ds, n, rfl, hds, -⟩) | ⟨k, sign, ds, n, rfl, hsign, -, hds, -⟩
  · intro c hc
    cases hc
  · exact List.forall_mem_cons.mpr ⟨by decide, hdigits hds⟩
  · refine List.forall_mem_cons.mpr ⟨by decide, fun c hc => ?_⟩
    rcases List.mem_append.mp hc with hc | hc
    · rcases List.mem_append.mp hc with hc | hc
      · rw [List.eq_of_mem_replicate hc]
        rfl
      · rcases hsign with rfl | rfl
        · cases hc
        · rw [List.mem_singleton.mp hc]
          rfl
    · exact hdigits hds c hc

/-! ## The whole text -/

/-- A text starts with a prefix in any case. -/
theorem startsNoCase_append {p : List UInt8} (h : eqNoCase s p = true) (t : List UInt8) :
    startsNoCase (s ++ t) p = true ∧ (s ++ t).drop p.length = t := by
  have hlen : s.length = p.length := by
    have hmap := congrArg List.length (beq_iff_eq.mp h)
    rwa [List.length_map, List.length_map] at hmap
  rw [startsNoCase, ← hlen, List.take_left, List.drop_left]
  exact ⟨h, rfl⟩

/-- A text that starts with `https://` does not start with `http://`. -/
theorem not_startsNoCase_https (h : eqNoCase s (ascii "https://") = true) (t : List UInt8) :
    ¬ startsNoCase (s ++ t) (ascii "http://") = true := by
  have hlower := beq_iff_eq.mp h
  have hlen : s.length = 8 := by
    have hmap := congrArg List.length hlower
    rwa [List.length_map, List.length_map] at hmap
  have hseven : (ascii "http://").length = 7 := rfl
  intro hstarts
  -- the fifth byte is an `s`, and no colon
  rw [startsNoCase, hseven, List.take_append_of_le_length (by omega), eqNoCase, beq_iff_eq,
    List.map_take, hlower] at hstarts
  exact absurd hstarts (by decide)

/-- The scheme decides on the default of the port. -/
theorem gcHttpParseUrl_scheme {scheme : List UInt8} (hscheme : Scheme scheme tls)
    (t : List UInt8) : gcHttpParseUrl (scheme ++ t) =
      if safeText (scheme ++ t) = true then parseHost t (if tls then 443 else 80) tls else none := by
  rw [gcHttpParseUrl, ite_not]
  refine if_congr Iff.rfl ?_ rfl
  rcases hscheme with ⟨hhttp, rfl⟩ | ⟨hhttps, rfl⟩
  · obtain ⟨hstarts, hdrop⟩ := startsNoCase_append hhttp t
    have hseven : (scheme ++ t).drop 7 = t := hdrop
    rw [if_pos hstarts, hseven]
    rfl
  · obtain ⟨hstarts, hdrop⟩ := startsNoCase_append hhttps t
    have height : (scheme ++ t).drop 8 = t := hdrop
    rw [if_neg (not_startsNoCase_https hhttps _), if_pos hstarts, height]
    rfl

/-- A port of either kind is what the client reads. -/
theorem urlForm_or : UrlForm DigitPort s u ∨ UrlForm PaddedPort s u ↔
    UrlForm (fun t tls port => DigitPort t tls port ∨ PaddedPort t tls port) s u := by
  refine ⟨?_, ?_⟩
  · rintro (⟨hsafe, scheme, t, rest, hs, hscheme, hhost, hport, hpath⟩ |
      ⟨hsafe, scheme, t, rest, hs, hscheme, hhost, hport, hpath⟩)
    · exact ⟨hsafe, scheme, t, rest, hs, hscheme, hhost, .inl hport, hpath⟩
    · exact ⟨hsafe, scheme, t, rest, hs, hscheme, hhost, .inr hport, hpath⟩
  · rintro ⟨hsafe, scheme, t, rest, hs, hscheme, hhost, hport | hport, hpath⟩
    · exact .inl ⟨hsafe, scheme, t, rest, hs, hscheme, hhost, hport, hpath⟩
    · exact .inr ⟨hsafe, scheme, t, rest, hs, hscheme, hhost, hport, hpath⟩

/-- What is parsed behind a scheme. -/
theorem parseHost_scheme (tls : Bool) (hsafe : ∀ c ∈ s, 32 ≤ c) :
    parseHost s (if tls then 443 else 80) tls = some u ↔
      ∃ t rest, s = u.host ++ t ++ rest ∧ u.tls = tls ∧ HostForm u.host ∧
        (DigitPort t tls u.port ∨ PaddedPort t tls u.port) ∧ PathForm rest u.path := by
  have hauth : ∀ c ∈ s.takeWhile inAuthority, inAuthority c = true :=
    List.all_eq_true.mp List.all_takeWhile
  have hrest : ∀ c ∈ (s.dropWhile inAuthority).head?, inAuthority c = false := by
    intro c hc
    have hne := List.head?_dropWhile_not inAuthority s
    rw [hc] at hne
    exact hne
  have hsplit := (List.takeWhile_append_dropWhile (p := inAuthority) (l := s)).symm
  refine ⟨fun h => ?_, ?_⟩
  · rw [hsplit, parseHost_eq_some_iff hauth
      (fun c hc => hsafe c ((List.takeWhile_prefix _).subset hc)) hrest] at h
    obtain ⟨t, ha, htls, hhost, hport, hpath⟩ := h
    exact ⟨t, _, ha ▸ hsplit, htls, hhost, hport, hpath⟩
  · rintro ⟨t, rest, rfl, htls, hhost, hport, hpath⟩
    refine (parseHost_eq_some_iff ?_ (fun c hc => hsafe c (List.mem_append_left _ hc))
      (pathForm_head hpath)).mpr ⟨t, rfl, htls, hhost, hport, hpath⟩
    intro c hc
    rcases List.mem_append.mp hc with hc | hc
    · exact (hhost.bytes hc).1
    · exact port_inAuthority hport c hc

/-- The strings that are accepted, and the parts that are found. -/
theorem gcHttpParseUrl_eq_some_iff :
    gcHttpParseUrl s = some u ↔ UrlForm DigitPort s u ∨ UrlForm PaddedPort s u := by
  rw [urlForm_or, UrlForm, ← safeText_iff]
  refine ⟨fun h => ?_, ?_⟩
  · unfold gcHttpParseUrl at h
    obtain ⟨hsafe, h⟩ := Option.ite_none_left_eq_some.mp h
    rw [not_not] at hsafe
    have hbytes : ∀ n, ∀ c ∈ s.drop n, 32 ≤ c := fun n c hc =>
      (safeText_mem hsafe (List.mem_of_mem_drop hc)).1
    refine ⟨hsafe, ?_⟩
    split_ifs at h with hhttp hhttps
    · obtain ⟨t, rest, hs, htls, hform⟩ := (parseHost_scheme false (hbytes 7)).mp h
      rw [← htls] at hform
      refine ⟨s.take 7, t, rest, ?_, .inl ⟨hhttp, htls⟩, hform⟩
      rw [← hs, List.take_append_drop]
    · obtain ⟨t, rest, hs, htls, hform⟩ := (parseHost_scheme true (hbytes 8)).mp h
      rw [← htls] at hform
      refine ⟨s.take 8, t, rest, ?_, .inr ⟨hhttps, htls⟩, hform⟩
      rw [← hs, List.take_append_drop]
  · rintro ⟨hsafe, scheme, t, rest, rfl, hscheme, hform⟩
    have hbytes : ∀ c ∈ u.host ++ t ++ rest, 32 ≤ c := fun c hc =>
      (safeText_mem hsafe (List.mem_append_right _ hc)).1
    rw [gcHttpParseUrl_scheme hscheme, if_pos hsafe, parseHost_scheme u.tls hbytes]
    exact ⟨t, rest, rfl, rfl, hform⟩

/-! ## URLs that are written out -/

/-- What stands in front of the path when `u` is written out. -/
def GcHttpUrl.origin (u : GcHttpUrl) : List UInt8 :=
  u.scheme ++ ascii "://" ++ u.host ++ ascii ":" ++ decimal u.port.toNat

/-- The scheme of a URL is in form. -/
theorem GcHttpUrl.scheme_form (u : GcHttpUrl) : Scheme (u.scheme ++ ascii "://") u.tls := by
  rw [GcHttpUrl.scheme]
  cases u.tls with
  | false => exact .inl ⟨by decide, rfl⟩
  | true => exact .inr ⟨by decide, rfl⟩

/-- The host of a clean URL is in form. -/
theorem GcHttpUrl.Clean.hostForm (hclean : u.Clean) (hbounded : u.Bounded) : HostForm u.host :=
  ⟨hclean.host_ne, Nat.lt_succ_iff.mp hbounded.host, hclean.host⟩

/-- Behind the origin of a URL another path is parsed. -/
theorem gcHttpParseUrl_origin (hclean : u.Clean) (hbounded : u.Bounded) {p : List UInt8}
    (hp : ∀ c ∈ p.head?, inAuthority c = false) :
    gcHttpParseUrl (u.origin ++ p) =
      if safeText p = true then parsePath u.host u.port u.tls p else none := by
  have hform := hclean.hostForm hbounded
  obtain ⟨n, hn⟩ := Int.eq_ofNat_of_zero_le hbounded.port.1.le
  have hport := hbounded.port
  have hscan : scanInt (decimal u.port.toNat) = some (u.port, []) := by
    rw [hn]
    exact scanInt_padded (k := 0) (.inl rfl) (numeral_decimal n)
  have hnot : 58 ∉ u.host := fun hc => (hform.bytes hc).2 rfl
  -- Host and port are bytes of an authority, so the scan stops at the path.
  have hauth : ∀ c ∈ u.host ++ 58 :: decimal u.port.toNat, inAuthority c = true := by
    intro c hc
    rcases List.mem_append.mp hc with hc | hc
    · exact (hform.bytes hc).1
    · rcases List.mem_cons.mp hc with rfl | hc
      · rfl
      · refine inAuthority_of_inNumber ?_
        rw [inNumber, isDigit_of_mem_decimal hc, Bool.or_true, Bool.true_or, Bool.true_or]
  have hscheme : safeText u.scheme = true := by
    rw [GcHttpUrl.scheme]
    split_ifs
    · rfl
    · rfl
  have hsafe : safeText (u.origin ++ p) = safeText p := by
    have hmarks : safeText (ascii "://") = true ∧ safeText (ascii ":") = true := by decide
    simp only [GcHttpUrl.origin, safeText_append, hscheme, hmarks, hclean.safeText_host,
      safeText_decimal, Bool.true_and]
  have hsplit : u.origin ++ p =
      (u.scheme ++ ascii "://") ++ (u.host ++ 58 :: decimal u.port.toNat ++ p) := by
    simp only [GcHttpUrl.origin, List.append_assoc]
    rfl
  rw [hsplit, gcHttpParseUrl_scheme u.scheme_form, ← hsplit, hsafe]
  refine if_congr Iff.rfl (Option.ext fun v => ?_) rfl
  rw [parseHost_colon hauth hnot hp, hscan]
  refine ⟨?_, fun hpath => ⟨hform, u.port, ⟨rfl, hport.1, hport.2⟩, hpath⟩⟩
  rintro ⟨-, port', ⟨heq, -, -⟩, hpath⟩
  cases heq
  exact hpath

/-- The path of a URL is its own form. -/
theorem pathForm_self (hform : PathForm rest u.path) : PathForm u.path u.path := by
  obtain ⟨-, body, fragment, -, hbody, -, hpath, hshort, hblank, hback⟩ := hform
  have hstart : u.path.head? = some 47 := by
    rw [hpath]
    split_ifs with hhead
    · exact hhead
    · rfl
  have hno : 35 ∉ u.path := by
    rw [hpath]
    split_ifs
    · exact hbody
    · rw [List.mem_cons, not_or]
      exact ⟨by decide, hbody⟩
  refine ⟨fun c hc => ?_, u.path, [], (List.append_nil _).symm, hno, nofun, ?_, hshort, hblank,
    hback⟩
  · rw [hstart] at hc
    cases hc
    exact .inl rfl
  · rw [if_pos hstart]

/-- The path of a URL that is parsed is in form. -/
theorem gcHttpParseUrl_pathForm (hparse : gcHttpParseUrl s = some u) : PathForm u.path u.path := by
  rcases gcHttpParseUrl_eq_some_iff.mp hparse with ⟨-, _, _, _, -, -, -, -, hpath⟩ |
    ⟨-, _, _, _, -, -, -, -, hpath⟩
  · exact pathForm_self hpath
  · exact pathForm_self hpath

/-- An accepted URL that is written out again has the same parts. -/
theorem gcHttpParseUrl_text (hparse : gcHttpParseUrl s = some u) :
    gcHttpParseUrl u.text = some u := by
  have hclean := gcHttpParseUrl_clean hparse
  have hform := gcHttpParseUrl_pathForm hparse
  change gcHttpParseUrl (u.origin ++ u.path) = some u
  rw [gcHttpParseUrl_origin hclean (gcHttpParseUrl_bounds hparse) (pathForm_head hform),
    if_pos hclean.safeText_path, parsePath_eq_some_iff (pathForm_head hform)]
  exact ⟨rfl, rfl, rfl, hform⟩

/-- The schemes have seven and eight characters. -/
theorem length_scheme (hscheme : Scheme t tls) : t.length = if tls then 8 else 7 := by
  have hlen : ∀ {p : List UInt8}, eqNoCase t p = true → t.length = p.length := fun h => by
    have hmap := congrArg List.length (beq_iff_eq.mp h)
    rwa [List.length_map, List.length_map] at hmap
  rcases hscheme with ⟨hhttp, rfl⟩ | ⟨hhttps, rfl⟩
  · exact hlen hhttp
  · exact hlen hhttps

/-- A port with padding is none of digits only. -/
theorem DigitPort.not_padded (hdigit : DigitPort t tls port) : ¬ PaddedPort t tls port := by
  rintro ⟨k, sign, ds, n, rfl, hsign, hpad, -⟩
  rcases hdigit with ⟨⟨⟩, -⟩ | ⟨ds', n', heq, hds', -⟩
  obtain ⟨-, rfl⟩ := List.cons.inj heq
  rcases hpad with hk | hne
  · have hblank : (32 : UInt8) ∈ List.replicate k 32 ++ sign ++ ds :=
      List.mem_append_left _ (List.mem_append_left _ (List.mem_replicate.mpr ⟨hk, rfl⟩))
    exact absurd (hds'.digits 32 hblank) (by decide)
  · rw [hsign.resolve_left hne] at hds'
    have hplus : (43 : UInt8) ∈ List.replicate k 32 ++ [43] ++ ds :=
      List.mem_append_left _ (List.mem_append_right _ List.mem_cons_self)
    exact absurd (hds'.digits 43 hplus) (by decide)

/-- A string has a scheme, an authority and a path in one way only. -/
theorem not_digit_padded (hdigit : UrlForm DigitPort s u) : ¬ UrlForm PaddedPort s u := by
  obtain ⟨-, scheme, t, rest, rfl, hscheme, -, hport, hpath⟩ := hdigit
  rintro ⟨-, scheme', t', rest', heq, hscheme', -, hport', hpath'⟩
  have hlen : scheme.length = scheme'.length := by
    rw [length_scheme hscheme, length_scheme hscheme']
  obtain ⟨rfl, hbehind⟩ := List.append_inj heq hlen
  rw [List.append_assoc, List.append_assoc] at hbehind
  have hcut := congrArg (List.takeWhile inAuthority) (List.append_cancel_left hbehind)
  rw [(span_append (port_inAuthority (.inl hport)) (pathForm_head hpath)).1,
    (span_append (port_inAuthority (.inr hport')) (pathForm_head hpath')).1] at hcut
  subst hcut
  exact hport.not_padded hport'

/-- The client accepts the grammar, and what it finds can be written out and parsed again, exactly
if the string is not one with padding in front of the digits of its port. -/
theorem gcHttpParseUrl_grammar (s : List UInt8) :
    ((∀ u, gcHttpParseUrl s = some u ↔ UrlForm DigitPort s u) ∧
      ∀ u, gcHttpParseUrl s = some u → gcHttpParseUrl u.text = some u) ↔
      ∀ u, ¬ UrlForm PaddedPort s u := by
  refine ⟨fun ⟨hiff, _⟩ u hpadded => ?_, fun hno => ⟨fun u => ?_, fun u => gcHttpParseUrl_text⟩⟩
  · exact not_digit_padded ((hiff u).mp (gcHttpParseUrl_eq_some_iff.mpr (.inr hpadded))) hpadded
  · rw [gcHttpParseUrl_eq_some_iff, or_iff_left (hno u)]

/-- A sign in front of the digits of a port is accepted. -/
theorem gcHttpParseUrl_padded :
    ¬ ∀ s u, gcHttpParseUrl s = some u ↔ UrlForm DigitPort s u := by
  intro hiff
  have hparse : gcHttpParseUrl (ascii "http://host:+80/") =
      some ⟨ascii "host", ascii "/", 80, false⟩ := by decide +kernel
  refine not_digit_padded ((hiff _ _).mp hparse) ⟨by decide +kernel, ascii "http://",
    ascii ":+80", ascii "/", by decide, .inl ⟨by decide, rfl⟩, ?_, ?_, ?_⟩
  · exact ⟨by decide, by decide, by decide +kernel⟩
  · exact ⟨0, [43], ascii "80", 80, by decide, .inr rfl, .inr (by decide),
      .of_all (by decide) (by decide) (by decide), by decide, by decide, rfl⟩
  · refine ⟨by rintro _ ⟨⟩; exact .inl rfl, ascii "/", [], by decide, by decide, nofun, by decide,
      by decide, by decide, by decide⟩

end WiiMC.Http
