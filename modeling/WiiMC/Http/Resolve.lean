import Mathlib.Data.List.Infix
import WiiMC.Http.Grammar

/-!
# Resolving a reference

The text that a reference means next to the URL of the document it stands in, compared with what
`gc_http_resolve_url` writes.

* `referenceText`: the resolution of a reference, by what it starts with.
* `resolveText_eq_iff`: where the client writes this text.
* `gcHttpResolveUrl_iff`: the client resolves the references that do not have a `://` further
  behind, and no fragments, but for a path that ends with a slash.
-/

namespace WiiMC.Http

open Bytes

/-- A byte of a scheme. -/
def schemeByte (c : UInt8) : Bool := isAlnum c || c == 43 || c == 45 || c == 46

/-- The reference starts with a scheme and `://`. -/
def startsScheme (loc : List UInt8) : Bool :=
  (isUpper (loc.headD 0) || isLower (loc.headD 0)) &&
    (ascii "://").isPrefixOf (loc.dropWhile schemeByte)

/-- The reference names an authority of its own. -/
def ownAuthority (loc : List UInt8) : Bool := startsScheme loc || (ascii "//").isPrefixOf loc

/-- The part of the base's path that is kept in front of a reference without an authority. -/
def referencePath (path loc : List UInt8) : List UInt8 :=
  if loc.headD 0 = 47 then []
  else if loc.headD 0 = 63 then path.takeWhile (· != 63)
  else if loc.headD 0 = 35 then path
  else throughLast 47 (path.takeWhile (· != 63))

/-- What a reference means in a document with the URL `u`. -/
def referenceText (u : GcHttpUrl) (loc : List UInt8) : List UInt8 :=
  if startsScheme loc then loc
  else if (ascii "//").isPrefixOf loc then u.scheme ++ ascii ":" ++ loc
  else u.origin ++ (referencePath u.path loc ++ loc)

/-- What comes of a text that has to be a URL and to fit a buffer. -/
def written (t : List UInt8) (cap : ℕ) (memory : Bool) : Option (List UInt8) :=
  if memory = true ∧ t.length < cap ∧ (gcHttpParseUrl t).isSome = true then some t else none

variable {κ : Type} {s t loc base : List UInt8} {u v : GcHttpUrl}

/-! ## Schemes -/

theorem toLower_facts (c : UInt8) : (toLower c = 58 → c = 58) ∧ (toLower c = 47 → c = 47) ∧
    (isLower (toLower c) = true → schemeByte c = true ∧ (isUpper c || isLower c) = true) :=
  forall_byte (p := fun c => (toLower c = 58 → c = 58) ∧ (toLower c = 47 → c = 47) ∧
    (isLower (toLower c) = true → schemeByte c = true ∧ (isUpper c || isLower c) = true))
    (by decide +kernel) c

/-- A name of letters and `://` behind it start with a scheme. -/
theorem startsScheme_append {name : List UInt8} (hne : name ≠ [])
    (hname : ∀ c ∈ name, isLower (toLower c) = true) (t : List UInt8) :
    startsScheme (name ++ (ascii "://" ++ t)) = true := by
  obtain ⟨c, cs, rfl⟩ := List.exists_cons_of_ne_nil hne
  have hdrop : (c :: cs ++ (ascii "://" ++ t)).dropWhile schemeByte = ascii "://" ++ t := by
    rw [List.dropWhile_append_of_pos fun d hd => ((toLower_facts d).2.2 (hname d hd)).1]
    rfl
  rw [startsScheme, hdrop, Bool.and_eq_true, List.isPrefixOf_iff_prefix]
  exact ⟨((toLower_facts c).2.2 (hname c List.mem_cons_self)).2, List.prefix_append _ _⟩

/-- A text that is `://` after a name, in any case. -/
theorem map_toLower_scheme {name : List UInt8} (h : s.map toLower = name ++ ascii "://") :
    ∃ n, s = n ++ ascii "://" ∧ n.map toLower = name := by
  obtain ⟨n, mark, rfl, hn, hmark⟩ := List.map_eq_append_iff.mp h
  refine ⟨n, ?_, hn⟩
  obtain ⟨a, mark, rfl, ha, hmark⟩ := List.map_eq_cons_iff.mp hmark
  obtain ⟨b, mark, rfl, hb, hmark⟩ := List.map_eq_cons_iff.mp hmark
  obtain ⟨c, mark, rfl, hc, hmark⟩ := List.map_eq_cons_iff.mp hmark
  rw [List.map_eq_nil_iff.mp hmark, (toLower_facts a).1 ha, (toLower_facts b).2.1 hb,
    (toLower_facts c).2.1 hc]
  rfl

theorem Scheme.startsScheme {tls : Bool} (hscheme : Scheme s tls) (t : List UInt8) :
    startsScheme (s ++ t) = true := by
  have hname : ∃ name, name ≠ [] ∧ (∀ c ∈ name, isLower c = true) ∧
      s.map toLower = name ++ ascii "://" := by
    rcases hscheme with ⟨hhttp, -⟩ | ⟨hhttps, -⟩
    · exact ⟨ascii "http", by decide, by decide +kernel, beq_iff_eq.mp hhttp⟩
    · exact ⟨ascii "https", by decide, by decide +kernel, beq_iff_eq.mp hhttps⟩
  obtain ⟨name, hne, hlower, hmap⟩ := hname
  obtain ⟨n, rfl, rfl⟩ := map_toLower_scheme hmap
  rw [List.append_assoc]
  refine startsScheme_append (fun hnil => hne (by rw [hnil]; rfl)) (fun c hc => ?_) t
  exact hlower _ (List.mem_map_of_mem hc)

/-- What is a URL starts with a scheme. -/
theorem startsScheme_of_parse (hparse : gcHttpParseUrl s = some u) : startsScheme s = true := by
  rcases gcHttpParseUrl_eq_some_iff.mp hparse with ⟨-, scheme, t, rest, rfl, hscheme, -⟩ |
    ⟨-, scheme, t, rest, rfl, hscheme, -⟩
  · exact hscheme.startsScheme _
  · exact hscheme.startsScheme _

/-- A scheme at the start is found by `strstr`. -/
theorem contains_of_startsScheme (h : startsScheme loc = true) :
    contains loc (ascii "://") = true := by
  rw [startsScheme, Bool.and_eq_true] at h
  rw [contains, List.any_eq_true]
  exact ⟨_, (List.mem_tails _ _).mpr (List.dropWhile_suffix _), h.2⟩

/-! ## The text that is written -/

/-- A reference without an authority is put behind the origin of the base. -/
theorem referenceText_relative (hown : ownAuthority loc = false) :
    referenceText u loc = u.origin ++ (referencePath u.path loc ++ loc) := by
  rw [ownAuthority, Bool.or_eq_false_iff] at hown
  rw [referenceText, hown.1, hown.2]
  rfl

theorem resolveText_of_contains (h : contains loc (ascii "://") = true) :
    resolveText u loc = loc := by
  rw [resolveText, if_pos h]

/-- What ends with the last slash is a start of the path. -/
theorem throughLast_head {p : List UInt8} (hp : p.head? = some 47) :
    (throughLast 47 p).head? = some 47 := by
  have hmem : (47 : UInt8) ∈ p := List.mem_of_mem_head? hp
  have hne : p.reverse.dropWhile (· != 47) ≠ [] := by
    intro hnil
    have hall := List.dropWhile_eq_nil_iff.mp hnil 47 (List.mem_reverse.mpr hmem)
    exact absurd hall (by decide)
  obtain ⟨t, ht⟩ := List.dropWhile_suffix (l := p.reverse) (· != 47)
  have hbegins : p = (p.reverse.dropWhile (· != 47)).reverse ++ t.reverse := by
    rw [← List.reverse_append, ht, List.reverse_reverse]
  rw [throughLast, if_pos hmem]
  rw [hbegins, List.head?_append_of_ne_nil _ (List.reverse_ne_nil_iff.mpr hne)] at hp
  exact hp

theorem takeWhile_head {p : List UInt8} (hp : p.head? = some 47) :
    (p.takeWhile (· != 63)).head? = some 47 := by
  obtain ⟨t, rfl⟩ := List.head?_eq_some_iff.mp hp
  rfl

/-- What is put behind the origin starts with a slash. -/
theorem reference_head (hpath : u.path.head? = some 47) :
    (referencePath u.path loc ++ loc).head? = some 47 ∧
      (resolvePath u.path loc ++ loc).head? = some 47 := by
  have hfront : ∀ {p : List UInt8}, p.head? = some 47 → (p ++ loc).head? = some 47 := by
    intro p hp
    rw [List.head?_append, hp]
    rfl
  have hslash : loc.headD 0 = 47 → ([] ++ loc).head? = some 47 := by
    intro heq
    cases loc with
    | nil => cases heq
    | cons c loc => exact congrArg some heq
  have hquery := takeWhile_head hpath
  rw [referencePath, resolvePath]
  refine ⟨?_, ?_⟩
  · split_ifs with h47 h63 h35
    · exact hslash h47
    · exact hfront hquery
    · exact hfront hpath
    · exact hfront (throughLast_head hquery)
  · split_ifs with h47 h63
    · exact hslash h47
    · exact hfront hquery
    · exact hfront (throughLast_head hquery)

/-- Behind an origin the URL has that origin. -/
theorem parse_origin (hbase : gcHttpParseUrl base = some u) {p : List UInt8}
    (hp : p.head? = some 47) (hparse : gcHttpParseUrl (u.origin ++ p) = some v) :
    v.host = u.host ∧ v.port = u.port ∧ v.tls = u.tls := by
  have hstart : ∀ c ∈ p.head?, inAuthority c = false := fun c hc => by
    rw [hp] at hc
    cases hc
    rfl
  rw [gcHttpParseUrl_origin (gcHttpParseUrl_clean hbase) (gcHttpParseUrl_bounds hbase) hstart]
    at hparse
  exact parsePath_origin (Option.ite_none_right_eq_some.mp hparse).2

/-- The result of `gc_http_resolve_url`. -/
theorem gcHttpResolveUrl_eq (hbase : gcHttpParseUrl base = some u) (hne : loc ≠ [])
    (hsafe : safeText loc = true) (cap : ℕ) (net : Net κ) :
    (gcHttpResolveUrl base loc cap net).1 = written (resolveText u loc) cap net.alloc.1 := by
  rw [gcHttpResolveUrl, written]
  rcases net.alloc with ⟨_ | _, net'⟩
  · rw [if_neg (fun h => Bool.false_ne_true h.1)]
  · have hok : ¬ (loc = [] ∨ ¬ safeText loc = true) := by
      rw [not_or, not_not]
      exact ⟨hne, hsafe⟩
    simp only [if_neg hok, hbase, ge_iff_le, true_and]
    rcases hparse : gcHttpParseUrl (resolveText u loc) with _ | v
    · rw [if_pos (.inr rfl), if_neg (fun h => Bool.false_ne_true h.2)]
    · by_cases hfits : (resolveText u loc).length < cap
      · rw [if_neg (by simpa using hfits), if_pos ⟨hfits, rfl⟩]
      · rw [if_pos (.inl (not_lt.mp hfits)), if_neg fun h => hfits h.1]

/-! ## References that are resolved -/

/-- Two texts come to the same if they are equal, or if neither is a URL. -/
theorem written_eq_iff : (∀ cap memory, written s cap memory = written t cap memory) ↔
    s = t ∨ (gcHttpParseUrl s = none ∧ gcHttpParseUrl t = none) := by
  have hsome : ∀ {t : List UInt8} {cap : ℕ}, t.length < cap → (gcHttpParseUrl t).isSome = true →
      written t cap true = some t := fun hcap hparse => by
    rw [written, if_pos ⟨rfl, hcap, hparse⟩]
  have hnone : ∀ {t : List UInt8} (cap : ℕ) (memory : Bool), gcHttpParseUrl t = none →
      written t cap memory = none := fun cap memory hparse => by
    rw [written, if_neg]
    rintro ⟨-, -, hcontra⟩
    rw [hparse] at hcontra
    cases hcontra
  refine ⟨fun hall => ?_, ?_⟩
  · -- a buffer for both
    have hroom := hall (s.length + t.length + 1) true
    rcases hs : gcHttpParseUrl s with _ | v
    · rcases ht : gcHttpParseUrl t with _ | w
      · exact .inr ⟨rfl, rfl⟩
      · rw [hnone _ _ hs, hsome (by omega) (by rw [ht]; rfl)] at hroom
        cases hroom
    · rcases ht : gcHttpParseUrl t with _ | w
      · rw [hsome (by omega) (by rw [hs]; rfl), hnone _ _ ht] at hroom
        cases hroom
      · rw [hsome (by omega) (by rw [hs]; rfl), hsome (by omega) (by rw [ht]; rfl)] at hroom
        exact .inl (Option.some.inj hroom)
  · rintro (rfl | ⟨hs, ht⟩) cap memory
    · rfl
    · rw [hnone _ _ hs, hnone _ _ ht]

/-- A fragment means the document it stands in. -/
theorem parse_fragment (hbase : gcHttpParseUrl base = some u) (hsafe : safeText loc = true)
    (hfragment : loc.headD 0 = 35) : gcHttpParseUrl (u.origin ++ (u.path ++ loc)) = some u := by
  have hclean := gcHttpParseUrl_clean hbase
  have hform := gcHttpParseUrl_pathForm hbase
  have hhead : ∀ c ∈ (u.path ++ loc).head?, c = 47 := fun c hc => by
    rw [List.head?_append, hclean.path_start] at hc
    cases hc
    rfl
  have hstart : ∀ c ∈ (u.path ++ loc).head?, inAuthority c = false := fun c hc => by
    rw [hhead c hc]
    rfl
  rw [gcHttpParseUrl_origin hclean (gcHttpParseUrl_bounds hbase) hstart, safeText_append,
    hclean.safeText_path, hsafe, Bool.and_self, if_pos rfl, parsePath_eq_some_iff hstart]
  obtain ⟨-, body, fragment, hsplit, hbody, hfrag, hpath, hshort, hblank, hback⟩ := hform
  refine ⟨rfl, rfl, rfl, fun c hc => .inl (hhead c hc), u.path, loc, rfl, ?_, fun c hc => ?_, ?_,
    hshort, hblank, hback⟩
  · rw [hpath]
    split_ifs
    · exact hbody
    · rw [List.mem_cons, not_or]
      exact ⟨by decide, hbody⟩
  · rw [List.headD_eq_head?_getD, hc] at hfragment
    exact hfragment
  · rw [if_pos hclean.path_start]

/-- The references that the client resolves. -/
def Resolvable (u : GcHttpUrl) (loc : List UInt8) : Prop :=
  (startsScheme loc = true ∨ contains loc (ascii "://") = false ∨
      gcHttpParseUrl (referenceText u loc) = none) ∧
    (loc.headD 0 = 35 → throughLast 47 (u.path.takeWhile (· != 63)) = u.path)

theorem resolveText_iff (hbase : gcHttpParseUrl base = some u) (hsafe : safeText loc = true) :
    (resolveText u loc = referenceText u loc ∨ (gcHttpParseUrl (resolveText u loc) = none ∧
      gcHttpParseUrl (referenceText u loc) = none)) ↔ Resolvable u loc := by
  have hslashes : ∀ h : (ascii "//").isPrefixOf loc = true, loc.headD 0 ≠ 35 := by
    intro h
    obtain ⟨t, rfl⟩ := List.isPrefixOf_iff_prefix.mp h
    exact (by decide : (47 : UInt8) ≠ 35)
  -- The cases are the client's tests, in its order.
  by_cases hscheme : startsScheme loc = true
  · have hhead : loc.headD 0 ≠ 35 := by
      intro heq
      rw [startsScheme, heq] at hscheme
      cases hscheme
    have htext : resolveText u loc = referenceText u loc := by
      rw [resolveText_of_contains (contains_of_startsScheme hscheme), referenceText, if_pos hscheme]
    exact iff_of_true (.inl htext) ⟨.inl hscheme, fun heq => absurd heq hhead⟩
  by_cases hlater : contains loc (ascii "://") = true
  · -- the client takes the reference as it is, and that is no URL
    have hparse : gcHttpParseUrl loc = none := by
      by_contra hsome
      obtain ⟨v, hv⟩ := Option.ne_none_iff_exists'.mp hsome
      exact hscheme (startsScheme_of_parse hv)
    rw [resolveText_of_contains hlater, Resolvable, hlater]
    refine ⟨fun h => ?_, fun h => ?_⟩
    · have hnone : gcHttpParseUrl (referenceText u loc) = none := by
        rcases h with heq | hboth
        · rw [← heq]
          exact hparse
        · exact hboth.2
      refine ⟨.inr (.inr hnone), fun hfragment => ?_⟩
      -- from here on the reference has no authority of its own
      have hown : ownAuthority loc = false := by
        rw [ownAuthority, Bool.or_eq_false_iff]
        exact ⟨Bool.eq_false_iff.mpr hscheme,
          Bool.eq_false_iff.mpr fun h => hslashes h hfragment⟩
      have hpath : referencePath u.path loc = u.path := by
        rw [referencePath, hfragment]
        rfl
      rw [referenceText_relative hown, hpath, parse_fragment hbase hsafe hfragment] at hnone
      cases hnone
    · rcases h.1 with hcontra | ⟨⟨⟩⟩ | hnone
      · exact absurd hcontra hscheme
      · exact .inr ⟨hparse, hnone⟩
  rw [Bool.not_eq_true] at hscheme hlater
  have hfirst : startsScheme loc = true ∨ contains loc (ascii "://") = false ∨
      gcHttpParseUrl (referenceText u loc) = none := .inr (.inl hlater)
  by_cases hdouble : (ascii "//").isPrefixOf loc = true
  · have htext : resolveText u loc = referenceText u loc := by
      rw [resolveText, referenceText, hlater, hscheme, if_pos hdouble, if_pos hdouble]
    exact iff_of_true (.inl htext) ⟨hfirst, fun heq => absurd heq (hslashes hdouble)⟩
  have hown : ownAuthority loc = false := by
    rw [ownAuthority, hscheme, Bool.eq_false_iff.mpr hdouble]
    rfl
  have htext : resolveText u loc = u.origin ++ (resolvePath u.path loc ++ loc) := by
    rw [resolveText, hlater, if_neg hdouble]
    simp only [Bool.false_eq_true, if_false, GcHttpUrl.origin, List.append_assoc]
  rw [htext, referenceText_relative hown, Resolvable, and_iff_right hfirst]
  -- the two paths differ for a fragment only
  by_cases hfragment : loc.headD 0 = 35
  · have hpath : referencePath u.path loc = u.path ∧
        resolvePath u.path loc = throughLast 47 (u.path.takeWhile (· != 63)) := by
      rw [referencePath, resolvePath, hfragment]
      exact ⟨rfl, rfl⟩
    rw [hpath.1, hpath.2, parse_fragment hbase hsafe hfragment]
    refine ⟨?_, fun h => .inl (by rw [h hfragment])⟩
    rintro (heq | ⟨-, ⟨⟩⟩) -
    exact List.append_cancel_right (List.append_cancel_left heq)
  · have hpath : resolvePath u.path loc = referencePath u.path loc := by
      rw [resolvePath, referencePath, if_neg hfragment]
    rw [hpath]
    exact iff_of_true (.inl rfl) fun heq => absurd heq hfragment

/-- Every result is a URL, with the origin of the base unless the reference has an authority. -/
theorem resolve_origin (hbase : gcHttpParseUrl base = some u) {out : List UInt8} {cap : ℕ}
    {memory : Bool} (hout : written (resolveText u loc) cap memory = some out) :
    ∃ v, gcHttpParseUrl out = some v ∧
      (ownAuthority loc = false → v.host = u.host ∧ v.port = u.port ∧ v.tls = u.tls) := by
  obtain ⟨⟨-, -, hsome⟩, ⟨⟩⟩ := Option.ite_none_right_eq_some.mp hout
  obtain ⟨v, hv⟩ := Option.isSome_iff_exists.mp hsome
  refine ⟨v, hv, fun hown => ?_⟩
  rw [ownAuthority, Bool.or_eq_false_iff] at hown
  by_cases hlater : contains loc (ascii "://") = true
  · rw [resolveText_of_contains hlater] at hv
    rw [startsScheme_of_parse hv] at hown
    cases hown.1
  · have htext : resolveText u loc = u.origin ++ (resolvePath u.path loc ++ loc) := by
      rw [resolveText, if_neg hlater, hown.2]
      simp only [Bool.false_eq_true, if_false, GcHttpUrl.origin, List.append_assoc]
    rw [htext] at hv
    exact parse_origin hbase (reference_head (gcHttpParseUrl_clean hbase).path_start).2 hv

/-- The client resolves a reference as its start demands, and every result keeps the origin of the
base unless the reference has an authority, exactly if the reference is resolvable. -/
theorem gcHttpResolveUrl_iff (hbase : gcHttpParseUrl base = some u) (hne : loc ≠ [])
    (hsafe : safeText loc = true) :
    (∀ (cap : ℕ) (net : Net κ),
      (gcHttpResolveUrl base loc cap net).1 = written (referenceText u loc) cap net.alloc.1 ∧
      ∀ out, (gcHttpResolveUrl base loc cap net).1 = some out →
        ∃ v, gcHttpParseUrl out = some v ∧ (ownAuthority loc = false →
          v.host = u.host ∧ v.port = u.port ∧ v.tls = u.tls)) ↔ Resolvable u loc := by
  rw [← resolveText_iff hbase hsafe, ← written_eq_iff]
  simp only [gcHttpResolveUrl_eq hbase hne hsafe]
  refine ⟨fun hall cap memory => ?_, fun hall cap net => ⟨hall cap _, fun out => resolve_origin hbase⟩⟩
  exact (hall cap ⟨[], [memory], [], []⟩).1

/-- The parts of `http://host/dir/list?q=old`. -/
def listUrl : GcHttpUrl := ⟨ascii "host", ascii "/dir/list?q=old", 80, false⟩

theorem gcHttpResolveUrl_stream :
    (gcHttpResolveUrl (κ := Unit) (ascii "http://host/dir/list?q=old") (ascii "../stream") 2304
      ⟨[], [], [], []⟩).1 = written (referenceText listUrl (ascii "../stream")) 2304 true :=
  ((gcHttpResolveUrl_iff (u := listUrl) (by decide +kernel) (by decide) (by decide)).mpr
    ⟨.inr (.inl (by decide +kernel)), fun h => absurd h (by decide)⟩ 2304 _).1

example : written (referenceText listUrl (ascii "../stream")) 2304 true =
    some (ascii "http://host:80/dir/../stream") := by decide +kernel

/-- A reference with a `://` in its query is refused. -/
theorem gcHttpResolveUrl_query :
    ¬ ∀ (base loc : List UInt8) (u : GcHttpUrl) (cap : ℕ) (net : Net Unit),
      gcHttpParseUrl base = some u → loc ≠ [] → safeText loc = true →
      (gcHttpResolveUrl base loc cap net).1 = written (referenceText u loc) cap net.alloc.1 := by
  intro hall
  have hquery := hall (ascii "http://host/dir/list?q=old") (ascii "/r?u=http://x/") listUrl 2304
    ⟨[], [], [], []⟩ (by decide +kernel) (by decide) (by decide)
  exact absurd hquery (by decide +kernel)

end WiiMC.Http
