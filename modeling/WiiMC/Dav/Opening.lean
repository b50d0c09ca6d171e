import WiiMC.Dav.Listing

/-!
# From a listing to its files

The names that `gc_dav_list` returns have gone through `gc_http_resolve_url`, `gc_http_parse_url`
and `gc_http_decode_path`; `make_url` brings them back into a URL with `gc_http_encode_path`. Both
ways are followed on the segments of the paths.

* `Segment`: a segment that `valid_path` accepts in front of others.
* `validPath_cases`, `validPath_join`: valid paths are made of them.
* `nameOf_spec`: the resource of an entry has one segment more than that of the folder.
* `gcDavList_opens`: every entry of a listing can be opened, as the resource it was listed for.
-/

namespace WiiMC.Dav

open Bytes Http Percent Segments

variable {κ : Type}

/-! ## Valid paths -/

/-- A segment of a path that stands for something in its folder. -/
structure Segment (s : List UInt8) : Prop where
  ne : s ≠ []
  dot : s ≠ [46]
  dots : s ≠ [46, 46]
  bytes : ∀ c ∈ s, 32 ≤ c ∧ c ≠ 92 ∧ c ≠ 47

/-- The segments of a path have no slash in them. -/
theorem Segment.plain {ss : List (List UInt8)} (h : ∀ s ∈ ss, Segment s) : Plain 47 ss :=
  fun s hs hc => (h s hs).bytes 47 hc |>.2.2 rfl

/-- A path has valid bytes if its first segment and its rest have. -/
theorem validBytes_append {s t : List UInt8} (hs : 47 ∉ s) :
    validBytes (s ++ t) = true ↔ (∀ c ∈ s, 32 ≤ c ∧ c ≠ 92) ∧ validBytes t = true := by
  induction s with
  | nil => simp
  | cons c s ih =>
      rw [List.mem_cons, not_or] at hs
      rw [List.cons_append, validBytes, if_neg (fun h => hs.1 h.1.symm), List.forall_mem_cons]
      by_cases hc : c < 32 ∨ c = 92
      · rw [if_pos hc]
        refine iff_of_false Bool.false_ne_true fun h => ?_
        exact hc.elim (UInt8.not_lt.mpr h.1.1.1) h.1.1.2
      · rw [if_neg hc, ih hs.2, and_assoc]
        rw [not_or, UInt8.not_lt] at hc
        exact (and_iff_right hc).symm

/-- A bad component is a dot, two dots, or an empty one that is not the last. -/
theorem badComponent_join {s : List UInt8} {ss : List (List UInt8)} (hs : 47 ∉ s) :
    badComponent (s ++ join 47 ss) = true ↔ s = [46] ∨ s = [46, 46] ∨ (s = [] ∧ ss ≠ []) := by
  rcases s with _ | ⟨a, _ | ⟨b, _ | ⟨c, s⟩⟩⟩ <;> rcases ss with _ | ⟨t, ss⟩ <;>
    unfold badComponent <;> split <;> simp_all

/-- The first segment and the others are checked apart. -/
theorem validBytes_join_cons {s : List UInt8} {ss : List (List UInt8)} (hs : 47 ∉ s) :
    validBytes (join 47 (s :: ss)) = true ↔
      (s ≠ [46] ∧ s ≠ [46, 46] ∧ (s = [] → ss = [])) ∧ (∀ c ∈ s, 32 ≤ c ∧ c ≠ 92) ∧
        validBytes (join 47 ss) = true := by
  rw [join_cons, validBytes, ← validBytes_append hs]
  by_cases hbad : badComponent (s ++ join 47 ss) = true
  · rw [if_pos ⟨rfl, hbad⟩]
    refine iff_of_false Bool.false_ne_true fun ⟨⟨hdot, hdots, hnil⟩, _⟩ => ?_
    rcases (badComponent_join hs).mp hbad with h | h | ⟨h, hne⟩
    · exact hdot h
    · exact hdots h
    · exact hne (hnil h)
  · rw [if_neg (fun h => hbad h.2), if_neg (by decide)]
    rw [badComponent_join hs, not_or, not_or, not_and, not_not] at hbad
    exact (and_iff_right hbad).symm

/-- A valid path is made of segments, and perhaps a slash behind them. -/
theorem validBytes_cases {ss : List (List UInt8)} (hss : Plain 47 ss)
    (h : validBytes (join 47 ss) = true) :
    ∃ qs, (∀ q ∈ qs, Segment q) ∧ (ss = qs ∨ ss = qs ++ [[]]) := by
  induction ss with
  | nil => exact ⟨[], nofun, Or.inl rfl⟩
  | cons s ss ih =>
      have hs := hss s List.mem_cons_self
      obtain ⟨⟨hdot, hdots, hnil⟩, hbytes, hrest⟩ := (validBytes_join_cons hs).mp h
      by_cases hempty : s = []
      · rw [hnil hempty, hempty]
        exact ⟨[], nofun, Or.inr rfl⟩
      obtain ⟨qs, hqs, hcases⟩ := ih hss.tail hrest
      have hseg : Segment s := ⟨hempty, hdot, hdots, fun c hc =>
        ⟨(hbytes c hc).1, (hbytes c hc).2, fun heq => hs (heq ▸ hc)⟩⟩
      refine ⟨s :: qs, List.forall_mem_cons.mpr ⟨hseg, hqs⟩, ?_⟩
      rcases hcases with rfl | rfl
      · exact Or.inl rfl
      · exact Or.inr rfl

/-- The path has the segments `qs`, and perhaps a slash behind them. -/
structure Spells (path : List UInt8) (qs : List (List UInt8)) : Prop where
  segments : ∀ q ∈ qs, Segment q
  path : (path = join 47 qs ∧ qs ≠ []) ∨ path = join 47 (qs ++ [[]])

/-- A valid path spells its segments. -/
theorem validPath_cases {path : List UInt8} (h : validPath path = true) : ∃ qs, Spells path qs := by
  rw [validPath, Bool.and_eq_true, beq_iff_eq] at h
  obtain ⟨ss, hne, hss, rfl⟩ := exists_join h.1
  obtain ⟨qs, hqs, rfl | rfl⟩ := validBytes_cases hss h.2
  · exact ⟨ss, hqs, Or.inl ⟨rfl, hne⟩⟩
  · exact ⟨qs, hqs, Or.inr rfl⟩

/-- A path made of segments is valid. -/
theorem validPath_join {qs : List (List UInt8)} (hqs : ∀ q ∈ qs, Segment q) (hne : qs ≠ []) :
    validPath (join 47 qs) = true := by
  rw [validPath, Bool.and_eq_true, beq_iff_eq]
  refine ⟨?_, ?_⟩
  · obtain ⟨q, qs, rfl⟩ := List.exists_cons_of_ne_nil hne
    rfl
  · clear hne
    induction qs with
    | nil => rfl
    | cons q qs ih =>
        have hq := hqs q List.mem_cons_self
        refine (validBytes_join_cons fun hc => (hq.bytes 47 hc).2.2 rfl).mpr
          ⟨⟨hq.dot, hq.dots, fun hnil => absurd hnil hq.ne⟩, fun c hc => ?_,
            ih fun q' hq' => hqs q' (List.mem_cons_of_mem q hq')⟩
        exact ⟨(hq.bytes c hc).1, (hq.bytes c hc).2.1⟩

/-! ## The resources of a folder -/

/-- The path of `name` in the folder `path`: a slash stands between them. -/
def inFolder (path name : List UInt8) : List UInt8 :=
  if path.getLast? = some 47 then path ++ name else path ++ 47 :: name

/-- The resource whose path has the segments `qs`. -/
def resourceOf (qs : List (List UInt8)) : List UInt8 := if qs = [] then [47] else join 47 qs

variable {qs : List (List UInt8)} {path name : List UInt8}

/-- A path made of segments does not end with a slash. -/
theorem getLast?_join (hqs : ∀ q ∈ qs, Segment q) : (join 47 qs).getLast? ≠ some 47 := by
  rcases List.eq_nil_or_concat qs with rfl | ⟨qs', q, rfl⟩
  · exact nofun
  have hq := hqs q (by simp)
  intro hlast
  rw [List.concat_eq_append, join_append, join_cons, join_nil, List.append_nil,
    List.getLast?_append, List.getLast?_cons, Option.some_or] at hlast
  have hget : q.getLast? = some 47 := by
    rcases hget : q.getLast? with _ | c
    · exact absurd (List.getLast?_eq_none_iff.mp hget) hq.ne
    · rw [hget] at hlast
      exact hlast
  exact (hq.bytes 47 (List.mem_of_getLast? hget)).2.2 rfl

/-- Trimming leaves the segments. -/
theorem Spells.trimSlashes (h : Spells path qs) : trimSlashes path = resourceOf qs := by
  have hlast := getLast?_join h.segments
  have htrim : trimEnd (· == 47) (join 47 qs) = join 47 qs :=
    trimEnd_eq_self fun c hc => beq_eq_false_iff_ne.mpr fun heq => hlast (heq ▸ hc)
  rcases h.path with ⟨rfl, hne⟩ | rfl
  · have hnil : join 47 qs ≠ [] := by
      obtain ⟨q, qs', rfl⟩ := List.exists_cons_of_ne_nil hne
      exact List.cons_ne_nil _ _
    rw [Dav.trimSlashes, htrim, if_neg hnil, resourceOf, if_neg hne]
  · have hslash : join 47 (qs ++ [[]]) = join 47 qs ++ [47] := by simp
    rw [Dav.trimSlashes, hslash, trimEnd_concat rfl, htrim, resourceOf]
    rcases qs with _ | ⟨q, qs⟩
    · rfl
    · rw [if_neg (List.cons_ne_nil q qs), join_cons, if_neg (List.cons_ne_nil _ _)]

/-- The path of an entry has one segment more. -/
theorem Spells.inFolder (h : Spells path qs) (name : List UInt8) :
    inFolder path name = join 47 (qs ++ [name]) := by
  rcases h.path with ⟨rfl, -⟩ | rfl
  · rw [Dav.inFolder, if_neg (getLast?_join h.segments)]
    simp
  · rw [Dav.inFolder, if_pos (by simp)]
    simp

/-- A path behind other segments has its segments behind them. -/
theorem Spells.append {xs ps bs : List (List UInt8)} (hxs : Plain 47 xs) (h : Spells path ps)
    (hbs : Spells (join 47 xs ++ path) bs) : bs = xs ++ ps := by
  have hps := Segment.plain h.segments
  have hplain := Segment.plain hbs.segments
  have hslash : ∀ {ss}, Plain (47 : UInt8) ss → Plain 47 (ss ++ [[]]) := fun hss s hs => by
    rcases List.mem_append.mp hs with hs | hs
    · exact hss s hs
    · exact List.mem_singleton.mp hs ▸ List.not_mem_nil
  have happend : ∀ {ss}, Plain (47 : UInt8) ss → Plain 47 (xs ++ ss) := fun hss s hs =>
    (List.mem_append.mp hs).elim (hxs s) (hss s)
  -- the empty segment behind a slash is the only one
  have hempty : ∀ {ss : List (List UInt8)}, (∀ s ∈ ss, Segment s) → [] ∉ ss := fun hss hmem => (hss [] hmem).ne rfl
  rcases h.path with ⟨rfl, hne⟩ | rfl <;> rcases hbs.path with ⟨heq, -⟩ | heq <;>
    rw [← join_append] at heq
  · exact (join_inj (happend hps) hplain heq).symm
  · have hss := join_inj (happend hps) (hslash hplain) heq
    have hlast := congrArg List.getLast? hss
    rw [List.getLast?_append, List.getLast?_concat,
      Option.or_of_isSome (List.getLast?_isSome.mpr hne)] at hlast
    exact absurd (List.mem_of_getLast? hlast) (hempty h.segments)
  · have hss := join_inj (happend (hslash hps)) hplain heq
    exact absurd (hss ▸ by simp) (hempty hbs.segments)
  · have hss := join_inj (happend (hslash hps)) (hslash hplain) heq
    rw [← List.append_assoc] at hss
    exact (List.append_cancel_right hss).symm

/-- The path of an entry of a resource has one segment more. -/
theorem inFolder_resourceOf (hqs : ∀ q ∈ qs, Segment q) (name : List UInt8) :
    inFolder (resourceOf qs) name = join 47 (qs ++ [name]) := by
  rw [resourceOf]
  by_cases hnil : qs = []
  · rw [if_pos hnil, hnil, inFolder, if_pos (by decide)]
    simp
  · rw [if_neg hnil, inFolder, if_neg (getLast?_join hqs)]
    simp

/-- The resource of an entry has one segment more than that of the folder. -/
theorem nameOf_spec {bs is : List (List UInt8)} (hbs : ∀ b ∈ bs, Segment b)
    (his : ∀ i ∈ is, Segment i) (h : nameOf 1 (resourceOf bs) (resourceOf is) = some name) :
    is = bs ++ [name] := by
  rw [nameOf, if_neg (by decide)] at h
  by_cases hself : resourceOf is = resourceOf bs
  · rw [if_pos hself] at h
    cases h
  rw [if_neg hself] at h
  obtain ⟨hname, hfilter⟩ := Option.filter_eq_some_iff.mp h
  obtain ⟨hne, hslash⟩ := of_decide_eq_true hfilter
  by_cases hnil : bs = []
  · subst hnil
    cases his' : is with
    | nil => exact absurd (congrArg resourceOf his') hself
    | cons i is' =>
        rw [if_pos (by rfl), his', resourceOf, if_neg (List.cons_ne_nil i is')] at hname
        cases hname
        -- a second segment would bring a slash into the name
        cases is' with
        | nil => simp
        | cons i' is' => simp at hslash
  rw [resourceOf, if_neg hnil] at hname
  have hlen : (join 47 bs).length ≠ 1 := by
    obtain ⟨b, bs', rfl⟩ := List.exists_cons_of_ne_nil hnil
    have hb := List.length_pos_iff.mpr (hbs b List.mem_cons_self).ne
    rw [join_cons, List.length_cons, List.length_append]
    omega
  rw [if_neg hlen] at hname
  obtain ⟨⟨hpre, hat⟩, hdrop⟩ := Option.ite_none_right_eq_some.mp hname
  obtain ⟨t, ht⟩ := List.isPrefixOf_iff_prefix.mp hpre
  rw [← ht, List.getElem?_append_right le_rfl, Nat.sub_self] at hat
  cases t with
  | nil => cases hat
  | cons c t =>
      cases hat
      rw [← ht, List.drop_append, List.drop_of_length_le (Nat.le_succ _)] at hdrop
      have hjoin : resourceOf is = join 47 (bs ++ [name]) := by
        rw [← ht]
        simp at hdrop
        simp [hdrop]
      rw [resourceOf] at hjoin
      by_cases hempty : is = []
      · rw [if_pos hempty] at hjoin
        have hlong := congrArg List.length hjoin
        have hpos := List.length_pos_iff.mpr hne
        simp at hlong
        omega
      · rw [if_neg hempty] at hjoin
        have hplain : Plain 47 (bs ++ [name]) := fun s hs => by
          rcases List.mem_append.mp hs with hs | hs
          · exact Segment.plain hbs s hs
          · exact List.mem_singleton.mp hs ▸ hslash
        exact join_inj (Segment.plain his) hplain hjoin

/-! ## The way out -/

/-- A name that `dav_dirnext` can hand on. -/
structure FileName (name : List UInt8) : Prop where
  ne : name ≠ []
  length : name.length ≤ 255
  bytes : ∀ c ∈ name, c ≠ 47 ∧ 32 ≤ c ∧ c ≠ 127 ∧ c ≠ 92

/-- The URL `target` leads to the resource `item`: it stands below `base` at the origin of `url`,
and the segments of its path stand for those of `item`. None of these is empty, `.` or `..`, or has
a separator in it. -/
structure LeadsTo (base : List UInt8) (url : GcHttpUrl) (target item : List UInt8) : Prop where
  below : base <+: target
  origin : gcHttpParseUrl target =
    if 2048 ≤ (urlPath target).length then none else some { url with path := urlPath target }
  decodes : gcHttpDecodePath (urlPath target) 2048 = some item
  segments : ∃ ss ts, urlPath target = join 47 ss ∧ item = join 47 ts ∧
    List.Forall₂ (Decodes fun _ => True) ss ts ∧ ∀ t ∈ ts, Segment t

section Base

variable {base target item : List UInt8} {url : GcHttpUrl}

/-- The path of a base URL ends with a slash, and stands for segments in front of it. -/
theorem BaseUrl.split (hbase : BaseUrl base url) : ∃ d, urlPath base = d ++ [47] ∧
    ∀ x, Decodes (· ≠ 47) d x → ∃ xs, Plain 47 xs ∧ x = join 47 xs := by
  obtain ⟨d, hd⟩ := List.getLast?_eq_some_iff.mp hbase.last
  refine ⟨d, hd, fun x hx => ?_⟩
  cases d with
  | nil =>
      cases hx
      exact ⟨[], nofun, rfl⟩
  | cons c d =>
      have hstart := hbase.path.start
      rw [hd] at hstart
      cases hstart
      obtain ⟨t₁, t₂, rfl, h₁, -⟩ := hx.split (s := []) (by decide) rfl
      cases h₁
      obtain ⟨xs, -, hxs, hjoin⟩ := exists_join (l := [] ++ 47 :: t₂) rfl
      exact ⟨xs, hxs, hjoin⟩

/-- The path of a URL from `make_url`. -/
theorem BaseUrl.urlPath_encode (hbase : BaseUrl base url) (path : List UInt8) :
    urlPath (base ++ path.flatMap encodeByte) = urlPath base ++ path.flatMap encodeByte ∧
      gcHttpParseUrl (base ++ path.flatMap encodeByte) =
        if 2048 ≤ (urlPath base ++ path.flatMap encodeByte).length then none
        else some { url with path := urlPath base ++ path.flatMap encodeByte } := by
  obtain ⟨hfront, hpath⟩ := urlPath_append hbase.path.start (path.flatMap encodeByte)
  refine ⟨hpath, ?_⟩
  rw [← urlFront_append_urlPath (base ++ path.flatMap encodeByte), hfront, hpath]
  exact hbase.parse _ (hbase.path.append fun c hc => (encode_bytes hc).1)

/-- An encoded path is decoded again. -/
theorem decodes_encodePath (path : List UInt8) :
    Decodes (· ≠ 47) (path.flatMap encodeByte) path :=
  (decodes_encode path).mono fun c hc heq => by
    rw [heq] at hc
    cases hc

/-- A valid path begins with a slash. -/
theorem validPath_head {path : List UInt8} (h : validPath path = true) : path = 47 :: path.tail := by
  rw [validPath, Bool.and_eq_true, beq_iff_eq] at h
  exact (List.cons_head?_tail h.1).symm

/-- The segments of a folder stand behind those of the base URL. -/
theorem BaseUrl.folder {path raw : List UInt8} (hbase : BaseUrl base url)
    (hpath : validPath path = true) (hraw : validPath raw = true)
    (hdec : Decodes (· ≠ 47) (urlPath base ++ path.tail.flatMap encodeByte) raw) :
    ∃ xs ps, Spells path ps ∧ Spells raw (xs ++ ps) ∧
      ∀ t, Decodes (· ≠ 47) (urlPath base ++ t.flatMap encodeByte) (join 47 xs ++ 47 :: t) := by
  obtain ⟨d, hd, hsplit⟩ := hbase.split
  have hassoc : ∀ s, urlPath base ++ s = d ++ 47 :: s := fun s => by rw [hd]; simp
  rw [hassoc] at hdec
  obtain ⟨x, y, rfl, hx, hy⟩ := hdec.split (by decide) rfl
  obtain ⟨xs, hxs, rfl⟩ := hsplit x hx
  rw [hy.unique (decodes_encodePath path.tail), ← validPath_head hpath] at hraw ⊢
  obtain ⟨ps, hps⟩ := validPath_cases hpath
  obtain ⟨bs, hbs⟩ := validPath_cases hraw
  have hsegments := hps.append hxs hbs
  refine ⟨xs, ps, hps, hsegments ▸ hbs, fun t => ?_⟩
  rw [hassoc]
  exact hx.append (.plain (by decide) (decodes_encodePath t))

end Base

/-- The effective URL of the answer is the one that was asked for. -/
def NotRedirected (c : GcDavConfig κ) (path : List UInt8) (net : Net κ) : Prop :=
  ∀ target h net₁, propfindAnswer c path 1 net = some (target, h, net₁) → h.url = target

/-- The entry is that of a direct child of the folder `path`, whose resource is `base`, and it can
be opened: `make_url` leads to the resource that the response has told. -/
structure Opens (c : GcDavConfig κ) (path : List UInt8) (url : GcHttpUrl) (base : List UInt8)
    (response : Place) (entry : GcDavEntry) : Prop where
  name : FileName entry.name
  href : ∃ value, textOf (child response (ascii "href")) = some value ∧
    HrefTo url value (inFolder base entry.name)
  valid : validPath (inFolder path entry.name) = true
  leads : ∀ cap net net' target,
    makeUrl c (inFolder path entry.name) cap net = (some target, net') →
      LeadsTo c.url url target (inFolder base entry.name)

/-- The bytes of the resource that a `DAV:href` names, and their number. -/
theorem HrefTo.item {url : GcHttpUrl} {value item : List UInt8} (h : HrefTo url value item) :
    (∃ is, (∀ i ∈ is, Segment i) ∧ item = resourceOf is) ∧ (∀ c ∈ item, Clean c) ∧
      item.length < 2048 := by
  obtain ⟨v, path, -, -, -, hdecode, hvalid, rfl⟩ := h
  obtain ⟨-, hclean, hlen⟩ := (gcHttpDecodePath_eq_some_iff (by decide)).mp hdecode
  obtain ⟨is, his⟩ := validPath_cases hvalid
  have hfront : trimSlashes path <+: path := by
    rw [trimSlashes]
    split_ifs
    · exact List.take_prefix 1 path
    · rw [trimEnd, ← List.reverse_suffix, List.reverse_reverse]
      exact List.dropWhile_suffix _
  exact ⟨⟨is, his.segments, his.trimSlashes⟩, fun c hc => hclean c (hfront.subset hc),
    hfront.length_le.trans_lt hlen⟩

/-- What is listed in a folder can be opened there. -/
theorem opens_of_response {c : GcDavConfig κ} {path raw : List UInt8} {u url : GcHttpUrl}
    {response : Place} {entry : GcDavEntry} {value item : List UInt8}
    (hbase : BaseUrl c.url u) (hpath : validPath path = true) (hraw : validPath raw = true)
    (hdec : Decodes (· ≠ 47) (urlPath c.url ++ path.tail.flatMap encodeByte) raw)
    (horigin : url = { u with path := url.path })
    (hvalue : textOf (child response (ascii "href")) = some value) (hhref : HrefTo url value item)
    (hname : nameOf 1 (trimSlashes raw) item = some entry.name)
    (hlen : entry.name.length < 256) : Opens c path url (trimSlashes raw) response entry := by
  obtain ⟨xs, ps, hps, hbs, hway⟩ := hbase.folder hpath hraw hdec
  obtain ⟨⟨is, his, rfl⟩, hclean, hshort⟩ := hhref.item
  rw [hbs.trimSlashes] at hname ⊢
  obtain rfl := nameOf_spec hbs.segments his hname
  -- The entry's resource is the folder's with one more segment.
  have hitem : resourceOf (xs ++ ps ++ [entry.name]) =
      inFolder (resourceOf (xs ++ ps)) entry.name := by
    rw [inFolder_resourceOf hbs.segments, resourceOf, if_neg (by simp)]
  have hjoin := inFolder_resourceOf hbs.segments entry.name
  have hsegment := his entry.name (by simp)
  rw [hitem] at hhref hclean hshort
  refine ⟨⟨hsegment.ne, by omega, fun b hb => ?_⟩, ⟨value, hvalue, hhref⟩, ?_, ?_⟩
  · obtain ⟨h32, h92, h47⟩ := hsegment.bytes b hb
    refine ⟨h47, h32, (hclean b ?_).2.1, h92⟩
    rw [hjoin]
    simp [hb]
  -- the joined path is valid again
  · rw [hps.inFolder]
    refine validPath_join (fun q hq => ?_) (by simp)
    rcases List.mem_append.mp hq with hq | hq
    · exact hps.segments q hq
    · exact List.mem_singleton.mp hq ▸ hsegment
  -- and opening it asks for that resource
  · rintro cap net net' target hmake
    obtain ⟨hvalid, rfl⟩ := makeUrl_some (congrArg Prod.fst hmake)
    obtain ⟨hurl, hparse⟩ := hbase.urlPath_encode (inFolder path entry.name).tail
    have hstands := hway (inFolder path entry.name).tail
    rw [← validPath_head hvalid, hps.inFolder, ← join_append, ← List.append_assoc, ← hjoin,
      ← hps.inFolder, ← hurl] at hstands
    refine ⟨List.prefix_append _ _, ?_, ?_, ?_⟩
    · rw [hparse, hurl, horigin]
    · exact (gcHttpDecodePath_eq_some_iff (by decide)).mpr ⟨hstands, hclean, hshort⟩
    · obtain ⟨ss, -, hss, hpathss⟩ := exists_join (l := urlPath
        (c.url ++ (inFolder path entry.name).tail.flatMap encodeByte)) (by
          rw [hurl, List.head?_append, hbase.path.start]
          rfl)
      rw [hpathss] at hstands
      obtain ⟨ts, hts, hall⟩ := hstands.join (by decide) rfl
      have heq : ts = xs ++ ps ++ [entry.name] :=
        join_inj (plain_of_decodes (by simp) hss hall) (Segment.plain his) (hts.symm.trans hjoin)
      exact ⟨ss, ts, hpathss, hts, hall.imp fun _ _ h => h.mono fun _ _ => trivial, heq ▸ his⟩

/-- Every entry of a listing can be opened, as the resource it was listed for. -/
theorem gcDavList_opens {mxmlLoadString : List UInt8 → Option MxmlNode} {memory net net' : Net κ}
    {c₀ c₁ c : GcDavConfig κ} {file : Option (List UInt8)} {ok : Bool} {path : List UInt8}
    {entries : List GcDavEntry} (hload : gcDavConfigLoad c₀ file ok = (.ok (), c₁))
    (hurl : c.url = c₁.url) (hdirect : NotRedirected c path net)
    (hlist : gcDavList (listing mxmlLoadString memory) c path net = (.ok entries, net')) :
    ∃ target h net₁ xml tree multi url raw es,
      propfindAnswer c path 1 net = some (target, h, net₁) ∧
      (readXml (xmlMax + 1) [] 0 h net₁).1 = .ok xml ∧
      mxmlLoadString xml = some tree ∧ multistatus tree = some multi ∧
      gcHttpParseUrl target = some url ∧ gcHttpDecodePath url.path 2048 = some raw ∧
      Listed κ target url (trimSlashes raw) 1 multi.children es ∧
      entries = Probing.firsts (·.name) [] (es.map (·.2)) ∧
      entries.length ≤ gcDavMaxEntries ∧ (entries.map (·.name)).Nodup ∧
      ∀ entry ∈ entries, ∃ response, (response, entry) ∈ es ∧
        Opens c path url (trimSlashes raw) response entry := by
  obtain ⟨u, hbase⟩ := gcDavConfigLoad_url hload
  rw [← hurl] at hbase
  obtain ⟨target, h, net₁, raw, xml, hanswer, hraw, hvalid, hxml, hwalk⟩ :=
    query_ok (congrArg Prod.fst hlist)
  rw [hdirect target h net₁ hanswer] at hraw hwalk
  obtain ⟨url, hparse, hdecode⟩ := Option.bind_eq_some_iff.mp hraw
  obtain ⟨hlen, url', tree, multi, es, hparse', htree, hmulti, hes, hentries⟩ := listing_spec hwalk
  cases hparse.symm.trans hparse'
  refine ⟨target, h, net₁, xml, tree, multi, url, raw, es, hanswer, hxml, htree, hmulti, hparse,
    hdecode, hes, hentries, hlen, ?_, fun entry hentry => ?_⟩
  · have hnil : (([] : List GcDavEntry).map (·.name)).Nodup := List.nodup_nil
    rw [hentries]
    exact Probing.nodup_firsts hnil _
  rw [hentries] at hentry
  obtain ⟨⟨response, entry⟩, hmem, rfl⟩ :=
    List.mem_map.mp ((Probing.mem_of_mem_firsts hentry).resolve_left List.not_mem_nil)
  obtain ⟨memory', hread⟩ := hes.mem hmem
  obtain ⟨hname, value, item, hvalue, hhref, hnameOf⟩ :=
    readResponse_spec hparse (Prod.ext hread rfl)
  -- the URL that was asked for is made like that of the entry
  obtain ⟨net₂, hmake⟩ := propfindAnswer_target hanswer
  obtain ⟨hpath, rfl⟩ := makeUrl_some hmake
  have hurlEq := (hbase.urlPath_encode path.tail).2
  rw [hparse] at hurlEq
  obtain ⟨-, hsome⟩ := Option.ite_none_left_eq_some.mp hurlEq.symm
  cases hsome
  obtain ⟨hdec, -, -⟩ := (gcHttpDecodePath_eq_some_iff (by decide)).mp hdecode
  exact ⟨response, hmem, opens_of_response hbase hpath hvalid hdec rfl hvalue hhref hnameOf hname⟩

/-! ## A folder with one file -/

/-- The configuration for a server with the base path `/dav`. -/
def nasConfig : GcDavConfig Unit :=
  (gcDavConfigLoad (GcDavConfig.zero Unit) (some (ascii "url = http://nas/dav\n")) true).2

/-- A listing of the folder `Album`. -/
def nasXml : List UInt8 :=
  ascii "<D:multistatus xmlns:D=\"DAV:\"><D:response><D:href>/dav/Album/a%20b.mp3</D:href><D:propstat>" ++
    ascii "<D:prop><D:resourcetype/><D:getcontentlength>5</D:getcontentlength></D:prop>" ++
    ascii "<D:status>HTTP/1.1 200 OK</D:status></D:propstat></D:response></D:multistatus>"

/-- An element without attributes. -/
def element (name : String) (children : List MxmlNode) : MxmlNode :=
  .element (ascii name) [] children

/-- The tree of the listing. -/
def nasTree : MxmlNode :=
  .element (ascii "D:multistatus") [(ascii "xmlns:D", ascii "DAV:")] [
    element "D:response" [
      element "D:href" [.text (ascii "/dav/Album/a%20b.mp3")],
      element "D:propstat" [
        element "D:prop" [
          element "D:resourcetype" [],
          element "D:getcontentlength" [.text (ascii "5")]],
        element "D:status" [.text (ascii "HTTP/1.1 200 OK")]]]]

/-- Mini-XML on the listing. -/
def nasParser (xml : List UInt8) : Option MxmlNode := if xml = nasXml then some nasTree else none

/-- A network whose server answers with the listing. -/
def nasNet : Net Unit where
  dials := [.connected [.data 72 (ascii "TTP/1.1 207 Multi-Status\r\n\r\n" ++ nasXml)] []]
  allocs := []
  opened := []
  closed := []

/-- Loading the sample configuration. -/
theorem nasConfig_load :
    gcDavConfigLoad (GcDavConfig.zero Unit) (some (ascii "url = http://nas/dav\n")) true =
      (.ok (), nasConfig) := by
  have hok : (gcDavConfigLoad (GcDavConfig.zero Unit)
      (some (ascii "url = http://nas/dav\n")) true).1.toOption = some () := by decide +kernel
  refine Prod.ext ?_ rfl
  rcases hload : (gcDavConfigLoad (GcDavConfig.zero Unit)
    (some (ascii "url = http://nas/dav\n")) true).1 with e | u
  · rw [hload] at hok
    cases hok
  · rfl

/-- Listing the sample folder. -/
theorem nasConfig_list :
    (gcDavList (listing nasParser nasNet) nasConfig (ascii "/Album/") nasNet).1.toOption =
      some [⟨ascii "a b.mp3", false, 5⟩] := by decide +kernel

/-- The sample listing is not redirected. -/
theorem nasConfig_notRedirected : NotRedirected nasConfig (ascii "/Album/") nasNet := by
  have hrun : (propfindAnswer nasConfig (ascii "/Album/") 1 nasNet).map (fun r => (r.1, r.2.1.url)) =
      some (ascii "http://nas/dav/Album/", ascii "http://nas/dav/Album/") := by decide +kernel
  intro target h net₁ hanswer
  rw [hanswer] at hrun
  obtain ⟨htarget, hurl⟩ := Prod.mk.inj (Option.some.inj hrun)
  exact hurl.trans htarget.symm

theorem gcDavList_opens_nas : ∃ response url base,
    Opens nasConfig (ascii "/Album/") url base response ⟨ascii "a b.mp3", false, 5⟩ := by
  have hlist := nasConfig_list
  rcases hrun : gcDavList (listing nasParser nasNet) nasConfig (ascii "/Album/") nasNet with
    ⟨e | entries, net'⟩ <;> rw [hrun] at hlist
  · cases hlist
  obtain rfl := Option.some.inj hlist
  obtain ⟨_, _, _, _, _, _, url, raw, _, -, -, -, -, -, -, -, -, -, -, hopens⟩ :=
    gcDavList_opens nasConfig_load rfl nasConfig_notRedirected hrun
  obtain ⟨response, -, hentry⟩ := hopens _ List.mem_cons_self
  exact ⟨response, url, _, hentry⟩

/-- With a slash between the path and the name there would be two of them behind a folder that has
been asked for with one, and `valid_path` refuses them. -/
theorem gcDavList_doubleSlash :
    gcDavConfigLoad (GcDavConfig.zero Unit) (some (ascii "url = http://nas/dav\n")) true =
      (.ok (), nasConfig) ∧
    NotRedirected nasConfig (ascii "/Album/") nasNet ∧
    (gcDavList (listing nasParser nasNet) nasConfig (ascii "/Album/") nasNet).1.toOption =
      some [⟨ascii "a b.mp3", false, 5⟩] ∧
    validPath (ascii "/Album/" ++ ascii "/" ++ ascii "a b.mp3") = false :=
  ⟨nasConfig_load, nasConfig_notRedirected, nasConfig_list, by decide⟩

end WiiMC.Dav
