import WiiMC.Dav.Client
import WiiMC.Lib.Probing

/-!
# The entries of a listing

What `query` of `webdav_client.c` reads off the tree of a `DAV:multistatus`. Mini-XML is not part
of the sources: the tree it makes of a body is the parameter `mxmlLoadString`.

* `davNode`, `child`, `textOf`, `success`: elements found by their names in the `DAV:` namespace.
* `readResponse`: what one `DAV:response` gives.
* `store`: the entries, with the table of hash values that finds a name among them.
* `listing`: the walk over the tree.
* `listing_spec`: the entries of a listing are the first ones of their names.
-/

namespace WiiMC.Dav

open Bytes Http

variable {κ : Type}

/-! ## The tree -/

/-- `mxml_node_t`, as `MXML_OPAQUE_CALLBACK` makes it: an element, or a text. -/
inductive MxmlNode
  | element (name : List UInt8) (attrs : List (List UInt8 × List UInt8))
      (children : List MxmlNode)
  | text (s : List UInt8)

/-- `mxmlGetElement`. -/
def MxmlNode.getElement : MxmlNode → Option (List UInt8)
  | element name _ _ => some name
  | text _ => none

/-- `mxmlElementGetAttr`. -/
def MxmlNode.getAttr (key : List UInt8) : MxmlNode → Option (List UInt8)
  | element _ attrs _ => attrs.lookup key
  | text _ => none

/-- The nodes that `mxmlGetFirstChild` and `mxmlGetNextSibling` go through. -/
def MxmlNode.children : MxmlNode → List MxmlNode
  | element _ _ children => children
  | text _ => []

/-- `mxmlGetOpaque`: the text, or the one at the start of an element. -/
def MxmlNode.getOpaque : MxmlNode → Option (List UInt8)
  | text s => some s
  | element _ _ (text s :: _) => some s
  | element _ _ _ => none

/-- A node of the tree, and the elements around it, the innermost first. -/
structure Place where
  node : MxmlNode
  parents : List MxmlNode

/-- The children of a node at their places. -/
def Place.children (p : Place) : List Place :=
  p.node.children.map fun node => ⟨node, p.node :: p.parents⟩

/-- The innermost declaration of `key` gives the `DAV:` namespace. -/
def Place.declares (p : Place) (key : List UInt8) : Bool :=
  (p.node :: p.parents).findSome? (·.getAttr key) == some (ascii "DAV:")

/-- `dav_node`. -/
def davNode (p : Place) (name : List UInt8) : Bool :=
  match p.node.getElement with
  | none => false
  | some tag =>
      match splitAt? 58 tag with
      | none => tag == name && p.declares (ascii "xmlns")
      | some (space, rest) =>
          rest == name && decide (space.length + 7 ≤ 128) && p.declares (ascii "xmlns:" ++ space)

/-- `child`. -/
def child (p : Place) (name : List UInt8) : Option Place := p.children.find? (davNode · name)

/-- `text_of`. -/
def textOf (p : Option Place) : Option (List UInt8) :=
  (p.bind fun p => p.children.head?).bind fun t => t.node.getOpaque

/-- `success`. -/
def success (p : Place) : Bool :=
  match (textOf (child p (ascii "status"))).bind (literal (ascii "HTTP/1.")) with
  | none => false
  | some s =>
      match (scanInt s).bind fun r => scanInt r.2 with
      | none => false
      | some (status, _) => decide (200 ≤ clamp32 status ∧ clamp32 status < 300)

/-! ## One response -/

/-- The path without the slashes at its end. -/
def trimSlashes (path : List UInt8) : List UInt8 :=
  let rest := trimEnd (· == 47) path
  if rest = [] then path.take 1 else rest

/-- The resource that the text of a `DAV:href` names, when it can be one of the listing: it has the
origin of the effective URL `effective`, whose parts are `url`, and a valid path without a query. -/
def readHref (effective : List UInt8) (url : GcHttpUrl) (value : List UInt8) (net : Net κ) :
    Option (List UInt8) × Net κ :=
  match gcHttpResolveUrl effective value gcHttpUrlMax net with
  | (none, net) => (none, net)
  | (some href, net) =>
      match gcHttpParseUrl href with
      | none => (none, net)
      | some item =>
          if url.tls ≠ item.tls ∨ url.port ≠ item.port ∨ eqNoCase url.host item.host = false ∨
              63 ∈ item.path then (none, net)
          else match gcHttpDecodePath item.path 2048 with
            | none => (none, net)
            | some itempath =>
                if validPath itempath then (some (trimSlashes itempath), net) else (none, net)

/-- The name of the resource `itempath` in the listing of `basepath`. -/
def nameOf (depth : ℤ) (basepath itempath : List UInt8) : Option (List UInt8) :=
  if depth = 0 then
    if itempath = basepath then some (itempath.reverse.takeWhile (· != 47)).reverse else none
  else if itempath = basepath then none
  else
    let name :=
      if basepath.length = 1 then some itempath.tail
      else if basepath.isPrefixOf itempath ∧ itempath[basepath.length]? = some 47 then
        some (itempath.drop (basepath.length + 1))
      else none
    name.filter fun name => name ≠ [] ∧ 47 ∉ name

/-- `strtoll` that leaves nothing and stays in its limits. -/
def contentLength (value : List UInt8) : Option ℤ :=
  match scanInt value with
  | some (size, []) => if 0 ≤ size ∧ size < 2 ^ 63 then some size else none
  | _ => none

/-- What the properties of a response say. -/
structure Props where
  directory : Bool
  size : ℤ
  foundType : Bool

/-- One `DAV:propstat`. -/
def readPropstat (p : Props) (propstat : Place) : Props :=
  if (davNode propstat (ascii "propstat") && success propstat) = false then p
  else match child propstat (ascii "prop") with
    | none => p
    | some prop =>
        let p := match child prop (ascii "resourcetype") with
          | none => p
          | some type =>
              { p with directory := (child type (ascii "collection")).isSome, foundType := true }
        match (textOf (child prop (ascii "getcontentlength"))).bind contentLength with
        | none => p
        | some size => { p with size }

/-- The entry with the given properties: a directory, or a file of known size. -/
def Props.entry (p : Props) (name : List UInt8) : Option GcDavEntry :=
  if p.foundType = false ∨ (p.directory = false ∧ p.size < 0) then none
  else some { name, directory := p.directory, size := if p.directory then 0 else p.size }

/-- One child of the `DAV:multistatus`; `none` is one that is passed over. -/
def readResponse (effective : List UInt8) (url : GcHttpUrl) (basepath : List UInt8) (depth : ℤ)
    (response : Place) (net : Net κ) : Except Failure (Option GcDavEntry) × Net κ :=
  if davNode response (ascii "response") = false then (.ok none, net)
  else match textOf (child response (ascii "href")) with
    | none => (.ok none, net)
    | some value =>
        match readHref effective url value net with
        | (none, net) => (.ok none, net)
        | (some itempath, net) =>
            match nameOf depth basepath itempath with
            | none => (.ok none, net)
            | some name =>
                if 256 ≤ name.length then
                  (.error (.enametoolong, "WebDAV filename exceeds 255 bytes"), net)
                else (.ok ((response.children.foldl readPropstat ⟨false, -1, false⟩).entry name), net)

/-! ## The entries -/

/-- `name_hash`. -/
def nameHash (name : List UInt8) : ℕ :=
  (name.foldl (fun hash c => (hash ^^^ c.toUInt32) * 16777619) (2166136261 : UInt32)).toNat

/-- `GC_DAV_MAX_ENTRIES`. -/
def gcDavMaxEntries : ℕ := 1024

/-- The entries so far, the number of them that is allocated, and `name_slots`, of 16 bits each. -/
structure Table where
  entries : List GcDavEntry
  capacity : ℕ
  slots : ℕ → ℕ

/-- The table after `calloc`. -/
def Table.empty : Table := ⟨[], 0, fun _ => 0⟩

/-- Make room for one more entry: the number of entries allocated then. -/
def Table.grow (t : Table) (net : Net κ) : Option ℕ × Net κ :=
  if t.entries.length = t.capacity then
    match net.alloc with
    | (false, net) => (none, net)
    | (true, net) =>
        (some (min (if t.capacity = 0 then 32 else t.capacity * 2) gcDavMaxEntries), net)
  else (some t.capacity, net)

/-- Store an entry unless its name is there. The search stops before it has passed all slots. -/
def Table.store (t : Table) (entry : GcDavEntry) (net : Net κ) : Except Failure Table × Net κ :=
  match Probing.search 2048 t.slots (t.entries.map (·.name)) entry.name 2048
      (nameHash entry.name % 2048) with
  | none | some none => (.ok t, net)
  | some (some slot) =>
      if gcDavMaxEntries ≤ t.entries.length then
        (.error (.eoverflow, "WebDAV folder exceeds 1024 entries"), net)
      else match t.grow net with
        | (none, net) => (.error (.enomem, "Out of memory"), net)
        | (some capacity, net) =>
            (.ok { entries := t.entries ++ [entry], capacity,
                   slots := Function.update t.slots slot ((t.entries.length + 1) % 2 ^ 16) }, net)

/-- The loop over the children of the `DAV:multistatus`. -/
def responseLoop (effective : List UInt8) (url : GcHttpUrl) (basepath : List UInt8) (depth : ℤ) :
    List Place → Table → Net κ → Except Failure (List GcDavEntry)
  | [], t, _ => .ok t.entries
  | response :: responses, t, net =>
      match readResponse effective url basepath depth response net with
      | (.error e, _) => .error e
      | (.ok none, net) => responseLoop effective url basepath depth responses t net
      | (.ok (some entry), net) =>
          match t.store entry net with
          | (.error e, _) => .error e
          | (.ok t, net) => responseLoop effective url basepath depth responses t net

/-- The element that holds the responses. -/
def multistatus (tree : MxmlNode) : Option Place :=
  if davNode ⟨tree, []⟩ (ascii "multistatus") then some ⟨tree, []⟩
  else child ⟨tree, []⟩ (ascii "multistatus")

/-- `query` behind the body: `net` is where the memory for the walk comes from. -/
def listing (mxmlLoadString : List UInt8 → Option MxmlNode) (net : Net κ) : Walk :=
  fun effective basepath depth xml =>
    match gcHttpParseUrl effective with
    | none => .error (.eio, "Invalid WebDAV response URL")
    | some url =>
        match mxmlLoadString xml with
        | none => .error (.eio, "Invalid WebDAV XML")
        | some tree =>
            match multistatus tree with
            | none => .error (.eio, "Missing DAV:multistatus")
            | some multi =>
                responseLoop effective url (trimSlashes basepath) depth multi.children .empty net

/-! ## What the walk finds -/

/-- The text of a `DAV:href`, resolved against a URL with the parts `url`, is a URL of the same
origin. Its path has no query and decodes to a valid one, which is `item` but for slashes at its
end. -/
def HrefTo (url : GcHttpUrl) (value item : List UInt8) : Prop :=
  ∃ v path, gcHttpParseUrl (resolveText url value) = some v ∧ SameOrigin url v ∧ 63 ∉ v.path ∧
    gcHttpDecodePath v.path 2048 = some path ∧ validPath path = true ∧ trimSlashes path = item

theorem gcHttpResolveUrl_text {effective value href : List UInt8} {url : GcHttpUrl} {cap : ℕ}
    {net net' : Net κ} (hurl : gcHttpParseUrl effective = some url)
    (h : gcHttpResolveUrl effective value cap net = (some href, net')) :
    href = resolveText url value := by
  unfold gcHttpResolveUrl at h
  rcases halloc : net.alloc with ⟨_ | _, net₁⟩
  · rw [halloc] at h
    cases h
  rw [halloc] at h
  simp only [hurl] at h
  split_ifs at h
  · cases h
  · cases h
  · cases h
    rfl

theorem readHref_spec {effective value item : List UInt8} {url : GcHttpUrl} {net net' : Net κ}
    (hurl : gcHttpParseUrl effective = some url)
    (h : readHref effective url value net = (some item, net')) : HrefTo url value item := by
  unfold readHref at h
  rcases hresolve : gcHttpResolveUrl effective value gcHttpUrlMax net with ⟨_ | href, net₁⟩
  · rw [hresolve] at h
    cases h
  rw [hresolve] at h
  cases gcHttpResolveUrl_text hurl hresolve
  simp only at h
  rcases hparse : gcHttpParseUrl (resolveText url value) with _ | v
  · rw [hparse] at h
    cases h
  rw [hparse] at h
  simp only at h
  -- another origin, or a query, is refused
  by_cases horigin : url.tls ≠ v.tls ∨ url.port ≠ v.port ∨ eqNoCase url.host v.host = false ∨
      63 ∈ v.path
  · rw [if_pos horigin] at h
    cases h
  rw [if_neg horigin] at h
  simp only [not_or, not_not, Bool.not_eq_false] at horigin
  obtain ⟨htls, hport, hhost, hquery⟩ := horigin
  rcases hdecode : gcHttpDecodePath v.path 2048 with _ | path
  · rw [hdecode] at h
    cases h
  rw [hdecode] at h
  simp only at h
  by_cases hvalid : validPath path = true
  · rw [if_pos hvalid] at h
    cases h
    exact ⟨v, path, hparse, ⟨htls, hport, hhost⟩, hquery, hdecode, hvalid, rfl⟩
  · rw [if_neg hvalid] at h
    cases h

section Walk

variable {effective basepath : List UInt8} {url : GcHttpUrl} {depth : ℤ} {response : Place}
variable {entry : GcDavEntry} {net net' : Net κ}

theorem readResponse_spec (hurl : gcHttpParseUrl effective = some url)
    (h : readResponse effective url basepath depth response net = (.ok (some entry), net')) :
    entry.name.length < 256 ∧ ∃ value item, textOf (child response (ascii "href")) = some value ∧
      HrefTo url value item ∧ nameOf depth basepath item = some entry.name := by
  unfold readResponse at h
  -- Each test on the element that fails gives no entry.
  by_cases hresponse : davNode response (ascii "response") = false
  · rw [if_pos hresponse] at h
    cases h
  rw [if_neg hresponse] at h
  rcases hvalue : textOf (child response (ascii "href")) with _ | value
  · rw [hvalue] at h
    cases h
  rw [hvalue] at h
  simp only at h
  rcases hread : readHref effective url value net with ⟨_ | item, net₁⟩
  · rw [hread] at h
    cases h
  rw [hread] at h
  simp only at h
  rcases hname : nameOf depth basepath item with _ | name
  · rw [hname] at h
    cases h
  rw [hname] at h
  simp only at h
  by_cases hlong : 256 ≤ name.length
  · rw [if_pos hlong] at h
    cases h
  rw [if_neg hlong] at h
  obtain ⟨hentry, -⟩ := Prod.mk.inj h
  obtain ⟨-, hentry⟩ := Option.ite_none_left_eq_some.mp (Except.ok.inj hentry)
  cases hentry
  exact ⟨not_le.mp hlong, value, item, rfl, readHref_spec hurl hread, hname⟩

/-- The responses that give an entry, and their entries, in the order of the tree. -/
inductive Listed (κ : Type) (effective : List UInt8) (url : GcHttpUrl) (basepath : List UInt8)
    (depth : ℤ) : List Place → List (Place × GcDavEntry) → Prop
  | nil : Listed κ effective url basepath depth [] []
  | skip {r : Place} {rs : List Place} {es : List (Place × GcDavEntry)} (net : Net κ)
      (h : (readResponse effective url basepath depth r net).1 = .ok none)
      (hrest : Listed κ effective url basepath depth rs es) :
      Listed κ effective url basepath depth (r :: rs) es
  | entry {r : Place} {e : GcDavEntry} {rs : List Place} {es : List (Place × GcDavEntry)}
      (net : Net κ) (h : (readResponse effective url basepath depth r net).1 = .ok (some e))
      (hrest : Listed κ effective url basepath depth rs es) :
      Listed κ effective url basepath depth (r :: rs) ((r, e) :: es)

theorem Listed.sublist {rs : List Place} {es : List (Place × GcDavEntry)}
    (h : Listed κ effective url basepath depth rs es) : (es.map (·.1)).Sublist rs := by
  induction h with
  | nil => exact .slnil
  | skip _ _ _ ih => exact ih.cons _
  | entry _ _ _ ih => exact ih.cons_cons _

theorem Listed.mem {rs : List Place} {es : List (Place × GcDavEntry)}
    (h : Listed κ effective url basepath depth rs es) {p : Place × GcDavEntry} (hp : p ∈ es) :
    ∃ net : Net κ, (readResponse effective url basepath depth p.1 net).1 = .ok (some p.2) := by
  induction h with
  | nil => cases hp
  | skip _ _ _ ih => exact ih hp
  | entry net hread _ ih =>
      rcases List.mem_cons.mp hp with rfl | hp
      · exact ⟨net, hread⟩
      · exact ih hp

/-- The slots find the names, and the entries are not too many. -/
structure Table.Ok (t : Table) : Prop where
  holds : Probing.Holds 2048 nameHash t.slots (t.entries.map (·.name))
  length : t.entries.length ≤ gcDavMaxEntries

theorem Table.ok_empty : Table.empty.Ok := ⟨Probing.holds_empty 2048 nameHash, Nat.zero_le _⟩

/-- An entry is stored behind the others, unless its name is there. -/
theorem Table.store_spec {t t' : Table} (hok : t.Ok) (h : t.store entry net = (.ok t', net')) :
    t'.entries = Probing.firsts (·.name) t.entries [entry] ∧ t'.Ok := by
  have hlen : (t.entries.map (·.name)).length < 2048 := by
    rw [List.length_map]
    exact hok.length.trans_lt (by decide)
  unfold Table.store at h
  -- a name that is there is kept as it was first
  rcases hok.holds.search_spec hlen entry.name with ⟨hsearch, hmem⟩ | ⟨slot, hsearch, hmem, hfree⟩
  · rw [hsearch] at h
    cases h
    exact ⟨(Probing.firsts_cons_of_mem hmem []).symm, hok⟩
  rw [hsearch] at h
  simp only at h
  by_cases hfull : gcDavMaxEntries ≤ t.entries.length
  · rw [if_pos hfull] at h
    cases h
  rw [if_neg hfull] at h
  rcases hgrow : t.grow net with ⟨_ | capacity, net₁⟩
  · rw [hgrow] at h
    cases h
  rw [hgrow] at h
  cases h
  have hnumber : (t.entries.length + 1) % 2 ^ 16 = t.entries.length + 1 := by
    unfold gcDavMaxEntries at hfull
    omega
  -- a new one is appended, and its number goes to the free slot
  refine ⟨(Probing.firsts_cons_of_not_mem hmem []).symm, ?_, ?_⟩
  · have hins := hok.holds.insert hfree
    rw [List.length_map] at hins
    rw [List.map_append, hnumber]
    exact hins
  · rw [List.length_append]
    exact not_le.mp hfull

theorem responseLoop_spec {responses : List Place} {t : Table} {entries : List GcDavEntry}
    (hok : t.Ok) (h : responseLoop effective url basepath depth responses t net = .ok entries) :
    entries.length ≤ gcDavMaxEntries ∧ ∃ es, Listed κ effective url basepath depth responses es ∧
      entries = Probing.firsts (·.name) t.entries (es.map (·.2)) := by
  induction responses generalizing t net with
  | nil =>
      cases h
      exact ⟨hok.length, [], .nil, rfl⟩
  | cons r rs ih =>
      rw [responseLoop] at h
      rcases hread : readResponse effective url basepath depth r net with ⟨_ | _ | e, net₁⟩
      · rw [hread] at h
        cases h
      · rw [hread] at h
        obtain ⟨hlen, es, hes, hentries⟩ := ih hok h
        exact ⟨hlen, es, .skip net (congrArg Prod.fst hread) hes, hentries⟩
      rw [hread] at h
      simp only at h
      rcases hstore : t.store e net₁ with ⟨_ | t', net₂⟩
      · rw [hstore] at h
        cases h
      rw [hstore] at h
      obtain ⟨ht', hok'⟩ := Table.store_spec hok hstore
      obtain ⟨hlen, es, hes, hentries⟩ := ih hok' h
      refine ⟨hlen, (r, e) :: es, .entry net (congrArg Prod.fst hread) hes, ?_⟩
      rw [hentries, ht', ← Probing.firsts_append]
      rfl

end Walk

/-- The entries of a listing: for every name the first response that gives it. -/
theorem listing_spec {mxmlLoadString : List UInt8 → Option MxmlNode} {net : Net κ}
    {effective basepath xml : List UInt8} {depth : ℤ} {entries : List GcDavEntry}
    (h : listing mxmlLoadString net effective basepath depth xml = .ok entries) :
    entries.length ≤ gcDavMaxEntries ∧
    ∃ url tree multi es, gcHttpParseUrl effective = some url ∧ mxmlLoadString xml = some tree ∧
      multistatus tree = some multi ∧
      Listed κ effective url (trimSlashes basepath) depth multi.children es ∧
      entries = Probing.firsts (·.name) [] (es.map (·.2)) := by
  unfold listing at h
  rcases hurl : gcHttpParseUrl effective with _ | url
  · rw [hurl] at h
    cases h
  rw [hurl] at h
  simp only at h
  rcases htree : mxmlLoadString xml with _ | tree
  · rw [htree] at h
    cases h
  rw [htree] at h
  simp only at h
  rcases hmulti : multistatus tree with _ | multi
  · rw [hmulti] at h
    cases h
  rw [hmulti] at h
  obtain ⟨hlen, es, hes, hentries⟩ := responseLoop_spec Table.ok_empty h
  exact ⟨hlen, url, tree, multi, es, rfl, rfl, hmulti, hes, hentries⟩

end WiiMC.Dav
