import WiiMC.Dav.Config
import WiiMC.Http.Body
import WiiMC.Http.Open

/-!
# The WebDAV client

`query`, `gc_dav_list`, `gc_dav_stat`, `gc_dav_open`, `gc_dav_read`, `gc_dav_seek` and
`gc_dav_close` of `webdav_client.c`. Mini-XML is not part of the sources: what it makes of the body
of a listing, and what `query` reads off its tree, is the parameter `walk`. The callback with
which `query` waits for the audio cache only delays it, and is left out.

* `query`: a `PROPFIND`.
* `gcDavRead`: a read, on the connection that is open or on a new one.
* `gcDavSeek`: a seek, which closes a connection that stands elsewhere.
-/

namespace WiiMC.Dav

open Bytes Http

variable {κ : Type}

/-- `gc_dav_entry`. -/
structure GcDavEntry where
  name : List UInt8
  directory : Bool
  size : ℤ
  deriving DecidableEq

/-- What follows a slash may not be another one, nor `.` or `..` as a whole component. -/
def badComponent : List UInt8 → Bool
  | 47 :: _ | [46] | 46 :: 47 :: _ | [46, 46] | 46 :: 46 :: 47 :: _ => true
  | _ => false

/-- The loop of `valid_path`. -/
def validBytes : List UInt8 → Bool
  | [] => true
  | c :: path =>
      if c = 47 ∧ badComponent path = true then false
      else if c < 32 ∨ c = 92 then false
      else validBytes path

/-- `valid_path`. -/
def validPath (path : List UInt8) : Bool := path.head? == some 47 && validBytes path

/-- `make_url`; `none` is -1. -/
def makeUrl (c : GcDavConfig κ) (path : List UInt8) (cap : ℕ) (net : Net κ) :
    Option (List UInt8) × Net κ :=
  match net.alloc with
  | (false, net) => (none, net)
  | (true, net) =>
      if validPath path then
        match gcHttpEncodePath path.tail gcHttpUrlMax with
        | none => (none, net)
        | some encoded =>
            if (c.url ++ encoded).length < cap then (some (c.url ++ encoded), net) else (none, net)
      else (none, net)

/-- The body of a `PROPFIND`. -/
def propfindBody : List UInt8 :=
  ascii "<?xml version=\"1.0\"?><D:propfind xmlns:D=\"DAV:\"><D:prop><D:resourcetype/>" ++
    ascii "<D:getcontentlength/></D:prop></D:propfind>"

/-- The most that `query` allocates for a body. -/
def xmlMax : ℕ := 512 * 1024 + 1

/-- Make room for 4096 bytes behind the `used` ones: the bytes allocated then. -/
def growXml (used allocated : ℕ) (net : Net κ) : Except Failure ℕ × Net κ :=
  if used + 4096 + 1 > allocated then
    if allocated ≥ xmlMax then (.error (.eoverflow, "WebDAV listing exceeds 512 KiB"), net)
    else match net.alloc with
      | (false, net) => (.error (.enomem, "Out of memory"), net)
      | (true, net) => (.ok (min (if allocated = 0 then 8192 else allocated * 2) xmlMax), net)
  else (.ok allocated, net)

/-- The loop of `query` that reads the body, with the bytes read and the bytes allocated. Every
round reads at least one byte, so `fuel` rounds are more than enough. -/
def readXml : ℕ → List UInt8 → ℕ → GcHttp κ → Net κ →
    Except Failure (List UInt8) × GcHttp κ × Net κ
  | 0, _, _, h, net => (.error (.eoverflow, "WebDAV listing exceeds 512 KiB"), h, net)
  | fuel + 1, xml, allocated, h, net =>
      match growXml xml.length allocated net with
      | (.error e, net) => (.error e, h, net)
      | (.ok allocated, net) =>
          match gcHttpRead h (allocated - xml.length - 1 : ℕ) with
          | (none, h) => (.error (.eio, h.error), h, net)
          | (some [], h) => (.ok xml, h, net)
          | (some (b :: bs), h) => readXml fuel (xml ++ b :: bs) allocated h net

/-- What Mini-XML and the walk over its tree make of the effective URL, the path in it, the depth
and the body. -/
abbrev Walk := List UInt8 → List UInt8 → ℤ → List UInt8 → Except Failure (List GcDavEntry)

/-- The seven allocations at the start of `query`. -/
def alloc7 (net : Net κ) : Bool × Net κ :=
  let (ok₁, net) := net.alloc3
  let (ok₂, net) := net.alloc3
  let (ok₃, net) := net.alloc
  (ok₁ && ok₂ && ok₃, net)

/-- `query` behind the head of the response. -/
def queryBody (walk : Walk) (depth : ℤ) (h : GcHttp κ) (net : Net κ) :
    Except Failure (List GcDavEntry) × GcHttp κ × Net κ :=
  if h.status ≠ 207 then
    (.error (.eio, "Server does not support WebDAV PROPFIND (expected HTTP 207)"), h, net)
  else match (gcHttpParseUrl h.url).bind fun u => gcHttpDecodePath u.path 2048 with
    | none => (.error (.eio, "Invalid WebDAV response URL"), h, net)
    | some basepath =>
        if validPath basepath = false then
          (.error (.eio, "Invalid WebDAV response URL"), h, net)
        else match readXml (xmlMax + 1) [] 0 h net with
          | (.error e, h, net) => (.error e, h, net)
          | (.ok xml, h, net) =>
              if contains xml (ascii "<!DOCTYPE") ∨ contains xml (ascii "<!ENTITY") ∨ 0 ∈ xml then
                (.error (.einval, "Unsupported WebDAV XML declaration"), h, net)
              else match walk h.url basepath depth xml with
                | .error e => (.error e, h, net)
                | .ok entries =>
                    if depth = 0 ∧ entries.length ≠ 1 then
                      (.error (.enoent, "WebDAV resource not found"), h, net)
                    else (.ok entries, h, net)

/-- The request of a `PROPFIND`. -/
def propfind (c : GcDavConfig κ) (depth : ℤ) (target : List UInt8) : Request κ where
  url := target
  method := ascii "PROPFIND"
  auth := c.authorization
  body := some propfindBody
  depth := depth
  offset := -1
  icy := false
  cancel := c.cancel
  cancelOpaque := c.cancelOpaque

/-- `query`. -/
def query (walk : Walk) (c : GcDavConfig κ) (path : List UInt8) (depth : ℤ) (net : Net κ) :
    Except Failure (List GcDavEntry) × Net κ :=
  match alloc7 net with
  | (false, net) => (.error (.enomem, "Out of memory"), net)
  | (true, net) =>
      match makeUrl c path gcHttpUrlMax net with
      | (none, net) => (.error (.einval, "Invalid WebDAV path"), net)
      | (some target, net) =>
          match gcHttpOpen (propfind c depth target) net with
          | (false, h, net) =>
              (.error (if h.status = 404 then .enoent
                else if h.status = 401 ∨ h.status = 403 then .eacces else .eio, h.error), net)
          | (true, h, net) =>
              match queryBody walk depth h net with
              | (r, h, net) => (r, gcNetClose h.conn net)

/-! ## What a listing has met -/

/-- What `query` works on: the URL it asks for, the accepted answer and the network then. -/
def propfindAnswer (c : GcDavConfig κ) (path : List UInt8) (depth : ℤ) (net : Net κ) :
    Option (List UInt8 × GcHttp κ × Net κ) :=
  match alloc7 net with
  | (false, _) => none
  | (true, net) =>
      match makeUrl c path gcHttpUrlMax net with
      | (none, _) => none
      | (some target, net) =>
          match gcHttpOpen (propfind c depth target) net with
          | (false, _, _) => none
          | (true, h, net) => some (target, h, net)

theorem makeUrl_some {c : GcDavConfig κ} {path url : List UInt8} {cap : ℕ} {net : Net κ}
    (h : (makeUrl c path cap net).1 = some url) :
    validPath path = true ∧ url = c.url ++ path.tail.flatMap encodeByte := by
  unfold makeUrl at h
  rcases halloc : net.alloc with ⟨_ | _, net₁⟩
  · rw [halloc] at h
    cases h
  rw [halloc] at h
  simp only at h
  by_cases hvalid : validPath path = true
  · rw [if_pos hvalid] at h
    rcases hencode : gcHttpEncodePath path.tail gcHttpUrlMax with _ | encoded
    · rw [hencode] at h
      cases h
    rw [hencode] at h
    simp only at h
    split_ifs at h
    cases h
    exact ⟨hvalid, congrArg _ (gcHttpEncodePath_eq hencode)⟩
  · rw [if_neg hvalid] at h
    cases h

theorem propfindAnswer_target {c : GcDavConfig κ} {path target : List UInt8} {depth : ℤ}
    {net net₁ : Net κ} {h : GcHttp κ} (hanswer : propfindAnswer c path depth net = some (target, h, net₁)) :
    ∃ net₂, (makeUrl c path gcHttpUrlMax net₂).1 = some target := by
  unfold propfindAnswer at hanswer
  rcases halloc : alloc7 net with ⟨_ | _, net₂⟩
  · rw [halloc] at hanswer
    cases hanswer
  rw [halloc] at hanswer
  simp only at hanswer
  rcases hmake : makeUrl c path gcHttpUrlMax net₂ with ⟨_ | url, net₃⟩
  · rw [hmake] at hanswer
    cases hanswer
  rw [hmake] at hanswer
  simp only at hanswer
  rcases hopen : gcHttpOpen (propfind c depth url) net₃ with ⟨_ | _, h', net₄⟩
  · rw [hopen] at hanswer
    cases hanswer
  · rw [hopen] at hanswer
    cases hanswer
    exact ⟨net₂, congrArg Prod.fst hmake⟩

theorem readXml_url (fuel : ℕ) (xml : List UInt8) (allocated : ℕ) (h : GcHttp κ) (net : Net κ) :
    (readXml fuel xml allocated h net).2.1.url = h.url := by
  induction fuel generalizing xml allocated h net with
  | zero => rfl
  | succ fuel ih =>
      rw [readXml]
      rcases growXml xml.length allocated net with ⟨e | allocated', net'⟩
      · rfl
      simp only
      have hread := gcHttpRead_url h (allocated' - xml.length - 1 : ℕ)
      rcases hnext : gcHttpRead h (allocated' - xml.length - 1 : ℕ) with ⟨_ | _ | ⟨b, bs⟩, h'⟩ <;>
        rw [hnext] at hread
      · exact hread
      · exact hread
      · exact (ih _ _ _ _).trans hread

/-- A listing that succeeds has read a body, and has walked over its tree. -/
theorem query_ok {walk : Walk} {c : GcDavConfig κ} {path : List UInt8} {depth : ℤ} {net : Net κ}
    {entries : List GcDavEntry} (hquery : (query walk c path depth net).1 = .ok entries) :
    ∃ target h net₁ basepath xml, propfindAnswer c path depth net = some (target, h, net₁) ∧
      (gcHttpParseUrl h.url).bind (fun u => gcHttpDecodePath u.path 2048) = some basepath ∧
      validPath basepath = true ∧ (readXml (xmlMax + 1) [] 0 h net₁).1 = .ok xml ∧
      walk h.url basepath depth xml = .ok entries := by
  unfold query at hquery
  unfold propfindAnswer
  -- Each of the tests that fails ends the query with an error.
  rcases halloc : alloc7 net with ⟨_ | _, net₂⟩
  · rw [halloc] at hquery
    cases hquery
  rw [halloc] at hquery
  simp only at hquery ⊢
  rcases hmake : makeUrl c path gcHttpUrlMax net₂ with ⟨_ | target, net₃⟩
  · rw [hmake] at hquery
    cases hquery
  rw [hmake] at hquery
  simp only at hquery ⊢
  rcases hopen : gcHttpOpen (propfind c depth target) net₃ with ⟨_ | _, h, net₁⟩
  · rw [hopen] at hquery
    cases hquery
  rw [hopen] at hquery
  simp only at hquery ⊢
  -- the answer has come: what is left is `queryBody`
  have hbody : (queryBody walk depth h net₁).1 = .ok entries := hquery
  unfold queryBody at hbody
  by_cases hstatus : h.status ≠ 207
  · rw [if_pos hstatus] at hbody
    cases hbody
  rw [if_neg hstatus] at hbody
  rcases hbase : (gcHttpParseUrl h.url).bind fun u => gcHttpDecodePath u.path 2048 with _ | basepath
  · rw [hbase] at hbody
    cases hbody
  rw [hbase] at hbody
  simp only at hbody
  by_cases hvalid : validPath basepath = false
  · rw [if_pos hvalid] at hbody
    cases hbody
  rw [if_neg hvalid] at hbody
  have hurl := readXml_url (xmlMax + 1) [] 0 h net₁
  rcases hread : readXml (xmlMax + 1) [] 0 h net₁ with ⟨_ | xml, h', net₄⟩
  · rw [hread] at hbody
    cases hbody
  rw [hread] at hbody hurl
  simp only at hbody hurl
  rw [hurl] at hbody
  split_ifs at hbody with hdecl
  rcases hwalk : walk h.url basepath depth xml with _ | es
  · rw [hwalk] at hbody
    cases hbody
  rw [hwalk] at hbody
  simp only at hbody
  split_ifs at hbody with hcount
  cases hbody
  exact ⟨target, h, net₁, basepath, xml, rfl, hbase, Bool.eq_true_of_not_eq_false hvalid,
    congrArg Prod.fst hread, hwalk⟩

/-- `gc_dav_list` and `gc_dav_list_wait`. -/
def gcDavList (walk : Walk) (c : GcDavConfig κ) (path : List UInt8) (net : Net κ) :
    Except Failure (List GcDavEntry) × Net κ :=
  query walk c path 1 net

/-- `gc_dav_stat`. -/
def gcDavStat (walk : Walk) (c : GcDavConfig κ) (path : List UInt8) (net : Net κ) :
    Except Failure GcDavEntry × Net κ :=
  match query walk c path 0 net with
  | (.error e, net) => (.error e, net)
  | (.ok [], net) => (.error (.enoent, "WebDAV resource not found"), net)
  | (.ok (entry :: _), net) => (.ok entry, net)

/-! ## Files -/

/-- `gc_dav_file`. -/
structure GcDavFile (κ : Type) where
  config : GcDavConfig κ
  http : Option (GcHttp κ)
  url : List UInt8
  size : ℤ
  position : ℤ
  deriving DecidableEq

/-- A handle after `memset`. -/
def GcDavFile.zero (κ : Type) : GcDavFile κ where
  config := GcDavConfig.zero κ
  http := none
  url := []
  size := 0
  position := 0

/-- `gc_dav_open`. -/
def gcDavOpen (walk : Walk) (c : GcDavConfig κ) (path : List UInt8) (net : Net κ) :
    Except Failure Unit × GcDavFile κ × Net κ :=
  match gcDavStat walk c path net with
  | (.error e, net) => (.error e, GcDavFile.zero κ, net)
  | (.ok stat, net) =>
      if stat.directory then
        (.error (.eisdir, "Cannot play a WebDAV directory"), GcDavFile.zero κ, net)
      else match makeUrl c path gcHttpUrlMax net with
        | (none, net) => (.error (.einval, "Invalid WebDAV path"), GcDavFile.zero κ, net)
        | (some url, net) =>
            let f := { GcDavFile.zero κ with url, size := stat.size, config := c }
            match net.alloc with
            | (false, net) => (.error (.enomem, "Out of memory"), f, net)
            | (true, net) => (.ok (), { f with http := some (GcHttp.zero κ) }, net)

/-- The request for the rest of a file from its position on. -/
def GcDavFile.get (f : GcDavFile κ) : Request κ where
  url := f.url
  method := ascii "GET"
  auth := f.config.authorization
  body := none
  depth := -1
  offset := f.position
  icy := false
  cancel := f.config.cancel
  cancelOpaque := f.config.cancelOpaque

/-- `gc_dav_read` on an open connection. -/
def GcDavFile.deliver (f : GcDavFile κ) (h : GcHttp κ) (len : ℤ) (net : Net κ) :
    Except Errno (List UInt8) × GcDavFile κ × Net κ :=
  match gcHttpRead h (min len (f.size - f.position)) with
  | (some (b :: bs), h) =>
      (.ok (b :: bs),
        { f with http := some h, position := f.position + (b :: bs).length }, net)
  | (_, h) => (.error .eio, { f with http := some h }, net)

/-- `gc_dav_read`: the bytes returned, or -1 and `errno`. -/
def gcDavRead (f : GcDavFile κ) (len : ℤ) (net : Net κ) :
    Except Errno (List UInt8) × GcDavFile κ × Net κ :=
  match f.http with
  | none => (.error .ebadf, f, net)
  | some h =>
      if len ≤ 0 ∨ f.size ≤ f.position then (.ok [], f, net)
      else if h.conn.isSome then f.deliver h len net
      else match gcHttpOpen f.get net with
        | (false, h, net) => (.error .eio, { f with http := some h }, net)
        | (true, h, net) =>
            if (0 ≤ h.total ∧ h.total ≠ f.size) ∨
                (0 ≤ h.length ∧ h.length ≠ f.size - f.position) then
              (.error .eio, { f with http := some { h with conn := none } },
                gcNetClose h.conn net)
            else f.deliver h len net

/-- What `whence` counts from: `SEEK_SET`, `SEEK_CUR` or `SEEK_END`. -/
def GcDavFile.base (f : GcDavFile κ) (whence : ℤ) : Option ℤ :=
  if whence = 0 then some 0
  else if whence = 1 then some f.position
  else if whence = 2 then some f.size
  else none

/-- `gc_dav_seek`: the new position, or -1 and `errno`. -/
def gcDavSeek (f : GcDavFile κ) (offset whence : ℤ) (net : Net κ) :
    Except Errno ℤ × GcDavFile κ × Net κ :=
  match f.base whence with
  | none => (.error .einval, f, net)
  | some base =>
      if (0 < offset ∧ 2 ^ 63 - 1 - offset < base) ∨ (offset < 0 ∧ offset < -base) then
        (.error .einval, f, net)
      else if base + offset ≠ f.position then
        (.ok (base + offset),
          { f with
            http := f.http.map fun h => { h with conn := none }, position := base + offset },
          match f.http with
          | none => net
          | some h => gcNetClose h.conn net)
      else (.ok (base + offset), { f with position := base + offset }, net)

/-- `gc_dav_close`. -/
def gcDavClose (f : GcDavFile κ) (net : Net κ) : GcDavFile κ × Net κ :=
  ({ f with http := none },
    match f.http with
    | none => net
    | some h => gcNetClose h.conn net)

end WiiMC.Dav
