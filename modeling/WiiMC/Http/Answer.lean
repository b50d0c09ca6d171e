import WiiMC.Http.Body
import WiiMC.Http.Request

/-!
# An honest answer to a ranged request

What a server may send that answers a `GET` for a resource from the byte `p` on: 206 with the
range or, from the start, 200 with the whole resource. `gc_http_open` and `headers` accept it.

* `Answer`: the head and the body that an honest server sends.
* `headerFields_answer`: what the fields of its head do to the request.
* `Accepted`: what `gc_http_open` checks before it connects.
* `gcHttpOpen_accepted`: a request that was opened has passed these checks.
* `gcHttpOpen_answer`: an accepted request that meets an honest answer is opened, and is about to
  read the resource from `p` on.
-/

namespace WiiMC.Http

open Bytes

variable {κ : Type}

/-! ## What an honest server sends -/

/-- What a field of an answer says: the length and the framing of the body, and the range. -/
def ValueOk (resource : List UInt8) (p : ℕ) (framing : Framing) (v : List UInt8) : Field → Prop
  | .contentLength =>
      (∃ body, framing = .contentLength body) ∧ Numeral v (resource.drop p).length
  | .transferEncoding =>
      (∃ chunks last, framing = .chunked chunks last) ∧ eqNoCase v (ascii "chunked") = true
  | .contentEncoding => eqNoCase v (ascii "identity") = true
  | .location => v.length < 2304
  | .icyMetaint => ∃ n, Numeral v n ∧ 0 < n ∧ n < 2 ^ 31
  | .contentRange =>
      ∃ first last total, v = ascii "bytes " ++ (first ++ 45 :: (last ++ 47 :: total)) ∧
        Numeral first p ∧ Numeral last (resource.length - 1) ∧ Numeral total resource.length
  | .contentType | .icyName | .other => True

/-- A field of an answer, with a name and a value. -/
def FieldOk (resource : List UInt8) (p : ℕ) (framing : Framing) (f : List UInt8) : Prop :=
  ∃ name v, splitAt? 58 f = some (name, v) ∧
    ValueOk resource p framing (trimEnd isBlank (v.dropWhile isBlank)) (fieldOf name)

/-- Which field a line of a head is. -/
def kindOf (f : List UInt8) : Field :=
  match splitAt? 58 f with
  | some (name, _) => fieldOf name
  | none => .other

/-- The field that tells how a body is framed, if any does. -/
def Framing.field : Framing → Option Field
  | .chunked _ _ => some .transferEncoding
  | .contentLength _ => some .contentLength
  | .closeDelimited _ => none

/-- An answer with the resource from `p` on. -/
structure Answer (resource : List UInt8) (p : ℕ) where
  head : Head
  framing : Framing
  status : ℕ
  status_line : ∃ minor n code reason, head.statusLine =
      ascii "HTTP/1." ++ (minor ++ 32 :: (code ++ reason)) ∧ Numeral minor n ∧
    Numeral code status ∧ ∀ c ∈ reason.head?, isDigit c = false
  /-- The whole resource may be sent where it is asked for from its start. -/
  status_eq : status = 206 ∨ (status = 200 ∧ p = 0)
  body_eq : framing.body = resource.drop p
  fields_ok : ∀ f ∈ head.fields, FieldOk resource p framing f
  ranged : status = 206 → .contentRange ∈ head.fields.map kindOf
  framed : ∀ kind ∈ framing.field, kind ∈ head.fields.map kindOf

/-- A connection on which all of the answer arrives; behind a declared end there may be more. -/
def Answer.Arrives {resource : List UInt8} {p : ℕ} (answer : Answer resource p)
    (input : List Event) : Prop :=
  ∃ tail, arriving input = answer.head.wire ++ tail ∧
    match answer.framing with
    | .closeDelimited body => tail = body ∧ endsClosed input = true
    | f => f.wire <+: tail

/-- The next `gc_net_open` meets a server that answers honestly, and no write fails. -/
def Honest (resource : List UInt8) (p : ℕ) (dials : List Dial) : Prop :=
  ∃ (answer : Answer resource p) (input : List Event) (sends : List (Option ℕ))
    (rest : List Dial), dials = .connected input sends :: rest ∧ none ∉ sends ∧
      answer.Arrives input

/-! ## Its head -/

section Head

variable {resource : List UInt8} {p : ℕ} {framing : Framing}

theorem literal_append (s t : List UInt8) : literal s (s ++ t) = some t := by
  rw [literal, if_pos (List.isPrefixOf_iff_prefix.mpr (List.prefix_append s t)), List.drop_left]

theorem integer_numeral {v : List UInt8} {n : ℕ} (hv : Numeral v n) (hn : n < 2 ^ 63) :
    integer v = some (n : ℤ) := by
  have hscan := scanInt_numeral (t := []) hv (by simp)
  rw [List.append_nil] at hscan
  obtain ⟨c, v', rfl⟩ := List.exists_cons_of_ne_nil hv.ne
  have hc : isDigit ((c :: v').headD 0) = true := hv.digits c List.mem_cons_self
  rw [integer, if_pos hc, hscan]
  exact if_pos (by exact_mod_cast hn)

theorem scanStatus_ok {minor code reason : List UInt8} {n status : ℕ} (hminor : Numeral minor n)
    (hcode : Numeral code status) (hreason : ∀ c ∈ reason.head?, isDigit c = false)
    (hstatus : status < 2 ^ 31) :
    scanStatus (ascii "HTTP/1." ++ (minor ++ 32 :: (code ++ reason))) = some (status : ℤ) := by
  have hcode' := scanInt_numeral hcode hreason
  have hminor' := scanInt_numeral (t := 32 :: (code ++ reason)) hminor (by simp; decide)
  rw [scanStatus, literal_append, Option.bind_some, hminor']
  simp only [scanInt_blank, hcode', clamp32]
  congr 1
  omega

theorem scanRange_ok {first last total : List UInt8} {a b n : ℕ} (hfirst : Numeral first a)
    (hlast : Numeral last b) (htotal : Numeral total n) (ha : a < 2 ^ 63) (hb : b < 2 ^ 63)
    (hn : n < 2 ^ 63) :
    scanRange (ascii "bytes " ++ (first ++ 45 :: (last ++ 47 :: total))) =
      some ((a : ℤ), (b : ℤ), (n : ℤ)) := by
  have hfirst' := scanInt_numeral (t := 45 :: (last ++ 47 :: total)) hfirst (by simp; decide)
  have hlast' := scanInt_numeral (t := 47 :: total) hlast (by simp; decide)
  have htotal' := scanInt_numeral (t := []) htotal (by simp)
  rw [List.append_nil] at htotal'
  have hblank : ascii "bytes " = ascii "bytes" ++ [32] := by decide
  rw [scanRange, hblank, List.append_assoc, literal_append, Option.bind_some, List.singleton_append,
    scanInt_blank, hfirst']
  simp only [hlast', htotal', clamp64, Option.some.injEq, Prod.mk.injEq]
  omega

/-- What the fields of the given kinds do to a request, as far as the body depends on it: `n` is
the number of bytes asked for, and the range is from `p` to the end of `size` bytes. -/
def GcHttp.told (h : GcHttp κ) (kinds : List Field) (p n size : ℕ) : GcHttp κ :=
  { h with
    length := if .contentLength ∈ kinds then n else h.length
    chunked := if .transferEncoding ∈ kinds then true else h.chunked
    rangeStart := if .contentRange ∈ kinds then p else h.rangeStart
    rangeEnd := if .contentRange ∈ kinds then size - 1 else h.rangeEnd
    total := if .contentRange ∈ kinds then size else h.total }

/-- One field of an answer. -/
theorem headerField_answer {h : GcHttp κ} {name v : List UInt8} (hp : p < resource.length)
    (hsize : resource.length < 2 ^ 63)
    (hlength : h.length = -1 ∨ h.length = (resource.drop p).length)
    (hv : ValueOk resource p framing v (fieldOf name)) :
    ∃ location contentType icyName icyInterval, headerField h name v =
      (true, { h.told [fieldOf name] p (resource.drop p).length resource.length with
        location := location
        contentType := contentType
        icyName := icyName
        icyInterval := icyInterval }) := by
  have hdrop : (resource.drop p).length < 2 ^ 63 := by
    rw [List.length_drop]
    omega
  unfold headerField
  -- Every kind of field says what the answer has to say, or nothing that is used.
  cases hname : fieldOf name with
  | contentLength =>
      rw [hname] at hv
      refine ⟨h.location, h.contentType, h.icyName, h.icyInterval, ?_⟩
      simp only [integer_numeral hv.2 hdrop]
      rw [if_neg (by omega)]
      simp [GcHttp.told]
  | transferEncoding =>
      rw [hname] at hv
      refine ⟨h.location, h.contentType, h.icyName, h.icyInterval, ?_⟩
      simp only [hv.2, if_true]
      simp [GcHttp.told]
  | contentEncoding =>
      rw [hname] at hv
      have hv : eqNoCase v (ascii "identity") = true := hv
      refine ⟨h.location, h.contentType, h.icyName, h.icyInterval, ?_⟩
      simp only [hv, if_true]
      simp [GcHttp.told]
  | location =>
      rw [hname] at hv
      have hv : v.length < 2304 := hv
      refine ⟨v, h.contentType, h.icyName, h.icyInterval, ?_⟩
      simp only [if_neg (not_le.mpr hv)]
      simp [GcHttp.told]
  | contentType =>
      exact ⟨h.location, v.take 127, h.icyName, h.icyInterval, by simp [GcHttp.told]⟩
  | icyName =>
      exact ⟨h.location, h.contentType, v.take 127, h.icyInterval, by simp [GcHttp.told]⟩
  | icyMetaint =>
      rw [hname] at hv
      obtain ⟨n, hn, hpos, hlt⟩ := hv
      refine ⟨h.location, h.contentType, h.icyName, n, ?_⟩
      simp only [integer_numeral hn (by omega)]
      rw [if_neg (by omega)]
      simp [GcHttp.told]
  | contentRange =>
      rw [hname] at hv
      obtain ⟨first, last, total, rfl, hfirst, hlast, htotal⟩ := hv
      refine ⟨h.location, h.contentType, h.icyName, h.icyInterval, ?_⟩
      simp only [scanRange_ok hfirst hlast htotal (by omega) (by omega) (by omega)]
      rw [if_neg (by omega)]
      simp [GcHttp.told]
      omega
  | other => exact ⟨h.location, h.contentType, h.icyName, h.icyInterval, by simp [GcHttp.told]⟩

/-- The fields of an answer, by induction on them. -/
theorem headerFields_answer {h : GcHttp κ} {fields : List (List UInt8)} (hp : p < resource.length)
    (hsize : resource.length < 2 ^ 63)
    (hlength : h.length = -1 ∨ h.length = (resource.drop p).length)
    (hfields : ∀ f ∈ fields, FieldOk resource p framing f) :
    ∃ location contentType icyName icyInterval, headerFields h fields =
      (true, { h.told (fields.map kindOf) p (resource.drop p).length resource.length with
        location := location
        contentType := contentType
        icyName := icyName
        icyInterval := icyInterval }) := by
  induction fields generalizing h with
  | nil => exact ⟨h.location, h.contentType, h.icyName, h.icyInterval, by simp [headerFields, GcHttp.told]⟩
  | cons f fields ih =>
      obtain ⟨name, v, hsplit, hv⟩ := hfields f List.mem_cons_self
      have hkind : kindOf f = fieldOf name := by rw [kindOf, hsplit]
      obtain ⟨location, contentType, icyName, icyInterval, hfield⟩ :=
        headerField_answer hp hsize hlength hv
      obtain ⟨location', contentType', icyName', icyInterval', hrest⟩ := ih
        (h := { h.told [fieldOf name] p (resource.drop p).length resource.length with
          location := location
          contentType := contentType
          icyName := icyName
          icyInterval := icyInterval })
        (by
          show (if _ then _ else _) = _ ∨ (if _ then _ else _) = _
          split_ifs
          · exact Or.inr rfl
          · exact hlength) (fun f' hf => hfields f' (List.mem_cons_of_mem f hf))
      refine ⟨location', contentType', icyName', icyInterval', ?_⟩
      simp only [headerFields, hsplit, hfield]
      rw [hrest, List.map_cons, hkind]
      -- what is told first is told again or stays
      congr 1
      simp only [GcHttp.told, List.mem_cons, List.not_mem_nil, or_false]
      cases fieldOf name <;> simp

end Head

/-! ## What is checked before connecting -/

section Accepts

variable {q : Request κ} {u : GcHttpUrl} {net : Net κ}

/-- What `gc_http_open` checks before it connects, for a URL with the parts `u`. -/
structure Accepted (url auth : List UInt8) (u : GcHttpUrl) : Prop where
  parse : gcHttpParseUrl url = some u
  url_fits : url.length < gcHttpUrlMax
  auth_safe : safeText auth = true
  plain : ¬ (u.tls = true ∧ auth ≠ [])
  auth_fits : auth.length ≤ 1024

/-- A round that does not fail has sent its credentials, so they fit. -/
theorem hop_auth_fits {last : Bool} {current : List UInt8}
    (hhop : (hop q last current net).1 ≠ .failed) : q.auth.length ≤ 1024 := by
  by_contra hlong
  refine hhop ?_
  unfold hop
  cases gcHttpParseUrl current with
  | none => rfl
  | some u =>
      simp only
      rcases gcNetOpen u.host u.port u.tls q.cancel q.cancelOpaque net with ⟨_ | c, net'⟩
      · rfl
      · simp only [exchange, if_pos (not_le.mp hlong)]

/-- A request that was opened has passed the checks. -/
theorem gcHttpOpen_accepted (q : Request κ) (net : Net κ) (hopen : (gcHttpOpen q net).1 = true) :
    ∃ u, Accepted q.url q.auth u := by
  unfold gcHttpOpen at hopen
  rcases halloc : net.alloc3 with ⟨_ | _, net'⟩ <;> rw [halloc] at hopen <;> simp only at hopen
  · cases hopen
  rcases hparse : gcHttpParseUrl q.url with _ | u <;> rw [hparse] at hopen <;> simp only at hopen
  · cases hopen
  by_cases hinvalid : gcHttpUrlMax ≤ q.url.length ∨
      (q.method ≠ ascii "GET" ∧ q.method ≠ ascii "PROPFIND") ∨ safeText q.auth = false
  · rw [if_pos hinvalid] at hopen
    cases hopen
  rw [if_neg hinvalid] at hopen
  by_cases hplain : u.tls = true ∧ q.auth ≠ []
  · rw [if_pos hplain] at hopen
    cases hopen
  rw [if_neg hplain] at hopen
  have hok : (hop q false q.url net').1 ≠ .failed := by
    intro hfailed
    rcases hhop : hop q false q.url net' with ⟨next | _ | _, h, net₂⟩ <;> rw [hhop] at hfailed
    · cases hfailed
    · cases hfailed
    · rw [openLoop, hhop] at hopen
      cases hopen
  rw [not_or, not_or] at hinvalid
  exact ⟨u, hparse, not_le.mp hinvalid.1, by simpa using hinvalid.2.2, hplain,
    hop_auth_fits hok⟩

/-- A request for a resource from the byte `p` on. -/
structure RangedGet (q : Request κ) (p : ℕ) : Prop where
  method : q.method = ascii "GET"
  body : q.body = none
  depth : q.depth < 0
  icy : q.icy = false
  offset : q.offset = p

end Accepts

/-! ## The answer is accepted -/

section Opens

variable {q : Request κ} {u : GcHttpUrl} {net : Net κ} {resource : List UInt8} {p : ℕ}

/-- An open request that is about to read the resource from `p` on. -/
structure Ready (resource : List UInt8) (p : ℕ) (h : GcHttp κ) : Prop where
  body : ∃ framing, Starts h framing ∧ ArrivesWhole framing h ∧ framing.body = resource.drop p
  total : h.total = -1 ∨ h.total = resource.length
  length : h.length = -1 ∨ h.length = (resource.drop p).length

/-- Every field of the head has a value that says what is sent. -/
theorem Answer.value_of_mem (answer : Answer resource p) {kind : Field}
    (hmem : kind ∈ answer.head.fields.map kindOf) :
    ∃ v, ValueOk resource p answer.framing v kind := by
  obtain ⟨f, hf, rfl⟩ := List.mem_map.mp hmem
  obtain ⟨name, v, hsplit, hv⟩ := answer.fields_ok f hf
  have hkind : kindOf f = fieldOf name := by rw [kindOf, hsplit]
  exact ⟨_, hkind ▸ hv⟩

theorem Answer.contentLength_mem (answer : Answer resource p) :
    .contentLength ∈ answer.head.fields.map kindOf ↔
      ∃ body, answer.framing = .contentLength body := by
  refine ⟨fun hmem => ?_, fun ⟨body, hframing⟩ => ?_⟩
  · obtain ⟨v, hv, -⟩ := answer.value_of_mem hmem
    exact hv
  · refine answer.framed _ ?_
    rw [hframing]
    rfl

theorem Answer.transferEncoding_mem (answer : Answer resource p) :
    .transferEncoding ∈ answer.head.fields.map kindOf ↔
      ∃ chunks last, answer.framing = .chunked chunks last := by
  refine ⟨fun hmem => ?_, fun ⟨chunks, last, hframing⟩ => ?_⟩
  · obtain ⟨v, hv, -⟩ := answer.value_of_mem hmem
    exact hv
  · refine answer.framed _ ?_
    rw [hframing]
    rfl

/-- How a request takes the body of an answer, after the fields of its head. -/
theorem Answer.told_framing (answer : Answer resource p) {h : GcHttp κ} {size : ℕ}
    (hlength : h.length = -1) (hchunked : h.chunked = false) {t : GcHttp κ}
    (ht : t = h.told (answer.head.fields.map kindOf) p (resource.drop p).length size) :
    match answer.framing with
    | .chunked _ _ => t.chunked = true ∧ t.length = -1
    | .contentLength body => t.chunked = false ∧ t.length = body.length
    | .closeDelimited _ => t.chunked = false ∧ t.length = -1 := by
  have hbody := answer.body_eq
  have hcl := answer.contentLength_mem
  have hte := answer.transferEncoding_mem
  subst ht
  -- An answer tells its framing once, by the field that belongs to it.
  cases hframing : answer.framing with
  | chunked chunks last =>
      have hnot : .contentLength ∉ answer.head.fields.map kindOf := by
        rw [hcl, hframing]
        rintro ⟨body, ⟨⟩⟩
      exact ⟨if_pos (hte.mpr ⟨chunks, last, hframing⟩), (if_neg hnot).trans hlength⟩
  | contentLength body =>
      have hnot : .transferEncoding ∉ answer.head.fields.map kindOf := by
        rw [hte, hframing]
        rintro ⟨chunks, last, ⟨⟩⟩
      rw [hframing] at hbody
      exact ⟨(if_neg hnot).trans hchunked, (if_pos (hcl.mpr ⟨body, hframing⟩)).trans (by rw [← hbody]; rfl)⟩
  | closeDelimited body =>
      have hnot : .transferEncoding ∉ answer.head.fields.map kindOf := by
        rw [hte, hframing]
        rintro ⟨chunks, last, ⟨⟩⟩
      have hnot' : .contentLength ∉ answer.head.fields.map kindOf := by
        rw [hcl, hframing]
        rintro ⟨body, ⟨⟩⟩
      exact ⟨(if_neg hnot).trans hchunked, (if_neg hnot').trans hlength⟩

/-- The head of an answer is read, and what follows it is about to be. -/
theorem headers_answer (current : List UInt8) {c : GcConnection κ} (answer : Answer resource p)
    (hp : p < resource.length) (hsize : resource.length < 2 ^ 63) (hallocs : net.allocs = [])
    (harrives : answer.Arrives c.input) :
    ∃ h c', headers { GcHttp.fresh κ current with conn := some c } net = (true, h, net) ∧
      h.conn = some c' ∧ c'.sent = c.sent ∧ h.status = answer.status ∧ Ready resource p h ∧
      (answer.status = 206 → h.rangeStart = p ∧ h.rangeEnd = resource.length - 1) := by
  obtain ⟨tail, hinput, htail⟩ := harrives
  obtain ⟨minor, n, code, reason, hline, hminor, hcode, hreason⟩ := answer.status_line
  have hstatus : scanStatus answer.head.statusLine = some (answer.status : ℤ) := by
    rw [hline]
    refine scanStatus_ok hminor hcode hreason ?_
    rcases answer.status_eq with h206 | ⟨h200, -⟩ <;> omega
  obtain ⟨location, contentType, icyName, icyInterval, hfields⟩ :=
    headerFields_answer
      (h := { GcHttp.fresh κ current with conn := some c, status := answer.status }) hp hsize
      (Or.inl rfl) answer.fields_ok
  have hpending : GcHttp.pending { GcHttp.fresh κ current with conn := some c } =
      answer.head.wire ++ tail := hinput
  generalize ht : GcHttp.told { GcHttp.fresh κ current with
    conn := some c, status := (answer.status : ℤ) } (answer.head.fields.map kindOf) p
    (resource.drop p).length resource.length = t at hfields
  have hframed := answer.told_framing rfl rfl ht.symm
  -- the framings exclude each other, so the client accepts the head
  have hclear : ¬ (t.chunked = true ∧ 0 ≤ t.length) := by
    rintro ⟨hchunked, hlength⟩
    cases hframing : answer.framing <;> rw [hframing] at hframed <;>
      simp only [hframed.1, Bool.false_eq_true] at hchunked
    omega
  obtain ⟨c₁, input, buffer, hc₁, htail', hcloses, hheaders⟩ :=
    headers_ok answer.head rfl hallocs hpending hstatus hfields hclear
  cases hc₁
  have hclosed : endsClosed input = endsClosed c.input := hcloses
  refine ⟨_, _, hheaders, rfl, rfl, ?_, ⟨⟨answer.framing, ⟨rfl, ?_, ?_, ?_, ?_, ?_⟩, ?_,
    answer.body_eq⟩, ?_, ?_⟩, fun h206 => ?_⟩
  case refine_6 =>
    cases hframing : answer.framing with
    | chunked chunks last =>
        rw [hframing] at hframed
        exact hframed.1
    | contentLength body =>
        rw [hframing] at hframed
        exact hframed
    | closeDelimited body =>
        rw [hframing] at hframed
        exact ⟨hframed.1, by simp only [hframed.2]; decide⟩
  case refine_7 =>
    unfold ArrivesWhole
    cases hframing : answer.framing with
    | closeDelimited body =>
        rw [hframing] at htail
        exact ⟨htail'.trans htail.1, hclosed.trans htail.2⟩
    | contentLength body | chunked chunks last =>
        rw [hframing] at htail
        show _ <+: buffer ++ arriving input
        rw [htail']
        exact htail
  case refine_8 | refine_9 =>
    subst ht
    simp only [GcHttp.told, GcHttp.fresh, GcHttp.zero]
    split_ifs
    · exact Or.inr rfl
    · exact Or.inl rfl
  case refine_10 =>
    subst ht
    simp only [GcHttp.told, if_pos (answer.ranged h206), and_self]
  all_goals
    subst ht
    rfl

/-- A head with the whole resource or with the range that was asked for opens the request. -/
theorem answer_opened {current : List UInt8} {last : Bool} {h : GcHttp κ} (hget : RangedGet q p)
    (hp : p < resource.length) (hstatus : h.status = 206 ∨ (h.status = 200 ∧ p = 0))
    (hlength : h.length = -1 ∨ h.length = (resource.drop p).length)
    (hrange : h.status = 206 → h.rangeStart = p ∧ h.rangeEnd = resource.length - 1) :
    answer q last current u h net = (.opened, h, net) := by
  have hoffset := hget.offset
  rw [List.length_drop] at hlength
  have hredirect : isRedirect h.status = false := by
    rcases hstatus with h206 | ⟨h200, -⟩
    · rw [h206]
      decide
    · rw [h200]
      decide
  have hranged : ¬ (h.status = 206 ∧ (q.offset < 0 ∨ h.rangeStart ≠ q.offset ∨ h.rangeEnd < 0 ∨
      (0 ≤ h.length ∧ h.length ≠ h.rangeEnd - h.rangeStart + 1))) := by
    rintro ⟨h206, hbad⟩
    obtain ⟨hstart, hend⟩ := hrange h206
    omega
  rw [answer, hredirect, if_neg (by decide), if_neg (by omega), if_neg hranged, if_neg (by omega),
    if_neg (by omega)]

/-- The round on the connection with an answer: the request is sent, and its head accepted. -/
theorem exchange_answer (current : List UInt8) (last : Bool) (net : Net κ) {c : GcConnection κ}
    (haccept : Accepted q.url q.auth u) (hget : RangedGet q p) (a : Answer resource p)
    (hp : p < resource.length) (hsize : resource.length < 2 ^ 63) (hallocs : net.allocs = [])
    (hsent : c.sent = []) (hsends : none ∉ c.sends) (harrives : a.Arrives c.input) :
    ∃ h c', exchange q last current u { GcHttp.fresh κ current with conn := some c } net =
        (.opened, h, net) ∧
      h.conn = some c' ∧ c'.sent = requestText q u ∧ Ready resource p h := by
  obtain ⟨c₁, sent, hc₁, -, hinput, hsent₁, -, hall, hok⟩ :=
    sendLoop_sent (h := { GcHttp.fresh κ current with conn := some c }) (p := requestText q u) rfl
      (Nat.le_refl _)
  obtain ⟨hsend, -⟩ := hok hsends
  obtain ⟨rfl, hstate⟩ := hall hsend
  -- Every send succeeds, so the whole request goes out.
  have hall₁ : sendAll { GcHttp.fresh κ current with conn := some c } (requestText q u) =
      (true, { GcHttp.fresh κ current with conn := some c₁ }) := Prod.ext hsend hstate
  have hbody : sendAll { GcHttp.fresh κ current with conn := some c₁ } (q.body.getD []) =
      (true, { GcHttp.fresh κ current with conn := some c₁ }) := by
    rw [hget.body]
    rfl
  -- and the headers say what `answer` tests
  obtain ⟨h, c', hheaders, hc', hsent', hstatus, hready, hranged⟩ :=
    headers_answer current a hp hsize hallocs (hinput ▸ harrives)
  have hstatus' := a.status_eq
  rw [hsent, List.nil_append] at hsent₁
  refine ⟨h, c', ?_, hc', hsent'.trans hsent₁, hready⟩
  have hfits : (requestText q u).length < 8192 :=
    (fits (gcHttpParseUrl_bounds haccept.parse) haccept.auth_fits (by rw [hget.offset]; omega)
      (hget.depth.trans (by decide)) (Or.inl hget.method)).request
  rw [exchange, if_neg (not_lt.mpr haccept.auth_fits), if_neg (not_le.mpr hfits), hall₁]
  simp only [hbody, hheaders]
  exact answer_opened hget hp (by omega) hready.length (fun h => hranged (by omega))

/-- An accepted request that meets an honest answer is sent on a new connection, and is about to
read the resource from `p` on. -/
theorem gcHttpOpen_answer (haccept : Accepted q.url q.auth u) (hget : RangedGet q p)
    (hp : p < resource.length) (hsize : resource.length < 2 ^ 63) (hallocs : net.allocs = [])
    (hhonest : Honest resource p net.dials) :
    ∃ h c net', gcHttpOpen q net = (true, h, net') ∧
      net'.opened = ⟨u.host, u.port, u.tls, q.cancel, q.cancelOpaque⟩ :: net.opened ∧
      h.conn = some c ∧ c.sent = requestText q u ∧ Ready resource p h := by
  obtain ⟨a, input, sends, rest, hdials, hsends, harrives⟩ := hhonest
  obtain ⟨h, c, hexchange, hconn, hsent, hready⟩ := exchange_answer q.url false
    { net with
      dials := rest
      opened := ⟨u.host, u.port, u.tls, q.cancel, q.cancelOpaque⟩ :: net.opened }
    (c := ⟨u.host, u.port, u.tls, q.cancel, q.cancelOpaque, input, sends, []⟩)
    haccept hget a hp hsize hallocs rfl hsends harrives
  refine ⟨h, c, { net with
    dials := rest
    opened := ⟨u.host, u.port, u.tls, q.cancel, q.cancelOpaque⟩ :: net.opened }, ?_, rfl, hconn,
    hsent, hready⟩
  have halloc : net.alloc3 = (true, net) := by
    simp only [Net.alloc3, Net.alloc, hallocs, Bool.and_self]
  -- The request passes the tests in front of the loop.
  have hvalid : ¬ (gcHttpUrlMax ≤ q.url.length ∨
      (q.method ≠ ascii "GET" ∧ q.method ≠ ascii "PROPFIND") ∨ safeText q.auth = false) := by
    rintro (hlong | ⟨hmethod, -⟩ | hunsafe)
    · exact absurd haccept.url_fits (not_lt.mpr hlong)
    · exact hmethod hget.method
    · rw [haccept.auth_safe] at hunsafe
      cases hunsafe
  simp only [gcHttpOpen, halloc, haccept.parse]
  rw [if_neg hvalid, if_neg haccept.plain]
  simp only [openLoop, hop, haccept.parse, gcNetOpen, hdials]
  rw [hexchange]

end Opens

end WiiMC.Http
