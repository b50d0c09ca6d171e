import WiiMC.Http.Outcome

/-!
# What is sent

The request of `gc_http_open`, as a server reads it: cut at every line feed, its first line cut at
every blank, and the other lines at their first colon. The URL may come from a redirect, the
credentials from a file; neither gets a line of its own.

* `requestLines`: the request line and the fields that are meant.
* `WellFormed`: the text is cut into these lines and an empty one.
* `Fits`: nothing is cut off by the buffers in which the text is put together.
* `gcHttpOpen_request`: both hold of all that is sent on any connection.
-/

namespace WiiMC.Http

open Bytes

variable {κ : Type}

def requestLine (q : Request κ) (u : GcHttpUrl) : List UInt8 :=
  q.method ++ ascii " " ++ u.path ++ ascii " HTTP/1.1"

/-- The fields of every request, names and values. -/
def baseFields (u : GcHttpUrl) : List (List UInt8 × List UInt8) :=
  [(ascii "Host", u.host ++ ascii ":" ++ decimal u.port.toNat),
    (ascii "User-Agent", ascii "WiiMC-GCN-Online"),
    (ascii "Accept", ascii "*/*"),
    (ascii "Accept-Encoding", ascii "identity"),
    (ascii "Connection", ascii "close")]

/-- The fields that depend on the arguments. -/
def extraFields (q : Request κ) : List (List UInt8 × List UInt8) :=
  (if 0 ≤ q.offset then [(ascii "Range", ascii "bytes=" ++ decimal q.offset.toNat ++ ascii "-")]
    else []) ++
  (if q.icy then [(ascii "Icy-MetaData", ascii "1")] else []) ++
  (if 0 ≤ q.depth then [(ascii "Depth", decimal q.depth.toNat),
      (ascii "Content-Type", ascii "application/xml; charset=utf-8")]
    else []) ++
  (if q.auth = [] then [] else [(ascii "Authorization", ascii "Basic " ++ q.auth)]) ++
  (match q.body with
    | none => []
    | some body => [(ascii "Content-Length", decimal (body.length % 2 ^ 32))])

def requestFields (q : Request κ) (u : GcHttpUrl) : List (List UInt8 × List UInt8) :=
  baseFields u ++ extraFields q

def fieldLine (f : List UInt8 × List UInt8) : List UInt8 := f.1 ++ ascii ": " ++ f.2

/-- The lines that are meant, without the empty one at the end. -/
def requestLines (q : Request κ) (u : GcHttpUrl) : List (List UInt8) :=
  requestLine q u :: (requestFields q u).map fieldLine

/-- The names a request may have, in their order. -/
def fieldNames : List (List UInt8) :=
  [ascii "Host", ascii "User-Agent", ascii "Accept", ascii "Accept-Encoding", ascii "Connection",
    ascii "Range", ascii "Icy-MetaData", ascii "Depth", ascii "Content-Type",
    ascii "Authorization", ascii "Content-Length"]

/-- The text is cut into the lines that are meant and an empty one, and these into their parts. -/
structure WellFormed (q : Request κ) (u : GcHttpUrl) : Prop where
  lines : (requestText q u).splitOn 10 = (requestLines q u).map (· ++ [13]) ++ [[13], []]
  safe : ∀ l ∈ requestLines q u, safeText l = true
  words : (requestLine q u).splitOn 32 = [q.method, u.path, ascii "HTTP/1.1"]
  words_ne : q.method ≠ [] ∧ u.path ≠ []
  fields : ∀ f ∈ requestFields q u, splitAt? 58 (fieldLine f) = some (f.1, 32 :: f.2)
  names : ((requestFields q u).map Prod.fst).Sublist fieldNames
  /-- No name occurs twice. -/
  once : ((requestFields q u).map Prod.fst).Nodup

/-- The texts that are formatted into `field`. -/
def fieldTexts (q : Request κ) : List (List UInt8) :=
  (if 0 ≤ q.offset then [ascii "Range: bytes=" ++ decimal q.offset.toNat ++ ascii "-\r\n"]
    else []) ++
  (if 0 ≤ q.depth then [ascii "Depth: " ++ decimal q.depth.toNat ++
      ascii "\r\nContent-Type: application/xml; charset=utf-8\r\n"]
    else []) ++
  (match q.body with
    | none => []
    | some body => [ascii "Content-Length: " ++ decimal (body.length % 2 ^ 32) ++ ascii "\r\n"])

/-- The texts and their final 0 fit `field[128]`, `extra[1536]` and the 8192 bytes of the request. -/
structure Fits (q : Request κ) (u : GcHttpUrl) : Prop where
  field : ∀ t ∈ fieldTexts q, t.length < 128
  extra : (requestExtra q).length < 1536
  request : (requestText q u).length < 8192

/-! ## The lines -/

section Lines

variable {q : Request κ} {u : GcHttpUrl}

/-- A safe text has no control character in it. -/
@[simp]
theorem not_mem_of_safeText {s : List UInt8} (hsafe : safeText s = true) {c : UInt8}
    (hc : c < 32) : c ∉ s := fun hmem =>
  absurd (safeText_mem hsafe hmem).1 (UInt8.not_le.mpr hc)

/-- The further fields are lines. -/
theorem requestExtra_eq (q : Request κ) :
    requestExtra q = crlf ((extraFields q).map fieldLine) := by
  simp only [requestExtra, extraFields, List.map_append, crlf_append]
  congr 1
  · congr 1
    · congr 1
      · congr 1
        · split_ifs
          · simp [fieldLine, ascii]
          · rfl
        · split_ifs <;> rfl
      · split_ifs
        · simp [fieldLine, ascii]
        · rfl
    · split_ifs
      · rfl
      · simp [fieldLine, ascii]
  · cases q.body with
    | none => rfl
    | some body => simp [fieldLine, ascii]

/-- The request is its lines and an empty one. -/
theorem requestText_eq (q : Request κ) (u : GcHttpUrl) :
    requestText q u = crlf (requestLines q u ++ [[]]) := by
  rw [requestLines, requestFields, List.map_append, List.cons_append, crlf_cons, crlf_append,
    crlf_append, ← requestExtra_eq]
  simp [requestText, requestLine, baseFields, fieldLine, ascii]

/-- The further fields are of six kinds. -/
theorem mem_extraFields {f : List UInt8 × List UInt8} (hf : f ∈ extraFields q) :
    (∃ n, f = (ascii "Range", ascii "bytes=" ++ decimal n ++ ascii "-")) ∨
    f = (ascii "Icy-MetaData", ascii "1") ∨ (∃ n, f = (ascii "Depth", decimal n)) ∨
    f = (ascii "Content-Type", ascii "application/xml; charset=utf-8") ∨
    f = (ascii "Authorization", ascii "Basic " ++ q.auth) ∨
    ∃ n, f = (ascii "Content-Length", decimal n) := by
  simp only [extraFields, List.mem_append] at hf
  rcases hf with (((hf | hf) | hf) | hf) | hf
  · split_ifs at hf <;> simp only [List.mem_singleton, List.not_mem_nil] at hf
    exact Or.inl ⟨_, hf⟩
  · split_ifs at hf <;> simp only [List.mem_singleton, List.not_mem_nil] at hf
    exact Or.inr (Or.inl hf)
  · split_ifs at hf <;> simp only [List.mem_cons, List.not_mem_nil, or_false] at hf
    rcases hf with hf | hf
    · exact Or.inr (Or.inr (Or.inl ⟨_, hf⟩))
    · exact Or.inr (Or.inr (Or.inr (Or.inl hf)))
  · split_ifs at hf <;> simp only [List.mem_singleton, List.not_mem_nil] at hf
    exact Or.inr (Or.inr (Or.inr (Or.inr (Or.inl hf))))
  · cases hbody : q.body with
    | none => simp [hbody] at hf
    | some body =>
        rw [hbody, List.mem_singleton] at hf
        exact Or.inr (Or.inr (Or.inr (Or.inr (Or.inr ⟨_, hf⟩))))

/-- The names of the fields come in order. -/
theorem requestFields_names (q : Request κ) (u : GcHttpUrl) :
    ((requestFields q u).map Prod.fst).Sublist fieldNames := by
  have hextra : ((extraFields q).map Prod.fst).Sublist
      ([ascii "Range"] ++ [ascii "Icy-MetaData"] ++ [ascii "Depth", ascii "Content-Type"] ++
        [ascii "Authorization"] ++ [ascii "Content-Length"]) := by
    simp only [extraFields, List.map_append]
    refine ((((?_ : List.Sublist _ _).append ?_).append ?_).append ?_).append ?_
    · split_ifs <;> simp
    · split_ifs <;> simp
    · split_ifs <;> simp
    · split_ifs <;> simp
    · cases q.body <;> simp
  rw [requestFields, List.map_append]
  exact (List.Sublist.refl ((baseFields u).map Prod.fst)).append hextra

/-- The names of the fields are safe, and have no colon in them. -/
theorem fieldNames_ok : ∀ name ∈ fieldNames, safeText name = true ∧ 58 ∉ name := by decide

/-- No value has a control character. -/
theorem requestFields_safe (hclean : u.Clean) (hauth : safeText q.auth = true)
    {f : List UInt8 × List UInt8} (hf : f ∈ requestFields q u) : safeText f.2 = true := by
  rcases List.mem_append.mp hf with hf | hf
  · simp only [baseFields, List.mem_cons, List.not_mem_nil, or_false] at hf
    rcases hf with rfl | rfl | rfl | rfl | rfl
    · rw [safeText_append, safeText_append, hclean.safeText_host, safeText_decimal]
      rfl
    all_goals rfl
  · rcases mem_extraFields hf with ⟨n, rfl⟩ | rfl | ⟨n, rfl⟩ | rfl | rfl | ⟨n, rfl⟩
    · rw [safeText_append, safeText_append, safeText_decimal]
      rfl
    · rfl
    · exact safeText_decimal n
    · rfl
    · rw [safeText_append, hauth]
      rfl
    · exact safeText_decimal n

/-- The request line has three words. -/
theorem requestLine_words (hclean : u.Clean)
    (hmethod : q.method = ascii "GET" ∨ q.method = ascii "PROPFIND") :
    (requestLine q u).splitOn 32 = [q.method, u.path, ascii "HTTP/1.1"] := by
  have hblank : 32 ∉ q.method := by rcases hmethod with h | h <;> rw [h] <;> decide
  have hpath : 32 ∉ u.path := fun hmem => absurd (hclean.path 32 hmem).1 (by decide)
  rw [show requestLine q u = q.method ++ 32 :: (u.path ++ 32 :: ascii "HTTP/1.1") by
      simp [requestLine, ascii],
    List.splitOn_append_cons_self_of_not_mem hblank,
    List.splitOn_append_cons_self_of_not_mem hpath]
  rfl

/-- The lines of the request are safe. -/
theorem requestLines_safe (hclean : u.Clean) (hauth : safeText q.auth = true)
    (hmethod : q.method = ascii "GET" ∨ q.method = ascii "PROPFIND") {l : List UInt8}
    (hl : l ∈ requestLines q u) : safeText l = true := by
  rcases List.mem_cons.mp hl with rfl | hl
  · have hsafe : safeText q.method = true := by rcases hmethod with h | h <;> rw [h] <;> rfl
    rw [requestLine, safeText_append, safeText_append, safeText_append, hsafe, hclean.safeText_path]
    rfl
  · obtain ⟨f, hf, rfl⟩ := List.mem_map.mp hl
    have hname := fieldNames_ok f.1
      ((requestFields_names q u).subset (List.mem_map_of_mem hf))
    rw [fieldLine, safeText_append, safeText_append, hname.1, requestFields_safe hclean hauth hf]
    rfl

/-- A request to an accepted URL with accepted credentials is read as it is meant. -/
theorem wellFormed (hclean : u.Clean) (hauth : safeText q.auth = true)
    (hmethod : q.method = ascii "GET" ∨ q.method = ascii "PROPFIND") : WellFormed q u := by
  have hlines := fun l hl => requestLines_safe (l := l) hclean hauth hmethod hl
  refine ⟨?_, hlines, requestLine_words hclean hmethod, ⟨?_, ?_⟩, fun f hf => ?_,
    requestFields_names q u, (requestFields_names q u).nodup (by decide)⟩
  · rw [requestText_eq, splitOn_crlf, List.map_append, List.append_assoc]
    · rfl
    · intro l hl
      rcases List.mem_append.mp hl with hl | hl
      · exact not_mem_of_safeText (hlines l hl) (by decide)
      · rw [List.mem_singleton.mp hl]
        exact List.not_mem_nil
  · rcases hmethod with h | h <;> rw [h] <;> decide
  · intro hnil
    have hstart := hclean.path_start
    rw [hnil] at hstart
    cases hstart
  · have hname := fieldNames_ok f.1
      ((requestFields_names q u).subset (List.mem_map_of_mem hf))
    rw [fieldLine, List.append_assoc]
    exact splitAt?_append hname.2 (32 :: f.2)

end Lines

/-! ## The buffers -/

section Buffers

variable {q : Request κ} {u : GcHttpUrl}

theorem length_ite_le {α : Type*} {l : List α} {n : ℕ} (p : Prop) [Decidable p]
    (hl : l.length ≤ n) : (if p then l else []).length ≤ n := by
  split_ifs
  · exact hl
  · exact Nat.zero_le n

/-- The range is short. -/
theorem length_range_le (hoffset : q.offset < 2 ^ 63) :
    (ascii "Range: bytes=" ++ decimal q.offset.toNat ++ ascii "-\r\n").length ≤ 35 := by
  have hdigits : (decimal q.offset.toNat).length ≤ 19 := length_decimal_le (by decide) (by omega)
  simp [ascii]
  omega

/-- The depth and the type are short. -/
theorem length_depth_le (hdepth : q.depth < 2 ^ 31) :
    (ascii "Depth: " ++ decimal q.depth.toNat ++
      ascii "\r\nContent-Type: application/xml; charset=utf-8\r\n").length ≤ 65 := by
  have hdigits : (decimal q.depth.toNat).length ≤ 10 := length_decimal_le (by decide) (by omega)
  simp [ascii]
  omega

/-- The length of the body is short. -/
theorem length_contentLength_le (n : ℕ) :
    (ascii "Content-Length: " ++ decimal (n % 2 ^ 32) ++ ascii "\r\n").length ≤ 28 := by
  have hdigits : (decimal (n % 2 ^ 32)).length ≤ 10 := length_decimal_le (by decide) (by omega)
  generalize decimal (n % 2 ^ 32) = digits at hdigits
  simp [ascii]
  omega

/-- The fields that depend on the arguments take at most 1192 bytes. -/
theorem length_requestExtra_le (hauth : q.auth.length ≤ 1024) (hoffset : q.offset < 2 ^ 63)
    (hdepth : q.depth < 2 ^ 31) : (requestExtra q).length ≤ 1192 := by
  have hrange := length_ite_le (0 ≤ q.offset) (length_range_le hoffset)
  have hicy := length_ite_le (n := 17) (q.icy = true) (show (ascii "Icy-MetaData: 1\r\n").length ≤ 17
    by decide)
  have hdepth' := length_ite_le (0 ≤ q.depth) (length_depth_le hdepth)
  have hauth' : (if q.auth = [] then [] else ascii "Authorization: Basic " ++ q.auth ++
      ascii "\r\n").length ≤ 1047 := by
    split_ifs
    · exact Nat.zero_le _
    · simp [ascii]
      omega
  rw [requestExtra, List.length_append, List.length_append, List.length_append, List.length_append]
  cases hbody : q.body with
  | none =>
      simp only [List.length_nil]
      omega
  | some body =>
      have hlength := length_contentLength_le body.length
      simp only
      omega

/-- A request to an accepted URL fits its buffers. -/
theorem fits (hbounds : u.Bounded) (hauth : q.auth.length ≤ 1024) (hoffset : q.offset < 2 ^ 63)
    (hdepth : q.depth < 2 ^ 31) (hmethod : q.method = ascii "GET" ∨ q.method = ascii "PROPFIND") :
    Fits q u := by
  obtain ⟨hhost, hpath, hport⟩ := hbounds
  have hextra := length_requestExtra_le hauth hoffset hdepth
  have hport' : (decimal u.port.toNat).length ≤ 5 := length_decimal_le (by decide) (by omega)
  have hmethod' : q.method.length ≤ 8 := by rcases hmethod with h | h <;> rw [h] <;> decide
  refine ⟨fun t ht => ?_, by omega, ?_⟩
  · simp only [fieldTexts, List.mem_append] at ht
    rcases ht with (ht | ht) | ht
    · split_ifs at ht <;> simp only [List.mem_singleton, List.not_mem_nil] at ht
      exact ht ▸ (length_range_le hoffset).trans_lt (by decide)
    · split_ifs at ht <;> simp only [List.mem_singleton, List.not_mem_nil] at ht
      exact ht ▸ (length_depth_le hdepth).trans_lt (by decide)
    · cases hbody : q.body with
      | none => simp [hbody] at ht
      | some body =>
          rw [hbody, List.mem_singleton] at ht
          exact ht ▸ (length_contentLength_le body.length).trans_lt (by decide)
  · simp only [requestText, List.length_append]
    simp [ascii]
    omega

end Buffers

/-! ## The whole request -/

/-- What `gc_http_open` checks before it calls `gc_net_open`, for a URL with the parts `u`. -/
structure Admitted (q : Request κ) (net : Net κ) (u : GcHttpUrl) : Prop where
  memory : net.alloc3.1 = true
  parse : gcHttpParseUrl q.url = some u
  short : q.url.length < gcHttpUrlMax
  method : q.method = ascii "GET" ∨ q.method = ascii "PROPFIND"
  auth : safeText q.auth = true
  plain : u.tls = true → q.auth = []

section Whole

variable {q : Request κ} {net : Net κ} {u : GcHttpUrl}

/-- The call of `gc_net_open` for a URL. -/
def Request.opens (q : Request κ) (u : GcHttpUrl) : Opened κ :=
  ⟨u.host, u.port, u.tls, q.cancel, q.cancelOpaque⟩

/-- A round for an accepted URL makes its call. -/
theorem hop_opened (last : Bool) (net : Net κ) {current : List UInt8}
    (hparse : gcHttpParseUrl current = some u) :
    (hop q last current net).2.2.opened = q.opens u :: net.opened := by
  unfold hop
  obtain ⟨r, dials, hopen, hconn⟩ :=
    gcNetOpen_cases u.host u.port u.tls q.cancel q.cancelOpaque net
  simp only [hparse, hopen]
  cases r with
  | error error => rfl
  | ok c =>
      obtain ⟨-, hsent⟩ := hconn c rfl
      exact (exchange_safe q last current u
        { net with dials := dials, opened := q.opens u :: net.opened }
        (h := { GcHttp.fresh κ current with conn := some c }) rfl hsent).1.1

/-- The first call is for the URL that was given, whatever comes after it. -/
theorem openLoop_opened (left : ℕ) (net : Net κ) {current : List UInt8}
    (hparse : gcHttpParseUrl current = some u) :
    ∃ later, (openLoop q left current net).2.2.opened = later ++ q.opens u :: net.opened := by
  cases left with
  | zero => exact ⟨[], hop_opened true net hparse⟩
  | succ left =>
      have hfirst : (hop q false current net).2.2.opened = q.opens u :: net.opened :=
        hop_opened false net hparse
      rw [openLoop]
      rcases hhop : hop q false current net with ⟨next | _ | _, h, net'⟩ <;>
        rw [hhop] at hfirst <;> simp only
      · obtain ⟨hops, _, hrounds, -⟩ := openLoop_rounds q left next (gcNetClose h.conn net')
        exact ⟨hops, by rw [hrounds.opened]; exact congrArg _ hfirst⟩
      · exact ⟨[], hfirst⟩
      · exact ⟨[], hfirst⟩

/-- The first call of a request that is admitted is for its URL. -/
theorem gcHttpOpen_opened (h : Admitted q net u) :
    ∃ later, (gcHttpOpen q net).2.2.opened = later ++ q.opens u :: net.opened := by
  have hlog := net.alloc3_sameLog.1
  unfold gcHttpOpen
  rcases halloc : net.alloc3 with ⟨ok, net'⟩
  obtain rfl : ok = true := by
    have hmemory := h.memory
    rwa [halloc] at hmemory
  rw [halloc] at hlog
  have hvalid : ¬ (gcHttpUrlMax ≤ q.url.length ∨
      (q.method ≠ ascii "GET" ∧ q.method ≠ ascii "PROPFIND") ∨ safeText q.auth = false) := by
    rintro (hlong | ⟨hget, hpropfind⟩ | hunsafe)
    · exact absurd h.short (Nat.not_lt.mpr hlong)
    · exact h.method.elim hget hpropfind
    · rw [h.auth] at hunsafe
      cases hunsafe
  have hplain : ¬ (u.tls = true ∧ q.auth ≠ []) := fun htls => htls.2 (h.plain htls.1)
  simp only [h.parse, if_neg hvalid, if_neg hplain]
  obtain ⟨later, hopened⟩ : ∃ later, (openLoop q 5 q.url net').2.2.opened =
      later ++ q.opens u :: net'.opened := openLoop_opened 5 net' h.parse
  simp only at hlog
  rw [hlog] at hopened
  rcases hloop : openLoop q 5 q.url net' with ⟨next | _ | _, h', net''⟩ <;>
    rw [hloop] at hopened <;> exact ⟨later, hopened⟩

/-- Whatever the servers answer, and wherever they redirect to. The calls of `gc_net_open`, the
latest first, begin with one for an accepted URL; each that meets a server makes one of the
connections. What is sent on a connection is a request to an accepted URL and its body, a part of
that only on the connection where it failed. Cut into lines, words and names, the request is what it
is meant to be, and nothing of it is cut off, so that it is never too large. -/
theorem gcHttpOpen_request (q : Request κ) (net : Net κ) (hauth : q.auth.length ≤ 1024)
    (hoffset : q.offset < 2 ^ 63) (hdepth : q.depth < 2 ^ 31) :
    ∃ (rounds : List (Opened κ × Dial)) (conns : List (GcConnection κ)),
      (gcHttpOpen q net).2.2.opened = rounds.map Prod.fst ++ net.opened ∧
      rounds.reverse.map Prod.snd = takeDials rounds.length net.dials ∧
      conns.map GcConnection.origin = (rounds.filter fun x => x.2.made).map Prod.fst ∧
      (gcHttpOpen q net).2.1.conn.toList ++ (gcHttpOpen q net).2.2.closed =
        conns ++ net.closed ∧
      (∀ u, Admitted q net u → ∃ later, rounds.map Prod.fst =
        later ++ [⟨u.host, u.port, u.tls, q.cancel, q.cancelOpaque⟩]) ∧
      ∀ c ∈ conns, ∃ url u, gcHttpParseUrl url = some u ∧
        c.origin = ⟨u.host, u.port, u.tls, q.cancel, q.cancelOpaque⟩ ∧
        c.sent <+: requestText q u ++ q.body.getD [] ∧
        (c.sent = requestText q u ++ q.body.getD [] ∨
          (gcHttpOpen q net).1 = false ∧ conns.head? = some c) ∧
        WellFormed q u ∧ Fits q u := by
  obtain ⟨rounds, conns, hopened, hmet, hmade, hok, hfail⟩ := gcHttpOpen_accounts q net
  obtain ⟨_, conns', -, -, hclosed', hsent, -⟩ := gcHttpOpen_rounds q net
  have hclosed : (gcHttpOpen q net).2.1.conn.toList ++ (gcHttpOpen q net).2.2.closed =
      conns ++ net.closed := by
    cases hret : (gcHttpOpen q net).1 with
    | true =>
        obtain ⟨-, ⟨c, rest, rfl, hconn, hrest⟩, -⟩ := hok hret
        rw [hconn, hrest]
        rfl
    | false =>
        obtain ⟨-, hconn, hrest⟩ := hfail hret
        rw [hconn, hrest]
        rfl
  -- the connections of the calls are those to which the request is sent
  obtain rfl : conns' = conns := List.append_cancel_right (hclosed'.symm.trans hclosed)
  refine ⟨rounds, conns', hopened, hmet, hmade, hclosed, fun u hu => ?_, fun c hc => ?_⟩
  · obtain ⟨later, hlater⟩ := gcHttpOpen_opened hu
    have hcalls : rounds.map Prod.fst ++ net.opened =
        (later ++ [⟨u.host, u.port, u.tls, q.cancel, q.cancelOpaque⟩]) ++ net.opened := by
      rw [← hopened, hlater, List.append_assoc]
      rfl
    exact ⟨later, List.append_cancel_right hcalls⟩
  · obtain ⟨⟨-, url, u, hparse, horigin, hpre, hwhole⟩, hmethod, hsafe⟩ := hsent c hc
    exact ⟨url, u, hparse, horigin, hpre, hwhole,
      wellFormed (gcHttpParseUrl_clean hparse) hsafe hmethod,
      fits (gcHttpParseUrl_bounds hparse) hauth hoffset hdepth hmethod⟩

end Whole

/-- A listing with everything a request can have. -/
def sampleRequest : Request Unit where
  url := ascii "http://192.168.1.2:8080/music?x"
  method := ascii "PROPFIND"
  auth := ascii "dXNlcjpwYXNz"
  body := some (ascii "<D:propfind/>")
  depth := 1
  offset := 5
  icy := true
  cancel := none
  cancelOpaque := 0

/-- A server that redirects and one that answers. -/
def sampleNet : Net Unit where
  dials := [
    .connected (unread (ascii "HTTP/1.1 302 F\r\nLocation: /other\r\n\r\n") []) [],
    .connected (unread (ascii "HTTP/1.1 204 N\r\n\r\n") []) []]
  allocs := []
  opened := []
  closed := []

/-- Both connections are made, and each is sent a whole request. -/
theorem gcHttpOpen_request_sample :
    (gcHttpOpen sampleRequest sampleNet).2.2.opened.length = 2 ∧
    ∃ (rounds : List (Opened Unit × Dial)) (conns : List (GcConnection Unit)),
      (gcHttpOpen sampleRequest sampleNet).2.2.opened = rounds.map Prod.fst ++ [] ∧
      rounds.reverse.map Prod.snd = takeDials rounds.length sampleNet.dials ∧
      conns.map GcConnection.origin = (rounds.filter fun x => x.2.made).map Prod.fst ∧
      (gcHttpOpen sampleRequest sampleNet).2.1.conn.toList ++
        (gcHttpOpen sampleRequest sampleNet).2.2.closed = conns ++ [] ∧
      (∀ u, Admitted sampleRequest sampleNet u → ∃ later, rounds.map Prod.fst =
        later ++ [⟨u.host, u.port, u.tls, none, 0⟩]) ∧
      ∀ c ∈ conns, ∃ url u, gcHttpParseUrl url = some u ∧
        c.origin = ⟨u.host, u.port, u.tls, none, 0⟩ ∧
        c.sent <+: requestText sampleRequest u ++ ascii "<D:propfind/>" ∧
        (c.sent = requestText sampleRequest u ++ ascii "<D:propfind/>" ∨
          (gcHttpOpen sampleRequest sampleNet).1 = false ∧ conns.head? = some c) ∧
        WellFormed sampleRequest u ∧ Fits sampleRequest u :=
  ⟨by decide +kernel,
    gcHttpOpen_request sampleRequest sampleNet (by decide) (by decide) (by decide)⟩

end WiiMC.Http
