import WiiMC.Http.Headers
import WiiMC.Http.Url

/-!
# Opening a request

`gc_http_open` of `http_client.c`: the request, the head of the response and the redirects.

* `hop`: one round of the loop over the redirects, on a connection of its own.
* `gcHttpOpen`: the whole request.
* `gcHttpOpen_safe`: how many connections it opens, where to, and what it sends there.
-/

namespace WiiMC.Http

open Bytes

variable {κ : Type}

/-- The arguments of `gc_http_open`. -/
structure Request (κ : Type) where
  url : List UInt8
  method : List UInt8
  /-- The credentials; a null pointer and the empty string are the same. -/
  auth : List UInt8
  body : Option (List UInt8)
  depth : ℤ
  offset : ℤ
  icy : Bool
  cancel : Option κ
  cancelOpaque : ℕ
  deriving DecidableEq

/-- A request after `memset`. -/
def GcHttp.zero (κ : Type) : GcHttp κ where
  conn := none
  url := []
  error := ""
  location := []
  contentType := []
  icyName := []
  status := 0
  chunked := false
  eof := false
  failed := false
  icyInterval := 0
  length := 0
  remaining := 0
  rangeStart := 0
  rangeEnd := 0
  total := 0
  chunkLeft := 0
  buffer := []
  chunkCrlf := false

/-- A request at the start of a hop. -/
def GcHttp.fresh (κ : Type) (current : List UInt8) : GcHttp κ :=
  { GcHttp.zero κ with
    url := current, length := -1, remaining := -1, total := -1, rangeStart := -1, rangeEnd := -1 }

/-- The fields that depend on the arguments, in the order of the source. -/
def requestExtra (q : Request κ) : List UInt8 :=
  (if 0 ≤ q.offset then ascii "Range: bytes=" ++ decimal q.offset.toNat ++ ascii "-\r\n"
    else []) ++
  (if q.icy then ascii "Icy-MetaData: 1\r\n" else []) ++
  (if 0 ≤ q.depth then ascii "Depth: " ++ decimal q.depth.toNat ++
      ascii "\r\nContent-Type: application/xml; charset=utf-8\r\n"
    else []) ++
  (if q.auth = [] then [] else ascii "Authorization: Basic " ++ q.auth ++ ascii "\r\n") ++
  (match q.body with
    | none => []
    | some body => ascii "Content-Length: " ++ decimal (body.length % 2 ^ 32) ++ ascii "\r\n")

/-- The request that is sent. -/
def requestText (q : Request κ) (u : GcHttpUrl) : List UInt8 :=
  q.method ++ ascii " " ++ u.path ++ ascii " HTTP/1.1\r\nHost: " ++ u.host ++ ascii ":" ++
    decimal u.port.toNat ++ ascii "\r\nUser-Agent: WiiMC-GCN-Online\r\nAccept: */*\r\n" ++
    ascii "Accept-Encoding: identity\r\nConnection: close\r\n" ++ requestExtra q ++ ascii "\r\n"

/-- The loop of `send_all`. Every round sends at least one byte, so the length of the text is
enough `fuel`. -/
def sendLoop : ℕ → GcHttp κ → List UInt8 → Bool × GcHttp κ
  | _, h, [] => (true, h)
  | 0, h, _ :: _ => (false, h.fail "Network write failed or timed out")
  | fuel + 1, h, b :: p =>
      match h.conn with
      -- no caller sends without a connection
      | none => (false, h.fail "Network write failed or timed out")
      | some c =>
          match gcNetWrite c (b :: p) with
          | (none, c) =>
              (false, { h with conn := some c }.fail "Network write failed or timed out")
          | (some n, c) => sendLoop fuel { h with conn := some c } ((b :: p).drop n)

/-- `send_all`; `false` is -1. -/
def sendAll (h : GcHttp κ) (p : List UInt8) : Bool × GcHttp κ := sendLoop p.length h p

/-- How a round of the loop over the redirects ends. -/
inductive Hop
  | redirect (next : List UInt8)
  | opened
  | failed
  deriving DecidableEq

/-- The statuses that redirect. -/
def isRedirect (status : ℤ) : Bool :=
  status == 301 || status == 302 || status == 303 || status == 307 || status == 308

/-- The part of a round behind the head of the response. -/
def answer (q : Request κ) (last : Bool) (current : List UInt8) (u : GcHttpUrl) (h : GcHttp κ)
    (net : Net κ) : Hop × GcHttp κ × Net κ :=
  if isRedirect h.status then
    if last then (.failed, h.fail "Too many HTTP redirects", net)
    else match gcHttpResolveUrl current h.location gcHttpUrlMax net with
      | (none, net) => (.failed, h.fail "Invalid redirect", net)
      | (some next, net) =>
          match gcHttpParseUrl next with
          | none => (.failed, h.fail "Invalid redirect", net)
          | some v =>
              if (u.tls = true ∧ v.tls = false) ∨ (q.auth ≠ [] ∧
                  (u.tls ≠ v.tls ∨ u.port ≠ v.port ∨ eqNoCase u.host v.host = false)) then
                (.failed, h.fail "Unsafe HTTP redirect refused", net)
              else if h.status = 303 ∧ q.method ≠ ascii "GET" then
                (.failed, h.fail "PROPFIND redirected to GET", net)
              else (.redirect next, h, net)
  else if h.status < 200 ∨ 300 ≤ h.status then
    (.failed, h.fail ("HTTP " ++ toString h.status ++
      if h.status = 401 then " - check WebDAV credentials" else ""), net)
  else if h.status = 206 ∧ (q.offset < 0 ∨ h.rangeStart ≠ q.offset ∨ h.rangeEnd < 0 ∨
      (0 ≤ h.length ∧ h.length ≠ h.rangeEnd - h.rangeStart + 1)) then
    (.failed, h.fail "Server returned an invalid byte range", net)
  else if 0 < q.offset ∧ h.status ≠ 206 then
    (.failed, h.fail "Server ignored the requested byte range", net)
  else (.opened, if h.status = 204 then { h with eof := true } else h, net)

/-- The part of a round on an open connection. -/
def exchange (q : Request κ) (last : Bool) (current : List UInt8) (u : GcHttpUrl) (h : GcHttp κ)
    (net : Net κ) : Hop × GcHttp κ × Net κ :=
  if 1024 < q.auth.length then (.failed, h.fail "Authorization is too long", net)
  else if 8192 ≤ (requestText q u).length then (.failed, h.fail "Request too large", net)
  else match sendAll h (requestText q u) with
    | (false, h) => (.failed, h, net)
    | (true, h) =>
        match sendAll h (q.body.getD []) with
        | (false, h) => (.failed, h, net)
        | (true, h) =>
            match headers h net with
            | (false, h, net) => (.failed, h, net)
            | (true, h, net) => answer q last current u h net

/-- A round of the loop over the redirects. -/
def hop (q : Request κ) (last : Bool) (current : List UInt8) (net : Net κ) :
    Hop × GcHttp κ × Net κ :=
  match gcHttpParseUrl current with
  | none => (.failed, (GcHttp.fresh κ current).fail "Invalid redirect URL", net)
  | some u =>
      match gcNetOpen u.host u.port u.tls q.cancel q.cancelOpaque net with
      | (.error error, net) => (.failed, (GcHttp.fresh κ current).fail error, net)
      | (.ok c, net) => exchange q last current u { GcHttp.fresh κ current with conn := some c } net

/-- The loop, with the number of redirects that may still be followed. -/
def openLoop (q : Request κ) : ℕ → List UInt8 → Net κ → Hop × GcHttp κ × Net κ
  | 0, current, net => hop q true current net
  | left + 1, current, net =>
      match hop q false current net with
      | (.redirect next, h, net) => openLoop q left next (gcNetClose h.conn net)
      | r => r

/-- The three allocations at the start of `gc_http_open`. -/
def Net.alloc3 (net : Net κ) : Bool × Net κ :=
  let (ok₁, net) := net.alloc
  let (ok₂, net) := net.alloc
  let (ok₃, net) := net.alloc
  (ok₁ && ok₂ && ok₃, net)

/-- `gc_http_open` of a request that is not open; `false` is -1. -/
def gcHttpOpen (q : Request κ) (net : Net κ) : Bool × GcHttp κ × Net κ :=
  match net.alloc3 with
  | (false, net) => (false, (GcHttp.zero κ).fail "Out of memory", net)
  | (true, net) =>
      match gcHttpParseUrl q.url with
      | none => (false, (GcHttp.zero κ).fail "Invalid HTTP URL or request", net)
      | some u =>
          if gcHttpUrlMax ≤ q.url.length ∨ (q.method ≠ ascii "GET" ∧ q.method ≠ ascii "PROPFIND") ∨
              safeText q.auth = false then
            (false, (GcHttp.zero κ).fail "Invalid HTTP URL or request", net)
          else if u.tls = true ∧ q.auth ≠ [] then
            (false, (GcHttp.zero κ).fail "HTTPS credentials are unsupported", net)
          else match openLoop q 5 q.url net with
            | (.opened, h, net) => (true, h, net)
            | (_, h, net) => (false, { h with conn := none }, gcNetClose h.conn net)

/-! ## What is sent -/

section Sending

variable {h : GcHttp κ}

/-- What is sent is a prefix of the text, all of it unless a write fails; nothing but the
connection changes then. -/
theorem sendLoop_sent {c : GcConnection κ} {fuel : ℕ} {p : List UInt8} (hconn : h.conn = some c)
    (hfuel : p.length ≤ fuel) :
    ∃ c' sent, (sendLoop fuel h p).2.conn = some c' ∧ c'.origin = c.origin ∧ c'.input = c.input ∧
      c'.sent = c.sent ++ sent ∧ sent <+: p ∧
      ((sendLoop fuel h p).1 = true →
        sent = p ∧ (sendLoop fuel h p).2 = { h with conn := some c' }) ∧
      (none ∉ c.sends → (sendLoop fuel h p).1 = true ∧ none ∉ c'.sends) := by
  -- Each round sends a part, or fails.
  induction fuel generalizing h c p with
  | zero =>
      obtain rfl : p = [] := List.length_eq_zero_iff.mp (by omega)
      exact ⟨c, [], hconn, rfl, rfl, by simp, List.nil_prefix, fun _ => ⟨rfl, by rw [← hconn]; rfl⟩,
        fun hs => ⟨rfl, hs⟩⟩
  | succ fuel ih =>
      cases p with
      | nil =>
          exact ⟨c, [], hconn, rfl, rfl, by simp, List.nil_prefix,
            fun _ => ⟨rfl, by rw [← hconn]; rfl⟩, fun hs => ⟨rfl, hs⟩⟩
      | cons b p =>
          rw [sendLoop]
          simp only [hconn]
          rcases gcNetWrite_cases c (p := b :: p) (by simp) with
            ⟨hfail, sends, hwrite⟩ | ⟨n, sends, hpos, hle, hsends, hwrite⟩
          · simp only [hwrite]
            exact ⟨{ c with sends := sends }, [], rfl, rfl, rfl, by simp, List.nil_prefix, nofun,
              fun hs => absurd hfail hs⟩
          · simp only [hwrite]
            obtain ⟨c', sent, hc', horigin, hinput, hsent, hpre, hall, hok⟩ := ih
              (h := { h with
                conn := some { c with sends := sends, sent := c.sent ++ (b :: p).take n } })
              (p := (b :: p).drop n) rfl
              (by rw [List.length_drop]; simp only [List.length_cons] at hfuel ⊢; omega)
            refine ⟨c', (b :: p).take n ++ sent, hc', horigin, hinput, ?_, ?_, fun h => ?_,
              fun hs => hok (hsends hs)⟩
            · rw [hsent, List.append_assoc]
            · conv_rhs => rw [← List.take_append_drop n (b :: p)]
              exact (List.prefix_append_right_inj _).mpr hpre
            · obtain ⟨rfl, hstate⟩ := hall h
              exact ⟨List.take_append_drop n (b :: p), hstate⟩

end Sending

/-! ## One round -/

section Round

variable {q : Request κ} {last : Bool} {current : List UInt8} {u : GcHttpUrl} {h : GcHttp κ}
  {net : Net κ}

/-- Nothing has been opened and nothing closed. -/
def Net.SameLog (net net' : Net κ) : Prop := net'.opened = net.opened ∧ net'.closed = net.closed

theorem Net.alloc_sameLog (net : Net κ) : net.SameLog net.alloc.2 := by
  unfold Net.alloc
  split <;> exact ⟨rfl, rfl⟩

theorem gcHttpResolveUrl_sameLog (base loc : List UInt8) (cap : ℕ) (net : Net κ) :
    net.SameLog (gcHttpResolveUrl base loc cap net).2 := by
  have hlog := net.alloc_sameLog
  unfold gcHttpResolveUrl
  rcases halloc : net.alloc with ⟨_ | _, net'⟩ <;> rw [halloc] at hlog <;> simp only
  · exact hlog
  · split_ifs
    · exact hlog
    · cases gcHttpParseUrl base with
      | none => exact hlog
      | some u =>
          simp only
          split_ifs <;> exact hlog

theorem headers_sameLog (h : GcHttp κ) (net : Net κ) : net.SameLog (headers h net).2.2 := by
  have hlog := net.alloc_sameLog
  unfold headers
  rcases halloc : net.alloc with ⟨_ | _, net'⟩ <;> rw [halloc] at hlog <;> simp only
  · exact hlog
  · rcases line h 4096 with ⟨_ | buf, h₁⟩ <;> simp only
    · exact hlog
    · cases scanStatus buf <;> exact hlog

/-- What may follow a redirect from `u`. -/
def SafeRedirect (q : Request κ) (u : GcHttpUrl) (next : List UInt8) : Prop :=
  ∃ v, gcHttpParseUrl next = some v ∧ (u.tls = true → v.tls = true) ∧
    (q.auth ≠ [] → SameOrigin u v)

theorem answer_safe (q : Request κ) (last : Bool) (current : List UInt8) (u : GcHttpUrl)
    (h : GcHttp κ) (net : Net κ) :
    net.SameLog (answer q last current u h net).2.2 ∧
    (answer q last current u h net).2.1.conn = h.conn ∧
    ∀ next, (answer q last current u h net).1 = .redirect next → SafeRedirect q u next := by
  have hsame : net.SameLog net := ⟨rfl, rfl⟩
  unfold answer
  by_cases hredirect : isRedirect h.status = true
  · rw [if_pos hredirect]
    cases last with
    | true => exact ⟨hsame, rfl, nofun⟩
    | false =>
        have hlog := gcHttpResolveUrl_sameLog current h.location gcHttpUrlMax net
        rcases hresolve : gcHttpResolveUrl current h.location gcHttpUrlMax net with
          ⟨_ | next, net'⟩ <;> rw [hresolve] at hlog <;> simp only [Bool.false_eq_true, if_false]
        · exact ⟨hlog, rfl, nofun⟩
        · cases hnext : gcHttpParseUrl next with
          | none => exact ⟨hlog, rfl, nofun⟩
          | some v =>
              simp only
              split_ifs with hunsafe h303
              · exact ⟨hlog, rfl, nofun⟩
              · exact ⟨hlog, rfl, nofun⟩
              · refine ⟨hlog, rfl, ?_⟩
                rintro next' ⟨⟩
                -- what is followed has passed the tests for TLS and for the origin
                rw [not_or, not_and] at hunsafe
                refine ⟨v, hnext, fun hu => by simpa using hunsafe.1 hu, fun hauth => ?_⟩
                have horigin := not_and.mp hunsafe.2 hauth
                simp only [not_or, not_not] at horigin
                exact ⟨horigin.1, horigin.2.1, by simpa using horigin.2.2⟩
  · rw [if_neg hredirect]
    split_ifs <;> exact ⟨hsame, rfl, nofun⟩

/-- A round opens at most one connection, to the URL it is for, and sends nothing there but the
request and its body, all of it unless the round fails. -/
theorem exchange_safe (q : Request κ) (last : Bool) (current : List UInt8) (u : GcHttpUrl)
    (net : Net κ) {c : GcConnection κ} (hconn : h.conn = some c) (hsent : c.sent = []) :
    net.SameLog (exchange q last current u h net).2.2 ∧
    (∃ c', (exchange q last current u h net).2.1.conn = some c' ∧ c'.origin = c.origin ∧
      c'.sent <+: requestText q u ++ q.body.getD [] ∧
      ((exchange q last current u h net).1 ≠ .failed →
        c'.sent = requestText q u ++ q.body.getD [])) ∧
    ∀ next, (exchange q last current u h net).1 = .redirect next → SafeRedirect q u next := by
  have hsame : net.SameLog net := ⟨rfl, rfl⟩
  have hnil : c.sent <+: requestText q u ++ q.body.getD [] := hsent ▸ List.nil_prefix
  unfold exchange
  by_cases hlong : 1024 < q.auth.length
  · rw [if_pos hlong]
    exact ⟨hsame, ⟨c, hconn, rfl, hnil, fun h => absurd rfl h⟩, nofun⟩
  rw [if_neg hlong]
  by_cases hbig : 8192 ≤ (requestText q u).length
  · rw [if_pos hbig]
    exact ⟨hsame, ⟨c, hconn, rfl, hnil, fun h => absurd rfl h⟩, nofun⟩
  rw [if_neg hbig]
  -- The head goes out first, then the body; each may stop halfway.
  obtain ⟨c₁, sent₁, hc₁, horigin₁, -, hsent₁, hpre₁, hall₁, -⟩ :=
    sendLoop_sent (p := requestText q u) hconn (Nat.le_refl _)
  rw [hsent, List.nil_append] at hsent₁
  rcases hsend₁ : sendAll h (requestText q u) with ⟨_ | _, h₁⟩ <;>
    rw [sendAll] at hsend₁ <;> rw [hsend₁] at hc₁ hall₁ <;> simp only
  · exact ⟨hsame, ⟨c₁, hc₁, horigin₁, hsent₁ ▸ hpre₁.trans (List.prefix_append _ _),
      fun h => absurd rfl h⟩, nofun⟩
  obtain ⟨rfl, -⟩ := hall₁ rfl
  obtain ⟨c₂, sent₂, hc₂, horigin₂, -, hsent₂, hpre₂, hall₂, -⟩ :=
    sendLoop_sent (p := q.body.getD []) hc₁ (Nat.le_refl _)
  have hpre : c₂.sent <+: requestText q u ++ q.body.getD [] := by
    rw [hsent₂, hsent₁]
    exact (List.prefix_append_right_inj _).mpr hpre₂
  rcases hsend₂ : sendAll h₁ (q.body.getD []) with ⟨_ | _, h₂⟩ <;>
    rw [sendAll] at hsend₂ <;> rw [hsend₂] at hc₂ hall₂ <;> simp only
  · exact ⟨hsame, ⟨c₂, hc₂, horigin₂.trans horigin₁, hpre, fun h => absurd rfl h⟩, nofun⟩
  obtain ⟨rfl, -⟩ := hall₂ rfl
  -- reading the answer sends nothing
  have hquiet := headers_quiet h₂ net
  have hlog := headers_sameLog h₂ net
  rcases hhead : headers h₂ net with ⟨ok, h₃, net₃⟩
  rw [hhead, hc₂, Option.map_some] at hquiet
  rw [hhead] at hlog
  obtain ⟨c₃, hc₃, hquiet⟩ := Option.map_eq_some_iff.mp hquiet
  have horigin₃ : c₃.origin = c.origin :=
    (congrArg GcConnection.origin hquiet).trans (horigin₂.trans horigin₁)
  have hsent₃ : c₃.sent = requestText q u ++ q.body.getD [] := by
    have hsame₃ := congrArg GcConnection.sent hquiet
    rw [GcConnection.quiet, GcConnection.quiet] at hsame₃
    rw [hsame₃, hsent₂, hsent₁]
  have hpre₃ : c₃.sent <+: requestText q u ++ q.body.getD [] := hsent₃ ▸ List.prefix_refl _
  cases ok with
  | false => exact ⟨hlog, ⟨c₃, hc₃, horigin₃, hpre₃, fun _ => hsent₃⟩, nofun⟩
  | true =>
      obtain ⟨hlog', hconn', hredirect⟩ := answer_safe q last current u h₃ net₃
      exact ⟨⟨hlog'.1.trans hlog.1, hlog'.2.trans hlog.2⟩,
        ⟨c₃, hconn'.trans hc₃, horigin₃, hpre₃, fun _ => hsent₃⟩, hredirect⟩

/-- What a connection to an accepted URL has been sent: the request and its body, all of it or, if
the round has failed there, a part. -/
def SentTo (q : Request κ) (failed : Prop) (c : GcConnection κ) : Prop :=
  ∃ url u, gcHttpParseUrl url = some u ∧
    c.origin = ⟨u.host, u.port, u.tls, q.cancel, q.cancelOpaque⟩ ∧
    c.sent <+: requestText q u ++ q.body.getD [] ∧
    (c.sent = requestText q u ++ q.body.getD [] ∨ failed)

/-- What a round, or several of them, do to the network: the calls of `gc_net_open` and the
connections, the latest first. -/
structure Rounds (q : Request κ) (current : List UInt8) (net : Net κ) (hops : List (Opened κ))
    (conns : List (GcConnection κ)) (r : Hop × GcHttp κ × Net κ) : Prop where
  opened : r.2.2.opened = hops ++ net.opened
  closed : r.2.1.conn.toList ++ r.2.2.closed = conns ++ net.closed
  /-- A connection comes from one of the calls, and only the request is sent there. -/
  sent : ∀ c ∈ conns, c.origin ∈ hops ∧ SentTo q (r.1 = .failed ∧ conns.head? = some c) c
  /-- All calls are as safe as the URL that the first round is for. -/
  safe : ∀ o ∈ hops, ∃ u, gcHttpParseUrl current = some u ∧ (u.tls = true → o.tls = true) ∧
    (q.auth ≠ [] → o.tls = u.tls ∧ o.port = u.port ∧ eqNoCase u.host o.host = true)
  noDowngrade : hops.Pairwise fun later earlier => earlier.tls = true → later.tls = true
  cancel : ∀ o ∈ hops, o.cancel = q.cancel ∧ o.cancelOpaque = q.cancelOpaque

theorem requestText_method (q : Request κ) (u : GcHttpUrl) :
    ∃ text, requestText q u ++ q.body.getD [] = q.method ++ 32 :: text := by
  refine ⟨?_, ?_⟩
  rotate_left
  · simp only [requestText, List.append_assoc]
    rfl

theorem hop_rounds (q : Request κ) (last : Bool) (current : List UInt8) (net : Net κ) :
    ∃ hops conns, Rounds q current net hops conns (hop q last current net) ∧ hops.length ≤ 1 ∧
      ∀ next, (hop q last current net).1 = .redirect next →
        ∃ u, gcHttpParseUrl current = some u ∧ (∀ o ∈ hops, o.tls = u.tls) ∧
          SafeRedirect q u next := by
  unfold hop
  cases hparse : gcHttpParseUrl current with
  | none =>
      exact ⟨[], [], ⟨rfl, rfl, by simp, by simp, .nil, by simp⟩, by simp, nofun⟩
  | some u =>
      have hsafe : ∀ o ∈ [(⟨u.host, u.port, u.tls, q.cancel, q.cancelOpaque⟩ : Opened κ)], ∃ v,
          gcHttpParseUrl current = some v ∧ (v.tls = true → o.tls = true) ∧
          (q.auth ≠ [] → o.tls = v.tls ∧ o.port = v.port ∧ eqNoCase v.host o.host = true) := by
        intro o ho
        rw [List.mem_singleton.mp ho]
        exact ⟨u, hparse, id, fun _ => ⟨rfl, rfl, (SameOrigin.refl u).2.2⟩⟩
      obtain ⟨r, dials, hopen, hconn⟩ :=
        gcNetOpen_cases u.host u.port u.tls q.cancel q.cancelOpaque net
      simp only [hopen]
      cases r with
      -- no connection: the call is noted, nothing is sent
      | error error =>
          exact ⟨[_], [], ⟨rfl, rfl, by simp, hsafe, List.pairwise_singleton _ _, by simp⟩,
            Nat.le_refl 1, nofun⟩
      -- one connection, with what `exchange` sends on it
      | ok c =>
          obtain ⟨horigin, hsent⟩ := hconn c rfl
          obtain ⟨⟨hopened, hclosed⟩, ⟨c', hc', horigin', hpre, hwhole⟩, hredirect⟩ :=
            exchange_safe q last current u
              { net with
                dials := dials
                opened := ⟨u.host, u.port, u.tls, q.cancel, q.cancelOpaque⟩ :: net.opened }
              (h := { GcHttp.fresh κ current with conn := some c }) rfl hsent
          refine ⟨[_], [c'], ⟨hopened, ?_, ?_, hsafe, List.pairwise_singleton _ _, by simp⟩,
            Nat.le_refl 1, fun next hnext => ⟨u, rfl, fun o ho => by rw [List.mem_singleton.mp ho],
              hredirect next hnext⟩⟩
          · simp only [hc', hclosed, Option.toList_some]
          · intro c'' hc''
            rw [List.mem_singleton.mp hc'', horigin', horigin]
            refine ⟨List.mem_cons_self, current, u, hparse, horigin'.trans horigin, hpre,
              (Decidable.em _).symm.imp hwhole fun hfailed => ⟨hfailed, ?_⟩⟩
            rfl

/-- The rounds after a redirect, put behind the first one. -/
theorem Rounds.append {next : List UInt8} {h : GcHttp κ} {net' : Net κ}
    {hops hops' : List (Opened κ)} {conns conns' : List (GcConnection κ)}
    {r' : Hop × GcHttp κ × Net κ}
    (h₁ : Rounds q current net hops conns (.redirect next, h, net'))
    (hparse : gcHttpParseUrl current = some u) (hnext : SafeRedirect q u next)
    (h₂ : Rounds q next (gcNetClose h.conn net') hops' conns' r')
    (hu : ∀ o ∈ hops, o.tls = u.tls) :
    Rounds q current net (hops' ++ hops) (conns' ++ conns) r' := by
  obtain ⟨v, hv, htls, horigin⟩ := hnext
  -- Behind a safe redirect the later calls keep what the first URL asks for.
  have hlater : ∀ o ∈ hops', (u.tls = true → o.tls = true) ∧
      (q.auth ≠ [] → o.tls = u.tls ∧ o.port = u.port ∧ eqNoCase u.host o.host = true) := by
    intro o ho
    obtain ⟨v', hv', hvtls, hvorigin⟩ := h₂.safe o ho
    cases hv.symm.trans hv'
    refine ⟨fun h => hvtls (htls h), fun hauth => ?_⟩
    obtain ⟨ht, hp, hh⟩ := hvorigin hauth
    obtain ⟨ht', hp', hh'⟩ := horigin hauth
    refine ⟨ht.trans ht'.symm, hp.trans hp'.symm, ?_⟩
    simp only [eqNoCase, beq_iff_eq] at hh hh' ⊢
    exact hh'.trans hh
  refine ⟨?_, ?_, ?_, ?_, ?_, ?_⟩
  · rw [h₂.opened, List.append_assoc]
    exact congrArg _ h₁.opened
  · rw [h₂.closed, List.append_assoc]
    exact congrArg _ h₁.closed
  · intro c hc
    rcases List.mem_append.mp hc with hc | hc
    · obtain ⟨horigin, url, u, hu, hto, hpre, hsent⟩ := h₂.sent c hc
      refine ⟨List.mem_append_left _ horigin, url, u, hu, hto, hpre, hsent.imp id fun hfailed => ?_⟩
      exact ⟨hfailed.1, by rw [List.head?_append, hfailed.2, Option.some_or]⟩
    · -- behind a redirect the whole request has been sent
      obtain ⟨horigin, url, u, hu, hto, hpre, hsent⟩ := h₁.sent c hc
      exact ⟨List.mem_append_right _ horigin, url, u, hu, hto, hpre,
        Or.inl (hsent.resolve_right fun hfailed => by cases hfailed.1)⟩
  · intro o ho
    rcases List.mem_append.mp ho with ho | ho
    · exact ⟨u, hparse, hlater o ho⟩
    · exact h₁.safe o ho
  · rw [List.pairwise_append]
    exact ⟨h₂.noDowngrade, h₁.noDowngrade, fun later hl earlier he h =>
      (hlater later hl).1 ((hu earlier he).symm.trans h)⟩
  · intro o ho
    rcases List.mem_append.mp ho with ho | ho
    · exact h₂.cancel o ho
    · exact h₁.cancel o ho

end Round

/-! ## The whole request -/

section Open

variable {q : Request κ} {net : Net κ}

/-- The loop over the redirects, by induction on how many may still be followed. -/
theorem openLoop_rounds (q : Request κ) (left : ℕ) (current : List UInt8) (net : Net κ) :
    ∃ hops conns, Rounds q current net hops conns (openLoop q left current net) ∧
      hops.length ≤ left + 1 := by
  induction left generalizing current net with
  | zero =>
      obtain ⟨hops, conns, hrounds, hone, -⟩ := hop_rounds q true current net
      exact ⟨hops, conns, hrounds, by omega⟩
  | succ left ih =>
      obtain ⟨hops, conns, hrounds, hone, hredirect⟩ := hop_rounds q false current net
      rw [openLoop]
      rcases hhop : hop q false current net with ⟨next | _ | _, h, net'⟩ <;> rw [hhop] at hrounds <;>
        simp only
      · obtain ⟨hops', conns', hrounds', hlen⟩ := ih next (gcNetClose h.conn net')
        obtain ⟨u, hparse, htls, hsafe⟩ := hredirect next (by rw [hhop])
        exact ⟨hops' ++ hops, conns' ++ conns, hrounds.append hparse hsafe hrounds' htls,
          by rw [List.length_append]; omega⟩
      · exact ⟨hops, conns, hrounds, by omega⟩
      · exact ⟨hops, conns, hrounds, by omega⟩

theorem Net.alloc3_sameLog (net : Net κ) : net.SameLog net.alloc3.2 := by
  have h₁ := net.alloc_sameLog
  have h₂ := net.alloc.2.alloc_sameLog
  have h₃ := net.alloc.2.alloc.2.alloc_sameLog
  exact ⟨h₃.1.trans (h₂.1.trans h₁.1), h₃.2.trans (h₂.2.trans h₁.2)⟩

/-- The calls of `gc_net_open` and the connections of a request, the latest first. There are none
unless the method and the credentials have been accepted. -/
theorem gcHttpOpen_rounds (q : Request κ) (net : Net κ) :
    ∃ hops conns, (gcHttpOpen q net).2.2.opened = hops ++ net.opened ∧ hops.length ≤ 6 ∧
      (gcHttpOpen q net).2.1.conn.toList ++ (gcHttpOpen q net).2.2.closed =
        conns ++ net.closed ∧
      (∀ c ∈ conns, (c.origin ∈ hops ∧
        SentTo q ((gcHttpOpen q net).1 = false ∧ conns.head? = some c) c) ∧
        (q.method = ascii "GET" ∨ q.method = ascii "PROPFIND") ∧ safeText q.auth = true) ∧
      (q.auth ≠ [] → ∀ o ∈ hops, ∃ u, gcHttpParseUrl q.url = some u ∧ o.tls = u.tls ∧
        o.port = u.port ∧ eqNoCase u.host o.host = true ∧ o.tls = false) ∧
      (hops.Pairwise fun later earlier => earlier.tls = true → later.tls = true) ∧
      ∀ o ∈ hops, o.cancel = q.cancel ∧ o.cancelOpaque = q.cancelOpaque := by
  obtain ⟨hopened, hclosed⟩ := net.alloc3_sameLog
  unfold gcHttpOpen
  rcases halloc : net.alloc3 with ⟨_ | _, net'⟩ <;> rw [halloc] at hopened hclosed <;> simp only
  · exact ⟨[], [], hopened, by simp, hclosed, by simp, by simp, .nil, by simp⟩
  cases hparse : gcHttpParseUrl q.url with
  | none => exact ⟨[], [], hopened, by simp, hclosed, by simp, by simp, .nil, by simp⟩
  | some u =>
      simp only
      by_cases hinvalid : gcHttpUrlMax ≤ q.url.length ∨
          (q.method ≠ ascii "GET" ∧ q.method ≠ ascii "PROPFIND") ∨ safeText q.auth = false
      · rw [if_pos hinvalid]
        exact ⟨[], [], hopened, by simp, hclosed, by simp, by simp, .nil, by simp⟩
      rw [if_neg hinvalid]
      by_cases hcredentials : u.tls = true ∧ q.auth ≠ []
      · rw [if_pos hcredentials]
        exact ⟨[], [], hopened, by simp, hclosed, by simp, by simp, .nil, by simp⟩
      rw [if_neg hcredentials]
      obtain ⟨hops, conns, hrounds, hlen⟩ := openLoop_rounds q 5 q.url net'
      have hvalid : (q.method = ascii "GET" ∨ q.method = ascii "PROPFIND") ∧
          safeText q.auth = true := by
        rw [not_or, not_or, not_and_or, not_not, not_not, Bool.not_eq_false] at hinvalid
        exact hinvalid.2
      -- With credentials the first URL is no TLS one, and the others stay at its origin.
      have hsafe : q.auth ≠ [] → ∀ o ∈ hops, ∃ u, gcHttpParseUrl q.url = some u ∧ o.tls = u.tls ∧
          o.port = u.port ∧ eqNoCase u.host o.host = true ∧ o.tls = false := by
        intro hauth o ho
        obtain ⟨v, hv, -, horigin⟩ := hrounds.safe o ho
        cases hparse.symm.trans hv
        obtain ⟨htls, hport, hhost⟩ := horigin hauth
        refine ⟨u, hparse, htls, hport, hhost, htls.trans ?_⟩
        exact Bool.eq_false_iff.mpr fun h => hcredentials ⟨h, hauth⟩
      rcases hloop : openLoop q 5 q.url net' with ⟨next | _ | _, h, net''⟩ <;>
        rw [hloop] at hrounds <;> simp only
      all_goals
        refine ⟨hops, conns, ?_, hlen, ?_, fun c hc => ⟨?_, hvalid⟩, hparse ▸ hsafe,
          hrounds.noDowngrade, hrounds.cancel⟩
        · rw [← hopened]
          exact hrounds.opened
        · rw [← hclosed]
          exact hrounds.closed
        · obtain ⟨horigin, url, u, hu, hto, hpre, hsent⟩ := hrounds.sent c hc
          refine ⟨horigin, url, u, hu, hto, hpre, ?_⟩
          rcases hsent with hsent | ⟨hfailed, hlast⟩
          · exact Or.inl hsent
          · first | exact Or.inr ⟨trivial, hlast⟩ | cases hfailed

/-- Whatever the servers answer: at most six connections are opened; with credentials all of them
are to the scheme, the host and the port of the first URL, and none uses TLS; behind a connection
with TLS there is none without; and only requests with the given method are sent. -/
theorem gcHttpOpen_safe (q : Request κ) (net : Net κ) :
    ∃ hops conns, (gcHttpOpen q net).2.2.opened = hops ++ net.opened ∧ hops.length ≤ 6 ∧
      (gcHttpOpen q net).2.1.conn.toList ++ (gcHttpOpen q net).2.2.closed =
        conns ++ net.closed ∧
      (∀ c ∈ conns, c.origin ∈ hops ∧ ∃ text, c.sent <+: q.method ++ 32 :: text) ∧
      (q.auth ≠ [] → ∀ o ∈ hops, ∃ u, gcHttpParseUrl q.url = some u ∧ o.tls = u.tls ∧
        o.port = u.port ∧ eqNoCase u.host o.host = true ∧ o.tls = false) ∧
      hops.Pairwise fun later earlier => earlier.tls = true → later.tls = true := by
  obtain ⟨hops, conns, hopened, hlen, hclosed, hsent, hsafe, htls, -⟩ := gcHttpOpen_rounds q net
  refine ⟨hops, conns, hopened, hlen, hclosed, fun c hc => ?_, hsafe, htls⟩
  obtain ⟨⟨horigin, -, u, -, -, hpre, -⟩, -⟩ := hsent c hc
  obtain ⟨text, htext⟩ := requestText_method q u
  exact ⟨horigin, text, htext ▸ hpre⟩

/-- The cancel callback is passed on to every connection. -/
theorem gcHttpOpen_calls (q : Request κ) (net : Net κ) :
    Net.Calls (fun o => o.cancel = q.cancel ∧ o.cancelOpaque = q.cancelOpaque) net
      (gcHttpOpen q net).2.2 := by
  obtain ⟨hops, -, hopened, -, -, -, -, -, hcancel⟩ := gcHttpOpen_rounds q net
  exact ⟨hops, hopened, hcancel⟩

end Open

end WiiMC.Http
