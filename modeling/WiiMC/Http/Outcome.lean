import WiiMC.Http.Open
import WiiMC.Http.Sockets

/-!
# The outcome of a request

What `gc_http_open` leaves behind on each of its ways out: the connections it has made, which of
them are closed, and what an open request is like.

* `Accounts`: the calls of `gc_net_open` with what each met, and the connections they made.
* `Success`: an open request.
* `gcHttpOpen_outcome`: every connection is closed, except that of an open request; so is every
  socket below it.
-/

namespace WiiMC.Http

open Bytes

variable {κ : Type}

/-! ## Calls and what they met -/

/-- What the next `n` calls of `gc_net_open` meet. -/
def takeDials : ℕ → List Dial → List Dial
  | 0, _ => []
  | n + 1, [] => .refused "Connection failed" :: takeDials n []
  | n + 1, d :: ds => d :: takeDials n ds

theorem takeDials_add (m n : ℕ) (ds : List Dial) :
    takeDials (m + n) ds = takeDials m ds ++ takeDials n (ds.drop m) := by
  induction m generalizing ds with
  | zero => simp [takeDials]
  | succ m ih =>
      rw [Nat.succ_add]
      cases ds with
      | nil => rw [takeDials, takeDials, ih, List.drop_nil, List.drop_nil, List.cons_append]
      | cons d ds => rw [takeDials, takeDials, ih, List.drop_succ_cons, List.cons_append]

/-- A connection was made. -/
def Dial.made : Dial → Bool
  | .refused _ => false
  | .connected _ _ => true

/-- An open request: the status is one of success, and a range that was asked for was sent. -/
structure Success (q : Request κ) (h : GcHttp κ) : Prop where
  status : 200 ≤ h.status ∧ h.status < 300
  ranged : 0 < q.offset → h.status = 206 ∧ h.rangeStart = q.offset ∧ h.rangeEnd < h.total ∧
    (0 ≤ h.length → h.length = h.rangeEnd - h.rangeStart + 1)
  /-- The arithmetic on the range stays within 64 bits. -/
  noOverflow : -2 ^ 63 ≤ h.rangeEnd - h.rangeStart ∧ h.rangeEnd - h.rangeStart + 1 < 2 ^ 63

/-! ## Failures -/

section Failures

variable {h h' : GcHttp κ} {net net' : Net κ}

theorem sendLoop_failed {fuel : ℕ} {p : List UInt8} (hsend : sendLoop fuel h p = (false, h')) :
    h'.failed = true := by
  induction fuel generalizing h p with
  | zero =>
      cases p with
      | nil => cases hsend
      | cons b p =>
          cases hsend
          rfl
  | succ fuel ih =>
      cases p with
      | nil => cases hsend
      | cons b p =>
          rw [sendLoop] at hsend
          cases hconn : h.conn with
          | none =>
              simp only [hconn] at hsend
              cases hsend
              rfl
          | some c =>
              simp only [hconn] at hsend
              rcases hwrite : gcNetWrite c (b :: p) with ⟨_ | n, c'⟩ <;> rw [hwrite] at hsend <;>
                simp only at hsend
              · cases hsend
                rfl
              · exact ih hsend

theorem headerField_failed {name v : List UInt8} (hfield : headerField h name v = (false, h')) :
    h'.failed = true := by
  rcases headerField_cases h name v with
    ⟨msg, hfail⟩ | ⟨_, _, _, _, _, _, _, _, _, htold, -⟩
  · rw [hfail] at hfield
    cases hfield
    rfl
  · rw [htold] at hfield
    cases hfield

theorem headerField_range {name v : List UInt8} (hfield : headerField h name v = (true, h'))
    (hr : RangeOk h) : RangeOk h' := by
  rcases headerField_cases h name v with
    ⟨msg, hfail⟩ | ⟨_, _, _, _, _, _, _, _, _, htold, ⟨h₁, h₂, h₃⟩ | hrange⟩
  · rw [hfail] at hfield
    cases hfield
  · rw [htold] at hfield
    cases hfield
    subst h₁ h₂ h₃
    exact hr
  · rw [htold] at hfield
    cases hfield
    exact Or.inr hrange

/-- A head that is refused leaves a failed request, and one that is accepted a range of numbers. -/
theorem headerLoop_outcome {fuel bytes : ℕ} {ok : Bool} (hloop : headerLoop fuel bytes h = (ok, h'))
    (hr : RangeOk h) : (ok = false → h'.failed = true) ∧ (ok = true → RangeOk h') := by
  -- The range fields change in `header_field` only.
  induction fuel generalizing bytes h with
  | zero =>
      cases hloop
      exact ⟨fun _ => rfl, fun h => by cases h⟩
  | succ fuel ih =>
      rw [headerLoop] at hloop
      rcases hread : line h 4096 with ⟨_ | _ | ⟨c, buf⟩, h₁⟩ <;> rw [hread] at hloop <;>
        simp only at hloop
      · cases hloop
        exact ⟨fun _ => lineLoop_failed hread, fun h => by cases h⟩
      all_goals
        have hr₁ : RangeOk h₁ := by
          obtain ⟨cn, buffer, rfl⟩ := lineLoop_keeps hread
          exact hr
      · split_ifs at hloop <;> cases hloop
        · exact ⟨fun _ => rfl, fun h => by cases h⟩
        · exact ⟨fun h => (by cases h), fun _ => hr₁⟩
      · rcases hsplit : splitAt? 58 (c :: buf) with _ | ⟨name, v⟩ <;> rw [hsplit] at hloop <;>
          simp only at hloop
        · cases hloop
          exact ⟨fun _ => rfl, fun h => by cases h⟩
        · split_ifs at hloop
          · cases hloop
            exact ⟨fun _ => rfl, fun h => by cases h⟩
          · rcases hfield : headerField h₁ name (trimEnd isBlank (v.dropWhile isBlank)) with
              ⟨_ | _, h₂⟩ <;> rw [hfield] at hloop <;> simp only at hloop
            · cases hloop
              exact ⟨fun _ => headerField_failed hfield, fun h => by cases h⟩
            · exact ih hloop (headerField_range hfield hr₁)

theorem headers_outcome {ok : Bool} (hheaders : headers h net = (ok, h', net')) (hr : RangeOk h) :
    net'.dials = net.dials ∧ (ok = false → h'.failed = true) ∧ (ok = true → RangeOk h') := by
  have hdials : net.alloc.2.dials = net.dials := by
    unfold Net.alloc
    split <;> rfl
  unfold headers at hheaders
  rcases halloc : net.alloc with ⟨_ | _, net₁⟩ <;> rw [halloc] at hheaders hdials <;>
    simp only at hheaders
  · cases hheaders
    exact ⟨hdials, fun _ => rfl, nofun⟩
  · rcases hread : line h 4096 with ⟨_ | buf, h₁⟩ <;> rw [hread] at hheaders <;>
      simp only at hheaders
    · cases hheaders
      exact ⟨hdials, fun _ => lineLoop_failed hread, nofun⟩
    · have hr₁ : RangeOk h₁ := by
        obtain ⟨cn, buffer, rfl⟩ := lineLoop_keeps hread
        exact hr
      rcases hstatus : scanStatus buf with _ | status <;> rw [hstatus] at hheaders <;>
        simp only at hheaders
      · cases hheaders
        exact ⟨hdials, fun _ => rfl, nofun⟩
      · rcases hloop : headerLoop 16385 0 { h₁ with status := status } with ⟨ok', h₂⟩
        rw [hloop] at hheaders
        cases hheaders
        exact ⟨hdials, headerLoop_outcome hloop hr₁⟩

end Failures

/-! ## One round -/

section Round

variable {q : Request κ} {last : Bool} {current : List UInt8} {u : GcHttpUrl} {h : GcHttp κ}
  {net : Net κ}

theorem gcHttpResolveUrl_dials (base loc : List UInt8) (cap : ℕ) (net : Net κ) :
    (gcHttpResolveUrl base loc cap net).2.dials = net.dials := by
  have hdials : net.alloc.2.dials = net.dials := by
    unfold Net.alloc
    split <;> rfl
  unfold gcHttpResolveUrl
  rcases halloc : net.alloc with ⟨_ | _, net'⟩ <;> rw [halloc] at hdials <;> simp only
  · exact hdials
  · split_ifs
    · exact hdials
    · cases gcHttpParseUrl base with
      | none => exact hdials
      | some u =>
          simp only
          split_ifs <;> exact hdials

/-- How a round ends behind the head of the response. -/
theorem answer_outcome (q : Request κ) (last : Bool) (current : List UInt8) (u : GcHttpUrl)
    (net : Net κ) (hr : RangeOk h) :
    (answer q last current u h net).2.2.dials = net.dials ∧
    ((answer q last current u h net).1 = .failed →
      (answer q last current u h net).2.1.failed = true) ∧
    ((answer q last current u h net).1 = .opened →
      Success q (answer q last current u h net).2.1) ∧
    ∀ next, (answer q last current u h net).1 = .redirect next → last = false := by
  unfold answer
  -- a redirect, or a status that decides
  by_cases hredirect : isRedirect h.status = true
  · rw [if_pos hredirect]
    cases last with
    | true => exact ⟨rfl, fun _ => rfl, nofun, nofun⟩
    | false =>
        have hdials := gcHttpResolveUrl_dials current h.location gcHttpUrlMax net
        rcases hresolve : gcHttpResolveUrl current h.location gcHttpUrlMax net with
          ⟨_ | next, net'⟩ <;> rw [hresolve] at hdials <;> simp only [Bool.false_eq_true, if_false]
        · exact ⟨hdials, fun _ => rfl, nofun, nofun⟩
        · cases gcHttpParseUrl next with
          | none => exact ⟨hdials, fun _ => rfl, nofun, nofun⟩
          | some v =>
              simp only
              split_ifs
              · exact ⟨hdials, fun _ => rfl, nofun, nofun⟩
              · exact ⟨hdials, fun _ => rfl, nofun, nofun⟩
              · exact ⟨hdials, nofun, nofun, fun _ _ => trivial⟩
  · rw [if_neg hredirect]
    by_cases hstatus : h.status < 200 ∨ 300 ≤ h.status
    · rw [if_pos hstatus]
      exact ⟨rfl, fun _ => rfl, nofun, nofun⟩
    rw [if_neg hstatus]
    by_cases hpartial : h.status = 206 ∧ (q.offset < 0 ∨ h.rangeStart ≠ q.offset ∨ h.rangeEnd < 0 ∨
        (0 ≤ h.length ∧ h.length ≠ h.rangeEnd - h.rangeStart + 1))
    · rw [if_pos hpartial]
      exact ⟨rfl, fun _ => rfl, nofun, nofun⟩
    rw [if_neg hpartial]
    by_cases hignored : 0 < q.offset ∧ h.status ≠ 206
    · rw [if_pos hignored]
      exact ⟨rfl, fun _ => rfl, nofun, nofun⟩
    rw [if_neg hignored]
    -- All tests are passed: the status is a success and the range the one asked for.
    refine ⟨rfl, nofun, fun _ => ?_, nofun⟩
    have hsuccess : Success q h := by
      refine ⟨by omega, fun hoffset => ?_, ?_⟩ <;> unfold RangeOk at hr <;> omega
    simp only
    split_ifs
    · exact ⟨hsuccess.status, hsuccess.ranged, hsuccess.noOverflow⟩
    · exact hsuccess

/-- How a round ends on an open connection. -/
theorem exchange_outcome (q : Request κ) (last : Bool) (current : List UInt8) (u : GcHttpUrl)
    (net : Net κ) {c : GcConnection κ} (hconn : h.conn = some c) (hr : RangeOk h) :
    (exchange q last current u h net).2.2.dials = net.dials ∧
    ((exchange q last current u h net).1 = .failed →
      (exchange q last current u h net).2.1.failed = true) ∧
    ((exchange q last current u h net).1 = .opened →
      Success q (exchange q last current u h net).2.1) ∧
    ∀ next, (exchange q last current u h net).1 = .redirect next → last = false := by
  unfold exchange
  by_cases hlong : 1024 < q.auth.length
  · rw [if_pos hlong]
    exact ⟨rfl, fun _ => rfl, fun h => (by cases h), fun _ h => by cases h⟩
  rw [if_neg hlong]
  by_cases hbig : 8192 ≤ (requestText q u).length
  · rw [if_pos hbig]
    exact ⟨rfl, fun _ => rfl, fun h => (by cases h), fun _ h => by cases h⟩
  rw [if_neg hbig]
  -- The two sends leave the range fields alone.
  obtain ⟨c₁, _, hc₁, -, -, -, -, hall₁, -⟩ :=
    sendLoop_sent (p := requestText q u) hconn (Nat.le_refl _)
  rcases hsend₁ : sendAll h (requestText q u) with ⟨_ | _, h₁⟩ <;> rw [sendAll] at hsend₁ <;>
    rw [hsend₁] at hc₁ hall₁ <;> simp only
  · exact ⟨trivial, fun _ => sendLoop_failed hsend₁, fun h => (by cases h), fun _ h => by cases h⟩
  obtain ⟨-, hstate₁⟩ := hall₁ rfl
  simp only at hc₁ hstate₁
  obtain ⟨c₂, _, -, -, -, -, -, hall₂, -⟩ :=
    sendLoop_sent (p := q.body.getD []) hc₁ (Nat.le_refl _)
  rcases hsend₂ : sendAll h₁ (q.body.getD []) with ⟨_ | _, h₂⟩ <;> rw [sendAll] at hsend₂ <;>
    rw [hsend₂] at hall₂ <;> simp only
  · exact ⟨trivial, fun _ => sendLoop_failed hsend₂, fun h => (by cases h), fun _ h => by cases h⟩
  obtain ⟨-, hstate₂⟩ := hall₂ rfl
  simp only at hstate₂
  have hr₂ : RangeOk h₂ := by
    rw [hstate₂, hstate₁]
    exact hr
  -- what the headers say is tested in `answer`
  rcases hhead : headers h₂ net with ⟨ok, h₃, net₃⟩
  obtain ⟨hdials, hfailed, hr₃⟩ := headers_outcome hhead hr₂
  cases ok with
  | false => exact ⟨hdials, fun _ => hfailed rfl, fun h => (by cases h), fun _ h => by cases h⟩
  | true =>
      obtain ⟨hdials', houtcome⟩ := answer_outcome q last current u net₃ (hr₃ rfl)
      exact ⟨hdials'.trans hdials, houtcome⟩

/-- The books of a request: each call of `gc_net_open` with what it met, and the connections that
were made, the latest first. -/
structure Accounts (q : Request κ) (net : Net κ) (rounds : List (Opened κ × Dial))
    (conns : List (GcConnection κ)) (r : Hop × GcHttp κ × Net κ) : Prop where
  opened : r.2.2.opened = rounds.map Prod.fst ++ net.opened
  met : rounds.reverse.map Prod.snd = takeDials rounds.length net.dials
  dials : r.2.2.dials = net.dials.drop rounds.length
  closed : r.2.1.conn.toList ++ r.2.2.closed = conns ++ net.closed
  /-- There is one connection for each call that met one. -/
  made : conns.map GcConnection.origin = (rounds.filter fun x => x.2.made).map Prod.fst
  /-- Unless the round has failed, the connection of the last call is open. -/
  live : r.1 ≠ .failed → r.2.1.conn.isSome = true ∧ ∃ x rest, rounds = x :: rest ∧ x.2.made = true
  failed : r.1 = .failed → r.2.1.failed = true
  success : r.1 = .opened → Success q r.2.1

theorem hop_accounts (q : Request κ) (last : Bool) (current : List UInt8) (net : Net κ) :
    (∃ rounds conns, Accounts q net rounds conns (hop q last current net)) ∧
      ∀ next, (hop q last current net).1 = .redirect next → last = false := by
  unfold hop
  cases hparse : gcHttpParseUrl current with
  | none =>
      exact ⟨⟨[], [], ⟨rfl, rfl, rfl, rfl, rfl, fun h => absurd rfl h, fun _ => rfl, nofun⟩⟩, nofun⟩
  | some u =>
      -- what the call meets decides whether there is a connection
      rcases hdials : net.dials with _ | ⟨error | ⟨input, sends⟩, rest⟩ <;>
        simp only [gcNetOpen, hdials]
      · exact ⟨⟨[(⟨u.host, u.port, u.tls, q.cancel, q.cancelOpaque⟩,
          .refused "Connection failed")], [], ⟨rfl, by rw [hdials]; rfl, by rw [hdials]; rfl, rfl,
            rfl, fun h => absurd rfl h, fun _ => rfl, nofun⟩⟩, nofun⟩
      · exact ⟨⟨[(⟨u.host, u.port, u.tls, q.cancel, q.cancelOpaque⟩, .refused error)],
          [], ⟨rfl, by rw [hdials]; rfl, by rw [hdials]; rfl, rfl, rfl,
            fun h => absurd rfl h, fun _ => rfl, nofun⟩⟩, nofun⟩
      · obtain ⟨⟨hopened, hclosed⟩, ⟨c, hc, horigin, -⟩, -⟩ := exchange_safe q last current u
          { net with
            dials := rest
            opened := ⟨u.host, u.port, u.tls, q.cancel, q.cancelOpaque⟩ :: net.opened }
          (h := { GcHttp.fresh κ current with
            conn := some ⟨u.host, u.port, u.tls, q.cancel, q.cancelOpaque, input, sends, []⟩ })
          rfl rfl
        obtain ⟨hdials', hfailed, hsuccess, hlast⟩ := exchange_outcome q last current u
          { net with
            dials := rest
            opened := ⟨u.host, u.port, u.tls, q.cancel, q.cancelOpaque⟩ :: net.opened }
          (h := { GcHttp.fresh κ current with
            conn := some ⟨u.host, u.port, u.tls, q.cancel, q.cancelOpaque, input, sends, []⟩ })
          rfl (Or.inl ⟨rfl, rfl, rfl⟩)
        refine ⟨⟨[(⟨u.host, u.port, u.tls, q.cancel, q.cancelOpaque⟩, .connected input sends)], [c],
          ⟨hopened, by rw [hdials]; rfl, by rw [hdials]; exact hdials', ?_, ?_, fun _ => ?_, hfailed,
            hsuccess⟩⟩, hlast⟩
        · rw [hc, hclosed]
          rfl
        · rw [List.map_singleton, horigin]
          rfl
        · exact ⟨by rw [hc]; rfl, _, _, rfl, rfl⟩

/-- The rounds after a redirect, put behind the first one. -/
theorem Accounts.append {next : List UInt8} {net' : Net κ}
    {rounds rounds' : List (Opened κ × Dial)} {conns conns' : List (GcConnection κ)}
    {r' : Hop × GcHttp κ × Net κ} (h₁ : Accounts q net rounds conns (.redirect next, h, net'))
    (h₂ : Accounts q (gcNetClose h.conn net') rounds' conns' r') :
    Accounts q net (rounds' ++ rounds) (conns' ++ conns) r' := by
  have hlen : (rounds' ++ rounds).length = rounds.length + rounds'.length := by
    rw [List.length_append, Nat.add_comm]
  have hdials : (gcNetClose h.conn net').dials = net.dials.drop rounds.length := h₁.dials
  refine ⟨?_, ?_, ?_, ?_, ?_, fun h => ?_, h₂.failed, h₂.success⟩
  · rw [h₂.opened, List.map_append, List.append_assoc]
    exact congrArg _ h₁.opened
  · rw [hlen, takeDials_add, List.reverse_append, List.map_append, h₁.met, h₂.met, hdials]
  · rw [h₂.dials, hdials, List.drop_drop, hlen]
  · rw [h₂.closed, List.append_assoc]
    exact congrArg _ h₁.closed
  · rw [List.map_append, List.filter_append, List.map_append, h₁.made, h₂.made]
  · obtain ⟨hsome, x, rest, rfl, hx⟩ := h₂.live h
    exact ⟨hsome, x, rest ++ rounds, rfl, hx⟩

/-- The loop over the redirects, by induction on how many may still be followed. -/
theorem openLoop_accounts (q : Request κ) (left : ℕ) (current : List UInt8) (net : Net κ) :
    (∃ rounds conns, Accounts q net rounds conns (openLoop q left current net)) ∧
      ∀ next, (openLoop q left current net).1 ≠ .redirect next := by
  induction left generalizing current net with
  | zero =>
      obtain ⟨haccounts, hlast⟩ := hop_accounts q true current net
      exact ⟨haccounts, fun next h => by cases hlast next h⟩
  | succ left ih =>
      obtain ⟨⟨rounds, conns, hfirst⟩, -⟩ := hop_accounts q false current net
      rw [openLoop]
      rcases hhop : hop q false current net with ⟨next | _ | _, h, net'⟩ <;>
        rw [hhop] at hfirst <;> simp only
      · obtain ⟨⟨rounds', conns', hrest⟩, hend⟩ := ih next (gcNetClose h.conn net')
        exact ⟨⟨rounds' ++ rounds, conns' ++ conns, hfirst.append hrest⟩, hend⟩
      · exact ⟨⟨rounds, conns, hfirst⟩, fun _ h => by cases h⟩
      · exact ⟨⟨rounds, conns, hfirst⟩, fun _ h => by cases h⟩

end Round

/-! ## The whole request -/

section Open

variable {q : Request κ} {net : Net κ}

/-- The books of the whole request. -/
theorem gcHttpOpen_accounts (q : Request κ) (net : Net κ) :
    ∃ rounds conns, (gcHttpOpen q net).2.2.opened = rounds.map Prod.fst ++ net.opened ∧
      rounds.reverse.map Prod.snd = takeDials rounds.length net.dials ∧
      conns.map GcConnection.origin = (rounds.filter fun x => x.2.made).map Prod.fst ∧
      ((gcHttpOpen q net).1 = true → Success q (gcHttpOpen q net).2.1 ∧
        (∃ c rest, conns = c :: rest ∧ (gcHttpOpen q net).2.1.conn = some c ∧
          (gcHttpOpen q net).2.2.closed = rest ++ net.closed) ∧
        ∃ x rest, rounds = x :: rest ∧ x.2.made = true) ∧
      ((gcHttpOpen q net).1 = false → (gcHttpOpen q net).2.1.failed = true ∧
        (gcHttpOpen q net).2.1.conn = none ∧
        (gcHttpOpen q net).2.2.closed = conns ++ net.closed) := by
  -- The three allocations in front touch neither the dials nor the log.
  have hlog : net.alloc3.2.dials = net.dials ∧ net.SameLog net.alloc3.2 := by
    refine ⟨?_, net.alloc3_sameLog⟩
    have hdials : ∀ net : Net κ, net.alloc.2.dials = net.dials := by
      intro net
      unfold Net.alloc
      split <;> rfl
    exact (hdials _).trans ((hdials _).trans (hdials _))
  obtain ⟨hdials, hopened, hclosed⟩ := hlog
  unfold gcHttpOpen
  rcases halloc : net.alloc3 with ⟨_ | _, net'⟩ <;> rw [halloc] at hdials hopened hclosed <;>
    simp only
  · exact ⟨[], [], hopened, rfl, rfl, nofun, fun _ => ⟨rfl, rfl, hclosed⟩⟩
  cases hparse : gcHttpParseUrl q.url with
  | none => exact ⟨[], [], hopened, rfl, rfl, nofun, fun _ => ⟨rfl, rfl, hclosed⟩⟩
  | some u =>
      simp only
      by_cases hinvalid : gcHttpUrlMax ≤ q.url.length ∨
          (q.method ≠ ascii "GET" ∧ q.method ≠ ascii "PROPFIND") ∨ safeText q.auth = false
      · rw [if_pos hinvalid]
        exact ⟨[], [], hopened, rfl, rfl, nofun, fun _ => ⟨rfl, rfl, hclosed⟩⟩
      rw [if_neg hinvalid]
      by_cases hcredentials : u.tls = true ∧ q.auth ≠ []
      · rw [if_pos hcredentials]
        exact ⟨[], [], hopened, rfl, rfl, nofun, fun _ => ⟨rfl, rfl, hclosed⟩⟩
      rw [if_neg hcredentials]
      obtain ⟨⟨rounds, conns, hbooks⟩, hend⟩ := openLoop_accounts q 5 q.url net'
      obtain ⟨hopened', hmet, -, hclosed', hmade, hlive, hfailed, hsuccess⟩ := hbooks
      simp only at hopened hclosed hdials
      rw [hopened] at hopened'
      rw [hclosed] at hclosed'
      rw [hdials] at hmet
      rcases hloop : openLoop q 5 q.url net' with ⟨next | _ | _, h, net''⟩ <;>
        rw [hloop] at hopened' hclosed' hlive hfailed hsuccess hend <;> simp only
      · exact absurd rfl (hend next)
      -- opened: the last connection is the handle's, the others are closed
      · refine ⟨rounds, conns, hopened', hmet, hmade, fun _ => ⟨hsuccess rfl, ?_, ?_⟩, nofun⟩
        · obtain ⟨hsome, x, rest, rfl, hx⟩ := hlive nofun
          obtain ⟨c, hc⟩ := Option.isSome_iff_exists.mp hsome
          simp only at hc
          cases conns with
          | nil => simp [hx] at hmade
          | cons c' rest' =>
              simp only [hc, Option.toList_some, List.cons_append, List.nil_append,
                List.cons.injEq] at hclosed'
              exact ⟨c', rest', rfl, hc.trans (congrArg some hclosed'.1), hclosed'.2⟩
        · exact (hlive nofun).2
      · exact ⟨rounds, conns, hopened', hmet, hmade, nofun, fun _ => ⟨hfailed rfl, trivial, hclosed'⟩⟩

/-- The sockets of a request, whose rounds `xs` are given in their order: those of each
`gc_net_open`, and its connection closed again unless it is the last one and the request is open. -/
def socketLog (isOpen : Bool) : List (Setup × Opened κ) → List SocketEvent
  | [] => []
  | [(s, o)] => (s.netOpen o.port o.tls).2 ++ if isOpen then [] else s.netClose o.port o.tls
  | (s, o) :: x :: xs =>
      (s.netOpen o.port o.tls).2 ++ s.netClose o.port o.tls ++ socketLog isOpen (x :: xs)

/-- All sockets are closed, except the one of the last connection if the request is open. -/
theorem socketLog_open (isOpen : Bool) (xs : List (Setup × Opened κ)) :
    openAfter (socketLog isOpen xs) [] =
      some (if isOpen then
        match xs.getLast? with
        | some (s, o) => match (s.netOpen o.port o.tls).1 with | .ok fd => [fd] | .error _ => []
        | none => []
      else []) := by
  induction xs with
  | nil => cases isOpen <;> rfl
  | cons x xs ih =>
      obtain ⟨s, o⟩ := x
      cases xs with
      | nil =>
          rw [socketLog]
          cases isOpen with
          | false => exact s.netClose_open o.port o.tls
          | true =>
              rw [if_pos rfl, List.append_nil]
              exact s.netOpen_open o.port o.tls
      | cons x xs =>
          rw [socketLog, openAfter_append, s.netClose_open, Option.bind_some, ih]
          rfl

/-- Whatever the servers answer and whatever fails: each connection that `gc_net_open` made is
closed once, except that an open request keeps the last one; the sockets below are all closed
but that one's; a request that is not open has failed and has no connection; and an open one has a
status of success and the range that was asked for. The rounds and the connections are listed with
the latest first, and `setups` may be anything that makes the calls meet what they met. -/
theorem gcHttpOpen_outcome (q : Request κ) (net : Net κ) :
    ∃ rounds conns, (gcHttpOpen q net).2.2.opened = rounds.map Prod.fst ++ net.opened ∧
      rounds.reverse.map Prod.snd = takeDials rounds.length net.dials ∧
      conns.map GcConnection.origin = (rounds.filter fun x => x.2.made).map Prod.fst ∧
      ((gcHttpOpen q net).1 = true → Success q (gcHttpOpen q net).2.1 ∧
        ∃ c rest, conns = c :: rest ∧ (gcHttpOpen q net).2.1.conn = some c ∧
          (gcHttpOpen q net).2.2.closed = rest ++ net.closed) ∧
      ((gcHttpOpen q net).1 = false → (gcHttpOpen q net).2.1.failed = true ∧
        (gcHttpOpen q net).2.1.conn = none ∧
        (gcHttpOpen q net).2.2.closed = conns ++ net.closed) ∧
      ∀ setups : List Setup,
        List.Forall₂ (fun s x => s.dial x.1.port x.1.tls = x.2) setups rounds →
        ∃ live, openAfter (socketLog (gcHttpOpen q net).1
            (setups.zip (rounds.map Prod.fst)).reverse) [] = some live ∧
          live.length = if (gcHttpOpen q net).1 then 1 else 0 := by
  obtain ⟨rounds, conns, hopened, hmet, hmade, hok, hfail⟩ := gcHttpOpen_accounts q net
  refine ⟨rounds, conns, hopened, hmet, hmade, fun h => ⟨(hok h).1, (hok h).2.1⟩, hfail,
    fun setups hsetups => ⟨_, socketLog_open _ _, ?_⟩⟩
  cases h : (gcHttpOpen q net).1 with
  | false => rfl
  | true =>
      obtain ⟨-, -, x, rest, rfl, hx⟩ := hok h
      cases hsetups with
      | @cons s _ ss _ hdial _ =>
          -- the last call of a success has made its connection, whose socket stays open
          rw [List.map_cons, List.zip_cons_cons, List.getLast?_reverse, List.head?_cons]
          rw [Setup.dial] at hdial
          simp only [if_true]
          rcases hopen : (s.netOpen x.1.port x.1.tls).1 with error | fd <;> rw [hopen] at hdial
          · rw [← hdial] at hx
            cases hx
          · rfl

end Open

end WiiMC.Http
