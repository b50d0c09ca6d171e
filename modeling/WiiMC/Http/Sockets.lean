import WiiMC.Http.Transport

/-!
# The sockets behind a connection

`gc_net_connect_socket`, `gc_net_open` and `gc_net_close` of `net_transport.c` with the socket of
`dns_query` in `dns.c`, one level below `Transport`: what every call of the system answers is
data, and the sockets that are opened and closed are noted. The session of a TLS connection owns
no socket.

* `openAfter`: the sockets that a log leaves open, if it closes only open ones.
* `Setup.netOpen`: `gc_net_open`, with the sockets it opens and closes.
* `Setup.dial`: what the level above sees of it.
* `Setup.netOpen_open`: the socket of the connection stays open if there is one, and no other.
-/

namespace WiiMC.Http

/-- A socket is opened or closed. -/
inductive SocketEvent
  | opened (fd : ℕ)
  | closed (fd : ℕ)
  deriving DecidableEq

/-- The open sockets behind a log, `none` if one is closed that is not open, or a descriptor is
handed out that is. -/
def openAfter : List SocketEvent → List ℕ → Option (List ℕ)
  | [], live => some live
  | .opened fd :: log, live => if fd ∈ live then none else openAfter log (fd :: live)
  | .closed fd :: log, live => if fd ∈ live then openAfter log (live.erase fd) else none

/-- What `dns_resolve` meets. -/
inductive Resolve
  /-- The address is in the cache, or is written in the name. -/
  | known (addr : ℕ)
  /-- The name is empty or too long, or there is no server. -/
  | refused
  /-- The socket or the error of `net_socket`, and what each try is answered. -/
  | query (socket : Except ℕ ℕ) (tries : List (Option ℕ))

/-- `DNS_TRIES`. -/
def dnsTries : ℕ := 3

/-- `FD_SETSIZE` of libogc. -/
def fdSetSize : ℕ := 16

/-- The loop of `dns_query`, with the tries that are left. -/
def dnsLoop (fd : ℕ) : ℕ → List (Option ℕ) → Option ℕ × List SocketEvent
  | 0, _ | _, [] => (none, [.closed fd])
  | _ + 1, some addr :: _ => (some addr, [.closed fd])
  | left + 1, none :: tries => dnsLoop fd left tries

/-- `dns_resolve`. -/
def dnsResolve : Resolve → Option ℕ × List SocketEvent
  | .known addr => (some addr, [])
  | .refused => (none, [])
  | .query (.error _) _ => (none, [])
  | .query (.ok fd) tries =>
      if fdSetSize ≤ fd then (none, [.opened fd, .closed fd])
      else
        let (addr, log) := dnsLoop fd dnsTries tries
        (addr, .opened fd :: log)

/-- What a call of `net_connect` answers, and what is found out behind it. -/
inductive Connect
  | done
  | pending (cancelled late : Bool)
  | failed (errno : ℕ)

/-- The errors that `gc_net_connect_socket` makes itself. -/
inductive ConnectError
  | einval | ehostunreach | ecanceled | etimedout
  | system (errno : ℕ)

/-- The number that is returned, with a minus in front. -/
def ConnectError.errno : ConnectError → ℕ
  | .einval => 22
  | .ehostunreach => 118
  | .ecanceled => 140
  | .etimedout => 116
  | .system errno => errno

/-- What one `gc_net_open` meets. -/
structure Setup where
  /-- Whether `calloc` succeeds. -/
  memory : Bool
  resolve : Resolve
  /-- The callback answers before there is a socket. -/
  cancelled : Bool
  /-- What `net_socket` answers. -/
  socket : Except ℕ ℕ
  /-- The error of `net_ioctl`, if it fails. -/
  ioctl : Option ℕ
  connects : List Connect
  /-- The error of `gc_tls_open`, if it fails. -/
  tls : Option String
  /-- What is to come on the connection. -/
  input : List Event
  sends : List (Option ℕ)

/-- The loop of `gc_net_connect_socket`; at its deadline it gives up. -/
def connectLoop (fd : ℕ) : List Connect → Except ConnectError ℕ × List SocketEvent
  | [] => (.error .etimedout, [.closed fd])
  | .done :: _ => (.ok fd, [])
  | .failed errno :: _ => (.error (.system errno), [.closed fd])
  | .pending true _ :: _ => (.error .ecanceled, [.closed fd])
  | .pending false true :: _ => (.error .etimedout, [.closed fd])
  | .pending false false :: connects => connectLoop fd connects

/-- `gc_net_connect_socket`. -/
def Setup.connectSocket (s : Setup) (port : ℤ) : Except ConnectError ℕ × List SocketEvent :=
  if port < 1 ∨ 65535 < port then (.error .einval, [])
  else match dnsResolve s.resolve with
    | (none, log) | (some 0, log) => (.error .ehostunreach, log)
    | (some (_ + 1), log) =>
        if s.cancelled then (.error .ecanceled, log)
        else match s.socket with
          | .error errno => (.error (.system errno), log)
          | .ok fd =>
              match s.ioctl with
              | some errno => (.error (.system errno), log ++ [.opened fd, .closed fd])
              | none =>
                  let (r, log') := connectLoop fd s.connects
                  (r, log ++ .opened fd :: log')

/-- `gc_net_open`: the socket of the connection, or the text of the error. -/
def Setup.netOpen (s : Setup) (port : ℤ) (tls : Bool) : Except String ℕ × List SocketEvent :=
  if s.memory then
    match s.connectSocket port with
    | (.error e, log) => (.error ("Connection failed (-" ++ toString e.errno ++ ")"), log)
    | (.ok fd, log) =>
        match tls, s.tls with
        | true, some error => (.error error, log ++ [.closed fd])
        | _, _ => (.ok fd, log)
  else (.error "Out of memory", [])

/-- `gc_net_close`. -/
def Setup.netClose (s : Setup) (port : ℤ) (tls : Bool) : List SocketEvent :=
  match (s.netOpen port tls).1 with
  | .ok fd => [.closed fd]
  | .error _ => []

/-- What the level above sees of a `gc_net_open`. -/
def Setup.dial (s : Setup) (port : ℤ) (tls : Bool) : Dial :=
  match (s.netOpen port tls).1 with
  | .error error => .refused error
  | .ok _ => .connected s.input s.sends

/-! ## No socket is lost -/

section Accounts

theorem openAfter_append (log log' : List SocketEvent) (live : List ℕ) :
    openAfter (log ++ log') live = (openAfter log live).bind (openAfter log') := by
  induction log generalizing live with
  | nil => rfl
  | cons event log ih =>
      cases event with
      | opened fd =>
          rw [List.cons_append, openAfter, openAfter]
          split_ifs
          · rfl
          · exact ih _
      | closed fd =>
          rw [List.cons_append, openAfter, openAfter]
          split_ifs
          · exact ih _
          · rfl

/-- A socket that is opened and closed again leaves nothing. -/
theorem openAfter_closed (fd : ℕ) : openAfter [.opened fd, .closed fd] [] = some [] := by
  simp [openAfter]

/-- The socket of a query is closed on every way out. -/
theorem dnsLoop_log (fd left : ℕ) (tries : List (Option ℕ)) :
    (dnsLoop fd left tries).2 = [.closed fd] := by
  induction left generalizing tries with
  | zero => rfl
  | succ left ih =>
      rcases tries with _ | ⟨_ | addr, tries⟩
      · rfl
      · exact ih tries
      · rfl

theorem dnsResolve_open (r : Resolve) : openAfter (dnsResolve r).2 [] = some [] := by
  rcases r with addr | _ | ⟨errno | fd, tries⟩
  · rfl
  · rfl
  · rfl
  · rw [dnsResolve]
    split_ifs
    · exact openAfter_closed fd
    · simp only [dnsLoop_log]
      exact openAfter_closed fd

/-- The socket stays open only if it is connected. -/
theorem connectLoop_open (fd : ℕ) (connects : List Connect) :
    openAfter (connectLoop fd connects).2 [fd] =
      some (match (connectLoop fd connects).1 with | .ok fd => [fd] | .error _ => []) := by
  induction connects with
  | nil => simp [connectLoop, openAfter]
  | cons c connects ih =>
      rcases c with _ | ⟨_ | _, _ | _⟩ | errno
      case pending.false.false => exact ih
      all_goals simp [connectLoop, openAfter]

theorem Setup.connectSocket_open (s : Setup) (port : ℤ) :
    openAfter (s.connectSocket port).2 [] =
      some (match (s.connectSocket port).1 with | .ok fd => [fd] | .error _ => []) := by
  have hdns := dnsResolve_open s.resolve
  unfold Setup.connectSocket
  by_cases hport : port < 1 ∨ 65535 < port
  · rw [if_pos hport]
    rfl
  · rw [if_neg hport]
    rcases hr : dnsResolve s.resolve with ⟨_ | _ | addr, log⟩ <;> rw [hr] at hdns <;> simp only
    · exact hdns
    · exact hdns
    · split_ifs
      · exact hdns
      · rcases s.socket with errno | fd <;> simp only
        · exact hdns
        · rcases s.ioctl with _ | errno <;> simp only
          · rw [openAfter_append, hdns, Option.bind_some]
            exact connectLoop_open fd s.connects
          · rw [openAfter_append, hdns, Option.bind_some]
            exact openAfter_closed fd

/-- Behind `gc_net_open` the socket of the connection is open if there is one, and no other. -/
theorem Setup.netOpen_open (s : Setup) (port : ℤ) (tls : Bool) :
    openAfter (s.netOpen port tls).2 [] =
      some (match (s.netOpen port tls).1 with | .ok fd => [fd] | .error _ => []) := by
  have hconnect := s.connectSocket_open port
  unfold Setup.netOpen
  split_ifs
  · rcases hr : s.connectSocket port with ⟨e | fd, log⟩ <;> rw [hr] at hconnect <;> simp only
    · exact hconnect
    · split
      · rw [openAfter_append, hconnect, Option.bind_some]
        simp [openAfter]
      · exact hconnect
  · rfl

/-- Behind `gc_net_close` no socket is open. -/
theorem Setup.netClose_open (s : Setup) (port : ℤ) (tls : Bool) :
    openAfter ((s.netOpen port tls).2 ++ s.netClose port tls) [] = some [] := by
  rw [openAfter_append, s.netOpen_open, Option.bind_some, Setup.netClose]
  rcases (s.netOpen port tls).1 with error | fd
  · rfl
  · simp [openAfter]

end Accounts

end WiiMC.Http
