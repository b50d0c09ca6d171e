import Mathlib.Tactic.Common
import Mathlib.Data.Int.Notation

/-!
# Bounded socket I/O

The transport of `net_transport.c` as the HTTP client sees it. What the network does is data of
the model: what each `gc_net_open` meets, how the bytes that arrive are divided over the calls of
`gc_net_read`, where an error or a timeout ends them, and how much each `gc_net_write` accepts.
`κ` is the type of cancel callbacks.

* `GcConnection`: an open connection, with the bytes still to come and the bytes sent.
* `Net`: what is outside of the program, and what has been done with it.
* `gcNetRead_cases`: everything `gc_net_read` can do.
-/

namespace WiiMC.Http

/-- What the next `gc_net_read` meets. -/
inductive Event
  /-- At least one byte has arrived. -/
  | data (b : UInt8) (bs : List UInt8)
  /-- An error or a timeout, or the cancel callback has answered. -/
  | fail (cancelled : Bool)
  deriving DecidableEq

/-- An open connection. After the events of `input` the server has closed it. -/
structure GcConnection (κ : Type) where
  host : List UInt8
  port : ℤ
  tls : Bool
  cancel : Option κ
  cancelOpaque : ℕ
  /-- What is still to come from the server. -/
  input : List Event
  /-- How many bytes above one the next calls of `gc_net_write` accept; `none` is an error. -/
  sends : List (Option ℕ)
  /-- What has been sent. -/
  sent : List UInt8
  deriving DecidableEq

/-- What the next `gc_net_open` meets. -/
inductive Dial
  | refused (error : String)
  | connected (input : List Event) (sends : List (Option ℕ))
  deriving DecidableEq

/-- The arguments of a call of `gc_net_open`. -/
structure Opened (κ : Type) where
  host : List UInt8
  port : ℤ
  tls : Bool
  cancel : Option κ
  cancelOpaque : ℕ
  deriving DecidableEq

/-- The outside of the program. -/
structure Net (κ : Type) where
  /-- What the next calls of `gc_net_open` meet. -/
  dials : List Dial
  /-- Whether the next calls of `malloc` succeed; the later ones do. -/
  allocs : List Bool
  /-- The calls of `gc_net_open`, the latest first. -/
  opened : List (Opened κ)
  /-- The connections that have been closed, the latest first. -/
  closed : List (GcConnection κ)
  deriving DecidableEq

variable {κ : Type}

/-- `malloc` and `calloc`. -/
def Net.alloc (net : Net κ) : Bool × Net κ :=
  match net.allocs with
  | [] => (true, net)
  | ok :: rest => (ok, { net with allocs := rest })

/-- `gc_net_open`: the connection, or the text of the error. -/
def gcNetOpen (host : List UInt8) (port : ℤ) (tls : Bool) (cancel : Option κ)
    (cancelOpaque : ℕ) (net : Net κ) : Except String (GcConnection κ) × Net κ :=
  let net := { net with opened := ⟨host, port, tls, cancel, cancelOpaque⟩ :: net.opened }
  match net.dials with
  | [] => (.error "Connection failed", net)
  | .refused error :: rest => (.error error, { net with dials := rest })
  | .connected input sends :: rest =>
      (.ok { host, port, tls, cancel, cancelOpaque, input, sends, sent := [] },
        { net with dials := rest })

/-- `gc_net_close`. -/
def gcNetClose (conn : Option (GcConnection κ)) (net : Net κ) : Net κ :=
  { net with closed := conn.toList ++ net.closed }

/-- What a read has left of the bytes that had arrived. -/
def unread (bs : List UInt8) (rest : List Event) : List Event :=
  match bs with
  | [] => rest
  | b :: bs => .data b bs :: rest

/-- `gc_net_read`: at most `len` bytes, none of them once the server has closed. -/
def gcNetRead (c : GcConnection κ) (len : ℕ) : Except Bool (List UInt8) × GcConnection κ :=
  if len = 0 then (.ok [], c)
  else match c.input with
    | [] => (.ok [], c)
    | .data b bs :: rest =>
        (.ok ((b :: bs).take len), { c with input := unread ((b :: bs).drop len) rest })
    | .fail cancelled :: rest => (.error cancelled, { c with input := rest })

/-- `gc_net_write`: how many bytes were sent. -/
def gcNetWrite (c : GcConnection κ) (p : List UInt8) : Option ℕ × GcConnection κ :=
  match c.sends with
  | [] => (some p.length, { c with sent := c.sent ++ p })
  | none :: rest => (none, { c with sends := rest })
  | some n :: rest =>
      (some (p.take (n + 1)).length,
        { c with sends := rest, sent := c.sent ++ p.take (n + 1) })

/-! ## Reading -/

/-- The bytes that arrive before the server closes or an error ends them. -/
def arriving : List Event → List UInt8
  | [] => []
  | .data b bs :: rest => b :: bs ++ arriving rest
  | .fail _ :: _ => []

/-- The server closes the connection; no error ends it. -/
def endsClosed : List Event → Bool
  | [] => true
  | .data _ _ :: rest => endsClosed rest
  | .fail _ :: _ => false

@[simp]
theorem arriving_unread (bs : List UInt8) (rest : List Event) :
    arriving (unread bs rest) = bs ++ arriving rest := by
  cases bs <;> rfl

@[simp]
theorem endsClosed_unread (bs : List UInt8) (rest : List Event) :
    endsClosed (unread bs rest) = endsClosed rest := by
  cases bs <;> rfl

/-- A read of at least one byte: the server has closed, an error, or some of the next bytes. -/
theorem gcNetRead_cases (c : GcConnection κ) {len : ℕ} (hlen : len ≠ 0) :
    (arriving c.input = [] ∧ endsClosed c.input = true ∧ gcNetRead c len = (.ok [], c)) ∨
    (arriving c.input = [] ∧ endsClosed c.input = false ∧
      ∃ cancelled rest, gcNetRead c len = (.error cancelled, { c with input := rest })) ∨
    ∃ bs rest, bs ≠ [] ∧ arriving c.input = bs ++ arriving rest ∧
      endsClosed rest = endsClosed c.input ∧
      gcNetRead c len = (.ok bs, { c with input := rest }) := by
  unfold gcNetRead
  rw [if_neg hlen]
  cases hinput : c.input with
  | nil => exact Or.inl ⟨rfl, rfl, rfl⟩
  | cons event rest =>
      cases event with
      | fail cancelled => exact Or.inr (Or.inl ⟨rfl, rfl, cancelled, rest, rfl⟩)
      | data b bs =>
          refine Or.inr (Or.inr ⟨(b :: bs).take len, unread ((b :: bs).drop len) rest, ?_, ?_, ?_,
            rfl⟩)
          · obtain ⟨n, rfl⟩ := Nat.exists_eq_succ_of_ne_zero hlen
            simp
          · rw [arriving_unread, ← List.append_assoc, List.take_append_drop]
            rfl
          · rw [endsClosed_unread]
            rfl

/-! ## Opening -/

/-- The call of `gc_net_open` that made a connection. -/
def GcConnection.origin (c : GcConnection κ) : Opened κ :=
  ⟨c.host, c.port, c.tls, c.cancel, c.cancelOpaque⟩

/-- A call of `gc_net_open` is noted, and fails or makes a connection on which nothing is sent. -/
theorem gcNetOpen_cases (host : List UInt8) (port : ℤ) (tls : Bool) (cancel : Option κ)
    (cancelOpaque : ℕ) (net : Net κ) :
    ∃ r dials, gcNetOpen host port tls cancel cancelOpaque net =
        (r, { net with
          dials := dials, opened := ⟨host, port, tls, cancel, cancelOpaque⟩ :: net.opened }) ∧
      ∀ c, r = .ok c → c.origin = ⟨host, port, tls, cancel, cancelOpaque⟩ ∧ c.sent = [] := by
  unfold gcNetOpen
  rcases hdials : net.dials with _ | ⟨error | ⟨input, sends⟩, rest⟩
  · refine ⟨.error "Connection failed", [], ?_, nofun⟩
    simp only [← hdials]
  · exact ⟨.error error, rest, rfl, nofun⟩
  · refine ⟨.ok ⟨host, port, tls, cancel, cancelOpaque, input, sends, []⟩, rest, rfl, ?_⟩
    rintro c ⟨⟩
    exact ⟨rfl, rfl⟩

/-- From `net` to `net'`, `gc_net_open` has been called only as `P` says. -/
def Net.Calls (P : Opened κ → Prop) (net net' : Net κ) : Prop :=
  ∃ calls, net'.opened = calls ++ net.opened ∧ ∀ o ∈ calls, P o

theorem Net.Calls.of_eq {P : Opened κ → Prop} {net net' : Net κ} (h : net'.opened = net.opened) :
    Net.Calls P net net' :=
  ⟨[], h, by simp⟩

theorem Net.Calls.trans {P : Opened κ → Prop} {net net' net'' : Net κ} (h₁ : Net.Calls P net net')
    (h₂ : Net.Calls P net' net'') : Net.Calls P net net'' := by
  obtain ⟨calls, heq, hcalls⟩ := h₁
  obtain ⟨calls', heq', hcalls'⟩ := h₂
  refine ⟨calls' ++ calls, by rw [heq', heq, List.append_assoc], fun o ho => ?_⟩
  rcases List.mem_append.mp ho with ho | ho
  · exact hcalls' o ho
  · exact hcalls o ho

/-! ## Writing -/

/-- A write of at least one byte: an error, or some of the bytes are sent. -/
theorem gcNetWrite_cases (c : GcConnection κ) {p : List UInt8} (hp : p ≠ []) :
    (none ∈ c.sends ∧ ∃ sends, gcNetWrite c p = (none, { c with sends := sends })) ∨
    ∃ n sends, 0 < n ∧ n ≤ p.length ∧ (none ∉ c.sends → none ∉ sends) ∧
      gcNetWrite c p = (some n, { c with sends := sends, sent := c.sent ++ p.take n }) := by
  have hpos : 0 < p.length := List.length_pos_iff.mpr hp
  unfold gcNetWrite
  rcases hsends : c.sends with _ | ⟨_ | n, rest⟩
  · refine Or.inr ⟨p.length, [], hpos, Nat.le_refl _, id, ?_⟩
    simp only [List.take_length, ← hsends]
  · exact Or.inl ⟨List.mem_cons_self, rest, rfl⟩
  · refine Or.inr ⟨(p.take (n + 1)).length, rest, ?_, ?_, ?_, ?_⟩
    · rw [List.length_take]
      omega
    · rw [List.length_take]
      omega
    · exact fun h hrest => h (List.mem_cons_of_mem _ hrest)
    · simp only
      rw [List.length_take, ← List.take_eq_take_min]

/-! ## What reading leaves alone -/

/-- A connection without what is still to come on it. -/
def GcConnection.quiet (c : GcConnection κ) : GcConnection κ := { c with input := [] }

/-- A read changes nothing but what is still to come. -/
theorem gcNetRead_quiet (c : GcConnection κ) (len : ℕ) : (gcNetRead c len).2.quiet = c.quiet := by
  by_cases hlen : len = 0
  · rw [gcNetRead, if_pos hlen]
  · rcases gcNetRead_cases c hlen with
      ⟨-, -, hread⟩ | ⟨-, -, cancelled, rest, hread⟩ | ⟨bs, rest, -, -, -, hread⟩ <;>
      rw [hread] <;> rfl

end WiiMC.Http
