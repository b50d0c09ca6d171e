import WiiMC.Dav.Client
import WiiMC.Http.Answer
import WiiMC.Http.Outcome
import WiiMC.Lib.Transition

/-!
# Files over WebDAV

Runs of `gc_dav_read` and `gc_dav_seek` on one handle. The handle connects when it first reads, and
its position has to be the one of the connection.

* `session`: the calls on a handle, each with the network it meets.
* `session_reads`: while the server answers honestly, every read returns the bytes at the
  position, and every seek moves there or changes nothing.
* `failedRead_retries`: after which failures the next read asks the server again.
-/

namespace WiiMC.Dav

open Bytes Http Transition

variable {κ : Type}

/-- A call on a file, and the network it meets. -/
inductive Call (κ : Type)
  | read (len : ℤ) (net : Net κ)
  | seek (offset whence : ℤ) (net : Net κ)

/-- The file behind a call. -/
def GcDavFile.after (f : GcDavFile κ) : Call κ → GcDavFile κ
  | .read len net => (gcDavRead f len net).2.1
  | .seek offset whence net => (gcDavSeek f offset whence net).2.1

/-- The calls on a handle that `gc_dav_open` has opened for a file with the bytes `resource`. The
size is a 64-bit one. -/
def session (κ : Type) (resource : List UInt8) : System (GcDavFile κ) (Call κ) where
  init f := resource.length < 2 ^ 63 ∧ f.size = resource.length ∧
    ∃ walk c path net net', gcDavOpen walk c path net = (.ok (), f, net')
  step f call := some (f.after call)

/-- No `malloc` fails, and a server that is asked for the rest of the resource answers honestly. -/
def HonestCall (resource : List UInt8) (f : GcDavFile κ) : Call κ → Prop
  | .read _ net => net.allocs = [] ∧
      (f.position < resource.length → Honest resource f.position.toNat net.dials)
  | .seek _ _ _ => True

/-! ## The handle -/

/-- What holds of a handle whatever the network does. -/
structure Handle (resource : List UInt8) (f : GcDavFile κ) : Prop where
  size_lt : resource.length < 2 ^ 63
  size_eq : f.size = resource.length
  position : 0 ≤ f.position ∧ f.position < 2 ^ 63
  accepted : ∃ u, Accepted f.url f.config.authorization u
  open_ : f.http.isSome = true

/-- A live connection stands at the position of the file: what it delivers is the rest of the
resource. -/
def Stands (resource : List UInt8) (f : GcDavFile κ) : Prop :=
  ∃ h, f.http = some h ∧ h.conn.isSome = true ∧
    Delivering h (resource.drop f.position.toNat) true

/-- The invariant of an honest session: a connection that is open stands at the position. -/
structure InStep (resource : List UInt8) (f : GcDavFile κ) : Prop where
  handle : Handle resource f
  stands : ∀ h, f.http = some h → h.conn.isSome = true → Stands resource f

section Opening

variable {walk : Walk} {c : GcDavConfig κ} {path : List UInt8} {net net' : Net κ}

/-- The URL of a file does not depend on the network. -/
theorem makeUrl_eq {net₁ net₂ : Net κ} {target target' : List UInt8} {cap : ℕ}
    (h₁ : (makeUrl c path cap net₁).1 = some target)
    (h₂ : (makeUrl c path cap net₂).1 = some target') : target = target' := by
  obtain ⟨-, rfl⟩ := makeUrl_some h₁
  obtain ⟨-, rfl⟩ := makeUrl_some h₂
  rfl

/-- A listing that succeeds has been asked for at an accepted URL. -/
theorem query_accepted {depth : ℤ} {entries : List GcDavEntry}
    (hquery : (query walk c path depth net).1 = .ok entries) :
    ∃ net₁ target u, (makeUrl c path gcHttpUrlMax net₁).1 = some target ∧
      Accepted target c.authorization u := by
  unfold query at hquery
  rcases halloc : alloc7 net with ⟨_ | _, net₁⟩ <;> rw [halloc] at hquery <;> simp only at hquery
  · cases hquery
  rcases hmake : makeUrl c path gcHttpUrlMax net₁ with ⟨_ | target, net₂⟩ <;>
    rw [hmake] at hquery <;> simp only at hquery
  · cases hquery
  have haccept := gcHttpOpen_accepted (propfind c depth target) net₂
  rcases hopen : gcHttpOpen (propfind c depth target) net₂ with ⟨_ | _, h, net₃⟩ <;>
    rw [hopen] at hquery haccept <;> simp only at hquery
  · cases hquery
  obtain ⟨u, hu⟩ := haccept rfl
  exact ⟨net₁, target, u, by rw [hmake], hu⟩

/-- A file that is opened has a URL, and is at its beginning without a connection. -/
theorem gcDavOpen_accepted {f : GcDavFile κ} (hopen : gcDavOpen walk c path net = (.ok (), f, net')) :
    (∃ u, Accepted f.url f.config.authorization u) ∧ f.position = 0 ∧
      f.http = some (GcHttp.zero κ) := by
  unfold gcDavOpen at hopen
  rcases hstat : gcDavStat walk c path net with ⟨e | stat, net₁⟩ <;> rw [hstat] at hopen <;>
    simp only at hopen
  · cases hopen
  split_ifs at hopen with hdir
  · cases hopen
  rcases hmake : makeUrl c path gcHttpUrlMax net₁ with ⟨_ | url, net₂⟩ <;>
    rw [hmake] at hopen <;> simp only at hopen
  · cases hopen
  rcases halloc : net₂.alloc with ⟨_ | _, net₃⟩ <;> rw [halloc] at hopen <;> cases hopen
  refine ⟨?_, rfl, rfl⟩
  unfold gcDavStat at hstat
  rcases hquery : query walk c path 0 net with ⟨e | _ | ⟨entry, entries⟩, net₄⟩ <;>
    rw [hquery] at hstat <;> cases hstat
  obtain ⟨net₅, target, u, htarget, hu⟩ := query_accepted (congrArg Prod.fst hquery)
  rw [makeUrl_eq htarget (congrArg Prod.fst hmake)] at hu
  exact ⟨u, hu⟩

end Opening

/-! ## One call -/

section Calls

variable {resource : List UInt8} {f : GcDavFile κ} {h : GcHttp κ} {len : ℤ} {net : Net κ}

/-- What `gc_dav_seek` may do: move to the sum of the base and the offset, closing a connection
that stands elsewhere, or refuse and change nothing. -/
def Seeks (f : GcDavFile κ) (offset whence : ℤ) (net : Net κ)
    (r : Except Errno ℤ × GcDavFile κ × Net κ) : Prop :=
  (∃ base, f.base whence = some base ∧ 0 ≤ base + offset ∧ base + offset < 2 ^ 63 ∧
    r.1 = .ok (base + offset) ∧ r.2.1.position = base + offset ∧
    (base + offset = f.position → r.2 = (f, net)) ∧
    (base + offset ≠ f.position → ∀ h, r.2.1.http = some h → h.conn = none)) ∨
  ((∀ base, f.base whence = some base → base + offset < 0 ∨ 2 ^ 63 ≤ base + offset) ∧
    r = (.error .einval, f, net))

/-- Seeking does what it is asked for. -/
theorem gcDavSeek_seeks (hh : Handle resource f) (offset whence : ℤ) (net : Net κ) :
    Seeks f offset whence net (gcDavSeek f offset whence net) := by
  obtain ⟨hlt, hsize, hpos, -, -⟩ := hh
  unfold gcDavSeek
  cases hbase : f.base whence with
  | none =>
      refine Or.inr ⟨fun base h => ?_, rfl⟩
      rw [hbase] at h
      cases h
  | some base =>
      have hrange : 0 ≤ base ∧ base < 2 ^ 63 := by
        unfold GcDavFile.base at hbase
        split_ifs at hbase <;> cases hbase <;> omega
      simp only
      split_ifs with hbad hmove
      · refine Or.inr ⟨fun base' h => ?_, rfl⟩
        cases hbase.symm.trans h
        omega
      · refine Or.inl ⟨base, hbase, by omega, by omega, rfl, rfl, fun h => absurd h hmove,
          fun _ h hh => ?_⟩
        obtain ⟨h', -, rfl⟩ := Option.map_eq_some_iff.mp hh
        rfl
      · rw [not_not] at hmove
        refine Or.inl ⟨base, hbase, by omega, by omega, rfl, rfl, fun _ => ?_,
          fun h => absurd hmove h⟩
        rw [hmove]

/-- The frame of both calls: they change the position and the request, nothing else. -/
theorem gcDavSeek_frame (f : GcDavFile κ) (offset whence : ℤ) (net : Net κ) :
    (gcDavSeek f offset whence net).2.1.size = f.size ∧
    (gcDavSeek f offset whence net).2.1.url = f.url ∧
    (gcDavSeek f offset whence net).2.1.config = f.config ∧
    (gcDavSeek f offset whence net).2.1.http.isSome = f.http.isSome := by
  unfold gcDavSeek
  cases f.base whence with
  | none => exact ⟨rfl, rfl, rfl, rfl⟩
  | some base =>
      simp only
      split_ifs
      · exact ⟨rfl, rfl, rfl, rfl⟩
      · exact ⟨rfl, rfl, rfl, Option.isSome_map⟩
      · exact ⟨rfl, rfl, rfl, rfl⟩

/-- Delivering bytes leaves the size, the URL and the configuration of the file as they are. -/
theorem deliver_frame (f : GcDavFile κ) (h : GcHttp κ) (len : ℤ) (net : Net κ) :
    (f.deliver h len net).2.1.size = f.size ∧ (f.deliver h len net).2.1.url = f.url ∧
    (f.deliver h len net).2.1.config = f.config ∧
    (f.deliver h len net).2.1.http.isSome = true := by
  unfold GcDavFile.deliver
  rcases gcHttpRead h (min len (f.size - f.position)) with ⟨_ | _ | ⟨b, bs⟩, h'⟩ <;>
    exact ⟨rfl, rfl, rfl, rfl⟩

/-- Reading leaves the size, the URL and the configuration of the file as they are. -/
theorem gcDavRead_frame (f : GcDavFile κ) (len : ℤ) (net : Net κ) (hopen : f.http.isSome = true) :
    (gcDavRead f len net).2.1.size = f.size ∧ (gcDavRead f len net).2.1.url = f.url ∧
    (gcDavRead f len net).2.1.config = f.config ∧
    (gcDavRead f len net).2.1.http.isSome = true := by
  unfold gcDavRead
  cases hhttp : f.http with
  | none =>
      rw [hhttp] at hopen
      cases hopen
  | some h =>
      simp only
      split_ifs
      · exact ⟨rfl, rfl, rfl, hopen⟩
      · exact deliver_frame f h len net
      · rcases gcHttpOpen f.get net with ⟨_ | _, h', net'⟩
        · exact ⟨rfl, rfl, rfl, rfl⟩
        · simp only
          split_ifs
          · exact ⟨rfl, rfl, rfl, rfl⟩
          · exact deliver_frame f h' len net'

/-- One connection has been opened, and the rest of the file been asked for there, as the request
`GcDavFile.get` says. -/
def Asks (f : GcDavFile κ) (net : Net κ) (f' : GcDavFile κ) (net' : Net κ) : Prop :=
  ∃ u h c, gcHttpParseUrl f.url = some u ∧ f'.http = some h ∧ h.conn = some c ∧
    net'.opened = ⟨u.host, u.port, u.tls, f.config.cancel, f.config.cancelOpaque⟩ :: net.opened ∧
    c.sent = requestText f.get u

/-- What a read does: nothing if there is nothing to read, else it returns some of the bytes at
the position and moves behind them. It asks the server if no connection stands there. -/
def Reads (resource : List UInt8) (f : GcDavFile κ) (len : ℤ) (net : Net κ)
    (r : Except Errno (List UInt8) × GcDavFile κ × Net κ) : Prop :=
  ((len ≤ 0 ∨ resource.length ≤ f.position) ∧ r = (.ok [], f, net)) ∨
  (0 < len ∧ f.position < resource.length ∧ ∃ bs, bs ≠ [] ∧ (bs.length : ℤ) ≤ len ∧
    r.1 = .ok bs ∧ bs <+: resource.drop f.position.toNat ∧
    r.2.1.position = f.position + bs.length ∧ Stands resource r.2.1 ∧
    (Stands resource f → r.2.2 = net) ∧ (¬ Stands resource f → Asks f net r.2.1 r.2.2))

/-- A read on a connection that stands at the position. -/
theorem deliver_reads (hh : Handle resource f)
    (hd : Delivering h (resource.drop f.position.toNat) true) (hlen : 0 < len)
    (hp : f.position < resource.length) (net : Net κ) :
    ∃ bs h', bs ≠ [] ∧ (bs.length : ℤ) ≤ len ∧ bs <+: resource.drop f.position.toNat ∧
      h'.conn.map GcConnection.quiet = h.conn.map GcConnection.quiet ∧
      Delivering h' (resource.drop (f.position + bs.length).toNat) true ∧
      f.deliver h len net =
        (.ok bs, { f with http := some h', position := f.position + bs.length }, net) := by
  obtain ⟨-, hsize, ⟨hpos, -⟩, -, -⟩ := hh
  have hquiet := gcHttpRead_quiet h (min len (f.size - f.position))
  have hne : resource.drop f.position.toNat ≠ [] := by
    rw [ne_eq, List.drop_eq_nil_iff]
    omega
  unfold GcDavFile.deliver
  rcases gcHttpRead_step hd (show 0 < min len (f.size - f.position) by omega) with
    ⟨bs, rest, hbs, hle, hrest, hresult, hd'⟩ | ⟨-, hnil, -⟩ | ⟨hwhole, -⟩
  · obtain ⟨b, bs, rfl⟩ := List.exists_cons_of_ne_nil hbs
    rcases hread : gcHttpRead h (min len (f.size - f.position)) with ⟨r, h'⟩
    rw [hread] at hresult hd' hquiet
    obtain rfl : r = some (b :: bs) := hresult
    refine ⟨b :: bs, h', hbs, by omega, hrest ▸ List.prefix_append _ _, hquiet, ?_, rfl⟩
    rw [show (f.position + ((b :: bs).length : ℕ)).toNat =
      f.position.toNat + (b :: bs).length by omega, ← List.drop_drop, hrest, List.drop_left]
    exact hd'
  · exact absurd hnil hne
  · cases hwhole

/-- A read that has to connect, and meets an honest server. -/
theorem open_reads (hh : Handle resource f) (hlen : 0 < len) (hp : f.position < resource.length)
    (hallocs : net.allocs = []) (hhonest : Honest resource f.position.toNat net.dials)
    (hhttp : f.http = some h) (hclosed : h.conn = none) :
    Reads resource f len net (gcDavRead f len net) := by
  have hh' := hh
  obtain ⟨hlt, hsize, ⟨hpos, -⟩, ⟨u, hu⟩, -⟩ := hh'
  have hget : RangedGet f.get f.position.toNat :=
    ⟨rfl, rfl, neg_one_lt_zero, rfl, (Int.toNat_of_nonneg hpos).symm⟩
  -- An honest server answers the ranged request with the rest of the file.
  obtain ⟨h₁, c, net', hopen, hopened, hconn, hsent, hready⟩ :=
    gcHttpOpen_answer (q := f.get) hu hget (by omega) hlt hallocs hhonest
  obtain ⟨⟨framing, hstarts, harrives, hbody⟩, htotal, hlength⟩ := hready
  have hd := hstarts.delivering_whole harrives
  rw [hbody] at hd
  rw [List.length_drop] at hlength
  obtain ⟨bs, h', hbs, hle, hpre, hquiet, hd', hdeliver⟩ :=
    deliver_reads hh hd hlen hp net'
  -- so the read opens, and delivers from there
  have hread : gcDavRead f len net =
      (.ok bs, { f with http := some h', position := f.position + bs.length }, net') := by
    unfold gcDavRead
    simp only [hhttp, hclosed, hopen]
    rw [if_neg (by omega), if_neg (by simp), if_neg (by omega), hdeliver]
  rw [hconn, Option.map_some] at hquiet
  obtain ⟨c', hc', hsame⟩ := Option.map_eq_some_iff.mp hquiet
  have hsent' : c'.sent = c.sent := congrArg (fun c => c.sent) hsame
  rw [hread]
  refine Or.inr ⟨hlen, hp, bs, hbs, hle, rfl, hpre, rfl, ⟨h', rfl, by rw [hc']; rfl, hd'⟩,
    fun hstands => ?_, fun _ => ⟨u, h', c', hu.parse, rfl, hc', hopened, hsent'.trans hsent⟩⟩
  obtain ⟨h₂, hh₂, hsome, -⟩ := hstands
  cases hhttp.symm.trans hh₂
  rw [hclosed] at hsome
  cases hsome

/-- An honest read, from a state that keeps the invariant. -/
theorem gcDavRead_reads (hi : InStep resource f)
    (hhonest : HonestCall resource f (.read len net)) :
    Reads resource f len net (gcDavRead f len net) := by
  obtain ⟨hh, hstands⟩ := hi
  obtain ⟨hallocs, hdials⟩ := hhonest
  obtain ⟨h, hhttp⟩ := Option.isSome_iff_exists.mp hh.open_
  -- nothing to read; an open connection in step; or a new one
  by_cases hidle : len ≤ 0 ∨ (resource.length : ℤ) ≤ f.position
  · refine Or.inl ⟨hidle, ?_⟩
    unfold gcDavRead
    simp only [hhttp, hh.size_eq]
    rw [if_pos hidle]
  · have hlen : 0 < len := by omega
    have hp : f.position < resource.length := by omega
    by_cases hconn : h.conn.isSome = true
    · obtain ⟨h', hh', -, hd⟩ := hstands h hhttp hconn
      cases hhttp.symm.trans hh'
      obtain ⟨bs, h', hbs, hle, hpre, hquiet, hd', hdeliver⟩ :=
        deliver_reads hh hd hlen hp net
      have hread : gcDavRead f len net =
          (.ok bs, { f with http := some h', position := f.position + bs.length }, net) := by
        unfold gcDavRead
        simp only [hhttp]
        rw [if_neg (by rw [hh.size_eq]; exact hidle), if_pos hconn, hdeliver]
      have hsome := congrArg Option.isSome hquiet
      rw [Option.isSome_map, Option.isSome_map] at hsome
      rw [hread]
      exact Or.inr ⟨hlen, hp, bs, hbs, hle, rfl, hpre, rfl,
        ⟨h', rfl, hsome.trans hconn, hd'⟩, fun _ => rfl,
        fun hnot => absurd ⟨h, hhttp, hconn, hd⟩ hnot⟩
    · exact open_reads hh hlen hp hallocs (hdials hp) hhttp
        (Option.not_isSome_iff_eq_none.mp hconn)

end Calls

/-! ## Runs -/

section Runs

variable {resource : List UInt8} {f : GcDavFile κ}

/-- A file that has been opened is in step. -/
theorem inStep_init (hinit : (session κ resource).init f) : InStep resource f := by
  obtain ⟨hlt, hsize, walk, c, path, net, net', hopen⟩ := hinit
  obtain ⟨haccept, hpos, hhttp⟩ := gcDavOpen_accepted hopen
  refine ⟨⟨hlt, hsize, by rw [hpos]; decide, haccept, by rw [hhttp]; rfl⟩, fun h hh hsome => ?_⟩
  -- a new handle has no connection
  cases hhttp.symm.trans hh
  cases hsome

/-- Whatever the network does, a call leaves a handle a handle, as long as its position is one. -/
theorem Handle.after (hh : Handle resource f) {call : Call κ}
    (hpos : 0 ≤ (f.after call).position ∧ (f.after call).position < 2 ^ 63) :
    Handle resource (f.after call) := by
  obtain ⟨hlt, hsize, -, haccept, hopen⟩ := hh
  cases call with
  | read len net =>
      obtain ⟨hsize', hurl, hconfig, hopen'⟩ := gcDavRead_frame f len net hopen
      exact ⟨hlt, hsize'.trans hsize, hpos, by rw [GcDavFile.after, hurl, hconfig]; exact haccept,
        hopen'⟩
  | seek offset whence net =>
      obtain ⟨hsize', hurl, hconfig, hopen'⟩ := gcDavSeek_frame f offset whence net
      exact ⟨hlt, hsize'.trans hsize, hpos, by rw [GcDavFile.after, hurl, hconfig]; exact haccept,
        hopen'.trans hopen⟩

/-- One honest call keeps the invariant. -/
theorem InStep.after (hi : InStep resource f) {call : Call κ}
    (hhonest : HonestCall resource f call) : InStep resource (f.after call) := by
  obtain ⟨hh, hstands⟩ := hi
  have hlt := hh.size_lt
  obtain ⟨hpos, hpos'⟩ := hh.position
  cases call with
  | read len net =>
      rcases gcDavRead_reads ⟨hh, hstands⟩ hhonest with
        ⟨-, hread⟩ | ⟨-, hp, bs, -, -, -, hpre, hmove, hstands', -, -⟩
      · rw [GcDavFile.after, hread]
        exact ⟨hh, hstands⟩
      · have hle := hpre.length_le
        rw [List.length_drop] at hle
        exact ⟨hh.after (by rw [GcDavFile.after, hmove]; omega), fun _ _ _ => hstands'⟩
  | seek offset whence net =>
      rcases gcDavSeek_seeks hh offset whence net with
        ⟨base, -, hlo, hhi, -, hmove, hsame, hclosed⟩ | ⟨-, hseek⟩
      · refine ⟨hh.after (by rw [GcDavFile.after, hmove]; exact ⟨hlo, hhi⟩), fun h hhttp hconn => ?_⟩
        by_cases heq : base + offset = f.position
        · have hfile : f.after (.seek offset whence net) = f := congrArg Prod.fst (hsame heq)
          rw [hfile] at hhttp ⊢
          exact hstands h hhttp hconn
        · rw [hclosed heq h hhttp] at hconn
          cases hconn
      · rw [GcDavFile.after, hseek]
        exact ⟨hh, hstands⟩

/-- In an honest session a connection that is open stands at the position. -/
theorem inStep_of_reachable (hs : (session κ resource).Reachable (HonestCall resource) f) :
    InStep resource f := by
  refine hs.invariant (fun f => inStep_init) fun f call g _ hi hhonest hstep => ?_
  cases hstep
  exact hi.after hhonest

/-- In every honest session, from every state it reaches: a read returns some of the bytes at the
position and moves behind them, and nothing only where nothing is to be read; it asks the server
for the rest of the file if and only if no connection stands at the position; and a seek moves to
exactly the position asked for, or changes nothing. -/
theorem session_reads (hs : (session κ resource).Reachable (HonestCall resource) f) :
    (∀ len net, HonestCall resource f (.read len net) →
      Reads resource f len net (gcDavRead f len net)) ∧
    ∀ offset whence net, Seeks f offset whence net (gcDavSeek f offset whence net) :=
  ⟨fun _ _ hhonest => gcDavRead_reads (inStep_of_reachable hs) hhonest,
    fun offset whence net => gcDavSeek_seeks (inStep_of_reachable hs).handle offset whence net⟩

end Runs

/-! ## Reading again after a failure -/

section Failures

variable {f f' : GcDavFile κ} {h : GcHttp κ} {len : ℤ} {net net' : Net κ} {e : Errno}

/-- The handle without its connection; its next read asks the server. -/
def GcDavFile.fresh (f : GcDavFile κ) : GcDavFile κ := { f with http := some (GcHttp.zero κ) }

/-- The next reads at the position, also behind a seek to it, are those of a handle without a
connection. -/
def Retries (f : GcDavFile κ) : Prop :=
  ∀ g, (g = f ∨ ∃ net, g = (gcDavSeek f f.position 0 net).2.1) →
    ∀ len net, 0 < len → gcDavRead g len net = gcDavRead f.fresh len net

/-- A read finds no connection, and opening one fails: `gc_http_open` does, or the response is for
a file of another size. -/
def OpenFails (f : GcDavFile κ) (net : Net κ) : Prop :=
  (∀ h, f.http = some h → h.conn = none) ∧
    ((gcHttpOpen f.get net).1 = true →
      (0 ≤ (gcHttpOpen f.get net).2.1.total ∧ (gcHttpOpen f.get net).2.1.total ≠ f.size) ∨
      (0 ≤ (gcHttpOpen f.get net).2.1.length ∧
        (gcHttpOpen f.get net).2.1.length ≠ f.size - f.position))

/-- A seek to the position changes nothing. -/
theorem gcDavSeek_same (f : GcDavFile κ) (net : Net κ) :
    (gcDavSeek f f.position 0 net).2.1 = f := by
  unfold gcDavSeek GcDavFile.base
  simp only [if_true, zero_add]
  split_ifs
  · rfl
  · exact absurd rfl ‹_›
  · rfl

/-- A failed read leaves a spent connection, and the position where it was. -/
theorem deliver_error (hconn : h.conn.isSome = true) (hlen : 0 < len) (hp : f.position < f.size)
    (hdeliver : f.deliver h len net = (.error e, f', net')) :
    ∃ h', f' = { f with http := some h' } ∧ h'.conn.isSome = true ∧ Spent h' ∧ e = .eio := by
  have hquiet := congrArg Option.isSome (gcHttpRead_quiet h (min len (f.size - f.position)))
  rw [Option.isSome_map, Option.isSome_map] at hquiet
  have hspent := gcHttpRead_spent hconn (show 0 < min len (f.size - f.position) by omega)
  unfold GcDavFile.deliver at hdeliver
  rcases hread : gcHttpRead h (min len (f.size - f.position)) with ⟨_ | _ | ⟨b, bs⟩, h'⟩ <;>
    rw [hread] at hdeliver hquiet hspent <;> cases hdeliver
  · exact ⟨h', rfl, hquiet.trans hconn, hspent (Or.inl rfl), rfl⟩
  · exact ⟨h', rfl, hquiet.trans hconn, hspent (Or.inr rfl), rfl⟩

/-- Everything a failing read can leave: no connection, if opening one has failed, else one from
which nothing more comes. -/
theorem failedRead_cases (hopen : f.http = some h)
    (hread : gcDavRead f len net = (.error e, f', net')) :
    ∃ h', f' = { f with http := some h' } ∧
      ((OpenFails f net ∧ h'.conn = none) ∨
        (¬ OpenFails f net ∧ h'.conn.isSome = true ∧ Spent h')) := by
  obtain ⟨rounds, conns, -, -, -, hok, hfail⟩ := gcHttpOpen_accounts f.get net
  unfold gcDavRead at hread
  simp only [hopen] at hread
  split_ifs at hread with hidle hconn
  · cases hread
  -- the body failed under an open connection
  · obtain ⟨h', hf', hconn', hspent, -⟩ := deliver_error hconn (by omega) (by omega) hread
    refine ⟨h', hf', Or.inr ⟨fun hfails => ?_, hconn', hspent⟩⟩
    rw [hfails.1 h hopen] at hconn
    cases hconn
  -- there was no connection: the opening failed, or the body behind it
  · have hnone : ∀ h, f.http = some h → h.conn = none := by
      intro h' hh'
      cases hopen.symm.trans hh'
      exact Option.not_isSome_iff_eq_none.mp hconn
    rcases hcall : gcHttpOpen f.get net with ⟨_ | _, h₁, net₁⟩ <;> rw [hcall] at hread hok hfail <;>
      simp only at hread
    · cases hread
      exact ⟨h₁, rfl, Or.inl ⟨⟨hnone, by rw [hcall]; nofun⟩, (hfail rfl).2.1⟩⟩
    · split_ifs at hread with hbad
      · cases hread
        exact ⟨{ h₁ with conn := none }, rfl, Or.inl ⟨⟨hnone, by rw [hcall]; exact fun _ => hbad⟩, rfl⟩⟩
      · obtain ⟨-, ⟨c, -, -, hc, -⟩, -⟩ := hok rfl
        obtain ⟨h', hf', hconn', hspent, -⟩ :=
          deliver_error (by rw [hc]; rfl) (by omega) (by omega) hread
        refine ⟨h', hf', Or.inr ⟨fun hfails => ?_, hconn', hspent⟩⟩
        rw [OpenFails, hcall] at hfails
        exact hbad (hfails.2 rfl)

/-- A read without a connection opens one. -/
theorem gcDavRead_closed (hopen : f.http = some h) (hclosed : h.conn = none) (hlen : 0 < len)
    (hp : f.position < f.size) :
    gcDavRead f len net =
      match gcHttpOpen f.get net with
      | (false, h, net) => (.error .eio, { f with http := some h }, net)
      | (true, h, net) =>
          if (0 ≤ h.total ∧ h.total ≠ f.size) ∨
              (0 ≤ h.length ∧ h.length ≠ f.size - f.position) then
            (.error .eio, { f with http := some { h with conn := none } }, gcNetClose h.conn net)
          else f.deliver h len net := by
  unfold gcDavRead
  simp only [hopen, hclosed]
  exact (if_neg (by omega)).trans (if_neg (by simp))

/-- A handle without a connection reads like a new one. -/
theorem gcDavRead_fresh (hopen : f.http = some h) (hclosed : h.conn = none) (hlen : 0 < len)
    (hp : f.position < f.size) (net : Net κ) :
    gcDavRead f len net = gcDavRead f.fresh len net := by
  rw [gcDavRead_closed hopen hclosed hlen hp,
    gcDavRead_closed (f := f.fresh) (h := GcHttp.zero κ) rfl rfl hlen hp]
  rfl

/-- From a connection that gives nothing more every read fails, and nothing else changes. -/
theorem gcDavRead_stuck (hopen : f.http = some h) (hconn : h.conn.isSome = true) (hspent : Spent h)
    (hlen : 0 < len) (hp : f.position < f.size) (net : Net κ) :
    gcDavRead f len net = (.error .eio, f, net) := by
  unfold gcDavRead
  simp only [hopen]
  rw [if_neg (by omega), if_pos hconn, GcDavFile.deliver]
  rcases hspent.gcHttpRead (min len (f.size - f.position)) with hread | hread <;> rw [hread] <;>
    simp only [← hopen]

/-- Without memory a new handle is left without a connection, a stuck one is not. -/
theorem not_retries (hopen : f.http = some h) (hconn : h.conn.isSome = true) (hspent : Spent h)
    (hp : f.position < f.size) : ¬ Retries f := by
  intro hretries
  have hread := hretries f (Or.inl rfl) 1 ⟨[], [false], [], []⟩ one_pos
  rw [gcDavRead_stuck hopen hconn hspent one_pos hp, gcDavRead_closed (f := f.fresh)
    (h := GcHttp.zero κ) rfl rfl one_pos hp] at hread
  have hhttp := congrArg (fun r => r.2.1.http) hread
  simp only [gcHttpOpen, Net.alloc3, Net.alloc, Bool.false_and, hopen, Option.some.injEq] at hhttp
  rw [hhttp] at hconn
  cases hconn

/-- A read that fails has had something to read. -/
theorem failedRead_reading (hread : gcDavRead f len net = (.error e, f', net'))
    (hopen : f.http = some h) : 0 < len ∧ f.position < f.size := by
  unfold gcDavRead at hread
  simp only [hopen] at hread
  split_ifs at hread
  all_goals first | omega | cases hread

/-- After a failure in the body every read at the position fails, and asks nobody. -/
theorem failedRead_body (hread : gcDavRead f len net = (.error e, f', net'))
    (hopen : f.http = some h) (hbody : ¬ OpenFails f net) :
    f'.position = f.position ∧ ¬ Retries f' ∧
      ∀ len net, 0 < len → gcDavRead f' len net = (.error .eio, f', net) := by
  obtain ⟨-, hp⟩ := failedRead_reading hread hopen
  obtain ⟨h', rfl, hcases⟩ := failedRead_cases hopen hread
  obtain ⟨-, hconn, hspent⟩ := hcases.resolve_left fun hc => hbody hc.1
  exact ⟨rfl, not_retries (f := { f with http := some h' }) rfl hconn hspent hp,
    fun len net hlen => gcDavRead_stuck (f := { f with http := some h' }) rfl hconn hspent hlen hp net⟩

/-- A failing read leaves the position. The next read, or the next one behind a seek to the same
position, asks the server again if and only if the failure was in opening a connection; then it
returns the right bytes as soon as the server answers honestly. After a failure in the body every
read at the position fails, and asks nobody. -/
theorem failedRead_retries (hopen : f.http = some h)
    (hread : gcDavRead f len net = (.error e, f', net')) :
    f'.position = f.position ∧ (Retries f' ↔ OpenFails f net) ∧
    (Retries f' → ∀ resource, Handle resource f → ∀ len net, 0 < len →
      HonestCall resource f' (.read len net) → ¬ Stands resource f'.fresh ∧
      Reads resource f'.fresh len net (gcDavRead f' len net)) ∧
    (¬ OpenFails f net → ∀ len net, 0 < len → gcDavRead f' len net = (.error .eio, f', net)) := by
  obtain ⟨-, hp⟩ := failedRead_reading hread hopen
  have hstuck := failedRead_body hread hopen
  obtain ⟨h', rfl, hcases⟩ := failedRead_cases hopen hread
  refine ⟨rfl, ⟨fun hretries => ?_, fun hfails => ?_⟩, fun hretries => ?_,
    fun hbody => (hstuck hbody).2.2⟩
  -- a handle whose body failed is stuck
  · by_contra hbody
    exact (hstuck hbody).2.1 hretries
  -- and one whose opening failed is as good as fresh
  · have hclosed := (hcases.resolve_right fun hc => hc.1 hfails).2
    have hfresh : ∀ len net, 0 < len → gcDavRead { f with http := some h' } len net =
        gcDavRead (GcDavFile.fresh { f with http := some h' }) len net := fun len net hlen =>
      gcDavRead_fresh (f := { f with http := some h' }) rfl hclosed hlen hp net
    rintro g (rfl | ⟨net₁, rfl⟩) len net hlen
    · exact hfresh len net hlen
    · rw [gcDavSeek_same]
      exact hfresh len net hlen
  · intro resource hh len net hlen hhonest
    have hp' : f.position < resource.length := hh.size_eq ▸ hp
    rw [hretries _ (Or.inl rfl) len net hlen]
    refine ⟨?_, open_reads ?_ hlen hp' hhonest.1 (hhonest.2 hp') rfl rfl⟩
    · rintro ⟨h₂, hh₂, hsome, -⟩
      cases hh₂
      cases hsome
    · exact ⟨hh.size_lt, hh.size_eq, hh.position, hh.accepted, rfl⟩

end Failures

section Sample

/-- All of a text at once. -/
def receive (text : List UInt8) : List Event := unread text []

def tenBytes : List UInt8 := ascii "0123456789"

/-- A server with one file, as its listing says. -/
def tenWalk : Walk := fun _ _ _ _ =>
  .ok [{ name := ascii "a", directory := false, size := 10 }]

def tenConfig : GcDavConfig Unit := { GcDavConfig.zero Unit with url := ascii "http://h/" }

/-- A network that meets the given texts. -/
def network (texts : List (List UInt8)) : Net Unit where
  dials := texts.map fun text => .connected (receive text) []
  allocs := []
  opened := []
  closed := []

/-- The network in which the file is opened: it answers the listing. -/
def tenListing : Net Unit := network [ascii "HTTP/1.1 207 M\r\nContent-Length: 1\r\n\r\nx"]

/-- The handle of the file. -/
def tenFile : GcDavFile Unit where
  config := tenConfig
  http := some (GcHttp.zero Unit)
  url := ascii "http://h/a"
  size := 10
  position := 0

/-- Opening the file of ten bytes. -/
theorem gcDavOpen_tenFile : (gcDavOpen tenWalk tenConfig (ascii "/a") tenListing).1.toOption =
    some () ∧ (gcDavOpen tenWalk tenConfig (ascii "/a") tenListing).2.1 = tenFile := by
  decide +kernel

def tenHead : Head where
  statusLine := ascii "HTTP/1.1 206 P"
  fields := [ascii "Content-Range: bytes 0-9/10", ascii "Content-Length: 10"]
  status_bytes := .of_all (by decide)
  status_fits := by decide
  field_ne := by decide
  field_bytes := List.forall_mem_cons.mpr
    ⟨.of_all (by decide), List.forall_mem_singleton.mpr (.of_all (by decide))⟩
  field_fits := by decide
  fits := by decide

/-- The status line of the sample answer is in form. -/
theorem statusLine_tenHead : ∃ minor n code reason, tenHead.statusLine =
    ascii "HTTP/1." ++ (minor ++ 32 :: (code ++ reason)) ∧ Numeral minor n ∧
      Numeral code 206 ∧ ∀ c ∈ reason.head?, isDigit c = false :=
  ⟨ascii "1", 1, ascii "206", ascii " P", by decide, .of_all (by decide) (by decide) (by decide),
    .of_all (by decide) (by decide) (by decide), by simp [ascii, isDigit]⟩

/-- The answer to a request for the whole file, in two pieces. -/
def tenAnswer : Answer tenBytes 0 where
  head := tenHead
  framing := .contentLength tenBytes
  status := 206
  status_line := statusLine_tenHead
  status_eq := Or.inl rfl
  body_eq := rfl
  fields_ok := by
    refine List.forall_mem_cons.mpr ⟨?_, List.forall_mem_singleton.mpr ?_⟩
    · refine ⟨ascii "Content-Range", ascii " bytes 0-9/10", by decide, ?_⟩
      rw [show fieldOf (ascii "Content-Range") = .contentRange by decide +kernel]
      exact ⟨ascii "0", ascii "9", ascii "10", by decide, .of_all (by decide) (by decide) (by decide),
        .of_all (by decide) (by decide) (by decide), .of_all (by decide) (by decide) (by decide)⟩
    · refine ⟨ascii "Content-Length", ascii " 10", by decide, ?_⟩
      rw [show fieldOf (ascii "Content-Length") = .contentLength by decide +kernel]
      exact ⟨⟨tenBytes, rfl⟩, .of_all (by decide) (by decide) (by decide)⟩
  ranged := fun _ => by decide +kernel
  framed := by
    rintro _ ⟨⟩
    decide +kernel

/-- A network with a server that gives the answer. -/
def tenNet : Net Unit := network [tenHead.wire ++ tenBytes]

/-- A network whose connection ends behind three bytes of the body. -/
def cutNet : Net Unit := network [tenHead.wire ++ tenBytes.take 3]

/-- A session begins with the file of ten bytes. -/
theorem tenFile_init : (session Unit tenBytes).init tenFile := by
  obtain ⟨hok, hfile⟩ := gcDavOpen_tenFile
  rcases hopen : gcDavOpen tenWalk tenConfig (ascii "/a") tenListing with ⟨e | _, f, net⟩ <;>
    rw [hopen] at hok hfile
  · cases hok
  · obtain rfl : f = tenFile := hfile
    exact ⟨by decide, by decide, tenWalk, tenConfig, ascii "/a", tenListing, net, hopen⟩

/-- The server answers any read of the new handle. -/
theorem tenNet_honest (len : ℤ) : HonestCall tenBytes tenFile (.read len tenNet) := by
  refine ⟨rfl, fun _ => ?_⟩
  refine ⟨tenAnswer, receive (tenHead.wire ++ tenBytes), [], [], rfl, by simp, tenBytes, ?_, ?_⟩
  · rw [receive, arriving_unread]
    exact List.append_nil _
  · exact List.prefix_refl _

theorem session_reads_tenBytes :
    Reads tenBytes tenFile 4 tenNet (gcDavRead tenFile 4 tenNet) ∧
      Seeks tenFile (-3) 2 tenNet (gcDavSeek tenFile (-3) 2 tenNet) :=
  ⟨(session_reads (.init tenFile_init)).1 4 tenNet (tenNet_honest 4),
    (session_reads (.init tenFile_init)).2 (-3) 2 tenNet⟩

example : ((gcDavRead tenFile 4 tenNet).1.toOption, (gcDavRead tenFile 4 tenNet).2.1.position) =
    (some (ascii "0123"), 4) := by decide +kernel

/-- Nobody answers. -/
def deadNet : Net Unit := network []

theorem failedRead_retries_deadNet :
    Retries (gcDavRead tenFile 4 deadNet).2.1 ∧
      Reads tenBytes (gcDavRead tenFile 4 deadNet).2.1.fresh 4 tenNet
        (gcDavRead (gcDavRead tenFile 4 deadNet).2.1 4 tenNet) := by
  have hnone : (gcDavRead tenFile 4 deadNet).1.toOption = none := by decide +kernel
  have hfails : OpenFails tenFile deadNet :=
    ⟨by rintro _ ⟨⟩; rfl, fun h => absurd h (by decide +kernel)⟩
  rcases hread : gcDavRead tenFile 4 deadNet with ⟨e | bs, f', net'⟩ <;> rw [hread] at hnone
  · obtain ⟨hpos, hretries, hagain, -⟩ := failedRead_retries (f := tenFile) rfl hread
    refine ⟨hretries.mpr hfails, (hagain (hretries.mpr hfails) tenBytes ?_ 4 tenNet (by decide) ?_).2⟩
    · exact (inStep_init tenFile_init).handle
    · have hhonest := tenNet_honest 4
      rw [HonestCall] at hhonest ⊢
      rw [hpos]
      exact hhonest
  · cases hnone

/-- The handle behind three bytes of the answer, where the connection has ended. -/
def cutFile : GcDavFile Unit := (gcDavRead tenFile 4 cutNet).2.1

/-- The handle behind the read that meets the end of the connection. -/
def stuckFile : GcDavFile Unit := (gcDavRead cutFile 4 tenNet).2.1

/-- The read that meets the end of the connection leaves the position; from then on every read
there fails without a request, also behind a seek to the same position and with a server that would
answer. -/
theorem cutFile_stuck :
    (gcDavRead tenFile 4 cutNet).1.toOption = some (ascii "012") ∧ cutFile.position = 3 ∧
      (gcDavRead cutFile 4 tenNet).1.toOption = none ∧ stuckFile.position = 3 ∧
      ¬ Retries stuckFile ∧
      ∀ len net, 0 < len → gcDavRead (gcDavSeek stuckFile 3 0 net).2.1 len net =
        (.error .eio, stuckFile, net) := by
  have hcut : (gcDavRead tenFile 4 cutNet).1.toOption = some (ascii "012") ∧
      cutFile.position = 3 ∧ (cutFile.http.bind fun h => h.conn).isSome = true ∧
      (gcDavRead cutFile 4 tenNet).1.toOption = none := by decide +kernel
  obtain ⟨hbytes, hpos, hconn, hnone⟩ := hcut
  obtain ⟨h, hopen, c, hc⟩ : ∃ h, cutFile.http = some h ∧ ∃ c, h.conn = some c := by
    obtain ⟨c, hc⟩ := Option.isSome_iff_exists.mp hconn
    exact (Option.bind_eq_some_iff.mp hc).imp fun h hh => ⟨hh.1, c, hh.2⟩
  have hbody : ¬ OpenFails cutFile tenNet := fun hfails => by
    cases hc.symm.trans (hfails.1 h hopen)
  have hfailed := hnone
  rcases hread : gcDavRead cutFile 4 tenNet with ⟨e | bs, f', net'⟩ <;> rw [hread] at hfailed
  · obtain ⟨hsame, hretries, hstuck⟩ := failedRead_body hread hopen hbody
    have hstuckFile : stuckFile = f' := by rw [stuckFile, hread]
    rw [← hstuckFile] at hsame hretries hstuck
    have hpos' := hsame.trans hpos
    refine ⟨hbytes, hpos, hfailed, hpos', hretries, fun len net hlen => ?_⟩
    rw [← hpos', gcDavSeek_same]
    exact hstuck len net hlen
  · cases hfailed

end Sample

end WiiMC.Dav
