import WiiMC.Lib.Buffer
import WiiMC.Http.Outcome
import WiiMC.Http.Sends

/-!
# A file is fetched

`http_request` of `http.cpp`: the body of a response goes to a buffer or to a file, as far as there
is room.

* `Sink`: where the body goes.
* `httpRequest`: the function, with `fetchLoop` for its loop.
* `Unread`, `gcHttpOpen_unread`: an open request has not read of its body yet.
* `fetchLoop_spec`: the loop, from any state on.
* `AllOrNothing`: the whole body up to the limit, or nothing.
* `httpRequest_iff`: when that is what comes out.
-/

namespace WiiMC.Http

open Bytes Buffer

variable {κ : Type}

/-! ## The function -/

/-- An open file. -/
structure File where
  written : List UInt8
  /-- How many bytes the next calls of `fwrite` store; `none` is all of them. -/
  answers : List (Option ℕ)
  /-- A call has stored fewer bytes than it was given. -/
  error : Bool

/-- `fwrite(bs, 1, n, f)`, where `bs` has `n` bytes: whether all of them are stored. -/
def File.fwrite (f : File) (bs : List UInt8) : Bool × File :=
  match f.answers with
  | [] => (true, { f with written := f.written ++ bs })
  | none :: answers => (true, { f with written := f.written ++ bs, answers })
  | some n :: answers =>
      if bs.length ≤ n then (true, { f with written := f.written ++ bs, answers })
      else (false, { f with written := f.written ++ bs.take n, answers, error := true })

/-- Where the body goes. A function that is given both writes to the buffer. -/
inductive Sink
  | buffer (b : List UInt8)
  | file (f : File)

/-- How many of the bytes of `maxsize` are for the body. -/
def Sink.limit (maxsize : ℕ) : Sink → ℕ
  | .buffer _ => maxsize - 1
  | .file _ => maxsize

/-- Some bytes are stored behind `total` others. -/
def Sink.write (total : ℕ) (bs : List UInt8) : Sink → Option (Bool × Sink)
  | .buffer b => (put total bs b).map fun b => (true, .buffer b)
  | .file f => some ((f.fwrite bs).1, .file (f.fwrite bs).2)

/-- The loop of `http_request`: `total`, and what has become of the sink and the request. Each round
but the last one stores a byte, so `limit + 1` rounds are enough. -/
def fetchLoop (limit : ℕ) : ℕ → ℕ → Sink → GcHttp κ → Option (ℕ × Sink × GcHttp κ)
  | 0, _, _, _ => none
  | fuel + 1, total, sink, h =>
      if total < limit then
        match gcHttpRead h (min (limit - total) 4096 : ℕ) with
        | (none, h) => some (0, sink, h)
        | (some [], h) => some (total, sink, h)
        | (some (b :: bs), h) =>
            (sink.write total (b :: bs)).bind fun
              | (false, sink) => some (0, sink, h)
              | (true, sink) => fetchLoop limit fuel (total + (b :: bs).length) sink h
      else some (total, sink, h)

/-- The zero behind the body. -/
def Sink.finish (total : ℕ) : Sink → Option Sink
  | .buffer b => (put total [0] b).map .buffer
  | .file f => some (.file f)

/-- The request of `http_request`. -/
def fetchRequest (κ : Type) (url : List UInt8) : Request κ where
  url
  method := ascii "GET"
  auth := []
  body := none
  depth := -1
  offset := -1
  icy := false
  cancel := none
  cancelOpaque := 0

/-- `http_request`, where `sink` is missing if there is neither a buffer nor a file. -/
def httpRequest (url : List UInt8) (sink : Option Sink) (maxsize : ℕ) (net : Net κ) :
    Option (ℕ × Option Sink × Net κ) :=
  match net.alloc with
  | (false, net) => some (0, sink, net)
  | (true, net) =>
      match sink with
      | none => some (0, none, net)
      | some sink =>
          if maxsize < 2 then some (0, some sink, net)
          else
            match gcHttpOpen (fetchRequest κ url) net with
            | (false, h, net) => some (0, some sink, gcNetClose h.conn net)
            | (true, h, net) =>
                (fetchLoop (sink.limit maxsize) (sink.limit maxsize + 1) 0 sink h).bind
                  fun (total, sink, h) =>
                    (sink.finish total).map fun sink => (total, some sink, gcNetClose h.conn net)

/-! ## An open request -/

/-- Nothing of the body has been read. -/
structure Unread (h : GcHttp κ) : Prop where
  failed : h.failed = false
  chunkLeft : h.chunkLeft = 0
  chunkCrlf : h.chunkCrlf = false

section Open

variable {q : Request κ} {last : Bool} {current : List UInt8} {u : GcHttpUrl} {h : GcHttp κ}
  {net : Net κ}

/-- Behind the header the body has not been read. -/
theorem answer_unread (hu : Unread h) (hopened : (answer q last current u h net).1 = .opened) :
    Unread (answer q last current u h net).2.1 := by
  unfold answer at hopened ⊢
  by_cases hredirect : isRedirect h.status = true
  · rw [if_pos hredirect] at hopened
    cases last with
    | true => cases hopened
    | false =>
        simp only [Bool.false_eq_true, if_false] at hopened
        rcases hresolve : gcHttpResolveUrl current h.location gcHttpUrlMax net with
          ⟨_ | next, net'⟩ <;> rw [hresolve] at hopened
        · cases hopened
        · simp only at hopened
          cases hnext : gcHttpParseUrl next with
          | none =>
              rw [hnext] at hopened
              cases hopened
          | some v =>
              rw [hnext] at hopened
              simp only at hopened
              split_ifs at hopened
  · rw [if_neg hredirect] at hopened ⊢
    split_ifs at hopened ⊢
    · exact ⟨hu.failed, hu.chunkLeft, hu.chunkCrlf⟩
    · exact hu

/-- An exchange leaves the body unread. -/
theorem exchange_unread (hu : Unread h) {c : GcConnection κ} (hconn : h.conn = some c)
    (hopened : (exchange q last current u h net).1 = .opened) :
    Unread (exchange q last current u h net).2.1 := by
  unfold exchange at hopened ⊢
  split_ifs at hopened ⊢ with hlong hbig
  obtain ⟨c₁, _, hc₁, -, -, -, -, hall₁, -⟩ :=
    sendLoop_sent (p := requestText q u) hconn (Nat.le_refl _)
  rcases hsend₁ : sendAll h (requestText q u) with ⟨_ | _, h₁⟩ <;> rw [sendAll] at hsend₁ <;>
    rw [hsend₁] at hc₁ hall₁ <;> simp only [sendAll, hsend₁] at hopened ⊢
  · cases hopened
  obtain ⟨-, hstate₁⟩ := hall₁ rfl
  simp only at hc₁ hstate₁
  obtain ⟨c₂, _, -, -, -, -, -, hall₂, -⟩ :=
    sendLoop_sent (p := q.body.getD []) hc₁ (Nat.le_refl _)
  rcases hsend₂ : sendAll h₁ (q.body.getD []) with ⟨_ | _, h₂⟩ <;> rw [sendAll] at hsend₂ <;>
    rw [hsend₂] at hall₂ <;> simp only [hsend₂] at hopened ⊢
  · cases hopened
  obtain ⟨-, hstate₂⟩ := hall₂ rfl
  simp only at hstate₂
  have hu₂ : Unread h₂ := by
    rw [hstate₂, hstate₁]
    exact ⟨hu.failed, hu.chunkLeft, hu.chunkCrlf⟩
  rcases hhead : headers h₂ net with ⟨_ | _, h₃, net₃⟩ <;> rw [hhead] at hopened
  · cases hopened
  · obtain ⟨⟨hfailed, -, hleft, hcrlf, -⟩, -⟩ := headers_framing hhead
    exact answer_unread ⟨hfailed.trans hu₂.failed, hleft.trans hu₂.chunkLeft,
      hcrlf.trans hu₂.chunkCrlf⟩ hopened

/-- A hop leaves the body unread. -/
theorem hop_unread (hopened : (hop q last current net).1 = .opened) :
    Unread (hop q last current net).2.1 := by
  unfold hop at hopened ⊢
  cases hparse : gcHttpParseUrl current with
  | none =>
      rw [hparse] at hopened
      cases hopened
  | some u =>
      rw [hparse] at hopened
      simp only at hopened ⊢
      rcases hnet : gcNetOpen u.host u.port u.tls q.cancel q.cancelOpaque net with
        ⟨error | c, net'⟩ <;> rw [hnet] at hopened
      · cases hopened
      · exact exchange_unread ⟨rfl, rfl, rfl⟩ rfl hopened

/-- The hops leave the body unread. -/
theorem openLoop_unread (left : ℕ) (hopened : (openLoop q left current net).1 = .opened) :
    Unread (openLoop q left current net).2.1 := by
  induction left generalizing current net with
  | zero => exact hop_unread hopened
  | succ left ih =>
      rw [openLoop] at hopened ⊢
      have hfirst : (hop q false current net).1 = .opened → Unread (hop q false current net).2.1 :=
        hop_unread
      rcases hhop : hop q false current net with ⟨next | _ | _, h, net'⟩ <;>
        rw [hhop] at hopened hfirst
      · exact ih hopened
      · exact hfirst rfl
      · cases hopened

/-- Opening leaves the body unread. -/
theorem gcHttpOpen_unread (hopen : (gcHttpOpen q net).1 = true) :
    Unread (gcHttpOpen q net).2.1 := by
  unfold gcHttpOpen at hopen ⊢
  rcases halloc : net.alloc3 with ⟨_ | _, net'⟩ <;> rw [halloc] at hopen
  · cases hopen
  cases hparse : gcHttpParseUrl q.url with
  | none =>
      rw [hparse] at hopen
      cases hopen
  | some u =>
      rw [hparse] at hopen
      simp only at hopen ⊢
      split_ifs at hopen ⊢
      have hloop : (openLoop q 5 q.url net').1 = .opened → Unread (openLoop q 5 q.url net').2.1 :=
        openLoop_unread 5
      rcases hopened : openLoop q 5 q.url net' with ⟨next | _ | _, h, net''⟩ <;>
        rw [hopened] at hopen hloop
      · cases hopen
      · exact hloop rfl
      · cases hopen

/-- Every server sends some body to an open request. -/
theorem Unread.exists_sends {rule : SizeRule} (hunread : Unread h) (hconn : h.conn.isSome = true)
    (hrule : ∀ {q v rest}, rule q v rest → rest.length < q.length) :
    ∃ body whole, Sends rule h body whole := by
  rcases heof : h.eof with _ | _
  swap
  · exact ⟨[], true, .ended hunread.failed heof⟩
  have hr : Reading h := ⟨hconn, hunread.failed, heof⟩
  rcases hchunked : h.chunked with _ | _
  · rcases Int.lt_or_le h.remaining 0 with hneg | hpos
    · exact ⟨_, _, .closing hr hchunked hneg⟩
    · exact ⟨_, _, .counted hr hchunked (Int.toNat_of_nonneg hpos).symm⟩
  · obtain ⟨body, whole, hbody⟩ := exists_chunked hrule h.pending.length .size h.pending le_rfl
    have hat : h.At .size := ⟨hunread.chunkLeft, hunread.chunkCrlf⟩
    exact ⟨body, whole, .chunked hr hchunked hat hbody⟩

end Open

/-! ## The loop -/

/-- A call of `fwrite` has failed. -/
def Sink.failed : Sink → Bool
  | .buffer _ => false
  | .file f => f.error

/-- There is room for `maxsize` bytes in a buffer, and nothing has gone wrong with a file. -/
def Sink.Ready (maxsize : ℕ) : Sink → Prop
  | .buffer b => maxsize ≤ b.length
  | .file f => f.error = false

/-- The second sink is the first one with some bytes stored. -/
def Sink.Stores (bs : List UInt8) : Sink → Sink → Prop
  | .buffer b, .buffer b' => b'.length = b.length ∧ b'.take bs.length = bs
  | .file f, .file f' => f'.written = f.written ++ bs
  | _, _ => False

section Loop

variable {h : GcHttp κ} {start sink : Sink} {stored bs body : List UInt8} {whole : Bool}
  {limit maxsize : ℕ}

/-- Storing nothing leaves the sink as it is. -/
theorem Sink.stores_nil (s : Sink) : s.Stores [] s := by
  cases s with
  | buffer b => exact ⟨rfl, rfl⟩
  | file f => exact (List.append_nil _).symm

/-- A sink that is ready has not failed. -/
theorem Sink.Ready.failed (hready : start.Ready maxsize) : start.failed = false := by
  cases start with
  | buffer b => rfl
  | file f => exact hready

/-- Bytes are stored behind those that have been, or a call of `fwrite` fails. -/
theorem Sink.write_spec (bs : List UInt8) (hready : start.Ready maxsize)
    (hstored : start.Stores stored sink)
    (hfailed : sink.failed = false) (hlen : stored.length + bs.length ≤ maxsize) :
    ∃ ok sink', sink.write stored.length bs = some (ok, sink') ∧
      (ok = true → sink'.failed = false ∧ start.Stores (stored ++ bs) sink') ∧
      (ok = false → sink'.failed = true) := by
  match start, sink, hstored with
  | .buffer b, .buffer b', ⟨hlength, htake⟩ =>
      have hroom : maxsize ≤ b.length := hready
      obtain ⟨c, hput⟩ : ∃ c, put stored.length bs b' = some c := exists_put (by omega)
      refine ⟨true, .buffer c, by rw [Sink.write, hput]; rfl,
        fun _ => ⟨rfl, (length_put hput).trans hlength, ?_⟩, nofun⟩
      rw [List.length_append, take_put hput, htake]
  | .file f, .file f', hwritten =>
      have hwritten : f'.written = f.written ++ stored := hwritten
      have hstores : f'.written ++ bs = f.written ++ (stored ++ bs) := by
        rw [hwritten, List.append_assoc]
      refine ⟨_, _, rfl, ?_⟩
      unfold File.fwrite
      rcases f'.answers with _ | ⟨_ | n, answers⟩
      · exact ⟨fun _ => ⟨hfailed, hstores⟩, nofun⟩
      · exact ⟨fun _ => ⟨hfailed, hstores⟩, nofun⟩
      · simp only
        split_ifs
        · exact ⟨fun _ => ⟨hfailed, hstores⟩, nofun⟩
        · exact ⟨nofun, fun _ => rfl⟩

/-- The bytes that come out of the loop: those of the body, as far as there is room, if all of them
have come and been stored, and none otherwise. -/
def Outcome (limit : ℕ) (body : List UInt8) (whole : Bool) (start : Sink) (n : ℕ) (sink : Sink) :
    Prop :=
  if sink.failed = true then n = 0
  else if whole = true ∨ limit ≤ body.length then
    n = min body.length limit ∧ start.Stores (body.take limit) sink
  else n = 0

/-- The loop stores the body until it ends, or the limit is reached. -/
theorem fetchLoop_spec {fuel : ℕ} (hready : start.Ready maxsize) (hlimit : limit ≤ maxsize)
    (hs : Sends Taken h body whole) (hstored : start.Stores stored sink)
    (hfailed : sink.failed = false) (hlen : stored.length ≤ limit)
    (hfuel : limit < stored.length + fuel) :
    ∃ n sink' h', fetchLoop limit fuel stored.length sink h = some (n, sink', h') ∧
      Outcome limit (stored ++ body) whole start n sink' ∧ n ≤ limit ∧
      (sink'.failed = false → ∃ all, start.Stores all sink') := by
  -- The induction carries what is stored; every round stores at least a byte.
  induction fuel generalizing h stored sink body with
  | zero => omega
  | succ fuel ih =>
      rw [fetchLoop]
      by_cases hroom : stored.length < limit
      swap
      · -- there is no room left
        have hfull : stored.length = limit := Nat.le_antisymm hlen (Nat.not_lt.mp hroom)
        have hlong : limit ≤ (stored ++ body).length := by
          rw [List.length_append]
          omega
        rw [if_neg hroom]
        refine ⟨_, _, _, rfl, ?_, hlen, fun _ => ⟨stored, hstored⟩⟩
        unfold Outcome
        rw [if_neg (by rw [hfailed]; exact Bool.false_ne_true), if_pos (.inr hlong),
          Nat.min_eq_right hlong, List.take_left' hfull]
        exact ⟨hfull, hstored⟩
      rw [if_pos hroom]
      have hpos : (0 : ℤ) < (min (limit - stored.length) 4096 : ℕ) := by omega
      rcases gcHttpRead_sends hs hpos with
        ⟨bs, rest, hne, hle, rfl, hresult, hs'⟩ | ⟨rfl, rfl, hresult⟩ | ⟨rfl, rfl, hresult⟩ <;>
        rcases hread : gcHttpRead h (min (limit - stored.length) 4096 : ℕ) with ⟨r, h'⟩ <;>
        rw [hread] at hresult <;> simp only at hresult <;> subst hresult
      · rw [hread] at hs'
        obtain ⟨b, bs, rfl⟩ := List.exists_cons_of_ne_nil hne
        have hlen' : (stored ++ b :: bs).length ≤ limit := by
          rw [List.length_append]
          omega
        obtain ⟨ok, sink', hwrite, hok, hno⟩ := Sink.write_spec (b :: bs) hready hstored
          hfailed (by rw [List.length_append] at hlen'; omega)
        simp only [hwrite, Option.bind_some]
        cases ok with
        -- the sink has failed: nothing is kept
        | false =>
            have hfailed' := hno rfl
            refine ⟨_, _, _, rfl, ?_, Nat.zero_le _, fun h => ?_⟩
            · rw [Outcome, if_pos hfailed']
            · rw [hfailed'] at h
              cases h
        | true =>
            obtain ⟨hfailed', hstored'⟩ := hok rfl
            have hnext := ih hs' hstored' hfailed' hlen' (by
              rw [List.length_append, List.length_cons]
              omega)
            rwa [List.length_append, List.append_assoc] at hnext
      · -- the body has ended
        refine ⟨_, _, _, rfl, ?_, hlen, fun _ => ⟨stored, hstored⟩⟩
        unfold Outcome
        rw [List.append_nil, if_neg (by rw [hfailed]; exact Bool.false_ne_true), if_pos (.inl rfl),
          Nat.min_eq_left hlen, List.take_of_length_le hlen]
        exact ⟨rfl, hstored⟩
      -- the body is cut or broken
      · refine ⟨_, _, _, rfl, ?_, Nat.zero_le _, fun _ => ⟨stored, hstored⟩⟩
        unfold Outcome
        rw [List.append_nil, if_neg (by rw [hfailed]; exact Bool.false_ne_true), if_neg ?_]
        rw [not_or]
        exact ⟨Bool.false_ne_true, Nat.not_le.mpr hroom⟩

/-- A buffer, or a file that takes all it is given. -/
def Sink.Sound : Sink → Prop
  | .buffer _ => True
  | .file f => f.answers = [] ∧ f.error = false

/-- A sound sink has not failed. -/
theorem Sink.Sound.failed (hs : sink.Sound) : sink.failed = false := by
  match sink, hs with
  | .buffer _, _ => rfl
  | .file _, ⟨_, herror⟩ => exact herror

/-- Writing keeps a sink sound. -/
theorem Sink.Sound.write {total : ℕ} {ok : Bool} {sink' : Sink} (hs : sink.Sound)
    (hwrite : sink.write total bs = some (ok, sink')) : sink'.Sound := by
  match sink, hs with
  | .buffer b, _ =>
      obtain ⟨c, -, heq⟩ := Option.map_eq_some_iff.mp hwrite
      cases heq
      trivial
  | .file f, ⟨hanswers, herror⟩ =>
      rw [Sink.write, File.fwrite, hanswers] at hwrite
      cases hwrite
      exact ⟨rfl, herror⟩

/-- The loop leaves such a sink one. -/
theorem fetchLoop_sound {fuel total n : ℕ} {sink' : Sink} {h' : GcHttp κ} (hs : sink.Sound)
    (hloop : fetchLoop limit fuel total sink h = some (n, sink', h')) : sink'.Sound := by
  induction fuel generalizing total sink h with
  | zero => cases hloop
  | succ fuel ih =>
      rw [fetchLoop] at hloop
      split_ifs at hloop
      · rcases hread : gcHttpRead h (min (limit - total) 4096 : ℕ) with ⟨_ | _ | ⟨b, bs⟩, h₁⟩ <;>
          rw [hread] at hloop
        · cases hloop
          exact hs
        · cases hloop
          exact hs
        · obtain ⟨⟨ok, sink₁⟩, hwrite, hnext⟩ := Option.bind_eq_some_iff.mp hloop
          have hs₁ := hs.write hwrite
          cases ok with
          | false =>
              cases hnext
              exact hs₁
          | true => exact ih hs₁ hnext
      · cases hloop
        exact hs

end Loop

/-! ## The request -/

/-- What the sink holds in the end: a buffer has a zero behind the bytes. -/
def Sink.Holds (bs : List UInt8) (start sink : Sink) : Prop :=
  match start with
  | .buffer _ => start.Stores (bs ++ [0]) sink
  | .file _ => start.Stores bs sink

/-- The whole of the body is stored, as far as there is room for it, or the result is 0: where the
body is broken before that point or a call of `fwrite` fails. -/
def AllOrNothing (maxsize : ℕ) (start : Sink) (body : List UInt8) (whole : Bool) (n : ℕ)
    (sink : Sink) : Prop :=
  if sink.failed = true then n = 0
  else if whole = true ∨ start.limit maxsize ≤ body.length then
    n = min body.length (start.limit maxsize) ∧
      start.Holds (body.take (start.limit maxsize)) sink
  else n = 0

/-- The request that is open when the loop begins. -/
def fetchOpen (url : List UInt8) (net : Net κ) : Option (GcHttp κ) :=
  match net.alloc with
  | (false, _) => none
  | (true, net) =>
      match gcHttpOpen (fetchRequest κ url) net with
      | (false, _, _) => none
      | (true, h, _) => some h

/-- All or nothing, for every sink: nothing without an open request, and for an open one what the
grammar says of the bytes that the server sends. -/
def Fetches (url : List UInt8) (maxsize : ℕ) (net : Net κ) : Prop :=
  ∀ start : Sink, start.Ready maxsize → ∃ n sink net',
    httpRequest url (some start) maxsize net = some (n, some sink, net') ∧
    (fetchOpen url net = none → n = 0) ∧
    ∀ h, fetchOpen url net = some h → (∃ body whole, Sends HeaderAt h body whole) ∧
      ∀ body whole, Sends HeaderAt h body whole → AllOrNothing maxsize start body whole n sink

/-- By the grammar the body is broken before the limit, but the prefixes that the client skips in
front of the sizes make it a body of at least one byte that comes up to the limit. -/
def Misread (limit : ℕ) (h : GcHttp κ) : Prop :=
  ∃ broken body whole, Sends HeaderAt h broken false ∧ Sends Taken h body whole ∧
    broken.length < limit ∧ body ≠ [] ∧ (whole = true ∨ limit ≤ body.length)

section Request

variable {url : List UInt8} {maxsize : ℕ} {net : Net κ} {h : GcHttp κ} {start : Sink}
  {body : List UInt8} {whole : Bool}

/-- The zero fits behind the body. -/
theorem Sink.finish_spec {n : ℕ} {sink : Sink} (hmax : 2 ≤ maxsize) (hready : start.Ready maxsize)
    (hn : n ≤ start.limit maxsize) (hstores : sink.failed = false → ∃ all, start.Stores all sink) :
    ∃ sink', sink.finish n = some sink' ∧ sink'.failed = sink.failed ∧
      ∀ bs, bs.length = n → start.Stores bs sink → start.Holds bs sink' := by
  match start, sink with
  | .buffer b, .buffer b' =>
      obtain ⟨_, hlength, -⟩ := hstores rfl
      have hroom : maxsize ≤ b.length := hready
      have hn : n ≤ maxsize - 1 := hn
      obtain ⟨c, hput⟩ : ∃ c, put n [0] b' = some c := exists_put (by
        rw [List.length_singleton]
        omega)
      refine ⟨.buffer c, by rw [Sink.finish, hput]; rfl, rfl, fun bs hbs hstored => ?_⟩
      obtain ⟨-, htake⟩ := hstored
      refine ⟨(length_put hput).trans hlength, ?_⟩
      rw [hbs] at htake
      rw [List.length_append, hbs, take_put hput, htake]
  | .file f, .file f' => exact ⟨.file f', rfl, rfl, fun bs _ hstored => hstored⟩
  | .buffer b, .file f' => exact ⟨.file f', rfl, rfl, fun bs _ hstored => hstored.elim⟩
  | .file f, .buffer b' =>
      obtain ⟨_, hstored⟩ := hstores rfl
      exact hstored.elim

/-- The request with what the client takes for the body. -/
theorem httpRequest_spec (url : List UInt8) (net : Net κ) (hmax : 2 ≤ maxsize) (hready : start.Ready maxsize) :
    (fetchOpen url net = none →
      ∃ net', httpRequest url (some start) maxsize net = some (0, some start, net')) ∧
    ∀ h, fetchOpen url net = some h → Unread h ∧ h.conn.isSome = true ∧
      ∀ body whole, Sends Taken h body whole → ∃ n sink net',
        httpRequest url (some start) maxsize net = some (n, some sink, net') ∧
        AllOrNothing maxsize start body whole n sink ∧
        (start.Sound → sink.failed = false) := by
  unfold fetchOpen httpRequest
  rcases halloc : net.alloc with ⟨_ | _, net₁⟩
  · exact ⟨fun _ => ⟨_, rfl⟩, fun h hh => absurd hh.symm (Option.some_ne_none h)⟩
  simp only
  rw [if_neg (Nat.not_lt.mpr hmax)]
  have hunread : (gcHttpOpen (fetchRequest κ url) net₁).1 = true →
      Unread (gcHttpOpen (fetchRequest κ url) net₁).2.1 := gcHttpOpen_unread
  obtain ⟨_, _, -, -, -, hok, -⟩ := gcHttpOpen_outcome (fetchRequest κ url) net₁
  rcases hopen : gcHttpOpen (fetchRequest κ url) net₁ with ⟨_ | _, h, net₂⟩ <;>
    rw [hopen] at hunread hok
  · exact ⟨fun _ => ⟨_, rfl⟩, fun h hh => absurd hh.symm (Option.some_ne_none h)⟩
  refine ⟨fun hnone => absurd hnone (Option.some_ne_none h), fun h' hh => ?_⟩
  obtain rfl : h = h' := Option.some.inj hh
  -- an opened request has a connection whose body is unread
  obtain ⟨-, c, _, -, hconn, -⟩ := hok rfl
  simp only at hconn
  refine ⟨hunread rfl, by rw [hconn]; rfl, fun body whole hs => ?_⟩
  have hlimit : start.limit maxsize ≤ maxsize := by
    cases start with
    | buffer b => exact Nat.sub_le _ _
    | file f => exact le_rfl
  -- the loop's fuel is one more than it can store
  have hfuel : start.limit maxsize < ([] : List UInt8).length + (start.limit maxsize + 1) := by
    rw [List.length_nil]
    omega
  obtain ⟨n, sink, h₁, hloop, houtcome, hn, hstores⟩ := fetchLoop_spec hready hlimit hs
    start.stores_nil hready.failed (Nat.zero_le _) hfuel
  rw [List.length_nil] at hloop
  obtain ⟨sink', hfinish, hfailed, hholds⟩ := Sink.finish_spec hmax hready hn hstores
  refine ⟨n, sink', gcNetClose h₁.conn net₂, ?_, ?_,
    fun hsound => hfailed.trans (fetchLoop_sound hsound hloop).failed⟩
  · simp only [hloop, Option.bind_some, hfinish, Option.map_some]
  unfold AllOrNothing
  rw [hfailed]
  unfold Outcome at houtcome
  rw [List.nil_append] at houtcome
  split_ifs at houtcome ⊢ with hfail hall
  · exact houtcome
  · obtain ⟨hn', hstored⟩ := houtcome
    refine ⟨hn', hholds _ ?_ hstored⟩
    rw [List.length_take, hn', Nat.min_comm]
  · exact houtcome

/-- Only chunks are misread. -/
theorem Misread.chunked {limit : ℕ} (hmisread : Misread limit h) : h.chunked = true := by
  obtain ⟨broken, body, whole, hstrict, htaken, hlt, -, hend⟩ := hmisread
  by_contra hchunked
  rw [Bool.not_eq_true] at hchunked
  have hsame : body = broken ∧ whole = false := by
    generalize hwhole : false = w at hstrict ⊢
    cases hstrict with
    | ended => cases hwhole
    | counted hr _ hremaining =>
        cases htaken with
        | ended _ heof => rw [hr.eof] at heof; cases heof
        | counted _ _ hremaining' =>
            obtain rfl := Int.ofNat.inj (hremaining.symm.trans hremaining')
            exact ⟨rfl, rfl⟩
        | closing _ _ hneg => omega
        | chunked _ hchunked' => rw [hchunked] at hchunked'; cases hchunked'
    | closing hr _ hneg =>
        cases htaken with
        | ended _ heof => rw [hr.eof] at heof; cases heof
        | counted _ _ hremaining' => omega
        | closing => exact ⟨rfl, rfl⟩
        | chunked _ hchunked' => rw [hchunked] at hchunked'; cases hchunked'
    | chunked _ hchunked' => rw [hchunked] at hchunked'; cases hchunked'
  obtain ⟨rfl, rfl⟩ := hsame
  rcases hend with hwhole | hlong
  · cases hwhole
  · omega

/-- A body that is not misread comes as a whole or not at all. -/
theorem allOrNothing_of_not_misread {n : ℕ} {sink : Sink} {more : List UInt8} {whole' : Bool}
    (hstrict : Sends HeaderAt h body whole) (htaken : Sends Taken h (body ++ more) whole')
    (hwhole : whole = true → more = [] ∧ whole' = true)
    (hnot : ¬Misread (start.limit maxsize) h)
    (hall : AllOrNothing maxsize start (body ++ more) whole' n sink) :
    AllOrNothing maxsize start body whole n sink := by
  unfold AllOrNothing at hall ⊢
  by_cases hfailed : sink.failed = true
  · rw [if_pos hfailed] at hall ⊢
    exact hall
  rw [if_neg hfailed] at hall ⊢
  by_cases hlong : whole = true ∨ start.limit maxsize ≤ body.length
  · -- what is whole or long enough by the grammar is so for the client
    rw [if_pos hlong]
    have hlong' : whole' = true ∨ start.limit maxsize ≤ (body ++ more).length := by
      rcases hlong with hw | hlong
      · exact .inl (hwhole hw).2
      · rw [List.length_append]
        exact .inr (Nat.le_add_right_of_le hlong)
    rw [if_pos hlong'] at hall
    rcases hlong with hw | hlong
    · rwa [(hwhole hw).1, List.append_nil] at hall
    · rw [List.take_append_of_le_length hlong, List.length_append] at hall
      exact ⟨by omega, hall.2⟩
  · rw [if_neg hlong]
    by_cases hlong' : whole' = true ∨ start.limit maxsize ≤ (body ++ more).length
    swap
    · rwa [if_neg hlong'] at hall
    -- only the client has enough of a body, and it is empty
    rw [if_pos hlong'] at hall
    rw [not_or, Bool.not_eq_true, Nat.not_le] at hlong
    obtain ⟨rfl, hshort⟩ := hlong
    by_contra hn
    refine hnot ⟨body, body ++ more, whole', hstrict, htaken, hshort, fun hnil => hn ?_, hlong'⟩
    rw [hall.1, hnil, List.length_nil, Nat.zero_min]

/-- `http_request` stores the whole body up to its limit or returns 0, for every sink, exactly if the
body is not misread, up to the limit of a buffer and up to that of a file. -/
theorem httpRequest_iff (url : List UInt8) (maxsize : ℕ) (net : Net κ) (hmax : 2 ≤ maxsize) :
    Fetches url maxsize net ↔
      ∀ h, fetchOpen url net = some h → ¬Misread (maxsize - 1) h ∧ ¬Misread maxsize h := by
  constructor
  · intro hfetches h hopen
    -- a buffer, or a file that takes everything
    have hno : ∀ start : Sink, start.Ready maxsize → start.Sound →
        ¬Misread (start.limit maxsize) h := by
      rintro start hready hsound ⟨broken, body, whole, hstrict, htaken, hlt, hne, hend⟩
      obtain ⟨n, sink, net', hrun, -, hall⟩ := hfetches start hready
      obtain ⟨n', sink', net'', hrun', hall', hfailed⟩ :=
        ((httpRequest_spec url net hmax hready).2 h hopen).2.2 body whole htaken
      rw [hrun] at hrun'
      cases hrun'
      have hzero := (hall h hopen).2 broken false hstrict
      have hfailed' : ¬sink.failed = true := by
        rw [hfailed hsound]
        exact Bool.false_ne_true
      have hshort : ¬(false = true ∨ start.limit maxsize ≤ broken.length) := by
        rw [not_or]
        exact ⟨Bool.false_ne_true, Nat.not_le.mpr hlt⟩
      unfold AllOrNothing at hzero hall'
      rw [if_neg hfailed', if_neg hshort] at hzero
      rw [if_neg hfailed', if_pos hend, hzero] at hall'
      have hlength := List.length_pos_of_ne_nil hne
      omega
    have hbuffer := hno (.buffer (List.replicate maxsize 0)) (List.length_replicate).ge trivial
    have hfile := hno (.file ⟨[], [], false⟩) rfl ⟨rfl, rfl⟩
    exact ⟨hbuffer, hfile⟩
  · intro hnot start hready
    obtain ⟨hclosed, hopened⟩ := httpRequest_spec url net hmax hready
    rcases hopen : fetchOpen url net with _ | h
    · obtain ⟨net', hrun⟩ := hclosed hopen
      exact ⟨0, start, net', hrun, fun _ => rfl, fun h hh => absurd hh.symm (Option.some_ne_none h)⟩
    obtain ⟨hunread, hconn, hspec⟩ := hopened h hopen
    obtain ⟨body, whole, hs⟩ := hunread.exists_sends hconn HeaderAt.length_lt
    obtain ⟨more, whole', hs', -⟩ := hs.of_header
    obtain ⟨n, sink, net', hrun, -⟩ := hspec _ _ hs'
    refine ⟨n, sink, net', hrun, fun hnone => absurd hnone (Option.some_ne_none h), fun h' hh => ?_⟩
    obtain rfl : h = h' := Option.some.inj hh
    refine ⟨⟨body, whole, hs⟩, fun body whole hstrict => ?_⟩
    obtain ⟨more, whole', htaken, hwhole⟩ := hstrict.of_header
    obtain ⟨n', sink', net'', hrun', hall, -⟩ := hspec _ _ htaken
    rw [hrun] at hrun'
    cases hrun'
    have hmisread : ¬Misread (start.limit maxsize) h := by
      cases start with
      | buffer b => exact (hnot h hopen).1
      | file f => exact (hnot h hopen).2
    exact allOrNothing_of_not_misread hstrict htaken hwhole hmisread hall

end Request

section Sample

/-- A server that answers with the given bytes. -/
def answering (bs : List UInt8) : Net Unit where
  dials := [.connected (bs.map fun b => .data b []) []]
  allocs := []
  opened := []
  closed := []

/-- Three bytes with their length. -/
def countedAnswer : List UInt8 :=
  ascii "HTTP/1.1 200 OK\r\nContent-Length: 3\r\n\r\nabc"

theorem httpRequest_iff_counted : Fetches (ascii "http://host/") 10 (answering countedAnswer) := by
  refine (httpRequest_iff _ _ _ (by decide)).mpr fun h hopen => ?_
  have hchunked : (fetchOpen (ascii "http://host/") (answering countedAnswer)).map GcHttp.chunked =
      some false := by decide +kernel
  rw [hopen] at hchunked
  have hnot : ¬h.chunked = true := by
    rw [Option.some.inj hchunked]
    exact Bool.false_ne_true
  exact ⟨fun hmisread => hnot hmisread.chunked, fun hmisread => hnot hmisread.chunked⟩

/-- Three bytes in a chunk whose size has a prefix. -/
def prefixedAnswer : List UInt8 :=
  ascii "HTTP/1.1 200 OK\r\nTransfer-Encoding: chunked\r\n\r\n0x3\r\nabc\r\n0\r\n\r\n"

/-- A body whose framing is broken at its first byte counts for three bytes. -/
theorem httpRequest_prefixed : ¬Fetches (ascii "http://host/") 10 (answering prefixedAnswer) := by
  intro hfetches
  obtain ⟨n, sink, net', hrun, -, hall⟩ :=
    hfetches (.buffer (List.replicate 10 0)) (List.length_replicate).ge
  have hthree : (httpRequest (ascii "http://host/") (some (.buffer (List.replicate 10 0))) 10
      (answering prefixedAnswer)).map Prod.fst = some 3 := by decide +kernel
  rw [hrun] at hthree
  obtain rfl : n = 3 := Option.some.inj hthree
  have hopen : (fetchOpen (ascii "http://host/") (answering prefixedAnswer)).any fun h =>
      h.conn.isSome && !h.failed && !h.eof && h.chunked && h.chunkLeft == 0 && !h.chunkCrlf &&
        h.pending == ascii "0x3\r\nabc\r\n0\r\n\r\n" := by decide +kernel
  obtain ⟨h, hh, htrue⟩ := (Option.any_eq_true _ _).mp hopen
  simp only [Bool.and_eq_true, Bool.not_eq_true', beq_iff_eq] at htrue
  obtain ⟨⟨⟨⟨⟨⟨hconn, hfailed⟩, heof⟩, hchunked⟩, hleft⟩, hcrlf⟩, hpending⟩ := htrue
  have hbegins : PrefixedAt h.pending 3 (ascii "abc\r\n0\r\n\r\n") := by
    rw [hpending]
    exact ⟨120, ⟨[51], [], by decide, by decide +kernel, rfl, nofun, by decide⟩, by decide,
      by decide, by decide, by decide, by decide⟩
  have hat : h.At .size := ⟨hleft, hcrlf⟩
  have hzero := (hall h hh).2 [] false
    (.chunked ⟨hconn, hfailed, heof⟩ hchunked hat (.noSize hbegins.not_header))
  unfold AllOrNothing at hzero
  split_ifs at hzero with hfail hlong
  · exact absurd hlong (by decide)

end Sample

end WiiMC.Http
