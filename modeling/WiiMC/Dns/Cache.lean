import WiiMC.Lib.Transition
import WiiMC.Dns.Query
import WiiMC.Dns.Response

/-!
# Names are resolved

`dns.c`: a name is looked up in a cache of eight entries, and the server is asked for it if it is
not there. What the network does is an arbitrary argument of a step, and `inet_aton` is a
parameter. The mutex makes every call one step.

* `cacheGet`, `cachePut`, `dnsQuery`, `dnsResolve`: the functions.
* `resolver`: the runs, with the answers since the last flush.
* `Cached`: what holds of the cache in every run, and `cached_of_reachable`.
* `dnsCache_iff`: what a call does, and when the entry that goes is the oldest one.
-/

namespace WiiMC.Dns

open Bytes Player Transition

/-! ## The cache -/

/-- An entry of `cache`. -/
structure Entry where
  name : Text
  ip : UInt32
  deriving DecidableEq

/-- The globals of `dns.c`. -/
structure Resolver where
  /-- `dns_server`. -/
  server : UInt32
  /-- The counter `seq` of `dns_query`. -/
  seq : UInt16
  /-- The first `cache_n` entries of `cache`. -/
  cache : List Entry
  deriving DecidableEq

/-- `CACHE_N`. -/
def cacheN : ℕ := 8

/-- `cache_get`. -/
def cacheGet (host : Text) (cache : List Entry) : Option UInt32 :=
  (cache.find? fun e => e.name = host).map (·.ip)

/-- `cache_put`. -/
def cachePut (host : Text) (ip : UInt32) (cache : List Entry) : List Entry :=
  if 128 ≤ host.length then cache
  else if cache.length < cacheN then cache ++ [⟨host, ip⟩]
  else cache.set 0 ⟨host, ip⟩

/-- `dns_cache_flush`. -/
def dnsCacheFlush (s : Resolver) : Resolver := { s with cache := [] }

/-- `dns_set_server`. -/
def dnsSetServer (ip : UInt32) (s : Resolver) : Resolver := dnsCacheFlush { s with server := ip }

/-! ## A query -/

/-- What the network does in one of the tries. -/
structure Try where
  /-- What `net_sendto` returns. -/
  sent : ℤ
  /-- What `net_select` returns. -/
  selected : ℤ
  /-- What has arrived; nothing where `net_recvfrom` fails. -/
  reply : List UInt8

/-- What the network does in a query. -/
structure Net where
  /-- What `net_socket` returns. -/
  socket : ℤ
  tries : ℕ → Try

/-- The tries of `dns_query`: the address of the first usable answer. `ip` points to a variable
that no one has written. -/
def queryLoop (qlen : ℤ) (id : UInt16) : List Try → Option (Option UInt32)
  | [] => some none
  | t :: ts =>
      if t.sent ≠ qlen then queryLoop qlen id ts
      else if t.selected ≤ 0 then queryLoop qlen id ts
      else
        let r := t.reply.take 512
        if r = [] then queryLoop qlen id ts
        else
          (dnsParseResponse (some r) r.length id (some 0) none).bind fun (ret, ip, _) =>
          if ret = 0 then some ip else queryLoop qlen id ts

/-- `dns_query`: the address, or nothing for -1. -/
def dnsQuery (host : Text) (net : Net) (s : Resolver) : Option (Option UInt32 × Resolver) :=
  let id := s.seq + 1
  let s := { s with seq := id }
  (dnsBuildQuery (some (List.replicate 512 0)) 512 (some host) id).bind fun (qlen, _) =>
  if qlen < 0 then some (none, s)
  else if net.socket < 0 then some (none, s)
  else if 16 ≤ net.socket then some (none, s)
  else
    (queryLoop qlen id ((List.range 3).map net.tries)).map fun
      | none => (none, s)
      | some ip => (some ip, { s with cache := cachePut host ip s.cache })

/-- `dns_resolve`: the address, or nothing for -1. -/
def dnsResolve (inetAton : Text → Option UInt32) (host : Option Text) (net : Net) (s : Resolver) :
    Option (Option UInt32 × Resolver) :=
  match host with
  | none => some (none, s)
  | some host =>
      if host = [] then some (none, s)
      else match inetAton host with
      | some ip => some (some ip, s)
      | none =>
          match cacheGet host s.cache with
          | some ip => some (some ip, s)
          | none => if s.server = 0 then some (none, s) else dnsQuery host net s

/-! ## The runs -/

/-- The resolver, with the answers that the server has given since the last flush, the latest one
at the end. -/
structure History where
  resolver : Resolver
  answers : List Entry
  deriving DecidableEq

/-- The calls. -/
inductive Act
  | resolve (host : Option Text) (net : Net)
  | flush
  | setServer (ip : UInt32)

/-- The server is asked for the name. -/
def asks (inetAton : Text → Option UInt32) (host : Text) (s : Resolver) : Prop :=
  inetAton host = none ∧ cacheGet host s.cache = none

/-- Whether the network is asked is decided by the host and the cache. -/
instance (inetAton : Text → Option UInt32) (host : Text) (s : Resolver) :
    Decidable (asks inetAton host s) := inferInstanceAs (Decidable (_ ∧ _))

/-- The answers after a call that has returned `r`. -/
def History.record (inetAton : Text → Option UInt32) (h : History) :
    Option Text → Option UInt32 → List Entry
  | some host, some ip =>
      if asks inetAton host h.resolver then h.answers ++ [⟨host, ip⟩] else h.answers
  | _, _ => h.answers

/-- The effect of a call. -/
def History.step (inetAton : Text → Option UInt32) (h : History) : Act → Option History
  | .resolve host net =>
      (dnsResolve inetAton host net h.resolver).map fun (r, s) => ⟨s, h.record inetAton host r⟩
  | .flush => some ⟨dnsCacheFlush h.resolver, []⟩
  | .setServer ip => some ⟨dnsSetServer ip h.resolver, []⟩

/-- The resolver from the start on. -/
def resolver (inetAton : Text → Option UInt32) : System History Act where
  init h := h = ⟨⟨0, 0, []⟩, []⟩
  step := History.step inetAton

variable {inetAton : Text → Option UInt32} {host : Text} {ip : UInt32} {s t : Resolver}
  {h h' : History} {cache answers : List Entry} {e : Entry}

/-! ## What a call does -/

/-- The loop over the tries ends. -/
theorem queryLoop_total (qlen : ℤ) (id : UInt16) (ts : List Try) :
    ∃ r, queryLoop qlen id ts = some r := by
  induction ts with
  | nil => exact ⟨none, rfl⟩
  | cons t ts ih =>
      rw [queryLoop]
      by_cases hsent : t.sent ≠ qlen
      · rwa [if_pos hsent]
      rw [if_neg hsent]
      by_cases hselected : t.selected ≤ 0
      · rwa [if_pos hselected]
      rw [if_neg hselected]
      simp only
      by_cases hreply : t.reply.take 512 = []
      · rwa [if_pos hreply]
      rw [if_neg hreply]
      by_cases hr : ∃ r, Response id (t.reply.take 512) r
      · obtain ⟨r, hr⟩ := hr
        exact ⟨_, by rw [dnsParseResponse_response hr]; rfl⟩
      · rw [dnsParseResponse_none hr]
        exact ih

/-- A query returns, and stores the address that it has found. -/
theorem dnsQuery_spec (host : Text) (net : Net) (s : Resolver) :
    ∃ r t, dnsQuery host net s = some (r, t) ∧
      t.cache = (r.map fun ip => cachePut host ip s.cache).getD s.cache := by
  obtain ⟨qlen, q, hquery, -, -⟩ := dnsBuildQuery_spec (List.replicate 512 0) host (s.seq + 1)
  rw [List.length_replicate] at hquery
  unfold dnsQuery
  simp only
  rw [show (512 : ℤ) = ((512 : ℕ) : ℤ) from rfl, hquery, Option.bind_some]
  simp only
  by_cases hqlen : qlen < 0
  · exact ⟨none, _, if_pos hqlen, rfl⟩
  rw [if_neg hqlen]
  by_cases hsocket : net.socket < 0
  · exact ⟨none, _, if_pos hsocket, rfl⟩
  rw [if_neg hsocket]
  by_cases hset : 16 ≤ net.socket
  · exact ⟨none, _, if_pos hset, rfl⟩
  rw [if_neg hset]
  obtain ⟨r, hr⟩ := queryLoop_total qlen (s.seq + 1) ((List.range 3).map net.tries)
  rw [hr]
  rcases r with _ | ip
  · exact ⟨none, _, rfl, rfl⟩
  · exact ⟨some ip, _, rfl, rfl⟩

/-- A call fails, or it finds the address without the server, or the server is asked. -/
theorem dnsResolve_cases (inetAton : Text → Option UInt32) (host : Option Text) (net : Net)
    (s : Resolver) :
    ∃ r t, dnsResolve inetAton host net s = some (r, t) ∧
      ((r = none ∧ t.cache = s.cache) ∨
      (∃ name ip, host = some name ∧ r = some ip ∧ t = s ∧ ¬asks inetAton name s) ∨
      ∃ name ip, host = some name ∧ r = some ip ∧ asks inetAton name s ∧
        t.cache = cachePut name ip s.cache) := by
  rcases host with _ | host
  · exact ⟨none, s, rfl, .inl ⟨rfl, rfl⟩⟩
  rw [dnsResolve]
  -- the ways out of `dns_resolve` in front of the query
  by_cases hempty : host = []
  · exact ⟨none, s, if_pos hempty, .inl ⟨rfl, rfl⟩⟩
  rw [if_neg hempty]
  rcases haton : inetAton host with _ | ip
  swap
  · refine ⟨some ip, s, rfl, .inr (.inl ⟨host, ip, rfl, rfl, rfl, fun h => ?_⟩)⟩
    exact absurd (haton.symm.trans h.1) nofun
  simp only
  rcases hget : cacheGet host s.cache with _ | ip
  swap
  · refine ⟨some ip, s, rfl, .inr (.inl ⟨host, ip, rfl, rfl, rfl, fun h => ?_⟩)⟩
    exact absurd (hget.symm.trans h.2) nofun
  simp only
  by_cases hserver : s.server = 0
  · exact ⟨none, s, if_pos hserver, .inl ⟨rfl, rfl⟩⟩
  rw [if_neg hserver]
  obtain ⟨r, t, hquery, hcache⟩ := dnsQuery_spec host net s
  refine ⟨r, t, hquery, ?_⟩
  rcases r with _ | ip
  · exact .inl ⟨rfl, hcache⟩
  · exact .inr (.inr ⟨host, ip, rfl, rfl, ⟨haton, hget⟩, hcache⟩)

/-! ## The cache in every run -/

/-- `e` is the latest answer for its name. -/
def Latest (answers : List Entry) (e : Entry) : Prop :=
  ∃ a b, answers = a ++ e :: b ∧ ∀ x ∈ b, x.name ≠ e.name

/-- At most eight entries, of different names, each with the latest address. -/
structure Cached (h : History) : Prop where
  atMost : h.resolver.cache.length ≤ cacheN
  distinct : (h.resolver.cache.map (·.name)).Nodup
  latest : ∀ e ∈ h.resolver.cache, Latest h.answers e

/-- The answers whose names are not too long for an entry. -/
def stored (answers : List Entry) : List Entry := answers.filter fun e => e.name.length < 128

/-- Of the answers that are stored the cache has all, as long as there is room. From then on the
latest one takes the place of the first. -/
def Layout (answers cache : List Entry) : Prop :=
  ((stored answers).length ≤ cacheN ∧ cache = stored answers) ∨
  ∃ first rest newer last, (first :: rest).length = cacheN ∧
    stored answers = first :: rest ++ newer ++ [last] ∧ cache = last :: rest

/-- No entry of the cache has the name that is asked for. -/
theorem cacheGet_eq_none : cacheGet host cache = none ↔ host ∉ cache.map (·.name) := by
  rw [cacheGet, Option.map_eq_none_iff, List.find?_eq_none, List.mem_map]
  simp only [decide_eq_true_eq]
  exact ⟨fun h ⟨e, he, hname⟩ => h e he hname, fun h e he hname => h ⟨e, he, hname⟩⟩

/-- An answer is the latest one while other names are resolved. -/
theorem Latest.concat (h : Latest answers e) (x : Entry) (hx : x.name ≠ e.name) :
    Latest (answers ++ [x]) e := by
  obtain ⟨a, b, rfl, hb⟩ := h
  refine ⟨a, b ++ [x], by rw [List.append_assoc, List.cons_append], fun y hy => ?_⟩
  rcases List.mem_append.mp hy with hy | hy
  · exact hb y hy
  · rwa [List.mem_singleton.mp hy]

/-- A new answer is the latest one. -/
theorem latest_concat (answers : List Entry) (e : Entry) : Latest (answers ++ [e]) e :=
  ⟨answers, [], rfl, nofun⟩

/-- The cache does not outgrow its array. -/
theorem Layout.length_le (h : Layout answers cache) : cache.length ≤ cacheN := by
  rcases h with ⟨hle, rfl⟩ | ⟨first, rest, newer, last, hlen, -, rfl⟩
  · exact hle
  · exact hlen.le

/-- The names in the cache are short. -/
theorem Layout.short (h : Layout answers cache) (he : e ∈ cache) : e.name.length < 128 := by
  have hmem : e ∈ stored answers := by
    rcases h with ⟨-, rfl⟩ | ⟨first, rest, newer, last, -, heq, rfl⟩
    · exact he
    · rw [heq]
      rcases List.mem_cons.mp he with rfl | he
      · simp
      · simp [he]
  exact of_decide_eq_true (List.mem_filter.mp hmem).2

/-- What a new answer does with the cache. -/
theorem cachePut_cases (hlayout : Layout answers cache) (host : Text) (ip : UInt32) :
    Layout (answers ++ [⟨host, ip⟩]) (cachePut host ip cache) ∧
    ((128 ≤ host.length ∧ cachePut host ip cache = cache) ∨
      host.length < 128 ∧ (cache.length < cacheN ∧ cachePut host ip cache = cache ++ [⟨host, ip⟩] ∨
        ∃ old rest, cache = old :: rest ∧ cache.length = cacheN ∧
          cachePut host ip cache = ⟨host, ip⟩ :: rest)) := by
  -- A name that fits is stored behind the others.
  have hstored : ∀ hlen : host.length < 128,
      stored (answers ++ [⟨host, ip⟩]) = stored answers ++ [⟨host, ip⟩] := fun hlen => by
    rw [stored, List.filter_append, List.filter_cons_of_pos (by simpa using hlen)]
    rfl
  unfold cachePut
  by_cases hlong : 128 ≤ host.length
  · rw [if_pos hlong]
    have hsame : stored (answers ++ [⟨host, ip⟩]) = stored answers := by
      rw [stored, List.filter_append, List.filter_cons_of_neg (by simpa using hlong)]
      exact List.append_nil _
    exact ⟨by rwa [Layout, hsame], .inl ⟨hlong, rfl⟩⟩
  rw [if_neg hlong]
  specialize hstored (not_le.mp hlong)
  by_cases hfull : cache.length < cacheN
  · rw [if_pos hfull]
    refine ⟨.inl ?_, .inr ⟨not_le.mp hlong, .inl ⟨hfull, rfl⟩⟩⟩
    rcases hlayout with ⟨-, rfl⟩ | ⟨first, rest, newer, last, hlen, -, rfl⟩
    · rw [hstored]
      exact ⟨by rw [List.length_append]; exact hfull, rfl⟩
    · exact absurd hlen (Nat.ne_of_lt hfull)
  rw [if_neg hfull]
  -- the table is full: the first slot is taken, whatever stands there
  have hlen : cache.length = cacheN := Nat.le_antisymm hlayout.length_le (not_lt.mp hfull)
  obtain ⟨old, rest, rfl⟩ := List.exists_cons_of_length_pos (show 0 < cache.length by
    rw [hlen]; decide)
  refine ⟨.inr ?_, .inr ⟨not_le.mp hlong, .inr ⟨old, rest, rfl, hlen, rfl⟩⟩⟩
  rw [hstored]
  rcases hlayout with ⟨-, heq⟩ | ⟨first, rest', newer, last, hlen', heq, hcache⟩
  · exact ⟨old, rest, [], _, hlen, by rw [← heq, List.append_nil], rfl⟩
  · obtain ⟨rfl, rfl⟩ := List.cons.inj hcache
    exact ⟨first, rest, newer ++ [old], _, hlen', by rw [heq]; simp only [List.append_assoc], rfl⟩

/-- The name that has been asked for is found from then on. -/
theorem cacheGet_cachePut (hhost : host ∉ cache.map (·.name)) (hshort : host.length < 128)
    (ip : UInt32) : cacheGet host (cachePut host ip cache) = some ip := by
  have hnone : cache.find? (fun e => e.name = host) = none := by
    rwa [← Option.map_eq_none_iff (f := (·.ip)), ← cacheGet, cacheGet_eq_none]
  unfold cachePut
  rw [if_neg (not_le.mpr hshort)]
  by_cases hfull : cache.length < cacheN
  · rw [if_pos hfull, cacheGet, List.find?_append, hnone, Option.none_or,
      List.find?_cons_of_pos (by simp)]
    rfl
  · rw [if_neg hfull]
    rcases cache with _ | ⟨old, rest⟩
    · exact absurd (show ([] : List Entry).length < cacheN by decide) hfull
    · rw [List.set_cons_zero, cacheGet, List.find?_cons_of_pos (by simp)]
      rfl

/-- Storing a new answer keeps the invariant. -/
theorem Cached.put (hcached : Cached h) (hlayout : Layout h.answers h.resolver.cache)
    (hhost : host ∉ h.resolver.cache.map (·.name)) (hcache : t.cache = cachePut host ip h.resolver.cache) :
    Cached ⟨t, h.answers ++ [⟨host, ip⟩]⟩ ∧ Layout (h.answers ++ [⟨host, ip⟩]) t.cache := by
  obtain ⟨hnext, hcases⟩ := cachePut_cases hlayout host ip
  rw [← hcache] at hnext hcases
  -- an entry that stays has another name
  have hold : ∀ e ∈ h.resolver.cache, Latest (h.answers ++ [⟨host, ip⟩]) e := fun e he =>
    (hcached.latest e he).concat _ fun heq => hhost (List.mem_map.mpr ⟨e, he, heq.symm⟩)
  have hnew := latest_concat h.answers ⟨host, ip⟩
  refine ⟨⟨hnext.length_le, ?_, ?_⟩, hnext⟩
  · show (t.cache.map (·.name)).Nodup
    have hdistinct := hcached.distinct
    rcases hcases with ⟨-, heq⟩ | ⟨-, ⟨-, heq⟩ | ⟨old, rest, hrest, -, heq⟩⟩
    · rwa [heq]
    · rw [heq, List.map_append]
      refine List.nodup_append.mpr ⟨hdistinct, List.nodup_cons.mpr ⟨nofun, .nil⟩,
        fun x hx y hy hxy => hhost ?_⟩
      rwa [hxy, List.mem_singleton.mp hy] at hx
    · rw [hrest, List.map_cons] at hdistinct hhost
      rw [heq]
      exact List.nodup_cons.mpr
        ⟨fun hmem => hhost (List.mem_cons_of_mem _ hmem), (List.nodup_cons.mp hdistinct).2⟩
  · intro e he
    have he : e ∈ t.cache := he
    rcases hcases with ⟨-, heq⟩ | ⟨-, ⟨-, heq⟩ | ⟨old, rest, hrest, -, heq⟩⟩ <;> rw [heq] at he
    · exact hold e he
    · rcases List.mem_append.mp he with he | he
      · exact hold e he
      · rwa [List.mem_singleton.mp he]
    · rcases List.mem_cons.mp he with rfl | he
      · exact hnew
      · exact hold e (by rw [hrest]; exact List.mem_cons_of_mem old he)

/-- The invariant holds of an empty cache. -/
theorem cached_empty (s : Resolver) (hs : s.cache = []) : Cached ⟨s, []⟩ ∧ Layout [] s.cache :=
  ⟨⟨by rw [hs]; exact Nat.zero_le _, by rw [hs]; exact .nil, by rw [hs]; exact nofun⟩,
    .inl ⟨Nat.zero_le _, hs⟩⟩

/-- Every call keeps it. -/
theorem Cached.step {a : Act} (hcached : Cached h) (hlayout : Layout h.answers h.resolver.cache)
    (hstep : h.step inetAton a = some h') : Cached h' ∧ Layout h'.answers h'.resolver.cache := by
  rcases a with ⟨host, net⟩ | _ | ip
  · obtain ⟨⟨r, t⟩, hrun, rfl⟩ := Option.map_eq_some_iff.mp hstep
    obtain ⟨r', t', hrun', hcases⟩ := dnsResolve_cases inetAton host net h.resolver
    cases hrun'.symm.trans hrun
    rcases hcases with ⟨rfl, heq⟩ | ⟨name, ip, rfl, rfl, rfl, hno⟩ | ⟨name, ip, rfl, rfl, hasks, heq⟩
    · have hrecord : h.record inetAton host none = h.answers := by cases host <;> rfl
      simp only [hrecord, heq]
      exact ⟨⟨by rw [heq]; exact hcached.atMost, by rw [heq]; exact hcached.distinct,
        by rw [heq]; exact hcached.latest⟩, hlayout⟩
    · have hrecord : h.record inetAton (some name) (some ip) = h.answers := if_neg hno
      simp only [hrecord]
      exact ⟨hcached, hlayout⟩
    · have hrecord : h.record inetAton (some name) (some ip) = h.answers ++ [⟨name, ip⟩] :=
        if_pos hasks
      simp only [hrecord]
      exact hcached.put hlayout (cacheGet_eq_none.mp hasks.2) heq
  · obtain rfl := Option.some.inj hstep
    exact cached_empty _ rfl
  · obtain rfl := Option.some.inj hstep
    exact cached_empty _ rfl

/-- The invariant holds in every state of a run. -/
theorem cached_of_reachable (hs : (resolver inetAton).Reachable (fun _ _ => True) h) :
    Cached h ∧ Layout h.answers h.resolver.cache := by
  refine hs.invariant (I := fun h => Cached h ∧ Layout h.answers h.resolver.cache) ?_ ?_
  · rintro h rfl
    exact cached_empty _ rfl
  · rintro h a h' - ⟨hcached, hlayout⟩ - hstep
    exact hcached.step hlayout hstep

/-! ## The entry that goes -/

/-- Every other entry of the cache has been stored behind `e`. -/
def Oldest (h : History) (e : Entry) : Prop :=
  ∃ a b, h.answers = a ++ e :: b ∧ (∀ x ∈ b, x.name ≠ e.name) ∧
    ∀ x ∈ h.resolver.cache, x ≠ e → x ∈ b

/-- The first entry of a full cache is the oldest one only until it is overwritten. -/
theorem oldest_first {rest : List Entry} (hcached : Cached h)
    (hlayout : Layout h.answers h.resolver.cache) (hcache : h.resolver.cache = e :: rest)
    (hfull : h.resolver.cache.length = cacheN) :
    Oldest h e ↔ (stored h.answers).length = cacheN := by
  have hdistinct := hcached.distinct
  have hmem : e ∈ h.resolver.cache := by rw [hcache]; exact List.mem_cons_self
  have hshort := hlayout.short hmem
  -- An answer that is stored splits the stored ones where it splits all.
  have hsplit : ∀ a b, h.answers = a ++ e :: b → stored h.answers = stored a ++ e :: stored b := by
    intro a b hab
    rw [hab, stored, List.filter_append, List.filter_cons_of_pos (by simpa using hshort)]
    rfl
  have hrest : e ∉ rest := fun hmem => by
    rw [hcache, List.map_cons] at hdistinct
    exact (List.nodup_cons.mp hdistinct).1 (List.mem_map_of_mem hmem)
  constructor
  · rintro ⟨a, b, hab, hb, hbehind⟩
    rcases hlayout with ⟨-, heq⟩ | ⟨first, rest', newer, last, hlen, heq, hcache'⟩
    · rw [← heq, hfull]
    · -- the first entry is the last answer, so that no other entry stands behind it
      obtain ⟨rfl, rfl⟩ := List.cons.inj (hcache.symm.trans hcache')
      exfalso
      have hnil : stored b = [] := by
        by_contra hne
        have hlast := congrArg List.getLast? ((hsplit a b hab).symm.trans heq)
        rw [List.getLast?_append_of_ne_nil _ (List.cons_ne_nil _ _), List.getLast?_concat,
          List.getLast?_cons_of_ne_nil hne] at hlast
        exact hb e (List.mem_filter.mp (List.mem_of_getLast? hlast)).1 rfl
      obtain ⟨x, rest, rfl⟩ := List.exists_cons_of_length_pos (show 0 < rest.length by
        rw [List.length_cons] at hlen
        have : cacheN = 8 := rfl
        omega)
      have hx : x ∈ h.resolver.cache := by simp [hcache]
      have hxe : x ≠ e := fun heq => hrest (by simp [heq])
      have hmem : x ∈ stored b := List.mem_filter.mpr
        ⟨hbehind x hx hxe, decide_eq_true (Layout.short (.inr ⟨_, _, _, _, hlen, heq, hcache⟩) hx)⟩
      rw [hnil] at hmem
      exact absurd hmem List.not_mem_nil
  -- With eight stored answers the table is these in order, so its first is the oldest.
  · intro hlen
    have heq : h.resolver.cache = stored h.answers := by
      rcases hlayout with ⟨-, heq⟩ | ⟨first, rest', newer, last, hlen', heq, hcache'⟩
      · exact heq
      · rw [heq, List.length_append, List.length_append, hlen', List.length_singleton] at hlen
        omega
    obtain ⟨a, b, hab, hb⟩ := hcached.latest e hmem
    refine ⟨a, b, hab, hb, fun x hx hxe => ?_⟩
    have hstored := hsplit a b hab
    rw [← heq, hcache] at hstored
    rcases ha : stored a with _ | ⟨y, ys⟩ <;> rw [ha] at hstored
    · obtain ⟨-, hrest⟩ := List.cons.inj hstored
      rw [hcache, hrest] at hx
      rcases List.mem_cons.mp hx with rfl | hx
      · exact absurd rfl hxe
      · exact (List.mem_filter.mp hx).1
    · -- nothing is stored in front of the first entry
      obtain ⟨-, hmore⟩ := List.cons.inj hstored
      exact absurd (by rw [hmore]; simp) hrest

/-- Who has gone from a full cache was the oldest one, if and only if nothing has been overwritten
since the flush. -/
theorem gone_oldest_iff (hcached : Cached h) (hlayout : Layout h.answers h.resolver.cache)
    (hasks : host ∉ h.resolver.cache.map (·.name)) (hcache : t.cache = cachePut host ip h.resolver.cache)
    (hfull : h.resolver.cache.length = cacheN) (hchanged : t.cache ≠ h.resolver.cache) :
    (∀ e ∈ h.resolver.cache, e ∉ t.cache → Oldest h e) ↔ (stored h.answers).length = cacheN := by
  rcases (cachePut_cases hlayout host ip).2 with ⟨-, heq⟩ | ⟨-, ⟨hlt, -⟩ | ⟨old, rest, hrest, -, heq⟩⟩
  · exact absurd (hcache.trans heq) hchanged
  · exact absurd hfull (Nat.ne_of_lt hlt)
  rw [hcache, heq]
  have hold := oldest_first hcached hlayout hrest hfull
  have hdistinct := hcached.distinct
  rw [hrest, List.map_cons] at hdistinct hasks
  constructor
  · intro hgone
    refine hold.mp (hgone old (by simp [hrest]) fun hmem => ?_)
    rcases List.mem_cons.mp hmem with rfl | hmem
    · exact hasks List.mem_cons_self
    · exact (List.nodup_cons.mp hdistinct).1 (List.mem_map_of_mem hmem)
  · intro hlen e he hgone
    rw [hrest] at he
    rcases List.mem_cons.mp he with rfl | he
    · exact hold.mpr hlen
    · exact absurd (List.mem_cons_of_mem _ he) hgone

/-- What has been resolved is in the cache then, if it is no address itself. -/
theorem dnsResolve_found {net : Net} (hrun : dnsResolve inetAton (some host) net s = some (some ip, t))
    (hshort : host.length < 128) (haton : inetAton host = none) :
    cacheGet host t.cache = some ip := by
  obtain ⟨r, t', hrun', hcases⟩ := dnsResolve_cases inetAton (some host) net s
  cases hrun.symm.trans hrun'
  rcases hcases with ⟨hr, -⟩ | ⟨name, ip', hname, hr, rfl, hno⟩ | ⟨name, ip', hname, hr, hasks, heq⟩
  · cases hr
  · obtain rfl := Option.some.inj hname
    obtain ⟨ip', hget⟩ := Option.ne_none_iff_exists'.mp fun hget => hno ⟨haton, hget⟩
    rw [dnsResolve] at hrun
    by_cases hempty : host = []
    · rw [if_pos hempty] at hrun
      cases hrun
    · rw [if_neg hempty, haton] at hrun
      simp only [hget] at hrun
      cases hrun
      exact hget
  · obtain rfl := Option.some.inj hname
    obtain rfl := Option.some.inj hr
    rw [heq]
    exact cacheGet_cachePut (cacheGet_eq_none.mp hasks.2) hshort ip

/-- The next call for a name returns what this one has returned. -/
theorem dnsResolve_again {net : Net} (hrun : dnsResolve inetAton (some host) net s = some (some ip, t))
    (hshort : host.length < 128) (net' : Net) :
    dnsResolve inetAton (some host) net' t = some (some ip, t) := by
  have hget := dnsResolve_found hrun hshort
  rw [dnsResolve] at hrun ⊢
  by_cases hempty : host = []
  · rw [if_pos hempty] at hrun
    cases hrun
  rw [if_neg hempty] at hrun ⊢
  rcases haton : inetAton host with _ | addr
  · simp only [hget haton]
  · rw [haton] at hrun
    cases hrun
    rfl

/-- In every run the cache has at most eight entries of different names, each with the latest
address. A call returns, what it has resolved is found by the next one, and where an entry of a full
cache goes it is the oldest one, if and only if it is the first to go since the flush. -/
theorem dnsCache_iff (hs : (resolver inetAton).Reachable (fun _ _ => True) h) :
    Cached h ∧ ∀ host net, ∃ r t, dnsResolve inetAton (some host) net h.resolver = some (r, t) ∧
      (∀ ip, r = some ip → host.length < 128 →
        (inetAton host = none → cacheGet host t.cache = some ip) ∧
        ∀ net', dnsResolve inetAton (some host) net' t = some (some ip, t)) ∧
      (h.resolver.cache.length = cacheN → t.cache ≠ h.resolver.cache →
        ((∀ e ∈ h.resolver.cache, e ∉ t.cache → Oldest h e) ↔
          (stored h.answers).length = cacheN)) := by
  obtain ⟨hcached, hlayout⟩ := cached_of_reachable hs
  refine ⟨hcached, fun host net => ?_⟩
  obtain ⟨r, t, hrun, hcases⟩ := dnsResolve_cases inetAton (some host) net h.resolver
  refine ⟨r, t, hrun, ?_, fun hfull hchanged => ?_⟩
  · rintro ip rfl hshort
    exact ⟨dnsResolve_found hrun hshort, dnsResolve_again hrun hshort⟩
  · rcases hcases with ⟨-, heq⟩ | ⟨name, ip, hname, hr, rfl, -⟩ | ⟨name, ip, -, -, hasks, heq⟩
    · exact absurd heq hchanged
    · exact absurd rfl hchanged
    · exact gone_oldest_iff hcached hlayout (cacheGet_eq_none.mp hasks.2) heq hfull hchanged

/-- A response with an address. -/
def reply (id : UInt16) (ip : List UInt8) : List UInt8 :=
  BigEndian.encode 2 id.toNat ++ [0x80, 0, 0, 0, 0, 1, 0, 0, 0, 0] ++
    [0, 0, 1, 0, 1, 0, 0, 0, 0, 0, 4] ++ ip

/-- A network on which the query `id` for a name of one byte has the answer `ip`. -/
def answering (id : UInt16) (ip : List UInt8) : Net :=
  ⟨3, fun _ => ⟨19, 1, reply id ip⟩⟩

/-- The server is set, and nine names of one byte are resolved. -/
def nineNames : List Act :=
  .setServer 0x0A000001 :: (List.range 9).map fun i =>
    .resolve (some [UInt8.ofNat (97 + i)]) (answering (UInt16.ofNat (i + 1)) [10, 0, 0, UInt8.ofNat i])

/-- The cache after eight names, where `e` is the first entry. -/
def fullCache (e : Entry) : List Entry :=
  e :: (List.range 7).map fun i => ⟨[UInt8.ofNat (98 + i)], UInt32.ofNat (0x0A000001 + i)⟩

/-- Where the calls lead. -/
def nine : History where
  resolver := ⟨0x0A000001, 9, fullCache ⟨[105], 0x0A000008⟩⟩
  answers := (List.range 9).map fun i => ⟨[UInt8.ofNat (97 + i)], UInt32.ofNat (0x0A000000 + i)⟩

/-- The state behind nine resolutions is reached. -/
theorem reachable_nine : (resolver fun _ => none).Reachable (fun _ _ => True) nine := by
  have hexec : (resolver fun _ => none).exec ⟨⟨0, 0, []⟩, []⟩ nineNames = some nine := by
    decide +kernel
  exact System.Reachable.exec (.init rfl) (System.OkAlong.of_forall (fun _ _ => trivial) _) hexec

theorem dnsCache_iff_nine :
    Cached nine ∧ ∀ host net, ∃ r t,
      dnsResolve (fun _ => none) (some host) net nine.resolver = some (r, t) ∧
      (∀ ip, r = some ip → host.length < 128 →
        ((none : Option UInt32) = none → cacheGet host t.cache = some ip) ∧
        ∀ net', dnsResolve (fun _ => none) (some host) net' t = some (some ip, t)) ∧
      (nine.resolver.cache.length = cacheN → t.cache ≠ nine.resolver.cache →
        ((∀ e ∈ nine.resolver.cache, e ∉ t.cache → Oldest nine e) ↔
          (stored nine.answers).length = cacheN)) :=
  dnsCache_iff reachable_nine

/-- The tenth name takes the place of the ninth, which is the newest one. -/
theorem dnsCache_newest :
    ∃ h t, (resolver fun _ => none).Reachable (fun _ _ => True) h ∧
      dnsResolve (fun _ => none) (some [106]) (answering 10 [10, 0, 0, 9]) h.resolver =
        some (some 0x0A000009, t) ∧
      h.resolver.cache.length = cacheN ∧
      ∃ e ∈ h.resolver.cache, e ∉ t.cache ∧ ¬Oldest h e := by
  obtain ⟨hcached, hlayout⟩ := cached_of_reachable reachable_nine
  refine ⟨nine, ⟨0x0A000001, 10, fullCache ⟨[106], 0x0A000009⟩⟩, reachable_nine, by decide +kernel,
    rfl, ⟨[105], 0x0A000008⟩, List.mem_cons_self, by decide +kernel, fun hold => ?_⟩
  -- nine answers are stored
  exact absurd ((oldest_first hcached hlayout rfl rfl).mp hold) (by decide +kernel)

end WiiMC.Dns
