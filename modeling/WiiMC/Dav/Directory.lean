import WiiMC.Dav.Device
import WiiMC.Lib.Transition

/-!
# The directory cache

`cache_remove`, `cache_copy`, `cache_store` and `dav_diropen` of `webdav_device.c`, called by any
number of threads. The two sections of `dav_diropen` that hold the lock are one step each; between
them the thread lists the directory over the network, which may give anything.

* `cacheCopy`, `cacheStore`: the locked sections.
* `Evictions`: what the cache may throw away.
* `directories`: the calls of `dav_diropen` as a transition system.
* `directoryCache_ok`: the cache in every run in which no listing is stored beside another one for
  the same path.
-/

namespace WiiMC.Dav

open Bytes Transition

/-- `DAV_DIRECTORY_CACHE_LIMIT`. -/
def davDirectoryCacheLimit : ℕ := 1024 * 1024

/-- `dav_cache_entry`. -/
structure DavCacheEntry where
  path : List UInt8
  entries : List GcDavEntry
  bytes : ℕ
  stamp : ℕ
  deriving DecidableEq

/-- `directory_cache`, `directory_cache_bytes` and `directory_cache_clock`. -/
structure DirectoryCache where
  items : List DavCacheEntry
  bytes : ℕ
  clock : ℕ
  deriving DecidableEq

/-- The root's path. -/
def rootPath : List UInt8 := ascii "/"

/-- `++directory_cache_clock`, an `unsigned long` of 32 bits. -/
def DirectoryCache.tick (d : DirectoryCache) : ℕ := (d.clock + 1) % 2 ^ 32

/-- The first entry for the path gets a stamp. -/
def touch (path : List UInt8) (stamp : ℕ) : List DavCacheEntry → List DavCacheEntry
  | [] => []
  | item :: items =>
      if item.path = path then { item with stamp } :: items else item :: touch path stamp items

/-- What `cache_copy` returns: 0, -1, or 1 and the listing. -/
inductive Copied
  | miss
  | noMemory
  | hit (entries : List GcDavEntry)
  deriving DecidableEq

/-- `cache_copy`; `memory` is whether its `malloc` succeeds. -/
def cacheCopy (path : List UInt8) (memory : Bool) (d : DirectoryCache) : Copied × DirectoryCache :=
  match d.items.find? fun item => item.path = path with
  | none => (.miss, d)
  | some item =>
      if item.entries ≠ [] ∧ memory = false then (.noMemory, d)
      else (.hit item.entries, { d with clock := d.tick, items := touch path d.tick d.items })

/-- `bytes` in `cache_store`, with the sizes of the two structures on the console. -/
def entryBytes (path : List UInt8) (entries : List GcDavEntry) : ℕ :=
  24 + path.length + 1 + entries.length * 272

/-- The victim behind the item at the index `i`. -/
def better (i : ℕ) (item : DavCacheEntry) (victim : Option (ℕ × DavCacheEntry)) :
    Option (ℕ × DavCacheEntry) :=
  if item.path = rootPath then victim
  else match victim with
    | none => some (i, item)
    | some v => if item.stamp < v.2.stamp then some (i, item) else some v

/-- The loop over the items from the index `i` on that looks for a victim. -/
def victimLoop : ℕ → Option (ℕ × DavCacheEntry) → List DavCacheEntry → Option (ℕ × DavCacheEntry)
  | _, victim, [] => victim
  | i, victim, item :: items => victimLoop (i + 1) (better i item victim) items

/-- `cache_remove` of the item at the index `i`. -/
def cacheRemove (d : DirectoryCache) (i : ℕ) (victim : DavCacheEntry) : DirectoryCache :=
  { d with items := d.items.eraseIdx i, bytes := d.bytes - victim.bytes }

/-- The loop of `cache_store` that makes room; `false` if there is no victim left. Every round
removes an item, so that many rounds are enough, and without `fuel` there is no victim. -/
def makeRoom : ℕ → ℕ → DirectoryCache → Bool × DirectoryCache
  | 0, bytes, d => (decide (d.bytes + bytes ≤ davDirectoryCacheLimit), d)
  | fuel + 1, bytes, d =>
      if davDirectoryCacheLimit < d.bytes + bytes then
        match victimLoop 0 none d.items with
        | none => (false, d)
        | some (i, victim) => makeRoom fuel bytes (cacheRemove d i victim)
      else (true, d)

/-- `cache_store`; `memory` is whether its allocations succeed. -/
def cacheStore (path : List UInt8) (entries : List GcDavEntry) (memory : Bool)
    (d : DirectoryCache) : DirectoryCache :=
  if davDirectoryCacheLimit < entryBytes path entries then d
  else match makeRoom d.items.length (entryBytes path entries) d with
    | (false, d) => d
    | (true, d) =>
        if memory then
          { items := ⟨path, entries, entryBytes path entries, d.tick⟩ :: d.items
            bytes := d.bytes + entryBytes path entries
            clock := d.tick }
        else d

/-- Whether `cache_store` stores the listing. -/
def stores (path : List UInt8) (entries : List GcDavEntry) (memory : Bool)
    (d : DirectoryCache) : Bool :=
  decide (entryBytes path entries ≤ davDirectoryCacheLimit) &&
    (makeRoom d.items.length (entryBytes path entries) d).1 && memory

/-- The threads, each of which may be listing a directory, and the listings that have been stored,
the latest first. -/
structure Directories (τ : Type) where
  cache : DirectoryCache
  pending : τ → Option (List UInt8)
  stored : List (List UInt8 × List GcDavEntry)

/-- What a thread does. -/
inductive DirAct (τ : Type)
  /-- It calls `dav_diropen`, up to the end of `cache_copy`. -/
  | open_ (t : τ) (path : List UInt8) (memory : Bool)
  /-- The listing arrives, and `cache_store` is done. -/
  | listed (t : τ) (entries : List GcDavEntry) (memory : Bool)
  /-- The listing fails. -/
  | failed (t : τ)

variable {τ : Type} [DecidableEq τ]

/-- One step of `dav_diropen`. -/
def Directories.step (s : Directories τ) : DirAct τ → Option (Directories τ)
  | .open_ t path memory =>
      if s.pending t ≠ none then none
      else match cacheCopy (localPath path) memory s.cache with
        | (.miss, cache) =>
            some { s with cache, pending := Function.update s.pending t (some (localPath path)) }
        | (_, cache) => some { s with cache }
  | .listed t entries memory =>
      (s.pending t).map fun path =>
        { cache := cacheStore path entries memory s.cache
          pending := Function.update s.pending t none
          stored := if stores path entries memory s.cache then (path, entries) :: s.stored
            else s.stored }
  | .failed t =>
      (s.pending t).map fun _ => { s with pending := Function.update s.pending t none }

/-- The calls of `dav_diropen`, from the start of the program. -/
def directories (τ : Type) [DecidableEq τ] : System (Directories τ) (DirAct τ) where
  init s := s = ⟨⟨[], 0, 0⟩, fun _ => none, []⟩
  step := Directories.step

/-! ## What is thrown away -/

/-- One by one, an entry with the smallest stamp among those that are not the root's. -/
inductive Evictions : List DavCacheEntry → List DavCacheEntry → Prop
  | done (items : List DavCacheEntry) : Evictions items items
  | evict {items rest : List DavCacheEntry} {i : ℕ} {victim : DavCacheEntry} :
      items[i]? = some victim → victim.path ≠ rootPath →
      (∀ e ∈ items, e.path ≠ rootPath → victim.stamp ≤ e.stamp) →
      Evictions (items.eraseIdx i) rest → Evictions items rest

/-- What the loop over the items has found: nothing but the root, or a victim. -/
def IsVictim (items : List DavCacheEntry) : Option (ℕ × DavCacheEntry) → Prop
  | none => ∀ e ∈ items, e.path = rootPath
  | some (i, victim) => items[i]? = some victim ∧ victim.path ≠ rootPath ∧
      ∀ e ∈ items, e.path ≠ rootPath → victim.stamp ≤ e.stamp

/-- The sum of the bytes of the entries. -/
def totalBytes (items : List DavCacheEntry) : ℕ := (items.map DavCacheEntry.bytes).sum

/-- The counter is right, and within the limit. -/
structure Sound (d : DirectoryCache) : Prop where
  sum : d.bytes = totalBytes d.items
  bound : d.bytes ≤ davDirectoryCacheLimit

section Evicting

variable {items rest : List DavCacheEntry} {d : DirectoryCache} {path : List UInt8}
  {entries : List GcDavEntry} {memory : Bool}

/-- What is left behind evictions was there before. -/
theorem Evictions.sublist (h : Evictions items rest) : rest.Sublist items := by
  induction h with
  | done items => exact List.Sublist.refl items
  | evict _ _ _ _ ih => exact ih.trans (List.eraseIdx_sublist _ _)

/-- The root's entries stay. -/
theorem Evictions.root (h : Evictions items rest) {e : DavCacheEntry} (he : e ∈ items)
    (hroot : e.path = rootPath) : e ∈ rest := by
  induction h with
  | done items => exact he
  | evict hget hvictim _ _ ih =>
      refine ih (List.mem_eraseIdx_iff_getElem?.mpr ?_)
      obtain ⟨j, hj⟩ := List.mem_iff_getElem?.mp he
      refine ⟨j, fun hij => ?_, hj⟩
      subst hij
      cases hget.symm.trans hj
      exact hvictim hroot

/-- The victim behind one more item. -/
theorem isVictim_better {pre : List DavCacheEntry} {victim : Option (ℕ × DavCacheEntry)}
    (item : DavCacheEntry) (hvictim : IsVictim pre victim) :
    IsVictim (pre ++ [item]) (better pre.length item victim) := by
  have hmem : ∀ {P : DavCacheEntry → Prop}, (∀ e ∈ pre, P e) → P item → ∀ e ∈ pre ++ [item], P e :=
    fun hpre hitem e he => (List.mem_append.mp he).elim (hpre e) fun he =>
      (List.mem_singleton.mp he).symm ▸ hitem
  unfold better
  cases victim with
  | none =>
      simp only
      split_ifs with hroot
      · exact hmem hvictim hroot
      · exact ⟨List.getElem?_concat_length, hroot,
          hmem (fun e he hpath => absurd (hvictim e he) hpath) fun _ => le_rfl⟩
  | some v =>
      obtain ⟨hget, hne, hmin⟩ := hvictim
      have hget' : (pre ++ [item])[v.1]? = some v.2 :=
        (List.getElem?_append_left (List.getElem?_eq_some_iff.mp hget).1).trans hget
      simp only
      split_ifs with hroot hstamp
      · exact ⟨hget', hne, hmem hmin fun hpath => absurd hroot hpath⟩
      · exact ⟨List.getElem?_concat_length, hroot,
          hmem (fun e he hpath => hstamp.le.trans (hmin e he hpath)) fun _ => le_rfl⟩
      · exact ⟨hget', hne, hmem hmin fun _ => not_lt.mp hstamp⟩

/-- What the loop finds is the best of all items, whatever it has found in those before. -/
theorem victimLoop_isVictim (pre items : List DavCacheEntry) {victim : Option (ℕ × DavCacheEntry)}
    (hvictim : IsVictim pre victim) :
    IsVictim (pre ++ items) (victimLoop pre.length victim items) := by
  induction items generalizing pre victim with
  | nil =>
      rw [List.append_nil]
      exact hvictim
  | cons item items ih =>
      have hloop := ih (pre ++ [item]) (isVictim_better item hvictim)
      rwa [List.append_assoc, List.length_append] at hloop

/-- The loop finds the entry to be evicted. -/
theorem victimLoop_spec (items : List DavCacheEntry) :
    IsVictim items (victimLoop 0 none items) :=
  victimLoop_isVictim [] items nofun

/-- Without an entry, the cache has its bytes less. -/
theorem totalBytes_eraseIdx {i : ℕ} {victim : DavCacheEntry} (hget : items[i]? = some victim) :
    totalBytes items = victim.bytes + totalBytes (items.eraseIdx i) := by
  induction items generalizing i with
  | nil => cases hget
  | cons item items ih =>
      cases i with
      | zero =>
          cases hget
          rfl
      | succ i =>
          have hrest := ih hget
          simp only [totalBytes, List.map_cons, List.sum_cons, List.eraseIdx_cons_succ] at hrest ⊢
          omega

/-- Removing an entry keeps the count of the bytes. -/
theorem cacheRemove_sound {i : ℕ} {victim : DavCacheEntry} (hd : Sound d)
    (hget : d.items[i]? = some victim) : Sound (cacheRemove d i victim) := by
  obtain ⟨hsum, hbound⟩ := hd
  have htotal := totalBytes_eraseIdx hget
  refine ⟨?_, ?_⟩ <;> simp only [cacheRemove] <;> omega

/-- The room made for a listing: the rest behind some evictions, which is small enough, or in which
nothing but the root is left. -/
structure RoomMade (d : DirectoryCache) (bytes : ℕ) (r : Bool × DirectoryCache) : Prop where
  evictions : Evictions d.items r.2.items
  sound : Sound r.2
  room : r.1 = true → r.2.bytes + bytes ≤ davDirectoryCacheLimit
  noVictim : r.1 = false → ∀ e ∈ r.2.items, e.path = rootPath

/-- Entries are evicted until there is room, or none is left but the root. -/
theorem makeRoom_spec {fuel : ℕ} (bytes : ℕ) (hd : Sound d) (hfuel : d.items.length ≤ fuel) :
    RoomMade d bytes (makeRoom fuel bytes d) := by
  induction fuel generalizing d with
  | zero =>
      obtain hnil : d.items = [] := List.length_eq_zero_iff.mp (by omega)
      refine ⟨.done _, hd, of_decide_eq_true, fun _ e he => ?_⟩
      rw [makeRoom, hnil] at he
      cases he
  | succ fuel ih =>
      have hvictim := victimLoop_spec d.items
      rw [makeRoom]
      by_cases hfull : davDirectoryCacheLimit < d.bytes + bytes
      · rw [if_pos hfull]
        rcases hloop : victimLoop 0 none d.items with _ | ⟨i, victim⟩ <;> rw [hloop] at hvictim
        · exact ⟨.done _, hd, nofun, fun _ => hvictim⟩
        · obtain ⟨hget, hne, hmin⟩ := hvictim
          have hlen : (cacheRemove d i victim).items.length ≤ fuel := by
            have hlt := (List.getElem?_eq_some_iff.mp hget).1
            rw [cacheRemove, List.length_eraseIdx_of_lt hlt]
            omega
          obtain ⟨hevict, hsound, hroom, hno⟩ := ih (cacheRemove_sound hd hget) hlen
          exact ⟨.evict hget hne hmin hevict, hsound, hroom, hno⟩
      · rw [if_neg hfull]
        exact ⟨.done _, hd, fun _ => not_lt.mp hfull, nofun⟩

/-- What remains after room has been made for a listing. -/
def room (path : List UInt8) (entries : List GcDavEntry) (d : DirectoryCache) : DirectoryCache :=
  (makeRoom d.items.length (entryBytes path entries) d).2

/-- A listing that is stored is put in front of what remains. -/
theorem cacheStore_of_stores (hd : Sound d) (hstores : stores path entries memory d = true) :
    Evictions d.items (room path entries d).items ∧ Sound (cacheStore path entries memory d) ∧
      (cacheStore path entries memory d).items =
        ⟨path, entries, entryBytes path entries, (room path entries d).tick⟩ ::
          (room path entries d).items := by
  rw [stores, Bool.and_eq_true, Bool.and_eq_true, decide_eq_true_eq] at hstores
  obtain ⟨⟨hfits, hok⟩, rfl⟩ := hstores
  obtain ⟨hevict, ⟨hsum, -⟩, hroom, -⟩ :=
    makeRoom_spec (entryBytes path entries) hd le_rfl
  unfold cacheStore room
  rw [if_neg (not_lt.mpr hfits)]
  rcases hmake : makeRoom d.items.length (entryBytes path entries) d with ⟨ok, d'⟩
  rw [hmake] at hok hevict hsum hroom
  obtain rfl : ok = true := hok
  refine ⟨hevict, ⟨?_, hroom rfl⟩, rfl⟩
  show d'.bytes + entryBytes path entries = entryBytes path entries + totalBytes d'.items
  rw [Nat.add_comm]
  exact congrArg _ hsum

/-- A listing that is not stored costs evictions at most. -/
theorem cacheStore_of_not_stores (hd : Sound d) (hstores : stores path entries memory d = false) :
    Evictions d.items (cacheStore path entries memory d).items ∧
      Sound (cacheStore path entries memory d) := by
  have hmade := makeRoom_spec (entryBytes path entries) hd le_rfl
  unfold cacheStore
  by_cases hbig : davDirectoryCacheLimit < entryBytes path entries
  · rw [if_pos hbig]
    exact ⟨.done _, hd⟩
  rw [if_neg hbig]
  rw [stores, decide_eq_true (not_lt.mp hbig), Bool.true_and] at hstores
  rcases hmake : makeRoom d.items.length (entryBytes path entries) d with ⟨_ | _, d'⟩ <;>
    rw [hmake] at hmade hstores
  · exact ⟨hmade.evictions, hmade.sound⟩
  · obtain rfl : memory = false := hstores
    exact ⟨hmade.evictions, hmade.sound⟩

/-- An entry without its stamp. -/
def DavCacheEntry.content (e : DavCacheEntry) : List UInt8 × List GcDavEntry × ℕ :=
  (e.path, e.entries, e.bytes)

/-- A stamp does not change what an entry holds. -/
theorem touch_content (path : List UInt8) (stamp : ℕ) (items : List DavCacheEntry) :
    (touch path stamp items).map DavCacheEntry.content = items.map DavCacheEntry.content := by
  induction items with
  | nil => rfl
  | cons item items ih =>
      rw [touch]
      split_ifs
      · rfl
      · rw [List.map_cons, List.map_cons, ih]

/-- A lookup changes nothing but stamps. -/
theorem cacheCopy_content (path : List UInt8) (memory : Bool) (d : DirectoryCache) :
    (cacheCopy path memory d).2.items.map DavCacheEntry.content =
      d.items.map DavCacheEntry.content ∧ (cacheCopy path memory d).2.bytes = d.bytes := by
  unfold cacheCopy
  cases d.items.find? fun item => item.path = path with
  | none => exact ⟨rfl, rfl⟩
  | some item =>
      simp only
      split_ifs
      · exact ⟨rfl, rfl⟩
      · exact ⟨touch_content path _ d.items, rfl⟩

/-- A lookup finds an entry for the path. -/
theorem cacheCopy_hit (hhit : (cacheCopy path memory d).1 = .hit entries) :
    ∃ item ∈ d.items, item.path = path ∧ item.entries = entries := by
  unfold cacheCopy at hhit
  cases hfind : d.items.find? fun item => item.path = path with
  | none =>
      rw [hfind] at hhit
      cases hhit
  | some item =>
      rw [hfind] at hhit
      simp only at hhit
      split_ifs at hhit
      cases hhit
      exact ⟨item, List.mem_of_find?_eq_some hfind, by simpa using List.find?_some hfind, rfl⟩

/-- What holds of the cache depends on what its entries hold. -/
theorem Sound.of_content {d d' : DirectoryCache} (hd : Sound d)
    (hcontent : d'.items.map DavCacheEntry.content = d.items.map DavCacheEntry.content)
    (hbytes : d'.bytes = d.bytes) : Sound d' := by
  have htotal : totalBytes d'.items = totalBytes d.items := by
    have h := congrArg (fun l => (l.map fun c => c.2.2).sum) hcontent
    simp only [List.map_map] at h
    exact h
  exact ⟨by rw [hbytes, htotal, hd.sum], hbytes ▸ hd.bound⟩

end Evicting

/-! ## Runs -/

section Runs

variable {τ : Type} [DecidableEq τ] {s s' : Directories τ} {a : DirAct τ}

/-- The paths in the cache. -/
def DirectoryCache.paths (d : DirectoryCache) : List (List UInt8) :=
  d.items.map DavCacheEntry.path

/-- The step stores a listing for a path that the cache still holds: since the thread's own miss
another one has stored it. -/
def Duplicates (s : Directories τ) : DirAct τ → Prop
  | .listed t entries memory => ∃ path, s.pending t = some path ∧
      stores path entries memory s.cache = true ∧ path ∈ (room path entries s.cache).paths
  | _ => False

/-- All that a step takes out of the cache it has evicted, and it puts in one entry at most. -/
def EvictsOnly (s s' : Directories τ) : Prop :=
  ∃ rest, Evictions s.cache.items rest ∧
    (s'.cache.items.map DavCacheEntry.content = rest.map DavCacheEntry.content ∨
      ∃ item, s'.cache.items = item :: rest)

/-- A lookup that hits returns the listing that has been stored last for the path. -/
def LooksUp (s : Directories τ) : Prop :=
  ∀ path memory entries, (cacheCopy path memory s.cache).1 = .hit entries →
    s.stored.lookup path = some entries

/-- The invariant behind `LooksUp`. -/
def Recent (s : Directories τ) : Prop :=
  ∀ item ∈ s.cache.items, s.stored.lookup item.path = some item.entries

/-- Everything a step can do: evict, and put one listing in front of the rest. -/
theorem step_cases (hd : Sound s.cache) (hstep : s.step a = some s') :
    Sound s'.cache ∧ ∃ rest, Evictions s.cache.items rest ∧
      ((s'.cache.items.map DavCacheEntry.content = rest.map DavCacheEntry.content ∧
        s'.stored = s.stored ∧ ¬ Duplicates s a) ∨
      ∃ item, s'.cache.items = item :: rest ∧
        s'.stored = (item.path, item.entries) :: s.stored ∧
        (Duplicates s a ↔ item.path ∈ rest.map DavCacheEntry.path)) := by
  cases a with
  -- an opening copies the entries out and changes no content
  | open_ t path memory =>
      obtain ⟨hcontent, hbytes⟩ := cacheCopy_content (localPath path) memory s.cache
      simp only [Directories.step] at hstep
      split_ifs at hstep
      rcases hcopy : cacheCopy (localPath path) memory s.cache with ⟨_ | _ | entries, cache⟩ <;>
        rw [hcopy] at hstep hcontent hbytes <;> cases hstep
      all_goals
        exact ⟨hd.of_content hcontent hbytes, s.cache.items, .done _,
          Or.inl ⟨hcontent, rfl, not_false⟩⟩
  -- a listing is stored in front, if it fits behind the evictions
  | listed t entries memory =>
      obtain ⟨path, hpending, rfl⟩ := Option.map_eq_some_iff.mp hstep
      cases hstores : stores path entries memory s.cache with
      | true =>
          obtain ⟨hevict, hsound, hitems⟩ := cacheStore_of_stores hd hstores
          refine ⟨hsound, _, hevict, Or.inr ⟨_, hitems, rfl, ?_, fun hmem => ?_⟩⟩
          · rintro ⟨path', hpending', -, hmem⟩
            cases hpending.symm.trans hpending'
            exact hmem
          · exact ⟨path, hpending, hstores, hmem⟩
      | false =>
          obtain ⟨hevict, hsound⟩ := cacheStore_of_not_stores hd hstores
          refine ⟨hsound, _, hevict, Or.inl ⟨rfl, rfl, ?_⟩⟩
          rintro ⟨path', hpending', hstores', -⟩
          cases hpending.symm.trans hpending'
          rw [hstores] at hstores'
          cases hstores'
  | failed t =>
      obtain ⟨path, -, rfl⟩ := Option.map_eq_some_iff.mp hstep
      exact ⟨hd, s.cache.items, .done _, Or.inl ⟨rfl, rfl, not_false⟩⟩

/-- In every run the counter is right and within the limit. -/
theorem sound_of_reachable {ok : Directories τ → DirAct τ → Prop}
    (hs : (directories τ).Reachable ok s) : Sound s.cache := by
  refine hs.invariant (I := fun s => Sound s.cache) ?_ fun _ _ _ _ hi _ hstep =>
    (step_cases hi hstep).1
  rintro _ rfl
  exact ⟨rfl, Nat.zero_le _⟩

/-- Entries that hold the same have the same paths. -/
theorem paths_of_content {items items' : List DavCacheEntry}
    (h : items'.map DavCacheEntry.content = items.map DavCacheEntry.content) :
    items'.map DavCacheEntry.path = items.map DavCacheEntry.path := by
  have hfst := congrArg (fun l => l.map Prod.fst) h
  simp only [List.map_map] at hfst
  exact hfst

/-- After a step without duplicates each path has one entry, and that is the latest. -/
theorem step_once (hd : Sound s.cache) (hstep : s.step a = some s')
    (honce : s.cache.paths.Nodup) : s'.cache.paths.Nodup ↔ ¬ Duplicates s a := by
  obtain ⟨-, rest, hevict, hrest⟩ := step_cases hd hstep
  have hrest' : (rest.map DavCacheEntry.path).Nodup :=
    honce.sublist (hevict.sublist.map _)
  rcases hrest with ⟨hcontent, -, hnot⟩ | ⟨item, hitems, -, hdup⟩
  · rw [DirectoryCache.paths, paths_of_content hcontent]
    exact ⟨fun _ => hnot, fun _ => hrest'⟩
  · rw [DirectoryCache.paths, hitems, List.map_cons, List.nodup_cons, hdup]
    exact ⟨fun h => h.1, fun h => ⟨h, hrest'⟩⟩

/-- A step that duplicates nothing leaves the newest listing of each path. -/
theorem step_recent (hd : Sound s.cache) (hstep : s.step a = some s') (hrecent : Recent s)
    (hnot : ¬ Duplicates s a) : Recent s' := by
  obtain ⟨-, rest, hevict, hrest⟩ := step_cases hd hstep
  rcases hrest with ⟨hcontent, hstored, -⟩ | ⟨item, hitems, hstored, hdup⟩
  · intro item hitem
    -- the entry has been there before, with another stamp at most
    have hmem : item.content ∈ rest.map DavCacheEntry.content :=
      hcontent ▸ List.mem_map_of_mem hitem
    obtain ⟨item', hitem', hsame⟩ := List.mem_map.mp hmem
    have hold := hrecent item' (hevict.sublist.subset hitem')
    simp only [DavCacheEntry.content, Prod.mk.injEq] at hsame
    rw [hstored, ← hsame.1, ← hsame.2.1]
    exact hold
  · intro item' hitem'
    rw [hitems] at hitem'
    rw [hstored, List.lookup_cons]
    rcases List.mem_cons.mp hitem' with rfl | hitem'
    · simp
    · -- no other entry has the path of the new one
      have hne : item'.path ≠ item.path := fun heq =>
        hnot (hdup.mpr (heq ▸ List.mem_map_of_mem hitem'))
      rw [beq_eq_false_iff_ne.mpr hne]
      exact hrecent item' (hevict.sublist.subset hitem')

omit [DecidableEq τ] in
/-- With the newest listing of each path, a lookup finds it. -/
theorem Recent.looksUp (hrecent : Recent s) : LooksUp s := by
  intro path memory entries hhit
  obtain ⟨item, hitem, rfl, rfl⟩ := cacheCopy_hit hhit
  exact hrecent item hitem

/-- The root's listings stay, with another stamp at most. -/
def KeepsRoot (s s' : Directories τ) : Prop :=
  ∀ e ∈ s.cache.items, e.path = rootPath →
    e.content ∈ s'.cache.items.map DavCacheEntry.content

/-- In every run the counter of the bytes is right and within the limit, and a step evicts by the
stamps, and never the root. -/
theorem directoryCache_evicts {ok : Directories τ → DirAct τ → Prop}
    (hs : (directories τ).Reachable ok s) (hstep : s.step a = some s') :
    Sound s'.cache ∧ EvictsOnly s s' ∧ KeepsRoot s s' := by
  obtain ⟨hsound, rest, hevict, hrest⟩ := step_cases (sound_of_reachable hs) hstep
  refine ⟨hsound, ⟨rest, hevict, hrest.imp (fun h => h.1) fun ⟨item, h⟩ => ⟨item, h.1⟩⟩,
    fun e he hroot => ?_⟩
  have hmem : e.content ∈ rest.map DavCacheEntry.content :=
    List.mem_map_of_mem (hevict.root he hroot)
  rcases hrest with ⟨hcontent, -⟩ | ⟨item, hitems, -⟩
  · exact hcontent ▸ hmem
  · rw [hitems]
    exact List.mem_cons_of_mem _ hmem

/-- If no step of a run stores a listing for a path that the cache still holds, each path has one
entry, and a lookup returns the listing that was stored last; the first step that does so leaves
two entries. The counter, the evictions and the root are right in any case. -/
theorem directoryCache_ok (hs : (directories τ).Reachable (fun s a => ¬ Duplicates s a) s) :
    Sound s.cache ∧ s.cache.paths.Nodup ∧ LooksUp s ∧
      ∀ a s', s.step a = some s' → Sound s'.cache ∧ EvictsOnly s s' ∧ KeepsRoot s s' ∧
        (s'.cache.paths.Nodup ↔ ¬ Duplicates s a) := by
  have hinv : s.cache.paths.Nodup ∧ Recent s := by
    refine hs.invariant (I := fun s => s.cache.paths.Nodup ∧ Recent s) ?_
      fun s a t hr hi hnot hstep => ?_
    · rintro _ rfl
      exact ⟨List.nodup_nil, nofun⟩
    · have hd := sound_of_reachable hr
      exact ⟨(step_once hd hstep hi.1).mpr hnot, step_recent hd hstep hi.2 hnot⟩
  have hd := sound_of_reachable hs
  refine ⟨hd, hinv.1, hinv.2.looksUp, fun a s' hstep => ?_⟩
  obtain ⟨hsound, hevicts, hroot⟩ := directoryCache_evicts hs hstep
  exact ⟨hsound, hevicts, hroot, step_once hd hstep hinv.1⟩

end Runs

section Sample

def sampleListing : List GcDavEntry := [{ name := ascii "a.mp3", directory := false, size := 3 }]

/-- One thread has opened `/a`, and its listing has been stored. -/
def sampleDirectories : Directories Bool where
  cache := ⟨[⟨ascii "/a", sampleListing, 299, 1⟩], 299, 1⟩
  pending := Function.update (Function.update (fun _ => none) false (some (ascii "/a"))) false none
  stored := [(ascii "/a", sampleListing)]

theorem directoryCache_ok_sample :
    Sound sampleDirectories.cache ∧ sampleDirectories.cache.paths.Nodup ∧ LooksUp sampleDirectories ∧
      ∀ a s', sampleDirectories.step a = some s' →
        Sound s'.cache ∧ EvictsOnly sampleDirectories s' ∧ KeepsRoot sampleDirectories s' ∧
          (s'.cache.paths.Nodup ↔ ¬ Duplicates sampleDirectories a) := by
  have hlocal : localPath (ascii "dav1:/a") = ascii "/a" := by decide
  have hmiss : (directories Bool).Reachable (fun s a => ¬ Duplicates s a)
      ⟨⟨[], 0, 0⟩, Function.update (fun _ => none) false (some (ascii "/a")), []⟩ := by
    refine .step (.init rfl) (a := .open_ false (ascii "dav1:/a") true) not_false ?_
    simp only [directories, Directories.step, hlocal]
    rfl
  have hstores : stores (ascii "/a") sampleListing true ⟨[], 0, 0⟩ = true := by decide
  have hstore : cacheStore (ascii "/a") sampleListing true ⟨[], 0, 0⟩ = sampleDirectories.cache := by
    decide
  refine directoryCache_ok (.step hmiss (a := .listed false sampleListing true) ?_ ?_)
  · rintro ⟨path, -, -, hmem⟩
    cases hmem
  · simp only [directories, Directories.step, Function.update_self, Option.map_some, hstores,
      hstore]
    rfl

/-- Two threads open the same directory, and both listings are stored. -/
def twoMisses : List (DirAct Bool) :=
  [.open_ false (ascii "dav1:/a") true, .open_ true (ascii "dav1:/a") true,
    .listed false sampleListing true, .listed true sampleListing true]

theorem twoMisses_duplicate :
    ∃ s, (directories Bool).Reachable (fun _ _ => True) s ∧
      s.cache.paths = [ascii "/a", ascii "/a"] := by
  have hrun : ((directories Bool).exec ⟨⟨[], 0, 0⟩, fun _ => none, []⟩ twoMisses).map
      (fun s => s.cache.paths) = some [ascii "/a", ascii "/a"] := by
    decide +kernel
  obtain ⟨s, hexec, hpaths⟩ := Option.map_eq_some_iff.mp hrun
  exact ⟨s, System.Reachable.exec (.init rfl)
    (System.OkAlong.of_forall (P := fun _ => True) (fun _ _ => trivial) _) hexec, hpaths⟩

end Sample

end WiiMC.Dav
