import WiiMC.Browser.Playlist
import WiiMC.Player.FolderQueue

/-!
# The shuffle of the playlist

`musicplaylist.cpp`: `MusicPlaylistGetNextShuffle` draws an order of the positions in the playlist
and goes along it, one position a call. The order is drawn again when the shuffle has been reset, or
when it has been gone through; its length is that of the playlist when it was drawn.

* `nextShuffle_seen`: what the player sees of a call.
* `nexts_walk`: the calls between two draws.
* `Sound`: the steps behind which the order fits the playlist.
* `shuffled_of_reachable`: it fits in every state that these steps reach.
* `musicShuffle_visits`: each song is visited once, and what other steps lead to.
-/

namespace WiiMC.Browser

open Bytes Linked Player Transition

/-- `s = s->next`, `n` times; `none` where it follows a null pointer. -/
def walk (next : Ptr → Option Ptr) : ℕ → Option Ptr → Option (Option Ptr)
  | 0, p => some p
  | _ + 1, none => none
  | n + 1, some p => walk next n (next p)

namespace Music

/-- The order is drawn again. -/
def Reshuffles (s : Music) : Prop :=
  s.shuffleIndex = -1 ∨ (s.browser.numEntries : ℤ) ≤ s.shuffleIndex

/-- Whether the tracks are shuffled again is decided by the index. -/
instance (s : Music) : Decidable s.Reshuffles := by
  unfold Reshuffles
  infer_instance

/-- A new order, where `malloc` succeeds or not and `rand()` returns `rand i` for the `i`-th swap. -/
def populate (alloc : Bool) (rand : ℕ → Draw) (s : Music) : Option Music :=
  if alloc then
    let num := s.browser.numEntries
    (swapLoop num (num - 1) (List.range num) ((List.range (num - 1)).map rand)).map fun r =>
      { s with shuffleList := r.1, shuffleIndex := 0 }
  else none

/-- The entry at the next position; `none` outside of the list that has been allocated. -/
def nextEntry (s : Music) : Option (Option Ptr × Music) :=
  s.shuffleIndex.toNat?.bind fun k =>
    s.shuffleList[k]?.bind fun n =>
      (walk s.browser.links.next n s.browser.first).map fun p =>
        (p, { s with shuffleIndex := s.shuffleIndex + 1 })

/-- `MusicPlaylistGetNextShuffle`. -/
def musicPlaylistGetNextShuffle (alloc : Bool) (rand : ℕ → Draw) (s : Music) : Option (Option Ptr × Music) :=
  (if s.Reshuffles then s.populate alloc rand else some s).bind nextEntry

/-- Calls in a row. -/
def nexts : List (Bool × (ℕ → Draw)) → Music → Option (List (Option Ptr) × Music)
  | [], s => some ([], s)
  | c :: calls, s =>
      (s.musicPlaylistGetNextShuffle c.1 c.2).bind fun r => (nexts calls r.2).map fun q => (r.1 :: q.1, q.2)

end Music

/-! ## The order -/

/-- Walking along the list gives its entry, or its end. -/
theorem walk_spec {next : Ptr → Option Ptr} {q : Option Ptr} {l : List Ptr} (n : ℕ)
    (h : Seg next q l none) : walk next n q = if n ≤ l.length then some l[n]? else none := by
  induction n generalizing q l with
  | zero => rw [walk, if_pos (Nat.zero_le _), h.head, List.head?_eq_getElem?]
  | succ n ih =>
      cases l with
      | nil =>
          cases h
          rfl
      | cons x l =>
          obtain ⟨rfl, h⟩ := h
          rw [walk, ih h, List.length_cons, List.getElem?_cons_succ]
          simp only [Nat.add_le_add_iff_right]

/-- The loop swaps positions. -/
theorem swapLoop_perm {num n : ℕ} {list : List ℕ} (ds : List Draw) (hlen : list.length = num)
    (hn : n ≤ num - 1) (hds : n ≤ ds.length) :
    ∃ r, swapLoop num n list ds = some r ∧ r.1.Perm list := by
  induction n generalizing list ds with
  | zero => exact ⟨(list, ds), rfl, .rfl⟩
  | succ n ih =>
      obtain ⟨d, ds, rfl⟩ := List.exists_cons_of_length_pos (Nat.lt_of_lt_of_le n.succ_pos hds)
      rw [swapLoop]
      have hslot : slot (num - (num - 1 - (n + 1))) d < num - (num - 1 - (n + 1)) := slot_lt (by omega) d
      have hi : num - 1 - (n + 1) < list.length := by omega
      have hj : num - 1 - (n + 1) + slot (num - (num - 1 - (n + 1))) d < list.length := by omega
      have hswap := List.set_set_perm hi hj
      simp only [List.getD_eq_getElem?_getD, List.getElem?_eq_getElem hi,
        List.getElem?_eq_getElem hj, Option.getD_some]
      obtain ⟨r, hr, hperm⟩ := ih ds (hswap.length_eq.trans hlen) (by omega)
        (Nat.le_of_succ_le_succ hds)
      exact ⟨r, hr, hperm.trans hswap⟩

variable {s t : Music} {l : List Ptr} {k : ℕ} {rand : ℕ → Draw}

/-- The new order is one of the positions that are counted. -/
theorem populate_spec (s : Music) (rand : ℕ → Draw) :
    ∃ order : List ℕ, order.Perm (List.range s.browser.numEntries) ∧
      s.populate true rand = some { s with shuffleList := order, shuffleIndex := 0 } := by
  obtain ⟨r, hr, hperm⟩ := swapLoop_perm
    ((List.range (s.browser.numEntries - 1)).map rand) List.length_range le_rfl
    (by rw [List.length_map, List.length_range])
  refine ⟨r.1, hperm, ?_⟩
  rw [Music.populate, if_pos rfl]
  simp only [hr, Option.map_some]

/-- The next entry is the one at the shuffled index. -/
theorem nextEntry_eq (h : Listed s.browser l) (hk : s.shuffleIndex = k) :
    s.nextEntry = s.shuffleList[k]?.bind fun n =>
      if n ≤ l.length then some (l[n]?, { s with shuffleIndex := k + 1 }) else none := by
  rw [Music.nextEntry, hk, show ((k : ℤ).toNat? : Option ℕ) = some k from rfl, Option.bind_some]
  refine Option.bind_congr fun n hn => ?_
  rw [walk_spec n h.chain.forward]
  split_ifs <;> rfl

/-! ## What the player sees -/

/-- The player `t` has the playlist: the paths of its entries, and the variables of the shuffle. -/
structure Seen (s : Music) (l : List Ptr) (t : Tracks) : Prop where
  paths : l.map (fun p => (s.browser.entry p).file) = t.browserMusic.map some
  list : t.shuffleList = s.shuffleList
  index : t.shuffleIndex = s.shuffleIndex

/-- The loop leaves what `rand()` returns later. -/
theorem swapLoop_append {num n : ℕ} {list : List ℕ} {ds : List Draw} {r : List ℕ × List Draw}
    (rest : List Draw) (hlen : ds.length = n) (hr : swapLoop num n list ds = some r) :
    swapLoop num n list (ds ++ rest) = some (r.1, rest) := by
  induction n generalizing list ds with
  | zero =>
      obtain rfl := List.eq_nil_of_length_eq_zero hlen
      cases hr
      rfl
  | succ n ih =>
      obtain ⟨d, ds, rfl⟩ := List.exists_cons_of_length_eq_add_one hlen
      exact ih (Nat.succ.inj hlen) hr

/-- Where `MusicPlaylistGetNextShuffle` returns an entry, the player goes to its index, and sees the
shuffle behind the call. -/
theorem nextShuffle_seen {u : Tracks} {p : Ptr} {rest : List Draw} (h : Songs s.browser l 0)
    (hseen : Seen s l u)
    (hdraws : u.draws = (if s.Reshuffles then (List.range (l.length - 1)).map rand else []) ++ rest)
    (hnext : s.musicPlaylistGetNextShuffle true rand = some (some p, t)) :
    ∃ n v, u.nextShuffle = some (n, v) ∧ l[n]? = some p ∧ Seen t l v ∧ v.draws = rest := by
  have hlen : u.browserMusic.length = l.length := by
    have hpaths := congrArg List.length hseen.paths
    rw [List.length_map, List.length_map] at hpaths
    exact hpaths.symm
  have hnum : s.browser.numEntries = u.browserMusic.length := h.numEntries_eq.trans hlen.symm
  obtain ⟨m, hm, hentry⟩ := Option.bind_eq_some_iff.mp hnext
  -- the entry at the next position of the order that is in use
  have hstep : ∀ {v : Tracks}, m.browser = s.browser → v.shuffleList = m.shuffleList →
      v.shuffleIndex = m.shuffleIndex → v.browserMusic = u.browserMusic →
      ∃ n, (v.shuffleList[v.shuffleIndex.toNat]?.bind fun k =>
          if k < v.browserMusic.length then
            some (k, { v with shuffleIndex := v.shuffleIndex + 1 })
          else none) = some (n, { v with shuffleIndex := v.shuffleIndex + 1 }) ∧ l[n]? = some p ∧
        Seen t l { v with shuffleIndex := v.shuffleIndex + 1 } := by
    intro v hbrowser hlist hindex hmusic
    obtain ⟨k, hk, hentry⟩ := Option.bind_eq_some_iff.mp hentry
    obtain ⟨n, hn, hwalk⟩ := Option.bind_eq_some_iff.mp hentry
    obtain ⟨q, hq, heq⟩ := Option.map_eq_some_iff.mp hwalk
    obtain ⟨rfl, rfl⟩ := Prod.mk.inj heq
    rw [hbrowser, walk_spec n h.chain.forward] at hq
    split_ifs at hq with hle
    have hp : l[n]? = some p := Option.some.inj hq
    have hlt := (List.getElem?_eq_some_iff.mp hp).1
    have hnat : v.shuffleIndex.toNat = k := by
      rw [hindex, Int.mem_toNat?.mp hk, Int.toNat_natCast]
    rw [← hlen, ← hmusic] at hlt
    refine ⟨n, ?_, hp, ?_, hlist, congrArg (· + 1) hindex⟩
    · rw [hnat, hlist, hn, Option.bind_some, if_pos hlt]
    · show l.map (fun p => (m.browser.entry p).file) = _
      rw [hbrowser, hmusic]
      exact hseen.paths
  unfold Tracks.nextShuffle
  by_cases hre : s.Reshuffles
  · obtain ⟨r, hr, rfl⟩ : ∃ r, swapLoop s.browser.numEntries (s.browser.numEntries - 1)
        (List.range s.browser.numEntries) ((List.range (s.browser.numEntries - 1)).map rand) =
          some r ∧ m = { s with shuffleList := r.1, shuffleIndex := 0 } := by
      rw [if_pos hre, Music.populate, if_pos rfl] at hm
      obtain ⟨r, hr, heq⟩ := Option.map_eq_some_iff.mp hm
      exact ⟨r, hr, heq.symm⟩
    have hdrawn := swapLoop_append rest (by simp) hr
    obtain ⟨n, hn, hp, hseen'⟩ := hstep (v := { u with
      shuffleList := r.1, shuffleIndex := 0, draws := rest }) rfl rfl rfl rfl
    rw [if_pos hre, show l.length = s.browser.numEntries from h.numEntries_eq.symm] at hdraws
    rw [if_pos (by rwa [hseen.index, ← hnum]), ← hnum, hdraws, hdrawn, Option.bind_some]
    exact ⟨n, _, hn, hp, hseen', rfl⟩
  · rw [if_neg hre] at hm hdraws
    cases hm
    obtain ⟨n, hn, hp, hseen'⟩ := hstep rfl hseen.list hseen.index rfl
    rw [if_neg (by rwa [hseen.index, ← hnum])]
    exact ⟨n, _, hn, hp, hseen', hdraws⟩

/-! ## The calls -/

/-- While the order is not drawn again, the calls go along it. -/
theorem nexts_walk (calls : List (Bool × (ℕ → Draw))) (h : Listed s.browser l)
    (hk : s.shuffleIndex = k) (hlist : ∀ n ∈ s.shuffleList, n ≤ l.length)
    (hroom : k + calls.length ≤ s.shuffleList.length)
    (hcount : k + calls.length ≤ s.browser.numEntries) :
    s.nexts calls = some (((s.shuffleList.drop k).take calls.length).map (l[·]?),
      { s with shuffleIndex := k + calls.length }) := by
  induction calls generalizing s k with
  | nil =>
      obtain ⟨browser, list, index⟩ := s
      cases hk
      rw [Music.nexts, List.length_nil, List.take_zero, Nat.cast_zero, add_zero]
      rfl
  | cons c calls ih =>
      rw [List.length_cons] at hroom hcount
      have hlt : k < s.shuffleList.length := by omega
      have hstay : ¬ s.Reshuffles := by
        rw [Music.Reshuffles, hk]
        omega
      have hle := hlist _ (List.getElem_mem hlt)
      rw [Music.nexts, Music.musicPlaylistGetNextShuffle, if_neg hstay, Option.bind_some, nextEntry_eq h hk,
        List.getElem?_eq_getElem hlt, Option.bind_some, if_pos hle, Option.bind_some]
      have hrest := ih (s := { s with shuffleIndex := k + 1 }) (k := k + 1) h (Nat.cast_succ k).symm
        hlist (by rw [Nat.succ_add]; exact hroom) (by rw [Nat.succ_add]; exact hcount)
      simp only [hrest, Option.map_some, List.drop_eq_getElem_cons hlt, List.length_cons,
        List.take_succ_cons, List.map_cons, Nat.cast_add, Nat.cast_one, add_assoc,
        add_comm (1 : ℤ)]

/-- The first call draws the order, and the calls go along it. -/
theorem nexts_reshuffle {calls : List (Bool × (ℕ → Draw))} (hre : s.Reshuffles)
    (hcalls : calls ≠ []) (halloc : ∀ c ∈ calls.head?, c.1 = true)
    (hpos : s.browser.numEntries ≠ 0) :
    ∃ order : List ℕ, order.Perm (List.range s.browser.numEntries) ∧
      s.nexts calls = { s with shuffleList := order, shuffleIndex := 0 : Music }.nexts calls := by
  obtain ⟨⟨alloc, rand⟩, calls, rfl⟩ := List.exists_cons_of_ne_nil hcalls
  obtain rfl : alloc = true := halloc _ rfl
  obtain ⟨order, hperm, hpop⟩ := populate_spec s rand
  have hstay : ¬ { s with shuffleList := order, shuffleIndex := 0 : Music }.Reshuffles := by
    rw [Music.Reshuffles]
    simp only
    omega
  refine ⟨order, hperm, ?_⟩
  rw [Music.nexts, Music.nexts, Music.musicPlaylistGetNextShuffle, Music.musicPlaylistGetNextShuffle, if_pos hre,
    if_neg hstay, hpop, Option.bind_some]

/-- The calls are made one after the other. -/
theorem nexts_append (as bs : List (Bool × (ℕ → Draw))) (s : Music) :
    s.nexts (as ++ bs) = (s.nexts as).bind fun r =>
      (r.2.nexts bs).map fun q => (r.1 ++ q.1, q.2) := by
  induction as generalizing s with
  | nil => simp [Music.nexts]
  | cons c as ih =>
      rw [List.cons_append, Music.nexts, Music.nexts, Option.bind_assoc]
      refine Option.bind_congr fun r _ => ?_
      rw [ih, Option.map_bind, Option.bind_map]
      refine Option.bind_congr fun q _ => ?_
      simp only [Function.comp, Option.map_map, List.cons_append]
      rfl

/-- `n` calls, with memory. -/
def served (n : ℕ) : List (Bool × (ℕ → Draw)) := List.replicate n (true, fun _ => 0)

/-- As many calls are served as are made. -/
theorem length_served (n : ℕ) : (served n).length = n := List.length_replicate

/-- There is memory in each of these calls. -/
theorem of_mem_served {n : ℕ} {c : Bool × (ℕ → Draw)} (hc : c ∈ served n) : c.1 = true := by
  rw [List.eq_of_mem_replicate hc]

/-- With an entry too many counted, an order has a position that the playlist has not. -/
theorem nexts_counted (h : Listed s.browser l) (hre : s.Reshuffles)
    (hcount : s.browser.numEntries = l.length + 1) {visited : List (Option Ptr)}
    (hnexts : s.nexts (served s.browser.numEntries) = some (visited, t)) : none ∈ visited := by
  have hne : s.browser.numEntries ≠ 0 := by omega
  have hnil : served s.browser.numEntries ≠ [] := fun hnil => by
    have hlen := length_served s.browser.numEntries
    rw [hnil] at hlen
    exact hne hlen.symm
  obtain ⟨order, hperm, heq⟩ := nexts_reshuffle hre hnil
    (fun c hc => of_mem_served (List.mem_of_mem_head? hc)) hne
  have horder := hperm.length_eq.trans List.length_range
  have hwalk := nexts_walk (s := { s with shuffleList := order, shuffleIndex := 0 }) (k := 0)
    (served s.browser.numEntries) h rfl (fun n hn => by
      have hlt := List.mem_range.mp (hperm.mem_iff.mp hn)
      omega)
    (by simp only [length_served]; omega) (by simp only [length_served]; omega)
  obtain ⟨rfl, -⟩ := Prod.mk.inj (Option.some.inj (hnexts.symm.trans (heq.trans hwalk)))
  rw [List.drop_zero, length_served, ← horder, List.take_length]
  refine List.mem_map.mpr ⟨l.length, hperm.mem_iff.mpr (List.mem_range.mpr ?_), ?_⟩
  · rw [hcount]
    exact l.length.lt_succ_self
  · exact List.getElem?_eq_none le_rfl

/-- Where the order is shorter than the playlist, the calls leave it. -/
theorem nexts_outside (h : Listed s.browser l) (hk : s.shuffleIndex = k)
    (hkle : k ≤ s.shuffleList.length) (hlist : ∀ n ∈ s.shuffleList, n ≤ l.length)
    (hshort : s.shuffleList.length < s.browser.numEntries) :
    s.nexts (served (s.shuffleList.length - k) ++ served 1) = none := by
  have hwalk := nexts_walk (served (s.shuffleList.length - k)) h hk hlist
    (by rw [length_served]; omega) (by rw [length_served]; omega)
  have hend : (k : ℤ) + ((s.shuffleList.length - k : ℕ) : ℤ) = (s.shuffleList.length : ℕ) := by
    omega
  rw [nexts_append, hwalk, Option.bind_some, length_served, hend]
  have hstay : ¬ { s with shuffleIndex := (s.shuffleList.length : ℕ) : Music }.Reshuffles := by
    rw [Music.Reshuffles]
    simp only
    omega
  rw [served, List.replicate_one, Music.nexts, Music.musicPlaylistGetNextShuffle, if_neg hstay,
    Option.bind_some, nextEntry_eq (s := { s with shuffleIndex := (s.shuffleList.length : ℕ) })
      (k := s.shuffleList.length) h rfl]
  simp only [List.getElem?_eq_none le_rfl, Option.bind_none, Option.map_none]

/-! ## The runs -/

/-- A call, with what it is given. -/
inductive Call
  | enqueue (menu : Menu) (hideExtensions : Bool) (path : Option Text)
      (list : Option (List (Item × Supply))) (a : Supply)
  | dequeue (menu : Menu) (dir : Text) (type : EntryType) (file : Text) (list : Option (List Item))
  | next (alloc : Bool) (rand : ℕ → Draw)

/-- The effect of a call. -/
def Music.step (s : Music) : Call → Option Music
  | .enqueue menu hide path list a => (enqueueFile menu hide path list a s).map Prod.snd
  | .dequeue menu dir type file list => musicPlaylistDequeue menu dir type file list s
  | .next alloc rand => (s.musicPlaylistGetNextShuffle alloc rand).map Prod.snd

/-- The playlist from `BrowserInit` on. -/
def musicSystem : System Music Call where
  init s := ∃ links entry, s = ⟨init links entry, [], -1⟩
  step := Music.step

/-- No entry is added and taken back; a call that is refused memory for another entry has not added
one, unless the order is going to be drawn anyway; the path of what is taken out fits into its array;
and there is memory for an order. -/
def Sound (s : Music) : Call → Prop
  | .enqueue menu _ path list a =>
      let w := asked menu path list a s.browser
      lost w = 0 ∧ (w.all Supply.serves = true ∨ s.shuffleIndex = -1 ∨ added w = 0)
  | .dequeue _ dir _ file _ => (getFullPath dir file).length < maxPathLen
  | .next alloc _ => s.browser.first ≠ none ∧ (s.Reshuffles → alloc = true)

/-- Whether a call is sound is decided by the state. -/
instance (s : Music) : DecidablePred (Sound s) := fun c => by
  unfold Sound
  split <;> infer_instance

/-- The songs are counted, and an order that is in use is one of their positions. -/
structure Shuffled (s : Music) (l : List Ptr) : Prop where
  songs : Songs s.browser l 0
  order : s.shuffleIndex = -1 ∨ ∃ k : ℕ, s.shuffleIndex = k ∧ k ≤ l.length ∧
    s.shuffleList.Perm (List.range l.length)

namespace Shuffled

/-- The count of the entries is the length of the list. -/
theorem numEntries_eq (h : Shuffled s l) : s.browser.numEntries = l.length := h.songs.numEntries_eq

/-- Where the order is drawn again, a call goes along the new order, and otherwise along the old
one. -/
theorem musicPlaylistGetNextShuffle_spec {alloc : Bool} (h : Shuffled s l)
    (hok : Sound s (.next alloc rand)) :
    ∃ p t, s.musicPlaylistGetNextShuffle alloc rand = some (some p, t) ∧ p ∈ l ∧ Shuffled t l := by
  obtain ⟨hfirst, halloc⟩ := hok
  have hpos : 0 < l.length := by
    rw [h.songs.chain.first_eq] at hfirst
    exact List.length_pos_of_ne_nil fun hnil => hfirst (hnil ▸ rfl)
  -- one call within the order
  have hcall : ∀ {m : Music} {k : ℕ}, m.browser = s.browser → m.shuffleIndex = k → k < l.length →
      m.shuffleList.Perm (List.range l.length) →
      ∃ p t, m.nextEntry = some (some p, t) ∧ p ∈ l ∧ Shuffled t l := by
    intro m k hm hk hlt hperm
    have hlist : Listed m.browser l := hm ▸ h.songs.toListed
    have hklen : k < m.shuffleList.length := by
      rw [hperm.length_eq, List.length_range]
      exact hlt
    have hn : m.shuffleList[k] < l.length :=
      List.mem_range.mp (hperm.mem_iff.mp (List.getElem_mem hklen))
    refine ⟨l[m.shuffleList[k]], { m with shuffleIndex := k + 1 }, ?_, List.getElem_mem hn, ?_⟩
    · rw [nextEntry_eq hlist hk, List.getElem?_eq_getElem hklen, Option.bind_some,
        if_pos hn.le, List.getElem?_eq_getElem hn]
    · exact ⟨hm ▸ h.songs, .inr ⟨k + 1, (Nat.cast_succ k).symm, hlt, hperm⟩⟩
  rw [Music.musicPlaylistGetNextShuffle]
  by_cases hre : s.Reshuffles
  · obtain rfl := halloc hre
    obtain ⟨order, hperm, hpop⟩ := populate_spec s rand
    rw [h.numEntries_eq] at hperm
    rw [if_pos hre, hpop, Option.bind_some]
    exact hcall (k := 0) rfl rfl hpos hperm
  · rw [if_neg hre, Option.bind_some]
    rw [Music.Reshuffles, not_or, not_le, h.numEntries_eq] at hre
    obtain ⟨k, hk, -, hperm⟩ := h.order.resolve_left hre.1
    exact hcall rfl hk (by omega) hperm

/-- A sound step keeps the order fitting. -/
theorem step {c : Call} (h : Shuffled s l) (hok : Sound s c) (hstep : s.step c = some t) :
    ∃ l, Shuffled t l := by
  cases c with
  | enqueue menu hide path list a =>
      obtain ⟨⟨v, u⟩, hrun, rfl⟩ := Option.map_eq_some_iff.mp hstep
      obtain ⟨⟨new, hsongs, hlen⟩, hlist, hret⟩ := enqueueFile_spec h.songs hrun
      obtain ⟨hlost, hserved⟩ := hok
      rw [hlost] at hsongs
      rcases hret with ⟨-, -, rfl⟩ | ⟨-, -, hindex⟩ | ⟨-, hall, hindex⟩
      · exact ⟨l, h⟩
      · exact ⟨_, hsongs, .inl hindex⟩
      · rcases hserved with hserved | hreset | hnone
        · exact absurd (hserved.symm.trans hall) nofun
        · exact ⟨_, hsongs, .inl (hindex.trans hreset)⟩
        · -- nothing has been added
          obtain rfl := List.eq_nil_of_length_eq_zero (hlen.trans hnone)
          rw [List.append_nil] at hsongs
          exact ⟨l, hsongs, by rw [hindex, hlist]; exact h.order⟩
  | dequeue menu dir type file list =>
      obtain ⟨u, l', hrun, hremoved, -⟩ := musicPlaylistDequeue_spec menu type list h.songs hok
      obtain rfl := Option.some.inj (hrun.symm.trans hstep)
      rcases hremoved.shuffle with rfl | hindex
      · exact ⟨l, h⟩
      · exact ⟨l', hremoved.songs, .inl hindex⟩
  | next alloc rand =>
      obtain ⟨p, u, hnext, -, hu⟩ := h.musicPlaylistGetNextShuffle_spec hok
      obtain ⟨r, hr, rfl⟩ := Option.map_eq_some_iff.mp hstep
      obtain rfl := Option.some.inj (hnext.symm.trans hr)
      exact ⟨l, hu⟩

/-- From a draw on, as many calls as there are songs return each of them. -/
theorem nexts_perm {calls : List (Bool × (ℕ → Draw))} (h : Shuffled s l) (hre : s.Reshuffles)
    (hlen : calls.length = l.length) (halloc : ∀ c ∈ calls.head?, c.1 = true) :
    ∃ visited t, s.nexts calls = some (visited, t) ∧ visited.Perm (l.map some) := by
  by_cases hnil : calls = []
  · subst hnil
    obtain rfl := List.eq_nil_of_length_eq_zero hlen.symm
    exact ⟨[], s, rfl, .nil⟩
  have hpos : s.browser.numEntries ≠ 0 := by
    rw [h.numEntries_eq, ← hlen]
    exact fun hzero => hnil (List.eq_nil_of_length_eq_zero hzero)
  obtain ⟨order, hperm, heq⟩ := nexts_reshuffle hre hnil halloc hpos
  have hcount := h.numEntries_eq
  rw [hcount] at hperm
  have horder : order.length = l.length := hperm.length_eq.trans List.length_range
  have hwalk := nexts_walk (s := { s with shuffleList := order, shuffleIndex := 0 }) (k := 0)
    calls h.songs.toListed rfl
    (fun n hn => (List.mem_range.mp (hperm.mem_iff.mp hn)).le) (by simp only; omega)
    (by simp only; omega)
  refine ⟨_, _, heq.trans hwalk, ?_⟩
  rw [List.drop_zero, hlen, ← horder, List.take_length]
  refine (hperm.map _).trans (.of_eq ?_)
  refine List.ext_getElem (by simp) fun i hi _ => ?_
  rw [List.length_map, List.length_range] at hi
  simp [hi]

/-- Behind a call of `EnqueueFile` that is not sound, further calls return no entry, or read outside
of the order. -/
theorem strays {menu : Menu} {hide : Bool} {path : Option Text}
    {list : Option (List (Item × Supply))} {a : Supply} {v : ℤ} (h : Shuffled s l)
    (hrun : enqueueFile menu hide path list a s = some (v, t))
    (hbad : ¬ Sound s (.enqueue menu hide path list a)) :
    ∃ calls : List (Bool × (ℕ → Draw)), (∀ c ∈ calls, c.1 = true) ∧
      ∀ visited u, t.nexts calls = some (visited, u) → none ∈ visited := by
  obtain ⟨⟨new, hsongs, hlen⟩, hlist, hret⟩ := enqueueFile_spec h.songs hrun
  generalize hw : asked menu path list a s.browser = w at *
  have hbad : ¬ (lost w = 0 ∧ (w.all Supply.serves = true ∨ s.shuffleIndex = -1 ∨ added w = 0)) :=
    hw ▸ hbad
  have hle := lost_le_one w
  -- With memory for everything the call would be sound.
  have hall : w.all Supply.serves = false := by
    by_contra hne
    have hserved := eq_true_of_ne_false hne
    exact hbad ⟨lost_eq_zero_of_all hserved, .inl hserved⟩
  have hindex : t.shuffleIndex = s.shuffleIndex := by
    rcases hret with ⟨-, rfl, -⟩ | ⟨-, hserved, -⟩ | ⟨-, -, hindex⟩
    · cases hall
    · exact absurd (hserved.symm.trans hall) nofun
    · exact hindex
  have hcount := hsongs.numEntries_eq
  rw [Nat.zero_add] at hcount
  rcases h.order with hreset | ⟨k, hk, hkle, hperm⟩
  -- no order yet: the next one is drawn with the entry that lost its links
  · have hlost : lost w = 1 := by
      by_contra hne
      exact hbad ⟨by omega, .inr (.inl hreset)⟩
    rw [hlost] at hcount
    exact ⟨_, fun c => of_mem_served,
      fun visited u => nexts_counted hsongs.toListed (.inl (hindex.trans hreset)) hcount⟩
  -- an order of before: it covers the old songs only, and the index runs out of it
  · rw [List.length_append] at hcount
    have hlonger : l.length < t.browser.numEntries := by
      by_contra hlt
      exact hbad ⟨by omega, .inr (.inr (by omega))⟩
    rw [← hlist] at hperm
    have horder := hperm.length_eq.trans List.length_range
    have hnone := nexts_outside hsongs.toListed (hindex.trans hk) (by omega) (fun n hn => by
      have hlt := List.mem_range.mp (hperm.mem_iff.mp hn)
      rw [List.length_append]
      omega) (by omega)
    refine ⟨_, fun c hc => ?_, fun visited u hnexts => absurd (hnone.symm.trans hnexts) nofun⟩
    exact (List.mem_append.mp hc).elim of_mem_served of_mem_served

end Shuffled

/-- The invariant holds in every state of a run. -/
theorem shuffled_of_reachable (hs : musicSystem.Reachable Sound s) : ∃ l, Shuffled s l := by
  refine hs.invariant (I := fun s => ∃ l, Shuffled s l) ?_ ?_
  · rintro s ⟨links, entry, rfl⟩
    exact ⟨[], ⟨⟨listed_init links entry, nofun, rfl⟩, .inl rfl⟩⟩
  · rintro s c t - ⟨l, h⟩ hok hstep
    exact h.step hok hstep

/-- After sound steps the next one returns an entry of the playlist, and from a draw on each song is
returned once; behind `EnqueueFile` that is not sound this fails, and `MusicPlaylistDequeue` that is
not sound does not return. -/
theorem musicShuffle_visits (hs : musicSystem.Reachable Sound s) :
    ∃ l, Shuffled s l ∧
      (∀ alloc rand, Sound s (.next alloc rand) →
        ∃ p t, s.musicPlaylistGetNextShuffle alloc rand = some (some p, t) ∧ p ∈ l) ∧
      (∀ calls, s.Reshuffles → calls.length = l.length → (∀ c ∈ calls.head?, c.1 = true) →
        ∃ visited t, s.nexts calls = some (visited, t) ∧ visited.Perm (l.map some)) ∧
      (∀ menu hide path list a v t, enqueueFile menu hide path list a s = some (v, t) →
        ¬ Sound s (.enqueue menu hide path list a) →
        ∃ calls, (∀ c ∈ calls, c.1 = true) ∧
          ∀ visited u, t.nexts calls = some (visited, u) → none ∈ visited) ∧
      ∀ menu dir type file list, Sound s (.dequeue menu dir type file list) ↔
        (musicPlaylistDequeue menu dir type file list s).isSome = true := by
  obtain ⟨l, h⟩ := shuffled_of_reachable hs
  refine ⟨l, h, fun alloc rand hok => ?_, fun calls hre hlen halloc => ?_,
    fun menu hide path list a v t hrun hbad => h.strays hrun hbad,
    fun menu dir type file list => h.songs.dequeue_isSome menu type list⟩
  · obtain ⟨p, t, hnext, hp, -⟩ := h.musicPlaylistGetNextShuffle_spec hok
    exact ⟨p, t, hnext, hp⟩
  · exact h.nexts_perm hre hlen halloc

/-- The playlist with nothing in it. -/
def silence : Music := ⟨blank, [], -1⟩

/-- A song is put in, where `a` is what the allocator answers. -/
def enqueueSong (name : String) (a : Supply) : Call :=
  .enqueue .music false (some (ascii name)) none a

/-- The songs of a playlist file are put in. -/
def enqueueList (names : List (String × Supply)) : Call :=
  .enqueue .music false (some (ascii "sd1:/l.m3u"))
    (some (names.map fun e => (⟨some (ascii e.1), []⟩, e.2))) ⟨none, true, true⟩

/-- Two songs are put in, one of them is played, and the other one is taken out. -/
def sampleCalls : List Call :=
  [enqueueSong "sd1:/a.mp3" ⟨some 1, true, true⟩,
    enqueueList [("sd1:/a.mp3", ⟨some 2, true, true⟩), ("sd1:/b.ogg", ⟨some 3, true, true⟩)],
    .next true fun _ => 0,
    .dequeue .music (ascii "sd1:/") .file (ascii "a.mp3") none]

theorem musicShuffle_visits_sample : ∃ s, musicSystem.exec silence sampleCalls = some s ∧
    ∃ l, Shuffled s l ∧
      (∀ alloc rand, Sound s (.next alloc rand) →
        ∃ p t, s.musicPlaylistGetNextShuffle alloc rand = some (some p, t) ∧ p ∈ l) ∧
      (∀ calls, s.Reshuffles → calls.length = l.length → (∀ c ∈ calls.head?, c.1 = true) →
        ∃ visited t, s.nexts calls = some (visited, t) ∧ visited.Perm (l.map some)) ∧
      (∀ menu hide path list a v t, enqueueFile menu hide path list a s = some (v, t) →
        ¬ Sound s (.enqueue menu hide path list a) →
        ∃ calls, (∀ c ∈ calls, c.1 = true) ∧
          ∀ visited u, t.nexts calls = some (visited, u) → none ∈ visited) ∧
      ∀ menu dir type file list, Sound s (.dequeue menu dir type file list) ↔
        (musicPlaylistDequeue menu dir type file list s).isSome = true := by
  have hok : musicSystem.OkAlong Sound silence sampleCalls := by decide +kernel
  obtain ⟨s, hexec⟩ := Option.isSome_iff_exists.mp
    (show (musicSystem.exec silence sampleCalls).isSome by decide +kernel)
  have hsilence : musicSystem.Reachable Sound silence := .init ⟨_, _, rfl⟩
  exact ⟨s, hexec, musicShuffle_visits (hsilence.exec hok hexec)⟩

/-- One song is in the playlist and has been played. Of a playlist file one more song is added, and
there is no memory for the next one: the order has one position, and the next call reads another. -/
def shortCalls : List Call :=
  [enqueueSong "sd1:/a.mp3" ⟨some 1, true, true⟩, .next true fun _ => 0,
    enqueueList [("sd1:/b.mp3", ⟨some 2, true, true⟩), ("sd1:/c.mp3", ⟨none, true, true⟩)]]

/-- A path that cannot be copied leaves two entries counted where there is one. -/
def countedCalls : List Call :=
  [enqueueSong "sd1:/a.mp3" ⟨some 1, true, true⟩, enqueueSong "sd1:/b.mp3" ⟨some 2, false, true⟩]

theorem musicShuffle_strays :
    (∃ s, musicSystem.exec silence shortCalls = some s ∧ s.browser.first = some 1 ∧
      s.musicPlaylistGetNextShuffle true (fun _ => 0) = none) ∧
    ∃ s, musicSystem.exec silence countedCalls = some s ∧ s.browser.first = some 1 ∧
      (s.nexts [(true, fun _ => 0), (true, fun _ => 0)]).map Prod.fst = some [some 1, none] := by
  refine ⟨?_, ?_⟩
  · have hrun : ((musicSystem.exec silence shortCalls).map fun s =>
        (s.browser.first, s.musicPlaylistGetNextShuffle true (fun _ => 0) |>.isNone)) = some (some 1, true) := by
      decide +kernel
    obtain ⟨s, hexec, hs⟩ := Option.map_eq_some_iff.mp hrun
    exact ⟨s, hexec, congrArg Prod.fst hs, Option.isNone_iff_eq_none.mp (congrArg Prod.snd hs)⟩
  · have hrun : ((musicSystem.exec silence countedCalls).map fun s =>
        (s.browser.first, (s.nexts [(true, fun _ => 0), (true, fun _ => 0)]).map Prod.fst)) =
        some (some 1, some [some 1, none]) := by
      decide +kernel
    obtain ⟨s, hexec, hs⟩ := Option.map_eq_some_iff.mp hrun
    exact ⟨s, hexec, congrArg Prod.fst hs, congrArg Prod.snd hs⟩

end WiiMC.Browser
