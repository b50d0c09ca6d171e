import WiiMC.Browser.Directory
import WiiMC.Browser.Paths

/-!
# The user's playlist

`musicplaylist.cpp`: songs are put into the playlist and taken out of it. `EnqueueFile` resets the
shuffle where it ends, and an entry that `DeleteEntry` takes back stays counted. What MPlayer makes
of a playlist file is a list of items.

* `enqueueFile`, `musicPlaylistDequeue`: the functions.
* `enqueueFile_spec`: the list behind `EnqueueFile`, by what it asks of the allocator.
* `musicPlaylistDequeue_spec`: the list behind `MusicPlaylistDequeue`, by the paths it takes out.
-/

namespace WiiMC.Browser

open Bytes Linked Player

/-- `browserMusic`, with the variables of the shuffle. -/
structure Music where
  browser : Browser
  shuffleList : List ℕ
  shuffleIndex : ℤ

/-- An item of a playlist file: the first of its files, and its parameters. -/
structure Item where
  file : Option Text
  params : List (Text × Option Text)
  deriving DecidableEq

/-- What the allocator answers where a song is put into the playlist: the address of the entry, and
whether its path and the text shown can be copied. -/
structure Supply where
  new : Option Ptr
  file : Bool
  display : Bool
  deriving DecidableEq

/-- There is memory for the song. -/
def Supply.serves (a : Supply) : Bool := a.new.isSome && a.file && a.display

/-! ## Finding a song -/

/-- A loop over the entries that stops at the first one that passes the test; the test is `none`
where it follows a null pointer. -/
def findLoop (test : Entry → Option Bool) (s : Browser) : ℕ → Option Ptr → Option (Option Ptr)
  | _, none => some none
  | 0, some _ => none
  | n + 1, some i =>
      (test (s.entry i)).bind fun found =>
        if found then some (some i) else findLoop test s n (s.links.next i)

/-- `MusicPlaylistFindIndex`. -/
def musicPlaylistFindIndex (fullpath : Text) (s : Browser) : Option (Option Ptr) :=
  findLoop (fun e => some (decide (e.file = some fullpath))) s s.live.length s.first

/-! ## Putting songs in -/

/-- `StripExt`. -/
def stripExt (string : Text) : Text :=
  if string.length < 4 then string
  else match afterLast? 46 string with
  | none => string
  | some ext => string.take (string.length - (ext.length + 1))

/-- What is shown of a path: the part behind the last slash, unless that is its end. -/
def shownName (hideExtensions : Bool) (path : Text) : Text :=
  let display := match afterLast? 47 path with
    | none | some [] => path
    | some start => start
  if hideExtensions then stripExt display else display

/-- `PLAY_TREE_PARAM_PRETTYFORMAT_TITLE`. -/
def prettyFormatTitle : Text := ascii "pt_prettyformat_title"

/-- The text that is shown of an item. -/
def Item.display (hideExtensions : Bool) (i : Item) : Text :=
  match (i.params.find? fun p => eqNoCase p.1 prettyFormatTitle).bind Prod.snd with
  | some title => title
  | none => shownName hideExtensions (i.file.getD [])

/-- The path of an item that is not passed over. -/
def Item.path? (menu : Menu) (i : Item) : Option Text :=
  i.file.bind fun file =>
    if maxPathLen ≤ file.length then none
    else if findDevice file = false then none
    else if isAllowedExt menu (getExt file) = false then none
    else if cleanupPath file = [] then none
    else some (cleanupPath file)

/-- A song is put into the playlist; `false` means that there is no memory. -/
def addSong (file display : Text) (a : Supply) (s : Browser) : Option (Bool × Browser) :=
  (s.addEntry a.new).bind fun
    | (none, s) => some (false, s)
    | (some p, s) =>
        if a.file = false then (s.deleteEntry (some p)).map fun r => (false, r.2)
        else if a.display = false then
          ((s.fill p .file (some file) none).bind fun s => s.deleteEntry (some p)).map
            fun r => (false, r.2)
        else (s.fill p .file (some file) (some display)).map fun s => (true, s)

/-- The loop of `EnqueueFile` over the items of a playlist file. -/
def enqueueLoop (menu : Menu) (hideExtensions : Bool) :
    List (Item × Supply) → Browser → Option (Bool × Browser)
  | [], s => some (true, s)
  | (i, a) :: items, s =>
      match i.path? menu with
      | none => enqueueLoop menu hideExtensions items s
      | some file =>
          (musicPlaylistFindIndex file s).bind fun
            | some _ => enqueueLoop menu hideExtensions items s
            | none =>
                (addSong file (i.display hideExtensions) a s).bind fun
                  | (true, s) => enqueueLoop menu hideExtensions items s
                  | (false, s) => some (false, s)

/-- The end of `EnqueueFile`: the shuffle is reset, unless there was no memory. -/
def Music.enqueued (s : Music) (r : Bool × Browser) : ℤ × Music :=
  if r.1 then (1, { s with browser := r.2, shuffleIndex := -1 }) else (-1, { s with browser := r.2 })

/-- `EnqueueFile`, where MPlayer makes `list` of a playlist file. -/
def enqueueFile (menu : Menu) (hideExtensions : Bool) (path : Option Text)
    (list : Option (List (Item × Supply))) (a : Supply) (s : Music) : Option (ℤ × Music) :=
  match path with
  | none => some (0, s)
  | some path =>
      (musicPlaylistFindIndex path s.browser).bind fun
        | some _ => some (0, s)
        | none =>
            let ext := getExt path
            if (isAudioExt ext = false ∧ isPlaylistExt ext = false) ∨ ext = ascii "plx" then
              some (0, s)
            else if isPlaylistExt ext then
              match list with
              | none => some (0, s)
              | some items => (enqueueLoop menu hideExtensions items s.browser).map s.enqueued
            else (addSong path (shownName hideExtensions path) a s.browser).map s.enqueued

/-! ## Taking songs out -/

/-- `Remove`. -/
def Music.remove (i : Option Ptr) (s : Music) : Option Music :=
  match i with
  | none => some s
  | some i => (s.browser.remove (some i)).map fun b => { s with browser := b, shuffleIndex := -1 }

/-- The loop of `MusicPlaylistDequeue` over the items of a playlist file. -/
def dequeueItems (menu : Menu) : List Item → Music → Option Music
  | [], s => some s
  | i :: items, s =>
      match i.path? menu with
      | none => dequeueItems menu items s
      | some file =>
          (findLoop (fun e => e.file.map fun f => decide (f = file)) s.browser
            s.browser.live.length s.browser.first).bind fun found =>
              (s.remove found).bind (dequeueItems menu items)

/-- The loop of `MusicPlaylistDequeue` over the playlist. -/
def dequeueLoop (fullpath : Text) : ℕ → Option Ptr → Music → Option Music
  | _, none, s => some s
  | 0, some _, _ => none
  | n + 1, some i, s =>
      if (s.browser.entry i).file.any fullpath.isPrefixOf then
        (s.remove (some i)).bind (dequeueLoop fullpath n (s.browser.links.next i))
      else dequeueLoop fullpath n (s.browser.links.next i) s

/-- `MusicPlaylistDequeue`, where MPlayer makes `list` of a playlist file; `none` also where the full
path is written past the end of `fullpath`. -/
def musicPlaylistDequeue (menu : Menu) (dir : Text) (type : EntryType) (file : Text)
    (list : Option (List Item)) (s : Music) : Option Music :=
  (fullPathIn maxPathLen dir file).bind fun fullpath =>
    if type = .playlist then
      match list with
      | none => some s
      | some items => dequeueItems menu items s
    else dequeueLoop fullpath s.browser.live.length s.browser.first s

/-! ## The songs -/

/-- The list of the browser is `l`; every entry has a path, and `extra` entries too many are
counted. -/
structure Songs (s : Browser) (l : List Ptr) (extra : ℕ) : Prop extends Listed s l where
  named : ∀ p ∈ l, (s.entry p).file ≠ none
  numEntries_eq : s.numEntries = l.length + extra

variable {s t : Browser} {l : List Ptr} {k : ℕ} {p : Ptr} {file display : Text} {a : Supply}
  {menu : Menu} {hide : Bool} {r : Bool}

/-- The loop finds the first entry that passes the test. -/
theorem findLoop_spec (test : Entry → Option Bool) {q : Option Ptr} {n : ℕ}
    (hseg : Seg s.links.next q l none) (hn : l.length ≤ n)
    (htest : ∀ p ∈ l, test (s.entry p) ≠ none) :
    findLoop test s n q = some (l.find? fun p => (test (s.entry p)).getD false) := by
  induction l generalizing q n with
  | nil =>
      cases hseg
      cases n <;> rfl
  | cons x l ih =>
      obtain ⟨rfl, hseg⟩ := hseg
      obtain ⟨n, rfl⟩ := Nat.exists_eq_succ_of_ne_zero (Nat.ne_of_gt (Nat.lt_of_lt_of_le
        (Nat.succ_pos l.length) hn))
      obtain ⟨found, hfound⟩ := Option.ne_none_iff_exists'.mp (htest x List.mem_cons_self)
      rw [findLoop, hfound, Option.bind_some, List.find?_cons, hfound, Option.getD_some]
      cases found with
      | true => rfl
      | false =>
          exact ih hseg (Nat.le_of_succ_le_succ hn) fun p hp => htest p (List.mem_cons_of_mem x hp)

/-- `MusicPlaylistFindIndex` finds the first entry with the path. -/
theorem musicPlaylistFindIndex_eq (h : Listed s l) (path : Text) :
    musicPlaylistFindIndex path s = some (l.find? fun p => decide ((s.entry p).file = some path)) :=
  findLoop_spec _ h.chain.forward h.length_live.ge fun _ _ => nofun

/-- The paths in the playlist, in any order. -/
def names (s : Browser) : List Text := s.live.filterMap fun p => (s.entry p).file

/-- A name in the list is the name of one of its entries. -/
theorem mem_names_iff (h : Listed s l) : file ∈ names s ↔ ∃ p ∈ l, (s.entry p).file = some file := by
  rw [names, List.mem_filterMap]
  exact exists_congr fun p => and_congr_left' h.mem_live

/-- No entry is found if the file is not in the list. -/
theorem findIndex_eq_none_iff (h : Listed s l) :
    (l.find? fun p => decide ((s.entry p).file = some file)) = none ↔ file ∉ names s := by
  rw [List.find?_eq_none, mem_names_iff h]
  simp

/-- What becomes of the list `l` where a song is put into the playlist; `r` says whether it is. -/
structure Added (s : Browser) (l : List Ptr) (file display : Text) (a : Supply) (r : Bool)
    (t : Browser) : Prop where
  returned : r = a.serves
  numEntries_eq : t.numEntries = s.numEntries + if a.new = none then 0 else 1
  kept : ∀ p ∈ l, t.entry p = s.entry p
  listed : if a.serves then
      ∃ p, p ∉ l ∧ Listed t (l ++ [p]) ∧
        t.entry p = ⟨.file, some file, some display, s.numEntries⟩
    else Listed t l

/-- An entry that cannot be filled in is taken back. -/
theorem listed_takeBack {v : Bool × Browser} (h : Listed s (l ++ [p]))
    (hdelete : (s.deleteEntry (some p)).map (fun r => (false, r.2)) = some v) :
    v.1 = false ∧ Listed v.2 l ∧ v.2.entry = s.entry ∧ v.2.numEntries = s.numEntries := by
  rw [deleteEntry_eq h, if_pos (by simp)] at hdelete
  cases hdelete
  have hlisted := listed_unlinkFound (show Listed s (l ++ p :: []) from h)
  rw [List.append_nil] at hlisted
  exact ⟨rfl, hlisted, rfl, rfl⟩

/-- `addSong` adds the song, or leaves the list. -/
theorem addSong_added (h : Listed s l) (hadd : addSong file display a s = some (r, t)) :
    Added s l file display a r t := by
  obtain ⟨new, afile, adisplay⟩ := a
  obtain ⟨⟨q, s₁⟩, hnew, hrest⟩ := Option.bind_eq_some_iff.mp hadd
  cases new with
  | none =>
      cases hnew
      cases hrest
      exact ⟨rfl, rfl, fun _ _ => rfl, h⟩
  | some p =>
      obtain ⟨hp, rfl, hlisted, hnum, -, hentry⟩ := addEntry_spec h hnew
      -- the new entry changes no other one
      have hkept : ∀ {u : Browser} {x : Entry}, u.entry = Function.update s₁.entry p x →
          ∀ q ∈ l, u.entry q = s.entry q := by
        intro u x hu q hq
        have hqp : q ≠ p := by
          rintro rfl
          exact hp hq
        rw [hu, Function.update_of_ne hqp, hentry, Function.update_of_ne hqp]
      have hmem : p ∈ l ++ [p] := by simp
      cases afile with
      | false =>
          obtain ⟨rfl, ht, hentry', hnum'⟩ := listed_takeBack hlisted hrest
          refine ⟨rfl, hnum'.trans hnum, fun q hq => ?_, ht⟩
          rw [hentry']
          exact hkept (Function.update_eq_self p s₁.entry).symm q hq
      | true =>
          cases adisplay with
          | false =>
              obtain ⟨s₂, hfill, hlisted₂, hentry₂⟩ := fill_spec .file (some file) none
                hlisted hmem
              have hnum₂ : s₂.numEntries = s.numEntries + 1 := by
                obtain ⟨-, ⟨⟩⟩ := Option.ite_none_right_eq_some.mp hfill
                exact hnum
              simp only [Bool.true_eq_false, if_false, if_true, hfill, Option.bind_some] at hrest
              obtain ⟨rfl, ht, hentry', hnum'⟩ := listed_takeBack hlisted₂ hrest
              refine ⟨rfl, hnum'.trans hnum₂, fun q hq => ?_, ht⟩
              rw [hentry']
              exact hkept hentry₂ q hq
          | true =>
              obtain ⟨s₂, hfill, hlisted₂, hentry₂⟩ := fill_spec .file (some file)
                (some display) hlisted hmem
              have hnum₂ : s₂.numEntries = s.numEntries + 1 := by
                obtain ⟨-, ⟨⟩⟩ := Option.ite_none_right_eq_some.mp hfill
                exact hnum
              simp only [Bool.true_eq_false, if_false, hfill, Option.map_some] at hrest
              obtain ⟨rfl, rfl⟩ := Prod.mk.inj (Option.some.inj hrest)
              refine ⟨rfl, hnum₂, hkept hentry₂, p, hp, hlisted₂, ?_⟩
              rw [hentry₂, Function.update_self, hentry, Function.update_self]

/-- A new song stands behind the others. -/
theorem Songs.append (h : Songs s l k) (ht : Listed t (l ++ [p]))
    (hkept : ∀ q ∈ l, t.entry q = s.entry q) (hfile : (t.entry p).file = some file)
    (hcount : t.numEntries = l.length + (k + 1)) :
    Songs t (l ++ [p]) k ∧ ∀ f, f ∈ names t ↔ f ∈ names s ∨ f = file := by
  refine ⟨⟨ht, fun q hq => ?_, ?_⟩, fun f => ?_⟩
  · rcases List.mem_append.mp hq with hq | hq
    · rw [hkept q hq]
      exact h.named q hq
    · rw [List.mem_singleton.mp hq, hfile]
      nofun
  · rw [hcount, List.length_append, List.length_singleton]
    omega
  · rw [mem_names_iff ht, mem_names_iff h.toListed]
    constructor
    · rintro ⟨q, hq, hf⟩
      rcases List.mem_append.mp hq with hq | hq
      · rw [hkept q hq] at hf
        exact .inl ⟨q, hq, hf⟩
      · rw [List.mem_singleton.mp hq, hfile] at hf
        exact .inr (Option.some.inj hf).symm
    · rintro (⟨q, hq, hf⟩ | rfl)
      · rw [← hkept q hq] at hf
        exact ⟨q, List.mem_append_left [p] hq, hf⟩
      · exact ⟨p, by simp, hfile⟩

/-- A song is added where there is memory; an entry that is taken back stays counted. -/
theorem addSong_spec (h : Songs s l k) (hadd : addSong file display a s = some (r, t)) :
    r = a.serves ∧
      if a.serves then ∃ p, Songs t (l ++ [p]) k ∧ ∀ f, f ∈ names t ↔ f ∈ names s ∨ f = file
      else Songs t l (if a.new = none then k else k + 1) := by
  obtain ⟨hr, hnum, hkept, hlisted⟩ := addSong_added h.toListed hadd
  rw [h.numEntries_eq] at hnum
  refine ⟨hr, ?_⟩
  cases hserves : a.serves with
  | true =>
      have hnew : a.new ≠ none := by
        rintro hnone
        rw [Supply.serves, hnone] at hserves
        cases hserves
      rw [hserves, if_pos rfl] at hlisted
      obtain ⟨p, -, ht, hentry⟩ := hlisted
      rw [if_neg hnew, Nat.add_assoc] at hnum
      rw [if_pos rfl]
      exact ⟨p, h.append ht hkept (by rw [hentry]) hnum⟩
  | false =>
      rw [hserves, if_neg nofun] at hlisted
      rw [if_neg nofun]
      refine ⟨hlisted, fun q hq => ?_, ?_⟩
      · rw [hkept q hq]
        exact h.named q hq
      · rw [hnum, Nat.add_assoc]
        split_ifs <;> rfl

/-! ## What is asked of the allocator -/

/-- What is asked for the items of a playlist file, where `seen` are the paths in the playlist. -/
def wanted (menu : Menu) : List Text → List (Item × Supply) → List Supply
  | _, [] => []
  | seen, (i, a) :: items =>
      match i.path? menu with
      | none => wanted menu seen items
      | some file =>
          if file ∈ seen then wanted menu seen items else a :: wanted menu (file :: seen) items

/-- What `EnqueueFile` asks of the allocator, unless it is refused on the way. -/
def asked (menu : Menu) (path : Option Text) (list : Option (List (Item × Supply))) (a : Supply)
    (s : Browser) : List Supply :=
  match path with
  | none => []
  | some path =>
      let ext := getExt path
      if path ∈ names s then []
      else if (isAudioExt ext = false ∧ isPlaylistExt ext = false) ∨ ext = ascii "plx" then []
      else if isPlaylistExt ext then wanted menu (names s) (list.getD [])
      else [a]

/-- How many songs are added. -/
def added (w : List Supply) : ℕ := (w.takeWhile Supply.serves).length

/-- How many entries are added and taken back. -/
def lost : List Supply → ℕ
  | [] => 0
  | a :: w => if a.serves then lost w else if a.new = none then 0 else 1

/-- At most one song is lost. -/
theorem lost_le_one (w : List Supply) : lost w ≤ 1 := by
  induction w with
  | nil => exact Nat.zero_le 1
  | cons a w ih =>
      rw [lost]
      split_ifs
      · exact ih
      · exact Nat.zero_le 1
      · exact le_rfl

/-- No song is lost while there is memory. -/
theorem lost_eq_zero_of_all {w : List Supply} (h : w.all Supply.serves = true) : lost w = 0 := by
  induction w with
  | nil => rfl
  | cons a w ih =>
      rw [List.all_cons, Bool.and_eq_true] at h
      rw [lost, if_pos h.1, ih h.2]

/-- What is wanted depends on which files have been seen, not in which order. -/
theorem wanted_congr {menu : Menu} {items : List (Item × Supply)} {seen seen' : List Text}
    (h : ∀ f, f ∈ seen ↔ f ∈ seen') : wanted menu seen items = wanted menu seen' items := by
  induction items generalizing seen seen' with
  | nil => rfl
  | cons e items ih =>
      obtain ⟨i, a⟩ := e
      rw [wanted, wanted]
      cases i.path? menu with
      | none => exact ih h
      | some file =>
          have hcons : ∀ f, f ∈ file :: seen ↔ f ∈ file :: seen' := fun f => by
            rw [List.mem_cons, List.mem_cons, h f]
          simp only [h file, ih h, ih hcons]

/-- The songs of a playlist file are added one by one, until there is no memory. -/
theorem enqueueLoop_spec {items : List (Item × Supply)} (h : Songs s l k)
    (hrun : enqueueLoop menu hide items s = some (r, t)) :
    r = (wanted menu (names s) items).all Supply.serves ∧
      ∃ new, Songs t (l ++ new) (k + lost (wanted menu (names s) items)) ∧
        new.length = added (wanted menu (names s) items) := by
  -- The induction carries the playlist, which grows in front of the remaining items.
  induction items generalizing s l with
  | nil =>
      cases hrun
      exact ⟨rfl, [], by rwa [List.append_nil], rfl⟩
  | cons e items ih =>
      obtain ⟨i, a⟩ := e
      rw [enqueueLoop] at hrun
      rw [wanted]
      cases hpath : i.path? menu with
      | none =>
          rw [hpath] at hrun
          exact ih h hrun
      | some file =>
          simp only [hpath, musicPlaylistFindIndex_eq h.toListed, Option.bind_some] at hrun ⊢
          cases hfind : l.find? fun p => decide ((s.entry p).file = some file) with
          -- a song that is in the playlist already is passed over
          | some q =>
              have hseen : file ∈ names s := by
                by_contra hnot
                rw [(findIndex_eq_none_iff h.toListed).mpr hnot] at hfind
                cases hfind
              rw [hfind] at hrun
              rw [if_pos hseen]
              exact ih h hrun
          | none =>
              have hnew := (findIndex_eq_none_iff h.toListed).mp hfind
              simp only [hfind] at hrun
              obtain ⟨⟨r₁, s₁⟩, hadd, hrest⟩ := Option.bind_eq_some_iff.mp hrun
              obtain ⟨rfl, hspec⟩ := addSong_spec h hadd
              rw [if_neg hnew, List.all_cons, lost, added, List.takeWhile_cons]
              cases hserves : a.serves with
              -- the first song without memory ends the loop, and may leave its entry behind
              | false =>
                  rw [hserves] at hspec hrest
                  obtain ⟨rfl, rfl⟩ := Prod.mk.inj (Option.some.inj hrest)
                  refine ⟨rfl, [], ?_, rfl⟩
                  rw [List.append_nil]
                  simp only [Bool.false_eq_true, if_false] at hspec ⊢
                  split_ifs at hspec ⊢ with hnone
                  · exact hspec
                  · exact hspec
              -- the song now counts as seen for the rest
              | true =>
                  rw [hserves] at hspec hrest
                  obtain ⟨p, hsongs, hnames⟩ := hspec
                  obtain ⟨hr, new, ht, hlen⟩ := ih hsongs hrest
                  have hseen : ∀ f, f ∈ names s₁ ↔ f ∈ file :: names s := fun f => by
                    rw [hnames f, List.mem_cons, or_comm]
                  rw [wanted_congr hseen] at hr ht hlen
                  refine ⟨hr, p :: new, ?_, ?_⟩
                  · rwa [List.append_assoc] at ht
                  · rw [List.length_cons, hlen]
                    rfl

/-- What `EnqueueFile` returns, and the playlist behind it, where it asks for `w`. -/
structure Enqueued (l : List Ptr) (k : ℕ) (w : List Supply) (m : Music) (v : ℤ) (u : Music) :
    Prop where
  songs : ∃ new, Songs u.browser (l ++ new) (k + lost w) ∧ new.length = added w
  shuffleList_eq : u.shuffleList = m.shuffleList
  returned : v = 0 ∧ w = [] ∧ u = m ∨ v = 1 ∧ w.all Supply.serves = true ∧ u.shuffleIndex = -1 ∨
    v = -1 ∧ w.all Supply.serves = false ∧ u.shuffleIndex = m.shuffleIndex

variable {w : List Supply} {m u : Music} {v : ℤ}

/-- Where nothing is asked for, nothing is done. -/
theorem enqueued_idle (h : Songs m.browser l k) (hw : w = [])
    (heq : some ((0 : ℤ), m) = some (v, u)) : Enqueued l k w m v u := by
  subst hw
  cases heq
  exact ⟨⟨[], by rwa [List.append_nil], rfl⟩, rfl, .inl ⟨rfl, rfl, rfl⟩⟩

/-- The end of a folder or of an online listing. -/
theorem enqueued_end {b : Bool × Browser} (new : List Ptr) (hb : b.1 = w.all Supply.serves)
    (hsongs : Songs b.2 (l ++ new) (k + lost w)) (hlen : new.length = added w)
    (heq : m.enqueued b = (v, u)) : Enqueued l k w m v u := by
  rw [Music.enqueued, hb] at heq
  cases hall : w.all Supply.serves with
  | true =>
      rw [hall, if_pos rfl] at heq
      cases heq
      exact ⟨⟨new, hsongs, hlen⟩, rfl, .inr (.inl ⟨rfl, hall, rfl⟩)⟩
  | false =>
      rw [hall, if_neg nofun] at heq
      cases heq
      exact ⟨⟨new, hsongs, hlen⟩, rfl, .inr (.inr ⟨rfl, hall, rfl⟩)⟩

/-- `EnqueueFile` puts its songs in. -/
theorem enqueueFile_spec {path : Option Text} {list : Option (List (Item × Supply))}
    (h : Songs m.browser l k) (hrun : enqueueFile menu hide path list a m = some (v, u)) :
    Enqueued l k (asked menu path list a m.browser) m v u := by
  cases path with
  -- nothing was given
  | none => exact enqueued_idle h rfl hrun
  | some path =>
      simp only [enqueueFile, musicPlaylistFindIndex_eq h.toListed, Option.bind_some] at hrun
      rw [asked]
      cases hfind : l.find? fun p => decide ((m.browser.entry p).file = some path) with
      | some q =>
          have hseen : path ∈ names m.browser := by
            by_contra hnot
            rw [(findIndex_eq_none_iff h.toListed).mpr hnot] at hfind
            cases hfind
          rw [hfind] at hrun
          exact enqueued_idle h (if_pos hseen) hrun
      | none =>
          have hnew := (findIndex_eq_none_iff h.toListed).mp hfind
          simp only [hfind] at hrun
          simp only [if_neg hnew]
          -- neither playable nor a playlist; a playlist; one song
          split_ifs at hrun ⊢ with hext hplaylist
          · exact enqueued_idle h rfl hrun
          · cases list with
            | none => exact enqueued_idle h rfl hrun
            | some items =>
                obtain ⟨⟨r, b⟩, hloop, heq⟩ := Option.map_eq_some_iff.mp hrun
                obtain ⟨hr, new, hsongs, hlen⟩ := enqueueLoop_spec h hloop
                exact enqueued_end new hr hsongs hlen heq
          · obtain ⟨⟨r, b⟩, hadd, heq⟩ := Option.map_eq_some_iff.mp hrun
            obtain ⟨hr, hspec⟩ := addSong_spec h hadd
            cases hserves : a.serves with
            | true =>
                rw [hserves, if_pos rfl] at hspec
                obtain ⟨p, hsongs, -⟩ := hspec
                refine enqueued_end [p] (by simp [hr]) ?_ ?_ heq
                · rwa [lost, hserves, if_pos rfl, lost]
                · simp [added, hserves]
            | false =>
                rw [hserves, if_neg nofun] at hspec
                refine enqueued_end [] (by simp [hr]) ?_ ?_ heq
                · rw [List.append_nil, lost, hserves, if_neg nofun]
                  split_ifs at hspec ⊢ with hnone
                  · exact hspec
                  · exact hspec
                · simp [added, hserves]

/-! ## What is taken out -/

/-- The entries that stay when those whose paths pass the test are taken out. -/
def left (test : Text → Bool) (s : Browser) (l : List Ptr) : List Ptr :=
  l.filter fun p => !(s.entry p).file.any test

/-- What is left depends on the entries of the list only. -/
theorem left_congr {test : Text → Bool} (h : ∀ p ∈ l, t.entry p = s.entry p) :
    left test t l = left test s l :=
  List.filter_congr fun p hp => by rw [h p hp]

/-- Behind some calls of `Remove`: the shuffle is reset if there was one, and nothing else happens
to the entries that are left. -/
structure Removed (k : ℕ) (m u : Music) (l : List Ptr) : Prop where
  shuffle : u = m ∨ u.shuffleIndex = -1
  entry : u.browser.entry = m.browser.entry
  songs : Songs u.browser l k

/-- Nothing has been taken out. -/
theorem Removed.refl (h : Songs m.browser l k) : Removed k m m l := ⟨.inl rfl, rfl, h⟩

/-- Behind a song that is taken out, others may be. -/
theorem Removed.trans {m₁ : Music} {l₁ : List Ptr} (h : Removed k m m₁ l₁) (h' : Removed k m₁ u l) :
    Removed k m u l where
  shuffle := by
    rcases h'.shuffle with rfl | hreset
    · exact h.shuffle
    · exact .inr hreset
  entry := h'.entry.trans h.entry
  songs := h'.songs

/-- `Remove` takes an entry of the list out. -/
theorem Music.remove_spec {xs ys : List Ptr} (h : Songs m.browser (xs ++ p :: ys) k) :
    ∃ u, m.remove (some p) = some u ∧ Removed k m u (xs ++ ys) := by
  have hlive : p ∈ m.browser.live := h.mem_live.mpr (by simp)
  obtain ⟨b, hb⟩ : ∃ b, m.browser.remove (some p) = some b := ⟨_, if_pos hlive⟩
  obtain ⟨hlisted, hnum, hentry, -⟩ := Browser.remove_spec h.toListed hb
  refine ⟨_, by rw [Music.remove, hb, Option.map_some], .inr rfl, hentry, hlisted, fun q hq => ?_, ?_⟩
  · show (b.entry q).file ≠ none
    rw [hentry]
    refine h.named q ?_
    rcases List.mem_append.mp hq with hq | hq
    · exact List.mem_append_left _ hq
    · exact List.mem_append_right _ (List.mem_cons_of_mem p hq)
  · show b.numEntries = _
    rw [hnum, h.numEntries_eq]
    simp only [List.length_append, List.length_cons]
    omega

/-- The paths that are looked for where a playlist file is taken out. -/
def wantedOut (menu : Menu) (items : List Item) : List Text := items.filterMap (·.path? menu)

/-- Of entries with different paths, the one that is found is the only one with its path. -/
theorem left_found {xs ys : List Ptr} (hfile : (s.entry p).file = some file)
    (hdistinct : ((xs ++ p :: ys).map fun q => (s.entry q).file).Nodup) :
    left (· = file) s (xs ++ p :: ys) = xs ++ ys := by
  rw [List.map_append, List.map_cons, hfile] at hdistinct
  obtain ⟨-, hys, hxs⟩ := List.nodup_append.mp hdistinct
  have hstay : ∀ q, (s.entry q).file ≠ some file → (!(s.entry q).file.any (· = file)) = true := by
    intro q hq
    rcases hpath : (s.entry q).file with _ | f
    · rfl
    · rw [hpath] at hq
      simpa using fun heq : f = file => hq (congrArg some heq)
  rw [left, List.filter_append, List.filter_cons_of_neg (by simp [hfile])]
  rw [List.filter_eq_self.mpr fun q hq => hstay q fun heq => ?_,
    List.filter_eq_self.mpr fun q hq => hstay q fun heq => ?_]
  · exact (List.nodup_cons.mp hys).1 (List.mem_map.mpr ⟨q, hq, heq⟩)
  · exact hxs _ (List.mem_map.mpr ⟨q, hq, heq⟩) _ List.mem_cons_self rfl

/-- Taking out one path, and then others. -/
theorem left_left (s : Browser) (l : List Ptr) (file : Text) (files : List Text) :
    left (· ∈ files) s (left (· = file) s l) = left (· ∈ file :: files) s l := by
  rw [left, left, List.filter_filter, left]
  refine List.filter_congr fun p _ => ?_
  rcases (s.entry p).file with _ | f
  · rfl
  · simp only [Option.any_some, List.mem_cons, Bool.decide_or, Bool.not_or]
    exact Bool.and_comm ..

/-- Of the items of a playlist file the first entry with their path is taken out, which is the only
one if the entries have different paths. -/
theorem dequeueItems_spec (items : List Item) (h : Songs m.browser l k) :
    ∃ u l', dequeueItems menu items m = some u ∧ Removed k m u l' ∧
      ((l.map fun p => (m.browser.entry p).file).Nodup →
        l' = left (· ∈ wantedOut menu items) m.browser l) := by
  induction items generalizing m l with
  | nil =>
      refine ⟨m, l, rfl, .refl h, fun _ => (List.filter_eq_self.mpr fun p _ => ?_).symm⟩
      rcases (m.browser.entry p).file with _ | f <;> simp [wantedOut]
  | cons i items ih =>
      rw [dequeueItems]
      rcases hpath : i.path? menu with _ | file
      · obtain ⟨u, l', hrun, hremoved, hleft⟩ := ih h
        refine ⟨u, l', hrun, hremoved, fun hdistinct => ?_⟩
        rw [hleft hdistinct, wantedOut, wantedOut, List.filterMap_cons_none hpath]
      -- no entry of the playlist is without a path
      have hfind := findLoop_spec (fun e => e.file.map fun f => decide (f = file))
        h.chain.forward h.length_live.ge fun p hp => by
          rw [ne_eq, Option.map_eq_none_iff]
          exact h.named p hp
      simp only [hfind, Option.bind_some]
      have hwanted : wantedOut menu (i :: items) = file :: wantedOut menu items :=
        List.filterMap_cons_some hpath
      rcases hfound : l.find? _ with _ | p
      · obtain ⟨u, l', hrun, hremoved, hleft⟩ := ih h
        refine ⟨u, l', hrun, hremoved, fun hdistinct => ?_⟩
        have hself : left (· = file) m.browser l = l := by
          refine List.filter_eq_self.mpr fun q hq => ?_
          have hq := List.find?_eq_none.mp hfound q hq
          rcases hname : (m.browser.entry q).file with _ | f
          · rfl
          · rw [hname] at hq
            simpa using hq
        rw [hleft hdistinct, hwanted, ← left_left, hself]
      · have hp := List.find?_some hfound
        obtain ⟨xs, ys, rfl⟩ := List.append_of_mem (List.mem_of_find?_eq_some hfound)
        have hfile : (m.browser.entry p).file = some file := by
          rcases hname : (m.browser.entry p).file with _ | f
          · exact absurd hname (h.named p (by simp))
          · rw [hname] at hp
            simpa using hp
        obtain ⟨m₁, hremove, hm₁⟩ := Music.remove_spec h
        obtain ⟨u, l', hrun, hremoved, hleft⟩ := ih hm₁.songs
        refine ⟨u, l', by rw [hremove, Option.bind_some, hrun], hm₁.trans hremoved,
          fun hdistinct => ?_⟩
        have hsub : ((xs ++ ys).map fun q => (m.browser.entry q).file).Nodup :=
          hdistinct.sublist (((List.sublist_cons_self p ys).append_left xs).map _)
        rw [hwanted, ← left_left, left_found hfile hdistinct, hleft (hm₁.entry ▸ hsub)]
        exact left_congr fun q _ => by rw [hm₁.entry]

/-- The loop goes along the list; `xs` is what it has left there. -/
theorem dequeueLoop_spec (fullpath : Text) (xs : List Ptr) {ys : List Ptr} {n : ℕ}
    (h : Songs m.browser (xs ++ ys) k) (hn : ys.length ≤ n) :
    ∃ u, dequeueLoop fullpath n ys.head? m = some u ∧
      Removed k m u (xs ++ left fullpath.isPrefixOf m.browser ys) := by
  induction ys generalizing m xs n with
  | nil => exact ⟨m, by cases n <;> rfl, .refl h⟩
  | cons y ys ih =>
      have hnext : m.browser.links.next y = ys.head? := h.chain.next_eq
      obtain ⟨n, rfl⟩ := Nat.exists_eq_succ_of_ne_zero (Nat.ne_of_gt (Nat.lt_of_lt_of_le
        (Nat.succ_pos ys.length) hn))
      rw [List.head?_cons, dequeueLoop, hnext, left]
      by_cases hbegins : (m.browser.entry y).file.any fullpath.isPrefixOf = true
      · obtain ⟨m₁, hremove, hm₁⟩ := Music.remove_spec h
        obtain ⟨u, hrun, hremoved⟩ := ih xs hm₁.songs (Nat.le_of_succ_le_succ hn)
        rw [if_pos hbegins, hremove, Option.bind_some, List.filter_cons_of_neg (by simp [hbegins])]
        refine ⟨u, hrun, hm₁.trans ?_⟩
        rwa [left_congr (s := m.browser) fun q _ => by rw [hm₁.entry]] at hremoved
      · rw [List.append_cons] at h
        obtain ⟨u, hrun, hremoved⟩ := ih (xs ++ [y]) h (Nat.le_of_succ_le_succ hn)
        rw [if_neg hbegins, List.filter_cons_of_pos (by simp [hbegins])]
        rw [← List.append_cons] at hremoved
        exact ⟨u, hrun, hremoved⟩

/-- The paths that pass the test are taken out, if different entries have different ones. -/
def outTest (menu : Menu) (dir : Text) (type : EntryType) (file : Text)
    (list : Option (List Item)) (path : Text) : Bool :=
  if type = .playlist then decide (path ∈ wantedOut menu (list.getD []))
  else (getFullPath dir file).isPrefixOf path

/-- An entry of the file browser whose full path does not fit is fatal. -/
theorem musicPlaylistDequeue_eq_none (menu : Menu) {dir file : Text} (type : EntryType)
    (list : Option (List Item)) (m : Music) (hlong : ¬ (getFullPath dir file).length < maxPathLen) :
    musicPlaylistDequeue menu dir type file list m = none := by
  unfold musicPlaylistDequeue
  rw [fullPathIn, if_neg hlong, Option.bind_none]

/-- If the full path fits, the songs that pass the test are taken out. -/
theorem musicPlaylistDequeue_spec (menu : Menu) {dir file : Text} (type : EntryType)
    (list : Option (List Item)) (h : Songs m.browser l k)
    (hfits : (getFullPath dir file).length < maxPathLen) :
    ∃ u l', musicPlaylistDequeue menu dir type file list m = some u ∧ Removed k m u l' ∧
      ((l.map fun p => (m.browser.entry p).file).Nodup →
        l' = left (outTest menu dir type file list) m.browser l) := by
  unfold musicPlaylistDequeue outTest
  rw [fullPathIn, if_pos hfits, Option.bind_some]
  by_cases htype : type = .playlist
  · simp only [if_pos htype]
    rcases list with _ | items
    · exact dequeueItems_spec [] h
    · exact dequeueItems_spec items h
  · simp only [if_neg htype]
    rw [h.chain.first_eq]
    obtain ⟨u, hrun, hremoved⟩ := dequeueLoop_spec (getFullPath dir file) [] h h.length_live.ge
    exact ⟨u, _, hrun, hremoved, fun _ => rfl⟩

/-- Nothing else keeps songs from being taken out. -/
theorem Songs.dequeue_isSome {dir file : Text} (h : Songs m.browser l k) (menu : Menu)
    (type : EntryType) (list : Option (List Item)) :
    (getFullPath dir file).length < maxPathLen ↔
      (musicPlaylistDequeue menu dir type file list m).isSome = true := by
  constructor
  · intro hfits
    obtain ⟨u, -, hrun, -⟩ := musicPlaylistDequeue_spec menu type list h hfits
    rw [hrun, Option.isSome_some]
  · intro hsome
    by_contra hlong
    rw [musicPlaylistDequeue_eq_none menu type list m hlong] at hsome
    cases hsome

end WiiMC.Browser
