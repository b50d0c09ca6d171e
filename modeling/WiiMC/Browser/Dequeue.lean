import WiiMC.Browser.Enqueue
import WiiMC.Browser.Shuffle

/-!
# Putting songs in and taking them out

The playlist over any sequence of `MusicPlaylistEnqueue` and `MusicPlaylistDequeue`. A folder that
is put in is sorted within the positions that its files have got, and `Remove` does not number the
entries that it leaves. A folder or a file that is taken out takes with it every entry whose path
begins with its own.

* `playlistSystem`: the runs, and `playlist_of_reachable`: no path is twice in the playlist.
* `enqueueFolder_keeps`: when a folder that is put in leaves the songs of old as they are.
* `musicPlaylistDequeue_iff`: when the songs that are taken out are those that are asked for.
-/

namespace WiiMC.Browser

open Bytes Linked Player StableSort Transition

/-! ## The runs -/

/-- What the user does with the playlist, with what it meets. -/
inductive Edit
  | enqueue (menu : Menu) (hideExtensions : Bool) (dir : Text) (type : EntryType) (file : Text)
      (folder : Folder) (list : Option (List (Item × Supply))) (a : Supply)
  | dequeue (menu : Menu) (dir : Text) (type : EntryType) (file : Text) (list : Option (List Item))

/-- The effect of an edit. -/
def Music.edit (s : Music) : Edit → Option Music
  | .enqueue menu hide dir type file folder list a =>
      (musicPlaylistEnqueue menu hide dir type file folder list a s).map Prod.snd
  | .dequeue menu dir type file list => musicPlaylistDequeue menu dir type file list s

/-- The playlist from `BrowserInit` on. -/
def playlistSystem : System Music Edit where
  init s := ∃ links entry, s = ⟨init links entry, [], -1⟩
  step := Music.edit

variable {s t : Music} {l : List Ptr} {menu : Menu} {hide : Bool} {dir file : Text}
  {type : EntryType} {ok : Music → Edit → Prop}

/-- What is taken out leaves a playlist. -/
theorem Playlist.dequeue (h : Playlist s.browser l) (menu : Menu) (type : EntryType)
    (list : Option (List Item)) (hfits : (getFullPath dir file).length < maxPathLen) :
    ∃ u, musicPlaylistDequeue menu dir type file list s = some u ∧
      u.browser.entry = s.browser.entry ∧
      Playlist u.browser (left (outTest menu dir type file list) s.browser l) := by
  obtain ⟨k, hsongs⟩ := h.songs
  obtain ⟨u, l', hrun, hremoved, hleft⟩ := musicPlaylistDequeue_spec menu type list hsongs hfits
  obtain rfl := hleft h.distinct
  have hsub : (left (outTest menu dir type file list) s.browser l).Sublist l := List.filter_sublist
  refine ⟨u, hrun, hremoved.entry, ⟨k, hremoved.songs⟩, fun p hp => ?_, ?_⟩
  · rw [hremoved.entry]
    exact h.shown p (hsub.subset hp)
  · rw [hremoved.entry]
    exact h.distinct.sublist (hsub.map _)

theorem Playlist.edit {e : Edit} (h : Playlist s.browser l) (hstep : s.edit e = some t) :
    ∃ l, Playlist t.browser l := by
  cases e with
  | enqueue menu hide dir type file folder list a =>
      obtain ⟨⟨r, u⟩, hrun, rfl⟩ := Option.map_eq_some_iff.mp hstep
      obtain ⟨fullpath, -, hrun⟩ := Option.bind_eq_some_iff.mp hrun
      split_ifs at hrun
      · obtain ⟨l', h', -⟩ := enqueueFolder_spec folder h hrun
        exact ⟨l', h'⟩
      · obtain ⟨⟨v, u'⟩, hfile, heq⟩ := Option.map_eq_some_iff.mp hrun
        cases heq
        obtain ⟨new, hadds⟩ := enqueueFile_adds h hfile
        exact ⟨_, hadds.playlist⟩
  | dequeue menu dir type file list =>
      obtain ⟨k, hsongs⟩ := h.songs
      have hfits : (getFullPath dir file).length < maxPathLen :=
        (hsongs.dequeue_isSome menu type list).mpr (Option.isSome_of_mem hstep)
      obtain ⟨u, hrun, -, hplaylist⟩ := h.dequeue menu type list hfits
      obtain rfl := Option.some.inj (hrun.symm.trans hstep)
      exact ⟨_, hplaylist⟩

/-- Whatever is put in and taken out, no path is twice in the playlist. -/
theorem playlist_of_reachable (hs : playlistSystem.Reachable ok s) : ∃ l, Playlist s.browser l := by
  refine hs.invariant (I := fun s => ∃ l, Playlist s.browser l) ?_ ?_
  · rintro s ⟨links, entry, rfl⟩
    exact ⟨[], ⟨⟨0, listed_init links entry, nofun, rfl⟩, nofun, .nil⟩⟩
  · rintro s e t - ⟨l, h⟩ - hstep
    exact h.edit hstep

/-! ## A folder that is put in -/

/-- If no entry has a position that a new one may get, the songs of old stay in front when a folder
is put in, then come those of its folders as the calls for them have left them, and at last its
files, sorted by the texts shown. The folder is put in if it and the folders in it can be opened
again, whatever memory there is. -/
theorem enqueueFolder_keeps (hs : playlistSystem.Reachable (fun _ _ => True) s) :
    ∃ l, Listed s.browser l ∧
      ((∀ p ∈ s.browser.live, (s.browser.entry p).pos < s.browser.numEntries) →
        ∀ menu hide path folder r t, enqueueFolder menu hide path folder s = some (r, t) →
          ∃ l', Listed t.browser l' ∧ l <+: l' ∧ Same s.browser l t.browser ∧
            Ordered menu hide path folder s l t l') ∧
      ∀ menu hide path folder, folder.reopens = true → Unused s.browser folder.addresses →
        ∃ r t, enqueueFolder menu hide path folder s = some (r, t) := by
  obtain ⟨l, h⟩ := playlist_of_reachable hs
  refine ⟨l, h.listed, fun hpos menu hide path folder r t hrun => ?_,
    fun menu hide path folder hopen hunused => ?_⟩
  rotate_left
  · rw [← List.append_nil folder.addresses] at hunused
    obtain ⟨r, t, hrun, -⟩ := enqueueFolder_returns menu hide path folder h hopen hunused
    exact ⟨r, t, hrun⟩
  obtain ⟨l', h', hordered⟩ := enqueueFolder_spec folder h hrun
  have hnum : Numbered s.browser l := fun p hp => hpos p (h.listed.mem_live.mpr hp)
  obtain ⟨hordered, hgrows⟩ := hordered hnum
  exact ⟨l', h'.listed, hgrows.isPrefix, hgrows.same, hordered⟩

/-- A file of a folder is put in, where `calloc` returns `p`. -/
def putFile (dir name : String) (p : Ptr) : Edit :=
  .enqueue .music false (ascii dir) .file (ascii name) .closed none ⟨some p, true, true⟩

/-- A folder with two files, `b.mp3` and `C.mp3`, and a folder with one. -/
def sampleFolder : Folder :=
  .opened true true (.file (ascii "C.mp3") none ⟨some 3, true, true⟩
    (.folder (ascii "d") (.opened true true (.file (ascii "d.mp3") none ⟨some 4, true, true⟩ .nil))
      (.file (ascii "b.mp3") none ⟨some 5, true, true⟩ .nil)))

theorem enqueueFolder_keeps_sample :
    ∃ s r t l l', playlistSystem.exec silence [putFile "sd1:/" "z.mp3" 1, putFile "sd1:/" "y.mp3" 2] =
        some s ∧ Listed s.browser l ∧
      enqueueFolder .music false (ascii "sd1:/x") sampleFolder s = some (r, t) ∧
      Listed t.browser l' ∧ l <+: l' ∧ Same s.browser l t.browser ∧
      Ordered .music false (ascii "sd1:/x") sampleFolder s l t l' := by
  have hrun : ((playlistSystem.exec silence
      [putFile "sd1:/" "z.mp3" 1, putFile "sd1:/" "y.mp3" 2]).map fun s =>
        (decide (∀ p ∈ s.browser.live, (s.browser.entry p).pos < s.browser.numEntries),
          s.browser.live)) =
      some (true, [2, 1]) := by
    decide +kernel
  obtain ⟨s, hexec, hs⟩ := Option.map_eq_some_iff.mp hrun
  obtain ⟨hpos, hlive⟩ := Prod.mk.inj hs
  have hsilence : playlistSystem.Reachable (fun _ _ => True) silence := .init ⟨_, _, rfl⟩
  obtain ⟨l, hl, hkeeps, hreturns⟩ :=
    enqueueFolder_keeps (hsilence.exec (.of_forall (fun _ _ => trivial) _) hexec)
  have hunused : Unused s.browser sampleFolder.addresses := by
    rw [Unused, hlive]
    decide
  obtain ⟨r, t, hfolder⟩ := hreturns .music false (ascii "sd1:/x") sampleFolder rfl hunused
  obtain ⟨l', hl', hordered⟩ := hkeeps (of_decide_eq_true hpos) _ _ _ _ _ _ hfolder
  exact ⟨s, r, t, l, l', hexec, hl, hfolder, hl', hordered⟩

/-- A folder with two files. -/
def flatFolder : Folder :=
  .opened true true (.file (ascii "c.mp3") none ⟨some 3, true, true⟩
    (.file (ascii "b.mp3") none ⟨some 4, true, true⟩ .nil))

/-- Two songs are put in and the first one is taken out. -/
def takenEdits : List Edit :=
  [putFile "sd1:/" "a.mp3" 1, putFile "sd1:/" "z.mp3" 2,
    .dequeue .music (ascii "sd1:/") .file (ascii "a.mp3") none]

/-- The song that is left has the position that the next song gets. The songs of a folder that is
put in then come in front of it. -/
theorem enqueueFolder_moves :
    ∃ s t, playlistSystem.exec silence takenEdits = some s ∧
      enqueueFolder .music false (ascii "sd1:/x") flatFolder s = some (true, t) ∧
      ∀ l l', Listed s.browser l → Listed t.browser l' → ¬ l <+: l' := by
  have hrun : ((playlistSystem.exec silence takenEdits).map fun s => (s.browser.first,
      (enqueueFolder .music false (ascii "sd1:/x") flatFolder s).map fun r =>
        (r.1, r.2.browser.first))) = some (some 2, some (true, some 4)) := by
    decide +kernel
  obtain ⟨s, hexec, hs⟩ := Option.map_eq_some_iff.mp hrun
  obtain ⟨⟨r, t⟩, hfolder, hr⟩ := Option.map_eq_some_iff.mp (congrArg Prod.snd hs)
  obtain rfl : r = true := congrArg Prod.fst hr
  refine ⟨s, t, hexec, hfolder, fun l l' hl hl' hbegins => ?_⟩
  have hfirst : l.head? = some 2 := hl.chain.first_eq.symm.trans (congrArg Prod.fst hs)
  have hfirst' : l'.head? = some 4 := hl'.chain.first_eq.symm.trans (congrArg Prod.snd hr)
  obtain ⟨rest, rfl⟩ := hbegins
  rw [List.head?_append, hfirst] at hfirst'
  cases hfirst'

/-! ## What is taken out -/

/-- A path lies inside a folder. -/
def inside (folder path : Text) : Bool :=
  (if folder.getLast? = some 47 then folder else folder ++ [47]).isPrefixOf path

/-- The songs that belong to an entry of the file browser: those inside a folder, those of a
playlist file, or the file itself. -/
def belongs (menu : Menu) (dir : Text) (type : EntryType) (file : Text) (list : Option (List Item))
    (path : Text) : Bool :=
  match type with
  | .folder => inside (getFullPath dir file) path
  | .playlist => decide (path ∈ wantedOut menu (list.getD []))
  | .file | .search => decide (path = getFullPath dir file)

/-- The path of no other song begins with that of the folder or of the file. -/
def Apart (dir : Text) (type : EntryType) (file : Text) (s : Browser) : Prop :=
  match type with
  | .folder => ∀ p ∈ s.live, ∀ rest, (s.entry p).file = some (getFullPath dir file ++ rest) →
      (getFullPath dir file).getLast? = some 47 ∨ rest.head? = some 47
  | .playlist => True
  | .file | .search => ∀ p ∈ s.live, ∀ rest,
      (s.entry p).file = some (getFullPath dir file ++ rest) → rest = []

/-- Two tests take the same entries out if and only if they agree on the paths. -/
theorem left_eq_iff {test test' : Text → Bool} {s : Browser} :
    left test s l = left test' s l ↔
      ∀ p ∈ l, ∀ path, (s.entry p).file = some path → test path = test' path := by
  constructor
  · intro heq p hp path hpath
    have hmem : p ∈ left test s l ↔ p ∈ left test' s l := by rw [heq]
    simp only [left, List.mem_filter, hp, true_and, hpath, Option.any_some, Bool.not_eq_true'] at hmem
    exact Bool.eq_iff_iff.mpr (by simpa using not_congr hmem)
  · intro h
    refine List.filter_congr fun p hp => ?_
    rcases hpath : (s.entry p).file with _ | path
    · rfl
    · rw [Option.any_some, Option.any_some, h p hp path hpath]

/-- A path that begins with that of a folder lies inside it if a slash comes next. -/
theorem isPrefixOf_eq_inside_iff (folder path : Text) :
    folder.isPrefixOf path = inside folder path ↔
      ∀ rest, path = folder ++ rest → folder.getLast? = some 47 ∨ rest.head? = some 47 := by
  unfold inside
  split_ifs with hlast
  · exact ⟨fun _ _ _ => .inl hlast, fun _ => rfl⟩
  rw [Bool.eq_iff_iff, List.isPrefixOf_iff_prefix, List.isPrefixOf_iff_prefix]
  constructor
  · rintro h rest rfl
    obtain ⟨more, hmore⟩ := h.mp (List.prefix_append folder rest)
    rw [List.append_assoc] at hmore
    rw [← List.append_cancel_left hmore]
    exact .inr rfl
  · intro h
    constructor
    · rintro ⟨rest, rfl⟩
      obtain ⟨more, rfl⟩ := List.head?_eq_some_iff.mp ((h rest rfl).resolve_left hlast)
      exact ⟨more, by simp⟩
    · rintro ⟨more, rfl⟩
      exact ⟨47 :: more, by simp⟩

theorem isPrefixOf_eq_iff (fullpath path : Text) :
    fullpath.isPrefixOf path = decide (path = fullpath) ↔ ∀ rest, path = fullpath ++ rest → rest = [] := by
  rw [Bool.eq_iff_iff, List.isPrefixOf_iff_prefix, decide_eq_true_iff]
  constructor
  · rintro h rest rfl
    exact List.append_right_eq_self.mp (h.mp (List.prefix_append fullpath rest))
  · intro h
    constructor
    · rintro ⟨rest, rfl⟩
      rw [h rest rfl, List.append_nil]
    · rintro rfl
      exact List.prefix_refl _

/-- What passes the test of `MusicPlaylistDequeue` is what belongs to the entry of the file browser, if
and only if no other path begins with that of the entry. -/
theorem Playlist.left_belongs_iff (h : Playlist s.browser l) {list : Option (List Item)}
    (hu : Playlist t.browser (left (outTest menu dir type file list) s.browser l)) :
    Listed t.browser (left (belongs menu dir type file list) s.browser l) ↔
      Apart dir type file s.browser := by
  have hleft : Listed t.browser (left (belongs menu dir type file list) s.browser l) ↔
      ∀ p ∈ s.browser.live, ∀ path, (s.browser.entry p).file = some path →
        outTest menu dir type file list path = belongs menu dir type file list path := by
    simp only [h.listed.mem_live]
    rw [← left_eq_iff]
    exact ⟨fun h' => hu.listed.unique h', fun heq => heq ▸ hu.listed⟩
  rw [hleft]
  -- a file and what is searched for are taken out in the same way
  have hfile : (∀ p ∈ s.browser.live, ∀ path, (s.browser.entry p).file = some path →
      (getFullPath dir file).isPrefixOf path = decide (path = getFullPath dir file)) ↔
      ∀ p ∈ s.browser.live, ∀ rest,
        (s.browser.entry p).file = some (getFullPath dir file ++ rest) → rest = [] := by
    simp only [isPrefixOf_eq_iff]
    constructor
    · intro h p hp rest hrest
      exact h p hp _ hrest rest rfl
    · rintro h p hp path hpath rest rfl
      exact h p hp rest hpath
  cases type with
  | file => exact hfile
  | search => exact hfile
  | playlist => exact ⟨fun _ => trivial, fun _ _ _ _ _ => rfl⟩
  | folder =>
      show (∀ p ∈ s.browser.live, ∀ path, (s.browser.entry p).file = some path →
        (getFullPath dir file).isPrefixOf path = inside (getFullPath dir file) path) ↔ _
      simp only [isPrefixOf_eq_inside_iff]
      constructor
      · intro h p hp rest hrest
        exact h p hp _ hrest rest rfl
      · rintro h p hp path hpath rest rfl
        exact h p hp rest hpath

/-- The songs that are taken out are those that belong to the entry of the file browser, and the
others stay in their order, if and only if the full path of the entry fits into its array and no other
path begins with it. -/
theorem musicPlaylistDequeue_iff (hs : playlistSystem.Reachable (fun _ _ => True) s) (menu : Menu)
    (dir : Text) (type : EntryType) (file : Text) (list : Option (List Item)) :
    ∃ l, Listed s.browser l ∧
      ((∃ u, musicPlaylistDequeue menu dir type file list s = some u ∧
          u.browser.entry = s.browser.entry ∧
          Listed u.browser (left (belongs menu dir type file list) s.browser l)) ↔
        (getFullPath dir file).length < maxPathLen ∧ Apart dir type file s.browser) := by
  obtain ⟨l, h⟩ := playlist_of_reachable hs
  refine ⟨l, h.listed, ?_⟩
  by_cases hfits : (getFullPath dir file).length < maxPathLen
  · obtain ⟨u, hrun, hentry, hu⟩ := h.dequeue menu type list hfits
    rw [hrun, and_iff_right hfits, ← h.left_belongs_iff hu]
    constructor
    · rintro ⟨u', heq, -, hleft⟩
      obtain rfl := Option.some.inj heq
      exact hleft
    · intro hleft
      exact ⟨u, rfl, hentry, hleft⟩
  · rw [musicPlaylistDequeue_eq_none menu type list s hfits]
    refine iff_of_false ?_ fun hcond => hfits hcond.1
    rintro ⟨u, ⟨⟩, -⟩

/-- Songs of the folders `Rock` and `Rockabilly`. -/
def rockEdits : List Edit :=
  [putFile "sd1:/Rock/" "a.mp3" 1, putFile "sd1:/Rockabilly/" "b.mp3" 2]

theorem musicPlaylistDequeue_iff_sample :
    ∃ s, playlistSystem.exec silence rockEdits = some s ∧
      ∃ l, Listed s.browser l ∧ ∃ u,
        musicPlaylistDequeue .music (ascii "sd1:/Rock/") .file (ascii "a.mp3") none s = some u ∧
        u.browser.entry = s.browser.entry ∧
        Listed u.browser
          (left (belongs .music (ascii "sd1:/Rock/") .file (ascii "a.mp3") none) s.browser l) := by
  have hrun : (playlistSystem.exec silence rockEdits).map (fun s =>
      s.browser.live.map fun p => (s.browser.entry p).file) =
      some [some (ascii "sd1:/Rockabilly/b.mp3"), some (ascii "sd1:/Rock/a.mp3")] := by
    decide +kernel
  obtain ⟨s, hexec, hs⟩ := Option.map_eq_some_iff.mp hrun
  have hsilence : playlistSystem.Reachable (fun _ _ => True) silence := .init ⟨_, _, rfl⟩
  obtain ⟨l, hl, hiff⟩ := musicPlaylistDequeue_iff
    (hsilence.exec (.of_forall (fun _ _ => trivial) _) hexec) .music (ascii "sd1:/Rock/") .file
    (ascii "a.mp3") none
  refine ⟨s, hexec, l, hl, hiff.mpr ⟨by decide +kernel, fun p hp rest hrest => ?_⟩⟩
  have hmem : (s.browser.entry p).file ∈ s.browser.live.map fun p => (s.browser.entry p).file :=
    List.mem_map_of_mem hp
  have hpath : getFullPath (ascii "sd1:/Rock/") (ascii "a.mp3") = ascii "sd1:/Rock/a.mp3" := by
    decide +kernel
  rw [hs, hrest, hpath] at hmem
  rcases List.mem_cons.mp hmem with heq | hmem
  · have hprefix : ascii "sd1:/Rock/a.mp3" <+: ascii "sd1:/Rockabilly/b.mp3" :=
      ⟨rest, Option.some.inj heq⟩
    exact absurd hprefix (by decide +kernel)
  · exact List.append_right_eq_self.mp (Option.some.inj (List.mem_singleton.mp hmem))

/-- The folder `Rock` is taken out, and the song of `Rockabilly` with it. -/
theorem musicPlaylistDequeue_sibling :
    ∃ s u, playlistSystem.exec silence rockEdits = some s ∧
      musicPlaylistDequeue .music (ascii "sd1:/") .folder (ascii "Rock") none s = some u ∧
      ∀ l, Listed s.browser l → ¬ Listed u.browser
        (left (belongs .music (ascii "sd1:/") .folder (ascii "Rock") none) s.browser l) := by
  have hrun : ((playlistSystem.exec silence rockEdits).map fun s =>
      (decide (2 ∈ s.browser.live), (s.browser.entry 2).file,
        (musicPlaylistDequeue .music (ascii "sd1:/") .folder (ascii "Rock") none s).map
          (·.browser.live))) =
      some (true, some (ascii "sd1:/Rockabilly/b.mp3"), some []) := by
    decide +kernel
  obtain ⟨s, hexec, hs⟩ := Option.map_eq_some_iff.mp hrun
  obtain ⟨hlive, hs⟩ := Prod.mk.inj hs
  obtain ⟨hfile, hu⟩ := Prod.mk.inj hs
  obtain ⟨u, hdequeue, hnil⟩ := Option.map_eq_some_iff.mp hu
  refine ⟨s, u, hexec, hdequeue, fun l hl hleft => ?_⟩
  have hstays : 2 ∈ left (belongs .music (ascii "sd1:/") .folder (ascii "Rock") none) s.browser l := by
    refine List.mem_filter.mpr ⟨hl.mem_live.mp (of_decide_eq_true hlive), ?_⟩
    rw [hfile]
    decide +kernel
  have hmem := hleft.mem_live.mpr hstays
  rw [hnil] at hmem
  cases hmem

end WiiMC.Browser
