import WiiMC.Browser.Playlist

/-!
# Putting a folder into the playlist

`musicplaylist.cpp`: `EnqueueFolder` goes through a folder twice. First it calls itself for the
folders in it, then it puts the files in and sorts them. The comparator of this sorting calls all
entries equal but those whose positions the new files have got.

* `enqueueFolder`: the function, and `musicPlaylistEnqueue`, which calls it.
* `Adds`: songs are put behind a playlist.
* `Ordered`: what a folder should add, and in which order.
* `enqueueFolder_spec`: it does if no entry of old has the position of a new one.
* `enqueueFolder_returns`: the folders that are gone through to their end.
-/

namespace WiiMC.Browser

open Bytes Linked Player StableSort

/-! ## The functions -/

mutual

/-- What the system answers for a folder: it cannot be opened, or it can be, with memory for a path
or without, and be opened again or not. -/
inductive Folder
  | closed
  | opened (alloc reopened : Bool) (content : Content)

/-- What `readdir` returns one after the other. With a file stands what MPlayer makes of it, and
what the allocator answers. -/
inductive Content
  | nil
  | file (name : Text) (list : Option (List (Item × Supply))) (a : Supply) (rest : Content)
  | folder (name : Text) (sub : Folder) (rest : Content)

end

/-- `MusicSortCallback`, with its two variables; two texts to show are compared if there are. -/
def musicSortCallback (start last : ℤ) (f1 f2 : Entry) : ℤ :=
  if f1.pos < start ∨ last < f1.pos ∨ f2.pos < start ∨ last < f2.pos then 0
  else match f1.display, f2.display with
    | some a, some b => strcasecmp a b
    | _, _ => 0

/-- An entry of the folder that is passed over. -/
def skipped (path name : Text) : Prop := name.head? = some 46 ∨ maxPathLen < path.length + name.length

/-- Whether an entry is skipped is decided by its name. -/
instance (path name : Text) : Decidable (skipped path name) := by
  unfold skipped
  infer_instance

/-- `snprintf(filepath, MAXPATHLEN, "%s/%s", path, entry->d_name)`. -/
def filePath (path name : Text) : Text := (path ++ 47 :: name).take (maxPathLen - 1)

section Functions

variable (menu : Menu) (hideExtensions : Bool)

/-- The second loop of `EnqueueFolder`, over the files. -/
def filesLoop (path : Text) : Content → Music → Option Music
  | .nil, s => some s
  | .folder _ _ rest, s => filesLoop path rest s
  | .file name list a rest, s =>
      if skipped path name then filesLoop path rest s
      else (enqueueFile menu hideExtensions (some (filePath path name)) list a s).bind fun (r, s) =>
        if r < 0 then some s else filesLoop path rest s

/-- The end of `EnqueueFolder`: the entries from the position `start` on are sorted. -/
def sortFrom (start : ℤ) (s : Music) : Option Music :=
  if 1 < s.browser.numEntries - start then
    (sortBrowser (musicSortCallback start (s.browser.numEntries - 1)) s.browser).map fun b =>
      { s with browser := b }
  else some s

mutual

/-- `EnqueueFolder`, but for the prompt. -/
def enqueueFolder : Text → Folder → Music → Option (Bool × Music)
  | _, .closed, s => some (false, s)
  | path, .opened alloc reopened content, s =>
      if alloc = false then some (false, s)
      else (foldersLoop path content s).bind fun s =>
        -- the folder has been closed, and `readdir` needs it open
        if reopened = false then none
        else (filesLoop menu hideExtensions path content s).bind fun t =>
          (sortFrom s.browser.numEntries t).map fun t => (true, t)

/-- The first loop of `EnqueueFolder`, over the folders. -/
def foldersLoop : Text → Content → Music → Option Music
  | _, .nil, s => some s
  | path, .file _ _ _ rest, s => foldersLoop path rest s
  | path, .folder name sub rest, s =>
      if skipped path name then foldersLoop path rest s
      else (enqueueFolder (filePath path name) sub s).bind fun (ok, s) =>
        if ok then foldersLoop path rest s else some s

end

/-- `MusicPlaylistEnqueue`: the entry is a folder, or a file. Its `fullpath` has a byte more than the
other ones. -/
def musicPlaylistEnqueue (dir : Text) (type : EntryType) (file : Text) (folder : Folder)
    (list : Option (List (Item × Supply))) (a : Supply) (s : Music) : Option (Bool × Music) :=
  (fullPathIn (maxPathLen + 1) dir file).bind fun fullpath =>
    if type = .folder then enqueueFolder menu hideExtensions fullpath folder s
    else (enqueueFile menu hideExtensions (some fullpath) list a s).map fun r =>
      (decide (r.1 = 1), r.2)

end Functions

/-! ## The songs that are put in -/

/-- The list of the playlist is `l`: its entries have paths, of which no two are the same, and texts
to show. -/
structure Playlist (s : Browser) (l : List Ptr) : Prop where
  songs : ∃ k, Songs s l k
  shown : ∀ p ∈ l, (s.entry p).display ≠ none
  distinct : (l.map fun p => (s.entry p).file).Nodup

/-- No entry has a position that a new one may get. -/
def Numbered (s : Browser) (l : List Ptr) : Prop := ∀ p ∈ l, (s.entry p).pos < s.numEntries

/-- The songs `new` are put behind `l`, and nothing else happens to the list. -/
structure Adds (s : Browser) (l : List Ptr) (t : Browser) (new : List Ptr) : Prop where
  playlist : Playlist t (l ++ new)
  kept : ∀ p ∈ l, t.entry p = s.entry p
  count : s.numEntries + new.length ≤ t.numEntries
  pos : ∀ p ∈ new, (s.numEntries : ℤ) ≤ (t.entry p).pos ∧ (t.entry p).pos < t.numEntries

variable {s t u : Browser} {l new more : List Ptr} {file display path : Text} {a : Supply} {r : Bool}
  {menu : Menu} {hide : Bool} {m m' : Music}

/-- The entries of a playlist are the list of the browser. -/
theorem Playlist.listed (h : Playlist s l) : Listed s l := h.songs.choose_spec.toListed

/-- A file that is not in the playlist has no entry in it. -/
theorem Playlist.not_mem_names (h : Playlist s l) (hfile : file ∉ names s) :
    some file ∉ l.map fun p => (s.entry p).file := fun hmem => by
  obtain ⟨p, hp, heq⟩ := List.mem_map.mp hmem
  exact hfile ((mem_names_iff h.listed).mpr ⟨p, hp, heq⟩)

namespace Adds

/-- Nothing has been put in. -/
theorem refl (h : Playlist s l) : Adds s l s [] where
  playlist := by rwa [List.append_nil]
  kept _ _ := rfl
  count := le_rfl
  pos := nofun

/-- What is put in by two calls is put in one behind the other. -/
theorem trans (h : Adds s l t new) (h' : Adds t (l ++ new) u more) : Adds s l u (new ++ more) where
  playlist := by
    rw [← List.append_assoc]
    exact h'.playlist
  kept p hp := (h'.kept p (List.mem_append_left new hp)).trans (h.kept p hp)
  count := by
    rw [List.length_append]
    exact (Nat.le_of_eq (Nat.add_assoc _ _ _).symm).trans
      ((Nat.add_le_add_right h.count _).trans h'.count)
  pos p hp := by
    have hs := h.count
    have ht := h'.count
    rcases List.mem_append.mp hp with hp | hp
    · rw [h'.kept p (List.mem_append_right l hp)]
      have hpos := h.pos p hp
      omega
    · have hpos := h'.pos p hp
      omega

/-- The entries of old keep their positions, and the new ones get the next ones. -/
theorem numbered (h : Adds s l t new) (hnum : Numbered s l) : Numbered t (l ++ new) := fun p hp => by
  rcases List.mem_append.mp hp with hp | hp
  · have hpos := hnum p hp
    have hcount := h.count
    rw [h.kept p hp]
    omega
  · exact (h.pos p hp).2

end Adds

/-- A song is put in behind the list, or nothing is. -/
theorem addSong_adds (h : Playlist s l) (hfile : file ∉ names s)
    (hadd : addSong file display a s = some (r, t)) : ∃ new, Adds s l t new := by
  obtain ⟨k, hsongs⟩ := h.songs
  obtain ⟨-, hspec⟩ := addSong_spec hsongs hadd
  obtain ⟨-, hnum, hkept, hlisted⟩ := addSong_added h.listed hadd
  have hpaths : l.map (fun q => (t.entry q).file) = l.map fun q => (s.entry q).file :=
    List.map_congr_left fun q hq => by rw [hkept q hq]
  have hshown : ∀ q ∈ l, (t.entry q).display ≠ none := fun q hq => by
    rw [hkept q hq]
    exact h.shown q hq
  -- With memory for the song one entry is added; without it none is listed.
  cases hserves : a.serves with
  | true =>
      rw [hserves, if_pos rfl] at hspec hlisted
      obtain ⟨p, -, ht, hentry⟩ := hlisted
      obtain ⟨p', hsongs', -⟩ := hspec
      obtain rfl := List.singleton_inj.mp (List.append_cancel_left (ht.unique hsongs'.toListed))
      have hnew : a.new ≠ none := fun hnone => by
        rw [Supply.serves, hnone] at hserves
        cases hserves
      rw [if_neg hnew] at hnum
      refine ⟨[p], ⟨⟨k, hsongs'⟩, fun q hq => ?_, ?_⟩, hkept, hnum.ge, fun q hq => ?_⟩
      · rcases List.mem_append.mp hq with hq | hq
        · exact hshown q hq
        · rw [List.mem_singleton.mp hq, hentry]
          exact Option.some_ne_none _
      -- the song was not in the playlist, so the paths stay distinct
      · rw [List.map_append, hpaths, List.map_singleton, hentry]
        refine h.distinct.append (List.nodup_singleton _) ?_
        exact List.disjoint_singleton.mpr (h.not_mem_names hfile)
      · rw [List.mem_singleton.mp hq, hentry]
        refine ⟨le_rfl, ?_⟩
        show (s.numEntries : ℤ) < t.numEntries
        omega
  | false =>
      rw [hserves, if_neg Bool.false_ne_true] at hspec hlisted
      have hplaylist : Playlist t l := ⟨⟨_, hspec⟩, hshown, hpaths ▸ h.distinct⟩
      rw [← List.append_nil l] at hplaylist
      exact ⟨[], hplaylist, hkept, hnum ▸ Nat.le_add_right _ _, fun q hq => by cases hq⟩

/-- The loop over an online listing puts its songs in behind the list. -/
theorem enqueueLoop_adds {items : List (Item × Supply)} (h : Playlist s l)
    (hrun : enqueueLoop menu hide items s = some (r, t)) : ∃ new, Adds s l t new := by
  induction items generalizing s l with
  | nil =>
      cases hrun
      exact ⟨[], .refl h⟩
  | cons e items ih =>
      obtain ⟨i, a⟩ := e
      rw [enqueueLoop] at hrun
      rcases hpath : i.path? menu with _ | file
      · rw [hpath] at hrun
        exact ih h hrun
      simp only [hpath, musicPlaylistFindIndex_eq h.listed, Option.bind_some] at hrun
      rcases hfind : l.find? fun p => decide ((s.entry p).file = some file) with _ | q
      · have hnew := (findIndex_eq_none_iff h.listed).mp hfind
        simp only [hfind] at hrun
        obtain ⟨⟨r₁, s₁⟩, hadd, hrest⟩ := Option.bind_eq_some_iff.mp hrun
        obtain ⟨new, hadds⟩ := addSong_adds h hnew hadd
        cases r₁ with
        | false =>
            cases hrest
            exact ⟨new, hadds⟩
        | true =>
            obtain ⟨more, hmore⟩ := ih hadds.playlist hrest
            exact ⟨new ++ more, hadds.trans hmore⟩
      · rw [hfind] at hrun
        exact ih h hrun

/-- `EnqueueFile` puts songs behind the others. -/
theorem enqueueFile_adds {path : Option Text} {list : Option (List (Item × Supply))} {v : ℤ}
    (h : Playlist m.browser l) (hrun : enqueueFile menu hide path list a m = some (v, m')) :
    ∃ new, Adds m.browser l m'.browser new := by
  -- Two ways out: nothing happens, or what has been added is kept in the order.
  have hidle : some ((0 : ℤ), m) = some (v, m') → ∃ new, Adds m.browser l m'.browser new := by
    intro heq
    cases heq
    exact ⟨[], .refl h⟩
  have hend : ∀ {b : Bool × Browser} {new : List Ptr}, Adds m.browser l b.2 new →
      m.enqueued b = (v, m') → ∃ new, Adds m.browser l m'.browser new := by
    intro b new hb heq
    rw [Music.enqueued] at heq
    split_ifs at heq
    · cases heq
      exact ⟨new, hb⟩
    · cases heq
      exact ⟨new, hb⟩
  rcases path with _ | path
  · exact hidle hrun
  simp only [enqueueFile, musicPlaylistFindIndex_eq h.listed, Option.bind_some] at hrun
  rcases hfind : l.find? fun p => decide ((m.browser.entry p).file = some path) with _ | q
  · have hnew := (findIndex_eq_none_iff h.listed).mp hfind
    simp only [hfind] at hrun
    -- neither playable nor a playlist; a playlist; one song
    split_ifs at hrun with hext hplaylist
    · exact hidle hrun
    · rcases list with _ | items
      · exact hidle hrun
      · obtain ⟨⟨r, b⟩, hloop, heq⟩ := Option.map_eq_some_iff.mp hrun
        obtain ⟨new, hadds⟩ := enqueueLoop_adds h hloop
        exact hend hadds heq
    · obtain ⟨⟨r, b⟩, hadd, heq⟩ := Option.map_eq_some_iff.mp hrun
      obtain ⟨new, hadds⟩ := addSong_adds h hnew hadd
      exact hend hadds heq
  · rw [hfind] at hrun
    exact hidle hrun

/-- The loop over the files of a folder puts its songs in behind the list. -/
theorem filesLoop_adds {l : List Ptr} {m : Music} (content : Content) (h : Playlist m.browser l)
    (hrun : filesLoop menu hide path content m = some m') :
    ∃ new, Adds m.browser l m'.browser new := by
  match content with
  | .nil =>
      cases hrun
      exact ⟨[], .refl h⟩
  | .folder _ _ rest => exact filesLoop_adds rest h hrun
  | .file name list a rest =>
      rw [filesLoop] at hrun
      split_ifs at hrun
      · exact filesLoop_adds rest h hrun
      obtain ⟨⟨v, m₁⟩, hfile, hrest⟩ := Option.bind_eq_some_iff.mp hrun
      obtain ⟨new, hadds⟩ := enqueueFile_adds h hfile
      simp only at hrest
      split_ifs at hrest
      · cases hrest
        exact ⟨new, hadds⟩
      · obtain ⟨more, hmore⟩ := filesLoop_adds rest hadds.playlist hrest
        exact ⟨new ++ more, hadds.trans hmore⟩

/-! ## The sorting -/

/-- The order of the texts shown, where upper and lower case are the same. -/
def byDisplay (s : Browser) (p q : Ptr) : Bool :=
  decide (folded ((s.entry p).display.getD []) ≤ folded ((s.entry q).display.getD []))

/-- The comparison of the shown names is total. -/
theorem byDisplay_totalOn (s : Browser) (l : List Ptr) : TotalOn (byDisplay s) l where
  trans p _ q _ r _ hpq hqr := by
    simp only [byDisplay, decide_eq_true_iff] at hpq hqr ⊢
    exact hpq.trans hqr
  total p _ q _ := by
    simp only [byDisplay, Bool.or_eq_true, decide_eq_true_iff]
    exact le_total _ _

/-- The list changes, but not what its entries are. -/
def Same (s : Browser) (l : List Ptr) (t : Browser) : Prop :=
  ∀ p ∈ l, (t.entry p).file = (s.entry p).file ∧ (t.entry p).display = (s.entry p).display

/-- A playlist in another order. -/
theorem Playlist.perm {l' : List Ptr} (h : Playlist s l) (hsame : Same s l t) (ht : Listed t l')
    (hperm : l'.Perm l) (hcount : t.numEntries = s.numEntries) : Playlist t l' := by
  obtain ⟨k, hsongs⟩ := h.songs
  refine ⟨⟨k, ht, fun p hp => ?_, ?_⟩, fun p hp => ?_, ?_⟩
  · rw [(hsame p (hperm.mem_iff.mp hp)).1]
    exact hsongs.named p (hperm.mem_iff.mp hp)
  · rw [hcount, hsongs.numEntries_eq, hperm.length_eq]
  · rw [(hsame p (hperm.mem_iff.mp hp)).2]
    exact h.shown p (hperm.mem_iff.mp hp)
  · have hpaths : l'.map (fun p => (t.entry p).file) = l'.map fun p => (s.entry p).file :=
      List.map_congr_left fun p hp => (hsame p (hperm.mem_iff.mp hp)).1
    rw [hpaths]
    exact (hperm.map _).nodup_iff.mpr h.distinct

/-- Sorting leaves a playlist, and numbers its entries. -/
theorem sortBrowser_playlist {comparator : Entry → Entry → ℤ} (h : Playlist s l)
    (hsort : sortBrowser comparator s = some t) :
    Playlist t (sorted comparator s l) ∧ Same s l t ∧
      (Numbered s l → Numbered t (sorted comparator s l)) := by
  obtain ⟨t', hsort', hlisted, hnum, -, -, hentry⟩ := sortBrowser_spec comparator h.listed
  obtain rfl := Option.some.inj (hsort'.symm.trans hsort)
  have hperm := sorted_perm comparator s l
  obtain ⟨k, hsongs⟩ := h.songs
  by_cases hlen : 2 ≤ l.length
  · rw [if_pos hlen] at hentry
    have hsame : Same s l t' := fun p hp => by
      obtain ⟨n, hn⟩ := List.mem_iff_getElem?.mp (hperm.mem_iff.mpr hp)
      rw [hentry.1 n p hn]
      exact ⟨rfl, rfl⟩
    refine ⟨h.perm hsame hlisted hperm hnum, hsame, fun _ p hp => ?_⟩
    obtain ⟨n, hn⟩ := List.mem_iff_getElem?.mp hp
    have hlt := (List.getElem?_eq_some_iff.mp hn).1
    rw [hperm.length_eq] at hlt
    rw [hentry.1 n p hn, hnum, hsongs.numEntries_eq]
    show (n : ℤ) < _
    omega
  · rw [if_neg hlen] at hentry
    subst hentry
    have hsorted : sorted comparator t' l = l := sorted_eq_self (by omega)
    rw [hsorted]
    exact ⟨h, fun _ _ => ⟨rfl, rfl⟩, id⟩

/-- Sorting the new songs keeps the playlist. -/
theorem sortFrom_playlist {start : ℤ} (h : Playlist m.browser l)
    (hrun : sortFrom start m = some m') :
    ∃ l', Playlist m'.browser l' ∧ Same m.browser l m'.browser ∧
      (Numbered m.browser l → Numbered m'.browser l') ∧
      l' = if 1 < m.browser.numEntries - start then
        sorted (musicSortCallback start (m.browser.numEntries - 1)) m.browser l else l := by
  unfold sortFrom at hrun
  split_ifs at hrun with hmany
  · obtain ⟨b, hsort, rfl⟩ := Option.map_eq_some_iff.mp hrun
    obtain ⟨hplaylist, hsame, hnum⟩ := sortBrowser_playlist h hsort
    exact ⟨_, hplaylist, hsame, hnum, (if_pos hmany).symm⟩
  · cases hrun
    exact ⟨l, h, fun _ _ => ⟨rfl, rfl⟩, id, (if_neg hmany).symm⟩

/-- Among the new songs the comparison is that of the shown names. -/
theorem musicSortCallback_eq {s : Browser} {start last : ℤ} {p q : Ptr}
    (hp : start ≤ (s.entry p).pos ∧ (s.entry p).pos ≤ last)
    (hq : start ≤ (s.entry q).pos ∧ (s.entry q).pos ≤ last)
    (hpshown : (s.entry p).display ≠ none) (hqshown : (s.entry q).display ≠ none) :
    leOf (musicSortCallback start last) s p q = byDisplay s p q := by
  obtain ⟨a, ha⟩ := Option.ne_none_iff_exists'.mp hpshown
  obtain ⟨b, hb⟩ := Option.ne_none_iff_exists'.mp hqshown
  have hin : ¬((s.entry p).pos < start ∨ last < (s.entry p).pos ∨ (s.entry q).pos < start ∨
      last < (s.entry q).pos) := by omega
  simp only [leOf, le, musicSortCallback, if_neg hin, ha, hb, byDisplay, Option.getD_some,
    decide_eq_decide]
  rw [← not_lt, (strcasecmp_sign a b).2, not_lt]

/-- The new songs are sorted, if no entry of old has the position of one of them. -/
theorem sorted_adds (hnum : Numbered s l) (hadds : Adds s l t new) :
    sorted (musicSortCallback s.numEntries (t.numEntries - 1)) t (l ++ new) =
      l ++ new.mergeSort (byDisplay t) := by
  have hnodup := hadds.playlist.listed.chain.nodup
  have hagree : ∀ p ∈ new, ∀ q ∈ new,
      leOf (musicSortCallback s.numEntries (t.numEntries - 1)) t p q = byDisplay t p q :=
    fun p hp q hq => by
      have hpp := hadds.pos p hp
      have hqq := hadds.pos q hq
      exact musicSortCallback_eq (by omega) (by omega)
        (hadds.playlist.shown p (List.mem_append_right l hp))
        (hadds.playlist.shown q (List.mem_append_right l hq))
  -- an entry of old compares with every entry as equal
  have hold : ∀ p ∈ l, ∀ q,
      leOf (musicSortCallback s.numEntries (t.numEntries - 1)) t p q = true := fun p hp q => by
    have hpos := hnum p hp
    rw [← hadds.kept p hp] at hpos
    rw [leOf, le, musicSortCallback, if_pos (Or.inl hpos)]
    rfl
  have htotal := byDisplay_totalOn t new
  rw [sorted, sortRuns_append (fun p hp hpn => (List.nodup_append.mp hnodup).2.2 p hp p hpn rfl)
    hold, mergeSort_congr hagree]
  refine ⟨fun p hp q hq r hr hpq hqr => ?_, fun p hp q hq => ?_⟩
  · rw [hagree p hp q hq] at hpq
    rw [hagree q hq r hr] at hqr
    rw [hagree p hp r hr]
    exact htotal.trans p hp q hq r hr hpq hqr
  · rw [hagree p hp q hq, hagree q hq p hp]
    exact htotal.total p hp q hq

/-- The end of `EnqueueFolder`, where no entry of old has the position of a new one. -/
theorem sortFrom_adds (hnum : Numbered s l) (hadds : Adds s l m.browser new)
    (hrun : sortFrom s.numEntries m = some m') :
    Playlist m'.browser (l ++ new.mergeSort (byDisplay m.browser)) ∧
      Numbered m'.browser (l ++ new.mergeSort (byDisplay m.browser)) ∧
      Same m.browser (l ++ new) m'.browser := by
  obtain ⟨l', hplaylist, hsame, hnumbered, hl'⟩ := sortFrom_playlist hadds.playlist hrun
  have hlist : l' = l ++ new.mergeSort (byDisplay m.browser) := by
    rw [hl']
    split_ifs with hmany
    · exact sorted_adds hnum hadds
    · -- at most one song is new
      have hcount := hadds.count
      have hle : new.length ≤ 1 := by omega
      rcases new with _ | ⟨p, _ | ⟨q, new⟩⟩
      · rw [List.mergeSort_nil]
      · rw [List.mergeSort_singleton]
      · exact absurd hle (by simp)
  rw [← hlist]
  exact ⟨hplaylist, hnumbered (hadds.numbered hnum), hsame⟩

/-! ## What a folder adds -/

section Ordered

variable (menu : Menu) (hide : Bool)

mutual

/-- `EnqueueFolder` makes the list `l'` of the list `l`: behind `l` stand the songs of the folders,
as the calls for them have left them, and behind these the files of the folder, sorted by what is
shown of them. -/
inductive Ordered : Text → Folder → Music → List Ptr → Music → List Ptr → Prop
  | closed {path : Text} {s : Music} {l : List Ptr} : Ordered path .closed s l s l
  | refused {path : Text} {reopened : Bool} {content : Content} {s : Music} {l : List Ptr} :
      Ordered path (.opened false reopened content) s l s l
  | opened {path : Text} {content : Content} {s s₁ s₂ t : Music} {l l₁ files : List Ptr}
      (hfolders : OrderedIn path content s l s₁ l₁)
      (hfiles : filesLoop menu hide path content s₁ = some s₂)
      (hlisted : Listed s₂.browser (l₁ ++ files)) (hsame : Same s₂.browser (l₁ ++ files) t.browser) :
      Ordered path (.opened true true content) s l t
        (l₁ ++ files.mergeSort (byDisplay s₂.browser))

/-- The first loop of `EnqueueFolder` makes the list `l'` of the list `l`: the calls for the folders
take place one after the other, until one fails. -/
inductive OrderedIn : Text → Content → Music → List Ptr → Music → List Ptr → Prop
  | nil {path : Text} {s : Music} {l : List Ptr} : OrderedIn path .nil s l s l
  | file {path name : Text} {list : Option (List (Item × Supply))} {a : Supply} {rest : Content}
      {s t : Music} {l l' : List Ptr} (hrest : OrderedIn path rest s l t l') :
      OrderedIn path (.file name list a rest) s l t l'
  | skip {path name : Text} {sub : Folder} {rest : Content} {s t : Music} {l l' : List Ptr}
      (hskip : skipped path name) (hrest : OrderedIn path rest s l t l') :
      OrderedIn path (.folder name sub rest) s l t l'
  | fail {path name : Text} {sub : Folder} {rest : Content} {s t : Music} {l l' : List Ptr}
      (hcall : enqueueFolder menu hide (filePath path name) sub s = some (false, t))
      (hsub : Ordered (filePath path name) sub s l t l') :
      OrderedIn path (.folder name sub rest) s l t l'
  | folder {path name : Text} {sub : Folder} {rest : Content} {s u t : Music}
      {l l₁ l' : List Ptr}
      (hcall : enqueueFolder menu hide (filePath path name) sub s = some (true, u))
      (hsub : Ordered (filePath path name) sub s l u l₁) (hbegins : l₁ <+: l')
      (hrest : OrderedIn path rest u l₁ t l') :
      OrderedIn path (.folder name sub rest) s l t l'

end

end Ordered

/-- The playlist has grown: the entries of old stand in front, in their order. -/
structure Grows (s : Browser) (l : List Ptr) (t : Browser) (l' : List Ptr) : Prop where
  numbered : Numbered t l'
  isPrefix : l <+: l'
  same : Same s l t

/-- A playlist grows by nothing. -/
theorem Grows.refl (hnum : Numbered s l) : Grows s l s l :=
  ⟨hnum, List.prefix_refl l, fun _ _ => ⟨rfl, rfl⟩⟩

/-- Growing twice is growing. -/
theorem Grows.trans {l' l'' : List Ptr} (h : Grows s l t l') (h' : Grows t l' u l'') :
    Grows s l u l'' where
  numbered := h'.numbered
  isPrefix := h.isPrefix.trans h'.isPrefix
  same p hp := by
    have hs := h.same p hp
    have ht := h'.same p (h.isPrefix.subset hp)
    exact ⟨ht.1.trans hs.1, ht.2.trans hs.2⟩

mutual

/-- `EnqueueFolder` leaves a playlist; it is the one that it should be, if no entry of old has the
position of a new one. -/
theorem enqueueFolder_spec {path : Text} {l : List Ptr} {m m' : Music} {r : Bool} (folder : Folder)
    (h : Playlist m.browser l)
    (hrun : enqueueFolder menu hide path folder m = some (r, m')) :
    ∃ l', Playlist m'.browser l' ∧ (Numbered m.browser l →
      Ordered menu hide path folder m l m' l' ∧ Grows m.browser l m'.browser l') := by
  match folder with
  | .closed =>
      cases hrun
      exact ⟨l, h, fun hnum => ⟨.closed, .refl hnum⟩⟩
  | .opened alloc reopened content =>
      rw [enqueueFolder] at hrun
      rcases alloc with _ | _
      · cases hrun
        exact ⟨l, h, fun hnum => ⟨.refused, .refl hnum⟩⟩
      obtain ⟨s₁, hfolders, hrun⟩ := Option.bind_eq_some_iff.mp hrun
      rcases reopened with _ | _
      · cases hrun
      obtain ⟨s₂, hfiles, hsort⟩ := Option.bind_eq_some_iff.mp hrun
      obtain ⟨t, hsort, heq⟩ := Option.map_eq_some_iff.mp hsort
      cases heq
      -- The folders come first, then the files of the folder itself, which are sorted.
      obtain ⟨l₁, h₁, hordered⟩ := foldersLoop_spec content h hfolders
      obtain ⟨files, hadds⟩ := filesLoop_adds content h₁ hfiles
      by_cases hnum : Numbered m.browser l
      · obtain ⟨hin, hgrows⟩ := hordered hnum
        obtain ⟨hplaylist, hnum', hsame⟩ := sortFrom_adds hgrows.numbered hadds hsort
        refine ⟨_, hplaylist, fun _ => ⟨.opened hin hfiles hadds.playlist.listed hsame,
          hgrows.trans ⟨hnum', List.prefix_append _ _, fun p hp => ?_⟩⟩⟩
        rw [← hadds.kept p hp]
        exact hsame p (List.mem_append_left files hp)
      · obtain ⟨l', hplaylist, -⟩ := sortFrom_playlist hadds.playlist hsort
        exact ⟨l', hplaylist, fun hnum' => absurd hnum' hnum⟩

/-- The loop over the folders of a folder puts their songs in, in order. -/
theorem foldersLoop_spec {path : Text} {l : List Ptr} {m m' : Music} (content : Content)
    (h : Playlist m.browser l) (hrun : foldersLoop menu hide path content m = some m') :
    ∃ l', Playlist m'.browser l' ∧ (Numbered m.browser l →
      OrderedIn menu hide path content m l m' l' ∧ Grows m.browser l m'.browser l') := by
  match content with
  | .nil =>
      cases hrun
      exact ⟨l, h, fun hnum => ⟨.nil, .refl hnum⟩⟩
  | .file name list a rest =>
      rw [foldersLoop] at hrun
      obtain ⟨l', h', hordered⟩ := foldersLoop_spec rest h hrun
      exact ⟨l', h', fun hnum => ⟨.file (hordered hnum).1, (hordered hnum).2⟩⟩
  | .folder name sub rest =>
      rw [foldersLoop] at hrun
      split_ifs at hrun with hskip
      · obtain ⟨l', h', hordered⟩ := foldersLoop_spec rest h hrun
        exact ⟨l', h', fun hnum => ⟨.skip hskip (hordered hnum).1, (hordered hnum).2⟩⟩
      obtain ⟨⟨ok, u⟩, hcall, hrest⟩ := Option.bind_eq_some_iff.mp hrun
      obtain ⟨l₁, h₁, hsub⟩ := enqueueFolder_spec sub h hcall
      rcases ok with _ | _
      · cases hrest
        exact ⟨l₁, h₁, fun hnum => ⟨.fail hcall (hsub hnum).1, (hsub hnum).2⟩⟩
      · obtain ⟨l', h', hordered⟩ := foldersLoop_spec rest h₁ hrest
        refine ⟨l', h', fun hnum => ?_⟩
        obtain ⟨hsub, hgrows⟩ := hsub hnum
        obtain ⟨hin, hgrows'⟩ := hordered hgrows.numbered
        exact ⟨.folder hcall hsub hgrows'.isPrefix hin, hgrows.trans hgrows'⟩

end

/-! ## Folders that can be opened again -/

mutual

/-- Every folder that is opened can be opened again. -/
def Folder.reopens : Folder → Bool
  | .closed => true
  | .opened _ reopened content => reopened && content.reopens

/-- Every folder among the entries can be opened again. -/
def Content.reopens : Content → Bool
  | .nil => true
  | .file _ _ _ rest => rest.reopens
  | .folder _ sub rest => sub.reopens && rest.reopens

end

/-- The addresses that the allocator answers for some items. -/
def addresses (items : List (Item × Supply)) : List Ptr := items.flatMap (·.2.new.toList)

/-- The addresses that it answers for the files of a folder. -/
def Content.fileAddresses : Content → List Ptr
  | .nil => []
  | .folder _ _ rest => rest.fileAddresses
  | .file _ list a rest => a.new.toList ++ addresses (list.getD []) ++ rest.fileAddresses

mutual

/-- The addresses that it answers for a folder, in the order of the two loops. -/
def Folder.addresses : Folder → List Ptr
  | .closed => []
  | .opened _ _ content => content.folderAddresses ++ content.fileAddresses

/-- The addresses that it answers for the folders in a folder. -/
def Content.folderAddresses : Content → List Ptr
  | .nil => []
  | .file _ _ _ rest => rest.folderAddresses
  | .folder _ sub rest => sub.addresses ++ rest.folderAddresses

end

/-- The addresses `as` are not in use, and none of them comes twice. -/
def Unused (s : Browser) (as : List Ptr) : Prop := (s.live ++ as).Nodup

variable {as bs : List Ptr}

/-- Fewer addresses are unused too. -/
theorem Unused.sublist (h : Unused s as) (hsub : bs.Sublist as) : Unused s bs :=
  List.Nodup.sublist (hsub.append_left s.live) h

/-- With fewer live entries the addresses stay unused. -/
theorem Unused.of_sublist (h : Unused s as) (hsub : t.live.Sublist s.live) : Unused t as :=
  List.Nodup.sublist (hsub.append_right as) h

/-- Reordering the live entries leaves the addresses unused. -/
theorem Unused.of_perm (h : Unused s as) (hperm : t.live.Perm s.live) : Unused t as :=
  (hperm.append_right as).nodup_iff.mpr h

/-- A song is put in or refused if its address is not in use. -/
theorem addSong_returns (file display : Text) (h : Listed s l) (hunused : Unused s (a.new.toList ++ as)) :
    ∃ r t, addSong file display a s = some (r, t) ∧ Unused t as := by
  obtain ⟨new, afile, adisplay⟩ := a
  cases new with
  | none => exact ⟨false, s, rfl, hunused⟩
  | some p =>
      have hp : p ∉ s.live := fun hmem =>
        (List.nodup_append.mp hunused).2.2 p hmem p List.mem_cons_self rfl
      obtain ⟨s₁, hnew, hlive⟩ : ∃ s₁, s.addEntry (some p) = some (some p, s₁) ∧
          s₁.live = p :: s.live := ⟨_, if_neg hp, rfl⟩
      obtain ⟨-, -, hlisted, -⟩ := addEntry_spec h hnew
      have hmem : p ∈ l ++ [p] := by simp
      have hunused₁ : Unused s₁ as := by
        rw [Unused, hlive]
        exact List.perm_middle.nodup_iff.mp hunused
      -- an entry that is taken back is not in use any more
      have hback : ∀ {u : Browser}, Listed u (l ++ [p]) → Unused u as → ∃ r t,
          (u.deleteEntry (some p)).map (fun r => (false, r.2)) = some (r, t) ∧ Unused t as := by
        intro u hu huas
        rw [deleteEntry_eq hu, if_pos hmem]
        exact ⟨false, _, rfl, huas.of_sublist List.erase_sublist⟩
      rw [addSong, hnew, Option.bind_some]
      cases afile with
      | false => exact hback hlisted hunused₁
      | true =>
          have hfill : ∀ shown : Option Text, ∃ u, s₁.fill p .file (some file) shown = some u ∧
              Listed u (l ++ [p]) ∧ Unused u as := by
            intro shown
            exact ⟨_, if_pos (hlisted.mem_live.mpr hmem), ⟨hlisted.chain, hlisted.live⟩, hunused₁⟩
          cases adisplay with
          | false =>
              obtain ⟨u, hu, hlist, huas⟩ := hfill none
              simp only [Bool.true_eq_false, if_false, if_true, hu, Option.bind_some]
              exact hback hlist huas
          | true =>
              obtain ⟨u, hu, -, huas⟩ := hfill (some display)
              simp only [Bool.true_eq_false, if_false, hu, Option.map_some]
              exact ⟨true, u, rfl, huas⟩

/-- The loop over an online listing comes to its end. -/
theorem enqueueLoop_returns (menu : Menu) (hide : Bool) {items : List (Item × Supply)}
    (h : Playlist s l) (hunused : Unused s (addresses items ++ as)) :
    ∃ r t, enqueueLoop menu hide items s = some (r, t) ∧ Unused t as := by
  induction items generalizing s l with
  | nil => exact ⟨true, s, rfl, hunused⟩
  | cons e items ih =>
      obtain ⟨i, a⟩ := e
      rw [addresses, List.flatMap_cons, List.append_assoc] at hunused
      have hpass : Unused s (addresses items ++ as) :=
        hunused.sublist (List.sublist_append_right _ _)
      rw [enqueueLoop]
      rcases i.path? menu with _ | file
      · exact ih h hpass
      simp only [musicPlaylistFindIndex_eq h.listed, Option.bind_some]
      rcases hfind : l.find? fun p => decide ((s.entry p).file = some file) with _ | q
      · have hnew := (findIndex_eq_none_iff h.listed).mp hfind
        obtain ⟨r, t, hadd, ht⟩ := addSong_returns file (i.display hide) h.listed hunused
        simp only [hadd, Option.bind_some]
        cases r with
        | false => exact ⟨false, t, rfl, ht.sublist (List.sublist_append_right _ _)⟩
        | true =>
            obtain ⟨new, hadds⟩ := addSong_adds h hnew hadd
            exact ih hadds.playlist ht
      · exact ih h hpass

/-- `EnqueueFile` returns if the addresses that it is given are not in use. -/
theorem enqueueFile_returns (menu : Menu) (hide : Bool) (path : Option Text)
    {list : Option (List (Item × Supply))} (h : Playlist m.browser l)
    (hunused : Unused m.browser (a.new.toList ++ addresses (list.getD []) ++ as)) :
    ∃ v m', enqueueFile menu hide path list a m = some (v, m') ∧ Unused m'.browser as := by
  have hidle : Unused m.browser as := hunused.sublist (List.sublist_append_right _ _)
  rw [List.append_assoc] at hunused
  -- The order is extended without any memory, so only the loops could get stuck.
  have hend : ∀ (r : Bool) (t : Browser), Unused t as → ∃ v m',
      some (m.enqueued (r, t)) = some (v, m') ∧ Unused m'.browser as := by
    intro r t ht
    cases r <;> exact ⟨_, _, rfl, ht⟩
  rcases path with _ | path
  · exact ⟨0, m, rfl, hidle⟩
  simp only [enqueueFile, musicPlaylistFindIndex_eq h.listed, Option.bind_some]
  rcases l.find? fun p => decide ((m.browser.entry p).file = some path) with _ | q
  · simp only
    split_ifs
    · exact ⟨0, m, rfl, hidle⟩
    · rcases list with _ | items
      · exact ⟨0, m, rfl, hidle⟩
      · have hitems : Unused m.browser (addresses items ++ as) :=
          hunused.sublist (List.sublist_append_right _ _)
        obtain ⟨r, t, hloop, ht⟩ := enqueueLoop_returns menu hide h hitems
        simp only [hloop, Option.map_some]
        exact hend r t ht
    · obtain ⟨r, t, hadd, ht⟩ := addSong_returns path (shownName hide path) h.listed hunused
      simp only [hadd, Option.map_some]
      exact hend r t (ht.sublist (List.sublist_append_right _ _))
  · exact ⟨0, m, rfl, hidle⟩

/-- The loop over the files of a folder comes to its end. -/
theorem filesLoop_returns {l : List Ptr} {m : Music} (menu : Menu) (hide : Bool) (path : Text)
    (content : Content) (h : Playlist m.browser l) (hunused : Unused m.browser (content.fileAddresses ++ as)) :
    ∃ m', filesLoop menu hide path content m = some m' ∧ Unused m'.browser as := by
  match content with
  | .nil => exact ⟨m, rfl, hunused⟩
  | .folder _ _ rest => exact filesLoop_returns menu hide path rest h hunused
  | .file name list a rest =>
      rw [Content.fileAddresses, List.append_assoc] at hunused
      rw [filesLoop]
      split_ifs
      · exact filesLoop_returns menu hide path rest h (hunused.sublist (List.sublist_append_right _ _))
      obtain ⟨v, m₁, hfile, hm₁⟩ := enqueueFile_returns menu hide (some (filePath path name)) h
        hunused
      simp only [hfile, Option.bind_some]
      split_ifs
      · exact ⟨m₁, rfl, hm₁.sublist (List.sublist_append_right _ _)⟩
      · obtain ⟨new, hadds⟩ := enqueueFile_adds h hfile
        exact filesLoop_returns menu hide path rest hadds.playlist hm₁

/-- The sorting comes to its end. -/
theorem sortFrom_returns (start : ℤ) (h : Playlist m.browser l) (hunused : Unused m.browser as) :
    ∃ m', sortFrom start m = some m' ∧ Unused m'.browser as := by
  unfold sortFrom
  split_ifs
  · obtain ⟨t, hsort, hlisted, -⟩ :=
      sortBrowser_spec (musicSortCallback start (m.browser.numEntries - 1)) h.listed
    rw [hsort, Option.map_some]
    have hperm := sorted_perm (musicSortCallback start (m.browser.numEntries - 1)) m.browser l
    exact ⟨_, rfl, hunused.of_perm ((hlisted.live.trans hperm).trans h.listed.live.symm)⟩
  · exact ⟨m, rfl, hunused⟩

mutual

/-- `EnqueueFolder` returns if every folder can be opened again and the addresses that it is given
are not in use. -/
theorem enqueueFolder_returns {l : List Ptr} {as : List Ptr} {m : Music} (menu : Menu) (hide : Bool)
    (path : Text) (folder : Folder) (h : Playlist m.browser l) (hopen : folder.reopens = true)
    (hunused : Unused m.browser (folder.addresses ++ as)) :
    ∃ r m', enqueueFolder menu hide path folder m = some (r, m') ∧ Unused m'.browser as := by
  match folder with
  | .closed => exact ⟨false, m, rfl, hunused⟩
  | .opened alloc reopened content =>
      obtain ⟨rfl, hcontent⟩ := Bool.and_eq_true_iff.mp hopen
      rw [Folder.addresses, List.append_assoc] at hunused
      rw [enqueueFolder]
      rcases alloc with _ | _
      · refine ⟨false, m, rfl, hunused.sublist ?_⟩
        exact (List.sublist_append_right _ _).trans (List.sublist_append_right _ _)
      obtain ⟨s₁, hfolders, hs₁⟩ := foldersLoop_returns menu hide path content h hcontent
        hunused
      obtain ⟨l₁, h₁, -⟩ := foldersLoop_spec content h hfolders
      obtain ⟨s₂, hfiles, hs₂⟩ := filesLoop_returns menu hide path content h₁ hs₁
      obtain ⟨files, hadds⟩ := filesLoop_adds content h₁ hfiles
      obtain ⟨t, hsort, ht⟩ := sortFrom_returns s₁.browser.numEntries hadds.playlist hs₂
      refine ⟨true, t, ?_, ht⟩
      simp only [Bool.true_eq_false, if_false, hfolders, Option.bind_some, hfiles, hsort,
        Option.map_some]

/-- The loop over the folders comes to its end, if each of them can be opened again. -/
theorem foldersLoop_returns {l : List Ptr} {as : List Ptr} {m : Music} (menu : Menu) (hide : Bool)
    (path : Text) (content : Content) (h : Playlist m.browser l) (hopen : content.reopens = true)
    (hunused : Unused m.browser (content.folderAddresses ++ as)) :
    ∃ m', foldersLoop menu hide path content m = some m' ∧ Unused m'.browser as := by
  match content with
  | .nil => exact ⟨m, rfl, hunused⟩
  | .file _ _ _ rest => exact foldersLoop_returns menu hide path rest h hopen hunused
  | .folder name sub rest =>
      obtain ⟨hsub, hrest⟩ := Bool.and_eq_true_iff.mp hopen
      rw [Content.folderAddresses, List.append_assoc] at hunused
      rw [foldersLoop]
      split_ifs
      · exact foldersLoop_returns menu hide path rest h hrest (hunused.sublist (List.sublist_append_right _ _))
      obtain ⟨ok, u, hcall, hu⟩ := enqueueFolder_returns menu hide (filePath path name) sub h hsub
        hunused
      obtain ⟨l₁, h₁, -⟩ := enqueueFolder_spec sub h hcall
      rw [hcall, Option.bind_some]
      rcases ok with _ | _
      · exact ⟨u, rfl, hu.sublist (List.sublist_append_right _ _)⟩
      · exact foldersLoop_returns menu hide path rest h₁ hrest hu

end

end WiiMC.Browser
