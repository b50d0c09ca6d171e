import WiiMC.Browser.Invariant
import Mathlib.Data.Prod.Lex

/-!
# Listing a directory

`fileop.cpp`: `ParseDirEntries` appends up to 20 entries of a directory to the browser and sorts
it, and is called until the directory ends. What the entries look like on the screen is left out.

* `fileSortCallback_sign`: the comparator is the order of `place`.
* `parseAll_inStep`: sorting after each batch leaves the order of sorting once.
* `sortBrowser_stable`: sorting, the comparator, and sorting in batches.
-/

namespace WiiMC.Browser

open Bytes Linked Player StableSort

/-! ## The comparator -/

/-- `FileSortCallback`. -/
def fileSortCallback (f1 f2 : Entry) : ℤ :=
  match f1.file, f2.file with
  | some a, some b =>
      let special := a.head? = some 46 ∨ b.head? = some 46
      if special ∧ a = ascii "." then -1
      else if special ∧ b = ascii "." then 1
      else if special ∧ a = ascii ".." then -1
      else if special ∧ b = ascii ".." then 1
      else if f1.type = .folder ∧ ¬ f2.type = .folder then -1
      else if ¬ f1.type = .folder ∧ f2.type = .folder then 1
      else strcasecmp a b
  | _, _ => -1

/-- `.`, `..`, the folders, the files. -/
def rank (type : EntryType) (name : Text) : ℕ :=
  if name = ascii "." then 0
  else if name = ascii ".." then 1
  else if type = .folder then 2
  else 3

/-- Where an entry belongs: within the folders and within the files the name decides. -/
def place (e : Entry) : ℕ ×ₗ List ℕ :=
  toLex (rank e.type (e.file.getD []),
    if rank e.type (e.file.getD []) < 2 then [] else folded (e.file.getD []))

/-- Both entries are `.`, or both are `..`. -/
def SameDots (f1 f2 : Entry) : Prop :=
  f1.file = f2.file ∧ (f1.file = some (ascii ".") ∨ f1.file = some (ascii ".."))

/-- The sign of the comparator is the order of the places. -/
theorem fileSortCallback_sign {f1 f2 : Entry} (h1 : f1.file ≠ none) (h2 : f2.file ≠ none)
    (hdots : ¬ SameDots f1 f2) :
    (fileSortCallback f1 f2 < 0 ↔ place f1 < place f2) ∧
      (0 < fileSortCallback f1 f2 ↔ place f2 < place f1) := by
  obtain ⟨a, ha⟩ := Option.ne_none_iff_exists'.mp h1
  obtain ⟨b, hb⟩ := Option.ne_none_iff_exists'.mp h2
  have hne : ascii ".." ≠ ascii "." := by decide
  have hdot : (ascii ".").head? = some 46 := rfl
  have hdots' : (ascii "..").head? = some 46 := rfl
  simp only [SameDots, ha, hb, Option.some.injEq] at hdots
  simp only [fileSortCallback, ha, hb, place, Option.getD_some, Prod.Lex.toLex_lt_toLex]
  by_cases ha0 : a = ascii "."
  · have hb0 : b ≠ ascii "." := fun h => hdots ⟨ha0.trans h.symm, .inl ha0⟩
    subst ha0
    by_cases hb1 : b = ascii ".."
    · subst hb1
      simp [rank, hdot, hne]
    · by_cases hfolder : f2.type = .folder <;> simp [rank, hdot, hb0, hb1, hfolder]
  by_cases hb0 : b = ascii "."
  · subst hb0
    by_cases ha1 : a = ascii ".."
    · subst ha1
      simp [rank, hdot, hne]
    · by_cases hfolder : f1.type = .folder <;> simp [rank, hdot, ha0, ha1, hfolder]
  by_cases ha1 : a = ascii ".."
  · have hb1 : b ≠ ascii ".." := fun h => hdots ⟨ha1.trans h.symm, .inr ha1⟩
    subst ha1
    by_cases hfolder : f2.type = .folder <;> simp [rank, hdots', hne, hb0, hb1, hfolder]
  by_cases hb1 : b = ascii ".."
  · subst hb1
    by_cases hfolder : f1.type = .folder <;> simp [rank, hdots', hne, ha0, ha1, hfolder]
  -- neither name is special: the types come first, then the names
  obtain ⟨hlt, hgt⟩ := strcasecmp_sign a b
  by_cases hf1 : f1.type = .folder <;> by_cases hf2 : f2.type = .folder <;>
    simp [rank, ha0, ha1, hb0, hb1, hf1, hf2, hlt, hgt]

/-- Two entries with the same dots have the same place, and are compared as in order. -/
theorem place_eq_of_sameDots {f1 f2 : Entry} (h : SameDots f1 f2) :
    place f1 = place f2 ∧ fileSortCallback f1 f2 = -1 := by
  obtain ⟨heq, h1 | h1⟩ := h
  · have h2 := heq.symm.trans h1
    simp only [place, fileSortCallback, h1, h2]
    exact ⟨rfl, rfl⟩
  · have h2 := heq.symm.trans h1
    simp only [place, fileSortCallback, h1, h2]
    exact ⟨rfl, rfl⟩

/-- The comparison is that of the places. -/
theorem fileSortCallback_le_iff {f1 f2 : Entry} (h1 : f1.file ≠ none) (h2 : f2.file ≠ none) :
    fileSortCallback f1 f2 ≤ 0 ↔ place f1 ≤ place f2 := by
  by_cases hdots : SameDots f1 f2
  · obtain ⟨hplace, hval⟩ := place_eq_of_sameDots hdots
    rw [hval, hplace]
    simp
  · rw [← not_lt, (fileSortCallback_sign h1 h2 hdots).2, not_lt]

/-- On entries with names the comparator is a total preorder. -/
theorem totalOn_fileSortCallback {α : Type*} (entry : α → Entry) {l : List α}
    (hnamed : ∀ a ∈ l, (entry a).file ≠ none) :
    TotalOn (fun a b => decide (fileSortCallback (entry a) (entry b) ≤ 0)) l := by
  have hle : ∀ a ∈ l, ∀ b ∈ l,
      decide (fileSortCallback (entry a) (entry b) ≤ 0) = true ↔ place (entry a) ≤ place (entry b) :=
    fun a ha b hb => by
      rw [decide_eq_true_iff, fileSortCallback_le_iff (hnamed a ha) (hnamed b hb)]
  refine ⟨fun a ha b hb c hc hab hbc => ?_, fun a ha b hb => ?_⟩
  · rw [hle a ha b hb] at hab
    rw [hle b hb c hc] at hbc
    exact (hle a ha c hc).mpr (hab.trans hbc)
  · rw [Bool.or_eq_true, hle a ha b hb, hle b hb a ha]
    exact le_total _ _

/-- The comparison is total on entries with names. -/
theorem fileSortCallback_totalOn {s : Browser} {l : List Ptr}
    (hnamed : ∀ p ∈ l, (s.entry p).file ≠ none) : TotalOn (leOf fileSortCallback s) l :=
  totalOn_fileSortCallback s.entry hnamed

/-! ## Reading the directory -/

/-- `menuCurrent`. -/
inductive Menu
  | videos | music | onlineMedia | other
  deriving DecidableEq

/-- `validVideoExtensions`. -/
def validVideoExtensions : List Text := ["avi", "mov", "thp"].map ascii

/-- `validPlaylistExtensions`. -/
def validPlaylistExtensions : List Text := ["asx", "m3u", "pls", "plx", "ram", "smil"].map ascii

/-- `validSubtitleExtensions`. -/
def validSubtitleExtensions : List Text := ["sub", "srt", "ssa", "ass"].map ascii

/-- `IsVideoExt`. -/
def isVideoExt (ext : Text) : Bool := ext ≠ [] && validVideoExtensions.any (eqNoCase ext)

/-- `IsPlaylistExt`. -/
def isPlaylistExt (ext : Text) : Bool := ext ≠ [] && validPlaylistExtensions.any (eqNoCase ext)

/-- `IsSubtitleExt`. -/
def isSubtitleExt (ext : Text) : Bool := ext ≠ [] && validSubtitleExtensions.any (eqNoCase ext)

/-- `IsAllowedExt`. -/
def isAllowedExt (menu : Menu) (ext : Text) : Bool :=
  ext ≠ [] &&
    ((menu = .videos ∨ menu = .onlineMedia) && isVideoExt ext ||
      (menu = .music ∨ menu = .onlineMedia) && isAudioExt ext)

/-- `dirent`. -/
structure Dirent where
  name : Text
  isDir : Bool

/-- What the allocator answers while an entry of the directory is listed: whether a subtitle can
be noted, the address of the new entry, and whether the name and the text shown can be copied. -/
structure Memory where
  subs : Bool
  new : Option Ptr
  file : Bool
  display : Bool

/-- An entry of the directory is added to the browser; `false` means that there is no memory. -/
def addFile (d : Dirent) (m : Memory) (s : Browser) : Option (Bool × Browser) :=
  (s.addEntry m.new).bind fun
    | (none, s) => some (false, s)
    | (some p, s) =>
        if m.file = false then (s.deleteEntry (some p)).map fun r => (false, r.2)
        else if d.isDir ∧ m.display = false then
          ((s.fill p .folder (some d.name) none).bind fun s => s.deleteEntry (some p)).map
            fun r => (false, r.2)
        else
          (s.fill p
            (if d.isDir then .folder else if isPlaylistExt (getExt d.name) then .playlist else .file)
            (some d.name) (if d.isDir then some (d.name.take 254) else none)).map fun s => (true, s)

/-- Where the loop of `ParseDirEntries` has stopped. -/
structure Batch where
  /-- How many entries have been added. -/
  added : ℕ
  /-- Whether there are more entries. -/
  more : Bool
  /-- What `readdir` is going to return. -/
  rest : List (Dirent × Memory)
  browser : Browser

/-- The loop of `ParseDirEntries`; `halt k` is `parseHalt` when it is looked at for the `k`-th time,
and `ended` says whether `entry` is NULL. Behind the loop `parseHalt` is looked at once more. -/
def readLoop (menu : Menu) (halt : ℕ → Bool) :
    List (Dirent × Memory) → ℕ → ℕ → Bool → Browser → Option Batch
  | rest, k, i, ended, s =>
      if 20 ≤ i ∨ halt k then some ⟨i, !(ended || halt (k + 1)), rest, s⟩
      else match rest with
      | [] => some ⟨i, false, [], s⟩
      | (d, m) :: rest =>
          if d.name.head? = some 46 ∨ d.name.head? = some 36 then
            readLoop menu halt rest (k + 1) i false s
          else if d.isDir = false ∧ menu = .videos ∧ isSubtitleExt (getExt d.name) ∧ m.subs = false
          then some ⟨i, false, rest, s⟩
          else if d.isDir = false ∧ isAllowedExt menu (getExt d.name) = false ∧
              isPlaylistExt (getExt d.name) = false then
            readLoop menu halt rest (k + 1) i false s
          else
            (addFile d m s).bind fun
              | (true, s) => readLoop menu halt rest (k + 1) (i + 1) false s
              | (false, s) => some ⟨i, false, rest, s⟩

/-- `ParseDirEntries`; with `sorting` off the entries are not sorted. -/
def parseDirEntries (sorting : Bool) (menu : Menu) (halt : ℕ → Bool)
    (rest : List (Dirent × Memory)) (s : Browser) : Option Batch :=
  (readLoop menu halt rest 0 0 true s).bind fun b =>
    if sorting ∧ 0 < b.added then
      (b.browser.sortBrowser fileSortCallback).map fun s => { b with browser := s }
    else some b

/-- The calls of `ParseDirEntries` until one of them says that there are no more entries. -/
def parseAll (sorting : Bool) (menu : Menu) :
    List (ℕ → Bool) → List (Dirent × Memory) → Browser → Option Browser
  | [], _, s => some s
  | halt :: halts, rest, s =>
      (parseDirEntries sorting menu halt rest s).bind fun b =>
        if b.more then parseAll sorting menu halts b.rest b.browser else some b.browser

/-! ## What has been read -/

/-- An entry without its position. -/
def Entry.content (e : Entry) : EntryType × Option Text × Option Text := (e.type, e.file, e.display)

/-- What an entry of the directory becomes. -/
def Dirent.content (d : Dirent) : EntryType × Option Text × Option Text :=
  (if d.isDir then .folder else if isPlaylistExt (getExt d.name) then .playlist else .file,
    some d.name, if d.isDir then some (d.name.take 254) else none)

/-- There is memory for the entry. -/
def Memory.serves (m : Memory) (d : Dirent) : Bool :=
  m.new.isSome && m.file && (!d.isDir || m.display)

variable {s t u : Browser} {l l' : List Ptr} {d : Dirent} {m : Memory}

/-- An entry that is added and deleted leaves the list as it was. -/
theorem delete_last {p : Ptr} (h : Listed s (l ++ [p])) :
    ∃ t, s.deleteEntry (some p) = some (true, t) ∧ Listed t l ∧ t.entry = s.entry := by
  refine ⟨s.unlinkFound p, ?_, ?_, rfl⟩
  · rw [deleteEntry_eq h, if_pos (by simp)]
  · have hlisted := listed_unlinkFound (show Listed s (l ++ p :: []) from h)
    rwa [List.append_nil] at hlisted

/-- Filling an entry stores its fields. -/
theorem fill_spec {p : Ptr} (type : EntryType) (file display : Option Text) (h : Listed s l)
    (hp : p ∈ l) : ∃ t, s.fill p type file display = some t ∧ Listed t l ∧
      t.entry = Function.update s.entry p { s.entry p with type, file, display } :=
  ⟨_, if_pos (h.mem_live.mpr hp), ⟨h.chain, h.live⟩, rfl⟩

/-- An entry of the directory is added, unless there is no memory for it. -/
theorem addFile_spec (h : Listed s l) (hfresh : ∀ p ∈ m.new, p ∉ l) :
    ∃ t, addFile d m s = some (m.serves d, t) ∧ (∀ q ∈ l, t.entry q = s.entry q) ∧
      if m.serves d then ∃ p, m.new = some p ∧ Listed t (l ++ [p]) ∧ (t.entry p).content = d.content
      else Listed t l := by
  obtain ⟨subs, new, file, display⟩ := m
  cases new with
  | none => exact ⟨s, rfl, fun q _ => rfl, h⟩
  | some p =>
      have hp : p ∉ l := hfresh p rfl
      obtain ⟨⟨r, s₁⟩, hadd⟩ : ∃ r, s.addEntry (some p) = some r :=
        ⟨_, if_neg fun hlive => hp (h.mem_live.mp hlive)⟩
      obtain ⟨-, rfl, hlisted, -, -, hentry⟩ := addEntry_spec h hadd
      -- What is stored goes to the new entry, so the listed ones keep theirs.
      have hold : ∀ q ∈ l, s₁.entry q = s.entry q := fun q hq => by
        rw [hentry, Function.update_of_ne (by rintro rfl; exact hp hq)]
      have hfilled : ∀ {t : Browser} {type : EntryType} {name shown : Option Text},
          t.entry = Function.update s₁.entry p
            { s₁.entry p with type, file := name, display := shown } →
          ∀ q ∈ l, t.entry q = s.entry q := fun ht q hq => by
        rw [ht, Function.update_of_ne (by rintro rfl; exact hp hq), hold q hq]
      rw [addFile, hadd, Option.bind_some]
      cases file with
      | false =>
          obtain ⟨t, hdelete, ht, hsame⟩ := delete_last hlisted
          refine ⟨t, ?_, fun q hq => hsame ▸ hold q hq, ht⟩
          simp only [if_pos, hdelete, Option.map_some]
          rfl
      | true =>
          by_cases hdisplay : d.isDir = true ∧ display = false
          -- no memory for the display name: the filled entry is deleted again
          · obtain ⟨hdir, rfl⟩ := hdisplay
            obtain ⟨s₂, hfill, hlisted₂, hentry₂⟩ := fill_spec .folder (some d.name)
              none hlisted (by simp : p ∈ l ++ [p])
            obtain ⟨t, hdelete, ht, hsame⟩ := delete_last hlisted₂
            have hserves : Memory.serves ⟨subs, some p, true, false⟩ d = false := by
              simp [Memory.serves, hdir]
            refine ⟨t, ?_, hfilled (hsame ▸ hentry₂), by rwa [hserves]⟩
            simp only [hdir, hfill, hdelete, hserves, Option.bind_some, Option.map_some,
              and_self, if_true, reduceCtorEq, if_false]
          -- the entry is complete
          · obtain ⟨t, hfill, ht, hentry₂⟩ := fill_spec
              (if d.isDir then .folder
                else if isPlaylistExt (getExt d.name) then .playlist else .file)
              (some d.name) (if d.isDir then some (d.name.take 254) else none) hlisted
              (by simp : p ∈ l ++ [p])
            have hserves : Memory.serves ⟨subs, some p, true, display⟩ d = true := by
              cases hdir : d.isDir <;> cases hshown : display <;> simp_all [Memory.serves]
            refine ⟨t, ?_, hfilled hentry₂, ?_⟩
            · simp only [hdisplay, hfill, hserves, Option.map_some, reduceCtorEq, if_false]
            · rw [if_pos hserves]
              refine ⟨p, rfl, ht, ?_⟩
              rw [hentry₂, Function.update_self]
              rfl

/-- The entry that is added is a new one. -/
theorem addFile_fresh (h : Listed s l) {r : Bool × Browser} (hadd : addFile d m s = some r) :
    ∀ p ∈ m.new, p ∉ l := by
  intro p hp hmem
  rw [Option.mem_def] at hp
  rw [addFile, hp, addEntry, if_pos (h.mem_live.mpr hmem)] at hadd
  cases hadd

/-- Two browsers with the same entries, the order of which may differ. -/
structure Alike (s u : Browser) (l l' : List Ptr) : Prop where
  left : Listed s l
  right : Listed u l'
  perm : l.Perm l'
  same : ∀ p ∈ l, (s.entry p).content = (u.entry p).content
  named : ∀ p ∈ l, (s.entry p).file ≠ none

/-- The same entry is added to both. -/
theorem addFile_alike {b : Bool} (h : Alike s u l l') (hadd : addFile d m s = some (b, t)) :
    ∃ t' new, addFile d m u = some (b, t') ∧ Alike t t' (l ++ new) (l' ++ new) ∧
      new.length = (if b then 1 else 0) ∧ ∀ q ∈ l, t.entry q = s.entry q := by
  have hfresh := addFile_fresh h.left hadd
  have hfresh' : ∀ p ∈ m.new, p ∉ l' := fun p hp hmem => hfresh p hp (h.perm.mem_iff.mpr hmem)
  obtain ⟨t₁, hadd₁, hkept, hlist⟩ := addFile_spec (d := d) h.left hfresh
  obtain ⟨⟨⟩⟩ := hadd.symm.trans hadd₁
  obtain ⟨t', hadd', hkept', hlist'⟩ := addFile_spec (d := d) h.right hfresh'
  have hsame : ∀ q ∈ l, (t.entry q).content = (t'.entry q).content := fun q hq => by
    rw [hkept q hq, hkept' q (h.perm.mem_iff.mp hq)]
    exact h.same q hq
  have hnamed : ∀ q ∈ l, (t.entry q).file ≠ none := fun q hq => by
    rw [hkept q hq]
    exact h.named q hq
  -- Both lists take the same entry, or neither does.
  cases hserves : m.serves d with
  | false =>
      rw [hserves] at hlist hlist' hadd'
      refine ⟨t', [], hadd', ?_, rfl, hkept⟩
      rw [List.append_nil, List.append_nil]
      exact ⟨hlist, hlist', h.perm, hsame, hnamed⟩
  | true =>
      rw [hserves] at hlist hlist' hadd'
      obtain ⟨p, hp, hleft, hcontent⟩ := hlist
      obtain ⟨p', hp', hright, hcontent'⟩ := hlist'
      obtain rfl : p = p' := Option.some.inj (hp.symm.trans hp')
      -- what holds of the old entries and of the new one holds of all
      have hnew : ∀ {P : Ptr → Prop}, (∀ q ∈ l, P q) → P p → ∀ q ∈ l ++ [p], P q :=
        fun hl hP q hq => by
          rw [List.mem_append, List.mem_singleton] at hq
          exact hq.elim (hl q) fun heq => heq ▸ hP
      refine ⟨t', [p], hadd', ⟨hleft, hright, h.perm.append_right [p], ?_, ?_⟩, rfl, hkept⟩
      · exact hnew hsame (hcontent.trans hcontent'.symm)
      · refine hnew hnamed fun hnone => ?_
        have hfile := congrArg (fun c => c.2.1) hcontent
        exact absurd (hnone.symm.trans hfile) nofun

/-- The same entries are read into both. -/
theorem readLoop_alike {menu : Menu} {halt : ℕ → Bool} {rest : List (Dirent × Memory)} {k i : ℕ}
    {ended : Bool} {b : Batch} (h : Alike s u l l')
    (hread : readLoop menu halt rest k i ended s = some b) :
    ∃ b' new, readLoop menu halt rest k i ended u = some b' ∧ b'.more = b.more ∧ b'.rest = b.rest ∧
      Alike b.browser b'.browser (l ++ new) (l' ++ new) ∧ b.added = i + new.length ∧
      ∀ q ∈ l, b.browser.entry q = s.entry q := by
  -- what the loop does where it stops
  have hstop : ∀ {i more rest} {s u : Browser} {l l' : List Ptr}, Alike s u l l' →
      ∃ b' new, some (Batch.mk i more rest u) = some b' ∧ b'.more = more ∧ b'.rest = rest ∧
        Alike s b'.browser (l ++ new) (l' ++ new) ∧ i = i + new.length ∧
        ∀ q ∈ l, s.entry q = s.entry q := fun {i more rest s u l l'} h => by
    refine ⟨_, [], rfl, rfl, rfl, ?_, rfl, fun q _ => rfl⟩
    rwa [List.append_nil, List.append_nil]
  induction rest generalizing k i ended s u l l' b with
  | nil =>
      rw [readLoop] at hread ⊢
      split_ifs at hread ⊢ with hfull
      · cases hread
        exact hstop h
      · cases hread
        exact hstop h
  | cons e rest ih =>
      obtain ⟨d, m⟩ := e
      rw [readLoop] at hread ⊢
      split_ifs at hread ⊢ with hfull hdot hsubs hskip
      · cases hread
        exact hstop h
      · exact ih h hread
      · cases hread
        exact hstop h
      · exact ih h hread
      · obtain ⟨⟨added, t⟩, hadd, hread⟩ := Option.bind_eq_some_iff.mp hread
        obtain ⟨t', new, hadd', halike, hlen, hkept⟩ := addFile_alike h hadd
        rw [hadd', Option.bind_some]
        cases added with
        | false =>
            obtain rfl := List.eq_nil_of_length_eq_zero hlen
            rw [List.append_nil, List.append_nil] at halike
            cases hread
            obtain ⟨b', new, hb⟩ := hstop halike
            exact ⟨b', new, hb.1, hb.2.1, hb.2.2.1, hb.2.2.2.1, hb.2.2.2.2.1, hkept⟩
        | true =>
            obtain ⟨b', more, hread', hmore, hrest, halike', hcount, hkept'⟩ := ih halike hread
            refine ⟨b', new ++ more, hread', hmore, hrest, ?_, ?_, fun q hq => ?_⟩
            · rwa [List.append_assoc, List.append_assoc] at halike'
            · rw [hcount, List.length_append, hlen, Nat.add_assoc]
              rfl
            · rw [hkept' q (List.mem_append_left new hq), hkept q hq]

/-! ## Sorting after each batch -/

/-- The comparison depends on the content of the entries. -/
theorem fileSortCallback_congr {f1 f2 g1 g2 : Entry} (h1 : f1.content = g1.content)
    (h2 : f2.content = g2.content) : fileSortCallback f1 f2 = fileSortCallback g1 g2 := by
  obtain ⟨type1, file1, display1, pos1⟩ := f1
  obtain ⟨type2, file2, display2, pos2⟩ := f2
  cases h1
  cases h2
  rfl

/-- Sorting depends on the content of the entries. -/
theorem mergeSort_leOf_congr (h : ∀ p ∈ l, (s.entry p).content = (t.entry p).content) :
    l.mergeSort (leOf fileSortCallback s) = l.mergeSort (leOf fileSortCallback t) :=
  mergeSort_congr fun p hp q hq => by
    rw [leOf, leOf, le, le, fileSortCallback_congr (h p hp) (h q hq)]

/-- Sorting changes nothing but the positions. -/
theorem sortBrowser_content {comparator : Entry → Entry → ℤ} (h : Listed s l)
    (hsort : s.sortBrowser comparator = some t) {p : Ptr} (hp : p ∈ l) :
    (t.entry p).content = (s.entry p).content := by
  obtain ⟨t', hsort', -, -, -, -, hentry⟩ := sortBrowser_spec comparator h
  obtain rfl : t' = t := Option.some.inj (hsort'.symm.trans hsort)
  split_ifs at hentry with hlen
  · obtain ⟨k, hk⟩ := List.mem_iff_getElem?.mp ((sorted_perm comparator s l).mem_iff.mpr hp)
    rw [hentry.1 k p hk]
    rfl
  · rw [hentry]

/-- Sorting by `FileSortCallback` is the stable sort of the entries. -/
theorem sortBrowser_files (h : Listed s l) (hnamed : ∀ p ∈ l, (s.entry p).file ≠ none) :
    ∃ t, s.sortBrowser fileSortCallback = some t ∧
      Listed t (l.mergeSort (leOf fileSortCallback s)) ∧
      ∀ p ∈ l, (t.entry p).content = (s.entry p).content := by
  obtain ⟨t, hsort, hlisted, -⟩ := sortBrowser_spec fileSortCallback h
  rw [sorted, sortRuns_singletons (fileSortCallback_totalOn hnamed)] at hlisted
  exact ⟨t, hsort, hlisted, fun p hp => sortBrowser_content h hsort hp⟩

/-- `s` has been sorted after every batch and `u` has not. -/
structure InStep (s u : Browser) (l l' : List Ptr) : Prop extends Alike s u l l' where
  sorted : l = l'.mergeSort (leOf fileSortCallback s)

/-- A batch is read into both, and `s` is sorted. -/
theorem parseDirEntries_inStep {menu : Menu} {halt : ℕ → Bool} {rest : List (Dirent × Memory)}
    {b : Batch} (h : InStep s u l l') (hparse : parseDirEntries true menu halt rest s = some b) :
    ∃ b' l₁ l₁', parseDirEntries false menu halt rest u = some b' ∧ b'.more = b.more ∧
      b'.rest = b.rest ∧ InStep b.browser b'.browser l₁ l₁' := by
  obtain ⟨b₁, hread, hsort⟩ := Option.bind_eq_some_iff.mp hparse
  obtain ⟨b', new, hread', hmore, hrest, halike, hcount, hkept⟩ := readLoop_alike h.toAlike hread
  have hunsorted : parseDirEntries false menu halt rest u = some b' := by
    rw [parseDirEntries, hread', Option.bind_some, if_neg fun hand => absurd hand.1 nofun]
  have hold : l = l'.mergeSort (leOf fileSortCallback b₁.browser) := by
    rw [mergeSort_leOf_congr fun p hp => ?_]
    · exact h.sorted
    · rw [hkept p (h.perm.mem_iff.mpr hp)]
  by_cases hadded : 0 < b₁.added
  · rw [if_pos ⟨rfl, hadded⟩] at hsort
    obtain ⟨t, hsorted, rfl⟩ := Option.map_eq_some_iff.mp hsort
    obtain ⟨t', hsorted', hlisted, hcontent⟩ := sortBrowser_files halike.left halike.named
    obtain rfl : t' = t := Option.some.inj (hsorted'.symm.trans hsorted)
    have hperm : ∀ {p}, p ∈ (l ++ new).mergeSort (leOf fileSortCallback b₁.browser) ↔
        p ∈ l ++ new := List.mem_mergeSort
    refine ⟨b', _, l' ++ new, hunsorted, hmore, hrest, ⟨hlisted, halike.right, ?_, ?_, ?_⟩, ?_⟩
    · exact (List.mergeSort_perm _ _).trans halike.perm
    · intro p hp
      rw [hcontent p (hperm.mp hp)]
      exact halike.same p (hperm.mp hp)
    · intro p hp hnone
      have hfile := congrArg (fun c => c.2.1) (hcontent p (hperm.mp hp))
      exact halike.named p (hperm.mp hp) (hfile.symm.trans hnone)
    · -- the entries in front of the new ones were sorted already
      have htotal : TotalOn (leOf fileSortCallback b₁.browser) (l' ++ new) :=
        (fileSortCallback_totalOn halike.named).mono fun p hp => halike.perm.mem_iff.mpr hp
      rw [← mergeSort_leOf_congr fun p hp => (hcontent p (halike.perm.mem_iff.mpr hp)).symm]
      conv_lhs => rw [hold]
      exact mergeSort_append htotal
  · rw [if_neg fun hand => hadded hand.2] at hsort
    cases hsort
    obtain rfl : new = [] := List.eq_nil_of_length_eq_zero (by omega)
    rw [List.append_nil, List.append_nil] at halike
    exact ⟨b', l, l', hunsorted, hmore, hrest, halike, hold⟩

/-- All batches are read into both. -/
theorem parseAll_inStep {menu : Menu} {halts : List (ℕ → Bool)} {rest : List (Dirent × Memory)}
    (h : InStep s u l l') (hparse : parseAll true menu halts rest s = some t) :
    ∃ u' l₁ l₁', parseAll false menu halts rest u = some u' ∧ InStep t u' l₁ l₁' := by
  induction halts generalizing rest s u l l' with
  | nil =>
      cases hparse
      exact ⟨u, l, l', rfl, h⟩
  | cons halt halts ih =>
      obtain ⟨b, hbatch, hparse⟩ := Option.bind_eq_some_iff.mp hparse
      obtain ⟨b', l₁, l₁', hbatch', hmore, hrest, hstep⟩ := parseDirEntries_inStep h hbatch
      rw [parseAll, hbatch', Option.bind_some, hmore, hrest]
      split_ifs at hparse ⊢
      · exact ih hstep hparse
      · cases hparse
        exact ⟨b'.browser, l₁, l₁', rfl, hstep⟩

/-- `t` is `s` with its list `l` sorted to `l'`. -/
structure SortsTo (comparator : Entry → Entry → ℤ) (s t : Browser) (l l' : List Ptr) : Prop where
  listed : Listed t l'
  inverse : ∀ p ∈ l', ∀ q ∈ l', t.links.next p = some q ↔ t.links.prior q = some p
  perm : l'.Perm l
  sorted : l'.Pairwise fun p q => comparator (s.entry p) (s.entry q) ≤ 0
  /-- Of two entries in order, the first one stays before the second. -/
  stable : ∀ p q, [p, q].Sublist l → comparator (s.entry p) (s.entry q) ≤ 0 → [p, q].Sublist l'
  content : ∀ p ∈ l, (t.entry p).content = (s.entry p).content
  /-- A list of fewer than two entries is left alone. -/
  numbered : if 2 ≤ l.length then ∀ (k : ℕ) (p : Ptr), l'[k]? = some p → (t.entry p).pos = k
    else t = s

/-- `SortBrowser` sorts the list. -/
theorem sortBrowser_sortsTo {comparator : Entry → Entry → ℤ} (h : Listed s l)
    (htotal : TotalOn (leOf comparator s) l) :
    ∃ t l', s.sortBrowser comparator = some t ∧ SortsTo comparator s t l l' := by
  obtain ⟨t, hsort, hlisted, -, -, -, hentry⟩ := sortBrowser_spec comparator h
  have hmerge : Browser.sorted comparator s l = l.mergeSort (leOf comparator s) :=
    sortRuns_singletons htotal
  have hle : ∀ p q, leOf comparator s p q = true ↔ comparator (s.entry p) (s.entry q) ≤ 0 :=
    fun p q => decide_eq_true_iff
  refine ⟨t, Browser.sorted comparator s l, hsort, hlisted, fun p hp q hq => ?_,
    sorted_perm comparator s l, ?_, fun p q hpq hcmp => ?_, fun p hp => ?_, ?_⟩
  · exact hlisted.chain.next_iff_prior hp hq
  · rw [hmerge]
    exact (StableSort.pairwise_mergeSort htotal).imp fun hpq => (hle _ _).mp hpq
  · rw [hmerge]
    exact StableSort.sublist_mergeSort htotal (List.pairwise_pair.mpr ((hle p q).mpr hcmp)) hpq
  · exact sortBrowser_content h hsort hp
  · split_ifs at hentry ⊢ with hlen
    · intro k p hk
      rw [hentry.1 k p hk]
    · exact hentry

/-- Entries of which at most one is `name` do not have it twice. -/
theorem pairwise_of_filter {es : List Entry} {name : Text}
    (h : (es.filter fun e => e.file = some name).length ≤ 1) :
    es.Pairwise fun f1 f2 => ¬ (f1.file = some name ∧ f2.file = some name) := by
  refine List.pairwise_iff_forall_sublist.mpr fun {f1 f2} hsub hand => ?_
  have hfilter := (hsub.filter fun e => decide (e.file = some name)).length_le
  have hboth : ([f1, f2].filter fun e => decide (e.file = some name)) = [f1, f2] := by
    simp [hand.1, hand.2]
  rw [hboth] at hfilter
  exact absurd (hfilter.trans h) (by simp)

/-- On two entries that are not the same dots the comparator answers the one way and the other. -/
theorem fileSortCallback_antisymm {f1 f2 : Entry} (h1 : f1.file ≠ none) (h2 : f2.file ≠ none)
    (hdots : ¬ SameDots f1 f2) :
    (fileSortCallback f1 f2 < 0 ↔ 0 < fileSortCallback f2 f1) ∧
      (0 < fileSortCallback f1 f2 ↔ fileSortCallback f2 f1 < 0) := by
  have hdots' : ¬ SameDots f2 f1 := fun h => hdots ⟨h.1.symm, h.1 ▸ h.2⟩
  obtain ⟨hlt, hgt⟩ := fileSortCallback_sign h1 h2 hdots
  obtain ⟨hlt', hgt'⟩ := fileSortCallback_sign h2 h1 hdots'
  exact ⟨hlt.trans hgt'.symm, hgt.trans hlt'.symm⟩

/-- `SortBrowser` is a stable sort; `FileSortCallback` is a total preorder on entries with names;
and a directory that is sorted after each batch is in the order of one sort of all entries. -/
theorem sortBrowser_stable :
    (∀ (comparator : Entry → Entry → ℤ) (s : Browser) (l : List Ptr), Listed s l →
      TotalOn (leOf comparator s) l →
      ∃ t l', s.sortBrowser comparator = some t ∧ SortsTo comparator s t l l') ∧
    (∀ es : List Entry, (∀ e ∈ es, e.file ≠ none) →
      (es.filter fun e => e.file = some (ascii ".")).length ≤ 1 →
      (es.filter fun e => e.file = some (ascii "..")).length ≤ 1 →
      (∀ f1 ∈ es, ∀ f2 ∈ es, ∀ f3 ∈ es, fileSortCallback f1 f2 ≤ 0 → fileSortCallback f2 f3 ≤ 0 →
        fileSortCallback f1 f3 ≤ 0) ∧
      (∀ f1 ∈ es, ∀ f2 ∈ es, fileSortCallback f1 f2 ≤ 0 ∨ fileSortCallback f2 f1 ≤ 0) ∧
      es.Pairwise fun f1 f2 => (fileSortCallback f1 f2 < 0 ↔ 0 < fileSortCallback f2 f1) ∧
        (0 < fileSortCallback f1 f2 ↔ fileSortCallback f2 f1 < 0)) ∧
    ∀ (menu : Menu) (halts : List (ℕ → Bool)) (rest : List (Dirent × Memory)) (s t : Browser)
      (up : Ptr), Listed s [up] → (s.entry up).file ≠ none →
      parseAll true menu halts rest s = some t →
      ∃ u t' l, parseAll false menu halts rest s = some u ∧
        u.sortBrowser fileSortCallback = some t' ∧ Listed t l ∧ Listed t' l ∧
        ∀ p ∈ l, (t.entry p).content = (t'.entry p).content := by
  refine ⟨fun comparator s l h htotal => sortBrowser_sortsTo h htotal,
    fun es hnamed hdot hdots => ⟨?_, ?_, ?_⟩, fun menu halts rest s t up h hup hparse => ?_⟩
  -- the order of the callback is that of its keys
  · intro f1 h1 f2 h2 f3 h3 h12 h23
    rw [fileSortCallback_le_iff (hnamed f1 h1) (hnamed f2 h2)] at h12
    rw [fileSortCallback_le_iff (hnamed f2 h2) (hnamed f3 h3)] at h23
    exact (fileSortCallback_le_iff (hnamed f1 h1) (hnamed f3 h3)).mpr (h12.trans h23)
  · intro f1 h1 f2 h2
    rw [fileSortCallback_le_iff (hnamed f1 h1) (hnamed f2 h2),
      fileSortCallback_le_iff (hnamed f2 h2) (hnamed f1 h1)]
    exact le_total _ _
  -- Two entries that both compare first would be two `.` or two `..`.
  · refine List.pairwise_iff_forall_sublist.mpr fun {f1 f2} hsub => ?_
    have h1 : f1 ∈ es := hsub.subset (by simp)
    have h2 : f2 ∈ es := hsub.subset (by simp)
    refine fileSortCallback_antisymm (hnamed f1 h1) (hnamed f2 h2) ?_
    rintro ⟨heq, hfirst | hfirst⟩
    · exact List.pairwise_iff_forall_sublist.mp (pairwise_of_filter hdot) hsub
        ⟨hfirst, heq.symm.trans hfirst⟩
    · exact List.pairwise_iff_forall_sublist.mp (pairwise_of_filter hdots) hsub
        ⟨hfirst, heq.symm.trans hfirst⟩
  -- The sorted insertions and the final sort keep the same entries in step.
  · have hnamed : ∀ p ∈ [up], (s.entry p).file ≠ none := fun p hp => by
      rwa [List.mem_singleton.mp hp]
    have hstart : InStep s s [up] [up] :=
      ⟨⟨h, h, .rfl, fun _ _ => rfl, hnamed⟩, (List.mergeSort_singleton up).symm⟩
    obtain ⟨u, l, l', hunsorted, hstep⟩ := parseAll_inStep hstart hparse
    have hu : ∀ p ∈ l', (u.entry p).file ≠ none := fun p hp hnone => by
      have hfile := congrArg (fun c => c.2.1) (hstep.same p (hstep.perm.mem_iff.mpr hp))
      exact hstep.named p (hstep.perm.mem_iff.mpr hp) (hfile.trans hnone)
    obtain ⟨t', hsort, hlisted, hcontent⟩ := sortBrowser_files hstep.right hu
    have horder : l'.mergeSort (leOf fileSortCallback u) = l := by
      rw [hstep.sorted]
      exact mergeSort_leOf_congr fun p hp =>
        (hstep.same p (hstep.perm.mem_iff.mpr hp)).symm
    refine ⟨u, t', l, hunsorted, hsort, hstep.left, horder ▸ hlisted, fun p hp => ?_⟩
    rw [hcontent p (hstep.perm.mem_iff.mp hp)]
    exact hstep.same p hp

/-- A file and a folder in the browser. -/
def sampleFiles : List Op :=
  [.add (some 1), .fill 1 .file (some (ascii "b.mp3")) none, .add (some 2),
    .fill 2 .folder (some (ascii "a")) none]

/-- The browser with nothing but the entry that leads up. -/
def sampleUp : List Op := [.add (some 1), .fill 1 .folder (some (ascii "..")) none]

def sampleEntries : List Entry :=
  [⟨.folder, some (ascii ".."), none, 0⟩, ⟨.file, some (ascii "B"), none, 1⟩,
    ⟨.folder, some (ascii "a"), none, 2⟩]

/-- A directory with 22 songs, which are read in two batches. -/
def sampleDirectory : List (Dirent × Memory) :=
  (List.range 22).map fun k =>
    (⟨UInt8.ofNat (90 - k) :: ascii ".mp3", false⟩, ⟨true, some (k + 2), true, true⟩)

theorem sortBrowser_stable_sample :
    (∃ s t l', system.exec blank sampleFiles = some s ∧
      s.sortBrowser fileSortCallback = some t ∧ SortsTo fileSortCallback s t [1, 2] l') ∧
    (sampleEntries.Pairwise fun f1 f2 =>
      (fileSortCallback f1 f2 < 0 ↔ 0 < fileSortCallback f2 f1) ∧
        (0 < fileSortCallback f1 f2 ↔ fileSortCallback f2 f1 < 0)) ∧
    ∃ s t u t' l, system.exec blank sampleUp = some s ∧
      parseAll true .music [fun _ => false, fun _ => false] sampleDirectory s = some t ∧
      parseAll false .music [fun _ => false, fun _ => false] sampleDirectory s = some u ∧
      u.sortBrowser fileSortCallback = some t' ∧ Listed t l ∧ Listed t' l := by
  refine ⟨?_, ?_, ?_⟩
  · obtain ⟨s, hexec, hlisted, hnamed⟩ : ∃ s, system.exec blank sampleFiles = some s ∧
        Listed s [1, 2] ∧ ∀ p ∈ [1, 2], (s.entry p).file ≠ none :=
      ⟨_, rfl, ⟨⟨⟨rfl, rfl, rfl⟩, ⟨rfl, rfl, trivial⟩, rfl⟩, .swap ..⟩, by decide⟩
    obtain ⟨t, l', hsort⟩ := sortBrowser_stable.1 fileSortCallback s [1, 2] hlisted
      (fileSortCallback_totalOn hnamed)
    exact ⟨s, t, l', hexec, hsort⟩
  · exact (sortBrowser_stable.2.1 sampleEntries (by decide) (by decide) (by decide)).2.2
  · obtain ⟨s, hexec, hlisted, hnamed, hparse⟩ : ∃ s, system.exec blank sampleUp = some s ∧
        Listed s [1] ∧ (s.entry 1).file ≠ none ∧
        (parseAll true .music [fun _ => false, fun _ => false] sampleDirectory s).isSome :=
      ⟨_, rfl, ⟨⟨⟨rfl, rfl⟩, ⟨rfl, trivial⟩, rfl⟩, .rfl⟩, by decide, by decide +kernel⟩
    obtain ⟨t, hparse⟩ := Option.isSome_iff_exists.mp hparse
    obtain ⟨u, t', l, hunsorted, hsort, ht, ht', -⟩ := sortBrowser_stable.2.2 .music
      [fun _ => false, fun _ => false] sampleDirectory s t 1 hlisted hnamed hparse
    exact ⟨s, t, u, t', l, hexec, hparse, hunsorted, hsort, ht, ht'⟩

/-- Of two entries the first one is removed; the other one keeps the position 1. -/
theorem sortBrowser_alone : ∃ s t,
    system.exec blank [.add (some 1), .add (some 2), .remove (some 1)] = some s ∧ Listed s [2] ∧
      TotalOn (leOf (fun _ _ => 0) s) [2] ∧ s.sortBrowser (fun _ _ => 0) = some t ∧ Listed t [2] ∧
      (t.entry 2).pos = 1 := by
  refine ⟨_, _, rfl, ⟨⟨⟨rfl, rfl⟩, ⟨rfl, trivial⟩, rfl⟩, .rfl⟩, ⟨?_, ?_⟩, rfl,
    ⟨⟨⟨rfl, rfl⟩, ⟨rfl, trivial⟩, rfl⟩, .rfl⟩, rfl⟩
  · exact fun _ _ _ _ _ _ _ _ => rfl
  · exact fun _ _ _ _ => rfl

end WiiMC.Browser
