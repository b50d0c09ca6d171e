import WiiMC.Lib.Transition
import WiiMC.Browser.Folders

/-!
# The room for a full path

`GetFullPath` writes the directory and a name into a buffer of `MAXPATHLEN` bytes, and
`UpdateDirName` has made the directory. Its test leaves no room for the names in there.

* `browsing`: the places that selections lead to.
* `Roomy`: the selections that leave room for a name.
* `roomy_iff`: these are the ones that do.
* `getFullPath_fits_iff`: full paths fit along such selections, and in no place beyond them.
-/

namespace WiiMC.Browser

open Bytes Player Transition

/-- The longest name that a card or the WebDAV device has for a file. -/
def longestName : ℕ := 255

/-- The longest directory with room for each name, and for the zero at the end. -/
def longestDir : ℕ := maxPathLen - 1 - longestName

/-- The full path of each entry with such a name fits into its buffer. -/
def PathsFit (dir : Text) : Prop :=
  ∀ file : Text, file.length ≤ longestName → (getFullPath dir file).length < maxPathLen

/-- The browser, from the list of devices on. A label is what is selected when `UpdateDirName` is
called. -/
def browsing : System Place (Option Selected) where
  init s := s = ⟨[], [], []⟩
  step s sel := some (updateDirName s sel).2

/-- What is selected leaves room for a name: the place to which a playlist leads back, the path of a
playlist, and a folder, unless its name is refused. -/
def Roomy (s : Place) (sel : Option Selected) : Prop :=
  ∀ e ∈ sel, ∀ file ∈ e.file,
    if e.isFirst ∧ file = [] then True
    else if e.isFirst ∧ file.head? ≠ some 46 ∧ s.dir ≠ [] then file.length ≤ longestDir
    else if e.type = .playlist ∨ (ascii "http:").isPrefixOf file then
      (if findDevice file then 0 else s.dir.length) + file.length ≤ longestDir
    else if file = ascii "." ∨ file = dotDot then True
    else s.dir.length + 1 + file.length < maxPathLen →
      s.dir.length + 1 + file.length ≤ longestDir

variable {s : Place} {sel : Option Selected} {dir file : Text}

theorem length_getFullPath (dir file : Text) :
    (getFullPath dir file).length = (if findDevice file then 0 else dir.length) + file.length := by
  unfold getFullPath
  split_ifs
  · exact (Nat.zero_add _).symm
  · exact List.length_append

/-- Going up makes the directory no longer. -/
theorem goUp_length (s : Place) : (goUp s).dir.length ≤ s.dir.length := by
  have hdrop : s.dir.dropLast.length ≤ s.dir.length := by
    rw [List.length_dropLast]
    exact Nat.sub_le _ _
  unfold goUp
  split_ifs
  · exact Nat.zero_le _
  · rcases afterLast? 47 s.dir.dropLast with _ | t
    · exact Nat.zero_le _
    · exact (List.length_take_le' _ _).trans hdrop

/-- From a directory with room, the selections that lead to one with room. -/
theorem roomy_iff (hs : s.dir.length ≤ longestDir) (sel : Option Selected) :
    Roomy s sel ↔ (updateDirName s sel).2.dir.length ≤ longestDir := by
  rcases sel with _ | ⟨isFirst, type, _ | file⟩
  · exact ⟨fun _ => hs, fun _ => nofun⟩
  · -- an entry without a file: it is `browser.first` or not, and the browser starts anew
    have hroomy : Roomy s (some ⟨isFirst, type, none⟩) := by
      rintro e ⟨⟩
      exact nofun
    refine ⟨fun _ => ?_, fun _ => hroomy⟩
    unfold updateDirName
    simp only [Option.getD_none]
    split_ifs <;> exact Nat.zero_le _
  have hall : Roomy s (some ⟨isFirst, type, some file⟩) ↔ _ :=
    ⟨fun h => h _ rfl _ rfl, fun h e he f hf => by cases he; cases hf; exact h⟩
  rw [hall]
  unfold updateDirName
  simp only [Option.getD_some]
  -- The cases are those of `UpdateDirName`, in its order.
  by_cases hreset : isFirst = true ∧ file = []
  · rw [if_pos hreset, if_pos hreset]
    exact ⟨fun _ => Nat.zero_le _, fun _ => trivial⟩
  rw [if_neg hreset, if_neg hreset]
  by_cases hleave : isFirst = true ∧ file.head? ≠ some 46 ∧ s.dir ≠ []
  · rw [if_pos hleave, if_pos hleave]
  rw [if_neg hleave, if_neg hleave]
  by_cases hlist : type = .playlist ∨ (ascii "http:").isPrefixOf file = true
  · rw [if_pos hlist, if_pos hlist, length_getFullPath]
  rw [if_neg hlist, if_neg hlist]
  by_cases hdot : file = ascii "."
  · rw [if_pos (.inl hdot), if_pos hdot]
    exact ⟨fun _ => hs, fun _ => trivial⟩
  by_cases hdots : file = dotDot
  · rw [if_pos (.inr hdots), if_neg hdot, if_pos hdots]
    exact ⟨fun _ => (goUp_length s).trans hs, fun _ => trivial⟩
  rw [if_neg (not_or.mpr ⟨hdot, hdots⟩), if_neg hdot, if_neg hdots]
  by_cases henter : s.dir.length + 1 + file.length < maxPathLen
  · have hlen : (s.dir ++ file ++ [47]).length = s.dir.length + 1 + file.length := by
      simp only [List.length_append, List.length_singleton]
      omega
    rw [if_pos henter, hlen]
    exact ⟨fun h => h henter, fun h _ => h⟩
  · rw [if_neg henter]
    exact ⟨fun _ => hs, fun _ h => absurd h henter⟩

/-- The full paths of a directory fit exactly if there is room for the longest name. -/
theorem pathsFit_iff (dir : Text) : PathsFit dir ↔ dir.length ≤ longestDir := by
  constructor
  · intro hfit
    -- a name without a device
    have hname := hfit (List.replicate longestName 97) (List.length_replicate).le
    have hdevice : findDevice (List.replicate longestName 97) = false := by decide +kernel
    rw [length_getFullPath, hdevice, List.length_replicate] at hname
    exact Nat.le_sub_of_add_le (Nat.le_sub_one_of_lt hname)
  · intro hdir file hfile
    rw [length_getFullPath]
    have hlong : longestDir + longestName < maxPathLen := by decide
    split_ifs <;> omega

/-- A step of the browser that leaves room, in a place whose directory does. -/
theorem reachable_select {t : Place} (sel : Option Selected) (hs : browsing.Reachable Roomy s)
    (hlen : s.dir.length ≤ longestDir) (ht : (updateDirName s sel).2 = t)
    (hroom : t.dir.length ≤ longestDir) : browsing.Reachable Roomy t := by
  subst ht
  exact .step hs ((roomy_iff hlen sel).mpr hroom) rfl

/-- Along selections that leave room, the full path of every entry with a name of at most 255 bytes
fits into its buffer; and such paths all fit exactly if the directory has at most 768 bytes. -/
theorem getFullPath_fits_iff (s : Place) (dir : Text) :
    (browsing.Reachable Roomy s → PathsFit s.dir) ∧ (PathsFit dir ↔ dir.length ≤ 768) := by
  refine ⟨fun hs => (pathsFit_iff _).mpr ?_, pathsFit_iff dir⟩
  have hinit : ∀ s, browsing.init s → s.dir.length ≤ longestDir := by
    intro s hinit
    rw [show s = ⟨[], [], []⟩ from hinit]
    exact Nat.zero_le _
  refine hs.invariant (I := fun s => s.dir.length ≤ longestDir) hinit
    fun s sel t _ hlen hroomy hstep => ?_
  obtain rfl := Option.some.inj hstep
  exact (roomy_iff hlen sel).mp hroomy

theorem getFullPath_fits_iff_album : PathsFit (ascii "sd1:/music/album/") := by
  have hroot : browsing.Reachable Roomy ⟨ascii "sd1:/", [], []⟩ :=
    reachable_select (folder (ascii "sd1:")) (.init rfl) (by decide +kernel)
      (by decide +kernel) (by decide +kernel)
  have hmusic : browsing.Reachable Roomy ⟨ascii "sd1:/music/", [], []⟩ :=
    reachable_select (folder (ascii "music")) hroot (by decide +kernel) (by decide +kernel)
      (by decide +kernel)
  have halbum : browsing.Reachable Roomy ⟨ascii "sd1:/music/album/", [], []⟩ :=
    reachable_select (folder (ascii "album")) hmusic (by decide +kernel) (by decide +kernel)
      (by decide +kernel)
  exact (getFullPath_fits_iff _ []).1 halbum

/-- A card, and three folders with names of 255 bytes in each other. -/
def deep : List (Option Selected) :=
  [folder (ascii "sd1:"), folder (List.replicate 255 97), folder (List.replicate 255 97),
    folder (List.replicate 255 97)]

/-- The names in the innermost of them do not fit. -/
theorem not_pathsFit_deep : ∃ s, browsing.Reachable (fun _ _ => True) s ∧
    browsing.exec ⟨[], [], []⟩ deep = some s ∧
    ¬(getFullPath s.dir (List.replicate 255 97)).length < maxPathLen := by
  have hexec : (browsing.exec ⟨[], [], []⟩ deep).isSome = true := by decide +kernel
  obtain ⟨s, hs⟩ := Option.isSome_iff_exists.mp hexec
  refine ⟨s, System.Reachable.exec (.init rfl) (.of_forall (fun _ _ => trivial) _) hs, hs, ?_⟩
  have hlong : (browsing.exec ⟨[], [], []⟩ deep).map
      (fun s => (getFullPath s.dir (List.replicate 255 97)).length) = some 1028 := by decide +kernel
  rw [hs] at hlong
  have hlength : (getFullPath s.dir (List.replicate 255 97)).length = 1028 :=
    Option.some.inj hlong
  rw [hlength]
  decide

end WiiMC.Browser
