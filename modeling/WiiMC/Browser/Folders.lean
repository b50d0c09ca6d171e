import WiiMC.Browser.Directory
import WiiMC.Browser.Normalise

/-!
# Entering a folder and going up

`filebrowser.cpp`: `UpdateDirName` appends a name to the directory, or strips one, and
`BrowserChangeFolder` cleans up what comes out. What it lists afterwards is in
`WiiMC.Browser.Directory`.

* `updateDirName`, `changeFolder`: the functions.
* `tidy_cleanupPath`: whatever comes out of `CleanupPath` has no backslashes and no doubled slashes.
* `changeFolder_round`: going up leads back exactly from the folders that are `Enterable`.
-/

namespace WiiMC.Browser

open Bytes Player Segments

/-! ## The functions -/

/-- `browser.dir`, `browser.lastdir`, and `browserHistory` with its last element at the end. -/
structure Place where
  dir : Text
  lastdir : Text
  history : List Text
  deriving DecidableEq

/-- `browser.selIndex`: whether it is `browser.first`, and the entry. -/
structure Selected where
  isFirst : Bool
  type : EntryType
  file : Option Text

/-- `IsDeviceRoot`. -/
def isDeviceRoot (path : Text) : Bool :=
  path ≠ [] &&
    ((ascii "sd").isPrefixOf path && path.length = 5 ||
      (ascii "usb").isPrefixOf path && path.length = 6 || path = ascii "dvd:/" ||
      (ascii "smb").isPrefixOf path && path.length = 6 ||
      (ascii "ftp").isPrefixOf path && path.length = 6 || path = ascii "dav1:/")

/-- Going up. -/
def goUp (s : Place) : Place :=
  if isDeviceRoot s.dir then { s with dir := [], lastdir := s.dir.dropLast }
  else
    -- without the trailing slash
    match afterLast? 47 s.dir.dropLast with
    | none => { s with dir := [], lastdir := s.dir.dropLast }
    | some t => { s with dir := s.dir.dropLast.take (s.dir.dropLast.length - t.length), lastdir := t }

/-- `UpdateDirName`: what it returns, and the directory; `none` as selection where there are no
entries or none is selected. -/
def updateDirName (s : Place) : Option Selected → ℤ × Place
  | none => (1, s)
  | some sel =>
      if sel.isFirst ∧ sel.file.getD [] = [] then (1, { s with dir := [], history := [] })
      else if sel.isFirst ∧ (sel.file.getD []).head? ≠ some 46 ∧ s.dir ≠ [] then
        -- leaving a playlist
        (1, ⟨sel.file.getD [], s.dir, s.history.dropLast⟩)
      else match sel.file with
      | none => (1, { s with dir := [], history := [] })
      | some file =>
          if sel.type = .playlist ∨ (ascii "http:").isPrefixOf file then
            (1, { s with dir := getFullPath s.dir file, history := s.history ++ [s.dir] })
          else if file = ascii "." then (0, s)
          else if file = dotDot then (1, goUp s)
          else if s.dir.length + 1 + file.length < maxPathLen then
            (1, { s with dir := s.dir ++ file ++ [47] })
          else (-1, s)

/-- `BrowserChangeFolder`, as far as it changes the directory; `none` where it returns at once.
The path of an online medium, for which `isOnline` says so, is not cleaned up. -/
def changeFolder (menu : Menu) (isOnline : Text → Bool) (sel : Option Selected) (s : Place) :
    Option Place :=
  let (res, s') := updateDirName s sel
  if res = 0 then none
  else if menu = .onlineMedia ∧ isOnline s'.dir then some s'
  else some { s' with dir := cleanupPath s'.dir }

/-- A folder of the listing. -/
def folder (name : Text) : Option Selected := some ⟨false, .folder, some name⟩

/-- The first entry of the listing of a directory. -/
def upEntry : Option Selected := some ⟨true, .folder, some dotDot⟩

/-! ## What comes out of the cleaning -/

variable {dev x y l name dir W : Text} {body mid c : List Text} {path rest : Text} {j : ℕ}

/-- A path without backslashes whose directories have names. -/
def Tidy (dev path : Text) : Prop :=
  ∃ b y, path = pathOf dev b y ∧ Plain 47 (b ++ [y]) ∧ [] ∉ b ∧ 92 ∉ path

/-- The beginning of a path is a path. -/
theorem take_pathOf (hdev : 47 ∉ dev) (hplain : Plain 47 (c ++ [l])) (hnil : [] ∉ c ++ [l])
    (hj : dev.length < j) :
    ∃ b y, (pathOf dev c l).take j = pathOf dev b y ∧ Plain 47 (b ++ [y]) ∧ [] ∉ b := by
  obtain ⟨u, hu⟩ : ∃ u, pathOf dev c l = dev ++ 47 :: u := by
    rw [pathOf]
    cases c with
    | nil => exact ⟨l, by simp⟩
    | cons t c => exact ⟨t ++ join 47 (c ++ [l]), by simp⟩
  have htake : (pathOf dev c l).take j = dev ++ 47 :: u.take (j - dev.length - 1) := by
    rw [hu, List.take_append, List.take_of_length_le hj.le]
    cases hk : j - dev.length with
    | zero => omega
    | succ k => rfl
  obtain ⟨segs, hne, hsegs, heq⟩ :=
    exists_join (l := 47 :: u.take (j - dev.length - 1)) rfl
  obtain ⟨b, y, rfl⟩ := (List.eq_nil_or_concat segs).resolve_left hne
  rw [List.concat_eq_append] at hsegs heq
  have hfront : (pathOf dev c l).take j = pathOf dev b y := by rw [htake, heq, pathOf]
  refine ⟨b, y, hfront, hsegs, fun hmem => hnil ?_⟩
  -- the segments in front of the cut are segments of the path
  obtain ⟨s, ss, hs, hss, hback⟩ := exists_append_join 47 ((pathOf dev c l).drop j)
  have hwhole : pathOf dev c l = dev ++ join 47 (b ++ (y ++ s) :: ss) := by
    rw [← List.take_append_drop j (pathOf dev c l), hfront, hback, pathOf_eq]
    simp
  have hplain' : Plain 47 (b ++ (y ++ s) :: ss) := by
    intro t ht
    rcases List.mem_append.mp ht with ht | ht
    · exact hsegs t (List.mem_append_left [y] ht)
    · rcases List.mem_cons.mp ht with rfl | ht
      · rw [List.mem_append, not_or]
        exact ⟨hsegs y (by simp), hs⟩
      · exact hss t ht
  have hsplit := splitOn_append_join hdev hplain
  rw [← pathOf, hwhole, splitOn_append_join hdev hplain', List.cons.injEq] at hsplit
  rw [← hsplit.2]
  exact List.mem_append_left _ hmem

/-- A path without empty parts is tidy. -/
theorem tidy_pathOf {b : List Text} (hdev : Device dev) (hplain : Plain 47 (b ++ [y]))
    (hback : ∀ t ∈ b ++ [y], 92 ∉ t) (hnil : [] ∉ b) : Tidy dev (pathOf dev b y) := by
  refine ⟨b, y, rfl, hplain, hnil, fun hmem => ?_⟩
  rw [pathOf, List.mem_append, Segments.join, List.mem_flatMap] at hmem
  rcases hmem with hmem | ⟨t, ht, hmem⟩
  · exact hdev.noBackslash hmem
  · rcases List.mem_cons.mp hmem with heq | hmem
    · exact absurd heq (by decide)
    · exact hback t ht hmem

/-- A tidy path stays so with a slash behind it. -/
theorem Tidy.concat {b : List Text} (hplain : Plain 47 (b ++ [y])) (hnil : [] ∉ b ++ [y])
    (hback : 92 ∉ pathOf dev b y) : Tidy dev (pathOf dev b y ++ [47]) := by
  refine ⟨b ++ [y], [], by rw [pathOf_concat], plain_concat hplain List.not_mem_nil, hnil, ?_⟩
  rw [List.mem_append, not_or]
  exact ⟨hback, by decide⟩

/-- What is written at the end does no harm. -/
theorem tidy_finish (hdev : 47 ∉ dev) (hplain : Plain 47 (c ++ [l])) (hnil : [] ∉ c ++ [l])
    (hback : 92 ∉ pathOf dev c l) (hj : dev.length < j) : Tidy dev (finish j (pathOf dev c l)) := by
  rw [finish]
  split_ifs with hlt hand
  · exact ⟨c, l, rfl, hplain, fun hmem => hnil (List.mem_append_left [l] hmem), hback⟩
  all_goals
    obtain ⟨b, y, htake, hb, hbnil⟩ := take_pathOf hdev hplain hnil hj
    have hback' : 92 ∉ pathOf dev b y := fun hmem =>
      hback (List.mem_of_mem_take (htake.symm ▸ hmem))
    rw [htake]
  · -- a slash is only added where there is none
    refine Tidy.concat hb (fun hmem => ?_) hback'
    rw [List.mem_append, List.mem_singleton] at hmem
    have hy := hmem.resolve_left hbnil
    have hlast := (getLast?_pathOf dev b (hb y (by simp))).mpr hy.symm
    have hle : j ≤ (pathOf dev c l).length := not_lt.mp hlt
    rw [← htake, List.getLast?_eq_getElem?, List.length_take, Nat.min_eq_left hle,
      List.getElem?_take_of_lt (by omega)] at hlast
    exact hand.2 hlast
  · exact ⟨b, y, rfl, hb, hbnil, hback'⟩

/-- A path that is not wiped has its copied parts and its last one. -/
theorem removeParents_cons {ts : List Text} (h : removeParents (dev :: ts) = some W) :
    ∃ mid l, ts = mid ++ [l] ∧ W = pathOf dev (copied (dev :: (mid ++ [l]))) l := by
  have hlen : ts.length + 1 ≤ 20 ∧ 2 * parentCount (dev :: ts) ≤ ts.length - 1 ∧ 0 < ts.length := by
    rw [removeParents, List.length_cons] at h
    split_ifs at h with hlong hwipe
    omega
  obtain ⟨mid, l, rfl⟩ := (List.eq_nil_or_concat ts).resolve_left
    (List.length_pos_iff.mp hlen.2.2)
  rw [List.concat_eq_append] at h hlen ⊢
  rw [List.length_append, List.length_singleton] at hlen
  rw [removeParents_eq (by omega) (by omega)] at h
  exact ⟨mid, l, rfl, (Option.some.inj h).symm⟩

/-- Whatever comes out has no backslashes and no doubled slashes. -/
theorem tidy_cleanupPath (hdev : Device dev)
    (hlen : (dev ++ 47 :: rest).length ≤ maxPathLen) :
    cleanupPath (dev ++ 47 :: rest) = [] ∨ Tidy dev (cleanupPath (dev ++ 47 :: rest)) := by
  obtain ⟨body, x, h, heq⟩ := exists_canonical hdev hlen
  rw [← hdev.cleanupPath_map_slash hlen, heq]
  have hsq := h.squeezed
  have hnil := Canonical.not_mem_filter body
  by_cases hbuf : contains (buffer (pathOf dev body x)) (ascii "../") = true
  · -- the tokens of the buffer, whatever is left in it
    obtain ⟨u, hu⟩ := Canonical.eq_device dev (body.filter (· ≠ [])) x
    obtain ⟨v, hv⟩ : ∃ v, buffer (pathOf dev body x) = dev ++ 47 :: v :=
      ⟨u ++ (pathOf dev body x).drop (pathOf dev (body.filter (· ≠ [])) x).length, by
        rw [h.buffer_eq, hu, List.append_assoc, List.cons_append]⟩
    have hback : 92 ∉ dev ++ 47 :: v := by
      rw [← hv, h.buffer_eq, List.mem_append, not_or]
      exact ⟨hsq.not_mem_backslash, fun hmem => h.not_mem_backslash (List.mem_of_mem_drop hmem)⟩
    have hfits : (dev ++ 47 :: v).length ≤ maxPathLen := by
      have hle : (pathOf dev (body.filter (· ≠ [])) x).length ≤ (pathOf dev body x).length :=
        Canonical.length_pathOf_le List.filter_sublist dev x
      have hshort := h.short
      rw [← hv, h.buffer_eq, List.length_append, List.length_drop]
      omega
    obtain ⟨body', x', h', heq'⟩ := exists_canonical hdev hfits
    rw [map_slash hback] at heq'
    rw [h.cleanupPath_buffer, cleaned, if_pos hbuf, hv, heq', h'.tokens_eq]
    cases hremove : removeParents (dev :: (body' ++ [x']).filter (· ≠ [])) with
    | none => exact .inl rfl
    | some W =>
        obtain ⟨mid, l, hfilter, rfl⟩ := removeParents_cons hremove
        -- What is left are tokens of the buffer, so they keep its cleanness.
        have hsub : ∀ t ∈ copied (dev :: (mid ++ [l])) ++ [l],
            t ∈ (body' ++ [x']).filter (· ≠ []) := by
          rw [hfilter]
          exact ((copied_sublist dev l mid).append_right [l]).subset
        have hplain : Plain 47 (copied (dev :: (mid ++ [l])) ++ [l]) := fun t ht =>
          h'.plain t (List.mem_of_mem_filter (hsub t ht))
        have htidy := tidy_pathOf hdev hplain
          (fun t ht => h'.noBackslash t (List.mem_of_mem_filter (hsub t ht)))
          (fun hmem => by simpa using (List.mem_filter.mp (hsub [] (List.mem_append_left _ hmem))).2)
        obtain ⟨-, -, -, -, -, hback'⟩ := htidy
        refine .inr (tidy_finish hdev.plain hplain (fun hmem => ?_) hback' ?_)
        · simpa using (List.mem_filter.mp (hsub [] hmem)).2
        · rw [hu, List.length_append, List.length_cons]
          exact Nat.lt_add_of_pos_right (Nat.succ_pos _)
  -- without `../` the squeezed path itself is left
  · rcases h.cleanupPath_quiet_buffer hbuf with ⟨hpath, -⟩ | ⟨hpath, hne⟩
    · rw [hpath]
      exact .inr (tidy_pathOf hdev hsq.plain hsq.noBackslash hnil)
    · rw [hpath, pathOf_concat]
      refine .inr (Tidy.concat hsq.plain (fun hmem => ?_) hsq.not_mem_backslash)
      rw [List.mem_append, List.mem_singleton] at hmem
      exact hmem.elim hnil fun heq => hne heq.symm

/-! ## Paths that are left alone -/

/-- What is tidy has components. -/
theorem Tidy.canonical (hdev : Device dev) (hplain : Plain 47 (body ++ [x]))
    (hlen : (pathOf dev body x).length ≤ maxPathLen) (h : Tidy dev (pathOf dev body x)) :
    Canonical dev body x ∧ [] ∉ body := by
  obtain ⟨b, y, heq, hb, hnil, hback⟩ := h
  have hsplit := splitOn_append_join hdev.plain hplain
  rw [← pathOf, heq, pathOf, splitOn_append_join hdev.plain hb, List.cons.injEq] at hsplit
  obtain ⟨rfl, -⟩ := List.append_inj' hsplit.2 rfl
  refine ⟨⟨hdev, hplain, fun t ht hmem => hback ?_, hlen⟩, hnil⟩
  rw [pathOf, List.mem_append]
  exact .inr (List.mem_flatMap.mpr ⟨t, ht, .tail 47 hmem⟩)

namespace Canonical

/-- A path with a slash at its end is left alone unless a name ends with two dots. -/
theorem cleanupPath_slash_iff (h : Canonical dev body []) (hbody : [] ∉ body) :
    cleanupPath (pathOf dev body []) = pathOf dev body [] ↔ ∀ t ∈ dev :: body, ¬ dotDot <:+ t := by
  constructor
  · intro heq t ht hsuffix
    have hne : body ≠ [] := by
      rintro rfl
      rw [h.cleanupPath_dots hbody ⟨t, ht, hsuffix⟩, removeParents_wiped] at heq
      · exact pathOf_ne_nil _ _ _ heq.symm
      · simp [parentCount]
    obtain ⟨mid, l, rfl⟩ := (List.eq_nil_or_concat body).resolve_left hne
    rw [List.concat_eq_append] at h hbody heq ht
    have hshort : (pathOf dev mid l).length < (pathOf dev (mid ++ [l]) []).length := by
      rw [pathOf_concat, List.length_append]
      exact Nat.lt_add_of_pos_right (Nat.succ_pos _)
    have hfilter : (mid ++ [l] ++ [[]]).filter (· ≠ []) = mid ++ [l] := by
      rw [List.mem_append, List.mem_singleton, not_or] at hbody
      rw [List.filter_append, List.filter_cons_of_neg (by simp), List.filter_nil, List.append_nil,
        filter_concat hbody.1 (Ne.symm hbody.2)]
    rw [h.cleanupPath_dots hbody ⟨t, ht, hsuffix⟩, hfilter] at heq
    cases hremove : removeParents (dev :: (mid ++ [l])) with
    | none =>
        rw [hremove] at heq
        exact pathOf_ne_nil _ _ _ heq.symm
    | some W =>
        -- what is made of the tokens has no slash at its end
        obtain ⟨mid', l', hlast, rfl⟩ := removeParents_cons hremove
        obtain ⟨rfl, hl⟩ := List.append_inj' hlast rfl
        cases hl
        have hle := (length_pathOf_le (copied_sublist dev l mid) dev l).trans_lt hshort
        rw [hremove] at heq
        simp only at heq
        rw [finish_of_lt hle] at heq
        rw [heq] at hle
        exact lt_irrefl _ hle
  · intro hdots
    rw [h.cleanupPath_quiet hbody hdots, if_pos (.inl rfl)]

end Canonical

/-- The same for any path below a device. -/
theorem cleanupPath_eq_self_iff (hdev : Device dev) (hplain : Plain 47 body)
    (hlen : (pathOf dev body []).length ≤ maxPathLen) :
    cleanupPath (pathOf dev body []) = pathOf dev body [] ↔
      Canonical dev body [] ∧ [] ∉ body ∧ ∀ t ∈ dev :: body, ¬ dotDot <:+ t := by
  constructor
  · intro heq
    obtain ⟨u, hu⟩ := Canonical.eq_device dev body []
    have hplain' : Plain 47 (body ++ [[]]) := plain_concat hplain List.not_mem_nil
    have htidy : Tidy dev (pathOf dev body []) := by
      rcases tidy_cleanupPath hdev (hu ▸ hlen) with hnil | htidy
      · rw [← hu, heq] at hnil
        exact absurd hnil (pathOf_ne_nil dev body [])
      · rwa [← hu, heq] at htidy
    obtain ⟨h, hbody⟩ := htidy.canonical hdev hplain' hlen
    exact ⟨h, hbody, (h.cleanupPath_slash_iff hbody).mp heq⟩
  · rintro ⟨h, hbody, hdots⟩
    exact (h.cleanupPath_slash_iff hbody).mpr hdots

/-! ## There and back -/

/-- The folder `name` is entered and left again. -/
def Round (menu : Menu) (isOnline : Text → Bool) (s : Place) (name : Text) : Prop :=
  ∃ s₁ s₂, changeFolder menu isOnline (folder name) s = some s₁ ∧ s₁.dir = s.dir ++ name ++ [47] ∧
    changeFolder menu isOnline upEntry s₁ = some s₂ ∧ s₂.dir = s.dir ∧ s₂.lastdir = name

/-- The folders from which going up leads back. A name that starts with `http:` is appended without
a slash, as the one of a playlist. -/
def Enterable (dir name : Text) : Prop :=
  92 ∉ dir ++ name ∧ squeeze (dir ++ name) = dir ++ name ∧
    if (ascii "http:").isPrefixOf name then
      ¬ contains dir (ascii "../") = true ∧ getExt name = []
    else ¬ contains (dir ++ name ++ [47]) (ascii "../") = true

/-- Whether a folder can be entered is decided by its name and the room. -/
instance (dir name : Text) : Decidable (Enterable dir name) := by
  unfold Enterable
  infer_instance

/-- What a listing shows as a folder. -/
structure FolderName (name : Text) : Prop where
  ne_nil : name ≠ []
  plain : 47 ∉ name
  visible : name.head? ≠ some 46 ∧ name.head? ≠ some 36

/-- A name that begins with `http:` is on no device. -/
theorem findDevice_http (hname : 47 ∉ name) (hhttp : (ascii "http:").isPrefixOf name = true) :
    findDevice name = false := by
  obtain ⟨t, rfl⟩ := List.isPrefixOf_iff_prefix.mp hhttp
  have hproto : isAllowedProtocol (ascii "http:" ++ t) = false := by
    have hsplit : splitAt? 58 (ascii "http:" ++ t) = some (ascii "http", t) := rfl
    rw [isAllowedProtocol, hsplit]
    simp only
    rw [Bool.and_eq_false_iff, Bool.and_eq_false_iff]
    refine .inl (.inr (Bool.eq_false_iff.mpr fun hslashes => hname ?_))
    obtain ⟨u, rfl⟩ := List.isPrefixOf_iff_prefix.mp hslashes
    exact List.mem_append_right _ (List.mem_append_left u (by decide))
  rw [findDevice, hproto]
  rfl

/-- Entering a folder; only in the list of the devices is it the first entry. -/
theorem updateDirName_folder (hne : name ≠ []) (hplain : 47 ∉ name) (hdot : name.head? ≠ some 46)
    {s : Place} {first : Bool} (hfirst : first = true → s.dir = [])
    (hlen : s.dir.length + 1 + name.length < maxPathLen) :
    updateDirName s (some ⟨first, .folder, some name⟩) =
      if (ascii "http:").isPrefixOf name then
        (1, { s with dir := s.dir ++ name, history := s.history ++ [s.dir] })
      else (1, { s with dir := s.dir ++ name ++ [47] }) := by
  have hself : name ≠ ascii "." := by
    rintro rfl
    exact hdot rfl
  have hdots : name ≠ dotDot := by
    rintro rfl
    exact hdot rfl
  rw [updateDirName, if_neg fun hand => hne hand.2, if_neg fun hand => hand.2.2 (hfirst hand.1)]
  simp only [reduceCtorEq, false_or]
  split_ifs with hhttp
  · rw [getFullPath, findDevice_http hplain hhttp, if_neg nofun]
  · rfl

/-- Entering a folder puts its name behind the path. -/
theorem FolderName.updateDirName_eq (h : FolderName name) (s : Place)
    (hlen : s.dir.length + 1 + name.length < maxPathLen) :
    updateDirName s (folder name) =
      if (ascii "http:").isPrefixOf name then
        (1, { s with dir := s.dir ++ name, history := s.history ++ [s.dir] })
      else (1, { s with dir := s.dir ++ name ++ [47] }) :=
  updateDirName_folder h.ne_nil h.plain h.visible.1 nofun hlen

/-- Going up strips the last folder, unless the directory is taken for the root of a device. -/
theorem goUp_of_not_root {s : Place} (hroot : isDeviceRoot s.dir = false)
    (hdir : s.dir = dir ++ name ++ [47]) (hslash : dir = [] ∨ dir.getLast? = some 47)
    (hname : 47 ∉ name) : goUp s = { s with dir := dir, lastdir := name } := by
  have hstrip : s.dir.dropLast = dir ++ name := by rw [hdir, List.dropLast_concat]
  rw [goUp, hroot, if_neg nofun, hstrip]
  obtain rfl | hslash := hslash
  · have hnone : afterLast? 47 ([] ++ name) = none := if_neg hname
    rw [hnone]
    rfl
  · have hlast : afterLast? 47 (dir ++ name) = some name := by
      obtain ⟨init, rfl⟩ := List.getLast?_eq_some_iff.mp hslash
      rw [afterLast?_append_of_not_mem hname, afterLast?_append_of_mem (by simp)]
      rfl
    rw [hlast]
    simp only
    rw [List.length_append, Nat.add_sub_cancel, List.take_left]

/-- Going up strips the last folder. -/
theorem goUp_eq {s : Place} (hdir : s.dir = dir ++ 47 :: (name ++ [47])) (hname : 47 ∉ name)
    (hlen : 7 ≤ s.dir.length) : goUp s = { s with dir := dir ++ [47], lastdir := name } := by
  have hroot : isDeviceRoot s.dir = false := by
    have h5 : s.dir.length ≠ 5 := by omega
    have h6 : s.dir.length ≠ 6 := by omega
    have hdvd : s.dir ≠ ascii "dvd:/" := fun heq => h5 (heq ▸ rfl)
    have hdav : s.dir ≠ ascii "dav1:/" := fun heq => h6 (heq ▸ rfl)
    simp [isDeviceRoot, h5, h6, hdvd, hdav]
  refine goUp_of_not_root hroot ?_ (.inr List.getLast?_concat) hname
  rw [hdir, List.append_assoc, List.append_assoc]
  rfl

/-- `..` is not looked at as a first entry. -/
theorem updateDirName_dots (s : Place) (first : Bool) :
    updateDirName s (some ⟨first, .folder, some dotDot⟩) = (1, goUp s) := by
  cases first <;> rfl

/-- The entry that leads up does so. -/
theorem updateDirName_up (s : Place) : updateDirName s upEntry = (1, goUp s) :=
  updateDirName_dots s true

/-- A directory with a slash at its end. -/
theorem exists_directory (h : (dev ++ 47 :: rest).getLast? = some 47) :
    ∃ body, Plain 47 body ∧ dev ++ 47 :: rest = pathOf dev body [] := by
  obtain ⟨segs, hne, hsegs, heq⟩ := exists_join (l := 47 :: rest) rfl
  obtain ⟨body, x, rfl⟩ := (List.eq_nil_or_concat segs).resolve_left hne
  rw [List.concat_eq_append] at hsegs heq
  have hpath : dev ++ 47 :: rest = pathOf dev body x := by rw [heq, pathOf]
  rw [hpath] at h
  obtain rfl := (getLast?_pathOf _ _ (hsegs x (by simp))).mp h
  exact ⟨body, fun t ht => hsegs t (List.mem_append_left _ ht), hpath⟩

/-- A name behind a slash is the last part. -/
theorem pathOf_nil_append (dev : Text) (body : List Text) (name : Text) :
    pathOf dev body [] ++ name = pathOf dev body name := by
  rw [pathOf_eq, pathOf_eq, List.append_assoc, List.singleton_append]

/-- `Enterable` by the components. -/
theorem enterable_iff (h : Canonical dev body name) (hquiet : ¬ dotDot <:+ dev) :
    Enterable (pathOf dev body []) name ↔ [] ∉ body ∧
      if (ascii "http:").isPrefixOf name then (∀ t ∈ body, ¬ dotDot <:+ t) ∧ getExt name = []
      else ∀ t ∈ body ++ [name], ¬ dotDot <:+ t := by
  have hplain : Plain 47 (body ++ [[]]) := plain_concat h.plain_body List.not_mem_nil
  have hplain' : Plain 47 (body ++ [name] ++ [[]]) := plain_concat h.plain List.not_mem_nil
  have hcontains : ∀ b, Plain 47 (b ++ [[]]) →
      (¬ contains (pathOf dev b []) (ascii "../") = true ↔ ∀ t ∈ b, ¬ dotDot <:+ t) :=
    fun b hb => by
      rw [contains_iff, pathOf, dots_infix_join_iff h.device.plain hb, ← List.cons_append,
        List.dropLast_concat, List.exists_mem_cons_iff, or_iff_right hquiet]
      push Not
      rfl
  rw [Enterable, pathOf_nil_append, h.squeeze_eq_self_iff, hcontains body hplain,
    ← pathOf_concat, hcontains (body ++ [name]) hplain']
  exact and_iff_right h.not_mem_backslash

/-- A path without backslashes is canonical. -/
theorem canonical_of_not_mem (hdev : Device dev) (hplain : Plain 47 (body ++ [x]))
    (hlen : (pathOf dev body x).length ≤ maxPathLen) (hback : 92 ∉ pathOf dev body x) :
    Canonical dev body x := by
  refine ⟨hdev, hplain, fun t ht hmem => hback ?_, hlen⟩
  rw [pathOf, List.mem_append]
  exact .inr (List.mem_flatMap.mpr ⟨t, ht, .tail 47 hmem⟩)

/-- What `UpdateDirName` makes of the directory when a folder is entered. -/
def entered (dir name : Text) : Text :=
  if (ascii "http:").isPrefixOf name then dir ++ name else dir ++ name ++ [47]

section Round

variable {menu : Menu} {isOnline : Text → Bool} {s s' : Place} {sel : Option Selected}

/-- Changing the folder cleans the new path up. -/
theorem changeFolder_eq (hclean : ∀ path, ¬ (menu = .onlineMedia ∧ isOnline path = true))
    (h : updateDirName s sel = (1, s')) :
    changeFolder menu isOnline sel s = some { s' with dir := cleanupPath s'.dir } := by
  rw [changeFolder, h]
  simp only
  rw [if_neg (by decide), if_neg (hclean s'.dir)]

/-- Both ways depend on the cleaning. -/
theorem round_iff_cleanupPath (hclean : ∀ path, ¬ (menu = .onlineMedia ∧ isOnline path = true))
    (hname : FolderName name) (hdir : s.dir = dir ++ [47]) (hdev : 4 ≤ dir.length)
    (hlen : s.dir.length + 1 + name.length < maxPathLen) :
    Round menu isOnline s name ↔
      cleanupPath (entered s.dir name) = s.dir ++ name ++ [47] ∧ cleanupPath s.dir = s.dir := by
  -- Entering appends the name, going up cuts it off again; both clean the path.
  obtain ⟨s', henter, hentered⟩ : ∃ s', updateDirName s (folder name) = (1, s') ∧
      s'.dir = entered s.dir name := by
    rw [hname.updateDirName_eq s hlen, entered]
    split_ifs
    · exact ⟨_, rfl, rfl⟩
    · exact ⟨_, rfl, rfl⟩
  -- going up from the entered path gives the folder and its name back
  have hgo : ∀ t : Place, t.dir = s.dir ++ name ++ [47] →
      goUp t = { t with dir := s.dir, lastdir := name } := fun t ht => by
    have hpos := List.length_pos_iff.mpr hname.ne_nil
    rw [hdir, List.append_assoc, List.append_assoc, List.singleton_append] at ht
    rw [hdir]
    refine goUp_eq ht hname.plain ?_
    rw [ht]
    simp only [List.length_append, List.length_cons, List.length_nil]
    omega
  rw [Round, changeFolder_eq hclean henter, hentered]
  constructor
  · rintro ⟨s₁, s₂, h₁, hdir₁, h₂, hdir₂, -⟩
    obtain rfl := Option.some.inj h₁
    have hup := updateDirName_up { s' with dir := cleanupPath (entered s.dir name) }
    rw [changeFolder_eq hclean hup, hgo _ hdir₁] at h₂
    obtain rfl := Option.some.inj h₂
    exact ⟨hdir₁, hdir₂⟩
  · rintro ⟨hdir₁, hdir₂⟩
    have hup := updateDirName_up { s' with dir := cleanupPath (entered s.dir name) }
    refine ⟨_, _, rfl, hdir₁, changeFolder_eq hclean hup, ?_, ?_⟩
    · rw [hgo _ hdir₁]
      exact hdir₂
    · rw [hgo _ hdir₁]

/-- Entering a folder of a device and going up is the identity for the folders that are
`Enterable`. -/
theorem round_iff (hclean : ∀ path, ¬ (menu = .onlineMedia ∧ isOnline path = true))
    (hdev : dev ∈ deviceNames) (hname : FolderName name) (hdir : s.dir = dev ++ 47 :: rest)
    (hslash : s.dir.getLast? = some 47) (hlen : s.dir.length + 1 + name.length < maxPathLen) :
    Round menu isOnline s name ↔ Enterable s.dir name := by
  rw [hdir] at hslash
  obtain ⟨body, hbody, hpath⟩ := exists_directory hslash
  rw [← hdir] at hpath
  have hplain : Plain 47 (body ++ [name]) := plain_concat hbody hname.plain
  have hdevice := device_of_mem hdev
  have hquiet := not_dots_of_mem hdev
  have hfull : s.dir ++ name = pathOf dev body name := by rw [hpath, pathOf_nil_append]
  have hslashed : s.dir ++ name ++ [47] = pathOf dev (body ++ [name]) [] := by
    rw [hfull, pathOf_concat]
  have hlen₁ : (pathOf dev body []).length ≤ maxPathLen := by
    rw [← hpath]
    omega
  have hlen₂ : (pathOf dev body name).length < maxPathLen := by
    rw [← hfull, List.length_append]
    omega
  have hlen₃ : (pathOf dev (body ++ [name]) []).length ≤ maxPathLen := by
    rw [pathOf_concat, List.length_append, List.length_singleton]
    exact hlen₂
  have hstart : s.dir = dev ++ join 47 body ++ [47] := by rw [hpath, pathOf_eq]
  have hfour : 4 ≤ (dev ++ join 47 body).length := by
    have hall : deviceNames.all fun dev => 4 ≤ dev.length := by decide
    have hle := of_decide_eq_true (List.all_eq_true.mp hall dev hdev)
    rw [List.length_append]
    omega
  rw [round_iff_cleanupPath hclean hname hstart hfour hlen, entered, hslashed, hfull, hpath,
    cleanupPath_eq_self_iff hdevice hbody hlen₁, List.forall_mem_cons, and_iff_right hquiet]
  by_cases hhttp : (ascii "http:").isPrefixOf name = true
  · rw [if_pos hhttp]
    constructor
    · rintro ⟨hclean₁, hcan, hnil, hdots⟩
      obtain ⟨u, hu⟩ := Canonical.eq_device dev body name
      have htidy : Tidy dev (pathOf dev (body ++ [name]) []) := by
        rcases tidy_cleanupPath hdevice (hu ▸ hlen₂.le) with hempty | htidy
        · rw [← hu, hclean₁] at hempty
          exact absurd hempty (pathOf_ne_nil _ _ _)
        · rwa [← hu, hclean₁] at htidy
      obtain ⟨-, -, -, -, -, hback⟩ := htidy
      have h := canonical_of_not_mem hdevice hplain hlen₂.le fun hmem => hback (by
        rw [pathOf_concat]
        exact List.mem_append_left _ hmem)
      refine (enterable_iff h hquiet).mpr ⟨hnil, ?_⟩
      rw [if_pos hhttp]
      refine ⟨hdots, ?_⟩
      -- with an extension there would be no slash
      by_contra hext
      rw [h.cleanupPath_quiet hnil (List.forall_mem_cons.mpr ⟨hquiet, hdots⟩), if_pos (.inr hext), pathOf_concat] at hclean₁
      exact absurd hclean₁ (by simp)
    · intro henter
      have h := canonical_of_not_mem hdevice hplain hlen₂.le (pathOf_nil_append dev body name ▸ henter.1)
      obtain ⟨hnil, hrest⟩ := (enterable_iff h hquiet).mp henter
      rw [if_pos hhttp] at hrest
      have hcan := canonical_of_not_mem hdevice (plain_concat hbody List.not_mem_nil) hlen₁
        fun hmem => henter.1 (List.mem_append_left _ hmem)
      refine ⟨?_, hcan, hnil, hrest.1⟩
      rw [h.cleanupPath_quiet hnil (List.forall_mem_cons.mpr ⟨hquiet, hrest.1⟩), if_neg]
      rw [not_or, not_not]
      exact ⟨hname.ne_nil, hrest.2⟩
  · rw [if_neg hhttp, cleanupPath_eq_self_iff hdevice hplain hlen₃, List.forall_mem_cons,
      and_iff_right hquiet]
    constructor
    · rintro ⟨⟨hcan, hnil, hdots⟩, -⟩
      have h := canonical_of_not_mem hdevice hplain hlen₂.le fun hmem => hcan.not_mem_backslash (by
        rw [pathOf_concat]
        exact List.mem_append_left _ hmem)
      refine (enterable_iff h hquiet).mpr ⟨fun hmem => hnil (List.mem_append_left _ hmem), ?_⟩
      rwa [if_neg hhttp]
    · intro henter
      have h := canonical_of_not_mem hdevice hplain hlen₂.le (pathOf_nil_append dev body name ▸ henter.1)
      obtain ⟨hnil, hrest⟩ := (enterable_iff h hquiet).mp henter
      rw [if_neg hhttp] at hrest
      have hcan := canonical_of_not_mem hdevice (plain_concat hbody List.not_mem_nil) hlen₁
        fun hmem => henter.1 (List.mem_append_left _ hmem)
      refine ⟨⟨h.concat hlen₂, fun hmem => ?_, hrest⟩, hcan, hnil, fun t ht =>
        hrest t (List.mem_append_left _ ht)⟩
      rcases List.mem_append.mp hmem with hmem | hmem
      · exact hnil hmem
      · exact hname.ne_nil (List.mem_singleton.mp hmem).symm

end Round

/-- Going up leads back from the folders that are `Enterable`, and only from them; from the root of
a device it leads to the list of the devices. -/
theorem changeFolder_round (menu : Menu) (isOnline : Text → Bool)
    (hclean : ∀ path, ¬ (menu = .onlineMedia ∧ isOnline path = true)) :
    ∀ dev ∈ deviceNames, ∀ s : Place,
      (∀ rest name, s.dir = dev ++ 47 :: rest → s.dir.getLast? = some 47 → FolderName name →
        s.dir.length + 1 + name.length < maxPathLen →
          (Round menu isOnline s name ↔ Enterable s.dir name)) ∧
      (s.dir = dev ++ [47] →
        changeFolder menu isOnline upEntry s = some { s with dir := [], lastdir := dev }) := by
  intro dev hdev s
  refine ⟨fun rest name hdir hslash hname hlen =>
    round_iff hclean hdev hname hdir hslash hlen, fun hdir => ?_⟩
  have hroot : isDeviceRoot s.dir = true := by
    have hall : deviceNames.all fun dev => isDeviceRoot (dev ++ [47]) := by decide
    rw [hdir]
    exact List.all_eq_true.mp hall dev hdev
  have hgo : goUp s = { s with dir := [], lastdir := dev } := by
    rw [goUp, hroot, if_pos rfl, hdir, List.dropLast_concat]
  rw [changeFolder_eq hclean (updateDirName_up s), hgo]
  rfl

theorem changeFolder_round_sample :
    Round .music (fun _ => false) ⟨ascii "sd1:/music/", [], []⟩ (ascii "Vol. 1") :=
  ((changeFolder_round .music (fun _ => false) (fun _ hand => nomatch hand.1) (ascii "sd1:")
    (by decide) ⟨ascii "sd1:/music/", [], []⟩).1 (ascii "music/") (ascii "Vol. 1") rfl rfl
    ⟨by decide, by decide, by decide⟩ (by decide)).mpr (by decide)

/-- The folder `Wait...` is entered without a slash at the end, and on the way up its last dot is
stripped instead. -/
theorem not_round_wait :
    changeFolder .music (fun _ => false) (folder (ascii "Wait...")) ⟨ascii "sd1:/music/", [], []⟩ =
        some ⟨ascii "sd1:/music/Wait...", [], []⟩ ∧
      changeFolder .music (fun _ => false) upEntry ⟨ascii "sd1:/music/Wait...", [], []⟩ =
        some ⟨ascii "sd1:/music/", ascii "Wait..", []⟩ ∧
      ¬ Round .music (fun _ => false) ⟨ascii "sd1:/music/", [], []⟩ (ascii "Wait...") := by
  have henter : changeFolder .music (fun _ => false) (folder (ascii "Wait..."))
      ⟨ascii "sd1:/music/", [], []⟩ = some ⟨ascii "sd1:/music/Wait...", [], []⟩ := by decide
  refine ⟨henter, by decide, ?_⟩
  rintro ⟨s₁, -, h₁, hdir, -⟩
  rw [henter] at h₁
  obtain rfl := Option.some.inj h₁
  exact absurd hdir (by decide)

end WiiMC.Browser
