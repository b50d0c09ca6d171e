import WiiMC.Media.FolderPath

/-!
# Browsing the online media

`BrowserChangeFolder` of `filebrowser.cpp` opens a row of the listing. The path of the directory is
cleaned up, and its device is mounted, unless `IsOnlineMediaPath` finds a link below it;
`UpdateDirName` does not ask for this.

* `isOnlineMediaPath`, `browserChangeFolder`: the functions.
* `Shows`, `Reached`: the screens that show a folder, and those that are reached.
* `Browses`: the tree is browsed as it was written.
* `browses_iff`: the tree is browsed exactly where no folder is taken for something else.
-/

namespace WiiMC.Media

open Bytes Player Browser Segments

/-! ## The functions -/

/-- `IsOnlineMediaPath`. -/
def isOnlineMediaPath (om : List Medium) (path : Text) : Bool :=
  2 ≤ path.length && path.getLast? = some 47 && om.any fun m => path.isPrefixOf m.file

/-- `browser`: where it is, and what it lists. -/
structure Screen where
  place : Place
  rows : List Entry

/-- What is not modelled: whether the device of a path can be mounted, and what becomes of the rows
when the directory is read as a playlist, where the first component says whether it is one. -/
structure Devices where
  changeInterface : Text → Bool
  parsePlaylistFile : Screen → Bool × List Entry

/-- `browser.selIndex`, where the row `i` is selected. -/
def selected (rows : List Entry) (i : ℕ) : Option Selected :=
  rows[i]?.map fun e => ⟨i = 0, e.type, e.file⟩

/-- The end of `BrowserChangeFolder`, behind the cleaning of the path. -/
def showFolder (dev : Devices) (om : List Medium) (rows : List Entry) (p : Place) : Screen :=
  let mounted := p.dir ≠ [] ∧
    (isOnlineMediaPath om p.dir = true ∨ dev.changeInterface p.dir = true)
  if mounted ∧ isPlaylistExt (getExt p.dir) = true then
    match dev.parsePlaylistFile ⟨p, rows⟩ with
    | (true, rows) => ⟨p, rows⟩
    | (false, rows) =>
        let back : Place := { p with dir := p.history.getLastD [], history := p.history.dropLast }
        if rows ≠ [] then ⟨back, rows⟩ else ⟨back, parseOnlineMedia om back.dir⟩
  else ⟨p, parseOnlineMedia om p.dir⟩

/-- `BrowserChangeFolder(true, ...)` in the online media, where the row `i` is selected; `none` where
it returns at once. -/
def browserChangeFolder (dev : Devices) (om : List Medium) (i : ℕ) (s : Screen) : Option Screen :=
  (changeFolder .onlineMedia (isOnlineMediaPath om) (selected s.rows i) s.place).map
    (showFolder dev om s.rows)

/-! ## What browsing is for -/

section Purpose

variable (dev : Devices) (es : Elements)

/-- The screen shows the folder `ns`. -/
structure Shows (ns : List Text) (s : Screen) : Prop where
  dir : s.place.dir = dirOf ns
  rows : s.rows = parseOnlineMedia (recurseOnlineMedia es []) (dirOf ns)

/-- The row `e` is selected and opened. -/
def Opens (e : Entry) (s s' : Screen) : Prop :=
  ∃ i, s.rows[i]? = some e ∧ browserChangeFolder dev (recurseOnlineMedia es []) i s = some s'

/-- There is a row `e`, and it leads to the folder `ns`. -/
def Leads (e : Entry) (ns : List Text) (s : Screen) : Prop :=
  e ∈ s.rows ∧ ∀ i, s.rows[i]? = some e →
    ∃ s', browserChangeFolder dev (recurseOnlineMedia es []) i s = some s' ∧ Shows es ns s'

/-- The screens that are reached from the empty directory by entering folders and going up, as long
as each step leads to the folder that was meant. -/
inductive Reached : List Text → Screen → Prop
  | start {s : Screen} (h : Shows es [] s) : Reached [] s
  | enter {ns : List Text} {n : Text} {s s' : Screen} (h : Reached ns s)
      (hopen : Opens dev es (folderRow n) s s') (hs : Shows es (ns ++ [n]) s') : Reached (ns ++ [n]) s'
  | leave {ns : List Text} {n : Text} {s s' : Screen} (h : Reached (ns ++ [n]) s)
      (hopen : Opens dev es upRow s s') (hs : Shows es ns s') : Reached ns s'

/-- The tree is browsed as it was written. -/
structure Browses : Prop where
  lists : ∀ ns, ns = [] ∨ ns ∈ es.folders →
    Lists es ns (parseOnlineMedia (recurseOnlineMedia es []) (dirOf ns))
  /-- The links are listed with an allowed protocol. -/
  allowed : ∀ l ∈ es.links, isAllowedProtocol (address l.addr) = true ∧
    (address l.addr = l.addr ∨ address l.addr = ascii "http://" ++ l.addr)
  /-- The folders around a link that is listed can be entered one by one. -/
  enters : ∀ l ∈ es.links, Shown l → ∀ ns n s, ns ++ [n] <+: l.folders → Reached dev es ns s →
    Leads dev es (folderRow n) (ns ++ [n]) s
  reaches : ∀ l ∈ es.links, Shown l → ∃ s, Reached dev es l.folders s ∧
    row (typeOf l.type l.addr) (address l.addr) l.name ∈ s.rows
  leaves : ∀ ns n s, Reached dev es (ns ++ [n]) s → Leads dev es upRow ns s

end Purpose

/-- There is a link below the folder. -/
def Elements.Live (es : Elements) (ns : List Text) : Prop := ∃ l ∈ es.links, ns <+: l.folders

/-- No folder is taken for something else. -/
structure Elements.Clear (es : Elements) : Prop where
  /-- For a playlist, when it is entered. -/
  http : ∀ l ∈ es.links, Shown l → ∀ ns n, ns ++ [n] <+: l.folders →
    (ascii "http:").isPrefixOf n = true → Restored ns n
  /-- For the root of a device, when it is left. -/
  root : ∀ ns n, es.Live (ns ++ [n]) → isDeviceRoot (dirOf (ns ++ [n])) = true → ns = []

variable {dev : Devices} {es : Elements} {ns : List Text} {n : Text} {s s' : Screen} {e : Entry}

/-! ## The folders with links -/

namespace Elements.Live

/-- A folder above a live one is live. -/
theorem of_le {ns' : List Text} (h : es.Live ns') (hle : ns <+: ns') : es.Live ns :=
  h.imp fun _ hl => ⟨hl.1, hle.trans hl.2⟩

/-- The folders on the way to a link have names. -/
theorem named (h : es.Live ns) (hok : es.Ok) : ∀ n ∈ ns, Named n := by
  obtain ⟨l, hl, hle⟩ := h
  exact fun n hn => (hok.link hl).named n (hle.subset hn)

/-- The path of a live folder has room. -/
theorem room (h : es.Live ns) (hok : es.Ok) : (dirOf ns).length < maxPathLen := by
  obtain ⟨l, hl, rest, hrest⟩ := h
  have hroom := (hok.link hl).room
  rw [← hrest, dirOf, close_append, List.length_append] at hroom
  exact Nat.lt_of_le_of_lt (Nat.le_add_right _ _) hroom

/-- A tree with a live folder has some link. -/
theorem links_ne_nil (h : es.Live ns) : es.links ≠ [] := by
  obtain ⟨l, hl, -⟩ := h
  exact List.ne_nil_of_mem hl

/-- A folder with links is found in the list. -/
theorem isOnlineMediaPath (h : es.Live (ns ++ [n])) (hok : es.Ok) :
    isOnlineMediaPath (recurseOnlineMedia es []) (dirOf (ns ++ [n])) = true := by
  have hn := h.named hok n (by simp)
  obtain ⟨l, hl, rest, hrest⟩ := h
  have hdir : dirOf (ns ++ [n]) = dirOf ns ++ n ++ [47] := by simp [dirOf]
  have hmem : l.medium [] ∈ recurseOnlineMedia es [] :=
    (recurseOnlineMedia_perm [] hok.room).mem_iff.mpr (List.mem_map_of_mem hl)
  have hbegins : dirOf (ns ++ [n]) <+: (l.medium []).file := by
    refine ⟨dirOf rest, ?_⟩
    rw [Link.medium, ← hrest]
    simp [dirOf]
  have hlen : 2 ≤ (dirOf (ns ++ [n])).length := by
    have hpos := List.length_pos_iff.mpr hn.ne_nil
    rw [hdir, List.length_append, List.length_append, List.length_singleton]
    omega
  have hlast : (dirOf (ns ++ [n])).getLast? = some 47 := getLast?_close (by simp)
  rw [Media.isOnlineMediaPath, hlast, decide_eq_true hlen, decide_eq_true rfl]
  exact List.any_eq_true.mpr ⟨_, hmem, List.isPrefixOf_iff_prefix.mpr hbegins⟩

end Elements.Live

/-- A link is no folder. -/
theorem typeOf_ne_folder (type : Option Text) (addr : Text) : typeOf type addr ≠ .folder := by
  unfold typeOf
  split <;> split_ifs <;> exact nofun

/-- The folders that are listed are those with links. -/
theorem folderRow_mem_iff (hok : es.Ok) (hns : ∀ n ∈ ns, Named n) (hs : Shows es ns s) :
    folderRow n ∈ s.rows ↔ es.Live (ns ++ [n]) := by
  obtain ⟨names, -, hnames, hperm⟩ := parseOnlineMedia_lists hok hns
  have hup : folderRow n ≠ upRow := fun heq => by
    rw [folderRow, upRow, row, row, Entry.mk.injEq, Option.some.injEq, Option.some.injEq] at heq
    exact absurd (heq.2.1.symm.trans heq.2.2.1) (by decide)
  have hlink : folderRow n ∉ linkRows es.links ns := fun hmem => by
    obtain ⟨l, -, heq⟩ := List.mem_map.mp hmem
    exact typeOf_ne_folder l.type l.addr (congrArg Entry.type heq)
  rw [Elements.Live, ← hnames, hs.rows, hperm.mem_iff, List.mem_append, List.mem_append]
  constructor
  · rintro ((hmem | hmem) | hmem)
    · split at hmem
      · exact absurd hmem List.not_mem_nil
      · exact absurd (List.mem_singleton.mp hmem) hup
    · exact absurd hmem hlink
    · obtain ⟨m, hm, heq⟩ := List.mem_map.mp hmem
      exact Option.some.inj (congrArg Entry.file heq) ▸ hm
  · exact fun hmem => .inr (List.mem_map_of_mem hmem)

/-! ## What is shown -/

/-- A directory with a slash at its end is listed, and not read as a playlist. -/
theorem showFolder_eq {om : List Medium} {rows : List Entry} {p : Place}
    (h : p.dir = [] ∨ p.dir.getLast? = some 47) :
    showFolder dev om rows p = ⟨p, parseOnlineMedia om p.dir⟩ := by
  have hext : getExt p.dir = [] := by
    obtain hnil | hlast := h
    · rw [hnil]
      rfl
    · exact getExt_of_getLast hlast
  rw [showFolder, hext]
  exact if_neg fun hand => absurd hand.2 (by decide)

/-- Showing a folder lists it. -/
theorem showFolder_dirOf {om : List Medium} {rows : List Entry} {p : Place} (h : p.dir = dirOf ns) :
    showFolder dev om rows p = ⟨p, parseOnlineMedia om (dirOf ns)⟩ := by
  rw [← h]
  refine showFolder_eq ?_
  by_cases hns : ns = []
  · exact .inl (by rw [h, hns]; rfl)
  · exact .inr (by rw [h]; exact getLast?_close hns)

/-! ## One step -/

/-- The row that is selected is passed on. -/
theorem selected_eq {rows : List Entry} {i : ℕ} (hi : rows[i]? = some e) :
    selected rows i = some ⟨i = 0, e.type, e.file⟩ := by
  rw [selected, hi]
  rfl

/-- In a folder the first row is the way up. -/
theorem row_zero (hok : es.Ok) (hlive : es.Live ns) (hne : ns ≠ []) (hs : Shows es ns s) :
    s.rows[0]? = some upRow := by
  rw [← List.head?_eq_getElem?, hs.rows]
  exact parseOnlineMedia_up hok (hlive.named hok) hne hlive.links_ne_nil

/-- What entering a folder leads to. -/
theorem changeFolder_enter (hok : es.Ok) (hlive : es.Live (ns ++ [n])) (hs : Shows es ns s) {i : ℕ}
    (hi : s.rows[i]? = some (folderRow n)) :
    changeFolder .onlineMedia (isOnlineMediaPath (recurseOnlineMedia es [])) (selected s.rows i)
        s.place =
      if (ascii "http:").isPrefixOf n then
        some ⟨cleanupPath (dirOf ns ++ n), s.place.lastdir, s.place.history ++ [dirOf ns]⟩
      else some ⟨dirOf (ns ++ [n]), s.place.lastdir, s.place.history⟩ := by
  have hn := hlive.named hok n (by simp)
  have hdir : dirOf (ns ++ [n]) = dirOf ns ++ n ++ [47] := by simp [dirOf]
  have hfirst : decide (i = 0) = true → s.place.dir = [] := fun hzero => by
    rw [hs.dir, dirOf_eq_nil]
    by_contra hne
    have hrow := row_zero hok (hlive.of_le (List.prefix_append ns [n])) hne hs
    rw [of_decide_eq_true hzero, hrow] at hi
    exact hn.visible (Option.some.inj (congrArg Entry.file (Option.some.inj hi)) ▸ rfl)
  have hlen : s.place.dir.length + 1 + n.length < maxPathLen := by
    have hroom := hlive.room hok
    rw [hdir, List.length_append, List.length_append, List.length_singleton] at hroom
    rw [hs.dir]
    omega
  have hselected : selected s.rows i = some ⟨i = 0, .folder, some n⟩ := selected_eq hi
  have hupdate := updateDirName_folder hn.ne_nil hn.plain hn.visible hfirst hlen
  rw [changeFolder, hselected, hupdate]
  split_ifs with hhttp
  · -- The path has no slash at its end.
    have hoff : isOnlineMediaPath (recurseOnlineMedia es []) (dirOf ns ++ n) = false := by
      have hlast : (dirOf ns ++ n).getLast? ≠ some 47 := fun h => by
        rw [List.getLast?_append_of_ne_nil _ hn.ne_nil] at h
        exact hn.plain (List.mem_of_getLast? h)
      rw [isOnlineMediaPath, decide_eq_false hlast, Bool.and_false, Bool.false_and]
    simp only [hs.dir, hoff]
    rw [if_neg (by decide), if_neg fun hand => Bool.false_ne_true hand.2]
  · simp only [hs.dir, ← hdir, hlive.isOnlineMediaPath hok]
    rw [if_neg (by decide), if_pos ⟨trivial, trivial⟩]

/-- What going up leads to. -/
theorem changeFolder_leave (hok : es.Ok) (hlive : es.Live (ns ++ [n])) (hs : Shows es (ns ++ [n]) s)
    {i : ℕ} (hi : s.rows[i]? = some upRow) :
    ∃ p, changeFolder .onlineMedia (isOnlineMediaPath (recurseOnlineMedia es []))
        (selected s.rows i) s.place = some p ∧
      p.dir = if isDeviceRoot (dirOf (ns ++ [n])) then [] else dirOf ns := by
  have hn := hlive.named hok n (by simp)
  have hdir : s.place.dir = dirOf ns ++ n ++ [47] := by
    rw [hs.dir]
    simp [dirOf]
  have hup : (goUp s.place).dir = if isDeviceRoot (dirOf (ns ++ [n])) then [] else dirOf ns := by
    rw [← hs.dir]
    split_ifs with hroot
    · rw [goUp, if_pos hroot]
    · have hslash : dirOf ns = [] ∨ (dirOf ns).getLast? = some 47 :=
        (eq_or_ne ns []).imp dirOf_eq_nil.mpr getLast?_close
      rw [goUp_of_not_root (Bool.eq_false_iff.mpr hroot) hdir hslash hn.plain]
  have hselected : selected s.rows i = some ⟨i = 0, .folder, some dotDot⟩ := selected_eq hi
  rw [changeFolder, hselected, updateDirName_dots]
  simp only
  rw [if_neg (by decide)]
  by_cases hempty : (goUp s.place).dir = []
  · have hoff : isOnlineMediaPath (recurseOnlineMedia es []) (goUp s.place).dir = false := by
      rw [hempty]
      rfl
    have hwiped : cleanupPath (goUp s.place).dir = (goUp s.place).dir := by
      rw [hempty]
      rfl
    rw [hwiped, if_neg fun hand => Bool.false_ne_true (hoff.symm.trans hand.2)]
    exact ⟨_, rfl, hup⟩
  · -- The parent has a link below it, too.
    rw [hup] at hempty
    have hnot : ¬isDeviceRoot (dirOf (ns ++ [n])) = true := fun hroot => hempty (if_pos hroot)
    rw [if_neg hnot] at hempty hup
    have honline : isOnlineMediaPath (recurseOnlineMedia es []) (dirOf ns) = true := by
      obtain ⟨pre, m, rfl⟩ := (List.eq_nil_or_concat ns).resolve_left (mt dirOf_eq_nil.mpr hempty)
      rw [List.concat_eq_append] at hlive ⊢
      exact (hlive.of_le (List.prefix_append _ [n])).isOnlineMediaPath hok
    rw [hup, if_pos ⟨trivial, honline⟩, if_neg hnot]
    exact ⟨_, rfl, hup⟩

/-- A playlist is left for the last directory of the history. -/
theorem showFolder_dir {om : List Medium} {rows : List Entry} {p : Place} :
    (showFolder dev om rows p).place.dir = p.dir ∨
      (showFolder dev om rows p).place.dir = p.history.getLastD [] := by
  unfold showFolder
  simp only
  split
  · split
    · exact .inl rfl
    · split <;> exact .inr rfl
  · exact .inl rfl

/-- A folder can be entered exactly when it is not taken for a playlist, or the slash is added. -/
theorem leads_enter_iff (hok : es.Ok) (hlive : es.Live (ns ++ [n])) (hs : Shows es ns s) :
    Leads dev es (folderRow n) (ns ++ [n]) s ↔
      ((ascii "http:").isPrefixOf n = true → Restored ns n) := by
  have hnamed := hlive.named hok
  have hmem : folderRow n ∈ s.rows :=
    (folderRow_mem_iff hok (fun m hm => hnamed m (List.mem_append_left _ hm)) hs).mpr hlive
  have hclean := cleanupPath_eq_dirOf_iff hnamed (hlive.room hok).le
  constructor
  · rintro ⟨-, hall⟩ hhttp
    obtain ⟨i, hi⟩ := List.mem_iff_getElem?.mp hmem
    obtain ⟨s', hstep, hs'⟩ := hall i hi
    rw [browserChangeFolder, changeFolder_enter hok hlive hs hi, if_pos hhttp] at hstep
    obtain rfl := Option.some.inj hstep
    refine hclean.mp ((showFolder_dir.resolve_right fun hback => ?_).symm.trans hs'.dir)
    -- The history leads back to where the folder is, which is another directory.
    rw [hs'.dir, List.getLastD_concat] at hback
    have hlen := congrArg List.length hback
    rw [dirOf, close_append, List.length_append, close_cons, List.length_append, dirOf] at hlen
    simp only [List.length_cons] at hlen
    omega
  · intro hrestored
    refine ⟨hmem, fun i hi => ?_⟩
    rw [browserChangeFolder, changeFolder_enter hok hlive hs hi]
    split_ifs with hhttp
    · have hdir := hclean.mpr (hrestored hhttp)
      exact ⟨_, congrArg some (showFolder_dirOf hdir), hdir, rfl⟩
    · exact ⟨_, congrArg some (showFolder_dirOf rfl), rfl, rfl⟩

/-- A folder can be left exactly when it is not taken for the root of a device, or is at the top. -/
theorem leads_leave_iff (hok : es.Ok) (hlive : es.Live (ns ++ [n])) (hs : Shows es (ns ++ [n]) s) :
    Leads dev es upRow ns s ↔ (isDeviceRoot (dirOf (ns ++ [n])) = true → ns = []) := by
  have hzero := row_zero hok hlive (by simp) hs
  constructor
  · rintro ⟨-, hall⟩ hroot
    obtain ⟨p, hp, hdir⟩ := changeFolder_leave hok hlive hs hzero
    obtain ⟨s', hstep, hs'⟩ := hall 0 hzero
    rw [if_pos hroot] at hdir
    rw [browserChangeFolder, hp, Option.map_some, showFolder_eq (.inl hdir)] at hstep
    obtain rfl := Option.some.inj hstep
    exact dirOf_eq_nil.mp (hs'.dir.symm.trans hdir)
  · intro htop
    refine ⟨List.mem_of_getElem? hzero, fun i hi => ?_⟩
    obtain ⟨p, hp, hdir⟩ := changeFolder_leave hok hlive hs hi
    have hback : p.dir = dirOf ns := by
      rw [hdir]
      split_ifs with hroot
      · rw [htop hroot]
        rfl
      · rfl
    rw [browserChangeFolder, hp]
    exact ⟨_, congrArg some (showFolder_dirOf hback), hback, rfl⟩

/-! ## Runs -/

/-- What is reached shows its folder, and the folder has links. -/
theorem Reached.shows (hok : es.Ok) (h : Reached dev es ns s) :
    Shows es ns s ∧ (ns = [] ∨ es.Live ns) := by
  induction h with
  | start h => exact ⟨h, .inl rfl⟩
  | enter _ hopen hs ih =>
    obtain ⟨i, hi, -⟩ := hopen
    have hnamed := ih.2.elim (fun hnil => hnil ▸ nofun) fun hlive => hlive.named hok
    exact ⟨hs, .inr ((folderRow_mem_iff hok hnamed ih.1).mp (List.mem_of_getElem? hi))⟩
  | leave _ _ hs ih =>
    refine ⟨hs, .inr ?_⟩
    exact (ih.2.resolve_left (by simp)).of_le (List.prefix_append _ _)

/-- Where each folder on the way can be entered, the last one is reached. -/
theorem exists_reached {path : List Text}
    (h : ∀ ns n s, ns ++ [n] <+: path → Reached dev es ns s →
      Leads dev es (folderRow n) (ns ++ [n]) s) : ∃ s, Reached dev es path s := by
  induction path using List.reverseRecOn with
  | nil => exact ⟨⟨⟨[], [], []⟩, parseOnlineMedia (recurseOnlineMedia es []) []⟩, .start ⟨rfl, rfl⟩⟩
  | append_singleton path n ih =>
    obtain ⟨s, hs⟩ := ih fun ns m s hle => h ns m s (hle.trans (List.prefix_append path [n]))
    obtain ⟨hmem, hall⟩ := h path n s List.prefix_rfl hs
    obtain ⟨i, hi⟩ := List.mem_iff_getElem?.mp hmem
    obtain ⟨s', hstep, hs'⟩ := hall i hi
    exact ⟨s', .enter hs ⟨i, hi, hstep⟩ hs'⟩

/-- An address is the link's own, or has `http://` in front. -/
theorem address_eq {l : Link} (h : l.Ok) :
    address l.addr = l.addr ∨ address l.addr = ascii "http://" ++ l.addr := by
  have hroom := h.address
  unfold address
  split
  · exact .inl (List.take_of_length_le (by omega))
  · refine .inr (List.take_of_length_le ?_)
    rw [List.length_append, show (ascii "http://").length = 7 from rfl]
    omega

/-- A path that is taken for the root of a device is short. -/
theorem length_of_isDeviceRoot {path : Text} (h : isDeviceRoot path = true) : path.length ≤ 6 := by
  rw [isDeviceRoot, Bool.and_eq_true] at h
  simp only [Bool.or_eq_true, Bool.and_eq_true, decide_eq_true_eq] at h
  rcases h.2 with ((((⟨-, h⟩ | ⟨-, h⟩) | h) | ⟨-, h⟩) | ⟨-, h⟩) | h
  all_goals first | omega | exact h ▸ by decide

/-- A name is shorter than a path that has it. -/
theorem length_lt_dirOf (h : n ∈ ns) : n.length < (dirOf ns).length := by
  obtain ⟨init, rest, rfl⟩ := List.append_of_mem h
  rw [dirOf, close_append, close_cons, List.length_append, List.length_append, List.length_cons]
  omega

/-- A tree that is browsed has no such folder. -/
theorem Browses.clear (hok : es.Ok) (h : Browses dev es) : es.Clear := by
  constructor
  · intro l hl hshown ns n hle hhttp
    have hlive : es.Live (ns ++ [n]) := ⟨l, hl, hle⟩
    obtain ⟨s, hs⟩ : ∃ s, Reached dev es ns s := exists_reached fun pre m s hpre =>
      h.enters l hl hshown pre m s (hpre.trans ((List.prefix_append ns [n]).trans hle))
    exact (leads_enter_iff hok hlive (hs.shows hok).1).mp (h.enters l hl hshown ns n s hle hs) hhttp
  · intro ns n hlive hroot
    by_contra hne
    -- In so short a path no name begins with `http:`, so that the folder is reached.
    obtain ⟨s, hs⟩ : ∃ s, Reached dev es (ns ++ [n]) s := exists_reached fun pre m s hpre hs => by
      refine (leads_enter_iff hok (hlive.of_le hpre) (hs.shows hok).1).mpr fun hhttp => ?_
      have hlong := (List.isPrefixOf_iff_prefix.mp hhttp).length_le
      rw [show (ascii "http:").length = 5 from rfl] at hlong
      have hshort := length_of_isDeviceRoot hroot
      have hnamed := hlive.named hok
      obtain ⟨t, rest, rfl⟩ := List.exists_cons_of_ne_nil hne
      have ht := List.length_pos_iff.mpr (hnamed t (by simp)).ne_nil
      have hn := List.length_pos_iff.mpr (hnamed n (by simp)).ne_nil
      have hm : m ∈ t :: rest ∨ m = n := by
        have hmem := hpre.subset (List.mem_append_right pre List.mem_cons_self)
        rwa [List.mem_append, List.mem_singleton] at hmem
      rw [dirOf, close_append, List.length_append] at hshort
      obtain hm | rfl := hm
      · have hdir := length_lt_dirOf hm
        simp only [dirOf, close_cons, close_nil, List.length_append, List.length_cons] at hshort hdir
        omega
      · simp only [close_cons, close_nil, List.length_append, List.length_cons] at hshort
        omega
    exact hne ((leads_leave_iff hok hlive (hs.shows hok).1).mp (h.leaves ns n s hs) hroot)

/-- A proper tree with clear names is browsed. -/
theorem browses_of_clear (hok : es.Ok) (h : es.Clear) : Browses dev es := by
  have henters : ∀ l ∈ es.links, Shown l → ∀ ns n s, ns ++ [n] <+: l.folders →
      Reached dev es ns s → Leads dev es (folderRow n) (ns ++ [n]) s :=
    fun l hl hshown ns n s hle hs => (leads_enter_iff hok ⟨l, hl, hle⟩ (hs.shows hok).1).mpr
      (h.http l hl hshown ns n hle)
  refine ⟨fun ns hns => ?_, fun l hl => ?_, henters, fun l hl hshown => ?_, fun ns n s hs => ?_⟩
  · exact parseOnlineMedia_lists hok (hns.elim (fun hnil => hnil ▸ nofun) (hok.named ns))
  · exact ⟨isAllowedProtocol_address (hok.link hl), address_eq (hok.link hl)⟩
  · obtain ⟨s, hs⟩ := exists_reached (henters l hl hshown)
    obtain ⟨names, -, -, hperm⟩ := parseOnlineMedia_lists hok (hok.link hl).named
    refine ⟨s, hs, ?_⟩
    rw [(hs.shows hok).1.rows, hperm.mem_iff, List.mem_append, List.mem_append]
    refine .inl (.inr (List.mem_map.mpr ⟨l, ?_, rfl⟩))
    exact List.mem_filter.mpr ⟨hl, decide_eq_true ⟨rfl, hshown⟩⟩
  · obtain ⟨hshows, hlive⟩ := hs.shows hok
    have hlive := hlive.resolve_left (by simp)
    exact (leads_leave_iff hok hlive hshows).mpr (h.root ns n hlive)

/-- The tree is browsed as it was written exactly where no folder is taken for something else. -/
theorem browses_iff (dev : Devices) (hok : es.Ok) : Browses dev es ↔ es.Clear :=
  ⟨fun h => h.clear hok, browses_of_clear hok⟩

/-- A link in two folders. -/
def nested (outer inner : String) : Elements :=
  .folder (some (ascii outer))
    (.folder (some (ascii inner))
      (.link (some (ascii "News")) (some (ascii "http://host/news.mp3")) none .done) .done) .done

/-- Nothing can be mounted. -/
def noDevices : Devices := ⟨fun _ => false, fun _ => (false, [])⟩

/-- The nested tree has one link. -/
theorem nested_links (outer inner : String) : (nested outer inner).links =
    [⟨[ascii outer, ascii inner], ascii "News", ascii "http://host/news.mp3", none⟩] := rfl

/-- The nested tree is proper, if its names are. -/
theorem nested_ok {outer inner : String}
    (h : ∀ n ∈ [ascii outer, ascii inner], n ≠ [] ∧ 47 ∉ n ∧ n.head? ≠ some 46)
    (hroom : (dirOf [ascii outer, ascii inner]).length < maxPathLen) : (nested outer inner).Ok := by
  have hfolders : ∀ ns ∈ (nested outer inner).folders, ns <+: [ascii outer, ascii inner] := by
    have heq : (nested outer inner).folders = [[ascii outer], [ascii outer, ascii inner]] := rfl
    rw [heq]
    simp
  refine ⟨fun ns hns n hn => ?_, fun ns hns => ?_, fun l hl => ?_⟩
  · obtain ⟨hne, hplain, hdot⟩ := h n ((hfolders ns hns).subset hn)
    exact ⟨hne, hplain, hdot⟩
  · obtain ⟨rest, hrest⟩ := hfolders ns hns
    rw [← hrest, dirOf, close_append, List.length_append] at hroom
    exact Nat.lt_of_le_of_lt (Nat.le_add_right _ _) hroom
  · rw [nested_links, List.mem_singleton] at hl
    rw [hl]
    show (ascii "http://host/news.mp3").length + 7 < maxPathLen
    decide

theorem browses_iff_nested : Browses noDevices (nested "Radio" "Jazz") := by
  refine (browses_iff noDevices (nested_ok (by decide) (by decide))).mpr ⟨?_, ?_⟩
  · intro l hl _ ns n hle hhttp
    rw [nested_links, List.mem_singleton] at hl
    rw [hl] at hle
    have hnone : ∀ n ∈ [ascii "Radio", ascii "Jazz"], (ascii "http:").isPrefixOf n = false := by decide
    rw [hnone n (hle.subset (by simp))] at hhttp
    exact absurd hhttp Bool.false_ne_true
  · rintro ns n ⟨l, hl, hle⟩ hroot
    rw [nested_links, List.mem_singleton] at hl
    rw [hl] at hle
    have hnone : ∀ p ∈ [ascii "Radio", ascii "Jazz"].inits, isDeviceRoot (dirOf p) = false := by decide
    rw [hnone _ ((List.mem_inits _ _).mpr hle)] at hroot
    exact absurd hroot Bool.false_ne_true

/-- The folder `a` in `sd` is left for the empty directory, and a folder whose name begins with
`http:` cannot be entered. -/
theorem not_browses_nested :
    ¬Browses noDevices (nested "sd" "a") ∧ ¬Browses noDevices (nested "Radio" "http: live") := by
  constructor
  · intro h
    have hclear := h.clear (nested_ok (by decide) (by decide))
    have hlive : (nested "sd" "a").Live ([ascii "sd"] ++ [ascii "a"]) :=
      ⟨_, List.mem_singleton.mpr rfl, List.prefix_rfl⟩
    exact absurd (hclear.root _ _ hlive (by decide)) (by decide)
  · intro h
    have hclear := h.clear (nested_ok (by decide) (by decide))
    have hrestored := hclear.http _ (List.mem_singleton.mpr rfl) (by decide) [ascii "Radio"]
      (ascii "http: live") List.prefix_rfl (by decide)
    exact absurd hrestored.device (by decide)

end WiiMC.Media
