import WiiMC.Media.Tree
import Mathlib.Data.List.Induction
import Mathlib.Data.List.Perm.Basic

/-!
# The listing of an online folder

`ParseOnlineMedia` of `fileop.cpp` finds the links and the folders of `browser.dir` again in the
list of paths: a link stands in the folder with its path, and a folder is what follows up to the
next slash. The browser is the list of its entries here, as `WiiMC.Browser.Chain` keeps it linked;
the positions, which the sorting sets, are left out, and the texts are not translated.

* `parseOnlineMedia`: the function.
* `address`, `Shown`: the address of a link, and the links that are not rejected.
* `parseOnlineMedia_perm`: what is listed.
* `parseOnlineMedia_up`: the way up comes first.
-/

namespace WiiMC.Media

open Bytes Player Browser Segments StableSort

/-! ## The function -/

/-- An entry of the browser. -/
def row (type : EntryType) (file display : Text) : Entry := ⟨type, some file, some display, 0⟩

/-- `tmpurl`: without a protocol, `http://` is put in front. -/
def address (url : Text) : Text :=
  (if isAllowedProtocol url then url else ascii "http://" ++ url).take (maxPathLen - 1)

/-- One turn of the loop over `browserOnlineMedia`. -/
def addMedium (dir : Text) (rows : List Entry) (m : Medium) : List Entry :=
  if dir = m.file then
    if isAllowedProtocol m.url = false ∧ contains m.url (ascii "://") = true then rows
    else rows ++ [row m.type (address m.url) m.display]
  else if m.file.length > dir.length ∧ dir.isPrefixOf m.file then
    let folder := ((m.file.drop dir.length).take maxPathLen).takeWhile (· != 47)
    if rows.any fun e => e.file = some folder then rows else rows ++ [row .folder folder folder]
  else rows

/-- `SortBrowser(&browser, FileSortCallback)`, on the list of the entries. -/
def sortRows (rows : List Entry) : List Entry :=
  sortRuns (fun a b => decide (fileSortCallback a b ≤ 0)) (rows.map ([·]))

/-- The way up. -/
def upRow : Entry := row .folder dotDot (ascii " ..")

/-- `ParseOnlineMedia`, where nothing runs out of memory. -/
def parseOnlineMedia (om : List Medium) (dir : Text) : List Entry :=
  if om = [] then []
  else sortRows (om.foldl (addMedium dir) (if dir = [] then [] else [upRow]))

/-! ## What is in a folder -/

/-- A link whose protocol is allowed, or is not said. -/
def Shown (l : Link) : Prop := isAllowedProtocol l.addr = true ∨ ¬contains l.addr (ascii "://") = true

/-- Whether a link is shown is decided by its type and its address. -/
instance (l : Link) : Decidable (Shown l) := inferInstanceAs (Decidable (_ ∨ _))

/-- The links that stand in the folder `ns`. -/
def linkRows (ls : List Link) (ns : List Text) : List Entry :=
  (ls.filter fun l => l.folders = ns ∧ Shown l).map fun l =>
    row (typeOf l.type l.addr) (address l.addr) l.name

/-- The entry of a folder. -/
def folderRow (n : Text) : Entry := row .folder n n

/-- A link is kept with names that are names, and an address that has room. -/
structure Link.Ok (l : Link) : Prop where
  named : ∀ n ∈ l.folders, Named n
  room : (dirOf l.folders).length < maxPathLen
  address : l.addr.length + 7 < maxPathLen

/-- The links of a proper tree are proper. -/
theorem Elements.Ok.link {es : Elements} (h : es.Ok) {l : Link} (hl : l ∈ es.links) : l.Ok := by
  by_cases hnil : l.folders = []
  · refine ⟨fun n hn => ?_, ?_, h.address l hl⟩
    · rw [hnil] at hn
      exact absurd hn List.not_mem_nil
    · rw [hnil]
      decide
  · have hmem := Elements.prefix_mem_folders hl List.prefix_rfl hnil
    exact ⟨h.named _ hmem, h.room _ hmem, h.address l hl⟩

/-- The names of folders have no slash in them. -/
theorem plain_of_named {ns : List Text} (h : ∀ n ∈ ns, Named n) : Plain 47 ns :=
  fun n hn => (h n hn).plain

variable {l : Link} {ls : List Link} {ns : List Text} {n : Text}

/-! ## Addresses -/

/-- An address with a protocol has a slash in it. -/
theorem mem_of_isAllowedProtocol {url : Text} (h : isAllowedProtocol url = true) : 47 ∈ url := by
  rw [isAllowedProtocol, splitAt?] at h
  by_cases hcolon : 58 ∈ url
  · rw [if_pos hcolon] at h
    simp only [Bool.and_eq_true] at h
    obtain ⟨u, hu⟩ := List.isPrefixOf_iff_prefix.mp h.1.2
    have hmem : 47 ∈ (url.dropWhile (· != 58)).tail := by
      rw [← hu]
      exact List.mem_append_left _ (by decide)
    exact (List.dropWhile_suffix _).subset (List.mem_of_mem_tail hmem)
  · rw [if_neg hcolon] at h
    exact absurd h Bool.false_ne_true

/-- An address with `http://` in front has a protocol. -/
theorem isAllowedProtocol_http (url : Text) : isAllowedProtocol (ascii "http://" ++ url) = true := by
  have hsplit : splitAt? 58 (ascii "http://" ++ url) = some (ascii "http", ascii "//" ++ url) := rfl
  rw [isAllowedProtocol, hsplit]
  simp only [Bool.and_eq_true]
  exact ⟨⟨by decide, List.isPrefixOf_iff_prefix.mpr (List.prefix_append _ _)⟩, by decide⟩

/-- Every address that is listed has an allowed protocol in front. -/
theorem isAllowedProtocol_address (h : l.Ok) : isAllowedProtocol (address l.addr) = true := by
  have hroom := h.address
  unfold address
  by_cases hallowed : isAllowedProtocol l.addr = true
  · rw [if_pos hallowed, List.take_of_length_le (by omega)]
    exact hallowed
  · have hlen : (ascii "http://" ++ l.addr).length ≤ maxPathLen - 1 := by
      rw [List.length_append, show (ascii "http://").length = 7 from rfl]
      omega
    rw [if_neg hallowed, List.take_of_length_le hlen]
    exact isAllowedProtocol_http l.addr

/-! ## The loop -/

/-- Where a link stands, seen from the folder `ns`. -/
theorem addMedium_here (l : Link) (rows : List Entry) :
    addMedium (dirOf l.folders) rows (l.medium []) =
      if Shown l then rows ++ [row (typeOf l.type l.addr) (address l.addr) l.name] else rows := by
  have hfile : dirOf l.folders = (l.medium []).file := rfl
  rw [addMedium, if_pos hfile]
  by_cases hshown : Shown l
  · rw [if_pos hshown, if_neg fun hand => ?_]
    · rfl
    · exact hshown.elim (fun hyes => by simp [Link.medium, hyes] at hand) (fun hno => hno hand.2)
  · rw [if_neg hshown, if_pos]
    rw [Shown, not_or, Bool.not_eq_true, not_not] at hshown
    exact hshown

/-- A link deeper in the tree adds the folder in which it is, once. -/
theorem addMedium_below (h : l.Ok) {rest : List Text} (hl : l.folders = ns ++ n :: rest)
    (rows : List Entry) :
    addMedium (dirOf ns) rows (l.medium []) =
      if rows.any fun e => e.file = some n then rows else rows ++ [folderRow n] := by
  have hnamed := h.named
  have hroom := h.room
  rw [hl] at hnamed hroom
  have hn : 47 ∉ n := (hnamed n (by simp)).plain
  have hfile : (l.medium []).file = dirOf ns ++ (n ++ 47 :: dirOf rest) := by
    rw [Link.medium, hl]
    simp [dirOf]
  have hlen : (dirOf ns).length < (l.medium []).file.length := by
    rw [hfile, List.length_append, List.length_append, List.length_cons]
    omega
  have hne : dirOf ns ≠ (l.medium []).file := fun heq => by
    rw [← heq] at hlen
    exact Nat.lt_irrefl _ hlen
  -- The medium lies deeper, so its next folder gets a row, once.
  have hbegins : (dirOf ns).isPrefixOf (l.medium []).file = true := by
    rw [hfile]
    exact List.isPrefixOf_iff_prefix.mpr (List.prefix_append _ _)
  have hfolder : (((l.medium []).file.drop (dirOf ns).length).take maxPathLen).takeWhile
      (· != 47) = n := by
    have hshort : (n ++ 47 :: dirOf rest).length ≤ maxPathLen := by
      simp only [dirOf, close_append, close_cons, List.length_append] at hroom
      simp only [dirOf, List.length_append, List.length_cons] at hroom ⊢
      omega
    have hslash : ∀ c ∈ (47 :: dirOf rest).head?, c = 47 := fun _ hc => (Option.some.inj hc).symm
    rw [hfile, List.drop_left, List.take_of_length_le hshort, (span_of_not_mem hn hslash).1]
  rw [addMedium, if_neg hne, if_pos ⟨hlen, hbegins⟩]
  simp only [hfolder]
  rfl

/-- A link elsewhere in the tree adds nothing. -/
theorem addMedium_elsewhere (h : l.Ok) (hns : ∀ n ∈ ns, Named n) (hl : ¬ns <+: l.folders)
    (rows : List Entry) : addMedium (dirOf ns) rows (l.medium []) = rows := by
  have hbegins : ¬(dirOf ns <+: dirOf l.folders) := fun hle =>
    hl ((close_prefix_iff (plain_of_named hns) (plain_of_named h.named)).mp hle)
  have hfile : (l.medium []).file = dirOf l.folders := rfl
  rw [addMedium, if_neg, if_neg]
  · rintro ⟨-, hle⟩
    exact hbegins (hfile ▸ List.isPrefixOf_iff_prefix.mp hle)
  · intro heq
    exact hbegins (hfile ▸ heq ▸ List.prefix_rfl)

/-- A folder that has an entry already is not a link and not the way up. -/
theorem any_file_iff {up rows : List Entry} {names : List Text} (hls : ∀ l ∈ ls, l.Ok)
    (hup : ∀ e ∈ up, e.file = some dotDot) (hn : Named n)
    (hrows : rows.Perm (up ++ linkRows ls ns ++ names.map folderRow)) :
    (rows.any fun e => e.file = some n) = true ↔ n ∈ names := by
  have hdots : n ≠ dotDot := fun heq => hn.visible (heq ▸ rfl)
  rw [List.any_eq_true]
  constructor
  · rintro ⟨e, he, hfile⟩
    have hfile := of_decide_eq_true hfile
    obtain he | he := List.mem_append.mp (hrows.mem_iff.mp he)
    · obtain he | he := List.mem_append.mp he
      · exact absurd (Option.some.inj (hfile.symm.trans (hup e he))) hdots
      · obtain ⟨l, hl, rfl⟩ := List.mem_map.mp he
        have hslash := mem_of_isAllowedProtocol
          (isAllowedProtocol_address (hls l (List.mem_of_mem_filter hl)))
        exact absurd (Option.some.inj hfile ▸ hslash) hn.plain
    · obtain ⟨m, hm, rfl⟩ := List.mem_map.mp he
      exact Option.some.inj hfile ▸ hm
  · intro hmem
    refine ⟨folderRow n, hrows.mem_iff.mpr ?_, decide_eq_true rfl⟩
    exact List.mem_append_right _ (List.mem_map_of_mem hmem)

/-- A folder leads to a link if it is the next one on the way. -/
theorem concat_prefix_append_iff {a : Text} {rest : List Text} :
    ns ++ [a] <+: ns ++ n :: rest ↔ a = n := by
  rw [List.prefix_append_right_inj, List.cons_prefix_cons]
  simp

/-- A folder is not inside of itself. -/
theorem not_concat_le (ns : List Text) (n : Text) : ¬ns ++ [n] <+: ns := fun h => by
  have hle := h.length_le
  rw [List.length_append, List.length_singleton] at hle
  omega

/-- The entries that the loop adds: the links of the folder, and once each folder in it that has a
link at some depth. -/
theorem foldl_addMedium (hls : ∀ l ∈ ls, l.Ok) (hns : ∀ n ∈ ns, Named n) {up : List Entry}
    (hup : ∀ e ∈ up, e.file = some dotDot) :
    ∃ names : List Text, names.Nodup ∧ (∀ n, n ∈ names ↔ ∃ l ∈ ls, ns ++ [n] <+: l.folders) ∧
      ((ls.map (Link.medium [])).foldl (addMedium (dirOf ns)) up).Perm
        (up ++ linkRows ls ns ++ names.map folderRow) := by
  induction ls using List.reverseRecOn with
  | nil => exact ⟨[], List.nodup_nil, by simp, by simp [linkRows]⟩
  | append_singleton ls l ih =>
    have hl : l.Ok := hls l (by simp)
    have hold : ∀ l ∈ ls, l.Ok := fun l' hl' => hls l' (List.mem_append_left _ hl')
    obtain ⟨names, hnodup, hnames, hperm⟩ := ih hold
    have hmore : ∀ n, (∃ l' ∈ ls ++ [l], ns ++ [n] <+: l'.folders) ↔
        n ∈ names ∨ ns ++ [n] <+: l.folders := fun n => by
      rw [hnames]
      simp only [List.mem_append, List.mem_singleton, or_and_right, exists_or, exists_eq_left]
    rw [List.map_append, List.foldl_append, List.map_singleton, List.foldl_cons, List.foldl_nil]
    -- The link stands in the folder, in a folder of it, or elsewhere.
    by_cases hhere : l.folders = ns
    · subst hhere
      have hrows : linkRows (ls ++ [l]) l.folders = linkRows ls l.folders ++
          if Shown l then [row (typeOf l.type l.addr) (address l.addr) l.name] else [] := by
        by_cases hshown : Shown l <;> simp [linkRows, List.filter_append, hshown]
      refine ⟨names, hnodup, fun n => ?_, ?_⟩
      · rw [hmore, or_iff_left (not_concat_le l.folders n)]
      · rw [addMedium_here, hrows]
        split
        · refine (hperm.append_right _).trans ?_
          rw [← List.append_assoc up, List.append_assoc, List.append_assoc _ _ (names.map _)]
          exact List.perm_append_comm.append_left _
        · rw [List.append_nil]
          exact hperm
    · have hrows : linkRows (ls ++ [l]) ns = linkRows ls ns := by
        simp [linkRows, List.filter_append, hhere]
      rw [hrows]
      by_cases hbelow : ns <+: l.folders
      · obtain ⟨tail, htail⟩ := hbelow
        obtain ⟨n, rest, rfl⟩ := List.exists_cons_of_ne_nil fun hnil : tail = [] =>
          hhere (by rw [← htail, hnil, List.append_nil])
        have hn : Named n := hl.named n (by rw [← htail]; simp)
        have hany := any_file_iff hold hup hn hperm
        have hfirst : ∀ a, ns ++ [a] <+: l.folders ↔ a = n := fun a => by
          rw [← htail]
          exact concat_prefix_append_iff
        rw [addMedium_below hl htail.symm]
        by_cases hmem : n ∈ names
        · rw [if_pos (hany.mpr hmem)]
          refine ⟨names, hnodup, fun a => ?_, hperm⟩
          rw [hmore, hfirst, or_iff_left_of_imp fun heq => heq ▸ hmem]
        · rw [if_neg (mt hany.mp hmem)]
          refine ⟨names ++ [n], ?_, fun a => ?_, ?_⟩
          · exact List.nodup_append.mpr ⟨hnodup, List.nodup_singleton n, by
              rintro a ha b hb rfl
              exact hmem (List.mem_singleton.mp hb ▸ ha)⟩
          · rw [hmore, hfirst, List.mem_append, List.mem_singleton]
          · rw [List.map_append, ← List.append_assoc]
            exact hperm.append_right _
      · refine ⟨names, hnodup, fun n => ?_, ?_⟩
        · rw [hmore, or_iff_left fun h => hbelow ((List.prefix_append ns [n]).trans h)]
        · rw [addMedium_elsewhere hl hns hbelow]
          exact hperm

/-! ## Sorting -/

/-- Sorting keeps the rows. -/
theorem sortRows_perm (rows : List Entry) : (sortRows rows).Perm rows := by
  have hperm := sortRuns_perm (fun a b => decide (fileSortCallback a b ≤ 0)) (rows.map ([·]))
  rwa [flatten_singletons] at hperm

/-- The sorted rows are in order. -/
theorem sortRows_pairwise {rows : List Entry} (hnamed : ∀ e ∈ rows, e.file ≠ none) :
    (sortRows rows).Pairwise fun a b => place a ≤ place b := by
  have htotal := totalOn_fileSortCallback id hnamed
  have hsorted : sortRows rows = rows.mergeSort fun a b => decide (fileSortCallback a b ≤ 0) :=
    sortRuns_singletons htotal
  have hpairs := pairwise_mergeSort htotal
  rw [hsorted]
  refine List.Pairwise.imp_of_mem (fun ha hb hle => ?_) hpairs
  exact (fileSortCallback_le_iff (hnamed _ (List.mem_mergeSort.mp ha))
    (hnamed _ (List.mem_mergeSort.mp hb))).mp (of_decide_eq_true hle)

/-- Sorting the linked list of a browser sorts its entries in this way. -/
theorem map_sorted {s : Browser} {ps : List Ptr} (hnamed : ∀ p ∈ ps, (s.entry p).file ≠ none) :
    (sorted fileSortCallback s ps).map s.entry = sortRows (ps.map s.entry) := by
  have hrows : ∀ e ∈ ps.map s.entry, e.file ≠ none := fun e he => by
    obtain ⟨p, hp, rfl⟩ := List.mem_map.mp he
    exact hnamed p hp
  have hsort : sortRows (ps.map s.entry) =
      (ps.map s.entry).mergeSort fun a b => decide (fileSortCallback a b ≤ 0) :=
    sortRuns_singletons (totalOn_fileSortCallback id hrows)
  rw [hsort, sorted, sortRuns_singletons (fileSortCallback_totalOn hnamed)]
  exact List.map_mergeSort fun _ _ _ _ => rfl

/-! ## The listing -/

/-- What a listing of the folder `ns` has: the links that stand in it, and once each folder in it
that has a link at some depth. -/
def Lists (es : Elements) (ns : List Text) (rows : List Entry) : Prop :=
  ∃ names : List Text, names.Nodup ∧ (∀ n, n ∈ names ↔ ∃ l ∈ es.links, ns ++ [n] <+: l.folders) ∧
    rows.Perm ((if ns = [] ∨ es.links = [] then [] else [upRow]) ++ linkRows es.links ns ++
      names.map folderRow)

/-- Only the root has the empty path. -/
theorem dirOf_eq_nil : dirOf ns = [] ↔ ns = [] := by
  constructor
  · intro h
    cases ns with
    | nil => rfl
    | cons n ns => simp [dirOf] at h
  · rintro rfl
    rfl

/-- The order of the links does not matter to which rows there are. -/
theorem linkRows_perm {ls ls' : List Link} (h : ls.Perm ls') (ns : List Text) :
    (linkRows ls ns).Perm (linkRows ls' ns) := (h.filter _).map _

/-- `ParseOnlineMedia` lists the folder, whatever the order of the links. -/
theorem parseOnlineMedia_lists {es : Elements} (h : es.Ok) (hns : ∀ n ∈ ns, Named n) :
    Lists es ns (parseOnlineMedia (recurseOnlineMedia es []) (dirOf ns)) := by
  have hperm := recurseOnlineMedia_perm [] h.room
  have hcomp := List.eq_map_comp_perm (Link.medium [])
  -- The media are the links in another order.
  obtain ⟨ls, hom, hls⟩ : ∃ ls : List Link, recurseOnlineMedia es [] = ls.map (Link.medium []) ∧
      ls.Perm es.links := by
    rw [← congrFun (congrFun hcomp _) _] at hperm
    exact hperm
  have hnil : recurseOnlineMedia es [] = [] ↔ es.links = [] := by
    rw [hom, List.map_eq_nil_iff]
    exact ⟨fun h => List.nil_perm.mp (h ▸ hls), fun h => List.perm_nil.mp (h ▸ hls)⟩
  rw [parseOnlineMedia]
  by_cases hempty : recurseOnlineMedia es [] = []
  · have hlinks := hnil.mp hempty
    rw [if_pos hempty, Lists, hlinks]
    exact ⟨[], List.nodup_nil, by simp, by simp [linkRows]⟩
  · have hup : ∀ e ∈ if dirOf ns = [] then [] else [upRow], e.file = some dotDot := fun e he => by
      split at he
      · exact absurd he List.not_mem_nil
      · rw [List.mem_singleton.mp he]
        rfl
    obtain ⟨names, hnodup, hnames, hrows⟩ :=
      foldl_addMedium (fun l hl => h.link (hls.mem_iff.mp hl)) hns hup
    refine ⟨names, hnodup, fun n => ?_, ?_⟩
    · rw [hnames]
      exact exists_congr fun l => and_congr_left fun _ => hls.mem_iff
    · rw [if_neg hempty, hom]
      refine (sortRows_perm _).trans (hrows.trans ?_)
      simp only [dirOf_eq_nil, mt hnil.mpr hempty, or_false]
      exact ((linkRows_perm hls ns).append_left _).append_right _

/-- What a row of a listing is. -/
theorem Lists.cases {es : Elements} {rows : List Entry} (h : es.Ok) (hrows : Lists es ns rows)
    {e : Entry} (he : e ∈ rows) :
    e = upRow ∨ (∃ l ∈ es.links, e = row (typeOf l.type l.addr) (address l.addr) l.name) ∨
      ∃ n, Named n ∧ e = folderRow n := by
  obtain ⟨names, -, hnames, hperm⟩ := hrows
  rw [hperm.mem_iff, List.mem_append, List.mem_append] at he
  rcases he with (he | he) | he
  · split at he
    · exact absurd he List.not_mem_nil
    · exact .inl (List.mem_singleton.mp he)
  · obtain ⟨l, hl, rfl⟩ := List.mem_map.mp he
    exact .inr (.inl ⟨l, List.mem_of_mem_filter hl, rfl⟩)
  · obtain ⟨n, hn, rfl⟩ := List.mem_map.mp he
    obtain ⟨l, hl, hle⟩ := (hnames n).mp hn
    exact .inr (.inr ⟨n, (h.link hl).named n (hle.subset (by simp)), rfl⟩)

/-- Only `.` and `..` come before the other rows. -/
theorem two_le_rank {type : EntryType} {file : Text} (h : 47 ∈ file ∨ file.head? ≠ some 46) :
    2 ≤ rank type file := by
  have hdot : file ≠ ascii "." := by
    rintro rfl
    exact h.elim (by decide) fun hne => hne rfl
  have hdots : file ≠ ascii ".." := by
    rintro rfl
    exact h.elim (by decide) fun hne => hne rfl
  rw [rank, if_neg hdot, if_neg hdots]
  split <;> omega

/-- Nothing sorts in front of the row that leads up. -/
theorem Lists.eq_upRow {es : Elements} {rows : List Entry} (h : es.Ok) (hrows : Lists es ns rows)
    {e : Entry} (he : e ∈ rows) (hle : place e ≤ place upRow) : e = upRow := by
  have hrank : rank e.type (e.file.getD []) < 2 := by
    have hup : place upRow = toLex (1, []) := rfl
    rw [hup, place, Prod.Lex.toLex_le_toLex] at hle
    omega
  rcases hrows.cases h he with hup | ⟨l, hl, rfl⟩ | ⟨n, hn, rfl⟩
  · exact hup
  · have hslash := mem_of_isAllowedProtocol (isAllowedProtocol_address (h.link hl))
    exact absurd (two_le_rank (.inl hslash)) (Nat.not_le.mpr hrank)
  · exact absurd (two_le_rank (.inr hn.visible)) (Nat.not_le.mpr hrank)

/-- A folder with some links has the row that leads up. -/
theorem Lists.upRow_mem {es : Elements} {rows : List Entry} (hrows : Lists es ns rows)
    (hne : ns ≠ []) (hlinks : es.links ≠ []) : upRow ∈ rows := by
  obtain ⟨names, -, -, hperm⟩ := hrows
  rw [hperm.mem_iff, if_neg (by simp [hne, hlinks])]
  simp

/-- The way up is the first row. -/
theorem parseOnlineMedia_up {es : Elements} (h : es.Ok) (hns : ∀ n ∈ ns, Named n) (hne : ns ≠ [])
    (hlinks : es.links ≠ []) :
    (parseOnlineMedia (recurseOnlineMedia es []) (dirOf ns)).head? = some upRow := by
  have hrows := parseOnlineMedia_lists h hns
  have hmem := hrows.upRow_mem hne hlinks
  have hnamed : ∀ e ∈ parseOnlineMedia (recurseOnlineMedia es []) (dirOf ns), e.file ≠ none :=
    fun e he => by
      rcases hrows.cases h he with rfl | ⟨l, -, rfl⟩ | ⟨n, -, rfl⟩ <;> exact Option.some_ne_none _
  have hpairs : (parseOnlineMedia (recurseOnlineMedia es []) (dirOf ns)).Pairwise
      fun a b => place a ≤ place b := by
    rw [parseOnlineMedia] at hnamed ⊢
    split at hnamed
    · rw [if_pos ‹_›]
      exact List.Pairwise.nil
    · rw [if_neg ‹_›]
      exact sortRows_pairwise fun e he => hnamed e ((sortRows_perm _).mem_iff.mpr he)
  -- Nothing comes before `..` but `..` itself.
  generalize parseOnlineMedia (recurseOnlineMedia es []) (dirOf ns) = rows at *
  cases rows with
  | nil => exact absurd hmem List.not_mem_nil
  | cons e rows =>
    rw [List.head?_cons]
    obtain heq | hin := List.mem_cons.mp hmem
    · rw [heq]
    · rw [hrows.eq_upRow h List.mem_cons_self (List.rel_of_pairwise_cons hpairs hin)]

end WiiMC.Media
