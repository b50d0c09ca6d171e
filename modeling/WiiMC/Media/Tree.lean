import WiiMC.Browser.Folders

/-!
# The online media file

`RecurseOnlineMedia` of `settings.cpp` keeps the links of the file with the path of the folders
around them, and nothing else of the tree. It is given the elements as Mini-XML has read them:
each has a first child and a next sibling.

* `Elements`: the elements.
* `recurseOnlineMedia`: the function, over the list that it appends to.
* `Elements.links`, `Elements.folders`: the tree, by the names of the folders.
* `Named`, `Roomy`: names that are names, and paths with room to spare.
* `recurseOnlineMedia_perm`: the list has every link of the tree, with its folders.
-/

namespace WiiMC.Media

open Bytes Player Browser Segments

/-- The first of some siblings, with the attributes that are looked at. -/
inductive Elements
  | done
  | link (name addr type : Option Text) (next : Elements)
  | folder (name : Option Text) (child next : Elements)
  deriving DecidableEq

/-- An entry of `browserOnlineMedia`: `file` is the path of the folders around the link. -/
structure Medium where
  file : Text
  url : Text
  display : Text
  type : EntryType
  deriving DecidableEq

/-- The type of a link: as it says, or else by its address. -/
def typeOf (type : Option Text) (addr : Text) : EntryType :=
  match type with
  | some type =>
      if (ascii "search").isPrefixOf type then .search
      else if (ascii "playlist").isPrefixOf type then .playlist
      else .file
  | none => if isPlaylistExt (getExt addr) then .playlist else .file

/-- The first loop of `RecurseOnlineMedia`, over the links. -/
def linkLoop (path : Text) : Elements → List Medium
  | .done => []
  | .link (some name) (some addr) type next =>
      ⟨path, addr, name, typeOf type addr⟩ :: linkLoop path next
  | .link _ _ _ next => linkLoop path next
  | .folder _ _ next => linkLoop path next

/-- The second one, over the folders. It ends at a folder whose path is too long. -/
def folderLoop (path : Text) : Elements → List Medium
  | .done => []
  | .link _ _ _ next => folderLoop path next
  | .folder none _ next => folderLoop path next
  | .folder (some name) child next =>
      if path.length + name.length + 2 > maxPathLen then []
      else
        (linkLoop (path ++ name ++ [47]) child ++ folderLoop (path ++ name ++ [47]) child) ++
          folderLoop path next

/-- `RecurseOnlineMedia`, where nothing runs out of memory. -/
def recurseOnlineMedia (top : Elements) (path : Text) : List Medium :=
  linkLoop path top ++ folderLoop path top

/-! ## The tree -/

/-- A link, with the names of the folders around it. -/
structure Link where
  folders : List Text
  name : Text
  addr : Text
  type : Option Text
  deriving DecidableEq

/-- The link below one more folder. -/
def Link.within (name : Text) (l : Link) : Link := { l with folders := name :: l.folders }

/-- The links of a tree. -/
def Elements.links : Elements → List Link
  | .done => []
  | .link (some name) (some addr) type next => ⟨[], name, addr, type⟩ :: next.links
  | .link _ _ _ next => next.links
  | .folder none _ next => next.links
  | .folder (some name) child next => child.links.map (Link.within name) ++ next.links

/-- The folders of a tree, each by the names down to its own. -/
def Elements.folders : Elements → List (List Text)
  | .done => []
  | .link _ _ _ next => next.folders
  | .folder none _ next => next.folders
  | .folder (some name) child next =>
      [name] :: child.folders.map (name :: ·) ++ next.folders

/-- A name of a folder. -/
structure Named (name : Text) : Prop where
  ne_nil : name ≠ []
  plain : 47 ∉ name
  visible : name.head? ≠ some 46

/-- The path of a folder. -/
def dirOf (ns : List Text) : Text := close 47 ns

/-- Every folder has a name, and every path and address has room to spare. -/
structure Elements.Ok (es : Elements) : Prop where
  named : ∀ ns ∈ es.folders, ∀ n ∈ ns, Named n
  room : ∀ ns ∈ es.folders, (dirOf ns).length < maxPathLen
  address : ∀ l ∈ es.links, l.addr.length + 7 < maxPathLen

/-- What is kept of a link. -/
def Link.medium (path : Text) (l : Link) : Medium :=
  ⟨path ++ dirOf l.folders, l.addr, l.name, typeOf l.type l.addr⟩

theorem Link.medium_within (path name : Text) (l : Link) :
    (l.within name).medium path = l.medium (path ++ name ++ [47]) := by
  simp [medium, within, dirOf]

/-- The folders around a link are folders of the tree. -/
theorem Elements.prefix_mem_folders {es : Elements} {l : Link} (hl : l ∈ es.links) {ns : List Text}
    (hns : ns <+: l.folders) (hne : ns ≠ []) : ns ∈ es.folders := by
  -- The induction follows the elements, down and along.
  induction es generalizing l ns with
  | done => exact absurd hl List.not_mem_nil
  | link name addr type next ih =>
    have hnext : l ∈ next.links → ns ∈ next.folders := fun h => ih h hns hne
    cases name with
    | none => exact hnext hl
    | some name =>
      cases addr with
      | none => exact hnext hl
      | some addr =>
        obtain rfl | hl := List.mem_cons.mp hl
        · exact absurd (List.prefix_nil.mp hns) hne
        · exact hnext hl
  | folder name child next ihchild ihnext =>
    cases name with
    | none => exact ihnext hl hns hne
    | some name =>
      obtain hl | hl := List.mem_append.mp hl
      · obtain ⟨l', hl', rfl⟩ := List.mem_map.mp hl
        refine List.mem_append_left _ ?_
        obtain ⟨n, ns, rfl⟩ := List.exists_cons_of_ne_nil hne
        obtain ⟨rfl, hrest⟩ := List.cons_prefix_cons.mp hns
        by_cases hnil : ns = []
        · rw [hnil]
          exact List.mem_cons_self
        · exact List.mem_cons_of_mem _ (List.mem_map_of_mem (ihchild hl' hrest hnil))
      · exact List.mem_append_right _ (ihnext hl hns hne)

/-- Where the paths have room, no folder is left out, and the list has the links of the tree. Those
beside a folder come before those in it. -/
theorem recurseOnlineMedia_perm {es : Elements} (path : Text)
    (hroom : ∀ ns ∈ es.folders, (path ++ dirOf ns).length < maxPathLen) :
    (recurseOnlineMedia es path).Perm (es.links.map (Link.medium path)) := by
  unfold recurseOnlineMedia
  induction es generalizing path with
  | done => exact List.Perm.refl _
  | link name addr type next ih =>
    have hnext := ih _ hroom
    cases name with
    | none => exact hnext
    | some name =>
      cases addr with
      | none => exact hnext
      | some addr =>
        have hhead : (⟨[], name, addr, type⟩ : Link).medium path =
            ⟨path, addr, name, typeOf type addr⟩ := by simp [Link.medium, dirOf]
        rw [Elements.links, List.map_cons, hhead]
        exact hnext.cons _
  | folder name child next ihchild ihnext =>
    cases name with
    | none => exact ihnext _ hroom
    | some name =>
      have hshort : ¬path.length + name.length + 2 > maxPathLen := by
        have hname := hroom [name] (List.mem_append_left _ List.mem_cons_self)
        simp only [dirOf, close_cons, close_nil, List.length_append, List.length_singleton] at hname
        omega
      have hchild : (linkLoop (path ++ name ++ [47]) child ++
          folderLoop (path ++ name ++ [47]) child).Perm
          ((child.links.map (Link.within name)).map (Link.medium path)) := by
        rw [List.map_map]
        refine (ihchild _ fun ns hns => ?_).trans (List.Perm.of_eq ?_)
        · have hlong := hroom (name :: ns)
            (List.mem_append_left _ (List.mem_cons_of_mem _ (List.mem_map_of_mem hns)))
          have heq : path ++ dirOf (name :: ns) = path ++ name ++ [47] ++ dirOf ns := by
            simp [dirOf]
          rwa [heq] at hlong
        · exact List.map_congr_left fun l _ => (Link.medium_within path name l).symm
      have hnext := ihnext _ fun ns hns => hroom ns (List.mem_append_right _ hns)
      rw [folderLoop, if_neg hshort, linkLoop, Elements.links, List.map_append]
      -- The links beside the folder change places with what is in it.
      refine List.perm_append_comm_assoc _ _ _ |>.trans ?_
      exact hchild.append hnext

end WiiMC.Media
