import WiiMC.Settings.Save
import Mathlib.Algebra.Group.Action.Defs
import Mathlib.Algebra.Order.BigOperators.Group.List

/-!
# The way of the settings to the card

`SaveSettings` looks for the folder of the application, lets Mini-XML write the document into a
buffer and gives this to `SaveFile` of `fileop.cpp`, which says how much it has written.
`SaveSettings` does not look at that. Mini-XML is a parameter `mxml`: the text of a document.

* `settingsXml`: the document, with everything that Mini-XML is given.
* `saveFile`, `saveSettingsToCard`: the functions.
* `Written`: what Mini-XML promises of the text, and `room_settingsXml`: it fits into the buffer.
* `saveSettingsToCard_iff`: when `SaveSettings` says what it has done.
-/

namespace WiiMC.Settings

open Browser Bytes Player

/-! ## The document -/

/-- The attributes of an element `setting`. -/
structure XmlSetting where
  name : Text
  value : Text
  description : Text

/-- An element `section`. -/
structure XmlSection where
  name : Text
  description : Text
  settings : List XmlSetting

/-- The element `file`. -/
structure XmlFile where
  app : Text
  version : Text
  sections : List XmlSection

/-- `createXMLSetting`. -/
def createXMLSetting (name description : String) (value : Text) : XmlSetting :=
  { name := ascii name, value, description := ascii description }

/-- `createXMLSection`, with the settings that follow. -/
def createXMLSection (name description : String) (settings : List XmlSetting) : XmlSection :=
  { name := ascii name, description := ascii description, settings }

/-- The tree that `prepareSettingsData` makes. -/
def settingsXml (s : SWiiSettings) : XmlFile where
  app := ascii "WiiMC"
  version := appVersion
  sections :=
    [createXMLSection "Global" "Global Settings"
      [createXMLSetting "language" "Language" (toStr s.language),
       createXMLSetting "volume" "Volume" (toStr s.volume),
       createXMLSetting "hideExtensions" "Hide filename extensions" (toStr s.hideExtensions),
       createXMLSetting "screensaverDelay" "Screensaver delay" (toStr s.screensaverDelay),
       createXMLSetting "lockFolders" "Start folder" (toStr s.lockFolders),
       createXMLSetting "startArea" "Starting area" (toStr s.startArea),
       createXMLSetting "artwork" "Artwork Viewer" (toStr s.artwork),
       createXMLSetting "artworkFolder" "Artwork folder" s.artworkFolder,
       createXMLSetting "bannerLimit" "Amount of banners found" (toStr s.bannerLimit),
       createXMLSetting "bannerFolder" "Banner folder" s.bannerFolder,
       createXMLSetting "jpegQuality" "JPEG lo-mem resample" (toStr s.jpegQuality),
       createXMLSetting "night" "Night Filter" (toStr s.night),
       createXMLSetting "videoDf" "Deflicker" (toStr s.videoDf),
       createXMLSetting "viWidth" "Video Interface Width" (toStr s.viWidth),
       createXMLSetting "doubleStrike" "Double Strike" (toStr s.doubleStrike),
       createXMLSetting "saveExit" "Only save to device on exit" (toStr s.saveExit)],
     createXMLSection "Playback" "Playback Settings"
      [createXMLSetting "cacheFill" "Cache Fill %" (toStr s.cacheFill),
       createXMLSetting "skipBackward" "Skip backward" (toStr s.skipBackward),
       createXMLSetting "skipForward" "Skip forward" (toStr s.skipForward),
       createXMLSetting "videosFolder" "Videos folder" s.videosFolder,
       createXMLSetting "audioNorm" "Filter" (toStr s.audioNorm)],
     createXMLSection "Music" "Music Settings"
      [createXMLSetting "playOrder" "Play order" (toStr s.playOrder),
       createXMLSetting "screensaverArt" "Display Art on Screensaver" (toStr s.screensaverArt),
       createXMLSetting "artworkFade" "Apply fade effect" (toStr s.artworkFade),
       createXMLSetting "nativeLoops" "Number of loops" (toStr s.nativeLoops),
       createXMLSetting "musicFolder" "Music folder" s.musicFolder],
     createXMLSection "Online Media" "Online Media Settings"
      [createXMLSetting "onlineCacheFill" "Online Cache Fill %" (toStr s.onlineCacheFill),
       createXMLSetting "onlinemediaFolder" "Online media folder" s.onlinemediaFolder],
     createXMLSection "Network" "Network Settings"
      [createXMLSetting "netStaticIP" "Static IP address (empty = DHCP)" s.netStaticIP,
       createXMLSetting "netStaticMask" "Static netmask" s.netStaticMask,
       createXMLSetting "netStaticGW" "Static gateway" s.netStaticGW]]

/-- The names and the values are those that are loaded again. -/
theorem settingsXml_settings (s : SWiiSettings) :
    ((settingsXml s).sections.flatMap (·.settings)).map (fun i => (i.name, i.value)) =
      (prepareSettingsData s).settings.map fun p => (ascii p.1, p.2) := by
  simp only [settingsXml, createXMLSection, createXMLSetting, prepareSettingsData,
    List.flatMap_cons, List.flatMap_nil, List.cons_append, List.nil_append, List.map_cons,
    List.map_nil]

/-! ## Writing a file -/

/-- What `fopen` and the calls behind it meet: the file cannot be created; or the calls of `fwrite`
store as many bytes as the list says, and any further ones all they are given, and `fclose` loses
the last `lost` bytes. -/
inductive Attempt
  | refused
  | opened (writes : List ℕ) (lost : ℕ)

/-- The loop of `SaveFile` over the blocks: `written`, and the number of bytes that have been stored. -/
def writeLoop (datasize written : ℕ) : List ℕ → ℕ × ℕ
  | [] => (datasize, datasize)
  | writesize :: writes =>
      if datasize ≤ written then (written, written)
      else
        let nextwrite := if datasize - written > 4096 then 4096 else datasize - written
        if writesize < nextwrite then (written, written + writesize)
        else writeLoop datasize (written + nextwrite) writes

/-- What `SaveFile` returns, what the file holds unless it has not been created, and the prompts. -/
structure FileSaved where
  written : ℕ
  file : Option (List UInt8)
  prompts : List String

/-- A prompt comes first. -/
def FileSaved.prompted (msg : String) (r : FileSaved) : FileSaved :=
  { r with prompts := msg :: r.prompts }

/-- The loop of `SaveFile` over the attempts; behind the last one the user does not ask for a
retry. -/
def saveLoop (silent : Bool) (data : List UInt8) : List Attempt → Option (List UInt8) → FileSaved
  | [], file => ⟨0, file, []⟩
  | .refused :: attempts, file =>
      if silent then ⟨0, file, []⟩
      else (saveLoop silent data attempts file).prompted "Error creating file!"
  | .opened writes lost :: attempts, _ =>
      let loop := writeLoop data.length 0 writes
      let file := some (data.take (loop.2 - lost))
      let written := if loop.1 ≠ data.length then 0 else loop.1
      if silent then ⟨written, file, []⟩
      else if written = 0 then (saveLoop silent data attempts file).prompted "Error saving file!"
      else ⟨written, file, []⟩

/-- `SaveFile`, where the first attempt meets `attempt`. -/
def saveFile (data : List UInt8) (silent : Bool) (attempt : Attempt) (retries : List Attempt) :
    FileSaved :=
  if data = [] then ⟨0, none, []⟩ else saveLoop silent data (attempt :: retries) none

/-! ## The function -/

/-- `SAVEBUFFERSIZE`. -/
def saveBufferSize : ℕ := 64 * 1024

/-- `mxmlSaveString`: what a cleared buffer of `bufsize` bytes holds then, and how many bytes the text
has, whether they fit or not. -/
def mxmlSaveString (text : List UInt8) (bufsize : ℕ) : List UInt8 × ℕ :=
  (text.take (bufsize - 1) ++ List.replicate (bufsize - (text.take (bufsize - 1)).length) 0,
    text.length)

/-- What the search for the folder of the application meets: whether there is a card, whether
`opendir` finds the folder, and whether it finds, or `mkdir` creates, each part of it. -/
structure Card where
  present : Bool
  found : Bool
  apps : Bool
  mkdirApps : Bool
  folder : Bool
  mkdirFolder : Bool

/-- The file to save to, or what the user is told instead. -/
def settingsPath (appPath : Text) (card : Card) : Except Text Text :=
  if appPath ≠ [] then .ok (appPath ++ ascii "/settings.xml")
  else if card.present = false then
    .error (ascii "Could not find SD card - one is required for normal operation.")
  else if card.found then .ok (ascii "sd1:/apps/wiimc" ++ ascii "/settings.xml")
  else if card.apps = false ∧ card.mkdirApps = false then
    .error (ascii "Could not create folder sd1:/apps")
  else if card.folder = false ∧ card.mkdirFolder = false then
    .error (ascii "Could not create folder sd1:/apps/wiimc")
  else .ok (ascii "sd1:/apps/wiimc" ++ ascii "/settings.xml")

/-- What `SaveSettings` returns and does: the settings behind it, the file and the number of bytes
that it gives to `SaveFile`, what this leaves in the file, and what the user is told. -/
structure Saved where
  result : Bool
  settings : SWiiSettings
  path : Option Text
  datasize : ℕ
  file : Option (List UInt8)
  prompts : List Text

/-- `SaveSettings`; `memory` says whether the buffer can be allocated. -/
def saveSettingsToCard (mxml : XmlFile → List UInt8) (silent : Bool) (appPath : Text) (card : Card)
    (memory : Bool) (attempt : Attempt) (retries : List Attempt) (s : SWiiSettings) : Saved :=
  match settingsPath appPath card with
  | .error msg => ⟨false, s, none, 0, none, if silent then [] else [msg]⟩
  | .ok filepath =>
      let s := fixInvalidSettings s
      if memory then
        let (savebuffer, datasize) := mxmlSaveString (mxml (settingsXml s)) saveBufferSize
        let offset := saveFile (savebuffer.take datasize) silent attempt retries
        ⟨true, s, some filepath, datasize, offset.file, offset.prompts.map ascii⟩
      else
        ⟨false, s, none, 0, none,
          if silent then [] else [ascii "Could not save settings to " ++ filepath]⟩

/-! ## What is written -/

section Writing

variable {silent : Bool} {data : List UInt8} {attempts : List Attempt} {writes : List ℕ}
  {file : Option (List UInt8)} {n written : ℕ}

/-- Every call of `fwrite` stores its block of the `n` bytes. -/
def Takes (n : ℕ) (writes : List ℕ) : Prop :=
  ∀ i k, writes[i]? = some k → min 4096 (n - 4096 * i) ≤ k

/-- The file is created in an attempt in which every block is stored, and `fclose` loses nothing then;
the attempts before have failed, and there are none before if the user is not asked. -/
def Succeeds (silent : Bool) (n : ℕ) : List Attempt → Prop
  | [] => False
  | .refused :: attempts => silent = false ∧ Succeeds silent n attempts
  | .opened writes lost :: attempts =>
      Takes n writes ∧ lost = 0 ∨ ¬Takes n writes ∧ silent = false ∧ Succeeds silent n attempts

/-- The loop over the blocks stores all of them if every call does, and fewer bytes otherwise. -/
theorem writeLoop_spec (written : ℕ) (hwritten : written ≤ n) :
    (writeLoop n written writes = (n, n) ∧
      ∀ i k, writes[i]? = some k → min 4096 (n - written - 4096 * i) ≤ k) ∨
    (writeLoop n written writes).1 < n ∧ (writeLoop n written writes).2 < n ∧
      ¬∀ i k, writes[i]? = some k → min 4096 (n - written - 4096 * i) ≤ k := by
  induction writes generalizing written with
  | nil => exact .inl ⟨rfl, nofun⟩
  | cons writesize writes ih =>
      rw [writeLoop]
      by_cases hend : n ≤ written
      · rw [if_pos hend, Nat.le_antisymm hwritten hend]
        exact .inl ⟨rfl, fun i k _ => by omega⟩
      rw [if_neg hend]
      simp only
      generalize hblock : (if n - written > 4096 then 4096 else n - written) = nextwrite
      have hnext : nextwrite = min 4096 (n - written) := by
        rw [← hblock]
        split_ifs <;> omega
      by_cases hshort : writesize < nextwrite
      · rw [if_pos hshort]
        refine .inr ⟨by omega, by show written + writesize < n; omega, fun hall => ?_⟩
        have hfirst := hall 0 writesize rfl
        omega
      · rw [if_neg hshort]
        -- the block is stored: what the further calls should store is counted from behind it
        have hstep : (∀ i k, (writesize :: writes)[i]? = some k →
              min 4096 (n - written - 4096 * i) ≤ k) ↔
            ∀ i k, writes[i]? = some k → min 4096 (n - (written + nextwrite) - 4096 * i) ≤ k := by
          constructor
          · intro hall i k hk
            have hle := hall (i + 1) k hk
            omega
          · intro hall i k hk
            rcases i with _ | i
            · cases hk
              omega
            · have hle := hall i k hk
              omega
        rcases ih (written + nextwrite) (by omega) with ⟨heq, hall⟩ | ⟨h1, h2, hnot⟩
        · exact .inl ⟨heq, hstep.mpr hall⟩
        · exact .inr ⟨h1, h2, fun hall => hnot (hstep.mp hall)⟩

/-- The loop writes everything, or stops short. -/
theorem writeLoop_takes (n : ℕ) (writes : List ℕ) :
    (writeLoop n 0 writes = (n, n) ∧ Takes n writes) ∨
    (writeLoop n 0 writes).1 < n ∧ (writeLoop n 0 writes).2 < n ∧ ¬Takes n writes :=
  writeLoop_spec 0 (Nat.zero_le n)

/-- A file that is cut short is another file. -/
theorem take_ne_some (hn : n < data.length) : some (data.take n) ≠ some data := fun heq => by
  have hlen := congrArg List.length (Option.some.inj heq)
  rw [List.length_take] at hlen
  omega

/-- The file holds all bytes in the end if and only if an attempt succeeds. -/
theorem saveLoop_file (hdata : data ≠ []) (hfile : file ≠ some data) :
    (saveLoop silent data attempts file).file = some data ↔ Succeeds silent data.length attempts := by
  have hpos := List.length_pos_of_ne_nil hdata
  induction attempts generalizing file with
  | nil => exact ⟨hfile, False.elim⟩
  | cons attempt attempts ih =>
      rcases attempt with _ | ⟨writes, lost⟩
      · rw [saveLoop, Succeeds]
        cases silent with
        | true => exact ⟨fun h => absurd h hfile, fun h => absurd h.1 nofun⟩
        | false => exact (ih hfile).trans (by simp)
      · rw [saveLoop, Succeeds]
        rcases writeLoop_takes data.length writes with ⟨hloop, htakes⟩ | ⟨h1, h2, hnot⟩
        · -- all blocks are stored, and there is no further attempt
          have hend : some (data.take (data.length - lost)) = some data ↔ lost = 0 := by
            constructor
            · intro heq
              by_contra hlost
              exact take_ne_some (by omega) heq
            · rintro rfl
              rw [Nat.sub_zero, List.take_length]
          simp only [hloop, ne_eq, not_true, if_false, htakes, true_and, false_and, or_false]
          rw [if_neg hpos.ne', ite_self]
          exact hend
        · have hbad : some (data.take ((writeLoop data.length 0 writes).2 - lost)) ≠ some data :=
            take_ne_some (by omega)
          simp only [ne_eq, h1.ne, not_false_eq_true, if_true, hnot, false_and, false_or, true_and]
          cases silent with
          | true => exact ⟨fun h => absurd h hbad, fun h => absurd h.1 nofun⟩
          | false => exact (ih hbad).trans (by simp)

end Writing

/-! ## The size of the document -/

/-- The most bytes that an element needs with its tags and the blanks around them: a byte of an
attribute may become an entity of six bytes. -/
def XmlSetting.room (i : XmlSetting) : ℕ :=
  64 + 6 * (i.name.length + i.description.length + i.value.length)

/-- The same for a section and the settings in it. -/
def XmlSection.room (x : XmlSection) : ℕ :=
  64 + 6 * (x.name.length + x.description.length) + (x.settings.map XmlSetting.room).sum

/-- The same for the whole text. -/
def XmlFile.room (f : XmlFile) : ℕ :=
  128 + 6 * (f.app.length + f.version.length) + (f.sections.map XmlSection.room).sum

/-- What Mini-XML promises of the text of a document: there is one, and it is made of the tags, of
the attributes with entities in them, and of the blanks that `XMLSaveCallback` asks for. -/
structure Written (mxml : XmlFile → List UInt8) : Prop where
  ne_nil : ∀ f, mxml f ≠ []
  room : ∀ f, (mxml f).length ≤ f.room

/-- The values in a document. -/
def XmlFile.values (f : XmlFile) : List Text := f.sections.flatMap fun x => x.settings.map (·.value)

/-- A document without its values. -/
def XmlFile.blank (f : XmlFile) : XmlFile :=
  { f with sections := f.sections.map fun x =>
      { x with settings := x.settings.map fun i => { i with value := [] } } }

/-- The room of a file is that of its frame and of its values. -/
theorem room_eq (f : XmlFile) : f.room = f.blank.room + 6 * (f.values.map List.length).sum := by
  have hsettings : ∀ l : List XmlSetting, (l.map XmlSetting.room).sum =
      ((l.map fun i => { i with value := [] }).map XmlSetting.room).sum +
        6 * ((l.map (·.value)).map List.length).sum := by
    intro l
    induction l with
    | nil => rfl
    | cons i l ih =>
        simp only [List.map_cons, List.sum_cons, XmlSetting.room, List.length_nil] at ih ⊢
        omega
  obtain ⟨app, version, sections⟩ := f
  simp only [XmlFile.room, XmlFile.blank, XmlFile.values]
  induction sections with
  | nil => rfl
  | cons x l ih =>
      have hx := hsettings x.settings
      simp only [List.map_cons, List.sum_cons, List.flatMap_cons, List.map_append, List.sum_append,
        XmlSection.room] at ih hx ⊢
      omega

/-- A value of a C `int`. -/
def IsInt (i : ℤ) : Prop := -2 ^ 31 ≤ i ∧ i < 2 ^ 31

/-- Whether a number is an `int` is decided by its bounds. -/
instance : DecidablePred IsInt := fun _ => by
  unfold IsInt
  infer_instance

/-- A printed `int` is short. -/
theorem length_toStr_le {i : ℤ} (h : IsInt i) : (toStr i).length ≤ 11 := by
  have hlt : i.natAbs < 10 ^ 10 := by
    obtain ⟨hlo, hhi⟩ := h
    omega
  have hle := length_decimal_le (k := 10) (by decide) hlt
  rw [toStr, decimalInt]
  split_ifs
  · rw [List.length_cons]
    omega
  · omega

/-- The fields of type `int`. -/
def SWiiSettings.ints (s : SWiiSettings) : List ℤ :=
  [s.hideExtensions, s.language, s.volume, s.screensaverDelay, s.lockFolders, s.startArea, s.artwork,
    s.bannerLimit, s.jpegQuality, s.night, s.doubleStrike, s.saveExit, s.cacheFill, s.skipBackward,
    s.skipForward, s.audioNorm, s.videoDf, s.viWidth, s.playOrder, s.screensaverArt, s.artworkFade,
    s.nativeLoops, s.onlineCacheFill]

/-- The fields hold values of their types. -/
structure Typed (s : SWiiSettings) : Prop extends Fits s where
  ints : ∀ i ∈ s.ints, IsInt i

variable {s : SWiiSettings}

/-- Repaired settings are values of C integers. -/
theorem ints_fixInvalidSettings (h : ∀ i ∈ s.ints, IsInt i) :
    ∀ i ∈ (fixInvalidSettings s).ints, IsInt i := by
  -- Every repair puts a constant, or leaves the value that was there.
  have hite : ∀ {c : Prop} [Decidable c] {a b : ℤ}, IsInt a → IsInt b →
      IsInt (if c then a else b) := by
    intro c _ a b ha hb
    split_ifs
    · exact ha
    · exact hb
  have hwithin : ∀ {lo hi dflt v : ℤ}, IsInt v → IsInt dflt → IsInt (within lo hi dflt v) :=
    fun hv hd => hite hd hv
  have hzeroOne : ∀ {dflt v : ℤ}, IsInt v → IsInt dflt → IsInt (zeroOne dflt v) :=
    fun hv hd => hite hd hv
  have h0 : IsInt 0 := by decide
  have h1 : IsInt 1 := by decide
  simp only [SWiiSettings.ints, List.forall_mem_cons, List.not_mem_nil, IsEmpty.forall_iff,
    forall_const, and_true] at h
  obtain ⟨hhide, hlang, hvol, hdelay, hlock, harea, hart, hlimit, hjpeg, hnight, hstrike, hexit,
    hfill, hback, hfwd, hnorm, hdf, hwidth, horder, hsaver, hfade, hloops, honline⟩ := h
  have hart' : IsInt (within 0 1 0 s.artwork) := hwithin hart h0
  have hlimit' : IsInt (within 0 9999 0 s.bannerLimit) := hwithin hlimit h0
  intro i hi
  simp only [SWiiSettings.ints, fixInvalidSettings, quickFixes, checkFields, List.mem_cons,
    List.not_mem_nil, or_false] at hi
  -- field by field, in the order of the list
  rcases hi with rfl | rfl | rfl | rfl | rfl | rfl | rfl | rfl | rfl | rfl | rfl | rfl | rfl | rfl |
    rfl | rfl | rfl | rfl | rfl | rfl | rfl | rfl | rfl
  · exact hzeroOne hhide h1
  · exact hwithin hlang h1
  · exact hwithin hvol (by decide)
  · exact hwithin hdelay (by decide)
  · exact hzeroOne hlock h0
  · exact hwithin harea h0
  · -- an artwork of 0 with a screensaver becomes 1
    exact hite h1 hart'
  · exact hite h0 (hite h0 hlimit')
  · exact hwithin hjpeg h0
  · exact hwithin hnight h0
  · exact hwithin hstrike h0
  · exact hwithin hexit h1
  · exact hwithin hfill (by decide)
  · exact hwithin hback (by decide)
  · exact hwithin hfwd (by decide)
  · exact hwithin hnorm h0
  · exact hwithin hdf h0
  · exact hwithin hwidth h0
  · exact hwithin horder h0
  · exact hite h0 hsaver
  · exact hwithin hfade h0
  · exact hwithin hloops h0
  · exact honline

/-- The fields that hold texts. -/
def SWiiSettings.texts (s : SWiiSettings) : List Text :=
  [s.artworkFolder, s.bannerFolder, s.videosFolder, s.musicFolder, s.onlinemediaFolder,
    s.netStaticIP, s.netStaticMask, s.netStaticGW]

/-- Without its values the file does not depend on the settings. -/
theorem blank_settingsXml (s : SWiiSettings) :
    (settingsXml s).blank = (settingsXml defaultSettings).blank := by
  simp only [settingsXml, createXMLSection, createXMLSetting, XmlFile.blank, List.map_cons,
    List.map_nil]

/-- The values of the document are those of the fields. -/
theorem values_settingsXml (s : SWiiSettings) :
    ((settingsXml s).values.map List.length).sum =
      (s.ints.map fun i => (toStr i).length).sum + (s.texts.map List.length).sum := by
  simp only [settingsXml, createXMLSection, createXMLSetting, XmlFile.values, List.flatMap_cons,
    List.flatMap_nil, List.map_cons, List.map_nil, List.cons_append, List.nil_append, List.sum_cons,
    List.sum_nil, SWiiSettings.ints, SWiiSettings.texts]
  omega

/-- A cleaned folder fills its field, with the slash that it may have got. -/
theorem texts_fixInvalidSettings (h : Fits s) :
    ((fixInvalidSettings s).texts.map List.length).sum ≤ 4 * 1024 + 1023 + 3 * 15 := by
  have hart := length_cleanupPath_le s.artworkFolder
  have hbanner := length_cleanupPath_le s.bannerFolder
  have hvideos := length_cleanupPath_le s.videosFolder
  have hmusic := length_cleanupPath_le s.musicFolder
  obtain ⟨hart', hbanner', hvideos', hmusic', honline, hip, hmask, hgw⟩ := h
  have htexts : (fixInvalidSettings s).texts =
      [cleanupPath s.artworkFolder, cleanupPath s.bannerFolder, cleanupPath s.videosFolder,
        cleanupPath s.musicFolder, s.onlinemediaFolder, s.netStaticIP, s.netStaticMask,
        s.netStaticGW] := rfl
  rw [htexts]
  simp only [List.map_cons, List.map_nil, List.sum_cons, List.sum_nil]
  rw [maxPathLen] at *
  omega

/-- The document of repaired settings fits into the buffer, with a byte 0 behind it. -/
theorem room_settingsXml (h : Typed s) : (settingsXml (fixInvalidSettings s)).room < saveBufferSize := by
  have hblank : (settingsXml defaultSettings).blank.room ≤ 12000 := by decide +kernel
  have htexts := texts_fixInvalidSettings h.toFits
  have hints : ((fixInvalidSettings s).ints.map fun i => (toStr i).length).sum ≤ 23 * 11 := by
    have hsum := List.sum_le_card_nsmul ((fixInvalidSettings s).ints.map fun i => (toStr i).length) 11
      fun n hn => by
        obtain ⟨i, hi, rfl⟩ := List.mem_map.mp hn
        exact length_toStr_le (ints_fixInvalidSettings h.ints i hi)
    rw [List.length_map, smul_eq_mul] at hsum
    exact hsum
  rw [room_eq, blank_settingsXml, values_settingsXml, saveBufferSize]
  omega

/-! ## The result -/

/-- The file that `SaveSettings` writes is the one that is loaded. -/
theorem settingsPath_suffix {appPath filepath : Text} {card : Card}
    (h : settingsPath appPath card = .ok filepath) : ascii "/settings.xml" <:+ filepath := by
  unfold settingsPath at h
  split_ifs at h <;> cases h <;> exact List.suffix_append _ _

/-- `SaveFile` is given no more than the buffer holds. `SaveSettings` says the truth of what has been
written if and only if the writing succeeds, or does not take place. -/
theorem saveSettingsToCard_iff {mxml : XmlFile → List UInt8} (hxml : Written mxml) (hs : Typed s)
    (silent : Bool) (appPath : Text) (card : Card) (memory : Bool) (attempt : Attempt)
    (retries : List Attempt) :
    let r := saveSettingsToCard mxml silent appPath card memory attempt retries s
    let text := mxml (settingsXml (fixInvalidSettings s))
    r.datasize ≤ saveBufferSize ∧ (∀ path ∈ r.path, ascii "/settings.xml" <:+ path) ∧
      ((r.result = true ↔ r.file = some text) ↔
        ((∃ path, settingsPath appPath card = .ok path) → memory = true →
          Succeeds silent text.length (attempt :: retries))) := by
  intro r text
  have hlen : text.length < saveBufferSize := (hxml.room _).trans_lt (room_settingsXml hs)
  have hne : text ≠ [] := hxml.ne_nil _
  -- the buffer holds the whole text, and a byte 0 behind it
  have hbuffer : (mxmlSaveString text saveBufferSize).1.take text.length = text := by
    rw [mxmlSaveString]
    simp only
    rw [List.take_of_length_le (l := text) (by omega), List.take_append_of_le_length le_rfl,
      List.take_length]
  rcases hpath : settingsPath appPath card with msg | path
  · have hr : r = ⟨false, s, none, 0, none, if silent then [] else [msg]⟩ := by
      simp only [r, saveSettingsToCard, hpath]
    rw [hr]
    exact ⟨Nat.zero_le _, nofun, ⟨fun _ hok => absurd hok (by simp), fun _ => by simp⟩⟩
  cases memory with
  | false =>
      have hr : r = ⟨false, fixInvalidSettings s, none, 0, none,
          if silent then [] else [ascii "Could not save settings to " ++ path]⟩ := by
        simp only [r, saveSettingsToCard, hpath, Bool.false_eq_true, if_false]
      rw [hr]
      exact ⟨Nat.zero_le _, nofun, ⟨fun _ _ hmemory => absurd hmemory nofun, fun _ => by simp⟩⟩
  | true =>
      have hr : r = ⟨true, fixInvalidSettings s, some path, text.length,
          (saveFile text silent attempt retries).file,
          (saveFile text silent attempt retries).prompts.map ascii⟩ := by
        have hsize : (mxmlSaveString text saveBufferSize).2 = text.length := rfl
        simp only [r, saveSettingsToCard, hpath, if_true]
        rw [hsize, hbuffer]
      have hfile : (saveFile text silent attempt retries).file = some text ↔
          Succeeds silent text.length (attempt :: retries) := by
        rw [saveFile, if_neg hne]
        exact saveLoop_file hne nofun
      rw [hr]
      refine ⟨hlen.le, ?_, ?_⟩
      · rintro _ ⟨⟩
        exact settingsPath_suffix hpath
      · simp only [true_iff, hfile]
        exact ⟨fun h _ _ => h, fun h => h ⟨path, rfl⟩ trivial⟩

/-! ## A text -/

/-- What Mini-XML writes of a byte of an attribute. -/
def entity (c : UInt8) : Text :=
  if c = 38 then ascii "&amp;"
  else if c = 60 then ascii "&lt;"
  else if c = 62 then ascii "&gt;"
  else if c = 34 then ascii "&quot;"
  else [c]

/-- An attribute. -/
def xmlAttr (name : String) (value : Text) : Text :=
  ascii (" " ++ name ++ "=\"") ++ value.flatMap entity ++ ascii "\""

/-- The text of a document as Mini-XML writes it. -/
def xmlText (f : XmlFile) : List UInt8 :=
  ascii "<?xml version=\"1.0\" encoding=\"utf-8\"?>" ++ ascii "\n<file" ++ xmlAttr "app" f.app ++
    xmlAttr "version" f.version ++ ascii ">" ++
    (f.sections.flatMap fun x =>
      ascii "\n\n<section" ++ xmlAttr "name" x.name ++ xmlAttr "description" x.description ++
        ascii ">" ++
        (x.settings.flatMap fun i =>
          ascii "\n\t<setting" ++ xmlAttr "name" i.name ++ xmlAttr "value" i.value ++
            xmlAttr "description" i.description ++ ascii " />") ++
        ascii "\n</section>") ++
    ascii "\n</file>\n"

/-- The length of joined texts is bounded by the sum of the bounds. -/
theorem length_flatMap_le {α : Type} {f : α → Text} {g : α → ℕ} (h : ∀ x, (f x).length ≤ g x)
    (l : List α) : (l.flatMap f).length ≤ (l.map g).sum := by
  rw [List.length_flatMap]
  exact List.sum_le_sum fun x _ => h x

/-- An escaped value is at most six times as long. -/
theorem length_xmlAttr_le (name : String) (value : Text) :
    (xmlAttr name value).length ≤ (ascii (" " ++ name ++ "=\"")).length + 6 * value.length + 1 := by
  have hentity : ∀ c, (entity c).length ≤ 6 := fun c => by
    unfold entity
    split_ifs
    · decide
    · decide
    · decide
    · decide
    · exact (List.length_singleton).trans_le (by decide)
  have hvalue := length_flatMap_le hentity value
  rw [List.map_const', List.sum_replicate, smul_eq_mul] at hvalue
  have hend : (ascii "\"").length = 1 := by decide
  rw [xmlAttr, List.length_append, List.length_append, hend]
  omega

/-- The sample text can be written. -/
theorem written_xmlText : Written xmlText where
  ne_nil f := by
    have hhead : ascii "<?xml version=\"1.0\" encoding=\"utf-8\"?>" ≠ [] := by decide
    simp [xmlText, hhead]
  room f := by
    -- Each piece of the file has its own share of the room.
    have hsetting : ∀ i : XmlSetting, (ascii "\n\t<setting" ++ xmlAttr "name" i.name ++
        xmlAttr "value" i.value ++ xmlAttr "description" i.description ++ ascii " />").length ≤
        i.room := fun i => by
      have hname := length_xmlAttr_le "name" i.name
      have hvalue := length_xmlAttr_le "value" i.value
      have hdescription := length_xmlAttr_le "description" i.description
      have hconst : (ascii "\n\t<setting").length + (ascii (" " ++ "name" ++ "=\"")).length +
          (ascii (" " ++ "value" ++ "=\"")).length +
          (ascii (" " ++ "description" ++ "=\"")).length + (ascii " />").length + 3 ≤ 64 := by decide
      simp only [List.length_append, XmlSetting.room]
      omega
    have hsection : ∀ x : XmlSection, (ascii "\n\n<section" ++ xmlAttr "name" x.name ++
        xmlAttr "description" x.description ++ ascii ">" ++
        (x.settings.flatMap fun i =>
          ascii "\n\t<setting" ++ xmlAttr "name" i.name ++ xmlAttr "value" i.value ++
            xmlAttr "description" i.description ++ ascii " />") ++
        ascii "\n</section>").length ≤ x.room := fun x => by
      have hname := length_xmlAttr_le "name" x.name
      have hdescription := length_xmlAttr_le "description" x.description
      have hsettings := length_flatMap_le hsetting x.settings
      have hconst : (ascii "\n\n<section").length + (ascii (" " ++ "name" ++ "=\"")).length +
          (ascii (" " ++ "description" ++ "=\"")).length + (ascii ">").length +
          (ascii "\n</section>").length + 2 ≤ 64 := by decide
      simp only [List.length_append, XmlSection.room] at hsettings ⊢
      omega
    have happ := length_xmlAttr_le "app" f.app
    have hversion := length_xmlAttr_le "version" f.version
    have hsections := length_flatMap_le hsection f.sections
    have hconst : (ascii "<?xml version=\"1.0\" encoding=\"utf-8\"?>").length +
        (ascii "\n<file").length + (ascii (" " ++ "app" ++ "=\"")).length +
        (ascii (" " ++ "version" ++ "=\"")).length + (ascii ">").length +
        (ascii "\n</file>\n").length + 2 ≤ 128 := by decide
    simp only [xmlText, List.length_append, XmlFile.room] at hsections ⊢
    omega

/-- The default settings have their types. -/
theorem typed_defaultSettings : Typed defaultSettings where
  toFits := ⟨by decide, by decide, by decide, by decide, by decide, by decide, by decide, by decide⟩
  ints := by decide

theorem saveSettingsToCard_iff_sample :
    let r := saveSettingsToCard xmlText true (ascii "sd1:/apps/wiimc")
      ⟨true, true, true, true, true, true⟩ true (.opened [4096, 100] 0) [] defaultSettings
    let text := xmlText (settingsXml (fixInvalidSettings defaultSettings))
    r.datasize ≤ saveBufferSize ∧ (∀ path ∈ r.path, ascii "/settings.xml" <:+ path) ∧
      ((r.result = true ↔ r.file = some text) ↔
        ((∃ path, settingsPath (ascii "sd1:/apps/wiimc") ⟨true, true, true, true, true, true⟩ =
            .ok path) → true = true →
          Succeeds true text.length [.opened [4096, 100] 0])) :=
  saveSettingsToCard_iff written_xmlText typed_defaultSettings _ _ _ _ _ _

/-- The file cannot be created, and `SaveSettings` says that the settings have been saved. -/
theorem saveSettingsToCard_untrue :
    ¬((saveSettingsToCard xmlText true (ascii "sd1:/apps/wiimc")
          ⟨true, true, true, true, true, true⟩ true .refused [] defaultSettings).result = true ↔
      (saveSettingsToCard xmlText true (ascii "sd1:/apps/wiimc")
          ⟨true, true, true, true, true, true⟩ true .refused [] defaultSettings).file =
        some (xmlText (settingsXml (fixInvalidSettings defaultSettings)))) := by
  intro h
  have hfile := h.mp rfl
  have hnone : (saveSettingsToCard xmlText true (ascii "sd1:/apps/wiimc")
      ⟨true, true, true, true, true, true⟩ true .refused [] defaultSettings).file = none := by
    decide +kernel
  rw [hnone] at hfile
  cases hfile

end WiiMC.Settings
