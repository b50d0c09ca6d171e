import WiiMC.Settings.Folders

/-!
# Saving and loading the settings

`settings.cpp`: `SaveSettings` repairs the settings and writes them into an XML document;
`LoadSettings` reads the document and repairs what it has read. The fields of `WiiSettings` that are
written are modelled. Mini-XML is a parameter, and what it is given are the texts before they are
escaped: the buffer of 64 KiB holds every document with these fields.

* `fixInvalidSettings`, `prepareSettingsData`, `loadSettingsFile`: the functions.
* `fixInvalidSettings_refolder`: repairing twice is repairing once, the folders apart.
* `loadSettings_saveSettings`: what is loaded is what has been saved, field by field.
-/

namespace WiiMC.Settings

open Browser Bytes Player

/-! ## The settings -/

/-- The fields of `WiiSettings` that are written. -/
structure SWiiSettings where
  hideExtensions : ℤ
  language : ℤ
  volume : ℤ
  screensaverDelay : ℤ
  lockFolders : ℤ
  startArea : ℤ
  artwork : ℤ
  artworkFolder : Text
  bannerLimit : ℤ
  bannerFolder : Text
  jpegQuality : ℤ
  night : ℤ
  doubleStrike : ℤ
  saveExit : ℤ
  cacheFill : ℤ
  skipBackward : ℤ
  skipForward : ℤ
  videosFolder : Text
  audioNorm : ℤ
  videoDf : ℤ
  viWidth : ℤ
  playOrder : ℤ
  screensaverArt : ℤ
  artworkFade : ℤ
  nativeLoops : ℤ
  musicFolder : Text
  onlineCacheFill : ℤ
  onlinemediaFolder : Text
  netStaticIP : Text
  netStaticMask : Text
  netStaticGW : Text
  deriving DecidableEq

/-- `DefaultSettings`. -/
def defaultSettings : SWiiSettings where
  hideExtensions := 1
  language := 1
  volume := 50
  screensaverDelay := 120
  lockFolders := 0
  startArea := 1
  artwork := 1
  artworkFolder := []
  bannerLimit := 0
  bannerFolder := []
  jpegQuality := 1
  night := 0
  doubleStrike := 0
  saveExit := 1
  cacheFill := 30
  skipBackward := 10
  skipForward := 30
  videosFolder := []
  audioNorm := 0
  videoDf := 0
  viWidth := 0
  playOrder := 0
  screensaverArt := 1
  artworkFade := 0
  nativeLoops := 0
  musicFolder := []
  onlineCacheFill := 0
  onlinemediaFolder := []
  netStaticIP := []
  netStaticMask := []
  netStaticGW := []

/-- A value outside its range is replaced. -/
def within (lo hi dflt v : ℤ) : ℤ := if v < lo ∨ hi < v then dflt else v

/-- The same for a value that is 0 or 1. -/
def zeroOne (dflt v : ℤ) : ℤ := if v ≠ 1 ∧ v ≠ 0 then dflt else v

/-- The quick fixes at the end of `FixInvalidSettings`. -/
def quickFixes (s : SWiiSettings) : SWiiSettings :=
  let screensaverArt := if s.artwork < 1 ∧ s.screensaverArt ≠ 0 then 0 else s.screensaverArt
  let artwork := if 0 < screensaverArt ∧ s.artwork = 0 then 1 else s.artwork
  let bannerLimit := if 0 < s.bannerLimit ∧ artwork = 0 then 0 else s.bannerLimit
  { s with
    screensaverArt := screensaverArt
    artwork := artwork
    bannerLimit := if s.bannerFolder = [] then 0 else bannerLimit }

/-- The checks of `FixInvalidSettings`. A path that fills its field is one byte too long with a slash
at its end; its end is then in the next field, in a byte that is 0 already. -/
def checkFields (s : SWiiSettings) : SWiiSettings :=
  { s with
    -- the upper limit is `LANG_LENGTH`, which is no language
    language := within 0 3 1 s.language
    volume := within 0 100 50 s.volume
    hideExtensions := zeroOne 1 s.hideExtensions
    screensaverDelay := within 120 3600 120 s.screensaverDelay
    lockFolders := zeroOne 0 s.lockFolders
    startArea := within 0 1 0 s.startArea
    artwork := within 0 1 0 s.artwork
    bannerLimit := within 0 9999 0 s.bannerLimit
    jpegQuality := within 0 1 0 s.jpegQuality
    night := within 0 1 0 s.night
    doubleStrike := within 0 1 0 s.doubleStrike
    saveExit := within 0 1 1 s.saveExit
    artworkFolder := cleanupPath s.artworkFolder
    bannerFolder := cleanupPath s.bannerFolder
    cacheFill := within 10 100 30 s.cacheFill
    audioNorm := within 0 4 0 s.audioNorm
    videoDf := within 0 1 0 s.videoDf
    viWidth := within 0 1 0 s.viWidth
    skipBackward := within 5 1200 10 s.skipBackward
    skipForward := within 5 1200 30 s.skipForward
    videosFolder := cleanupPath s.videosFolder
    playOrder := within 0 4 0 s.playOrder
    artworkFade := within 0 99 0 s.artworkFade
    nativeLoops := within 0 9999 0 s.nativeLoops
    musicFolder := cleanupPath s.musicFolder }

/-- `FixInvalidSettings`. -/
def fixInvalidSettings (s : SWiiSettings) : SWiiSettings := quickFixes (checkFields s)

/-! ## The document -/

/-- The version of the file, and the settings in it by their names. -/
structure Document where
  version : Option Text
  settings : List (String × Text)
  deriving DecidableEq

/-- Mini-XML: `mxmlSaveString` and `mxmlLoadString`. -/
structure MiniXml (File : Type) where
  saveString : Document → File
  loadString : File → Option Document

/-- `APPVERSION`. -/
def appVersion : Text := ascii "3.0.0"

/-- `toStr`. -/
def toStr (i : ℤ) : Text := decimalInt i

/-- `prepareSettingsData`. -/
def prepareSettingsData (s : SWiiSettings) : Document where
  version := some appVersion
  settings :=
    [("language", toStr s.language),
     ("volume", toStr s.volume),
     ("hideExtensions", toStr s.hideExtensions),
     ("screensaverDelay", toStr s.screensaverDelay),
     ("lockFolders", toStr s.lockFolders),
     ("startArea", toStr s.startArea),
     ("artwork", toStr s.artwork),
     ("artworkFolder", s.artworkFolder),
     ("bannerLimit", toStr s.bannerLimit),
     ("bannerFolder", s.bannerFolder),
     ("jpegQuality", toStr s.jpegQuality),
     ("night", toStr s.night),
     ("videoDf", toStr s.videoDf),
     ("viWidth", toStr s.viWidth),
     ("doubleStrike", toStr s.doubleStrike),
     ("saveExit", toStr s.saveExit),
     ("cacheFill", toStr s.cacheFill),
     ("skipBackward", toStr s.skipBackward),
     ("skipForward", toStr s.skipForward),
     ("videosFolder", s.videosFolder),
     ("audioNorm", toStr s.audioNorm),
     ("playOrder", toStr s.playOrder),
     ("screensaverArt", toStr s.screensaverArt),
     ("artworkFade", toStr s.artworkFade),
     ("nativeLoops", toStr s.nativeLoops),
     ("musicFolder", s.musicFolder),
     ("onlineCacheFill", toStr s.onlineCacheFill),
     ("onlinemediaFolder", s.onlinemediaFolder),
     ("netStaticIP", s.netStaticIP),
     ("netStaticMask", s.netStaticMask),
     ("netStaticGW", s.netStaticGW)]

/-- `loadXMLSetting` for an `int`. -/
def loadInt (doc : Document) (name : String) (var : ℤ) : ℤ :=
  match doc.settings.lookup name with
  | none => var
  | some value => atoi value

/-- `loadXMLSetting` for a text in a field of the size `maxsize`. -/
def loadText (doc : Document) (name : String) (maxsize : ℕ) (var : Text) : Text :=
  match doc.settings.lookup name with
  | none => var
  | some value => value.take (maxsize - 1)

/-- The settings of a document are loaded over `s`. -/
def loadFields (doc : Document) (s : SWiiSettings) : SWiiSettings where
  language := loadInt doc "language" s.language
  volume := loadInt doc "volume" s.volume
  hideExtensions := loadInt doc "hideExtensions" s.hideExtensions
  screensaverDelay := loadInt doc "screensaverDelay" s.screensaverDelay
  lockFolders := loadInt doc "lockFolders" s.lockFolders
  startArea := loadInt doc "startArea" s.startArea
  artwork := loadInt doc "artwork" s.artwork
  artworkFolder := loadText doc "artworkFolder" maxPathLen s.artworkFolder
  bannerLimit := loadInt doc "bannerLimit" s.bannerLimit
  bannerFolder := loadText doc "bannerFolder" maxPathLen s.bannerFolder
  jpegQuality := loadInt doc "jpegQuality" s.jpegQuality
  night := loadInt doc "night" s.night
  doubleStrike := loadInt doc "doubleStrike" s.doubleStrike
  saveExit := loadInt doc "saveExit" s.saveExit
  cacheFill := loadInt doc "cacheFill" s.cacheFill
  skipBackward := loadInt doc "skipBackward" s.skipBackward
  skipForward := loadInt doc "skipForward" s.skipForward
  videosFolder := loadText doc "videosFolder" maxPathLen s.videosFolder
  audioNorm := loadInt doc "audioNorm" s.audioNorm
  videoDf := loadInt doc "videoDf" s.videoDf
  viWidth := loadInt doc "viWidth" s.viWidth
  playOrder := loadInt doc "playOrder" s.playOrder
  screensaverArt := loadInt doc "screensaverArt" s.screensaverArt
  artworkFade := loadInt doc "artworkFade" s.artworkFade
  nativeLoops := loadInt doc "nativeLoops" s.nativeLoops
  musicFolder := loadText doc "musicFolder" maxPathLen s.musicFolder
  onlineCacheFill := loadInt doc "onlineCacheFill" s.onlineCacheFill
  onlinemediaFolder := loadText doc "onlinemediaFolder" maxPathLen s.onlinemediaFolder
  netStaticIP := loadText doc "netStaticIP" 16 s.netStaticIP
  netStaticMask := loadText doc "netStaticMask" 16 s.netStaticMask
  netStaticGW := loadText doc "netStaticGW" 16 s.netStaticGW

/-- A character of a version as a number. -/
def versionDigit (c : UInt8) : ℤ := c.toNat - 48

/-- The check of the version: `X.X.X`, from 1.0.0 on, and no future one. -/
def versionAccepted (version : Text) : Bool :=
  match version with
  | [major, _, minor, _, point] =>
      0 ≤ versionDigit major && versionDigit major ≤ 9 && 0 ≤ versionDigit minor &&
        versionDigit minor ≤ 9 && 0 ≤ versionDigit point && versionDigit point ≤ 9 &&
        1 ≤ versionDigit major &&
        versionDigit major * 100 + versionDigit minor * 10 + versionDigit point ≤ 300
  | _ => false

/-- `LoadSettingsFile`; `none` as file if it cannot be read or is empty. -/
def loadSettingsFile {File : Type} (mxml : MiniXml File) (file : Option File) (s : SWiiSettings) :
    Bool × SWiiSettings :=
  match file.bind mxml.loadString with
  | none => (false, s)
  | some doc =>
      match doc.version with
      | none => (false, s)
      | some version => if versionAccepted version then (true, loadFields doc s) else (false, s)

/-- `wiiSetDoubleStrike`: with double strike there is no deflicker. -/
def wiiSetDoubleStrike (s : SWiiSettings) : SWiiSettings :=
  if s.doubleStrike = 1 then { s with videoDf := 0 } else s

/-- `LoadSettings`, in a program that has not tried it before and knows its directory. -/
def loadSettings {File : Type} (mxml : MiniXml File) (file : Option File) (s : SWiiSettings) :
    Bool × SWiiSettings :=
  match loadSettingsFile mxml file s with
  | (false, s') => (false, s')
  | (true, s') => (true, wiiSetDoubleStrike (fixInvalidSettings s'))

/-- `SaveSettings`: what is written into the file, and the settings afterwards. -/
def saveSettings {File : Type} (mxml : MiniXml File) (s : SWiiSettings) : File × SWiiSettings :=
  (mxml.saveString (prepareSettingsData (fixInvalidSettings s)), fixInvalidSettings s)

/-! ## Reading what has been written -/

theorem atoi_toStr (i : ℤ) : atoi (toStr i) = i := by
  rw [atoi, toStr, scanInt_decimalInt]
  rfl

/-- The texts fit into their fields. -/
structure Fits (s : SWiiSettings) : Prop where
  artworkFolder : s.artworkFolder.length < maxPathLen
  bannerFolder : s.bannerFolder.length < maxPathLen
  videosFolder : s.videosFolder.length < maxPathLen
  musicFolder : s.musicFolder.length < maxPathLen
  onlinemediaFolder : s.onlinemediaFolder.length < maxPathLen
  netStaticIP : s.netStaticIP.length < 16
  netStaticMask : s.netStaticMask.length < 16
  netStaticGW : s.netStaticGW.length < 16

/-- The settings with other folders. -/
def refolder (s : SWiiSettings) (f : Text → Text) : SWiiSettings :=
  { s with
    artworkFolder := f s.artworkFolder
    bannerFolder := f s.bannerFolder
    videosFolder := f s.videosFolder
    musicFolder := f s.musicFolder }

variable {s d : SWiiSettings}

/-- All fields are read back, the folders up to the size of their fields. -/
theorem loadFields_prepareSettingsData (honline : s.onlinemediaFolder.length < maxPathLen)
    (hip : s.netStaticIP.length < 16) (hmask : s.netStaticMask.length < 16)
    (hgw : s.netStaticGW.length < 16) :
    loadFields (prepareSettingsData s) d = refolder s (List.take (maxPathLen - 1)) := by
  have hint : ∀ name i var, (prepareSettingsData s).settings.lookup name = some (toStr i) →
      loadInt (prepareSettingsData s) name var = i := fun name i var hlookup => by
    rw [loadInt, hlookup]
    exact atoi_toStr i
  have hfolder : ∀ name t var, (prepareSettingsData s).settings.lookup name = some t →
      loadText (prepareSettingsData s) name maxPathLen var = t.take (maxPathLen - 1) :=
    fun name t var hlookup => by rw [loadText, hlookup]
  have htext : ∀ name size t var, (prepareSettingsData s).settings.lookup name = some t →
      t.length < size → loadText (prepareSettingsData s) name size var = t :=
    fun name size t var hlookup hlt => by
      rw [loadText, hlookup]
      exact List.take_of_length_le (Nat.le_sub_one_of_lt hlt)
  rw [loadFields, refolder, SWiiSettings.mk.injEq]
  refine ⟨?_, ?_, ?_, ?_, ?_, ?_, ?_, ?_, ?_, ?_, ?_, ?_, ?_, ?_, ?_, ?_, ?_, ?_, ?_, ?_, ?_, ?_, ?_,
    ?_, ?_, ?_, ?_, ?_, ?_, ?_, ?_⟩
  all_goals first
    | exact hint _ _ _ rfl
    | exact htext _ _ _ _ rfl ‹_›
    | exact hfolder _ _ _ rfl

/-! ## Repairing twice -/

/-- Every default passes its own check. -/
theorem within_within {lo hi dflt : ℤ} (h : lo ≤ dflt ∧ dflt ≤ hi) (v : ℤ) :
    within lo hi dflt (within lo hi dflt v) = within lo hi dflt v := by
  obtain ⟨hlo, hhi⟩ := h
  unfold within
  split_ifs <;> omega

theorem zeroOne_zeroOne {dflt : ℤ} (h : dflt = 0 ∨ dflt = 1) (v : ℤ) :
    zeroOne dflt (zeroOne dflt v) = zeroOne dflt v := by
  rcases h with rfl | rfl
  · unfold zeroOne
    split_ifs <;> omega
  · unfold zeroOne
    split_ifs <;> omega

theorem within_zero_one (v : ℤ) : within 0 1 0 v = 0 ∨ within 0 1 0 v = 1 := by
  unfold within
  split_ifs <;> omega

/-- The fix that turns the artwork on is never applied: the one in front of it has turned the
screen saver's off. -/
theorem quickFixes_eq (h : s.artwork = 0 ∨ s.artwork = 1) :
    quickFixes s = { s with
      screensaverArt := if s.artwork = 0 then 0 else s.screensaverArt
      bannerLimit :=
        if s.bannerFolder = [] ∨ s.artwork = 0 ∧ 0 < s.bannerLimit then 0 else s.bannerLimit } := by
  have hart : (if s.artwork < 1 ∧ s.screensaverArt ≠ 0 then 0 else s.screensaverArt) =
      if s.artwork = 0 then 0 else s.screensaverArt := by
    rcases h with h | h <;> rw [h]
    · by_cases hart : s.screensaverArt = 0
      · simp [hart]
      · simp [hart]
    · simp
  have hon : (if 0 < (if s.artwork = 0 then 0 else s.screensaverArt) ∧ s.artwork = 0 then 1
      else s.artwork) = s.artwork := by
    rw [if_neg]
    rintro ⟨hpos, hzero⟩
    rw [if_pos hzero] at hpos
    exact absurd hpos (lt_irrefl 0)
  have hlimit : (if s.bannerFolder = [] then 0
      else if 0 < s.bannerLimit ∧ s.artwork = 0 then 0 else s.bannerLimit) =
      if s.bannerFolder = [] ∨ s.artwork = 0 ∧ 0 < s.bannerLimit then 0 else s.bannerLimit := by
    by_cases hfolder : s.bannerFolder = []
    · rw [if_pos hfolder, if_pos (.inl hfolder)]
    · rw [if_neg hfolder]
      simp only [hfolder, false_or, and_comm]
  simp only [quickFixes, hart, hon, hlimit]

theorem fixInvalidSettings_eq (s : SWiiSettings) :
    fixInvalidSettings s = { checkFields s with
      screensaverArt := if (checkFields s).artwork = 0 then 0 else s.screensaverArt
      bannerLimit :=
        if (checkFields s).bannerFolder = [] ∨
            (checkFields s).artwork = 0 ∧ 0 < (checkFields s).bannerLimit then 0
        else (checkFields s).bannerLimit } :=
  quickFixes_eq (within_zero_one s.artwork)

/-- Repairing again what has been repaired cleans the folders again, whatever `f` has done to them.
The limit for the banners goes with their folder. -/
theorem fixInvalidSettings_refolder (s : SWiiSettings) (f : Text → Text) :
    fixInvalidSettings (refolder (fixInvalidSettings s) f) =
      { refolder (fixInvalidSettings s) (cleanupPath ∘ f) with
        bannerLimit :=
          if cleanupPath (f (fixInvalidSettings s).bannerFolder) = [] then 0
          else (fixInvalidSettings s).bannerLimit } := by
  have hwithin : ∀ lo hi dflt v, lo ≤ dflt ∧ dflt ≤ hi →
      within lo hi dflt (within lo hi dflt v) = within lo hi dflt v := fun _ _ _ v h =>
    within_within h v
  have hzeroOne : ∀ dflt v, dflt = 0 ∨ dflt = 1 → zeroOne dflt (zeroOne dflt v) = zeroOne dflt v :=
    fun _ v h => zeroOne_zeroOne h v
  rw [fixInvalidSettings_eq, fixInvalidSettings_eq s]
  simp (disch := decide) only [refolder, checkFields, hwithin, hzeroOne, Function.comp_apply,
    SWiiSettings.mk.injEq, true_and, and_true]
  refine ⟨?_, ?_⟩
  · by_cases hfolder : cleanupPath (f (cleanupPath s.bannerFolder)) = []
    · simp only [hfolder, true_or, if_true]
    · by_cases hfix : cleanupPath s.bannerFolder = [] ∨
          within 0 1 0 s.artwork = 0 ∧ 0 < within 0 9999 0 s.bannerLimit
      · simp only [hfix, if_true, hfolder, if_false]
        exact ite_self 0
      · obtain ⟨hne, hoff⟩ := not_or.mp hfix
        simp (disch := decide) only [hne, hfolder, hoff, or_self, if_false, hwithin]
  · by_cases hzero : within 0 1 0 s.artwork = 0
    · simp only [hzero, if_true]
    · simp only [hzero, if_false]

/-! ## The result -/

/-- The folders that are cleaned up. -/
def cleanedFolders : List (SWiiSettings → Text) :=
  [(·.artworkFolder), (·.bannerFolder), (·.videosFolder), (·.musicFolder)]

/-- The folders of repaired settings have been cleaned up. -/
theorem exists_cleaned (hfits : Fits s) {folder : SWiiSettings → Text}
    (hfolder : folder ∈ cleanedFolders) :
    ∃ path, path.length < maxPathLen ∧ folder (fixInvalidSettings s) = cleanupPath path := by
  rw [fixInvalidSettings_eq]
  simp only [cleanedFolders, List.mem_cons, List.not_mem_nil, or_false] at hfolder
  rcases hfolder with rfl | rfl | rfl | rfl
  · exact ⟨_, hfits.artworkFolder, rfl⟩
  · exact ⟨_, hfits.bannerFolder, rfl⟩
  · exact ⟨_, hfits.videosFolder, rfl⟩
  · exact ⟨_, hfits.musicFolder, rfl⟩

theorem refolder_folder (f : Text → Text) (i : ℤ) {folder : SWiiSettings → Text}
    (hfolder : folder ∈ cleanedFolders) :
    folder { refolder s f with bannerLimit := i } = f (folder s) := by
  simp only [cleanedFolders, List.mem_cons, List.not_mem_nil, or_false] at hfolder
  rcases hfolder with rfl | rfl | rfl | rfl <;> rfl

/-- A second repair changes nothing exactly if it leaves the cleaned folders alone. -/
theorem fixInvalidSettings_idempotent_iff (hfits : Fits s) :
    fixInvalidSettings (fixInvalidSettings s) = fixInvalidSettings s ↔
      ∀ folder ∈ cleanedFolders, Settled (folder (fixInvalidSettings s)) := by
  have hsettled : ∀ folder ∈ cleanedFolders,
      (cleanupPath (folder (fixInvalidSettings s)) = folder (fixInvalidSettings s) ↔
        Settled (folder (fixInvalidSettings s))) := fun folder hfolder => by
    obtain ⟨path, hlen, hpath⟩ := exists_cleaned hfits hfolder
    rw [hpath]
    exact cleanupPath_settled_iff hlen
  have hagain := fixInvalidSettings_refolder s id
  rw [Function.comp_id, show refolder (fixInvalidSettings s) id = fixInvalidSettings s from rfl]
    at hagain
  constructor
  · intro heq folder hfolder
    refine (hsettled folder hfolder).mp ?_
    rw [← refolder_folder cleanupPath _ hfolder, ← hagain, heq]
  · intro hall
    have hclean := fun folder hfolder => (hsettled folder hfolder).mpr (hall folder hfolder)
    simp only [cleanedFolders, List.forall_mem_cons] at hclean
    obtain ⟨hartwork, hbanner, hvideos, hmusic, -⟩ := hclean
    rw [hagain, refolder, hartwork, hbanner, hvideos, hmusic]
    simp only [id_eq, hbanner]
    -- without a folder there is no limit either
    have hlimit : (fixInvalidSettings s).bannerFolder = [] → (fixInvalidSettings s).bannerLimit = 0 := by
      rw [fixInvalidSettings_eq]
      exact fun hnil => if_pos (.inl hnil)
    split_ifs with hnil
    · rw [← hlimit hnil]
    · rfl

/-- What is saved is loaded again field by field. The deflicker is off with double strike. A cleaned
folder comes back exactly if it is one of those that return, and the limit for the banners unless
their folder is wiped. A second repair changes nothing exactly if it leaves the folders alone. -/
theorem loadSettings_saveSettings {File : Type} (mxml : MiniXml File)
    (hxml : ∀ doc, mxml.loadString (mxml.saveString doc) = some doc) (s : SWiiSettings)
    (hfits : Fits s) :
    ∃ loaded, loadSettings mxml (some (saveSettings mxml s).1) defaultSettings = (true, loaded) ∧
      { loaded with
        videoDf := (saveSettings mxml s).2.videoDf
        bannerLimit := (saveSettings mxml s).2.bannerLimit
        artworkFolder := (saveSettings mxml s).2.artworkFolder
        bannerFolder := (saveSettings mxml s).2.bannerFolder
        videosFolder := (saveSettings mxml s).2.videosFolder
        musicFolder := (saveSettings mxml s).2.musicFolder } = (saveSettings mxml s).2 ∧
      loaded.videoDf =
        (if (saveSettings mxml s).2.doubleStrike = 1 then 0 else (saveSettings mxml s).2.videoDf) ∧
      loaded.bannerLimit =
        (if loaded.bannerFolder = [] then 0 else (saveSettings mxml s).2.bannerLimit) ∧
      (∀ folder ∈ cleanedFolders,
        (folder loaded = folder (saveSettings mxml s).2 ↔
          Returns (folder (saveSettings mxml s).2))) ∧
      (fixInvalidSettings (fixInvalidSettings s) = fixInvalidSettings s ↔
        ∀ folder ∈ cleanedFolders, Settled (folder (fixInvalidSettings s))) := by
  -- What is read back is what was stored, with every folder cut to its buffer.
  have hfields : loadFields (prepareSettingsData (fixInvalidSettings s)) defaultSettings =
      refolder (fixInvalidSettings s) (List.take (maxPathLen - 1)) :=
    loadFields_prepareSettingsData hfits.onlinemediaFolder hfits.netStaticIP hfits.netStaticMask
      hfits.netStaticGW
  have hfile : loadSettingsFile mxml (some (saveSettings mxml s).1) defaultSettings =
      (true, refolder (fixInvalidSettings s) (List.take (maxPathLen - 1))) := by
    rw [loadSettingsFile, saveSettings, Option.bind_some, hxml, ← hfields]
    rfl
  have hload := fixInvalidSettings_refolder s (List.take (maxPathLen - 1))
  -- Double strike is set behind the loading and decides over the frame doubling.
  have hstrike : ∀ t : SWiiSettings, wiiSetDoubleStrike t =
      { t with videoDf := if t.doubleStrike = 1 then 0 else t.videoDf } := fun t => by
    unfold wiiSetDoubleStrike
    split_ifs <;> rfl
  rw [loadSettings, hfile]
  simp only [hload, hstrike]
  refine ⟨_, rfl, rfl, rfl, rfl, fun folder hfolder => ?_, fixInvalidSettings_idempotent_iff hfits⟩
  -- A stored folder is a cleaned one, for which returning is settled by its text.
  obtain ⟨path, hlen, hpath⟩ := exists_cleaned hfits hfolder
  rw [show (saveSettings mxml s).2 = fixInvalidSettings s from rfl, hpath,
    ← cleanupPath_returns_iff hlen, ← hpath]
  simp only [cleanedFolders, List.mem_cons, List.not_mem_nil, or_false] at hfolder
  rcases hfolder with rfl | rfl | rfl | rfl <;> exact Iff.rfl

/-- A file that holds the document itself. -/
def plainXml : MiniXml Document := ⟨id, some⟩

/-- Settings that need repairs, with a folder that is not settled. -/
def sampleSettings : SWiiSettings :=
  { defaultSettings with
    volume := 130
    doubleStrike := 1
    videoDf := 1
    videosFolder := ascii "sd1:/Wait.../"
    musicFolder := ascii "sd1:\\music" }

/-- Only the folder whose name ends with dots does not return. -/
theorem loadSettings_saveSettings_sample :
    cleanedFolders.map (fun folder => decide (Returns (folder (saveSettings plainXml sampleSettings).2))) =
      [true, true, false, true] ∧
    ∃ loaded, loadSettings plainXml (some (saveSettings plainXml sampleSettings).1) defaultSettings =
        (true, loaded) ∧
      { loaded with
        videoDf := (saveSettings plainXml sampleSettings).2.videoDf
        bannerLimit := (saveSettings plainXml sampleSettings).2.bannerLimit
        artworkFolder := (saveSettings plainXml sampleSettings).2.artworkFolder
        bannerFolder := (saveSettings plainXml sampleSettings).2.bannerFolder
        videosFolder := (saveSettings plainXml sampleSettings).2.videosFolder
        musicFolder := (saveSettings plainXml sampleSettings).2.musicFolder } =
        (saveSettings plainXml sampleSettings).2 ∧
      loaded.videoDf = (if (saveSettings plainXml sampleSettings).2.doubleStrike = 1 then 0
        else (saveSettings plainXml sampleSettings).2.videoDf) ∧
      loaded.bannerLimit = (if loaded.bannerFolder = [] then 0
        else (saveSettings plainXml sampleSettings).2.bannerLimit) ∧
      (∀ folder ∈ cleanedFolders,
        (folder loaded = folder (saveSettings plainXml sampleSettings).2 ↔
          Returns (folder (saveSettings plainXml sampleSettings).2))) ∧
      (fixInvalidSettings (fixInvalidSettings sampleSettings) = fixInvalidSettings sampleSettings ↔
        ∀ folder ∈ cleanedFolders, Settled (folder (fixInvalidSettings sampleSettings))) :=
  ⟨by decide, loadSettings_saveSettings plainXml (fun _ => rfl) sampleSettings
    ⟨by decide, by decide, by decide, by decide, by decide, by decide, by decide, by decide⟩⟩

/-- With double strike the deflicker that has been saved is not loaded; and a folder whose name ends
with dots gets its slash back only when it is loaded. -/
theorem loadSettings_deflicker :
    ¬ (∀ s, Fits s → (loadSettings plainXml (some (saveSettings plainXml s).1) defaultSettings).2 =
        (saveSettings plainXml s).2) ∧
      (loadSettings plainXml (some (saveSettings plainXml
        { defaultSettings with doubleStrike := 1, videoDf := 1 }).1) defaultSettings).2.videoDf = 0 ∧
      (saveSettings plainXml { defaultSettings with doubleStrike := 1, videoDf := 1 }).2.videoDf =
        1 ∧
      fixInvalidSettings (fixInvalidSettings
          { defaultSettings with musicFolder := ascii "sd1:/Wait.../" }) ≠
        fixInvalidSettings { defaultSettings with musicFolder := ascii "sd1:/Wait.../" } := by
  have hloaded : (loadSettings plainXml (some (saveSettings plainXml
      { defaultSettings with doubleStrike := 1, videoDf := 1 }).1) defaultSettings).2.videoDf = 0 := by
    decide
  refine ⟨fun hall => ?_, hloaded, by decide, by decide⟩
  have heq := hall { defaultSettings with doubleStrike := 1, videoDf := 1 }
    ⟨by decide, by decide, by decide, by decide, by decide, by decide, by decide, by decide⟩
  rw [heq] at hloaded
  exact absurd hloaded (by decide)

end WiiMC.Settings
