import WiiMC.Lib.Bytes

/-!
# The entries of the browser

`fileop.cpp`: what kind of file an entry is, and its full path.

* `songPaths`: the paths with which the songs of the listing are played.
* `fullPathIn`: a full path in an array of the program.
-/

namespace WiiMC.Player

open Bytes

/-- A text of the program. -/
abbrev Text := List UInt8

instance : LawfulBEq Text := inferInstance

/-- `type` of a `BROWSERENTRY`. -/
inductive EntryType
  | file | folder | playlist | search
  deriving DecidableEq

/-- `BROWSERENTRY`, as far as the path of a song depends on it. -/
structure BrowserEntry where
  type : EntryType
  file : Option Text
  deriving DecidableEq

/-- `strrchr(s, c)`, behind the byte. -/
def afterLast? (c : UInt8) (s : Text) : Option Text :=
  if c ∈ s then some (s.reverse.takeWhile (· != c)).reverse else none

/-- `GetExt`: up to six letters or digits behind the last dot. -/
def getExt (file : Text) : Text :=
  if file.getLast? = some 47 then []
  else match afterLast? 46 file with
  | none => []
  | some ext => if ext.length ≤ 6 ∧ ext.all isAlnum then ext else []

/-- `validAudioExtensions`. -/
def validAudioExtensions : List Text :=
  ["aac", "ac3", "adx", "aif", "aiff", "amr", "ape", "apl", "asf", "bcstm", "bfstm", "brstm",
    "flac", "m4a", "m4b", "m4p", "mka", "mp2", "mp3", "mpc", "oga", "ogg", "wav", "wma"].map ascii

/-- `IsAudioExt`. -/
def isAudioExt (ext : Text) : Bool := ext ≠ [] && validAudioExtensions.any (eqNoCase ext)

/-- `validInternetProtocols`. -/
def validInternetProtocols : List Text := ["http", "https"].map ascii

/-- `IsAllowedProtocol`. -/
def isAllowedProtocol (file : Text) : Bool :=
  match splitAt? 58 file with
  | none => false
  | some (protocol, rest) =>
      protocol.length ≤ 5 && (ascii "//").isPrefixOf rest &&
        validInternetProtocols.any (eqNoCase protocol)

/-- `atoi`. -/
def atoi (s : Text) : ℤ := ((scanInt s).map Prod.fst).getD 0

/-- `FindDevice`, without the device. -/
def findDevice (filepath : Text) : Bool :=
  if filepath = [] then false
  else if (ascii "dav1:").isPrefixOf filepath then true
  else if isAllowedProtocol filepath then true
  else if (ascii "sd").isPrefixOf filepath then
    0 < atoi (filepath.drop 2) && atoi (filepath.drop 2) < 10
  else
    0 < atoi (filepath.drop 3) && atoi (filepath.drop 3) < 10 && (ascii "smb").isPrefixOf filepath

/-- `GetFullPath`. -/
def getFullPath (dir file : Text) : Text := if findDevice file then file else dir ++ file

/-- `MAXPATHLEN`. -/
def maxPathLen : ℕ := 1024

/-- `GetFullPath` into an array of `size` bytes; `none` where it writes past the end. -/
def fullPathIn (size : ℕ) (dir file : Text) : Option Text :=
  if (getFullPath dir file).length < size then some (getFullPath dir file) else none

/-- A song has a path: the test for an empty one is never true. -/
theorem getFullPath_ne_nil {dir file : Text} (h : isAudioExt (getExt file) = true) :
    getFullPath dir file ≠ [] := by
  have hfile : file ≠ [] := by
    rintro rfl
    cases h
  unfold getFullPath
  split_ifs
  · exact hfile
  · simp [hfile]

/-- The name of the entry, if it is an audio file. -/
def BrowserEntry.song? (e : BrowserEntry) : Option Text :=
  match e.type, e.file with
  | .file, some file => if isAudioExt (getExt file) then some file else none
  | _, _ => none

/-- The paths of the audio files of a listing, in their order. -/
def songPaths (dir : Text) (entries : List BrowserEntry) : List Text :=
  entries.filterMap fun e => e.song?.map (getFullPath dir)

end WiiMC.Player
