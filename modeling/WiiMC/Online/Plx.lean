import WiiMC.Lib.Buffer
import WiiMC.Player.Browser
import Mathlib.Data.List.TakeWhile

/-!
# A PLX playlist is read

`ParsePLXPlaylist` of `fileop.cpp`, up to the list of entries. The arrays `line`, `attribute` and
`value` have their sizes and an arbitrary content, and the list has the room that `malloc` and
`realloc` have given it: `alloc n` says whether there is memory for `n` entries. A read or a write
past an array fails.

* `parsePLXPlaylist`: the function, with `plxStep` for one line.
* `lines`, `feed`: the lines that are looked at, and what becomes of one.
* `FitsLine`: the line leaves `line`, `attribute` and `value` alone behind their ends.
* `plxStep_line`, `plxLoop_follows`, `parsePLXPlaylist_eq`: the loop does with the arrays what
  `runLines` does with the lines.
-/

namespace WiiMC.Online

open Bytes Buffer Player

/-! ## The entries -/

/-- `MAX_PLX_SIZE`. -/
def maxPlxSize : ℕ := 512 * 1024

/-- `MAXJOLIET`. -/
def maxJoliet : ℕ := 255

/-- `PLXENTRY`. -/
structure PlxEntry where
  /-- 0 for an unsupported type, 1 for a video, 2 for a playlist, 3 for a search. -/
  type : ℕ
  name : Text
  url : Text
  thumb : Text
  xml : Text
  tunein : Text
  processor : Text
  deriving DecidableEq

/-- An entry after `memset`, where `type` is set. -/
def PlxEntry.blank (type : ℕ) : PlxEntry := ⟨type, [], [], [], [], [], []⟩

/-- The attributes that are looked for. -/
inductive Attr
  | version | type | name | url | thumb | xml | tunein | processor
  deriving DecidableEq

/-- The attribute with whose name the text begins, `tunein` after three letters. -/
def attrOf (attr : Text) : Option Attr :=
  if (ascii "version").isPrefixOf attr then some .version
  else if (ascii "type").isPrefixOf attr then some .type
  else if (ascii "name").isPrefixOf attr then some .name
  else if (ascii "URL").isPrefixOf attr then some .url
  else if (ascii "thumb").isPrefixOf attr then some .thumb
  else if (ascii "xml").isPrefixOf attr then some .xml
  else if (ascii "tun").isPrefixOf attr then some .tunein
  else if (ascii "processor").isPrefixOf attr then some .processor
  else none

/-- The number of a type. -/
def typeOf (value : Text) : ℕ :=
  if (ascii "video").isPrefixOf value ∨ (ascii "audio").isPrefixOf value then 1
  else if (ascii "playlist").isPrefixOf value then 2
  else if (ascii "search").isPrefixOf value then 3
  else 0

/-- `snprintf(dst, cap, "%s", s)`. -/
def cut (cap : ℕ) (s : Text) : Text := s.take (cap - 1)

/-- A field of the entry gets a value. -/
def PlxEntry.set (e : PlxEntry) (value : Text) : Attr → PlxEntry
  | .version | .type => e
  | .name => { e with name := cut maxJoliet value }
  | .url => { e with url := cut maxPathLen value }
  | .thumb => { e with thumb := cut maxJoliet value }
  | .xml => { e with xml := cut maxJoliet value }
  | .tunein => { e with tunein := cut maxJoliet value }
  | .processor => { e with processor := cut maxPathLen value }

/-- The test in front of an entry that is added to the list. -/
def PlxEntry.complete (e : PlxEntry) : Bool :=
  0 < e.type && e.name ≠ [] && e.url ≠ [] && e.processor = [] && isAllowedProtocol e.url

/-! ## The loop -/

/-- The variables of the function. -/
structure Plx where
  line : List UInt8
  attr : List UInt8
  value : List UInt8
  plxFile : Bool
  /-- The first `numEntries` entries of `list`. -/
  list : List PlxEntry
  /-- For how many entries `list` has room. -/
  room : ℕ
  newEntry : PlxEntry

/-- The text in an array, if it ends there. -/
def cstr (a : List UInt8) : Option Text :=
  if 0 ∈ a then some (a.takeWhile (· != 0)) else none

/-- The text at `buffer + p`. Behind the `data` that have been loaded stand zeros. -/
def bufferText (data : List UInt8) (p : ℕ) : Option Text :=
  if data.length < maxPlxSize ∨ 0 ∈ data.drop p then some ((data.drop p).takeWhile (· != 0))
  else none

/-- The loop along a line: its length, and whether a new line is behind it. -/
def scanLine : List UInt8 → ℕ → ℕ × Bool
  | [], c => (c, false)
  | b :: bs, c =>
      if 4096 ≤ c then (c, false)
      else if b = 10 then (c, true)
      else scanLine bs (c + 1)

/-- `c` and `line` for the line at `lineptr`. -/
def readLine (data : List UInt8) (lineptr : ℕ) (line : List UInt8) : Option (ℕ × List UInt8) :=
  (put 0 [0] line).bind fun line =>
  match scanLine (data.drop lineptr) 0 with
  | (c, false) => some (c, line)
  | (c, true) =>
      (bufferText data lineptr).bind fun s =>
      (put 0 (s.take c ++ [0]) line).bind fun line =>
      -- in front of a line without a byte stands no byte of the array
      if c = 0 then none
      else
        (line)[c - 1]?.bind fun last =>
        if last = 13 then (put (c - 1) [0] line).map (c, ·) else some (c, line)

/-- `sscanf(line, "%[^=]=%[^\n]", attribute, value)`: how many of the two are stored. -/
def sscanfPair (text : Text) (attr value : List UInt8) :
    Option (ℕ × List UInt8 × List UInt8) :=
  let a := text.takeWhile (· != 61)
  let v := (text.drop (a.length + 1)).takeWhile (· != 10)
  if a = [] then some (0, attr, value)
  else
    (put 0 (a ++ [0]) attr).bind fun attr =>
    if v = [] then some (1, attr, value)
    else (put 0 (v ++ [0]) value).map fun value => (2, attr, value)

/-- `newEntry` is added to the list, if it is complete. -/
def addEntry (s : Plx) : Option Plx :=
  if s.newEntry.complete then
    if s.list.length < s.room then some { s with list := s.list ++ [s.newEntry] } else none
  else some s

/-- What is done with an attribute. The function returns -1 where there is no memory. -/
def assign (alloc : ℕ → Bool) (attr value : Text) (s : Plx) : Option (Option Plx) :=
  match attrOf attr with
  | none => some (some s)
  | some .version => some (some { s with plxFile := true })
  | some .type =>
      (addEntry s).map fun t =>
      if s.newEntry.complete ∧ alloc (t.list.length + 1) = false then none
      else
        some { t with
          room := if s.newEntry.complete then t.list.length + 1 else t.room
          newEntry := .blank (typeOf value) }
  | some a => some (some { s with newEntry := s.newEntry.set value a })

/-- Where the loop is after a line. -/
inductive Step
  /-- The loop is left. -/
  | stop (s : Plx)
  /-- The next line begins at `lineptr`. -/
  | next (lineptr : ℕ) (s : Plx)
  /-- The function returns -1. -/
  | failed

/-- One round of the loop. -/
def plxStep (alloc : ℕ → Bool) (data : List UInt8) (lineptr : ℕ) (s : Plx) : Option Step :=
  (readLine data lineptr s.line).bind fun (c, line) =>
  let s := { s with line }
  if c = 4096 ∨ data.length < lineptr + c then some (.stop s)
  else if c ≤ 2 then some (.next (lineptr + c + 1) s)
  else
    (cstr s.line).bind fun text =>
    (sscanfPair text s.attr s.value).bind fun (count, attr, value) =>
    let s := { s with attr, value }
    if count = 2 then
      (cstr s.attr).bind fun attr =>
      (cstr s.value).bind fun value =>
      (assign alloc attr value s).map fun
        | none => .failed
        | some s => .next (lineptr + c + 1) s
    else some (.next (lineptr + c + 1) s)

/-- The loop over the lines, or nothing where the function returns -1. -/
def plxLoop (alloc : ℕ → Bool) (data : List UInt8) : ℕ → ℕ → Plx → Option (Option Plx)
  | 0, lineptr, s => if data.length ≤ lineptr then some (some s) else none
  | n + 1, lineptr, s =>
      if data.length ≤ lineptr then some (some s)
      else
        (plxStep alloc data lineptr s).bind fun
          | .stop s => some (some s)
          | .next lineptr s => plxLoop alloc data n lineptr s
          | .failed => some none

/-! ## The function -/

/-- What is in the buffer: `http_request` cuts a longer file off, and `LoadFile` does not load
it. -/
def loadPlx (http : Bool) (content : List UInt8) : List UInt8 :=
  if http then content.take (maxPlxSize - 1)
  else if content.length < maxPlxSize then content else []

/-- The arrays on the stack, as they are found. -/
structure Arrays where
  line : List UInt8
  line_length : line.length = 4096
  attr : List UInt8
  attr_length : attr.length = 1024
  value : List UInt8
  value_length : value.length = 1024

/-- What comes of a playlist: a number that is returned at once, or the entries for the browser. -/
inductive PlxResult
  | code (n : ℤ)
  | entries (list : List PlxEntry)
  deriving DecidableEq

/-- The variables before the loop. -/
def Plx.start (alloc : ℕ → Bool) (stack : Arrays) : Plx where
  line := stack.line
  attr := stack.attr
  value := stack.value
  plxFile := false
  list := []
  room := if alloc 1 then 1 else 0
  newEntry := .blank 0

/-- `ParsePLXPlaylist`, where `search` says that the entry selected in the browser is a search. -/
def parsePLXPlaylist (alloc : ℕ → Bool) (stack : Arrays) (search : Bool) (http : Bool)
    (content : List UInt8) : Option PlxResult :=
  let data := loadPlx http content
  if data = [] then some (.code (if search then -4 else 0))
  else
    (plxLoop alloc data data.length 0 (.start alloc stack)).bind fun
      | none => some (.code (-1))
      | some s =>
          (addEntry s).map fun s =>
          if s.list = [] then .code (if s.plxFile && search then -5 else -2)
          else .entries s.list

/-! ## The lines -/

/-- The lines that are looked at: those that a new line ends, up to the first one that is too
long. -/
def lines (data : List UInt8) : List Text :=
  (data.splitOn 10).dropLast.takeWhile fun l => l.length < 4096

/-- The text of a line, without the carriage return at its end. -/
def lineText (l : Text) : Text :=
  if 0 ∈ l then l.takeWhile (· != 0) else if l.getLast? = some 13 then l.dropLast else l

/-- What stands in front of the first equals sign of a text, and behind it. -/
def attrPart (t : Text) : Text := t.takeWhile (· != 61)

def valuePart (t : Text) : Text := t.drop ((attrPart t).length + 1)

/-- A line stays in the arrays: it is not empty, and its attribute and value are not too long. -/
def FitsLine (l : Text) : Prop :=
  l ≠ [] ∧ (2 < l.length → (attrPart (lineText l)).length < 1024 ∧
    (attrPart (lineText l) ≠ [] → (valuePart (lineText l)).length < 1024))

/-- Whether a line fits is decided by the lengths of its parts. -/
instance (l : Text) : Decidable (FitsLine l) := inferInstanceAs (Decidable (_ ∧ _))

/-- What the lines have led to. -/
structure Collected where
  plxFile : Bool
  list : List PlxEntry
  newEntry : PlxEntry

def Collected.start : Collected := ⟨false, [], .blank 0⟩

/-- The list with `newEntry`, if that is complete. -/
def Collected.added (c : Collected) : List PlxEntry :=
  if c.newEntry.complete then c.list ++ [c.newEntry] else c.list

/-- An attribute gets a value. -/
def Collected.assign (c : Collected) (attr value : Text) : Collected :=
  match attrOf attr with
  | none => c
  | some .version => { c with plxFile := true }
  | some .type => { c with list := c.added, newEntry := .blank (typeOf value) }
  | some a => { c with newEntry := c.newEntry.set value a }

/-- A line is taken in. -/
def Collected.feed (c : Collected) (l : Text) : Collected :=
  if l.length ≤ 2 ∨ attrPart (lineText l) = [] ∨ valuePart (lineText l) = [] then c
  else c.assign (attrPart (lineText l)) (valuePart (lineText l))

/-- The lists of the two states, as far as there is memory for the longer one and for one entry
more. -/
def Collected.grow (alloc : ℕ → Bool) (c d : Collected) : Option (Option Collected) :=
  if d.list.length = c.list.length then some (some d)
  else if alloc d.list.length = false then none
  else if alloc (d.list.length + 1) = false then some none
  else some (some d)

/-- A line is taken in, where it fits into the arrays. -/
def Collected.step (alloc : ℕ → Bool) (c : Collected) (l : Text) : Option (Option Collected) :=
  if FitsLine l then c.grow alloc (c.feed l) else none

/-- The loop over the lines. -/
def runLines (alloc : ℕ → Bool) : Collected → List Text → Option (Option Collected)
  | c, [] => some (some c)
  | c, l :: ls =>
      (c.step alloc l).bind fun
        | none => some none
        | some d => runLines alloc d ls

/-! ## Arrays and texts -/

variable {alloc : ℕ → Bool} {data pre rest t l : List UInt8} {s : Plx} {c : Collected} {p : ℕ}

/-- A text ends at its first zero byte. -/
theorem cstr_append (ht : 0 ∉ t) (rest : List UInt8) : cstr (t ++ 0 :: rest) = some t := by
  have hend : ∀ b ∈ (0 :: rest).head?, b = 0 := fun _ hb => (Option.some.inj hb).symm
  rw [cstr, if_pos (by simp), (span_of_not_mem ht hend).1]

/-- A text is found at the start of an array. -/
theorem cstr_take {a : List UInt8} (ht : 0 ∉ t) (htake : a.take (t.length + 1) = t ++ [0]) :
    cstr a = some t := by
  rw [← List.take_append_drop (t.length + 1) a, htake, List.append_assoc]
  exact cstr_append ht _

/-- A text that is stored is there with its zero byte. -/
theorem take_put_text {a b : List UInt8} (hput : put 0 (t ++ [0]) a = some b) :
    b.take (t.length + 1) = t ++ [0] := by
  have htake := take_put hput
  rwa [List.take_zero, List.nil_append, Nat.zero_add, List.length_append] at htake

/-- The scan ends behind the line feed. -/
theorem scanLine_line (hl : 10 ∉ l) (hlen : l.length < 4096) (n : ℕ) (hn : n + l.length < 4096) :
    scanLine (l ++ 10 :: rest) n = (n + l.length, true) := by
  induction l generalizing n with
  | nil => rw [List.nil_append, scanLine, if_neg (by simpa using hn), if_pos rfl]; rfl
  | cons b l ih =>
      rw [List.length_cons] at hn hlen
      have hb : b ≠ 10 := fun h => hl (h ▸ List.mem_cons_self)
      rw [List.cons_append, scanLine, if_neg (by omega), if_neg hb,
        ih (fun h => hl (List.mem_cons_of_mem b h)) (by omega) _ (by omega), List.length_cons]
      congr 1
      omega

/-- A line that is too long, or that nothing ends. -/
theorem scanLine_none (hl : 10 ∉ l.take (4096 - n)) (hn : n ≤ 4096) :
    scanLine l n = (min 4096 (n + l.length), false) := by
  induction l generalizing n with
  | nil => rw [scanLine, List.length_nil, Nat.add_zero, Nat.min_eq_right hn]
  | cons b l ih =>
      rw [scanLine]
      by_cases hfull : 4096 ≤ n
      · rw [if_pos hfull, Nat.min_eq_left (by omega), Nat.le_antisymm hn hfull]
      rw [if_neg hfull]
      obtain ⟨k, hk⟩ := Nat.exists_eq_succ_of_ne_zero (show 4096 - n ≠ 0 by omega)
      rw [hk, List.take_succ_cons, List.mem_cons, not_or] at hl
      rw [if_neg (Ne.symm hl.1), ih (by rw [show 4096 - (n + 1) = k by omega]; exact hl.2)
        (by omega), List.length_cons]
      congr 2
      omega

/-- The text of the buffer at a line, as far as `snprintf` takes it. -/
theorem take_takeWhile (l r : List UInt8) :
    ((l ++ r).takeWhile (· != 0)).take l.length = l.takeWhile (· != 0) := by
  rw [List.takeWhile_append]
  split_ifs with hall
  · rw [(List.takeWhile_prefix _).eq_of_length hall, List.take_left]
  · exact List.take_of_length_le (List.takeWhile_prefix _).length_le

/-- A text in front of a zero byte is shorter than the array. -/
theorem length_takeWhile_lt (h : 0 ∈ l) : (l.takeWhile (· != 0)).length < l.length := by
  refine lt_of_le_of_ne (List.takeWhile_prefix _).length_le fun heq => ?_
  have hself := (List.takeWhile_prefix (· != 0)).eq_of_length heq
  exact not_mem_takeWhile l 0 (by rwa [hself])

/-- A byte of a text at the start of an array. -/
theorem getElem?_of_take {a u : List UInt8} {n i : ℕ} (htake : a.take n = u) (hi : i < n) :
    a[i]? = u[i]? := by
  rw [← htake, List.getElem?_take_of_lt hi]

/-- A line that a new line ends is copied into `line`, if it is not empty. -/
theorem readLine_line (hdata : data.length < maxPlxSize) (hdrop : data.drop p = l ++ 10 :: rest)
    (hl : 10 ∉ l) (hlen : l.length < 4096) {line : List UInt8} (hline : line.length = 4096) :
    (l = [] → readLine data p line = none) ∧
    (l ≠ [] → ∃ line', readLine data p line = some (l.length, line') ∧ line'.length = 4096 ∧
      cstr line' = some (lineText l)) := by
  obtain ⟨line₁, h₁⟩ : ∃ b, put 0 [0] line = some b := exists_put (by simp [hline])
  have hlen₁ : line₁.length = 4096 := (length_put h₁).trans hline
  have htext : bufferText data p = some ((l ++ 10 :: rest).takeWhile (· != 0)) := by
    rw [bufferText, if_pos (.inl hdata), hdrop]
  have hscan : scanLine (l ++ 10 :: rest) 0 = (l.length, true) := by
    rw [scanLine_line hl hlen 0 (by omega), Nat.zero_add]
  have ht : 0 ∉ l.takeWhile (· != 0) := not_mem_takeWhile l 0
  have hle : (l.takeWhile (· != 0)).length ≤ l.length := (List.takeWhile_prefix _).length_le
  obtain ⟨line₂, h₂⟩ : ∃ b, put 0 (l.takeWhile (· != 0) ++ [0]) line₁ = some b :=
    exists_put (by rw [List.length_append, List.length_singleton]; omega)
  have htake := take_put_text h₂
  have hlen₂ : line₂.length = 4096 := (length_put h₂).trans hlen₁
  rw [readLine, h₁, Option.bind_some, hdrop, hscan]
  simp only [htext, Option.bind_some, take_takeWhile, h₂]
  constructor
  · rintro rfl
    exact if_pos rfl
  · intro hne
    have hpos := List.length_pos_of_ne_nil hne
    rw [if_neg (Nat.ne_of_gt hpos)]
    obtain ⟨last, hlast⟩ : ∃ b, line₂[l.length - 1]? = some b :=
      ⟨_, List.getElem?_eq_getElem (by omega)⟩
    rw [hlast, Option.bind_some]
    -- without a zero byte all of the line is copied
    have hself : 0 ∉ l → l.takeWhile (· != 0) = l := takeWhile_of_not_mem
    have hlast' : 0 ∉ l → line₂[l.length - 1]? = l.getLast? := fun hzero => by
      rw [hself hzero] at htake
      rw [getElem?_of_take htake (by omega), List.getElem?_append_left (by omega),
        List.getLast?_eq_getElem?]
    by_cases hreturn : last = 13
    · rw [if_pos hreturn]
      subst hreturn
      obtain ⟨line₃, h₃⟩ : ∃ b, put (l.length - 1) [0] line₂ = some b :=
        exists_put (by rw [List.length_singleton]; omega)
      refine ⟨line₃, by rw [h₃]; rfl, (length_put h₃).trans hlen₂, ?_⟩
      have htake₃ := take_put h₃
      rw [List.length_singleton, Nat.sub_add_cancel hpos] at htake₃
      rw [lineText]
      by_cases hzero : 0 ∈ l
      · -- the text ends in front of the byte that is replaced
        rw [if_pos hzero]
        have hshort := length_takeWhile_lt hzero
        have hne : (l.takeWhile (· != 0)).length ≠ l.length - 1 := fun heq => by
          rw [← heq, getElem?_of_take htake (Nat.lt_succ_self _), List.getElem?_concat_length] at hlast
          cases hlast
        refine cstr_take ht ?_
        rw [← Nat.min_eq_left (show (l.takeWhile (· != 0)).length + 1 ≤ l.length from hshort),
          ← List.take_take, htake₃, List.take_append_of_le_length (by
            rw [List.length_take_of_le (by omega)]
            omega), List.take_take, Nat.min_eq_left (by omega), htake]
      · rw [if_neg hzero, if_pos ((hlast' hzero).symm.trans hlast)]
        refine cstr_take (fun hmem => hzero (List.dropLast_subset l hmem)) ?_
        rw [List.length_dropLast, Nat.sub_add_cancel hpos, htake₃, List.dropLast_eq_take]
        rw [hself hzero] at htake
        have htake' := congrArg (List.take (l.length - 1)) htake
        rw [List.take_take, Nat.min_eq_left (by omega),
          List.take_append_of_le_length (by omega)] at htake'
        rw [htake']
    · rw [if_neg hreturn]
      refine ⟨line₂, rfl, hlen₂, ?_⟩
      rw [lineText]
      by_cases hzero : 0 ∈ l
      · rw [if_pos hzero]
        exact cstr_take ht htake
      · rw [hself hzero] at htake ht
        rw [if_neg hzero, if_neg fun h => hreturn ?_]
        · exact cstr_take ht htake
        · exact Option.some.inj (hlast.symm.trans ((hlast' hzero).trans h))

/-- The text of a line has no other bytes than the line. -/
theorem not_mem_lineText {b : UInt8} (h : b ∉ l) : b ∉ lineText l := by
  unfold lineText
  split_ifs
  · exact fun hmem => h ((List.takeWhile_prefix _).subset hmem)
  · exact fun hmem => h (List.dropLast_subset l hmem)
  · exact h

/-- The text of a line has no zero byte. -/
theorem zero_not_mem_lineText (l : Text) : 0 ∉ lineText l := by
  unfold lineText
  split_ifs with hzero
  · exact not_mem_takeWhile l 0
  · exact fun hmem => hzero (List.dropLast_subset l hmem)
  · exact hzero

/-- The two parts of a text are stored, if they are there and there is room for them. -/
theorem sscanfPair_spec {attr value : List UInt8} (hattr : attr.length = 1024)
    (hvalue : value.length = 1024) (hzero : 0 ∉ t) (hline : 10 ∉ t) :
    (attrPart t = [] → sscanfPair t attr value = some (0, attr, value)) ∧
    (attrPart t ≠ [] → ¬(attrPart t).length < 1024 → sscanfPair t attr value = none) ∧
    (attrPart t ≠ [] → (attrPart t).length < 1024 → ∃ attr', attr'.length = 1024 ∧
      cstr attr' = some (attrPart t) ∧
      (valuePart t = [] → sscanfPair t attr value = some (1, attr', value)) ∧
      (valuePart t ≠ [] → ¬(valuePart t).length < 1024 → sscanfPair t attr value = none) ∧
      (valuePart t ≠ [] → (valuePart t).length < 1024 → ∃ value', value'.length = 1024 ∧
        cstr value' = some (valuePart t) ∧ sscanfPair t attr value = some (2, attr', value'))) := by
  have ha : t.takeWhile (· != 61) = attrPart t := rfl
  have hv : (t.drop ((attrPart t).length + 1)).takeWhile (· != 10) = valuePart t :=
    takeWhile_of_not_mem fun h => hline (List.mem_of_mem_drop h)
  -- A text and its zero byte fit an array of 1024 bytes, or overrun it.
  have hstore : ∀ (u a : List UInt8), a.length = 1024 →
      (put 0 (u ++ [0]) a = none ↔ ¬u.length < 1024) := fun u a hlen => by
    unfold put
    rw [List.length_append, List.length_singleton, hlen]
    split_ifs with h
    · exact ⟨nofun, fun h' => absurd (by omega) h'⟩
    · exact ⟨fun _ => by omega, fun _ => rfl⟩
  unfold sscanfPair
  simp only [ha, hv]
  refine ⟨fun h => if_pos h, fun h hlong => ?_, fun h hshort => ?_⟩
  · rw [if_neg h, (hstore _ _ hattr).mpr hlong]
    rfl
  · rw [if_neg h]
    obtain ⟨attr', hput⟩ := Option.ne_none_iff_exists'.mp
      (mt (hstore (attrPart t) attr hattr).mp (not_not.mpr hshort))
    refine ⟨attr', (length_put hput).trans hattr, cstr_take
      (fun hmem => hzero ((List.takeWhile_prefix _).subset hmem)) (take_put_text hput), ?_⟩
    rw [hput, Option.bind_some]
    refine ⟨fun h => if_pos h, fun h hlong => ?_, fun h hshort => ?_⟩
    · rw [if_neg h, (hstore _ _ hvalue).mpr hlong]
      rfl
    · rw [if_neg h]
      obtain ⟨value', hput⟩ := Option.ne_none_iff_exists'.mp
        (mt (hstore (valuePart t) value hvalue).mp (not_not.mpr hshort))
      exact ⟨value', (length_put hput).trans hvalue, cstr_take
        (fun hmem => hzero (List.mem_of_mem_drop hmem)) (take_put_text hput), by rw [hput]; rfl⟩

/-! ## The loop and the lines -/

/-- The variables have the arrays in their sizes, room for one entry if there is memory for it, and
what the lines have led to. -/
structure Rep (alloc : ℕ → Bool) (s : Plx) (c : Collected) : Prop where
  line : s.line.length = 4096
  attr : s.attr.length = 1024
  value : s.value.length = 1024
  plxFile : s.plxFile = c.plxFile
  list : s.list = c.list
  newEntry : s.newEntry = c.newEntry
  room : s.list.length < s.room ↔ alloc (s.list.length + 1) = true

/-- The variables follow the lines. -/
inductive Follows (alloc : ℕ → Bool) : Option (Option Plx) → Option (Option Collected) → Prop
  | out : Follows alloc none none
  | failed : Follows alloc (some none) (some none)
  | more {s : Plx} {c : Collected} : Rep alloc s c → Follows alloc (some (some s)) (some (some c))

/-- The arrays stand for the first state. -/
theorem Rep.start (alloc : ℕ → Bool) (stack : Arrays) :
    Rep alloc (.start alloc stack) .start where
  line := stack.line_length
  attr := stack.attr_length
  value := stack.value_length
  plxFile := rfl
  list := rfl
  newEntry := rfl
  room := by
    show 0 < (if alloc 1 then 1 else 0) ↔ alloc 1 = true
    split_ifs with h
    · exact ⟨fun _ => h, fun _ => Nat.one_pos⟩
    · exact ⟨fun h' => absurd h' (Nat.lt_irrefl 0), fun h' => absurd h' h⟩

/-- Nothing is added to the list. -/
theorem Rep.follows {d : Collected} (h : Rep alloc s d) (hlist : d.list = c.list) :
    Follows alloc (some (some s)) (c.grow alloc d) := by
  rw [Collected.grow, if_pos (by rw [hlist])]
  exact .more h

/-- The assignment follows the model of it. -/
theorem assign_follows (h : Rep alloc s c) (attr value : Text) :
    Follows alloc (assign alloc attr value s) (c.grow alloc (c.assign attr value)) := by
  unfold assign Collected.assign
  rcases attrOf attr with _ | a
  · exact h.follows rfl
  rcases a with _ | _ | _ | _ | _ | _ | _ | _
  -- the type of a new entry adds the entry before it, and makes room for one more
  case type =>
    simp only [addEntry, h.newEntry]
    by_cases hcomplete : c.newEntry.complete = true
    swap
    · have hadded : c.added = c.list := if_neg hcomplete
      simp only [hcomplete, hadded]
      exact Rep.follows ⟨h.line, h.attr, h.value, h.plxFile, h.list, rfl, h.room⟩ rfl
    have hadded : c.added = c.list ++ [c.newEntry] := if_pos hcomplete
    have hlen : (c.list ++ [c.newEntry]).length = c.list.length + 1 := List.length_append
    have hroom := h.room
    simp only [hcomplete, if_true, true_and, h.list, hadded] at hroom ⊢
    rw [Collected.grow, hlen, if_neg (Nat.succ_ne_self _)]
    by_cases hlt : c.list.length < s.room
    swap
    · rw [if_neg hlt, if_pos (Bool.eq_false_iff.mpr (mt hroom.mpr hlt))]
      exact .out
    have halloc : ¬alloc (c.list.length + 1) = false := by
      rw [hroom.mp hlt]
      exact Bool.noConfusion
    rw [if_pos hlt, if_neg halloc, Option.map_some]
    simp only [hlen]
    by_cases hmore : alloc (c.list.length + 1 + 1) = false
    · rw [if_pos hmore, if_pos hmore]
      exact .failed
    · rw [if_neg hmore, if_neg hmore]
      refine .more ⟨h.line, h.attr, h.value, h.plxFile, rfl, rfl, ?_⟩
      rw [hlen]
      exact ⟨fun _ => by simpa using hmore, fun _ => Nat.lt_succ_self _⟩
  all_goals
    exact Rep.follows ⟨h.line, h.attr, h.value, by first | exact h.plxFile | rfl, h.list,
      by first | exact h.newEntry | rw [h.newEntry], h.room⟩ rfl

/-- The lines, from the end of the first one on. -/
theorem lines_cons (hl : 10 ∉ l) (rest : List UInt8) :
    lines (l ++ 10 :: rest) = if l.length < 4096 then l :: lines rest else [] := by
  rw [lines, List.splitOn_append_cons_self_of_not_mem hl,
    List.dropLast_cons_of_ne_nil (List.splitOn_ne_nil 10 rest), List.takeWhile_cons]
  simp only [decide_eq_true_eq]
  rfl

/-- A last line without a line feed is not read. -/
theorem lines_last (hl : 10 ∉ l) : lines l = [] := by
  rw [lines, List.splitOn_eq_singleton hl]
  rfl

/-- One line. -/
theorem plxStep_line (hdata : data.length < maxPlxSize) (hdrop : data.drop p = l ++ 10 :: rest)
    (hl : 10 ∉ l) (hlen : l.length < 4096) (h : Rep alloc s c) :
    ∃ r, Follows alloc r (c.step alloc l) ∧ plxStep alloc data p s = r.map fun
      | none => .failed
      | some s => .next (p + l.length + 1) s := by
  obtain ⟨hempty, hline⟩ := readLine_line hdata hdrop hl hlen h.line
  unfold plxStep Collected.step
  by_cases hne : l = []
  · rw [hempty hne, if_neg fun hfits => hfits.1 hne]
    exact ⟨none, .out, rfl⟩
  obtain ⟨line, hread, hlength, htext⟩ := hline hne
  -- The line ends with a newline, so the loop goes on behind it.
  have hroom : p + l.length < data.length := by
    have hlen := congrArg List.length hdrop
    rw [List.length_drop, List.length_append, List.length_cons] at hlen
    omega
  have hrep : Rep alloc { s with line } c :=
    ⟨hlength, h.attr, h.value, h.plxFile, h.list, h.newEntry, h.room⟩
  rw [hread, Option.bind_some]
  simp only
  have hgo : ¬(l.length = 4096 ∨ data.length < p + l.length) := by omega
  rw [if_neg hgo]
  by_cases hshort : l.length ≤ 2
  · -- too short for an attribute
    rw [if_pos hshort, if_pos ⟨hne, fun h => absurd hshort (Nat.not_le.mpr h)⟩, Collected.feed,
      if_pos (.inl hshort)]
    exact ⟨_, hrep.follows rfl, rfl⟩
  rw [if_neg hshort, htext, Option.bind_some]
  -- The two arrays of `sscanf` take the line if attribute and value are short enough.
  have hfits : FitsLine l ↔ (attrPart (lineText l)).length < 1024 ∧
      (attrPart (lineText l) ≠ [] → (valuePart (lineText l)).length < 1024) :=
    ⟨fun hf => hf.2 (Nat.not_le.mp hshort), fun hf => ⟨hne, fun _ => hf⟩⟩
  obtain ⟨h0, hlong, hpair⟩ := sscanfPair_spec h.attr h.value (zero_not_mem_lineText l)
    (not_mem_lineText hl)
  by_cases hattr : attrPart (lineText l) = []
  · rw [h0 hattr, if_pos (hfits.mpr ⟨by rw [hattr]; decide, fun h => absurd hattr h⟩),
      Collected.feed, if_pos (.inr (.inl hattr))]
    exact ⟨_, hrep.follows rfl, rfl⟩
  by_cases hattrlen : (attrPart (lineText l)).length < 1024
  swap
  · rw [hlong hattr hattrlen, if_neg fun hf => hattrlen (hfits.mp hf).1]
    exact ⟨none, .out, rfl⟩
  obtain ⟨attr, hattr', hattrtext, h1, hlong, hpair⟩ := hpair hattr hattrlen
  -- an attribute without a value is scanned, and fed to nobody
  by_cases hvalue : valuePart (lineText l) = []
  · rw [h1 hvalue, if_pos (hfits.mpr ⟨hattrlen, fun _ => by rw [hvalue]; decide⟩),
      Collected.feed, if_pos (.inr (.inr hvalue))]
    exact ⟨_, Rep.follows (s := { s with line, attr })
      ⟨hlength, hattr', h.value, h.plxFile, h.list, h.newEntry, h.room⟩ rfl, rfl⟩
  by_cases hvaluelen : (valuePart (lineText l)).length < 1024
  swap
  · rw [hlong hvalue hvaluelen, if_neg fun hf => hvaluelen ((hfits.mp hf).2 hattr)]
    exact ⟨none, .out, rfl⟩
  obtain ⟨value, hvalue', hvaluetext, hpair⟩ := hpair hvalue hvaluelen
  rw [hpair, if_pos (hfits.mpr ⟨hattrlen, fun _ => hvaluelen⟩), Collected.feed,
    if_neg (by simp [hattr, hvalue, hshort]), Option.bind_some]
  simp only [if_true, hattrtext, hvaluetext, Option.bind_some]
  -- both have been scanned: the entry takes the value
  exact ⟨_, assign_follows (s := { s with line, attr, value })
    ⟨hlength, hattr', hvalue', h.plxFile, h.list, h.newEntry, h.room⟩ _ _, rfl⟩

/-- The rest of the file is no line: it is too long, or nothing ends it. -/
theorem plxStep_last (hdata : p < data.length) (hl : 10 ∉ (data.drop p).take 4096)
    (h : Rep alloc s c) :
    ∃ s', Rep alloc s' c ∧ (plxStep alloc data p s = some (.stop s') ∨
      ∃ q, data.length < q ∧ plxStep alloc data p s = some (.next q s')) := by
  obtain ⟨line, hput⟩ : ∃ b, put 0 [0] s.line = some b := exists_put (by simp [h.line])
  have hlength : line.length = 4096 := (length_put hput).trans h.line
  have hscan := scanLine_none (n := 0) hl (Nat.zero_le _)
  have htext : cstr line = some [] := cstr_take List.not_mem_nil (take_put_text (t := []) hput)
  have hread : readLine data p s.line = some (min 4096 (data.length - p), line) := by
    rw [readLine, hput, Option.bind_some, hscan, Nat.zero_add, List.length_drop]
  have hrep : Rep alloc { s with line } c :=
    ⟨hlength, h.attr, h.value, h.plxFile, h.list, h.newEntry, h.room⟩
  refine ⟨_, hrep, ?_⟩
  unfold plxStep
  rw [hread, Option.bind_some]
  simp only
  by_cases hlong : 4096 ≤ data.length - p
  · rw [Nat.min_eq_left hlong, if_pos (.inl rfl)]
    exact .inl rfl
  rw [Nat.min_eq_right (by omega), if_neg (by omega)]
  refine .inr ⟨p + (data.length - p) + 1, by omega, ?_⟩
  by_cases hshort : data.length - p ≤ 2
  · rw [if_pos hshort]
  · rw [if_neg hshort, htext]
    rfl

/-- The loop follows the lines. -/
theorem plxLoop_follows (hdata : data.length < maxPlxSize) (h : Rep alloc s c) {n : ℕ}
    (hn : data.length ≤ p + n) :
    Follows alloc (plxLoop alloc data n p s) (runLines alloc c (lines (data.drop p))) := by
  induction n generalizing p s c with
  | zero =>
      rw [Nat.add_zero] at hn
      rw [plxLoop, if_pos hn, List.drop_of_length_le hn]
      exact .more h
  | succ n ih =>
      rw [plxLoop]
      by_cases hend : data.length ≤ p
      · rw [if_pos hend, List.drop_of_length_le hend]
        exact .more h
      rw [if_neg hend]
      -- the loop is left, or it goes on behind the end
      have hlast : 10 ∉ (data.drop p).take 4096 → Follows alloc
          ((plxStep alloc data p s).bind fun
            | .stop s => some (some s)
            | .next lineptr s => plxLoop alloc data n lineptr s
            | .failed => some none) (runLines alloc c []) := by
        intro hmem
        obtain ⟨s', hrep, hstep | ⟨q, hq, hstep⟩⟩ := plxStep_last (Nat.not_le.mp hend) hmem h
        · rw [hstep]
          exact .more hrep
        · rw [hstep, Option.bind_some]
          have hloop := ih hrep (p := q) (by omega)
          rwa [List.drop_of_length_le hq.le] at hloop
      by_cases hmem : 10 ∈ data.drop p
      · obtain ⟨l, rest, hdrop, hl⟩ := List.eq_append_cons_of_mem hmem
        rw [hdrop, lines_cons hl]
        by_cases hlen : l.length < 4096
        · obtain ⟨r, hr, hstep⟩ := plxStep_line hdata hdrop hl hlen h
          have hnext : data.drop (p + l.length + 1) = rest := by
            rw [Nat.add_assoc, ← List.drop_drop, hdrop, List.append_cons]
            exact List.drop_left' List.length_append
          rw [if_pos hlen, runLines, hstep]
          generalize c.step alloc l = d at hr
          rcases hr with _ | _ | hr
          · exact .out
          · exact .failed
          · rw [Option.bind_some, ← hnext]
            exact ih hr (by omega)
        · rw [if_neg hlen]
          refine hlast fun hmem => hl ?_
          rw [hdrop, List.take_append_of_le_length (Nat.not_lt.mp hlen)] at hmem
          exact List.mem_of_mem_take hmem
      · rw [lines_last hmem]
        exact hlast fun hmem' => hmem (List.mem_of_mem_take hmem')

/-! ## The function and the lines -/

/-- There is always a zero behind what has been loaded. -/
theorem length_loadPlx (http : Bool) (content : List UInt8) :
    (loadPlx http content).length < maxPlxSize := by
  unfold loadPlx
  split_ifs with hhttp hlen
  · rw [List.length_take]
    exact (Nat.min_le_left _ _).trans_lt (Nat.sub_lt (by decide) Nat.one_pos)
  · exact hlen
  · decide

/-- What the function makes of the list in the end. -/
def Collected.result (c : Collected) (search : Bool) : PlxResult :=
  if c.added = [] then .code (if c.plxFile && search then -5 else -2) else .entries c.added

/-- The function by the lines alone. -/
theorem parsePLXPlaylist_eq (alloc : ℕ → Bool) (stack : Arrays) (search http : Bool)
    (content : List UInt8) :
    parsePLXPlaylist alloc stack search http content =
      if loadPlx http content = [] then some (.code (if search then -4 else 0))
      else (runLines alloc .start (lines (loadPlx http content))).bind fun
        | none => some (.code (-1))
        | some c =>
            if c.newEntry.complete ∧ alloc (c.list.length + 1) = false then none
            else some (c.result search) := by
  have hfollows := plxLoop_follows (length_loadPlx http content) (.start alloc stack) (p := 0)
    (n := (loadPlx http content).length) (by omega)
  rw [List.drop_zero] at hfollows
  unfold parsePLXPlaylist
  simp only
  by_cases hempty : loadPlx http content = []
  · rw [if_pos hempty, if_pos hempty]
  rw [if_neg hempty, if_neg hempty]
  generalize runLines alloc .start (lines (loadPlx http content)) = r at hfollows
  generalize plxLoop alloc (loadPlx http content) _ 0 (.start alloc stack) = q at hfollows
  -- The loop ends outside the buffers, fails, or has collected `c`.
  rcases hfollows with _ | _ | @⟨s, c, h⟩
  · rfl
  · rfl
  simp only [Option.bind_some]
  have hroom := h.room
  rw [h.list] at hroom
  rw [addEntry, h.newEntry, h.list]
  -- behind the loop the entry under construction is added, if it is complete
  by_cases hcomplete : c.newEntry.complete = true
  · have hadded : c.added = c.list ++ [c.newEntry] := if_pos hcomplete
    rw [if_pos hcomplete]
    by_cases halloc : alloc (c.list.length + 1) = false
    · have hlt : ¬c.list.length < s.room := fun hlt => by
        rw [hroom.mp hlt] at halloc
        cases halloc
      rw [if_neg hlt, if_pos ⟨hcomplete, halloc⟩]
      rfl
    · have hlt : c.list.length < s.room := hroom.mpr (by simpa using halloc)
      rw [if_pos hlt, if_neg fun h' => halloc h'.2, Collected.result, hadded, ← h.plxFile]
      rfl
  · have hadded : c.added = c.list := if_neg hcomplete
    rw [if_neg hcomplete, if_neg fun h' => hcomplete h'.1, Collected.result, hadded, ← h.plxFile,
      ← h.list]
    rfl

end WiiMC.Online
