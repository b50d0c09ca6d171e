import WiiMC.Language.Escape
import Mathlib.Data.List.Induction
import Mathlib.Data.List.Nodup

/-!
# Translations are read and looked up

`LoadLanguage` and `gettext` of `source/utils/gettext.cpp`. A language file is read line by line;
what it says about an id is kept under the hash of the id alone.

* `hashString`, `Msg`, `findMsg`, `setMsg`: the list of messages.
* `loadLanguage`: the function, which fails where a line does not fit its buffer.
* `Line`, `translations`, `translation`: a file as it is written, and what it says.
* `lastRecorded`: the entry that answers for an id.
* `loadLanguage_text`: the list after a file is read.
* `gettext_iff`: an id comes back as its own translation exactly where it is `Answered`.
-/

namespace WiiMC.Language

open Bytes

/-! ## The messages -/

/-- `hash_string`. -/
def hashString (str : List UInt8) : UInt32 :=
  str.foldl (fun hval b =>
    let hval := hval <<< 4 + b.toUInt32
    let g := hval &&& 0xF0000000
    if g ≠ 0 then hval ^^^ (g >>> 24) ^^^ g else hval) 0

/-- `MSG`. The list `baseMSG` is a list of these. -/
structure Msg where
  id : UInt32
  msgstr : Option (List UInt8)
  deriving DecidableEq

/-- `findMSG`. -/
def findMsg (id : UInt32) (base : List Msg) : Option Msg := base.find? fun m => m.id = id

/-- The first message with the hash `id` gets another text. -/
def replaceMsg (id : UInt32) (text : List UInt8) : List Msg → List Msg
  | [] => []
  | m :: base =>
      if m.id = id then { m with msgstr := some text } :: base
      else m :: replaceMsg id text base

/-- `setMSG`. A message with a hash that is not there yet is put in front. -/
def setMsg (msgid msgstr : List UInt8) (base : List Msg) : List Msg :=
  let id := hashString msgid
  let base := if (findMsg id base).isSome then base else ⟨id, none⟩ :: base
  replaceMsg id (expandEscape msgstr) base

/-- `gettext`. -/
def gettext (msgid : List UInt8) (base : List Msg) : List UInt8 :=
  match findMsg (hashString msgid) base with
  | some ⟨_, some text⟩ => text
  | _ => msgid

/-! ## The file -/

/-- What stands in front of the last `c`: `strrchr`, with the end of the string put there. -/
def beforeLast (c : UInt8) (s : List UInt8) : Option (List UInt8) :=
  (splitAt? c s.reverse).map fun p => p.2.reverse

/-- `memfgets`: the line, and what is behind its end. `strchr` stops at a NUL. -/
def memfgets (src : List UInt8) : Option (List UInt8 × List UInt8) :=
  (splitAt? 10 src).filter fun p => 0 ∉ p.1

/-- The messages so far, and the id that waits for its text. -/
structure Loading where
  base : List Msg
  lastID : Option (List UInt8)

/-- What `LoadLanguage` does with one line. -/
def loadLine (line : List UInt8) (s : Loading) : Loading :=
  if line.head? = some 35 then s
  else if (ascii "msgid \"").isPrefixOf line then
    match beforeLast 34 (line.drop 7) with
    | some id => { s with lastID := if id.length > 1 then some id else none }
    | none => { s with lastID := none }
  else if (ascii "msgstr \"").isPrefixOf line then
    match s.lastID with
    | none => s
    | some id =>
        match beforeLast 34 (line.drop 8) with
        | some str => ⟨if str.length > 1 then setMsg id str s.base else s.base, none⟩
        | none => { s with lastID := none }
  else s

/-- The loop of `LoadLanguage`. The array `line` has 350 bytes. -/
def loadLines : ℕ → List UInt8 → Loading → Option Loading
  | 0, _, s => some s
  | n + 1, src, s =>
      if src = [] then some s
      else
        match memfgets src with
        | none => some s
        | some (line, rest) =>
            if line.length < 350 then loadLines n rest (loadLine line s) else none

/-- `LoadLanguage`, on the file of the language that is set, if there is one. -/
def loadLanguage (file : Option (List UInt8)) (base : List Msg) : Option (Bool × List Msg) :=
  match file with
  | none => some (false, base)
  | some src => (loadLines src.length src ⟨[], none⟩).map fun s => (true, s.base)

/-! ## What is written in a file -/

/-- A line of a language file. Behind the closing quote there may be blanks or a carriage
return. -/
inductive Line
  | comment (s : List UInt8)
  | msgid (id trail : List UInt8)
  | msgstr (str trail : List UInt8)
  | blank

/-- The line as it is written. -/
def Line.text : Line → List UInt8
  | .comment s => 35 :: s
  | .msgid id trail => ascii "msgid \"" ++ (id ++ 34 :: trail)
  | .msgstr str trail => ascii "msgstr \"" ++ (str ++ 34 :: trail)
  | .blank => []

/-- What stands behind the quote that closes a line. -/
def Line.trail : Line → List UInt8
  | .msgid _ trail => trail
  | .msgstr _ trail => trail
  | _ => []

/-- The line is one line, fits the buffer, and has no quote behind the one that closes it. -/
structure Line.Ok (l : Line) : Prop where
  oneLine : 10 ∉ l.text
  noNul : 0 ∉ l.text
  fits : l.text.length < 350
  closed : 34 ∉ l.trail

/-- Whether a line is proper is decided by its bytes. -/
instance (l : Line) : Decidable l.Ok :=
  decidable_of_iff (10 ∉ l.text ∧ 0 ∉ l.text ∧ l.text.length < 350 ∧ 34 ∉ l.trail)
    ⟨fun h => ⟨h.1, h.2.1, h.2.2.1, h.2.2.2⟩, fun h => ⟨h.oneLine, h.noNul, h.fits, h.closed⟩⟩

/-- The id that a line begins with. -/
def Line.id? : Line → Option (List UInt8)
  | .msgid id _ => some id
  | _ => none

/-- A file of these lines. -/
def fileText (ls : List Line) : List UInt8 := ls.flatMap fun l => l.text ++ [10]

/-- The ids and their own texts, in the order of the file: a text belongs to the id above it. -/
def translations : Option (List UInt8) → List Line → List (List UInt8 × List UInt8)
  | _, [] => []
  | last, .comment _ :: ls => translations last ls
  | last, .blank :: ls => translations last ls
  | _, .msgid id _ :: ls => translations (some id) ls
  | none, .msgstr _ _ :: ls => translations none ls
  | some id, .msgstr str _ :: ls => (id, str) :: translations none ls

/-- What an id means: its own text, where it has one, and else the id itself. -/
def translation (ls : List Line) (msgid : List UInt8) : List UInt8 :=
  match (translations none ls).find? fun e => e.1 = msgid with
  | some (_, str) => if str = [] then msgid else unescape str
  | none => msgid

/-- The entries that `LoadLanguage` keeps. -/
def Recorded (e : List UInt8 × List UInt8) : Prop := e.1.length > 1 ∧ e.2.length > 1

/-- Whether a translation is recorded is decided by its lengths. -/
instance (e : List UInt8 × List UInt8) : Decidable (Recorded e) :=
  inferInstanceAs (Decidable (_ ∧ _))

/-- The last entry that is kept under the hash of an id. -/
def lastRecorded (ls : List Line) (msgid : List UInt8) : Option (List UInt8 × List UInt8) :=
  ((translations none ls).filter fun e => Recorded e).reverse.find? fun e =>
    hashString e.1 = hashString msgid

/-- An id is answered with its own translation: it is not hidden behind another id with the same
hash, its text is not too short to be kept, and nothing of it is lost. Or, by chance, what comes
back in its place is the same. -/
def Answered (ls : List Line) (msgid : List UInt8) : Prop :=
  match lastRecorded ls msgid with
  | none => translation ls msgid = msgid
  | some (id, str) =>
      if id = msgid then ∀ t ∈ lex str, ¬t.Lost else surviving str = translation ls msgid

/-! ## The list of messages -/

/-- A replaced text is found, and the other ones are as they were. -/
theorem findMsg_replaceMsg {id : UInt32} {base : List Msg} (text : List UInt8)
    (h : (findMsg id base).isSome) (other : UInt32) :
    findMsg other (replaceMsg id text base) =
      if other = id then some ⟨id, some text⟩ else findMsg other base := by
  induction base with
  | nil => exact absurd h Bool.false_ne_true
  | cons m base ih =>
    rw [replaceMsg]
    by_cases hm : m.id = id
    · rw [if_pos hm]
      by_cases ho : other = id
      · simp [findMsg, hm, ho]
      · have hne : m.id ≠ other := fun heq => ho (heq.symm.trans hm)
        simp [findMsg, hne, ho]
    · have hrest : (findMsg id base).isSome := by
        simpa [findMsg, hm] using h
      rw [if_neg hm]
      by_cases ho : m.id = other
      · have hne : other ≠ id := fun heq => hm (ho.trans heq)
        simp [findMsg, ho, hne]
      · have hskip (l : List Msg) : findMsg other (m :: l) = findMsg other l := by
          simp [findMsg, ho]
        rw [hskip, hskip, ih hrest]

/-- After `setMSG` the hash of its id has the text, and every other one what it had. -/
theorem findMsg_setMsg (msgid msgstr : List UInt8) (base : List Msg) (id : UInt32) :
    findMsg id (setMsg msgid msgstr base) =
      if id = hashString msgid then some ⟨hashString msgid, some (expandEscape msgstr)⟩
      else findMsg id base := by
  unfold setMsg
  by_cases hold : (findMsg (hashString msgid) base).isSome
  · simp only [if_pos hold]
    exact findMsg_replaceMsg _ hold id
  · simp only [if_neg hold]
    rw [findMsg_replaceMsg _ (by simp [findMsg])]
    by_cases hid : id = hashString msgid
    · rw [if_pos hid, if_pos hid]
    · rw [if_neg hid, if_neg hid, findMsg, List.find?_cons_of_neg (by simpa using Ne.symm hid)]
      rfl

/-- After several entries a hash has the text of the last one that it belongs to. -/
theorem findMsg_foldl (es : List (List UInt8 × List UInt8)) (base : List Msg) (id : UInt32) :
    findMsg id (es.foldl (fun b e => setMsg e.1 e.2 b) base) =
      match es.reverse.find? fun e => hashString e.1 = id with
      | some e => some ⟨id, some (expandEscape e.2)⟩
      | none => findMsg id base := by
  induction es using List.reverseRecOn with
  | nil => rfl
  | append_singleton es e ih =>
    rw [List.foldl_append, List.foldl_cons, List.foldl_nil, findMsg_setMsg, List.reverse_append,
      List.reverse_singleton, List.singleton_append]
    by_cases hid : hashString e.1 = id
    · rw [if_pos hid.symm, List.find?_cons_of_pos (by simpa using hid), hid]
    · rw [if_neg (Ne.symm hid), List.find?_cons_of_neg (by simpa using hid), ih]

/-! ## The lines -/

/-- What stands in front of the last `c` is known if none follows it. -/
theorem beforeLast_append {c : UInt8} (s : List UInt8) {t : List UInt8} (ht : c ∉ t) :
    beforeLast c (s ++ c :: t) = some s := by
  have hrev : (s ++ c :: t).reverse = t.reverse ++ c :: s.reverse := by simp
  rw [beforeLast, hrev, splitAt?_append (by simpa using ht), Option.map_some, List.reverse_reverse]

/-- A line is read up to its line feed. -/
theorem memfgets_line {l : Line} (hl : l.Ok) (rest : List UInt8) :
    memfgets (l.text ++ 10 :: rest) = some (l.text, rest) := by
  rw [memfgets, splitAt?_append hl.oneLine, Option.filter_some, if_pos (by simpa using hl.noNul)]

/-- A text begins with its first part. -/
theorem isPrefixOf_append (p t : List UInt8) : p.isPrefixOf (p ++ t) = true := by
  rw [List.isPrefixOf_iff_prefix]
  exact List.prefix_append p t

/-- A line with an id is remembered. -/
theorem loadLine_msgid {id trail : List UInt8} (hl : (Line.msgid id trail).Ok) (s : Loading) :
    loadLine (Line.msgid id trail).text s =
      { s with lastID := if id.length > 1 then some id else none } := by
  have hlast : beforeLast 34 ((Line.msgid id trail).text.drop 7) = some id :=
    beforeLast_append id hl.closed
  have hcomment : (Line.msgid id trail).text.head? ≠ some 35 := by
    show some (109 : UInt8) ≠ some 35
    decide
  rw [loadLine, if_neg hcomment, Line.text, if_pos (isPrefixOf_append _ _), ← Line.text, hlast]

/-- A line with a text stores it under the id. -/
theorem loadLine_msgstr {str trail : List UInt8} (hl : (Line.msgstr str trail).Ok) (s : Loading) :
    loadLine (Line.msgstr str trail).text s =
      match s.lastID with
      | none => s
      | some id => ⟨if str.length > 1 then setMsg id str s.base else s.base, none⟩ := by
  have hlast : beforeLast 34 ((Line.msgstr str trail).text.drop 8) = some str :=
    beforeLast_append str hl.closed
  have hcomment : (Line.msgstr str trail).text.head? ≠ some 35 := by
    show some (109 : UInt8) ≠ some 35
    decide
  have hid : ¬(ascii "msgid \"").isPrefixOf (Line.msgstr str trail).text = true := by
    show ¬List.isPrefixOf (109 :: 115 :: 103 :: 105 :: _) (109 :: 115 :: 103 :: 115 :: _) = true
    simp
  have hstr : (ascii "msgstr \"").isPrefixOf (Line.msgstr str trail).text = true :=
    isPrefixOf_append _ _
  rw [loadLine, if_neg hcomment, if_neg hid, if_pos hstr, hlast]

/-- The lines of a file are read one after the other. -/
theorem loadLines_text {ls : List Line} (hls : ∀ l ∈ ls, l.Ok) {n : ℕ}
    (hn : (fileText ls).length ≤ n) (s : Loading) :
    loadLines n (fileText ls) s = some (ls.foldl (fun s l => loadLine l.text s) s) := by
  induction ls generalizing n s with
  | nil => cases n <;> rfl
  | cons l ls ih =>
    obtain ⟨hl, hls⟩ := List.forall_mem_cons.mp hls
    have hsplit : fileText (l :: ls) = l.text ++ 10 :: fileText ls := by
      rw [fileText, List.flatMap_cons, List.append_assoc]
      rfl
    rw [hsplit] at hn ⊢
    rw [List.length_append, List.length_cons] at hn
    obtain ⟨n, rfl⟩ : ∃ m, n = m + 1 := ⟨n - 1, by omega⟩
    have hne : l.text ++ 10 :: fileText ls ≠ [] := by simp
    rw [loadLines, if_neg hne, memfgets_line hl]
    simp only [if_pos hl.fits]
    exact ih hls (by omega) _

/-- The messages after the lines are those of the entries that are kept. -/
theorem base_foldl {ls : List Line} (hls : ∀ l ∈ ls, l.Ok) {s : Loading}
    {last : Option (List UInt8)} (hlast : s.lastID = last.filter fun id => id.length > 1) :
    (ls.foldl (fun s l => loadLine l.text s) s).base =
      ((translations last ls).filter fun e => Recorded e).foldl
        (fun b e => setMsg e.1 e.2 b) s.base := by
  -- `lastID` is the id above, unless that is too short.
  induction ls generalizing s last with
  | nil => rfl
  | cons l ls ih =>
    obtain ⟨hl, hrest⟩ := List.forall_mem_cons.mp hls
    rw [List.foldl_cons]
    cases l with
    | comment t => exact ih hrest hlast
    | blank => exact ih hrest hlast
    | msgid id trail =>
      rw [loadLine_msgid hl, translations]
      refine ih hrest ?_
      by_cases hlong : id.length > 1 <;> simp [Option.filter, hlong]
    | msgstr str trail =>
      rw [loadLine_msgstr hl]
      cases last with
      | none =>
        rw [hlast, translations]
        exact ih hrest hlast
      | some id =>
        let next : Loading :=
          ⟨if id.length > 1 ∧ str.length > 1 then setMsg id str s.base else s.base, none⟩
        have hwaits : next.lastID = Option.filter (fun id => id.length > 1) none := rfl
        have hnext := ih hrest hwaits
        rw [translations, List.filter_cons]
        by_cases hid : id.length > 1
        · have hsome : s.lastID = some id := by simp [hlast, Option.filter, hid]
          rw [hsome]
          by_cases hstr : str.length > 1
          · simpa [next, Recorded, hid, hstr] using hnext
          · simpa [next, Recorded, hid, hstr] using hnext
        · have hnone : s.lastID = none := by simp [hlast, Option.filter, hid]
          rw [hnone]
          have hsame : s = ⟨s.base, none⟩ := by rw [← hnone]
          simpa [next, Recorded, hid, ← hsame] using hnext

/-- `LoadLanguage` reads every file of such lines, and then a hash has the text of the last entry
that is kept under it. -/
theorem loadLanguage_text {ls : List Line} (hls : ∀ l ∈ ls, l.Ok) (base : List Msg) :
    ∃ base', loadLanguage (some (fileText ls)) base = some (true, base') ∧
      ∀ msgid, findMsg (hashString msgid) base' =
        (lastRecorded ls msgid).map fun e => ⟨hashString msgid, some (expandEscape e.2)⟩ := by
  refine ⟨(ls.foldl (fun s l => loadLine l.text s) ⟨[], none⟩).base, ?_, ?_⟩
  · rw [loadLanguage, loadLines_text hls (Nat.le_refl _)]
    rfl
  · intro msgid
    have hwaits : (⟨[], none⟩ : Loading).lastID = Option.filter (fun id => id.length > 1) none := rfl
    rw [base_foldl hls hwaits, findMsg_foldl, lastRecorded]
    split <;> rename_i hfind <;> rw [hfind] <;> rfl

/-! ## The entries -/

/-- An id of an entry is the id of a line. -/
theorem fst_translations (ls : List Line) (last : Option (List UInt8)) :
    ((translations last ls).map Prod.fst).Sublist (last.toList ++ ls.filterMap Line.id?) := by
  induction ls generalizing last with
  | nil => exact List.nil_sublist _
  | cons l ls ih =>
    cases l with
    | comment t => exact ih last
    | blank => exact ih last
    | msgid id trail =>
      exact (ih (some id)).trans (List.sublist_append_right last.toList _)
    | msgstr str trail =>
      cases last with
      | none => exact ih none
      | some id => exact (ih none).cons_cons id

/-- A translation has no zero byte in it. -/
theorem snd_translations {ls : List Line} (hls : ∀ l ∈ ls, l.Ok) {last : Option (List UInt8)}
    {e : List UInt8 × List UInt8} (he : e ∈ translations last ls) : 0 ∉ e.2 := by
  induction ls generalizing last with
  | nil => exact absurd he List.not_mem_nil
  | cons l ls ih =>
    obtain ⟨hl, hrest⟩ := List.forall_mem_cons.mp hls
    cases l with
    | comment t => exact ih hrest he
    | blank => exact ih hrest he
    | msgid id trail => exact ih hrest he
    | msgstr str trail =>
      cases last with
      | none => exact ih hrest he
      | some id =>
        obtain rfl | he := List.mem_cons.mp he
        · intro hzero
          refine hl.noNul ?_
          rw [Line.text]
          exact List.mem_append_right _ (List.mem_append_left _ hzero)
        · exact ih hrest he

/-- Where the ids differ, an entry is what its id means. -/
theorem translation_of_mem {ls : List Line} (hids : (ls.filterMap Line.id?).Nodup)
    {id str : List UInt8} (he : (id, str) ∈ translations none ls) (hne : str ≠ []) :
    translation ls id = unescape str := by
  have hnodup : ((translations none ls).map Prod.fst).Nodup := (fst_translations ls none).nodup hids
  obtain ⟨⟨id', str'⟩, hfind⟩ : ∃ e, (translations none ls).find? (fun e => e.1 = id) = some e := by
    rw [← Option.isSome_iff_exists, List.find?_isSome]
    exact ⟨(id, str), he, decide_eq_true rfl⟩
  have hid : (id', str').1 = id := by simpa using List.find?_some hfind
  have hsame : (id', str') = (id, str) :=
    List.inj_on_of_nodup_map hnodup (List.mem_of_find?_eq_some hfind) he hid
  obtain ⟨-, rfl⟩ := Prod.mk.inj hsame
  rw [translation, hfind]
  exact if_neg hne

/-- After `LoadLanguage` an id comes back as what the file says about it if and only if it is
`Answered`. -/
theorem gettext_iff {ls : List Line} (hls : ∀ l ∈ ls, l.Ok)
    (hids : (ls.filterMap Line.id?).Nodup) (base : List Msg) :
    ∃ base', loadLanguage (some (fileText ls)) base = some (true, base') ∧
      ∀ msgid, gettext msgid base' = translation ls msgid ↔ Answered ls msgid := by
  obtain ⟨base', hload, hfind⟩ := loadLanguage_text hls base
  refine ⟨base', hload, fun msgid => ?_⟩
  rw [gettext, hfind, Answered]
  cases hlast : lastRecorded ls msgid with
  | none => exact ⟨Eq.symm, Eq.symm⟩
  | some e =>
    have hmem : e ∈ (translations none ls).filter fun e => Recorded e := by
      rw [← List.mem_reverse]
      exact List.mem_of_find?_eq_some hlast
    obtain ⟨he, hrec⟩ := List.mem_filter.mp hmem
    have hlong : e.2.length > 1 := (of_decide_eq_true hrec).2
    have hzero : 0 ∉ e.2 := snd_translations hls he
    show expandEscape e.2 = translation ls msgid ↔
      if e.1 = msgid then ∀ t ∈ lex e.2, ¬t.Lost else surviving e.2 = translation ls msgid
    by_cases hid : e.1 = msgid
    · subst hid
      rw [if_pos rfl, translation_of_mem hids he (List.ne_nil_of_length_pos (by omega))]
      exact expandEscape_eq_unescape_iff hzero
    · rw [if_neg hid, expandEscape_eq hzero]

/-! ## A file with a doubled backslash -/

/-- Two entries, and a path that is written as a C string. -/
def sampleFile : List Line :=
  [.comment (ascii " paths"), .msgid (ascii "Path") [], .msgstr (ascii "C:\\\\wiimc") [], .blank,
    .msgid (ascii "Music") [], .msgstr (ascii "M\\\"usica\\n") []]

theorem gettext_iff_sampleFile :
    ∃ base', loadLanguage (some (fileText sampleFile)) [] = some (true, base') ∧
      ∀ msgid, gettext msgid base' = translation sampleFile msgid ↔ Answered sampleFile msgid :=
  gettext_iff (by decide) (by decide) []

/-- The backslash of the path is lost. -/
theorem gettext_backslash :
    (∀ l ∈ sampleFile, l.Ok) ∧ (sampleFile.filterMap Line.id?).Nodup ∧
      translation sampleFile (ascii "Path") = ascii "C:\\wiimc" ∧
      (loadLanguage (some (fileText sampleFile)) []).map (fun r => gettext (ascii "Path") r.2) ≠
        some (translation sampleFile (ascii "Path")) := by
  refine ⟨by decide, by decide, by decide, ?_⟩
  decide +kernel

end WiiMC.Language
