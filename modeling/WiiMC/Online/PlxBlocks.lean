import WiiMC.Online.PlxBounds

/-!
# The entries of a PLX playlist

That `ParsePLXPlaylist` collects the entries for which a playlist stands.

* `TextLine`, `text`: a text of lines with their line ends, and what stands behind the last one.
* `stated`: the entries that all lines stand for, the one behind the last line end among them, with
  every value as it is given.
* `parsePLXPlaylist_blocks`: the entries that are collected are those of the lines that have ended,
  without what gives an empty value, and with names that fit.
* `parsePLXPlaylist_stated_ne`: each of these restrictions is needed.
-/

namespace WiiMC.Online

open Bytes Player

/-! ## A playlist -/

/-- A line that has ended, with a new line or with a carriage return and a new line. -/
structure TextLine where
  text : Text
  crlf : Bool

/-- What stands in front of the new line. -/
def TextLine.body (l : TextLine) : Text := l.text ++ if l.crlf then [13] else []

/-- A text of lines, with a rest that no new line ends. -/
def text (ls : List TextLine) (last : Text) : List UInt8 :=
  ls.flatMap (fun l => l.body ++ [10]) ++ last

/-- The line is read as it stands: it has no zero byte, leaves the arrays alone, and its line end is
told from its text. -/
structure TextLine.Plain (l : TextLine) : Prop where
  zero : 0 ∉ l.text
  newLine : 10 ∉ l.text
  carriageReturn : l.crlf = false → l.text.getLast? ≠ some 13
  nonempty : l.body ≠ []
  length : l.body.length < 4096
  attr : (attrPart l.text).length < 1024
  value : (valuePart l.text).length < 1024

/-- The entries that a playlist states: every line counts, and every value as it is. -/
def stated (ls : List TextLine) (last : Text) : List PlxEntry :=
  entries .words (given (ls.map TextLine.text ++ [last]))

/-- The names of an entry, cut to the size of their arrays. -/
def PlxEntry.shortened (e : PlxEntry) : PlxEntry :=
  { e with
    name := cut maxJoliet e.name
    thumb := cut maxJoliet e.thumb
    xml := cut maxJoliet e.xml
    tunein := cut maxJoliet e.tunein }

/-- The entries that the function has collected. -/
def PlxResult.collected : PlxResult → List PlxEntry
  | .code _ => []
  | .entries list => list

/-! ## The lines of a text -/

variable {alloc : ℕ → Bool} {c : Collected} {l : TextLine} {ls : List TextLine} {last : Text}
  {as fs : List Assignment}

theorem TextLine.Plain.newLine_body (h : l.Plain) : 10 ∉ l.body := by
  unfold TextLine.body
  rw [List.mem_append, not_or]
  refine ⟨h.newLine, ?_⟩
  split_ifs <;> decide

theorem TextLine.Plain.lineText_body (h : l.Plain) : lineText l.body = l.text := by
  have hzero : 0 ∉ l.body := by
    unfold TextLine.body
    rw [List.mem_append, not_or]
    refine ⟨h.zero, ?_⟩
    split_ifs <;> decide
  unfold lineText
  rw [if_neg hzero]
  unfold TextLine.body
  rcases hcrlf : l.crlf with _ | _
  · simp only [Bool.false_eq_true, if_false, List.append_nil]
    exact if_neg (h.carriageReturn hcrlf)
  · simp only [if_true]
    rw [if_pos List.getLast?_concat, List.dropLast_concat]

theorem TextLine.Plain.fitsLine (h : l.Plain) : FitsLine l.body := by
  refine ⟨h.nonempty, fun _ => ?_⟩
  rw [h.lineText_body]
  exact ⟨h.attr, fun _ => h.value⟩

/-- The lines that are looked at are those that have ended. -/
theorem lines_text (hls : ∀ l ∈ ls, l.Plain) (hlast : 10 ∉ last) :
    lines (text ls last) = ls.map TextLine.body := by
  induction ls with
  | nil => exact lines_last hlast
  | cons l ls ih =>
      obtain ⟨hl, hls⟩ := List.forall_mem_cons.mp hls
      have htext : text (l :: ls) last = l.body ++ 10 :: text ls last := by
        simp only [text, List.flatMap_cons, List.append_assoc, List.cons_append, List.nil_append]
      rw [htext, lines_cons hl.newLine_body, if_pos hl.length, ih hls, List.map_cons]

/-- The texts of the lines are what the loop makes of them. -/
theorem map_lineText_body (hls : ∀ l ∈ ls, l.Plain) :
    (ls.map TextLine.body).map lineText = ls.map TextLine.text := by
  rw [List.map_map]
  exact List.map_congr_left fun l hl => (hls l hl).lineText_body

/-- Where all lines fit and there is memory, the loop takes all of them in. -/
theorem runLines_of_fits {ls : List Text} (halloc : ∀ n, alloc n = true)
    (hls : ∀ l ∈ ls, FitsLine l) (c : Collected) :
    runLines alloc c ls = some (some (ls.foldl Collected.feed c)) := by
  induction ls generalizing c with
  | nil => rfl
  | cons l ls ih =>
      obtain ⟨hl, hls⟩ := List.forall_mem_cons.mp hls
      have hgrow : c.grow alloc (c.feed l) = some (some (c.feed l)) := by
        simp [Collected.grow, halloc]
      rw [runLines, Collected.step, if_pos hl, hgrow, List.foldl_cons]
      exact ih hls _

/-! ## The values -/

theorem lastValue_length {r : Reading} {n : ℕ} (hn : 0 < n) (hfs : ∀ p ∈ fs, p.2.length < n)
    (a : Attr) : (lastValue r fs a).length < n := by
  unfold lastValue
  rcases hlast : (fs.filter fun p => r.attr p.1 = some a).getLast? with _ | p <;> rw [hlast]
  · exact hn
  · exact hfs p (List.mem_of_mem_filter (List.mem_of_getLast? hlast))

theorem cut_of_lt {n : ℕ} {t : Text} (h : t.length < n) : cut n t = t :=
  List.take_of_length_le (Nat.le_sub_one_of_lt h)

/-- The assignments of a block are among those of the text. -/
theorem fields_subset {r : Reading} {b : Block} (hb : b ∈ blocks r as) : b.fields ⊆ as := by
  induction as with
  | nil => exact absurd hb List.not_mem_nil
  | cons p as ih =>
      obtain ⟨a, v⟩ := p
      rw [blocks] at hb
      split_ifs at hb with ha
      · rcases List.mem_cons.mp hb with rfl | hb
        · exact fun q hq => List.mem_cons_of_mem _ ((List.takeWhile_prefix _).subset hq)
        · exact fun q hq => List.mem_cons_of_mem _ (ih hb hq)
      · exact fun q hq => List.mem_cons_of_mem _ (ih hb hq)

/-- Only the names have to be cut: a URL and a processor have the length of a value. -/
theorem stored_eq_shortened {r : Reading} {e : PlxEntry} (has : ∀ p ∈ as, p.2.length < 1024)
    (he : e ∈ entries r as) : e.stored = e.shortened := by
  obtain ⟨b, hb, rfl⟩ := List.mem_map.mp (List.mem_of_mem_filter he)
  have hlen : ∀ a, (lastValue r b.fields a).length < maxPathLen :=
    lastValue_length (by decide) fun p hp => has p (fields_subset hb hp)
  simp only [PlxEntry.stored, PlxEntry.shortened, Block.entry, cut_of_lt (hlen _)]

/-- `ParsePLXPlaylist` collects the entries of the lines that have ended: what stands behind the last
new line is given up, a line that gives an empty value gives nothing, and names are cut. -/
theorem parsePLXPlaylist_blocks (alloc : ℕ → Bool) (stack : Arrays) (search http : Bool)
    (content : List UInt8) (ls : List TextLine) (last : Text)
    (hload : loadPlx http content = text ls last) (hls : ∀ l ∈ ls, l.Plain) (hlast : 10 ∉ last)
    (hwords : ∀ p ∈ assignments (ls.map TextLine.text), Worded p) (halloc : ∀ n, alloc n = true) :
    ∃ r, parsePLXPlaylist alloc stack search http content = some r ∧
      r.collected =
        (entries .words (assignments (ls.map TextLine.text))).map PlxEntry.shortened := by
  rw [parsePLXPlaylist_eq, hload, lines_text hls hlast]
  by_cases hempty : text ls last = []
  · have hnil : ls = [] := by
      cases ls with
      | nil => rfl
      | cons l ls => simp [text] at hempty
    subst hnil
    rw [if_pos hempty]
    exact ⟨_, rfl, rfl⟩
  -- Plain lines fit the arrays, so the loop reads them all.
  have hfits : ∀ l ∈ ls.map TextLine.body, FitsLine l := fun l hl => by
    obtain ⟨l, hmem, rfl⟩ := List.mem_map.mp hl
    exact (hls l hmem).fitsLine
  have hvalue : ∀ p ∈ assignments (ls.map TextLine.text), p.2.length < 1024 := fun p hp => by
    obtain ⟨t, ht, rfl⟩ := List.mem_map.mp (List.mem_of_mem_filter hp)
    obtain ⟨l, hmem, rfl⟩ := List.mem_map.mp (List.mem_of_mem_filter ht)
    exact (hls l hmem).value
  -- what it has collected are the entries of the words, shortened
  have hadded := (foldl_start (assignments (ls.map TextLine.text))).1
  rw [List.map_congr_left fun e he => stored_eq_shortened hvalue he, entries_words hwords] at hadded
  rw [if_neg hempty, runLines_of_fits halloc hfits, Option.bind_some, foldl_feed,
    map_lineText_body hls]
  generalize (assignments (ls.map TextLine.text)).foldl _ Collected.start = c at hadded
  refine ⟨c.result search, if_neg fun h => ?_, ?_⟩
  · rw [halloc] at h
    exact Bool.noConfusion h.2
  · unfold Collected.result
    rw [← hadded]
    by_cases hnil : c.added = []
    · rw [if_pos hnil, hnil]
      rfl
    · rw [if_neg hnil]
      rfl

/-- A line that a new line ends. -/
def line (s : String) : TextLine := ⟨ascii s, false⟩

/-- A playlist with one entry. -/
def oneEntry : List TextLine := [line "type=video", line "name=A", line "URL=http://a"]

/-- Two entries, the second one with a carriage return at the end of its lines and with two URLs. -/
def twoEntries : List TextLine :=
  oneEntry ++ [⟨ascii "type=audio", true⟩, ⟨ascii "URL=http://b", true⟩, ⟨ascii "name=B", true⟩,
    ⟨ascii "URL=http://c", true⟩]

/-- A playlist with a line behind it that has not ended. -/
theorem parsePLXPlaylist_two_blocks :
    ∃ r, parsePLXPlaylist (fun _ => true) zeroed false false (text twoEntries (ascii "name=C")) =
        some r ∧
      r.collected =
        (entries .words (assignments (twoEntries.map TextLine.text))).map PlxEntry.shortened := by
  refine parsePLXPlaylist_blocks _ _ _ _ _ _ (ascii "name=C") (by decide +kernel) ?_
    (by decide +kernel) (by decide +kernel) fun _ => rfl
  simp only [twoEntries, oneEntry, List.cons_append, List.nil_append, List.forall_mem_cons]
  refine ⟨?_, ?_, ?_, ?_, ?_, ?_, ?_, nofun⟩ <;> constructor <;> decide +kernel

/-- A long line without an equals sign. -/
def padding : TextLine := ⟨List.replicate 4000 120, false⟩

theorem length_padded (ls : List TextLine) (n : ℕ) :
    4001 * n ≤ (text (ls ++ List.replicate n padding) []).length := by
  have hbody : (padding.body ++ [10]).length = 4001 := by decide +kernel
  induction n with
  | zero => exact Nat.zero_le _
  | succ n ih =>
      rw [text, List.append_nil] at ih ⊢
      rw [List.replicate_succ', ← List.append_assoc, List.flatMap_append, List.length_append,
        List.flatMap_singleton, hbody]
      omega

/-- A file that is not smaller than the buffer is not read at all. -/
theorem parsePLXPlaylist_padded :
    (parsePLXPlaylist (fun _ => true) zeroed false false
      (text (oneEntry ++ List.replicate 132 padding) [])).map PlxResult.collected = some [] ∧
    stated (oneEntry ++ List.replicate 132 padding) [] = stated oneEntry [] := by
  have hlen : ¬ (text (oneEntry ++ List.replicate 132 padding) []).length < maxPlxSize :=
    Nat.not_lt.mpr ((by decide : maxPlxSize ≤ 4001 * 132).trans (length_padded oneEntry 132))
  have hnone : (List.replicate 132 padding.text).filter (fun t => 61 ∈ t) = [] :=
    List.filter_eq_nil_iff.mpr fun t ht => by
      rw [List.eq_of_mem_replicate ht]
      decide +kernel
  constructor
  · rw [parsePLXPlaylist_eq, loadPlx, if_neg Bool.false_ne_true, if_neg hlen]
    rfl
  · unfold stated given
    rw [List.map_append, List.map_replicate, List.append_assoc, List.filter_append,
      List.filter_append, hnone, List.nil_append, ← List.filter_append]

/-- What is not collected as it is stated: a line that has not ended, a value that is taken back with
an empty one, a long name, the entries of a file that is not smaller than the buffer, and of one for
which there is no memory. What only begins with a word passes for it, and an empty line leaves the
array. -/
theorem parsePLXPlaylist_stated_ne :
    (parsePLXPlaylist (fun _ => true) zeroed false false
        (text [line "type=video", line "name=A"] (ascii "URL=http://a"))).map PlxResult.collected ≠
      some (stated [line "type=video", line "name=A"] (ascii "URL=http://a")) ∧
    (parsePLXPlaylist (fun _ => true) zeroed false false
        (text (oneEntry ++ [line "URL="]) [])).map PlxResult.collected ≠
      some (stated (oneEntry ++ [line "URL="]) []) ∧
    (parsePLXPlaylist (fun _ => true) zeroed false false
        (text (oneEntry ++ [⟨ascii "name=" ++ List.replicate 300 65, false⟩]) [])).map
          PlxResult.collected ≠
      some (stated (oneEntry ++ [⟨ascii "name=" ++ List.replicate 300 65, false⟩]) []) ∧
    (parsePLXPlaylist (fun _ => true) zeroed false false
        (text (oneEntry ++ List.replicate 132 padding) [])).map PlxResult.collected ≠
      some (stated (oneEntry ++ List.replicate 132 padding) []) ∧
    (parsePLXPlaylist (fun n => n ≤ 1) zeroed false false
        (text (oneEntry ++ oneEntry) [])).map PlxResult.collected ≠
      some (stated (oneEntry ++ oneEntry) []) ∧
    (parsePLXPlaylist (fun _ => true) zeroed false false
        (text (oneEntry ++ [line "namespace=B"]) [])).map PlxResult.collected ≠
      some (stated (oneEntry ++ [line "namespace=B"]) []) ∧
    (parsePLXPlaylist (fun _ => true) zeroed false false
        (text [line "type=videogame", line "name=A", line "URL=http://a"] [])).map
          PlxResult.collected ≠
      some (stated [line "type=videogame", line "name=A", line "URL=http://a"] []) ∧
    (parsePLXPlaylist (fun _ => true) zeroed false false
        (text (oneEntry ++ [line ""]) [])).map PlxResult.collected ≠
      some (stated (oneEntry ++ [line ""]) []) := by
  refine ⟨?_, ?_, ?_, ?_, ?_, ?_, ?_, ?_⟩
  case refine_4 =>
    rw [parsePLXPlaylist_padded.1, parsePLXPlaylist_padded.2]
    decide +kernel
  all_goals
    rw [parsePLXPlaylist_eq]
    decide +kernel

end WiiMC.Online
