import WiiMC.Online.Plx
import Mathlib.Data.List.Induction

/-!
# What a PLX playlist says

The entries for which the lines of a playlist stand, apart from the code, and that the loop over
the lines collects them.

* `Reading`: how the words of a playlist are told. `Reading.words` takes them as they are written,
  `Reading.code` is what `strncmp` tells.
* `given`, `assignments`: what the lines give to which attribute.
* `blocks`, `entries`: a block begins with a type and goes up to the next one. Its entry is there if
  it is `Acceptable`.
* `foldl_feed`, `foldl_assign`: the entries that the loop has collected are those of the blocks.
* `entries_words`: where no attribute and no type only begins with a word, the code tells the words.
-/

namespace WiiMC.Online

open Bytes Player

/-! ## Words -/

/-- The name of an attribute. -/
def Attr.word : Attr → Text
  | .version => ascii "version"
  | .type => ascii "type"
  | .name => ascii "name"
  | .url => ascii "URL"
  | .thumb => ascii "thumb"
  | .xml => ascii "xml"
  | .tunein => ascii "tunein"
  | .processor => ascii "processor"

/-- The attributes of a playlist. -/
def Attr.all : List Attr := [.version, .type, .name, .url, .thumb, .xml, .tunein, .processor]

/-- The types that are supported, with their numbers. -/
def supported : List (Text × ℕ) :=
  [(ascii "video", 1), (ascii "audio", 1), (ascii "playlist", 2), (ascii "search", 3)]

/-- How attributes and types are told. A type that is not supported is 0. -/
structure Reading where
  attr : Text → Option Attr
  kind : Text → ℕ

/-- An attribute or a type is the word itself. -/
def Reading.words : Reading where
  attr a := Attr.all.find? fun x => a = x.word
  kind v := ((supported.find? fun x => v = x.1).map Prod.snd).getD 0

/-- What the code tells. -/
def Reading.code : Reading := ⟨attrOf, typeOf⟩

/-! ## Entries -/

/-- An attribute and what is given for it. -/
abbrev Assignment := Text × Text

/-- What the lines with an equals sign give, in their order. -/
def given (ls : List Text) : List Assignment :=
  (ls.filter fun t => 61 ∈ t).map fun t => (attrPart t, valuePart t)

/-- What the lines give, without those that give an empty value or have no attribute. -/
def assignments (ls : List Text) : List Assignment :=
  (given ls).filter fun p => p.1 ≠ [] && p.2 ≠ []

/-- A type with the assignments of its block. -/
structure Block where
  type : Text
  fields : List Assignment

variable (r : Reading)

/-- The assignments in front of the next type. -/
def front (as : List Assignment) : List Assignment :=
  as.takeWhile fun p => r.attr p.1 ≠ some .type

/-- The blocks. What stands in front of the first type belongs to none. -/
def blocks : List Assignment → List Block
  | [] => []
  | (a, v) :: as => if r.attr a = some .type then ⟨v, front r as⟩ :: blocks as else blocks as

/-- The last value for an attribute, or the empty text. -/
def lastValue (fields : List Assignment) (a : Attr) : Text :=
  ((fields.filter fun p => r.attr p.1 = some a).getLast?.map Prod.snd).getD []

/-- The entry of a block. -/
def Block.entry (b : Block) : PlxEntry where
  type := r.kind b.type
  name := lastValue r b.fields .name
  url := lastValue r b.fields .url
  thumb := lastValue r b.fields .thumb
  xml := lastValue r b.fields .xml
  tunein := lastValue r b.fields .tunein
  processor := lastValue r b.fields .processor

/-- The URL begins with a protocol that is allowed, in whatever case. -/
def AllowedUrl (url : Text) : Prop :=
  ∃ protocol ∈ validInternetProtocols, startsNoCase url (protocol ++ ascii "://") = true

/-- Whether a URL is allowed is decided by the table of protocols. -/
instance (url : Text) : Decidable (AllowedUrl url) := inferInstanceAs (Decidable (∃ _ ∈ _, _))

/-- A supported type, a name, a URL with an allowed protocol and no processor. -/
def Acceptable (e : PlxEntry) : Prop :=
  e.type ≠ 0 ∧ e.name ≠ [] ∧ e.url ≠ [] ∧ AllowedUrl e.url ∧ e.processor = []

/-- Whether an entry is acceptable is decided by its fields. -/
instance (e : PlxEntry) : Decidable (Acceptable e) := inferInstanceAs (Decidable (_ ∧ _))

/-- The entries of some assignments: the acceptable ones of the blocks, in their order. -/
def entries (as : List Assignment) : List PlxEntry :=
  ((blocks r as).map (Block.entry r)).filter fun e => Acceptable e

/-- The entries of the blocks behind which another block begins. -/
def finished (as : List Assignment) : List PlxEntry :=
  ((blocks r as).dropLast.map (Block.entry r)).filter fun e => Acceptable e

/-- The texts of an entry, each cut to the size of its array. -/
def PlxEntry.stored (e : PlxEntry) : PlxEntry where
  type := e.type
  name := cut maxJoliet e.name
  url := cut maxPathLen e.url
  thumb := cut maxJoliet e.thumb
  xml := cut maxJoliet e.xml
  tunein := cut maxJoliet e.tunein
  processor := cut maxPathLen e.processor

/-! ## What is acceptable -/

variable {r} {c : Collected} {e : PlxEntry} {url : Text} {as fs : List Assignment} {ls : List Text}

/-- The protocols in the table are short, and have no colon in them. -/
theorem protocol_facts :
    ∀ p ∈ validInternetProtocols, toLower 58 ∉ p.map toLower ∧ p.length ≤ 5 := by
  decide

/-- The case of a letter plays no role behind the protocol. -/
theorem eq_of_lower_colon {b : Text} (hb : b.map toLower = (ascii "://").map toLower) :
    b = ascii "://" := by
  have hsame : ∀ c : UInt8, (toLower c = 58 → c = 58) ∧ (toLower c = 47 → c = 47) :=
    forall_byte (by decide +kernel)
  obtain ⟨b₁, b₂, b₃, rfl⟩ : ∃ b₁ b₂ b₃, b = [b₁, b₂, b₃] :=
    List.length_eq_three.mp ((List.length_map (f := toLower)).symm.trans (congrArg List.length hb))
  rw [show (ascii "://").map toLower = [58, 47, 47] by decide] at hb
  simp only [List.map_cons, List.map_nil, List.cons.injEq, and_true] at hb
  rw [(hsame b₁).1 hb.1, (hsame b₂).2 hb.2.1, (hsame b₃).2 hb.2.2]
  rfl

/-- The test of the code finds the allowed URLs. -/
theorem isAllowedProtocol_iff : isAllowedProtocol url = true ↔ AllowedUrl url := by
  constructor
  · intro h
    unfold isAllowedProtocol splitAt? at h
    by_cases hmem : 58 ∈ url
    swap
    · rw [if_neg hmem] at h
      cases h
    · rw [if_pos hmem] at h
      simp only [Bool.and_eq_true, List.isPrefixOf_iff_prefix, List.any_eq_true] at h
      obtain ⟨⟨-, t, ht⟩, protocol, hprotocol, hsame⟩ := h
      refine ⟨protocol, hprotocol, ?_⟩
      -- The text is split at its first colon, and the length test leaves the five schemes.
      have hurl : url = url.takeWhile (· != 58) ++ (ascii "://" ++ t) := by
        have hhead : url.dropWhile (· != 58) = 58 :: (url.dropWhile (· != 58)).tail := by
          rcases hdrop : url.dropWhile (· != 58) with _ | ⟨b, rest⟩
          · exact absurd (List.dropWhile_eq_nil_iff.mp hdrop 58 hmem) (by decide)
          · have hb := List.head?_dropWhile_not (· != 58) url
            rw [hdrop] at hb
            simp only [List.head?_cons, bne_eq_false_iff_eq] at hb
            rw [hb, List.tail_cons]
        conv_lhs => rw [← List.takeWhile_append_dropWhile (p := (· != 58)) (l := url)]
        rw [hhead, ← ht]
        rfl
      have hlen : protocol.length = (url.takeWhile (· != 58)).length := by
        have := congrArg List.length (beq_iff_eq.mp hsame)
        simpa using this.symm
      rw [hurl, startsNoCase, List.length_append, hlen, ← List.append_assoc,
        List.take_append_of_le_length (by simp), List.take_of_length_le (by simp)]
      simp only [eqNoCase, beq_iff_eq, List.map_append] at hsame ⊢
      rw [hsame]
  · rintro ⟨protocol, hprotocol, h⟩
    rw [startsNoCase, eqNoCase, beq_iff_eq, List.map_append] at h
    obtain ⟨a, b, hab, ha, hb⟩ := List.map_eq_append_iff.mp h
    obtain rfl : b = ascii "://" := eq_of_lower_colon hb
    -- no scheme has a colon or more than five letters
    obtain ⟨hcolon, hshort⟩ := protocol_facts protocol hprotocol
    have hnone : 58 ∉ a := fun hmem => hcolon (ha ▸ List.mem_map_of_mem hmem)
    have hlen : a.length ≤ 5 := by
      have := congrArg List.length ha
      simp only [List.length_map] at this
      omega
    have hurl : url = a ++ 58 :: 47 :: 47 :: url.drop (protocol ++ ascii "://").length := by
      conv_lhs => rw [← List.take_append_drop (protocol ++ ascii "://").length url, hab]
      rw [List.append_assoc]
      rfl
    rw [hurl, isAllowedProtocol, splitAt?_append hnone]
    simp only [Bool.and_eq_true, decide_eq_true_eq, List.any_eq_true]
    exact ⟨⟨hlen, rfl⟩, protocol, hprotocol, beq_iff_eq.mpr ha⟩

/-- The test of the code finds the acceptable entries. -/
theorem complete_iff : e.complete = true ↔ Acceptable e := by
  unfold PlxEntry.complete Acceptable
  simp only [Bool.and_eq_true, decide_eq_true_eq, isAllowedProtocol_iff, Nat.pos_iff_ne_zero]
  tauto

/-- Cutting a value leaves nothing only of an empty one. -/
theorem cut_eq_nil_iff {n : ℕ} (hn : 1 < n) {t : Text} : cut n t = [] ↔ t = [] := by
  rw [cut, List.take_eq_nil_iff, or_iff_right (Nat.sub_ne_zero_of_lt hn)]

/-- What is cut off does not matter to whether an entry is acceptable. -/
theorem acceptable_stored : Acceptable e.stored ↔ Acceptable e := by
  have hurl : AllowedUrl (cut maxPathLen e.url) ↔ AllowedUrl e.url := by
    unfold AllowedUrl
    refine exists_congr fun protocol => and_congr_right fun hprotocol => ?_
    have hshort : (protocol ++ ascii "://").length ≤ maxPathLen - 1 := by
      rw [List.length_append]
      exact (Nat.add_le_add_right (protocol_facts protocol hprotocol).2 3).trans (by decide)
    rw [startsNoCase, startsNoCase, cut, List.take_take, Nat.min_eq_left hshort]
  unfold Acceptable PlxEntry.stored
  simp only [ne_eq, cut_eq_nil_iff (show 1 < maxJoliet by decide),
    cut_eq_nil_iff (show 1 < maxPathLen by decide), hurl]

/-! ## The loop -/

/-- A text that has both an attribute and a value has three bytes at least. -/
theorem three_le_length {t : Text} (ha : attrPart t ≠ []) (hv : valuePart t ≠ []) :
    3 ≤ t.length := by
  have hapos := List.length_pos_of_ne_nil ha
  have hvpos := List.length_pos_of_ne_nil hv
  unfold valuePart at hvpos
  rw [List.length_drop] at hvpos
  omega

/-- The text of a line is not longer than the line. -/
theorem length_lineText_le (l : Text) : (lineText l).length ≤ l.length := by
  unfold lineText
  split_ifs
  · exact (List.takeWhile_prefix _).length_le
  · rw [List.length_dropLast]
    exact Nat.sub_le _ _
  · exact le_rfl

/-- A line is an assignment, unless its attribute or its value is empty. -/
theorem feed_eq (c : Collected) (l : Text) :
    c.feed l =
      if attrPart (lineText l) = [] ∨ valuePart (lineText l) = [] then c
      else c.assign (attrPart (lineText l)) (valuePart (lineText l)) := by
  unfold Collected.feed
  by_cases hempty : attrPart (lineText l) = [] ∨ valuePart (lineText l) = []
  · rw [if_pos (.inr hempty), if_pos hempty]
  · have hthree := three_le_length (not_or.mp hempty).1 (not_or.mp hempty).2
    have hle := length_lineText_le l
    rw [if_neg (not_or.mpr ⟨by omega, hempty⟩), if_neg hempty]

/-- There is a value only behind an equals sign. -/
theorem valuePart_of_not_mem {t : Text} (h : 61 ∉ t) : valuePart t = [] := by
  rw [valuePart, attrPart, takeWhile_of_not_mem h]
  exact List.drop_of_length_le (Nat.le_succ _)

/-- A line gives one assignment, or none. -/
theorem assignments_cons (t : Text) (ls : List Text) :
    assignments (t :: ls) =
      if attrPart t = [] ∨ valuePart t = [] then assignments ls
      else (attrPart t, valuePart t) :: assignments ls := by
  unfold assignments given
  rw [List.filter_cons]
  by_cases hmem : 61 ∈ t
  · rw [if_pos (by simpa using hmem), List.map_cons, List.filter_cons]
    by_cases ha : attrPart t = [] <;> by_cases hv : valuePart t = [] <;> simp [ha, hv]
  · rw [if_neg (by simpa using hmem), if_pos (.inr (valuePart_of_not_mem hmem))]

/-- The lines lead to what their assignments lead to. -/
theorem foldl_feed (ls : List Text) (c : Collected) :
    ls.foldl Collected.feed c =
      (assignments (ls.map lineText)).foldl (fun c p => c.assign p.1 p.2) c := by
  induction ls generalizing c with
  | nil => rfl
  | cons l ls ih =>
      rw [List.foldl_cons, ih, feed_eq, List.map_cons, assignments_cons]
      by_cases hempty : attrPart (lineText l) = [] ∨ valuePart (lineText l) = []
      · rw [if_pos hempty, if_pos hempty]
      · rw [if_neg hempty, if_neg hempty, List.foldl_cons]

/-- The entry with one more assignment. -/
def PlxEntry.give (e : PlxEntry) (p : Assignment) : PlxEntry :=
  match attrOf p.1 with
  | none => e
  | some a => e.set p.2 a

/-- The front ends where a type is assigned. -/
theorem front_of_type {a : Text} (ha : r.attr a = some .type) (v : Text) :
    front r ((a, v) :: as) = [] :=
  List.takeWhile_cons_of_neg (by simp [ha])

/-- An assignment of something else belongs to the front. -/
theorem front_of_ne_type {a : Text} (ha : r.attr a ≠ some .type) (v : Text) :
    front r ((a, v) :: as) = (a, v) :: front r as :=
  List.takeWhile_cons_of_pos (by simp [ha])

/-- Assigning a type finishes the entry and begins a new one. -/
theorem assign_type {a : Text} (ha : attrOf a = some .type) (c : Collected) (v : Text) :
    c.assign a v = { c with list := c.added, newEntry := .blank (typeOf v) } := by
  rw [Collected.assign, ha]

/-- Only a type touches the list. -/
theorem assign_of_ne_type {a : Text} (ha : attrOf a ≠ some .type) (c : Collected) (v : Text) :
    (c.assign a v).list = c.list ∧ (c.assign a v).newEntry = c.newEntry.give (a, v) := by
  unfold Collected.assign PlxEntry.give
  rcases hattr : attrOf a with _ | b
  · exact ⟨rfl, rfl⟩
  cases b with
  | type => exact absurd hattr ha
  | _ => exact ⟨rfl, rfl⟩

/-- An entry is added if it is acceptable. -/
theorem added_eq (c : Collected) :
    c.added = c.list ++ [c.newEntry].filter fun e => Acceptable e := by
  unfold Collected.added
  by_cases h : c.newEntry.complete = true
  · rw [if_pos h]
    simp [complete_iff.mp h]
  · rw [if_neg h]
    simp [complete_iff.not.mp h]

/-- The entries that some assignments lead to, the one that has been begun in front of them among
them: the last one is still open, and the acceptable ones of the others are in the list. -/
theorem foldl_assign (as : List Assignment) (c : Collected) :
    ∃ done, done ++ [(as.foldl (fun c p => c.assign p.1 p.2) c).newEntry] =
        (front .code as).foldl PlxEntry.give c.newEntry :: (blocks .code as).map (fun b =>
          b.fields.foldl PlxEntry.give (.blank (typeOf b.type))) ∧
      (as.foldl (fun c p => c.assign p.1 p.2) c).list =
        c.list ++ done.filter fun e => Acceptable e := by
  induction as generalizing c with
  | nil => exact ⟨[], rfl, (List.append_nil _).symm⟩
  | cons p as ih =>
      obtain ⟨a, v⟩ := p
      obtain ⟨done, hdone, hlist⟩ := ih (c.assign a v)
      rw [List.foldl_cons, blocks]
      by_cases ha : Reading.code.attr a = some .type
      · -- the entry that was begun is finished here, and the block's own one begins
        refine ⟨c.newEntry :: done, ?_, ?_⟩
        · rw [List.cons_append, hdone, if_pos ha, front_of_type ha, List.foldl_nil, assign_type ha,
            List.map_cons]
        · rw [hlist, assign_type ha, added_eq, List.append_assoc, ← List.filter_append,
            List.singleton_append]
      · obtain ⟨hsame, hentry⟩ := assign_of_ne_type ha c v
        refine ⟨done, ?_, hlist.trans (by rw [hsame])⟩
        rw [hdone, hentry, if_neg ha, front_of_ne_type ha, List.foldl_cons]

/-- Assigning something else leaves the type as it is. -/
theorem give_type (e : PlxEntry) (p : Assignment) : (e.give p).type = e.type := by
  unfold PlxEntry.give
  rcases attrOf p.1 with _ | a
  · rfl
  cases a <;> rfl

/-- Without a type there is no entry. -/
theorem foldl_give_type (fs : List Assignment) (e : PlxEntry) :
    (fs.foldl PlxEntry.give e).type = e.type := by
  induction fs generalizing e with
  | nil => rfl
  | cons p fs ih => rw [List.foldl_cons, ih, give_type]

/-- The last assignment of an attribute counts. -/
theorem lastValue_concat (fs : List Assignment) (p : Assignment) (a : Attr) :
    lastValue r (fs ++ [p]) a = if r.attr p.1 = some a then p.2 else lastValue r fs a := by
  unfold lastValue
  rw [List.filter_append, List.filter_cons, List.filter_nil]
  by_cases ha : r.attr p.1 = some a
  · rw [if_pos (by simpa using ha), if_pos ha, List.getLast?_concat]
    rfl
  · rw [if_neg (by simpa using ha), if_neg ha, List.append_nil]

/-- The assignments of a block leave the last value of each attribute. -/
theorem foldl_give (b : Block) :
    b.fields.foldl PlxEntry.give (.blank (typeOf b.type)) = (b.entry .code).stored := by
  obtain ⟨type, fs⟩ := b
  induction fs using List.reverseRecOn with
  | nil => rfl
  | append_singleton fs p ih =>
      simp only at ih
      rw [List.foldl_append, List.foldl_cons, List.foldl_nil, ih, PlxEntry.give]
      simp only [Block.entry, PlxEntry.stored, lastValue_concat]
      show (match attrOf p.1 with
        | none => _
        | some a => _) = _
      rcases hattr : attrOf p.1 with _ | a
      · simp [Reading.code, hattr]
      cases a <;> simp [Reading.code, hattr, PlxEntry.set]

/-- The acceptable ones of the entries of some blocks, as they are stored. -/
theorem filter_stored (bs : List Block) :
    (bs.map fun b => b.fields.foldl PlxEntry.give (.blank (typeOf b.type))).filter
        (fun e => Acceptable e) =
      ((bs.map (Block.entry .code)).filter fun e => Acceptable e).map PlxEntry.stored := by
  induction bs with
  | nil => rfl
  | cons b bs ih =>
      rw [List.map_cons, List.map_cons, List.filter_cons, List.filter_cons, ih, foldl_give]
      simp only [acceptable_stored]
      split_ifs <;> rfl

/-- From the start the lines lead to the entries of their blocks. -/
theorem foldl_start (as : List Assignment) :
    (as.foldl (fun c p => c.assign p.1 p.2) Collected.start).added =
        (entries .code as).map PlxEntry.stored ∧
      (as.foldl (fun c p => c.assign p.1 p.2) Collected.start).list =
        (finished .code as).map PlxEntry.stored := by
  obtain ⟨done, hdone, hlist⟩ := foldl_assign as .start
  -- what stands in front of the first type has no type
  have hnone : ∀ es : List PlxEntry,
      ((front .code as).foldl PlxEntry.give (.blank 0) :: es).filter (fun e => Acceptable e) =
        es.filter fun e => Acceptable e := by
    intro es
    have hfirst : ¬ Acceptable ((front .code as).foldl PlxEntry.give (.blank 0)) := fun h =>
      h.1 (foldl_give_type _ _)
    rw [List.filter_cons, if_neg (by simpa using hfirst)]
  have hlast : done = ((front .code as).foldl PlxEntry.give Collected.start.newEntry ::
      (blocks .code as).map fun b =>
        b.fields.foldl PlxEntry.give (.blank (typeOf b.type))).dropLast := by
    rw [← hdone, List.dropLast_concat]
  constructor
  · rw [added_eq, hlist, List.append_assoc, ← List.filter_append, hdone, entries, ← filter_stored]
    exact hnone _
  · rw [hlist, hlast, finished, ← filter_stored, List.map_dropLast]
    generalize (blocks .code as).map _ = es
    cases es with
    | nil => rfl
    | cons e es =>
        rw [List.dropLast_cons_cons]
        exact hnone _

/-! ## The words -/

/-- What `strncmp` looks for. -/
def Attr.beginning : Attr → Text
  | .tunein => ascii "tun"
  | a => a.word

/-- An attribute or a type that begins with a word is this word. -/
structure Worded (p : Assignment) : Prop where
  attr : ∀ a ≠ Attr.version, a.beginning.isPrefixOf p.1 = true → p.1 = a.word
  kind : p.1 = Attr.type.word → ∀ x ∈ supported, x.1.isPrefixOf p.2 = true → p.2 = x.1

/-- Whether an assignment is worded is decided by its attribute. -/
instance (p : Assignment) : Decidable (Worded p) :=
  decidable_of_iff
    ((∀ a ∈ Attr.all, a ≠ .version → a.beginning.isPrefixOf p.1 = true → p.1 = a.word) ∧
      (p.1 = Attr.type.word → ∀ x ∈ supported, x.1.isPrefixOf p.2 = true → p.2 = x.1))
    ⟨fun h => ⟨fun a => h.1 a (by cases a <;> decide), h.2⟩, fun h => ⟨fun a _ => h.attr a, h.kind⟩⟩

/-- Read as words, the attributes are the words themselves. -/
theorem words_attr_iff {t : Text} {a : Attr} : Reading.words.attr t = some a ↔ t = a.word := by
  constructor
  · intro h
    simpa using List.find?_some h
  · rintro rfl
    cases a <;> decide

/-- The attribute that `strncmp` tells has what was looked for in front. -/
theorem beginning_of_attrOf {t : Text} {a : Attr} (h : attrOf t = some a) :
    a.beginning.isPrefixOf t = true := by
  unfold attrOf at h
  split_ifs at h <;> (cases h; assumption)

/-- The two readings of an assignment that do not differ. -/
structure Agree (r r' : Reading) (p : Assignment) : Prop where
  attr : ∀ a ≠ Attr.version, r.attr p.1 = some a ↔ r'.attr p.1 = some a
  kind : r.attr p.1 = some .type → r.kind p.2 = r'.kind p.2

/-- The code tells the words where nothing else begins with them. -/
theorem Worded.agree {p : Assignment} (h : Worded p) : Agree .code .words p := by
  constructor
  · intro a ha
    rw [words_attr_iff]
    constructor
    · exact fun hattr => h.attr a ha (beginning_of_attrOf hattr)
    · intro hword
      rw [hword]
      cases a <;> decide
  · intro hattr
    have htype := h.kind (h.attr .type (by decide) (beginning_of_attrOf hattr))
    by_cases hsupported : ∃ x ∈ supported, p.2 = x.1
    · obtain ⟨x, hx, hkind⟩ := hsupported
      rw [hkind]
      exact (show ∀ x ∈ supported, Reading.code.kind x.1 = Reading.words.kind x.1 by decide) x hx
    · -- no supported type is in front of it, or it would be this type
      have hnone : ∀ x ∈ supported, ¬ x.1.isPrefixOf p.2 = true := fun x hx hpre =>
        hsupported ⟨x, hx, htype x hx hpre⟩
      simp only [supported, List.forall_mem_cons] at hnone
      obtain ⟨hvideo, haudio, hplaylist, hsearch, -⟩ := hnone
      have hcode : typeOf p.2 = 0 := by
        rw [typeOf, if_neg (not_or.mpr ⟨hvideo, haudio⟩), if_neg hplaylist, if_neg hsearch]
      have hwords : supported.find? (fun x => p.2 = x.1) = none :=
        List.find?_eq_none.mpr fun x hx => by simpa using fun h => hsupported ⟨x, hx, h⟩
      show typeOf p.2 = Option.getD (Option.map _ (supported.find? fun x => p.2 = x.1)) 0
      rw [hcode, hwords]
      rfl

section Agree

variable {r' : Reading}

/-- Readings that agree on the assignments have the same front. -/
theorem front_congr (h : ∀ p ∈ as, Agree r r' p) : front r as = front r' as := by
  unfold front
  induction as with
  | nil => rfl
  | cons p as ih =>
      obtain ⟨hp, has⟩ := List.forall_mem_cons.mp h
      simp only [List.takeWhile_cons, ih has, ne_eq, hp.attr .type (by decide)]

/-- Readings that agree on the assignments have the same last values. -/
theorem lastValue_congr (h : ∀ p ∈ fs, Agree r r' p) {a : Attr} (ha : a ≠ .version) :
    lastValue r fs a = lastValue r' fs a := by
  unfold lastValue
  have hfilter : fs.filter (fun p => r.attr p.1 = some a) =
      fs.filter fun p => r'.attr p.1 = some a :=
    List.filter_congr fun p hp => by simp only [(h p hp).attr a ha]
  rw [hfilter]

/-- Readings that do not differ give the same entries. -/
theorem entries_congr (h : ∀ p ∈ as, Agree r r' p) : entries r as = entries r' as := by
  suffices hmap : (blocks r as).map (Block.entry r) = (blocks r' as).map (Block.entry r') by
    rw [entries, hmap, entries]
  induction as with
  | nil => rfl
  | cons p as ih =>
      obtain ⟨a, v⟩ := p
      obtain ⟨hp, has⟩ := List.forall_mem_cons.mp h
      have htype := hp.attr .type (by decide)
      rw [blocks, blocks]
      by_cases ha : r.attr a = some .type
      · have hfields : ∀ p ∈ front r as, Agree r r' p := fun p hmem =>
          has p ((List.takeWhile_prefix _).subset hmem)
        rw [if_pos ha, if_pos (htype.mp ha), List.map_cons, List.map_cons, ih has]
        congr 1
        simp only [Block.entry, ← front_congr has, ← lastValue_congr hfields, ne_eq, reduceCtorEq,
          not_false_eq_true, hp.kind ha]
      · rw [if_neg ha, if_neg fun h => ha (htype.mpr h), ih has]

end Agree

/-- The code finds the entries of a playlist whose words are told. -/
theorem entries_words (h : ∀ p ∈ as, Worded p) : entries .code as = entries .words as :=
  entries_congr fun p hp => (h p hp).agree

end WiiMC.Online
