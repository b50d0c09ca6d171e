import WiiMC.Http.Body
import WiiMC.Http.Open

/-!
# Radio streams

`radio_stream.c`: the audio of a stream with a block of metadata behind every `icy_interval` bytes.

* `gcRadioRead`: audio up to the next block, behind the block that is due.
* `Icy`: a stream, cut into audio and blocks; `Icy.tagged` is its audio, each byte with the title
  that is shown while it plays.
* `gcRadioRead_step`: one call.
* `gcRadioRead_demuxes`: any sequence of calls returns the audio without the blocks, and the title
  is that of the last block.
-/

namespace WiiMC.Http

open Bytes Wire

variable {κ : Type}

/-- `gc_radio`. -/
structure GcRadio (κ : Type) where
  http : GcHttp κ
  audioLeft : ℤ
  title : List UInt8
  titleChanged : Bool

/-- A radio after `memset`. -/
def GcRadio.zero (κ : Type) : GcRadio κ := ⟨GcHttp.zero κ, 0, [], false⟩

/-- `gc_radio_open`; `false` is -1. -/
def gcRadioOpen (url : List UInt8) (cancel : Option κ) (cancelOpaque : ℕ) (net : Net κ) :
    Bool × GcRadio κ × Net κ :=
  match gcHttpOpen ⟨url, ascii "GET", [], none, -1, -1, true, cancel, cancelOpaque⟩ net with
  | (false, http, net) => (false, { GcRadio.zero κ with http }, net)
  | (true, http, net) =>
      if http.status ≠ 200 then
        (false, { GcRadio.zero κ with
          http := { http with
            error := "Unexpected radio HTTP status " ++ toString http.status
            conn := none } },
          gcNetClose http.conn net)
      else (true, { GcRadio.zero κ with http, audioLeft := http.icyInterval }, net)

/-- The title in a block of metadata, which is a C string. -/
def streamTitle (text : List UInt8) : Option (List UInt8) :=
  match findText? (ascii "StreamTitle='") (text.takeWhile (· != 0)) with
  | none => none
  | some (_, rest) => (findText? (ascii "';") rest).map fun r => r.1.take 127

/-- The loop of `metadata` that reads `len` bytes behind `text`. Every round reads at least one
byte, so as many rounds are enough `fuel`. -/
def metadataLoop : ℕ → List UInt8 → ℕ → GcHttp κ → Option (List UInt8) × GcHttp κ
  | 0, text, len, h => if text.length < len then (none, h) else (some text, h)
  | fuel + 1, text, len, h =>
      if text.length < len then
        match gcHttpRead h (len - text.length : ℕ) with
        | (some (b :: bs), h) => metadataLoop fuel (text ++ b :: bs) len h
        | (_, h) => (none, h)
      else (some text, h)

/-- The end of `metadata`, with the text of a block that is not empty. -/
def GcRadio.retitle (r : GcRadio κ) (text : List UInt8) : GcRadio κ :=
  match streamTitle text with
  | none => { r with audioLeft := r.http.icyInterval }
  | some title => { r with title, titleChanged := true, audioLeft := r.http.icyInterval }

/-- `metadata`; `false` is -1. -/
def metadata (r : GcRadio κ) (net : Net κ) : Bool × GcRadio κ × Net κ :=
  match gcHttpRead r.http 1 with
  | (some [blocks], http) =>
      if blocks = 0 then (true, { r with http, audioLeft := http.icyInterval }, net)
      else match net.alloc with
        | (false, net) => (false, { r with http }, net)
        | (true, net) =>
            match metadataLoop (blocks.toNat * 16) [] (blocks.toNat * 16) http with
            | (none, http) => (false, { r with http }, net)
            | (some text, http) => (true, { r with http }.retitle text, net)
  | (_, http) => (false, { r with http }, net)

/-- The last part of `gc_radio_read`: at most `len` bytes of audio. -/
def GcRadio.deliver (r : GcRadio κ) (len : ℤ) : Option (List UInt8) × GcRadio κ :=
  match gcHttpRead r.http
      (if r.http.icyInterval ≠ 0 ∧ r.audioLeft < len then r.audioLeft else len) with
  | (some (b :: bs), http) =>
      (some (b :: bs),
        { r with
          http
          audioLeft := if http.icyInterval ≠ 0 then r.audioLeft - (b :: bs).length
            else r.audioLeft })
  | (result, http) => (result, { r with http })

/-- `gc_radio_read`; `none` is -1. -/
def gcRadioRead (r : GcRadio κ) (len : ℤ) (net : Net κ) :
    Option (List UInt8) × GcRadio κ × Net κ :=
  if r.http.icyInterval ≠ 0 ∧ r.audioLeft = 0 then
    match metadata r net with
    | (false, r, net) => (none, { r with http := r.http.fail "Truncated ICY metadata" }, net)
    | (true, r, net) => ((r.deliver len).1, (r.deliver len).2, net)
  else ((r.deliver len).1, (r.deliver len).2, net)

/-- The results of a sequence of calls of `gc_radio_read`, each with the title behind it. -/
def radioReads : GcRadio κ → List ℤ → Net κ → List (Option (List UInt8) × List UInt8)
  | _, [], _ => []
  | r, len :: lens, net =>
      ((gcRadioRead r len net).1, (gcRadioRead r len net).2.1.title) ::
        radioReads (gcRadioRead r len net).2.1 lens (gcRadioRead r len net).2.2

/-- A new radio is in front of the first `icy_interval` bytes of audio, without a title. -/
theorem gcRadioOpen_ok {url : List UInt8} {cancel : Option κ} {cancelOpaque : ℕ} {net net' : Net κ}
    {r : GcRadio κ} (h : gcRadioOpen url cancel cancelOpaque net = (true, r, net')) :
    r.audioLeft = r.http.icyInterval ∧ r.title = [] ∧ r.http.status = 200 := by
  rw [gcRadioOpen] at h
  rcases hopen : gcHttpOpen ⟨url, ascii "GET", [], none, -1, -1, true, cancel, cancelOpaque⟩ net with
    ⟨ok, http, net₁⟩
  rw [hopen] at h
  cases ok with
  | false => cases h
  | true =>
      by_cases hstatus : http.status = 200
      · cases (if_neg (not_not.mpr hstatus)).symm.trans h
        exact ⟨rfl, rfl, hstatus⟩
      · cases (if_pos hstatus).symm.trans h

/-- `title` is what stands between the first `StreamTitle='` in front of a NUL and the next `';`,
up to 127 bytes of it. -/
def TitleIn (text title : List UInt8) : Prop :=
  ∃ before rest shown behind,
    First (ascii "StreamTitle='") (text.takeWhile (· != 0)) before rest ∧
      First (ascii "';") rest shown behind ∧ title = shown.take 127

/-- The title is the one in the metadata. -/
theorem streamTitle_eq_some_iff {text title : List UInt8} :
    streamTitle text = some title ↔ TitleIn text title := by
  unfold streamTitle
  constructor
  · intro h
    rcases hstart : findText? (ascii "StreamTitle='") (text.takeWhile (· != 0)) with
      _ | ⟨before, rest⟩ <;> rw [hstart] at h
    · cases h
    · obtain ⟨⟨shown, behind⟩, hend, htitle⟩ := Option.map_eq_some_iff.mp h
      exact ⟨before, rest, shown, behind, first_of_findText? hstart, first_of_findText? hend,
        htitle.symm⟩
  · rintro ⟨before, rest, shown, behind, hstart, hend, rfl⟩
    rw [findText?_eq_some_iff.mpr hstart]
    simp only
    rw [findText?_eq_some_iff.mpr hend]
    rfl

/-! ## Streams -/

/-- A block of metadata, whose length in units of 16 bytes is sent in front of it. -/
structure MetaBlock where
  units : UInt8
  text : List UInt8
  length_eq : text.length = units.toNat * 16

def MetaBlock.wire (b : MetaBlock) : List UInt8 := b.units :: b.text

/-- The title behind a block, with the one in front of it. -/
def MetaBlock.title (b : MetaBlock) (title : List UInt8) : List UInt8 :=
  (streamTitle b.text).getD title

/-- A block has a title, which is then the title, or it leaves the one in front of it. -/
theorem MetaBlock.title_spec (b : MetaBlock) (old : List UInt8) :
    TitleIn b.text (b.title old) ∨ b.title old = old ∧ ∀ title, ¬ TitleIn b.text title := by
  unfold MetaBlock.title
  cases htext : streamTitle b.text with
  | none =>
      refine Or.inr ⟨rfl, fun title htitle => ?_⟩
      cases htext.symm.trans (streamTitle_eq_some_iff.mpr htitle)
  | some title => exact Or.inl (streamTitle_eq_some_iff.mp htext)

/-- A stream: audio and blocks in turns, up to an end inside some audio, or where a block is due of
which only `part` is there. -/
inductive Icy
  | ends (audio : List UInt8)
  | cut (audio part : List UInt8)
  | block (audio : List UInt8) (b : MetaBlock) (rest : Icy)

/-- A block stands behind every `interval` bytes of audio, the first one behind `left` bytes. -/
def Icy.Ok (interval : ℕ) : ℕ → Icy → Prop
  | left, .ends audio => audio.length < left
  | left, .cut audio part =>
      audio.length = left ∧ ∃ b : MetaBlock, part <+: b.wire ∧ part ≠ b.wire
  | left, .block audio _ rest => audio.length = left ∧ rest.Ok interval interval

def Icy.wire : Icy → List UInt8
  | .ends audio => audio
  | .cut audio part => audio ++ part
  | .block audio b rest => audio ++ (b.wire ++ rest.wire)

/-- The audio alone. -/
def Icy.audio : Icy → List UInt8
  | .ends audio => audio
  | .cut audio _ => audio
  | .block audio _ rest => audio ++ rest.audio

/-- The audio, each byte with the title of the last block in front of it. -/
def Icy.tagged (title : List UInt8) : Icy → List (UInt8 × List UInt8)
  | .ends audio => audio.map (·, title)
  | .cut audio _ => audio.map (·, title)
  | .block audio b rest => audio.map (·, title) ++ rest.tagged (b.title title)

/-- The title of the last block. -/
def Icy.finalTitle (title : List UInt8) : Icy → List UInt8
  | .ends _ => title
  | .cut _ _ => title
  | .block _ b rest => rest.finalTitle (b.title title)

/-- What a call returns at the end: 0 inside audio, -1 where a block is due. -/
def Icy.last : Icy → Option (List UInt8)
  | .ends _ => some []
  | .cut _ _ => none
  | .block _ _ rest => rest.last

/-- Tagged with its titles, the audio is the audio. -/
theorem Icy.map_tagged (title : List UInt8) (s : Icy) :
    (s.tagged title).map Prod.fst = s.audio := by
  induction s generalizing title with
  | ends audio => simp [Icy.tagged, Icy.audio, Function.comp_def]
  | cut audio part => simp [Icy.tagged, Icy.audio, Function.comp_def]
  | block audio b rest ih => simp [Icy.tagged, Icy.audio, Function.comp_def, ih]

/-! ## A block of metadata -/

section Metadata

variable {h : GcHttp κ} {r : GcRadio κ} {whole : Bool} {net : Net κ}

/-- A read leaves the interval as it is. -/
theorem gcHttpRead_icyInterval (h : GcHttp κ) (len : ℤ) :
    (gcHttpRead h len).2.icyInterval = h.icyInterval :=
  congrArg (fun fixed => fixed.2.1) (gcHttpRead_fixed h len)

/-- The loop reads the rest of a block that is there. -/
theorem metadataLoop_ok {more tail : List UInt8} (fuel : ℕ) (text : List UInt8)
    (hd : Delivering h (more ++ tail) whole) (hfuel : more.length ≤ fuel) :
    (∃ h', metadataLoop fuel text (text.length + more.length) h = (some (text ++ more), h') ∧
      Delivering h' tail whole ∧ h'.icyInterval = h.icyInterval) ∨
    (whole = false ∧ ∃ h', metadataLoop fuel text (text.length + more.length) h = (none, h') ∧
      h'.failed = true) := by
  -- The induction is on what is missing of the block.
  induction fuel generalizing h text more with
  | zero =>
      obtain rfl : more = [] := List.length_eq_zero_iff.mp (by omega)
      exact Or.inl ⟨h, by simp [metadataLoop], hd, rfl⟩
  | succ fuel ih =>
      rw [metadataLoop]
      cases more with
      | nil => exact Or.inl ⟨h, by simp, hd, rfl⟩
      | cons m more =>
          have hlen : text.length + (m :: more).length - text.length = (m :: more).length := by omega
          rw [if_pos (by rw [List.length_cons]; omega), hlen]
          have hicy := gcHttpRead_icyInterval h ((m :: more).length : ℕ)
          have hstep := gcHttpRead_step hd
            (show 0 < (((m :: more).length : ℕ) : ℤ) by rw [List.length_cons]; omega)
          rcases hread : gcHttpRead h ((m :: more).length : ℕ) with ⟨result, h₁⟩
          rw [hread] at hstep hicy
          rcases hstep with ⟨bs, body, hne, hle, hbody, hresult, hd'⟩ | ⟨-, hnil, -⟩ |
            ⟨hwhole, hresult, hfailed⟩
          · -- what has been read is a part of the block
            obtain ⟨more', hmore⟩ : ∃ more', m :: more = bs ++ more' := by
              have hbs : bs <+: m :: more ++ tail := hbody ▸ List.prefix_append bs body
              refine (List.prefix_of_prefix_length_le hbs (List.prefix_append _ _) ?_).imp
                fun _ => Eq.symm
              exact_mod_cast hle
            rw [hmore, List.append_assoc] at hbody
            obtain rfl := List.append_cancel_left hbody
            obtain ⟨b, bs, rfl⟩ := List.exists_cons_of_ne_nil hne
            obtain rfl : result = some (b :: bs) := hresult
            have htext : text.length + (m :: more).length =
                (text ++ b :: bs).length + more'.length := by
              rw [hmore, List.length_append, List.length_append, Nat.add_assoc]
            have hshort : more'.length ≤ fuel := by
              have hsum := congrArg List.length hmore
              simp only [List.length_append, List.length_cons] at hsum hfuel
              omega
            simp only
            rw [htext, hmore, ← List.append_assoc]
            rcases ih (text ++ b :: bs) hd' hshort with ⟨h₂, hloop, hd₂, hicy₂⟩ | hcut
            · exact Or.inl ⟨h₂, hloop, hd₂, hicy₂.trans hicy⟩
            · exact Or.inr hcut
          -- the body does not end inside the block
          · cases hnil
          · obtain rfl : result = none := hresult
            exact Or.inr ⟨hwhole, h₁, rfl, hfailed⟩

/-- The loop fails where the body ends inside the block. -/
theorem metadataLoop_cut {part : List UInt8} (fuel : ℕ) (text : List UInt8) {len : ℕ}
    (hd : Delivering h part whole) (hshort : text.length + part.length < len) :
    ∃ h', metadataLoop fuel text len h = (none, h') := by
  induction fuel generalizing h text part with
  | zero => exact ⟨h, by rw [metadataLoop, if_pos (by omega)]⟩
  | succ fuel ih =>
      rw [metadataLoop, if_pos (by omega)]
      have hstep := gcHttpRead_step hd (show 0 < ((len - text.length : ℕ) : ℤ) by omega)
      rcases hread : gcHttpRead h ((len - text.length : ℕ) : ℤ) with ⟨result, h₁⟩
      rw [hread] at hstep
      rcases hstep with ⟨bs, body, hne, -, rfl, hresult, hd'⟩ | ⟨-, -, hresult, -⟩ | ⟨-, hresult, -⟩
      · obtain ⟨b, bs, rfl⟩ := List.exists_cons_of_ne_nil hne
        obtain rfl : result = some (b :: bs) := hresult
        refine ih (text ++ b :: bs) hd' ?_
        rw [List.length_append] at hshort ⊢
        omega
      · obtain rfl : result = some [] := hresult
        exact ⟨h₁, rfl⟩
      · obtain rfl : result = none := hresult
        exact ⟨h₁, rfl⟩

/-- Metadata change the title if they have one, and begin another interval. -/
theorem retitle_title (r : GcRadio κ) (text : List UInt8) :
    (r.retitle text).title = (streamTitle text).getD r.title ∧
      (r.retitle text).http = r.http ∧ (r.retitle text).audioLeft = r.http.icyInterval := by
  unfold GcRadio.retitle
  cases streamTitle text with
  | none => exact ⟨rfl, rfl, rfl⟩
  | some title => exact ⟨rfl, rfl, rfl⟩

/-- The first byte of a block. -/
theorem units_step {u : UInt8} {tail : List UInt8} (hd : Delivering h (u :: tail) whole) :
    (∃ h', gcHttpRead h 1 = (some [u], h') ∧ Delivering h' tail whole ∧
      h'.icyInterval = h.icyInterval) ∨
    (whole = false ∧ ∃ h', gcHttpRead h 1 = (none, h') ∧ h'.failed = true) := by
  have hicy := gcHttpRead_icyInterval h 1
  have hstep := gcHttpRead_step hd one_pos
  rcases hread : gcHttpRead h 1 with ⟨result, h'⟩
  rw [hread] at hstep hicy
  rcases hstep with ⟨bs, body, hne, hle, hbody, hresult, hd'⟩ | ⟨-, hnil, -⟩ |
    ⟨hwhole, hresult, hfailed⟩
  · obtain ⟨b, bs, rfl⟩ := List.exists_cons_of_ne_nil hne
    obtain rfl : bs = [] := List.length_eq_zero_iff.mp (by
      rw [List.length_cons] at hle
      omega)
    obtain ⟨rfl, rfl⟩ := List.cons.inj hbody
    obtain rfl : result = some [u] := hresult
    exact Or.inl ⟨h', rfl, hd', hicy⟩
  · cases hnil
  · obtain rfl : result = none := hresult
    exact Or.inr ⟨hwhole, h', rfl, hfailed⟩

/-- `metadata` where a block is there. -/
theorem metadata_ok {b : MetaBlock} {tail : List UInt8}
    (hd : Delivering r.http (b.wire ++ tail) whole) (hallocs : net.allocs = []) :
    (∃ r', metadata r net = (true, r', net) ∧ Delivering r'.http tail whole ∧
      r'.http.icyInterval = r.http.icyInterval ∧ r'.audioLeft = r.http.icyInterval ∧
      r'.title = b.title r.title) ∨
    (whole = false ∧ ∃ r', metadata r net = (false, r', net) ∧ r'.title = r.title) := by
  have halloc : net.alloc = (true, net) := by rw [Net.alloc, hallocs]
  obtain ⟨units, text, hlen⟩ := b
  unfold metadata
  rcases units_step hd with ⟨h₁, hread, hd₁, hicy⟩ | ⟨hwhole, h₁, hread, -⟩ <;> rw [hread] <;>
    simp only
  -- a block without text keeps the title
  · by_cases hzero : units = 0
    · rw [if_pos hzero]
      obtain rfl : text = [] := List.length_eq_zero_iff.mp (by rw [hlen, hzero]; rfl)
      exact Or.inl ⟨_, rfl, hd₁, hicy, hicy, rfl⟩
    · rw [if_neg hzero, halloc, ← hlen]
      have hloop := metadataLoop_ok text.length [] hd₁ le_rfl
      rw [List.length_nil, Nat.zero_add, List.nil_append] at hloop
      rcases hloop with ⟨h₂, hloop, hd₂, hicy₂⟩ | ⟨hwhole, h₂, hloop, -⟩ <;> simp only [hloop]
      · obtain ⟨htitle, hhttp, hleft⟩ := retitle_title { r with http := h₂ } text
        refine Or.inl ⟨_, rfl, ?_, ?_, ?_, htitle⟩
        · rw [hhttp]
          exact hd₂
        · rw [hhttp]
          exact hicy₂.trans hicy
        · rw [hleft]
          exact hicy₂.trans hicy
      · exact Or.inr ⟨hwhole, _, rfl, rfl⟩
  · exact Or.inr ⟨hwhole, _, rfl, rfl⟩

/-- `metadata` where the body ends in front of a block or inside it. -/
theorem metadata_cut {b : MetaBlock} {part : List UInt8} (hd : Delivering r.http part whole)
    (hpart : part <+: b.wire) (hne : part ≠ b.wire) (hallocs : net.allocs = []) :
    ∃ r', metadata r net = (false, r', net) ∧ r'.title = r.title := by
  have halloc : net.alloc = (true, net) := by rw [Net.alloc, hallocs]
  obtain ⟨units, text, hlen⟩ := b
  unfold metadata
  cases part with
  | nil =>
      have hstep := gcHttpRead_step hd one_pos
      rcases hread : gcHttpRead r.http 1 with ⟨result, h₁⟩
      rw [hread] at hstep
      rcases hstep with ⟨bs, body, hne, -, hbody, -⟩ | ⟨-, -, hresult, -⟩ | ⟨-, hresult, -⟩
      · exact absurd (List.append_eq_nil_iff.mp hbody.symm).1 hne
      · obtain rfl : result = some [] := hresult
        exact ⟨_, rfl, rfl⟩
      · obtain rfl : result = none := hresult
        exact ⟨_, rfl, rfl⟩
  | cons u part =>
      obtain ⟨rfl, hpart⟩ := List.cons_prefix_cons.mp hpart
      -- The block's text is cut, so its loop fails.
      have hshort : part.length < text.length :=
        lt_of_le_of_ne hpart.length_le fun heq => hne (by rw [MetaBlock.wire, hpart.eq_of_length heq])
      rcases units_step hd with ⟨h₁, hread, hd₁, -⟩ | ⟨-, h₁, hread, -⟩ <;> rw [hread] <;> simp only
      · have hzero : u ≠ 0 := by
          rintro rfl
          rw [hlen] at hshort
          exact Nat.not_lt_zero _ hshort
        obtain ⟨h₂, hloop⟩ := metadataLoop_cut text.length [] hd₁
          (by rwa [List.length_nil, Nat.zero_add])
        rw [if_neg hzero, halloc, ← hlen]
        simp only [hloop]
        exact ⟨_, rfl, rfl⟩
      · exact ⟨_, rfl, rfl⟩

end Metadata

/-! ## One call -/

section Step

variable {interval left : ℕ} {s : Icy} {whole : Bool} {r : GcRadio κ} {net : Net κ} {len : ℤ}

/-- The radio stands at the start of the stream `s`. -/
structure Tuned (interval : ℕ) (s : Icy) (whole : Bool) (r : GcRadio κ) : Prop where
  delivering : Delivering r.http s.wire whole
  icyInterval : r.http.icyInterval = interval
  left : ∃ left : ℕ, r.audioLeft = left ∧ s.Ok interval left

/-- What one call may do, with `title` in front of it: return some of the next audio, with the
title that belongs to it; return 0 at an end inside audio; or return -1, and if all of the body
arrives only where a block is due that is not there. -/
def RadioStep (interval : ℕ) (s : Icy) (whole : Bool) (title : List UInt8)
    (r : Option (List UInt8) × GcRadio κ) : Prop :=
  (∃ bs s', bs ≠ [] ∧ r.1 = some bs ∧ Tuned interval s' whole r.2 ∧
    s.tagged title = bs.map (·, r.2.title) ++ s'.tagged r.2.title ∧
    s.finalTitle title = s'.finalTitle r.2.title ∧ s.last = s'.last) ∨
  (whole = true ∧ r.1 = some [] ∧ Tuned interval (.ends []) true r.2 ∧ s.tagged title = [] ∧
    s.finalTitle title = r.2.title ∧ s.last = some []) ∨
  (r.1 = none ∧ r.2.http.failed = true ∧ (whole = true → s.tagged title = [] ∧
    s.finalTitle title = r.2.title ∧ s.last = none))

/-- The stream behind some of the audio in front of the next block. -/
theorem Icy.Ok.advance (hok : s.Ok interval left) {bs body : List UInt8}
    (hwire : s.wire = bs ++ body) (hle : bs.length ≤ left) :
    ∃ s' : Icy, s'.Ok interval (left - bs.length) ∧ s'.wire = body ∧ s'.last = s.last ∧
      ∀ title, s.tagged title = bs.map (·, title) ++ s'.tagged title ∧
        s'.finalTitle title = s.finalTitle title := by
  -- The bytes read are audio, for they end in front of the next block.
  have hsplit : ∀ {audio tail : List UInt8}, audio ++ tail = bs ++ body → audio.length = left →
      ∃ audio', audio = bs ++ audio' ∧ body = audio' ++ tail := by
    intro audio tail heq hlen
    obtain ⟨audio', rfl⟩ : bs <+: audio :=
      List.prefix_of_prefix_length_le (heq ▸ List.prefix_append bs body) (List.prefix_append _ _)
        (hlen ▸ hle)
    rw [List.append_assoc] at heq
    exact ⟨audio', rfl, (List.append_cancel_left heq).symm⟩
  -- they are taken off the piece in front
  cases s with
  | ends audio =>
      obtain rfl : audio = bs ++ body := hwire
      refine ⟨.ends body, ?_, rfl, rfl, fun title => ⟨by simp [Icy.tagged], rfl⟩⟩
      have hlt : (bs ++ body).length < left := hok
      rw [List.length_append] at hlt
      show body.length < left - bs.length
      omega
  | cut audio part =>
      obtain ⟨hlen, hpart⟩ := hok
      obtain ⟨audio', rfl, rfl⟩ := hsplit hwire hlen
      refine ⟨.cut audio' part, ⟨?_, hpart⟩, rfl, rfl, fun title => ⟨by simp [Icy.tagged], rfl⟩⟩
      rw [← hlen, List.length_append, Nat.add_sub_cancel_left]
  | block audio b rest =>
      obtain ⟨hlen, hrest⟩ := hok
      obtain ⟨audio', rfl, rfl⟩ := hsplit hwire hlen
      refine ⟨.block audio' b rest, ⟨?_, hrest⟩, rfl, rfl,
        fun title => ⟨by simp [Icy.tagged], rfl⟩⟩
      rw [← hlen, List.length_append, Nat.add_sub_cancel_left]

/-- In front of a block there is audio. -/
theorem Icy.Ok.eq_ends (hok : s.Ok interval left) (hleft : 0 < left) (hwire : s.wire = []) :
    s = .ends [] := by
  have hempty : ∀ {audio tail : List UInt8}, audio ++ tail = [] → audio.length ≠ left := by
    intro audio tail heq hlen
    rw [(List.append_eq_nil_iff.mp heq).1] at hlen
    exact hleft.ne hlen
  cases s with
  | ends audio =>
      obtain rfl : audio = [] := hwire
      rfl
  | cut audio part => exact absurd hok.1 (hempty hwire)
  | block audio b rest => exact absurd hok.1 (hempty hwire)

/-- The last part of a call, in front of which no block is due. -/
theorem deliver_step (ht : Delivering r.http s.wire whole) (hinterval : r.http.icyInterval = interval)
    (hpos : 0 < interval) (haudio : r.audioLeft = left) (hok : s.Ok interval left) (hleft : 0 < left)
    (hlen : 0 < len) : RadioStep interval s whole r.title (r.deliver len) := by
  have hne : r.http.icyInterval ≠ 0 := by rw [hinterval]; omega
  unfold GcRadio.deliver
  generalize hm : (if r.http.icyInterval ≠ 0 ∧ r.audioLeft < len then r.audioLeft else len) = m
  -- A read never crosses the next block.
  have hbounds : 0 < m ∧ m ≤ left := by
    rw [← hm]
    split_ifs with hcase <;> omega
  have hicy := gcHttpRead_icyInterval r.http m
  have hstep := gcHttpRead_step ht hbounds.1
  rcases hread : gcHttpRead r.http m with ⟨result, http⟩
  rw [hread] at hstep hicy
  rcases hstep with ⟨bs, body, hbs, hle, hwire, hresult, hd⟩ | ⟨rfl, hwire, hresult, hd⟩ |
    ⟨rfl, hresult, hfailed⟩
  · obtain ⟨s', hok', rfl, hlast, htagged⟩ := hok.advance hwire (by omega)
    obtain ⟨b, bs, rfl⟩ := List.exists_cons_of_ne_nil hbs
    obtain rfl : result = some (b :: bs) := hresult
    refine Or.inl ⟨b :: bs, s', hbs, rfl, ⟨hd, hicy.trans hinterval, left - (b :: bs).length, ?_,
      hok'⟩, (htagged r.title).1, (htagged r.title).2.symm, hlast.symm⟩
    show (if http.icyInterval ≠ 0 then _ else _) = _
    rw [if_pos (hicy.trans_ne hne), haudio]
    omega
  · obtain rfl := hok.eq_ends hleft hwire
    obtain rfl : result = some [] := hresult
    exact Or.inr (Or.inl ⟨rfl, rfl, ⟨hd, hicy.trans hinterval, left, haudio, hleft⟩, rfl, rfl, rfl⟩)
  · obtain rfl : result = none := hresult
    exact Or.inr (Or.inr ⟨rfl, hfailed, nofun⟩)

/-- One call of `gc_radio_read`. -/
theorem gcRadioRead_step (ht : Tuned interval s whole r) (hpos : 0 < interval) (hlen : 0 < len)
    (hallocs : net.allocs = []) :
    RadioStep interval s whole r.title ((gcRadioRead r len net).1, (gcRadioRead r len net).2.1) ∧
      (gcRadioRead r len net).2.2 = net := by
  obtain ⟨hd, hinterval, left, haudio, hok⟩ := ht
  have hne : r.http.icyInterval ≠ 0 := by rw [hinterval]; omega
  unfold gcRadioRead
  -- a block is due when no audio is left in front of it
  by_cases hdue : left = 0
  · subst hdue
    rw [if_pos ⟨hne, haudio⟩]
    cases s with
    | ends audio => exact absurd hok (Nat.not_lt_zero _)
    | cut audio part =>
        obtain ⟨hnil, b, hpart, hpne⟩ := hok
        obtain rfl : audio = [] := List.length_eq_zero_iff.mp hnil
        obtain ⟨r', hmeta, htitle⟩ := metadata_cut hd hpart hpne hallocs
        rw [hmeta]
        exact ⟨Or.inr (Or.inr ⟨rfl, rfl, fun _ => ⟨rfl, htitle.symm, rfl⟩⟩), rfl⟩
    | block audio b rest =>
        obtain ⟨hnil, hrest⟩ := hok
        obtain rfl : audio = [] := List.length_eq_zero_iff.mp hnil
        rcases metadata_ok hd hallocs with ⟨r', hmeta, hd', hicy, haudio', htitle⟩ |
          ⟨rfl, r', hmeta, -⟩ <;> rw [hmeta]
        · have hstep := deliver_step hd' (hicy.trans hinterval) hpos (haudio'.trans hinterval) hrest
            hpos hlen
          rw [htitle] at hstep
          exact ⟨hstep, rfl⟩
        · exact ⟨Or.inr (Or.inr ⟨rfl, rfl, nofun⟩), rfl⟩
  · rw [if_neg (by rw [haudio]; omega)]
    exact ⟨deliver_step hd hinterval hpos haudio hok (Nat.pos_of_ne_zero hdue) hlen, rfl⟩

end Step

/-! ## Any sequence of calls -/

section Run

variable {interval : ℕ} {s : Icy} {whole : Bool} {r : GcRadio κ} {net : Net κ} {lens : List ℤ}

/-- The bytes of some results, each with the title behind the call. -/
def tagPieces (pieces : List (List UInt8 × List UInt8)) : List (UInt8 × List UInt8) :=
  pieces.flatMap fun p => p.1.map (·, p.2)

/-- The results are non-empty pieces of the audio from its start, each with the title that belongs
to it, and then always the same; if all of the body arrives that is not before the end of the
audio, and it is what the end of the stream says. -/
def Demuxes (s : Icy) (whole : Bool) (title : List UInt8)
    (results : List (Option (List UInt8) × List UInt8)) : Prop :=
  ∃ pieces n last final,
    results = pieces.map (fun p => (some p.1, p.2)) ++ List.replicate n (last, final) ∧
    (∀ p ∈ pieces, p.1 ≠ []) ∧ tagPieces pieces <+: s.tagged title ∧
    (n ≠ 0 → if whole then
        tagPieces pieces = s.tagged title ∧ last = s.last ∧ final = s.finalTitle title
      else last = none)

/-- Behind a failure a call fails, and keeps the title. -/
theorem gcRadioRead_of_failed (hfailed : r.http.failed = true) (len : ℤ) (net : Net κ) :
    ∃ r', gcRadioRead r len net = (none, r', net) ∧ r'.http.failed = true ∧
      r'.title = r.title := by
  have hread : ∀ len, gcHttpRead r.http len = (none, r.http) := fun len => by
    rw [gcHttpRead, if_pos hfailed]
  unfold gcRadioRead metadata GcRadio.deliver
  simp only [hread]
  split_ifs
  · exact ⟨_, rfl, rfl, rfl⟩
  · exact ⟨_, rfl, hfailed, rfl⟩

/-- Behind a failure every call fails. -/
theorem radioReads_of_failed (hfailed : r.http.failed = true) (lens : List ℤ) (net : Net κ) :
    radioReads r lens net = List.replicate lens.length (none, r.title) := by
  induction lens generalizing r with
  | nil => rfl
  | cons len lens ih =>
      obtain ⟨r', hcall, hfailed', htitle⟩ := gcRadioRead_of_failed hfailed len net
      rw [radioReads, hcall, List.length_cons, List.replicate_succ, ih hfailed', htitle]

/-- Behind the end of the body every call gives nothing. -/
theorem radioReads_of_ended (ht : Tuned interval (.ends []) true r) (hpos : 0 < interval)
    (hlens : ∀ len ∈ lens, 0 < len) (hallocs : net.allocs = []) :
    radioReads r lens net = List.replicate lens.length (some [], r.title) := by
  induction lens generalizing r with
  | nil => rfl
  | cons len lens ih =>
      obtain ⟨hstep, hnet⟩ := gcRadioRead_step ht hpos (hlens len List.mem_cons_self) hallocs
      rcases hstep with ⟨bs, s', hne, -, -, htagged, -⟩ | ⟨-, hresult, ht', -, htitle, -⟩ |
        ⟨-, -, hlast⟩
      · exact absurd (List.append_eq_nil_iff.mp htagged.symm).1 (by simpa using hne)
      · simp only at hresult ht' htitle
        have htitle' : r.title = (gcRadioRead r len net).2.1.title := htitle
        rw [radioReads, hresult, hnet, ih ht' fun l hl => hlens l (List.mem_cons_of_mem len hl),
          List.length_cons, List.replicate_succ, ← htitle']
      · cases (hlast rfl).2.2

/-- A sequence of calls, from any point of the stream. -/
theorem radioReads_demuxes (ht : Tuned interval s whole r) (hpos : 0 < interval)
    (hlens : ∀ len ∈ lens, 0 < len) (hallocs : net.allocs = []) :
    Demuxes s whole r.title (radioReads r lens net) := by
  -- One read after the other, from the place the last one has left.
  induction lens generalizing s r with
  | nil => exact ⟨[], 0, none, [], rfl, nofun, List.nil_prefix, fun h => absurd rfl h⟩
  | cons len lens ih =>
      have htail : ∀ len ∈ lens, 0 < len := fun l hl => hlens l (List.mem_cons_of_mem len hl)
      obtain ⟨hstep, hnet⟩ := gcRadioRead_step ht hpos (hlens len List.mem_cons_self) hallocs
      rw [radioReads, hnet]
      rcases hcall : gcRadioRead r len net with ⟨result, r', net'⟩
      rw [hcall] at hstep
      rcases hstep with ⟨bs, s', hne, hresult, ht', htagged, hfinal, hlast⟩ |
        ⟨rfl, hresult, ht', htagged, hfinal, hlast⟩ | ⟨hresult, hfailed, hend⟩
      -- audio bytes come, behind the titles in front of them
      · obtain rfl : result = some bs := hresult
        obtain ⟨pieces, n, last, final, hreads, hnil, hpre, hall⟩ := ih ht' htail
        refine ⟨(bs, r'.title) :: pieces, n, last, final, by rw [hreads]; rfl, ?_, ?_, fun hn => ?_⟩
        · exact List.forall_mem_cons.mpr ⟨hne, hnil⟩
        · rw [htagged]
          exact (List.prefix_append_right_inj _).mpr hpre
        · have hrest := hall hn
          cases whole with
          | false => exact hrest
          | true =>
              obtain ⟨heq, hlast', hfinal'⟩ := hrest
              refine ⟨?_, hlast'.trans hlast.symm, hfinal'.trans hfinal.symm⟩
              rw [htagged, ← heq]
              rfl
      · -- the end inside audio: 0 for ever
        obtain rfl : result = some [] := hresult
        refine ⟨[], lens.length + 1, some [], r'.title, ?_, nofun, List.nil_prefix,
          fun _ => ⟨htagged.symm, hlast.symm, hfinal.symm⟩⟩
        rw [radioReads_of_ended ht' hpos htail hallocs, List.replicate_succ]
        rfl
      -- the stream is cut
      · obtain rfl : result = none := hresult
        refine ⟨[], lens.length + 1, none, r'.title, ?_, nofun, List.nil_prefix, fun _ => ?_⟩
        · rw [radioReads_of_failed hfailed, List.replicate_succ]
          rfl
        · cases whole with
          | false => rfl
          | true =>
              obtain ⟨htagged, hfinal, hlast⟩ := hend rfl
              exact ⟨htagged.symm, hlast.symm, hfinal.symm⟩

/-- The pieces that have some audio are counted by their bytes. -/
theorem length_tagPieces {pieces : List (List UInt8 × List UInt8)} (hnil : ∀ p ∈ pieces, p.1 ≠ []) :
    pieces.length ≤ (tagPieces pieces).length := by
  induction pieces with
  | nil => exact Nat.zero_le _
  | cons p pieces ih =>
      obtain ⟨hp, hrest⟩ := List.forall_mem_cons.mp hnil
      have hlen := ih hrest
      have hpos := List.length_pos_iff.mpr hp
      simp only [tagPieces, List.flatMap_cons, List.length_append, List.length_map,
        List.length_cons] at hlen ⊢
      omega

/-- The tagged pieces are the audio. -/
theorem map_tagPieces (pieces : List (List UInt8 × List UInt8)) :
    (tagPieces pieces).map Prod.fst = pieces.flatMap Prod.fst := by
  induction pieces with
  | nil => rfl
  | cons p pieces ih =>
      simp only [tagPieces, List.flatMap_cons, List.map_append, List.map_map] at ih ⊢
      rw [ih]
      simp [Function.comp_def]

/-- The last title is the one that was said last, or none. -/
theorem Icy.last_getD (s : Icy) : s.last.getD [] = [] := by
  induction s with
  | ends audio => rfl
  | cut audio part => rfl
  | block audio b rest ih => exact ih

/-- More calls than there are bytes of audio return all of it. -/
theorem Demuxes.audio {title : List UInt8} {results : List (Option (List UInt8) × List UInt8)}
    (hd : Demuxes s true title results) (hmany : s.audio.length < results.length) :
    results.flatMap (fun p => p.1.getD []) = s.audio := by
  obtain ⟨pieces, n, last, final, rfl, hnil, hpre, hall⟩ := hd
  have hlen : (s.tagged title).length = s.audio.length := by
    rw [← Icy.map_tagged title s, List.length_map]
  have hn : n ≠ 0 := by
    rintro rfl
    have hle := hpre.length_le
    have hpieces := length_tagPieces hnil
    rw [List.length_append, List.length_map, List.length_replicate] at hmany
    omega
  obtain ⟨heq, rfl, rfl⟩ := hall hn
  have hrest : (List.replicate n (s.last, s.finalTitle title)).flatMap (fun p => p.1.getD []) = [] :=
    List.flatMap_eq_nil_iff.mpr fun p hp => by
      rw [(List.mem_replicate.mp hp).2]
      exact s.last_getD
  rw [List.flatMap_append, hrest, List.append_nil, List.flatMap_map, ← Icy.map_tagged title s, ← heq,
    map_tagPieces]
  rfl

/-- Each call gives one result. -/
theorem length_radioReads (r : GcRadio κ) (lens : List ℤ) (net : Net κ) :
    (radioReads r lens net).length = lens.length := by
  induction lens generalizing r net with
  | nil => rfl
  | cons len lens ih => exact congrArg Nat.succ (ih _ _)

/-- Whatever arrives is a stream with blocks behind every `interval` bytes. -/
theorem exists_icy (hpos : 0 < interval) (body : List UInt8) :
    ∃ s : Icy, s.Ok interval interval ∧ s.wire = body := by
  induction hlen : body.length using Nat.strong_induction_on generalizing body with
  | _ n ih =>
      subst hlen
      by_cases hshort : body.length < interval
      · exact ⟨.ends body, hshort, rfl⟩
      have htake : (body.take interval).length = interval := by
        rw [List.length_take]
        omega
      have hbody := List.take_append_drop interval body
      rcases hdrop : body.drop interval with _ | ⟨u, tail⟩
      · rw [hdrop, List.append_nil] at hbody
        exact ⟨.cut (body.take interval) [], ⟨htake, ⟨0, [], rfl⟩, List.nil_prefix, nofun⟩,
          (List.append_nil _).trans hbody⟩
      rw [hdrop] at hbody
      by_cases hcut : tail.length < u.toNat * 16
      · -- the block that is due, filled up with zeros
        refine ⟨.cut (body.take interval) (u :: tail), ⟨htake,
          ⟨u, tail ++ List.replicate (u.toNat * 16 - tail.length) 0, ?_⟩, ?_, ?_⟩, hbody⟩
        · rw [List.length_append, List.length_replicate]
          omega
        · exact List.cons_prefix_cons.mpr ⟨rfl, List.prefix_append _ _⟩
        · intro heq
          have hsame := congrArg List.length (List.cons.inj heq).2
          rw [List.length_append, List.length_replicate] at hsame
          omega
      · have hsum := congrArg List.length hbody
        rw [List.length_append, List.length_cons] at hsum
        obtain ⟨s, hok, hwire⟩ := ih (tail.drop (u.toNat * 16)).length
          (by rw [List.length_drop]; omega) _ rfl
        refine ⟨.block (body.take interval) ⟨u, tail.take (u.toNat * 16), ?_⟩ s, ⟨htake, hok⟩, ?_⟩
        · rw [List.length_take]
          omega
        · show body.take interval ++ (u :: tail.take (u.toNat * 16) ++ s.wire) = body
          rw [hwire, List.cons_append, List.take_append_drop, hbody]

/-- However the body is framed, however the socket cuts it into pieces and however many bytes are
asked for each time: the results are the audio without the blocks, each piece with the title of the
last block in front of it, and then 0 for ever if the body ends inside audio, and -1 for ever if it
ends where a block is due. More calls than there are bytes of audio return all of it. If the
connection is cut before the end of the body, they return a part of it and then -1. Every body is
such a stream, and a block changes the title to the one it has, if any. -/
theorem gcRadioRead_demuxes {f : Framing} (hs : Starts r.http f) (hpos : 0 < interval)
    (hinterval : r.http.icyInterval = interval) (haudio : r.audioLeft = interval)
    (hlens : ∀ len ∈ lens, 0 < len) (hallocs : net.allocs = []) :
    ∃ s : Icy, s.wire = f.body ∧ s.Ok interval interval ∧
      ∀ s : Icy, s.wire = f.body → s.Ok interval interval →
        (ArrivesWhole f r.http → Demuxes s true r.title (radioReads r lens net) ∧
          (s.audio.length < lens.length →
            (radioReads r lens net).flatMap (fun p => p.1.getD []) = s.audio)) ∧
        (ArrivesCut f r.http → Demuxes s false r.title (radioReads r lens net)) ∧
        ∀ (b : MetaBlock) (old : List UInt8), TitleIn b.text (b.title old) ∨
          b.title old = old ∧ ∀ title, ¬ TitleIn b.text title := by
  obtain ⟨s, hok, hwire⟩ := exists_icy hpos f.body
  refine ⟨s, hwire, hok, fun s hwire hok => ⟨fun hw => ?_, fun hc => ?_, MetaBlock.title_spec⟩⟩
  · have htuned : Tuned interval s true r :=
      ⟨hwire ▸ hs.delivering_whole hw, hinterval, interval, haudio, hok⟩
    have hdemux := radioReads_demuxes htuned hpos hlens hallocs
    exact ⟨hdemux, fun hmany => hdemux.audio ((length_radioReads r lens net).symm ▸ hmany)⟩
  · have htuned : Tuned interval s false r :=
      ⟨hwire ▸ hs.delivering_cut hc, hinterval, interval, haudio, hok⟩
    exact radioReads_demuxes htuned hpos hlens hallocs

end Run

section Sample

/-- The first four bytes of audio and the start of a block, `8`. -/
def radioChunkA : Chunk where
  sizeLine :=
    { digits := ascii "8", ext := [], digits_ne := by decide,
      digits_hex := by simp [ascii, isXDigit, isDigit], ext_start := ext_start_nil,
      ext_bytes := lineBytes_nil, fits := by decide }
  data := ascii "ABCD" ++ 1 :: ascii "Str"
  data_ne := by decide
  size_eq := by decide
  size_lt := by decide

/-- The rest of the block and two bytes of audio, `f`. -/
def radioChunkB : Chunk where
  sizeLine :=
    { digits := ascii "f", ext := [], digits_ne := by decide,
      digits_hex := by simp [ascii, isXDigit, isDigit], ext_start := ext_start_nil,
      ext_bytes := lineBytes_nil, fits := by decide }
  data := ascii "eamTitle='x';EF"
  data_ne := by decide
  size_eq := by decide
  size_lt := by decide

def radioFraming : Framing := .chunked [radioChunkA, radioChunkB] lastChunk

/-- The pieces are cut inside the first chunk and inside the title. -/
def radioInput : List Event :=
  unread (radioFraming.wire.take 6) (unread ((radioFraming.wire.drop 6).take 20)
    (unread (radioFraming.wire.drop 26) []))

/-- A radio at the start of a body with a block behind every four bytes of audio. -/
def tunedRadio : GcRadio Unit where
  http := { received radioInput true (-1) with icyInterval := 4 }
  audioLeft := 4
  title := []
  titleChanged := false

/-- The stream of the body. -/
def radioIcy : Icy :=
  .block (ascii "ABCD") ⟨1, ascii "StreamTitle='x';", by decide⟩ (.ends (ascii "EF"))

def noNet : Net Unit := ⟨[], [], [], []⟩

theorem gcRadioRead_demuxes_radioIcy :
    Demuxes radioIcy true [] (radioReads tunedRadio [3, 3, 1, 9, 9, 9, 9] noNet) ∧
      (radioReads tunedRadio [3, 3, 1, 9, 9, 9, 9] noNet).flatMap (fun p => p.1.getD []) =
        ascii "ABCDEF" := by
  have hpending : tunedRadio.http.pending = radioFraming.wire := by decide +kernel
  have hstarts : Starts tunedRadio.http radioFraming := ⟨rfl, rfl, rfl, rfl, rfl, rfl⟩
  have hlens : ∀ len ∈ ([3, 3, 1, 9, 9, 9, 9] : List ℤ), 0 < len := by decide
  have hallocs : noNet.allocs = [] := rfl
  obtain ⟨-, -, -, hall⟩ := gcRadioRead_demuxes hstarts (show 0 < 4 by decide) rfl rfl hlens hallocs
  have hwhole : radioFraming.wire <+: tunedRadio.http.pending := hpending ▸ List.prefix_refl _
  obtain ⟨hdemux, haudio⟩ := (hall radioIcy (by decide +kernel) ⟨rfl, show 2 < 4 by decide⟩).1 hwhole
  exact ⟨hdemux, haudio (by decide)⟩

-- the title is shown from the first byte behind the block on
example : radioReads tunedRadio [3, 3, 1, 9, 9] noNet =
    [(some (ascii "ABC"), []), (some (ascii "D"), []), (some (ascii "E"), ascii "x"),
      (some (ascii "F"), ascii "x"), (some [], ascii "x")] := by
  decide +kernel

end Sample

end WiiMC.Http
