import CLex.Proofs.Advancing
import CLex.Proofs.Position
import CLex.Proofs.Quoting
import CLex.Proofs.Reporting

namespace CLex

open Character Lexer LexM Lines Numeral

namespace Decoding

inductive Piece where
  | raw (b : UInt8)
  | simple (c : UInt8)
  | octal (digits : List UInt8)
  | hex (digits : List UInt8)
  /-- A universal character name of four digits. -/
  | short (digits : List UInt8)
  /-- A universal character name of eight digits. -/
  | long (digits : List UInt8)
  | unknown (c : UInt8)
  deriving DecidableEq, Repr

namespace Piece

def spelling : Piece → List UInt8
  | raw b => [b]
  | simple c | unknown c => [backslash, c]
  | octal digits => backslash :: digits
  | hex digits => backslash :: byte 'x' :: digits
  | short digits => backslash :: byte 'u' :: digits
  | long digits => backslash :: byte 'U' :: digits

/-- The bytes that the piece stands for. A number of octal or hexadecimal digits counts modulo 256,
as one byte does. -/
def content : Piece → List UInt8
  | raw b | unknown b => [b]
  | simple c => [UInt8.ofNat ((simpleEscape? c).getD 0)]
  | octal digits => [UInt8.ofNat (octalNumber digits)]
  | hex digits => [UInt8.ofNat (hexNumber digits)]
  | short digits | long digits => Utf8.sequence (hexNumber digits)

def IsSound : Piece → Prop
  | raw b => b ∉ [doubleQuote, backslash, carriageReturn]
  | simple c => (simpleEscape? c).isSome = true
  | octal digits => IsOctal digits ∧ digits ≠ [] ∧ digits.length ≤ 3
  | hex digits => IsHex digits ∧ digits ≠ []
  | short digits => IsHex digits ∧ digits.length = 4 ∧ isUniversal (hexNumber digits) = true
  | long digits =>
      IsHex digits ∧ digits.length = 8 ∧ isUniversal (hexNumber digits) = true ∧
        hexNumber digits < 0x200000
  | unknown c =>
      simpleEscape? c = none ∧ isOctalDigit c.toNat = false ∧
        c ∉ [byte 'x', byte 'u', byte 'U', newline, carriageReturn]

instance : (piece : Piece) → Decidable piece.IsSound
  | raw b => inferInstanceAs (Decidable (b ∉ _))
  | simple c => inferInstanceAs (Decidable ((simpleEscape? c).isSome = true))
  | octal _ | hex _ | short _ | long _ | unknown _ => inferInstanceAs (Decidable (_ ∧ _))

/-- Whether the piece ends before `rest`. Digits go on as far as they can, but for the octal ones
after the third and those of universal character names. -/
def EndsAt : Piece → (rest : List UInt8) → Prop
  | octal digits, rest =>
      digits.length < 3 → rest.head?.any (fun d => isOctalDigit d.toNat) = false
  | hex _, rest => rest.head?.any (fun d => (hexValue? d.toNat).isSome) = false
  | _, _ => True

instance : (piece : Piece) → (rest : List UInt8) → Decidable (piece.EndsAt rest)
  | octal digits, _ => inferInstanceAs (Decidable (digits.length < 3 → _))
  | hex _, _ => inferInstanceAs (Decidable (_ = false))
  | raw _, _ | simple _, _ | short _, _ | long _, _ | unknown _, _ =>
      inferInstanceAs (Decidable True)

/-- The warning of a piece at this place, as it is shown. -/
def warning? (location : Location) : Piece → Option String
  | unknown c =>
      some (Collector.warningText (some location) ("unknown escape character: \\" ++ text c))
  | _ => none

end Piece

def spelled (pieces : List Piece) : List UInt8 :=
  pieces.flatMap Piece.spelling

/-- Every piece is one, and it ends where the next one begins. -/
def Sound : List Piece → Prop
  | [] => True
  | piece :: pieces => piece.IsSound ∧ piece.EndsAt (spelled pieces) ∧ Sound pieces

instance decidableSound : (pieces : List Piece) → Decidable (Sound pieces)
  | [] => inferInstanceAs (Decidable True)
  | _ :: pieces =>
      have := decidableSound pieces
      inferInstanceAs (Decidable (_ ∧ _ ∧ _))

/-- The place behind a text. -/
def placeBehind (name : String) (text : List UInt8) : Location :=
  ⟨name, (placeAfter text).1, (placeAfter text).2⟩

/-- The warnings of some pieces that come behind a text, in order and as they are shown. -/
def warnings (name : String) : (before : List UInt8) → List Piece → List String
  | _, [] => []
  | before, piece :: pieces =>
      (piece.warning? (placeBehind name before)).toList ++
        warnings name (before ++ piece.spelling) pieces

theorem spelled_cons (piece : Piece) (pieces : List Piece) :
    spelled (piece :: pieces) = piece.spelling ++ spelled pieces :=
  rfl

theorem Piece.EndsAt.quote {piece : Piece} {pieces : List Piece}
    (h : piece.EndsAt (spelled pieces)) (rest : List UInt8) :
    piece.EndsAt (spelled pieces ++ doubleQuote :: rest) := by
  have hany : ∀ p : UInt8 → Bool, p doubleQuote = false →
      (spelled pieces).head?.any p = false →
      (spelled pieces ++ doubleQuote :: rest).head?.any p = false := by
    intro p hquote hp
    cases hspelled : spelled pieces with
    | nil => exact hquote
    | cons c text =>
        rw [hspelled] at hp
        exact hp
  cases piece with
  | octal digits => exact fun hcount => hany _ (by decide) (h hcount)
  | hex digits => exact hany _ (by decide) h
  | _ => trivial

theorem Piece.IsSound.not_mem {piece : Piece} (h : piece.IsSound) :
    carriageReturn ∉ piece.spelling := by
  have hoctal : ∀ {digits}, IsOctal digits → carriageReturn ∉ digits :=
    fun hdigits hmem => absurd (hdigits _ hmem) (by decide)
  have hhex : ∀ {digits}, IsHex digits → carriageReturn ∉ digits :=
    fun hdigits hmem => absurd (hdigits _ hmem) (by decide)
  have hcons : ∀ {c : UInt8} {text : List UInt8}, carriageReturn ≠ c → carriageReturn ∉ text →
      carriageReturn ∉ c :: text := fun hc htext => List.not_mem_cons_of_ne_of_not_mem hc htext
  cases piece with
  | raw b =>
      refine hcons ?_ List.not_mem_nil
      rintro rfl
      exact h (by decide)
  | simple c =>
      refine hcons (by decide) (hcons ?_ List.not_mem_nil)
      rintro rfl
      exact absurd h (by decide)
  | octal digits => exact hcons (by decide) (hoctal h.1)
  | hex digits => exact hcons (by decide) (hcons (by decide) (hhex h.1))
  | short digits => exact hcons (by decide) (hcons (by decide) (hhex h.1))
  | long digits => exact hcons (by decide) (hcons (by decide) (hhex h.1))
  | unknown c =>
      refine hcons (by decide) (hcons ?_ List.not_mem_nil)
      rintro rfl
      exact h.2.2 (by decide)

theorem Sound.not_mem {pieces : List Piece} (h : Sound pieces) :
    carriageReturn ∉ spelled pieces := by
  induction pieces with
  | nil => exact List.not_mem_nil
  | cons piece pieces ih =>
      rw [spelled_cons, List.mem_append, not_or]
      exact ⟨h.1.not_mem, ih h.2.2⟩

theorem Piece.IsSound.unmarked {c : UInt8} (h : (simple c).IsSound ∨ (unknown c).IsSound) :
    isUniversalMark c.toNat = false := by
  have hmarks : c ∉ [byte 'u', byte 'U'] := by
    intro hmem
    rcases h with hsimple | hunknown
    · have hnone : ∀ c ∈ [byte 'u', byte 'U'], simpleEscape? c = none := by
        decide +kernel
      rw [IsSound, hnone c hmem] at hsimple
      cases hsimple
    · refine hunknown.2.2 ?_
      rw [List.mem_cons, List.mem_singleton] at hmem
      rcases hmem with rfl | rfl
      · decide
      · decide
  refine Bool.eq_false_iff.mpr fun hmark => hmarks ?_
  rw [isUniversalMark, Bool.or_eq_true, beq_iff_eq, beq_iff_eq] at hmark
  rw [List.mem_cons, List.mem_singleton, ← UInt8.toNat_inj, ← UInt8.toNat_inj]
  exact hmark

end Decoding

namespace Outlook

open Decoding

variable {σ : Type} [CharStream σ] {O : Outlook σ} {text rest : List UInt8}

theorem reads_stringRound_universal {n : Nat} (h : n < 0x200000)
    (hmark : text.head?.any (fun c => isUniversalMark c.toNat) = true)
    (hescape : O.Reads text escape (· = n) rest) (before : List UInt8) :
    O.Reads (backslash :: text) (stringRound before)
      (· = .again ((Utf8.sequence n).reverse ++ before)) rest := by
  refine reads_next.bind_eq ?_
  dsimp only
  rw [if_neg (by decide), if_pos rfl]
  refine (reads_peekIs _).bind_eq (hescape.bind_eq ?_)
  rw [hmark, if_pos rfl]
  exact (reads_universalBytes h).bind_eq (reads_pure rfl)

theorem reads_piece {piece : Piece} (hsound : piece.IsSound) (hends : piece.EndsAt rest)
    (hknown : ∀ c, piece ≠ .unknown c) (before : List UInt8) :
    O.Reads (piece.spelling ++ rest) (stringRound before)
      (· = .again (piece.content.reverse ++ before)) rest := by
  cases piece with
  | raw b =>
      have hquote : b ≠ doubleQuote := fun heq => hsound (by simp [heq])
      have hbackslash : b ≠ backslash := fun heq => hsound (by simp [heq])
      exact reads_stringRound_plain hquote hbackslash before
  | simple c =>
      rcases Option.isSome_iff_exists.mp (show (simpleEscape? c).isSome = true from hsound) with
        ⟨value, hvalue⟩
      rw [Piece.content, hvalue]
      exact reads_stringRound_escape (by exact Piece.IsSound.unmarked (Or.inl hsound))
        (reads_escape_simple hvalue) before
  | octal digits =>
      exact reads_stringRound_escape (hsound.1.head?_mark hsound.2.1 rest)
        (reads_escape_octal hsound.1 hsound.2.1 hsound.2.2 hends) before
  | hex digits =>
      exact reads_stringRound_escape rfl (reads_escape_hex hsound.1 hsound.2 hends) before
  | short digits =>
      have hlt : hexNumber digits < 0x200000 :=
        Nat.lt_trans (hsound.1.number_lt hsound.2.1) (by decide)
      exact reads_stringRound_universal hlt rfl
        (reads_escape_universal hsound.1 hsound.2.1 hsound.2.2) before
  | long digits =>
      exact reads_stringRound_universal hsound.2.2.2 rfl
        (reads_escape_universal_long hsound.1 hsound.2.1 hsound.2.2.1) before
  | unknown c => exact absurd rfl (hknown c)

end Outlook

namespace Decoding

/-- A lexer of a book without pages, when it has shown these warnings. -/
def noting (options : Options) (shown : List String) : Lexer Book :=
  { idle options with
    stream := { pages := [], notes := shown.reverse }
    collector := shown.foldl Collector.keep (.empty options.maxWarnings) }

theorem noting_snoc (options : Options) (shown : List String) (warning : String) :
    noting options (shown ++ [warning]) =
      { noting options shown with
        stream := { pages := [], notes := warning :: shown.reverse }
        collector := (noting options shown).collector.keep warning } := by
  rw [noting, List.reverse_append, List.foldl_append]
  rfl

/-- The outlook of a lexer that has shown these warnings: but for them, it has changed in nothing
but its page and its mark. -/
def noted (name : String) (options : Options) (shown : List String) : Outlook Book where
  faces text lx := ∃ p mark, lx = ({ noting options shown with mark } : Lexer Book).withPages [p] ∧
    p.name = name ∧ p.rest = text ∧ Unjoined text
  sound := Unjoined
  sound_of_faces := by
    rintro text lx ⟨_, _, -, -, -, h⟩
    exact h
  pending := by
    rintro text lx ⟨p, mark, rfl, -⟩
    rfl
  next_ok := by
    rintro c rest lx ⟨p, mark, rfl, hname, hp, h⟩
    exact ⟨_, next?_settled rfl (fun _ => hp.symm ▸ h) hp, _, mark, rfl,
      (Page.name_advance _ c).trans hname, Page.rest_advance _ c, h.tail⟩
  next_end := by
    rintro lx ⟨p, mark, rfl, hname, hp, h⟩
    exact ⟨_, next?_end rfl hp, p, mark, rfl, hname, hp, h⟩
  unread_ok := by
    rintro c rest lx hsound ⟨p, mark, rfl, hname, rfl, -⟩
    exact ⟨_, unread_pages rfl c, _, mark, rfl, (Page.name_putBack p c).trans hname,
      Page.rest_putBack p c, hsound⟩
  setMark_ok := by
    rintro text lx ⟨p, mark, rfl, hp⟩
    exact ⟨_, setMark_pages rfl, p, (p.line, p.column), rfl, hp⟩
  needSource_ok := by
    rintro text lx ⟨p, mark, rfl, -⟩
    exact needSource_pages rfl
  finish_ok := by
    rintro text lx ⟨p, mark, rfl, hp⟩ lexeme encoding
    exact ⟨_, _, finish_pages rfl lexeme encoding, rfl, _, mark, rfl, hp⟩

/-- A lexer amid a text, at its place. -/
structure Amid (name : String) (options : Options) (shown : List String)
    (before rest : List UInt8) (lx : Lexer Book) : Prop where
  faces : (noted name options shown).faces rest lx
  loose : ∃ mark, Position.On mark (Tracking.Loose (before ++ rest)) lx

variable {name : String} {options : Options} {shown : List String} {before rest : List UInt8}
  {lx lx' : Lexer Book}

theorem Amid.page (h : Amid name options shown before rest lx) (hrest : rest.head? ≠ some newline) :
    ∃ p mark, lx = ({ noting options shown with mark } : Lexer Book).withPages [p] ∧
      p.rest = rest ∧ Unjoined rest ∧ p.location = placeBehind name before := by
  rcases h.faces with ⟨p, mark, rfl, hname, hp, hunjoined⟩
  rcases h.loose with ⟨_, q, hpages, -, -, -, before', htracked⟩
  cases hpages
  have hbefore : before = before' := by
    have htext := htracked.text_eq
    rw [hp] at htext
    exact List.append_cancel_right htext
  subst hbefore
  refine ⟨p, mark, rfl, hp, hunjoined, ?_⟩
  have hcolumn : p.column = (placeAfter before).2 := by
    rcases htracked.column with hcolumn | ⟨-, hline⟩
    · exact hcolumn
    · exact absurd (hp ▸ hline) hrest
  rw [Page.location, placeBehind, hname, htracked.line, hcolumn]

theorem warn_shown {σ : Type} [CharStream σ] {lx : Lexer σ}
    (henabled : lx.options.enableWarnings = true) (hlenient : lx.options.warningsAsErrors = false)
    (location : Location) (text : String) :
    warn location text lx =
      .ok () { lx with
        collector := lx.collector.keep (Collector.warningText location text)
        stream := CharStream.note lx.stream (Collector.warningText location text) } := by
  rw [warn, if_pos henabled, hlenient, if_neg (by simp)]
  rfl

theorem escapeFrom_unknown {σ : Type} [CharStream σ] {c : UInt8} (hc : (Piece.unknown c).IsSound)
    (start : Location) :
    escapeFrom (σ := σ) start c =
      (do
        warn start ("unknown escape character: \\" ++ text c)
        pure c.toNat) := by
  have hletters : c ≠ byte 'x' ∧ c ≠ byte 'u' ∧ c ≠ byte 'U' :=
    ⟨fun heq => hc.2.2 (by simp [heq]), fun heq => hc.2.2 (by simp [heq]),
      fun heq => hc.2.2 (by simp [heq])⟩
  rw [escapeFrom, hc.1]
  dsimp only
  rw [if_neg hletters.1, if_neg hletters.2.1, if_neg hletters.2.2, if_neg (by simp [hc.2.1])]

theorem stringRound_unknown {c : UInt8} {p : Page} {below : List Page}
    (hc : (Piece.unknown c).IsSound) (h : lx.stream.pages = p :: below)
    (hp : p.rest = backslash :: c :: rest) (henabled : lx.options.enableWarnings = true)
    (hlenient : lx.options.warningsAsErrors = false) (content : List UInt8) :
    let warning := Collector.warningText p.location ("unknown escape character: \\" ++ text c)
    stringRound content lx =
      .ok (.again (c :: content)) { lx.withPages (p.along 2 rest :: below) with
        collector := lx.collector.keep warning
        stream := CharStream.note (lx.withPages (p.along 2 rest :: below)).stream warning } := by
  intro warning
  have hline : c ≠ newline := fun heq => hc.2.2 (by simp [heq])
  have hbackslash : c ≠ backslash := by
    rintro rfl
    exact absurd hc.1 (by decide)
  let q := p.along 1 (c :: rest)
  have hfirst : next? lx = .ok (some backslash) (lx.withPages (q :: below)) := by
    rw [next?_cons h hp fun _ heq => hline (by simpa using heq.2),
      Page.advance_eq_along (by decide)]
  have hsecond : next? (lx.withPages (q :: below)) =
      .ok (some c) (lx.withPages (p.along 2 rest :: below)) := by
    have hnext := next?_along (t := lx.withPages (q :: below)) (p := q) rfl rfl hline hbackslash
    rwa [withPages_withPages, Page.along_along] at hnext
  -- The character behind the backslash is looked at before it is read.
  have hpeek : peekIs (fun c => isUniversalMark c.toNat) (lx.withPages (q :: below)) =
      .ok false (lx.withPages (q :: below)) := by
    have hback : (p.along 2 rest).putBack c = q := by
      have halong : (p.along 1 (c :: rest)).along 1 rest = p.along 2 rest := Page.along_along 1 1
      rw [← halong, ← Page.advance_eq_along hline, Page.putBack_advance _ _ hline]
      rfl
    rw [peekIs, LexM.bind_of_ok hsecond]
    dsimp only
    rw [LexM.bind_of_ok (unread_pages rfl c), withPages_withPages, hback,
      Piece.IsSound.unmarked (Or.inr hc)]
    rfl
  have hplace : (CharStream.location (lx.withPages (q :: below)).stream).back 1 = p.location := by
    rw [location_pages rfl, Location.back, Page.location, Page.location]
    simp [q, Page.along]
  have hhere : here 1 (lx.withPages (q :: below)) =
      .ok p.location (lx.withPages (q :: below)) := by
    rw [here, hplace]
  rw [stringRound, LexM.bind_of_ok hfirst]
  dsimp only
  rw [if_neg (by decide), if_pos rfl, LexM.bind_of_ok hpeek, escape, bind_assoc,
    LexM.bind_of_ok hhere, bind_assoc, LexM.bind_of_ok hsecond]
  dsimp only
  have henabled' : (lx.withPages (p.along 2 rest :: below)).options.enableWarnings = true := henabled
  have hwarn := warn_shown henabled' hlenient p.location ("unknown escape character: \\" ++ text c)
  rw [escapeFrom_unknown hc, bind_assoc, LexM.bind_of_ok hwarn, pure_bind, if_neg (by simp),
    UInt8.ofNat_toNat]
  rfl

theorem Amid.round {piece : Piece} (h : Amid name options shown before (piece.spelling ++ rest) lx)
    (hsound : piece.IsSound) (hends : piece.EndsAt rest) (henabled : options.enableWarnings = true)
    (hlenient : options.warningsAsErrors = true → ∀ c, piece ≠ .unknown c) (content : List UInt8) :
    ∃ lx', stringRound content lx = .ok (.again (piece.content.reverse ++ content)) lx' ∧
      Amid name options (shown ++ (piece.warning? (placeBehind name before)).toList)
        (before ++ piece.spelling) rest lx' := by
  have hround : ∃ lx', stringRound content lx =
        .ok (.again (piece.content.reverse ++ content)) lx' ∧
      (noted name options (shown ++ (piece.warning? (placeBehind name before)).toList)).faces rest
        lx' := by
    by_cases hunknown : ∃ c, piece = .unknown c
    · rcases hunknown with ⟨c, rfl⟩
      rcases h.page (by simp [Piece.spelling]; decide) with ⟨p, mark, rfl, hp, hunjoined, hplace⟩
      have hfalse : options.warningsAsErrors = false :=
        Bool.eq_false_iff.mpr fun hstrict => hlenient hstrict c rfl
      refine ⟨_, stringRound_unknown hsound rfl hp henabled hfalse content, p.along 2 rest, mark,
        ?_, congrArg Location.file hplace, rfl, hunjoined.tail.tail⟩
      rw [Piece.warning?, ← hplace, Option.toList_some, noting_snoc]
      rfl
    · have hnone : piece.warning? (placeBehind name before) = none := by
        cases piece with
        | unknown c => exact absurd ⟨c, rfl⟩ hunknown
        | _ => rfl
      have hknown : ∀ c, piece ≠ .unknown c := fun c heq => hunknown ⟨c, heq⟩
      rcases (Outlook.reads_piece hsound hends hknown content).exists_ok h.faces with
        ⟨_, lx', hrun, rfl, hfaces⟩
      rw [hnone, Option.toList_none, List.append_nil]
      exact ⟨lx', hrun, hfaces⟩
  rcases hround with ⟨lx', hrun, hfaces⟩
  rcases h.loose with ⟨mark, hloose⟩
  have hslash : byte '/' ∈ [byte '/'] := List.mem_singleton_self _
  have hleft := (Footing.leads_stringRound (F := Position.footing _ mark hslash) content).ok hloose
    hrun
  refine ⟨lx', hrun, hfaces, mark, ?_⟩
  rw [List.append_assoc]
  exact hleft

/-- The pieces of a string are read one after the other, up to the closing quote. -/
theorem Amid.loop {pieces : List Piece}
    (h : Amid name options shown before (spelled pieces ++ doubleQuote :: rest) lx)
    (hsound : Sound pieces) (henabled : options.enableWarnings = true)
    (hlenient : options.warningsAsErrors = true → ∀ c, Piece.unknown c ∉ pieces)
    (content : List UInt8) :
    ∃ lx', LexM.loop stringRound progress_stringRound content lx =
        .ok (content.reverse ++ pieces.flatMap Piece.content) lx' ∧
      (noted name options (shown ++ warnings name before pieces)).faces rest lx' := by
  induction pieces generalizing shown before content lx with
  | nil =>
      have hclose : (noted name options shown).Reads (doubleQuote :: rest)
          (LexM.loop stringRound progress_stringRound content) (· = content.reverse) rest :=
        Outlook.reads_loop_done (Outlook.reads_stringRound_close content)
      rcases hclose.exists_ok h.faces with ⟨_, lx', hrun, rfl, hfaces⟩
      rw [List.flatMap_nil, List.append_nil, warnings, List.append_nil]
      exact ⟨lx', hrun, hfaces⟩
  | cons piece pieces ih =>
      rw [spelled_cons, List.append_assoc] at h
      rcases h.round hsound.1 (hsound.2.1.quote rest) henabled
        (fun hstrict c heq => hlenient hstrict c (heq ▸ List.mem_cons_self)) content with
        ⟨lx₁, hround, hamid⟩
      rcases ih hamid hsound.2.2
        (fun hstrict c hmem => hlenient hstrict c (List.mem_cons_of_mem _ hmem)) _ with
        ⟨lx', hrun, hfaces⟩
      refine ⟨lx', ?_, ?_⟩
      · rw [LexM.loop_eq, hround]
        dsimp only
        rw [hrun]
        simp
      · rw [warnings, ← List.append_assoc]
        exact hfaces

theorem literalOrIdent_quote {p : Page} {body : List UInt8} (h : lx.stream.pages = [p])
    (hp : p.rest = doubleQuote :: body) (first : UInt8) (encoding : Encoding) :
    literalOrIdent first encoding lx =
      stringLiteral encoding (lx.withPages [p.along 1 body]) := by
  have hskip := skipIf_single h hp (fun _ heq => absurd heq.1 (by decide)) doubleQuote
  rw [if_pos rfl, Page.advance_eq_along (by decide)] at hskip
  rw [literalOrIdent, LexM.bind_of_ok hskip]
  rfl

theorem tokenFrom_quote (encoding : Encoding) :
    ∃ first more, bytes encoding.mark.toList ++ [doubleQuote] = first :: more ∧
      isBlank first.toNat = false ∧ first ≠ byte '/' ∧ first ≠ newline ∧
      ∀ (lx : Lexer Book) (p : Page) (body : List UInt8), lx.stream.pages = [p] →
        p.rest = more ++ body →
        tokenFrom first lx = stringLiteral encoding (lx.withPages [p.along more.length body]) := by
  cases encoding with
  | plain =>
      refine ⟨doubleQuote, [], rfl, by decide, by decide, by decide, ?_⟩
      intro lx p body h hp
      rw [List.length_nil, Page.along_zero (show p.rest = body from hp), withPages_self h]
      rfl
  | wide =>
      refine ⟨byte 'L', [doubleQuote], rfl, by decide, by decide, by decide, ?_⟩
      exact fun lx p body h hp => literalOrIdent_quote h hp _ _
  | char16 =>
      refine ⟨byte 'u', [doubleQuote], rfl, by decide, by decide, by decide, ?_⟩
      exact fun lx p body h hp => literalOrIdent_quote h hp _ _
  | char32 =>
      refine ⟨byte 'U', [doubleQuote], rfl, by decide, by decide, by decide, ?_⟩
      exact fun lx p body h hp => literalOrIdent_quote h hp _ _
  | utf8 =>
      refine ⟨byte 'u', [byte '8', doubleQuote], rfl, by decide, by decide, by decide, ?_⟩
      intro lx p body h hp
      have hother : ∀ c, c ≠ byte '8' → skipIf c lx = .ok false lx := by
        intro c hc
        have hskip := skipIf_single h hp (fun _ heq => absurd heq.1 (by decide)) c
        rw [if_neg hc.symm, Page.look_of_ne hp (by decide), withPages_self h] at hskip
        exact hskip
      have height := skipIf_single h hp (fun _ heq => absurd heq.1 (by decide)) (byte '8')
      rw [if_pos rfl, Page.advance_eq_along (by decide)] at height
      have hquote : skipIf doubleQuote (lx.withPages [p.along 1 (doubleQuote :: body)]) = _ :=
        skipIf_single rfl rfl (fun _ heq => absurd heq.1 (by decide)) doubleQuote
      rw [if_pos rfl, Page.advance_eq_along (by decide), Page.along_along] at hquote
      rw [show tokenFrom (σ := Book) (byte 'u') = literalOrIdent (byte 'u') .char16 from rfl,
        literalOrIdent, LexM.bind_of_ok (hother _ (by decide)), if_neg (by simp),
        LexM.bind_of_ok (hother _ (by decide)), if_neg (by simp), if_pos rfl,
        LexM.bind_of_ok height, if_pos rfl]
      exact LexM.bind_of_ok hquote

/-- What stands before the text of a string. -/
def opening (encoding : Encoding) : List UInt8 :=
  bytes encoding.mark.toList ++ [doubleQuote]

theorem opening_spec (encoding : Encoding) :
    newline ∉ opening encoding ∧ carriageReturn ∉ opening encoding ∧
      (opening encoding).getLast? ≠ some backslash := by
  cases encoding <;> decide +kernel

theorem freshToken_quote (encoding : Encoding) {body : List UInt8} (hbody : Unjoined body) :
    let page : Page := { name, rest := opening encoding ++ body }
    freshToken ((idle options).withPages [page]) =
      (do
        let t ← stringLiteral encoding
        pure { t with spaced := false, startsLine := true })
        ((idle options).withPages [page.along (opening encoding).length body]) := by
  intro page
  rcases tokenFrom_quote encoding with ⟨first, more, hfront, hblank, hslash, hline, htoken⟩
  have hopening : opening encoding = first :: more := hfront
  rcases opening_spec encoding with ⟨hnot, -, hlast⟩
  have hpage : page.rest = first :: (more ++ body) := by
    rw [← List.cons_append, ← hopening]
  have hsettled : ((idle options).withPages [page]).Settled page :=
    fun _ => (unjoined_of_not_mem hnot).append hbody fun heq => absurd heq hlast
  have hfresh : freshToken ((idle options).withPages [page]) = _ :=
    freshToken_cons rfl hsettled hpage hblank hslash
  have hliteral := htoken ((idle options).withPages [page.along 1 (more ++ body)]) _ body rfl rfl
  rw [withPages_withPages, Page.along_along, Nat.add_comm, ← List.length_cons, ← hopening]
    at hliteral
  rw [Page.look_of_ne hpage hline, Page.advance_eq_along hline] at hfresh
  exact hfresh.trans (LexM.bind_of_eq hliteral _)

theorem amid_opening (encoding : Encoding) {body : List UInt8} (hbody : Unjoined body) :
    Amid name options [] (opening encoding) body ((idle options).withPages
      [({ name, rest := opening encoding ++ body } : Page).along (opening encoding).length body]) := by
  rcases opening_spec encoding with ⟨hnot, -, hlast⟩
  have hplace := placeAfter_append hnot []
  rw [List.nil_append] at hplace
  refine ⟨⟨_, (1, 1), rfl, rfl, rfl, hbody⟩, (1, 1), _, rfl, rfl, rfl, rfl, opening encoding, rfl,
    fun hpair => hlast hpair.1, ?_, ?_⟩
  · rw [hplace]
    rfl
  · rw [hplace]
    exact Or.inl rfl

theorem freshToken_string (encoding : Encoding) {pieces : List Piece} (hsound : Sound pieces)
    (hbody : Unjoined (spelled pieces ++ doubleQuote :: rest))
    (henabled : options.enableWarnings = true)
    (hlenient : options.warningsAsErrors = true → ∀ c, Piece.unknown c ∉ pieces) :
    let text := opening encoding ++ (spelled pieces ++ doubleQuote :: rest)
    ∃ t lx', freshToken ((idle options).withPages [{ name, rest := text }]) = .ok t lx' ∧
      t.gist = (.string (pieces.flatMap Piece.content), encoding, false) ∧
      (noted name options (warnings name (opening encoding) pieces)).faces rest lx' := by
  intro text
  rcases (amid_opening encoding hbody).loop hsound henabled hlenient [] with ⟨lx₁, hloop, hfaces⟩
  rcases (noted name options _).finish_ok hfaces (.string (pieces.flatMap Piece.content)) encoding
    with ⟨t, lx₂, hfinish, hgist, hfaces'⟩
  have hliteral : stringLiteral encoding _ = .ok t lx₂ :=
    (LexM.bind_of_ok hloop).trans hfinish
  refine ⟨_, lx₂, (freshToken_quote encoding hbody).trans (LexM.bind_of_ok hliteral), ?_, hfaces'⟩
  rw [Token.gist, Prod.mk.injEq] at hgist ⊢
  exact ⟨hgist.1, (Prod.mk.inj hgist.2).1 ▸ rfl⟩

end Decoding

open Decoding

theorem Stream.warnings_eq_notes (s : Stream) : s.warnings = s.book.notes.reverse := by
  have hentries : ∀ entries : List Event,
      (entries.filter Event.isWarning).map Event.message = Stream.warningsOf entries := by
    intro entries
    induction entries with
    | nil => rfl
    | cons e entries ih =>
        cases e with
        | warning shown => exact congrArg (shown :: ·) ih
        | _ => exact ih
  show _ = (Stream.warningsOf s.journal.entries).reverse
  rw [warnings, Journal.events, List.filter_reverse, List.map_reverse, hentries]

/-- The text between the quotes of a string is read piece by piece: the string holds the bytes of
the pieces one after the other, and the unknown escapes are warned of in order, each at its place. -/
theorem listing_decoded_string (name : String) (encoding : Encoding) (options : Options)
    {pieces : List Piece} (hsound : Sound pieces) (hunjoined : Unjoined (spelled pieces))
    (henabled : options.enableWarnings = true)
    (hlenient : options.warningsAsErrors = true → ∀ c, Piece.unknown c ∉ pieces) :
    let text := opening encoding ++ (spelled pieces ++ [doubleQuote])
    let read := (Lexer.ofStream (Stream.ofSources [.ofBytes name text]) options).listing
    read.failure = none ∧
      read.gists = [(.string (pieces.flatMap Piece.content), encoding, false),
        (.newline, .plain, false), (.eof, .plain, false)] ∧
      read.lexer.stream.warnings = warnings name (opening encoding) pieces ∧
      read.lexer.collector =
        (warnings name (opening encoding) pieces).foldl Collector.keep
          (.empty options.maxWarnings) := by
  intro text read
  have hcanon : canon text = opening encoding ++ (spelled pieces ++ doubleQuote :: [newline]) := by
    have hcr : carriageReturn ∉ text :=
      List.not_mem_append (opening_spec encoding).2.1 (List.not_mem_append hsound.not_mem (by decide))
    have hlast : text.getLast? = some doubleQuote := by
      rw [show text = (opening encoding ++ spelled pieces) ++ [doubleQuote] from
        (List.append_assoc _ _ _).symm, List.getLast?_concat]
    rw [canon_open hcr (by rw [hlast]; decide)]
    simp [text]
  have hbody : Unjoined (spelled pieces ++ doubleQuote :: [newline]) :=
    hunjoined.append (by decide) fun _ => by decide
  obtain ⟨t, lx', hread, hgist, hfaces⟩ :
      ∃ t lx', freshToken ((idle options).withPages [{ name, rest := _ }]) = .ok t lx' ∧ _ :=
    freshToken_string encoding hsound hbody henabled hlenient
  have hlisting := Outlook.lists_newline.cons rfl hread hfaces (by rw [hgist]; simp)
  rw [← hcanon, listing_of_page name text options, hgist] at hlisting
  rcases hlisting with ⟨hfailure, hgists, p, mark, hlexer, -⟩
  refine ⟨hfailure, hgists, ?_, congrArg (fun lx => lx.collector) hlexer⟩
  rw [Stream.warnings_eq_notes, show read.lexer.stream.book.notes = _ from
    congrArg (fun lx => lx.stream.notes) hlexer]
  exact List.reverse_reverse _

/-- Octal digits before a digit, hexadecimal digits for more than a byte, a universal character name
before a hexadecimal digit, two unknown escapes, and an escaped backslash before a blank and the end
of a line. -/
theorem listing_decoded_string_mixed :
    let text := bytes "u8\"\\1012\\x4141g\\78\\u00E9a\\q\\\\ \n\\(\\U0001f600\"".toList
    let read := (Lexer.ofStream (Stream.ofSources [.ofBytes "t.c" text])).listing
    let content := [0x41, 0x32, 0x41, 0x67, 0x07, 0x38, 0xC3, 0xA9, 0x61, 0x71, 0x5C, 0x20, 0x0A, 0x28,
      0xF0, 0x9F, 0x98, 0x80]
    read.failure = none ∧
      read.gists = [(.string content, .utf8, false), (.newline, .plain, false),
        (.eof, .plain, false)] ∧
      read.lexer.stream.warnings =
        ["t.c:1:26: warning: unknown escape character: \\q",
          "t.c:2:1: warning: unknown escape character: \\("] := by
  intro text read content
  let pieces : List Piece :=
    [.octal (bytes ['1', '0', '1']), .raw (byte '2'), .hex (bytes ['4', '1', '4', '1']),
      .raw (byte 'g'), .octal (bytes ['7']), .raw (byte '8'), .short (bytes ['0', '0', 'E', '9']),
      .raw (byte 'a'), .unknown (byte 'q'), .simple (byte '\\'), .raw (byte ' '), .raw newline,
      .unknown (byte '('), .long (bytes ['0', '0', '0', '1', 'f', '6', '0', '0'])]
  have hsound : Sound pieces := by decide +kernel
  have hread := listing_decoded_string "t.c" .utf8 {} hsound (by decide) rfl (by simp)
  have htext : opening .utf8 ++ (spelled pieces ++ [doubleQuote]) = text := by decide +kernel
  have hcontent : pieces.flatMap Piece.content = content := by decide
  rw [htext, hcontent] at hread
  exact ⟨hread.1, hread.2.1, hread.2.2.1.trans (by decide +kernel)⟩

end CLex
