import CLex.Proofs.Skipping
import CLex.Proofs.Transcoding

namespace CLex

open Character Lexer

/-- What may stand behind a directive name: a blank or the end of the line. -/
def EndsName (c : UInt8) : Prop :=
  isBlank c.toNat = true ∨ c = newline

instance (c : UInt8) : Decidable (EndsName c) :=
  inferInstanceAs (Decidable (_ ∨ _))

theorem EndsName.mem {c : UInt8} (h : EndsName c) :
    c ∈ [0x20, 0x09, 0x0C, 0x0B, newline] := by
  simp only [EndsName, isBlank, Bool.or_eq_true, beq_iff_eq] at h
  simp only [List.mem_cons, List.not_mem_nil, or_false, ← UInt8.toNat_inj] at h ⊢
  simpa [or_assoc] using h

theorem EndsName.breaks {c : UInt8} (h : EndsName c) :
    isIdentChar c.toNat = false ∧ c ∉ [backslash, doubleQuote, singleQuote, byte '8'] :=
  (by decide +kernel : ∀ c ∈ [0x20, 0x09, 0x0C, 0x0B, newline],
    isIdentChar c.toNat = false ∧ c ∉ [backslash, doubleQuote, singleQuote, byte '8']) c h.mem

theorem isIdentStart_of_isLetter {code : Nat} (h : isLetter code = true) :
    isIdentStart code = true := by
  rw [isIdentStart, h, Bool.true_or, Bool.true_or, Bool.true_or]

theorem not_isBlank_of_isLetter {code : Nat} (h : isLetter code = true) :
    isBlank code = false := by
  simp only [isLetter, Bool.or_eq_true, Bool.and_eq_true, decide_eq_true_eq] at h
  simp only [isBlank, Bool.or_eq_false_iff, beq_eq_false_iff_ne]
  omega

theorem ne_of_isLetter {c d : UInt8} (h : isLetter c.toNat = true)
    (hd : isLetter d.toNat = false) : c ≠ d := by
  rintro rfl
  rw [hd] at h
  cases h

theorem ascii_of_isLetter {code : Nat} (h : isLetter code = true) : code < 0x80 := by
  simp only [isLetter, Bool.or_eq_true, Bool.and_eq_true, decide_eq_true_eq] at h
  omega

theorem bytes_name {name : String} (hne : name ≠ "")
    (hletters : name.toList.all (isLetter ·.toNat) = true) :
    ∃ first letters, bytes name.toList = first :: letters ∧
      (∀ b ∈ first :: letters, isLetter b.toNat = true) ∧
      Utf8.decode (first :: letters) = name := by
  rw [List.all_eq_true] at hletters
  have hbytes : ∀ b ∈ bytes name.toList, isLetter b.toNat = true := by
    intro b hb
    rcases List.mem_map.mp hb with ⟨c, hc, rfl⟩
    rw [Utf8.toNat_byte (ascii_of_isLetter (hletters c hc))]
    exact hletters c hc
  have hdecode : Utf8.decode (bytes name.toList) = name := by
    rw [← Utf8.encode_ascii fun c hc => ascii_of_isLetter (hletters c hc), String.ofList_toList,
      Utf8.decode_encode]
  cases hname : bytes name.toList with
  | nil =>
      rw [bytes, List.map_eq_nil_iff, String.toList_eq_nil_iff] at hname
      exact absurd hname hne
  | cons first letters =>
      rw [hname] at hbytes hdecode
      exact ⟨first, letters, rfl, hbytes, hdecode⟩

namespace Page

/-- The page when `count` more characters of its line have been read and `rest` is to come. -/
def along (p : Page) (count : Nat) (rest : List UInt8) : Page :=
  { p with rest, column := p.column + count }

/-- The page when it has given one more token its number. -/
def drawn (p : Page) : Page :=
  { p with tokens := p.tokens + 1 }

variable {p : Page} {rest text : List UInt8} {c : UInt8}

theorem along_zero (h : p.rest = rest) : p.along 0 rest = p := by
  rw [along, Int.natCast_zero, Int.add_zero, ← h]

theorem along_along (m n : Nat) : (p.along m text).along n rest = p.along (m + n) rest := by
  simp only [along, Int.natCast_add, Int.add_assoc]

theorem advance_eq_along (hc : c ≠ newline) : { p with rest }.advance c = p.along 1 rest := by
  rw [advance, if_neg hc]
  rfl

@[simp] theorem name_look (p : Page) : p.look.name = p.name := by
  unfold look
  split <;> rfl

@[simp] theorem name_advance (p : Page) (c : UInt8) : (p.advance c).name = p.name := by
  unfold advance
  split <;> rfl

@[simp] theorem name_putBack (p : Page) (c : UInt8) : (p.putBack c).name = p.name := by
  unfold putBack
  split <;> rfl

@[simp] theorem line_look (p : Page) : p.look.line = p.line := by
  unfold look
  split <;> rfl

@[simp] theorem tokens_look (p : Page) : p.look.tokens = p.tokens := by
  unfold look
  split <;> rfl

theorem look_of_ne (h : p.rest = c :: rest) (hc : c ≠ newline) : p.look = p := by
  rw [look, if_neg (by simpa [h] using hc)]

theorem look_newline (h : p.rest = newline :: rest) : p.look = { p with column := 1 } := by
  rw [look, if_pos (by rw [h]; rfl)]

end Page

namespace Lexer

variable {t : Lexer Book} {p : Page} {below : List Page} {rest : List UInt8} {c : UInt8}

theorem next?_along (h : t.stream.pages = p :: below) (hp : p.rest = c :: rest)
    (hline : c ≠ newline) (hc : c ≠ backslash) :
    next? t = .ok (some c) (t.withPages (p.along 1 rest :: below)) := by
  rw [next?_cons h hp fun _ heq => hc heq.1, Page.advance_eq_along hline]

theorem next?_look (h : t.stream.pages = p :: below) (hp : p.rest = c :: rest)
    (hc : c ≠ backslash) : next? (t.withPages (p.look :: below)) = next? t := by
  by_cases hline : c = newline
  · subst hline
    rw [Page.look_newline hp, next?_cons h hp fun _ heq => hc heq.1]
    exact next?_cons rfl (p := { p with column := 1 }) hp fun _ heq => hc heq.1
  · rw [Page.look_of_ne hp hline, withPages_self h]

/-- The lexer with another mark and other pages to read. -/
def turnTo (lx : Lexer Book) (mark : Int × Int) (pages : List Page) : Lexer Book :=
  { lx with mark }.withPages pages

@[simp] theorem turnTo_withPages (lx : Lexer Book) (mark : Int × Int) (pages pages' : List Page) :
    (lx.withPages pages).turnTo mark pages' = lx.turnTo mark pages' :=
  rfl

@[simp] theorem withPages_turnTo (lx : Lexer Book) (mark : Int × Int) (pages pages' : List Page) :
    (lx.turnTo mark pages).withPages pages' = lx.turnTo mark pages' :=
  rfl

@[simp] theorem turnTo_turnTo (lx : Lexer Book) (mark mark' : Int × Int)
    (pages pages' : List Page) :
    (lx.turnTo mark pages).turnTo mark' pages' = lx.turnTo mark' pages' :=
  rfl

theorem skipBlanks_run {blanks : List UInt8} (hblanks : ∀ b ∈ blanks, isBlank b.toNat = true)
    (h : t.stream.pages = p :: below) (hp : p.rest = blanks ++ c :: rest)
    (hblank : isBlank c.toNat = false) (hc : c ≠ backslash) (hslash : c ≠ byte '/') :
    skipBlanks t = .ok (!blanks.isEmpty)
      (t.withPages ((p.along blanks.length (c :: rest)).look :: below)) := by
  have loops : ∀ before, LexM.loop blankRound progress_blankRound before t =
      .ok (before || !blanks.isEmpty)
        (t.withPages ((p.along blanks.length (c :: rest)).look :: below)) := by
    induction blanks generalizing t p with
    | nil =>
        intro before
        have hp' : p.rest = c :: rest := hp
        rw [LexM.loop_eq, blankRound, LexM.bind_of_ok
          (skipBlank_single h hp' (fun _ heq => hc heq.1) hblank hslash), List.length_nil,
          Page.along_zero hp', List.isEmpty_nil, Bool.not_true, Bool.or_false]
        rfl
    | cons b blanks ih =>
        intro before
        have hb := hblanks b List.mem_cons_self
        have hbreaks := (show EndsName b from Or.inl hb).breaks.2
        have hline : b ≠ newline := by
          rintro rfl
          cases hb
        have hskip : skipBlank t =
            .ok true (t.withPages (p.along 1 (blanks ++ c :: rest) :: below)) := by
          rw [skipBlank, LexM.bind_of_ok (next?_along h hp hline fun heq => hbreaks (by simp [heq]))]
          dsimp only
          rw [if_pos hb]
          rfl
        have hloop := ih (fun d hd => hblanks d (List.mem_cons_of_mem b hd))
          (t := t.withPages (p.along 1 (blanks ++ c :: rest) :: below)) rfl rfl true
        rw [Page.along_along, Nat.add_comm 1] at hloop
        rw [LexM.loop_eq, blankRound, LexM.bind_of_ok hskip]
        rw [show (before || !(b :: blanks).isEmpty) = (true || !blanks.isEmpty) by simp]
        exact hloop
  exact loops false

theorem skipLine_run {chars : List UInt8} (hchars : ∀ c ∈ chars, c ≠ newline ∧ c ≠ backslash)
    (h : t.stream.pages = p :: below) (hp : p.rest = chars ++ newline :: rest) :
    skipLine t =
      .ok () (t.withPages ({ p with rest := newline :: rest, column := 1 } :: below)) := by
  induction chars generalizing t p with
  | nil =>
      have hp' : p.rest = newline :: rest := hp
      rw [skipLine, LexM.loop_eq, lineRound, LexM.bind_of_ok
        (next?_cons h hp' fun _ heq => absurd heq.1 (by decide))]
      dsimp only
      rw [if_pos rfl, LexM.bind_of_ok (unread_pages rfl newline), withPages_withPages,
        Page.putBack_advance_eq_look hp', Page.look_newline hp', ← hp']
      rfl
  | cons c chars ih =>
      have hc := hchars c List.mem_cons_self
      rw [skipLine, LexM.loop_eq, lineRound, LexM.bind_of_ok (next?_along h hp hc.1 hc.2)]
      dsimp only
      rw [if_neg hc.1]
      exact ih (fun d hd => hchars d (List.mem_cons_of_mem c hd))
        (t := t.withPages (p.along 1 (chars ++ newline :: rest) :: below))
        (p := p.along 1 (chars ++ newline :: rest)) rfl rfl

theorem identRound_run {letters : List UInt8}
    (hletters : ∀ c ∈ letters, isLetter c.toNat = true) (hend : EndsName c)
    (h : t.stream.pages = p :: below) (hp : p.rest = letters ++ c :: rest) (before : List UInt8) :
    LexM.loop identRound progress_identRound before t =
      .ok (before.reverse ++ letters)
        (t.withPages ((p.along letters.length (c :: rest)).look :: below)) := by
  induction letters generalizing t p before with
  | nil =>
      have hp' : p.rest = c :: rest := hp
      rcases hend.breaks with ⟨hchar, hbreaks⟩
      have hc : c ≠ backslash := fun heq => hbreaks (by simp [heq])
      rw [LexM.loop_eq, identRound, LexM.bind_of_ok (next?_cons h hp' fun _ heq => hc heq.1)]
      dsimp only
      rw [if_neg (by simp [hchar]), if_neg hc, LexM.bind_of_ok (unread_pages rfl c),
        withPages_withPages, Page.putBack_advance_eq_look hp', List.append_nil,
        List.length_nil, Page.along_zero hp']
      rfl
  | cons d letters ih =>
      have hd := hletters d List.mem_cons_self
      have hnext := next?_along h hp (ne_of_isLetter hd rfl) (ne_of_isLetter hd rfl)
      rw [LexM.loop_eq, identRound, LexM.bind_of_ok hnext]
      dsimp only
      rw [if_pos (by rw [isIdentChar, isIdentStart_of_isLetter hd, Bool.true_or])]
      have hloop := ih (fun e he => hletters e (List.mem_cons_of_mem d he))
        (t := t.withPages (p.along 1 (letters ++ c :: rest) :: below)) rfl rfl (d :: before)
      rw [Page.along_along, Nat.add_comm 1] at hloop
      rw [show before.reverse ++ d :: letters = (d :: before).reverse ++ letters by simp]
      exact hloop

theorem skipIf_look (h : t.stream.pages = p :: below) (hp : p.rest = c :: rest)
    (hc : c ≠ backslash) (d : UInt8) :
    skipIf d (t.withPages (p.look :: below)) = skipIf d t :=
  LexM.bind_of_eq (LexM.bind_of_eq (next?_look h hp hc) _) _

theorem ident_look (h : t.stream.pages = p :: below) (hp : p.rest = c :: rest)
    (hc : c ≠ backslash) (first : UInt8) :
    ident first (t.withPages (p.look :: below)) = ident first t := by
  have hround : identRound [first] (t.withPages (p.look :: below)) = identRound [first] t :=
    LexM.bind_of_eq (next?_look h hp hc) _
  refine LexM.bind_of_eq ?_ _
  rw [LexM.loop_eq identRound progress_identRound, hround, ← LexM.loop_eq]

theorem literalOrIdent_look (h : t.stream.pages = p :: below) (hp : p.rest = c :: rest)
    (hnot : c ∉ [backslash, doubleQuote, singleQuote, byte '8']) (first : UInt8)
    (encoding : Encoding) : literalOrIdent first encoding t = ident first t := by
  simp only [List.mem_cons, List.not_mem_nil, or_false, not_or] at hnot
  rcases hnot with ⟨hc, hdouble, hsingle, height⟩
  have hskip : ∀ d, c ≠ d → skipIf d t = .ok false (t.withPages (p.look :: below)) := by
    intro d hd
    rw [skipIf_single h hp fun _ heq => hc heq.1, if_neg hd]
  have hagain : ∀ d, c ≠ d → skipIf d (t.withPages (p.look :: below)) =
      .ok false (t.withPages (p.look :: below)) :=
    fun d hd => (skipIf_look h hp hc d).trans (hskip d hd)
  rw [← ident_look h hp hc, literalOrIdent, LexM.bind_of_ok (hskip _ hdouble), if_neg (by simp),
    LexM.bind_of_ok (hagain _ hsingle), if_neg (by simp)]
  split
  · rw [LexM.bind_of_ok (hagain _ height), if_neg (by simp)]
  · rfl

theorem tokenFrom_letters {first : UInt8} {letters : List UInt8}
    (hfirst : isLetter first.toNat = true) (hletters : ∀ c ∈ letters, isLetter c.toNat = true)
    (hend : EndsName c) (h : t.stream.pages = p :: below) (hp : p.rest = letters ++ c :: rest) :
    tokenFrom first t = finish (.ident (Utf8.decode (first :: letters))) .plain
      (t.withPages ((p.along letters.length (c :: rest)).look :: below)) := by
  have hident : ident first t = finish (.ident (Utf8.decode (first :: letters))) .plain
      (t.withPages ((p.along letters.length (c :: rest)).look :: below)) := by
    rw [ident, LexM.bind_of_ok (identRound_run hletters hend h hp [first])]
    rfl
  rw [tokenFrom, if_neg (ne_of_isLetter hfirst rfl)]
  cases encodingOf? first with
  | none =>
      dsimp only
      rw [if_pos (isIdentStart_of_isLetter hfirst), hident]
  | some encoding =>
      have hhead : ∃ d tail, p.rest = d :: tail ∧
          d ∉ [backslash, doubleQuote, singleQuote, byte '8'] := by
        cases letters with
        | nil => exact ⟨c, rest, hp, hend.breaks.2⟩
        | cons d letters =>
            have hd := hletters d List.mem_cons_self
            refine ⟨d, letters ++ c :: rest, hp, ?_⟩
            simp only [List.mem_cons, List.not_mem_nil, or_false, not_or]
            exact ⟨ne_of_isLetter hd rfl, ne_of_isLetter hd rfl, ne_of_isLetter hd rfl,
              ne_of_isLetter hd rfl⟩
      rcases hhead with ⟨d, tail, hd, hmark⟩
      exact (literalOrIdent_look h hd hmark first encoding).trans hident

theorem nextToken_letters {gap : List UInt8} {first : UInt8} {letters : List UInt8}
    (hgap : ∀ b ∈ gap, isBlank b.toNat = true) (hfirst : isLetter first.toNat = true)
    (hletters : ∀ c ∈ letters, isLetter c.toNat = true) (hend : EndsName c)
    (hpending : t.pending = [[]]) (h : t.stream.pages = p :: below)
    (hp : p.rest = gap ++ first :: (letters ++ c :: rest)) :
    nextToken t =
      .ok { lexeme := .ident (Utf8.decode (first :: letters)), file := some p.name, line := p.line,
            column := p.column + gap.length, index := p.tokens, spaced := !gap.isEmpty,
            startsLine := p.column == 1 }
        (t.turnTo (p.line, p.column + gap.length)
          ((p.along (gap.length + (letters.length + 1)) (c :: rest)).look.drawn :: below)) := by
  have hline : first ≠ newline := ne_of_isLetter hfirst rfl
  have hback : first ≠ backslash := ne_of_isLetter hfirst rfl
  let q := p.along gap.length (first :: (letters ++ c :: rest))
  have hlook : q.look = q := Page.look_of_ne rfl hline
  have hblanks := skipBlanks_run hgap h hp (not_isBlank_of_isLetter hfirst) hback
    (ne_of_isLetter hfirst rfl)
  rw [hlook] at hblanks
  let mark := (p.line, p.column + (gap.length : Int))
  have hmark : setMark (t.withPages (q :: below)) = .ok () (t.turnTo mark (q :: below)) :=
    @setMark_pages (t.withPages (q :: below)) q below rfl
  have hnext := next?_along (t := t.turnTo mark (q :: below)) rfl rfl hline hback
  rw [withPages_turnTo] at hnext
  have htoken := tokenFrom_letters hfirst hletters hend
    (t := t.turnTo mark (q.along 1 (letters ++ c :: rest) :: below)) rfl rfl
  have hcount : (q.along 1 (letters ++ c :: rest)).along letters.length (c :: rest) =
      p.along (gap.length + (letters.length + 1)) (c :: rest) := by
    rw [Page.along_along, Page.along_along, Nat.add_comm 1]
  rw [hcount, finish_pages rfl] at htoken
  have hfresh : nextToken t = freshToken t := by rw [nextToken, hpending]
  rw [hfresh, freshToken, LexM.bind_of_ok (needSource_pages h), LexM.bind_of_ok (isAtLineStart_pages h),
    LexM.bind_of_ok hblanks, token, bind_assoc, LexM.bind_of_ok hmark, bind_assoc,
    LexM.bind_of_ok hnext]
  dsimp only
  rw [LexM.bind_of_ok htoken]
  refine congrArg₂ EStateM.Result.ok ?_ rfl
  simp only [Page.name_look, Page.tokens_look]
  rfl

theorem nextToken_name {gap : List UInt8} {name : String}
    (hgap : ∀ b ∈ gap, isBlank b.toNat = true) (hne : name ≠ "")
    (hletters : name.toList.all (isLetter ·.toNat) = true) (hend : EndsName c)
    (hpending : t.pending = [[]]) (h : t.stream.pages = p :: below)
    (hp : p.rest = gap ++ (bytes name.toList ++ c :: rest)) :
    nextToken t =
      .ok { lexeme := .ident name, file := some p.name, line := p.line,
            column := p.column + gap.length, index := p.tokens, spaced := !gap.isEmpty,
            startsLine := p.column == 1 }
        (t.turnTo (p.line, p.column + gap.length)
          ((p.along (gap.length + name.toList.length) (c :: rest)).look.drawn :: below)) := by
  rcases bytes_name hne hletters with ⟨first, letters, hname, hall, hdecode⟩
  have hlength : name.toList.length = letters.length + 1 := by
    rw [← List.length_cons, ← hname, bytes, List.length_map]
  rw [hlength]
  rw [hname] at hp
  have hnext := nextToken_letters hgap (hall first List.mem_cons_self)
    (fun d hd => hall d (List.mem_cons_of_mem first hd)) hend hpending h hp
  rwa [hdecode] at hnext

end Lexer

namespace Skipping

variable {t : Lexer Book} {p : Page} {below : List Page} {rest blanks : List UInt8} {c : UInt8}

theorem group_newline (hblanks : ∀ b ∈ blanks, isBlank b.toNat = true)
    (h : t.stream.pages = p :: below) (hp : p.rest = blanks ++ newline :: rest) (depth : Nat) :
    group depth t =
      group depth (t.withPages ({ p with rest, line := p.line + 1, column := 1 } :: below)) := by
  have hskip := skipBlanks_run hblanks h hp (by decide) (by decide) (by decide)
  rw [Page.look_newline rfl] at hskip
  refine group_again ?_
  rw [groupRound_eq hskip (next?_cons rfl rfl fun _ heq => absurd heq.1 (by decide))]
  rfl

theorem group_char (hblanks : ∀ b ∈ blanks, isBlank b.toNat = true)
    (h : t.stream.pages = p :: below) (hp : p.rest = blanks ++ c :: rest)
    (hblank : isBlank c.toNat = false)
    (hc : c ∉ [newline, backslash, byte '/', singleQuote, doubleQuote])
    (hhash : c = byte '#' → p.column ≠ 1) (depth : Nat) :
    group depth t = group depth (t.withPages (p.along (blanks.length + 1) rest :: below)) := by
  simp only [List.mem_cons, List.not_mem_nil, or_false, not_or] at hc
  rcases hc with ⟨hline, hback, hslash, hsingle, hdouble⟩
  have hskip := skipBlanks_run hblanks h hp hblank hback hslash
  rw [Page.look_of_ne rfl hline] at hskip
  refine group_again ?_
  rw [groupRound_eq hskip (next?_along rfl rfl hline hback), Page.along_along, location_pages h,
    groupFrom, if_neg hsingle, if_neg hdouble, if_neg]
  · rfl
  · exact fun hdirective => hhash hdirective.1 (of_decide_eq_true hdirective.2)

theorem group_hash (hblanks : ∀ b ∈ blanks, isBlank b.toNat = true)
    (h : t.stream.pages = p :: below) (hp : p.rest = blanks ++ byte '#' :: rest)
    (hcolumn : p.column = 1) (depth : Nat) :
    groupRound depth t =
      directive ⟨⟨p.name, p.line, p.column + blanks.length⟩, p.tokens, below.length + 1⟩ depth
        (t.withPages (p.along (blanks.length + 1) rest :: below)) := by
  have hskip := skipBlanks_run hblanks h hp (by decide) (by decide) (by decide)
  rw [Page.look_of_ne rfl (by decide)] at hskip
  have hmark : hashMark? (t.withPages (p.along (blanks.length + 1) rest :: below)).stream =
      some ⟨⟨p.name, p.line, p.column + blanks.length⟩, p.tokens, below.length + 1⟩ := by
    have hcount : p.column + ((blanks.length + 1 : Nat) : Int) - 1 = p.column + blanks.length := by
      omega
    rw [hashMark?, place?_pages rfl, ← hcount]
    rfl
  have hstart : (p.location.column == 1) = true := decide_eq_true hcolumn
  rw [groupRound_eq hskip (next?_along rfl rfl (by decide) (by decide)), Page.along_along,
    location_pages h, groupFrom, if_neg (by decide), if_neg (by decide), if_pos ⟨rfl, hstart⟩,
    LexM.bind_of_ok (get_eq_ok.mpr ⟨rfl, rfl⟩), withPages_withPages]
  simp only [hmark]

end Skipping

end CLex
