import CLex.Proofs.Following
import CLex.Proofs.Stopping.Basic

namespace CLex.Outlook

open Character LexM Lexer Stopping

variable {text mid rest : List UInt8}

/-- What is known of a token that begins with `c` and is followed by `rest`, when `mid` was behind
its first character. -/
structure Cut (c : UInt8) (mid rest : List UInt8) (t : Token) : Prop where
  formed : t.lexeme.Formed t.encoding
  head : ∃ d, (Utf8.encode t.spelling).head? = some d ∧ Lexeme.Kin c d
  stops : t.lexeme = .punctuator .hash ∨ t.lexeme.goesOn rest = false
  single : ∀ spelled, t.lexeme = .invalid spelled → rest = mid

/-- The bytes that a universal character name stands for. -/
def isUniversalByte (b : UInt8) : Bool :=
  0x80 ≤ b.toNat || b == byte '$' || b == byte '@' || b == byte '\x60'

theorem isNameByte_of_isUniversalByte {b : UInt8} (h : isUniversalByte b = true) :
    Lexeme.isNameByte b = true := by
  simp only [isUniversalByte, Bool.or_eq_true, decide_eq_true_eq, beq_iff_eq] at h
  rcases h with ((hle | rfl) | rfl) | rfl
  · simp [Lexeme.isNameByte, isIdentChar, isIdentStart, hle]
  · decide
  · decide
  · decide

theorem isUniversalByte_of_mem {code : Nat} (huniversal : isUniversal code = true)
    (hlt : code < 0x200000) {b : UInt8} (hb : b ∈ Utf8.sequence code) :
    isUniversalByte b = true := by
  by_cases hascii : code < 0x80
  · have hcode : code ∈ [0x24, 0x40, 0x60] := by
      simp only [isUniversal, Bool.and_eq_true, Bool.or_eq_true, decide_eq_true_eq,
        beq_iff_eq] at huniversal
      simp only [List.mem_cons, List.not_mem_nil, or_false]
      omega
    have htable : ∀ code ∈ [0x24, 0x40, 0x60], ∀ b ∈ Utf8.sequence code,
        isUniversalByte b = true := by decide +kernel
    exact htable code hcode b hb
  · have hle := Utf8.le_of_mem_sequence (Nat.le_of_not_lt hascii) hlt hb
    simp [isUniversalByte, hle]

theorem takes_universalName (mark : Char) (count : Nat) :
    plainly.Takes text (universalName mark count) fun code _ => isUniversal code = true := by
  refine (reads_here 2).bind_takes fun start _ => ?_
  have hdigits := Footing.leads_universalDigits (F := footing) start count 0
  refine (takes_of_leads hdigits ?_ ?_).bind fun code rest _ => ?_
  · rintro lx ⟨q, h, hrest, -⟩
    exact ⟨byte 'u', by decide, q, h, hrest, by decide⟩
  · exact fun _ lx h => Footing.loose_of_kept h
  · split
    · next h => exact takes_pure h
    · exact takes_throw

theorem takes_escape_named (hmark : text.head?.any (fun c => isUniversalMark c.toNat) = true) :
    plainly.Takes text escape fun code _ => isUniversal code = true := by
  refine (reads_here 1).bind_takes fun start _ => ?_
  cases text with
  | nil => cases hmark
  | cons c text =>
      refine reads_next.bind_takes ?_
      rintro _ rfl
      dsimp only
      have hc : c = byte 'u' ∨ c = byte 'U' := by
        simp only [List.head?_cons, Option.any_some, isUniversalMark, Bool.or_eq_true,
          beq_iff_eq] at hmark
        exact hmark.imp (fun h => UInt8.toNat_inj.mp h) fun h => UInt8.toNat_inj.mp h
      rcases hc with rfl | rfl
      · rw [escapeFrom, show simpleEscape? (byte 'u') = none by decide]
        exact takes_universalName 'u' 4
      · rw [escapeFrom, show simpleEscape? (byte 'U') = none by decide]
        exact takes_universalName 'U' 8

theorem takes_universalBytes (code : Nat) :
    plainly.Takes text (universalBytes code) fun units _ =>
      code < 0x200000 ∧ units = Utf8.sequence code := by
  unfold universalBytes utf8Bytes
  rw [if_neg (by omega), Int.toNat_natCast, Utf8.encode?]
  by_cases hlt : code < 0x200000
  · rw [if_pos hlt]
    exact takes_pure ⟨hlt, rfl⟩
  · rw [if_neg hlt]
    exact takes_throw

def NameRead (mid content rest : List UInt8) : Prop :=
  (∀ b ∈ content, Lexeme.isNameByte b = true) ∧
    (mid = content ++ rest ∨ ∃ b ∈ content, isUniversalByte b = true)

theorem NameRead.char {content : List UInt8} {c : UInt8} (h : NameRead mid content (c :: text))
    (hc : isIdentChar c.toNat = true) : NameRead mid (content ++ [c]) text := by
  have hname : Lexeme.isNameByte c = true := by simp [Lexeme.isNameByte, hc]
  refine ⟨?_, h.2.imp ?_ ?_⟩
  · simpa [or_imp, forall_and] using ⟨h.1, hname⟩
  · rintro rfl
    simp
  · rintro ⟨b, hb, huniversal⟩
    exact ⟨b, List.mem_append_left _ hb, huniversal⟩

theorem NameRead.universal {content units : List UInt8} (h : NameRead mid content text)
    (hne : units ≠ []) (hunits : ∀ b ∈ units, isUniversalByte b = true) (rest : List UInt8) :
    NameRead mid (content ++ units) rest := by
  rcases List.exists_mem_of_ne_nil units hne with ⟨b, hb⟩
  refine ⟨fun d hd => ?_, Or.inr ⟨b, List.mem_append_right _ hb, hunits b hb⟩⟩
  rcases List.mem_append.mp hd with hd | hd
  · exact h.1 d hd
  · exact isNameByte_of_isUniversalByte (hunits d hd)

/-- A name that begins with `first` has been read up to here, its last byte first. -/
def NameBegun (first : UInt8) (mid before rest : List UInt8) : Prop :=
  ∃ content, before = (first :: content).reverse ∧ NameRead mid content rest

def NameDone (first : UInt8) (mid name rest : List UInt8) : Prop :=
  ∃ content, name = first :: content ∧ NameRead mid content rest ∧ Lexeme.NameEnds rest

theorem takes_identRound {first : UInt8} (content : List UInt8) (h : NameRead mid content text) :
    plainly.Takes text (identRound (first :: content).reverse)
      (Turn (NameBegun first mid) (NameDone first mid)) := by
  refine takes_of_sound fun hcr => ?_
  cases text with
  | nil =>
      refine reads_next_end.bind_takes ?_
      rintro _ rfl
      exact takes_pure ⟨content, List.reverse_reverse _, h, rfl, fun _ h => by cases h⟩
  | cons c text =>
      refine reads_next.bind_takes ?_
      rintro _ rfl
      dsimp only
      split
      · next hc => exact takes_pure ⟨content ++ [c], by simp, h.char hc⟩
      · next hc =>
        -- Both ways to end put `c` back.
        have hdone : (∀ rest', c :: text = backslash :: rest' →
            rest'.head?.any (fun c => isUniversalMark c.toNat) = false) →
            plainly.Takes text
              (do unread c; pure (.done (first :: content).reverse.reverse))
              (Turn (NameBegun first mid) (NameDone first mid)) := by
          intro hmark
          refine (reads_unread hcr).bind_takes fun _ _ => takes_pure ?_
          exact ⟨content, List.reverse_reverse _, h, by simpa using hc, hmark⟩
        split
        · next hbackslash =>
          subst hbackslash
          refine (reads_peekIs _).bind_takes ?_
          rintro _ rfl
          split
          · next hmark =>
            refine (takes_escape_named hmark).bind fun code rest hcode => ?_
            refine (takes_universalBytes code).bind ?_
            rintro _ rest ⟨hlt, rfl⟩
            refine takes_pure ⟨content ++ Utf8.sequence code, by simp, ?_⟩
            exact h.universal (Utf8.sequence_ne_nil code)
              (fun b hb => isUniversalByte_of_mem hcode hlt hb) rest
          · next hmark =>
            refine hdone fun rest' hrest => ?_
            rw [← (List.cons.inj hrest).2]
            simpa using hmark
        · next hbackslash =>
          exact hdone fun rest' hrest => absurd (List.cons.inj hrest).1 hbackslash

theorem takes_ident (first : UInt8) :
    plainly.Takes mid (ident first) fun t rest => ∃ content, t.encoding = .plain ∧
      t.lexeme = .ident (Utf8.decode (first :: content)) ∧ NameRead mid content rest ∧
        Lexeme.NameEnds rest := by
  have hloop : plainly.Takes mid (loop identRound progress_identRound [first])
      (NameDone first mid) := by
    refine takes_loop (I := NameBegun first mid) ?_ [first] ⟨[], rfl, by simp, Or.inl rfl⟩
    rintro _ text ⟨content, rfl, h⟩
    exact takes_identRound content h
  refine hloop.bind ?_
  rintro _ rest ⟨content, rfl, hread, hends⟩
  exact takes_finish fun t hlexeme hencoding => ⟨content, hencoding, hlexeme, hread, hends⟩

theorem goesOn_name {c : UInt8} {content : List UInt8} (hfirst : isIdentStart c.toNat = true)
    (hread : NameRead mid content rest) (hends : Lexeme.NameEnds rest)
    (hquote : encodingOf? c ≠ none → mid.head? ≠ some doubleQuote ∧ mid.head? ≠ some singleQuote)
    (height : c = byte 'u' → ∀ tail, mid = byte '8' :: tail → tail.head? ≠ some doubleQuote) :
    (Lexeme.ident (Utf8.decode (c :: content))).goesOn rest = false := by
  have hdots : Utf8.decode (c :: content) ≠ ".." := by
    intro hname
    have hbytes := Utf8.eq_bytes_of_decode ['.', '.'] hname (by simp)
    rw [(List.cons.inj hbytes).1] at hfirst
    exact absurd hfirst (by decide)
  have hletter : Utf8.decode (c :: content) ∈ ["L", "u", "U"] →
      rest.head? ≠ some doubleQuote ∧ rest.head? ≠ some singleQuote := by
    intro hname
    have hone : encodingOf? c ≠ none ∧ content = [] := by
      have hbytes : ∀ a : Char, a.toNat < 0x80 → encodingOf? (byte a) ≠ none →
          Utf8.decode (c :: content) = String.ofList [a] → encodingOf? c ≠ none ∧ content = [] := by
        intro a hascii hencoding h
        have hbytes := Utf8.eq_bytes_of_decode [a] h (List.forall_mem_singleton.mpr hascii)
        rcases List.cons.inj hbytes with ⟨rfl, rfl⟩
        exact ⟨hencoding, rfl⟩
      simp only [List.mem_cons, List.not_mem_nil, or_false] at hname
      rcases hname with h | h | h
      · exact hbytes 'L' (by decide) (by decide) h
      · exact hbytes 'u' (by decide) (by decide) h
      · exact hbytes 'U' (by decide) (by decide) h
    rcases hone with ⟨hencoding, rfl⟩
    rcases hread.2 with hmid | ⟨b, hb, -⟩
    · rw [← show mid = rest from hmid]
      exact hquote hencoding
    · cases hb
  have hlong : Utf8.decode (c :: content) = "u8" → rest.head? ≠ some doubleQuote := by
    intro hname
    have hbytes := Utf8.eq_bytes_of_decode ['u', '8'] hname (by simp)
    rcases List.cons.inj hbytes with ⟨hc, rfl⟩
    rcases hread.2 with hmid | ⟨b, hb, huniversal⟩
    · exact height hc rest hmid
    · rw [List.mem_singleton.mp hb] at huniversal
      exact absurd huniversal (by decide)
  refine (Lexeme.goesOn_ident hdots).mpr ⟨hends, fun hname => ?_, fun hname => (hletter hname).2⟩
  rcases List.mem_append.mp (show _ ∈ ["L", "u", "U"] ++ ["u8"] from hname) with hname | hname
  · exact (hletter hname).1
  · exact hlong (List.mem_singleton.mp hname)

theorem cut_name {c : UInt8} {content : List UInt8} {t : Token}
    (hfirst : isIdentStart c.toNat = true) (hencoding : t.encoding = .plain)
    (hlexeme : t.lexeme = .ident (Utf8.decode (c :: content))) (hread : NameRead mid content rest)
    (hstops : t.lexeme.goesOn rest = false) : Cut c mid rest t := by
  refine ⟨?_, ?_, Or.inr hstops, ?_⟩
  · rw [hlexeme]
    exact ⟨hencoding, Or.inr ⟨c, content, rfl, hfirst, hread.1⟩⟩
  · rcases Utf8.encode_decode_cons c content with ⟨d, w, hwritten, hd⟩
    rw [Token.spelling, hlexeme, Lexeme.spelling, hwritten]
    refine ⟨d, rfl, hd.imp Eq.symm fun h => Or.inl ⟨?_, h.2⟩⟩
    have hle := h.1
    rw [UInt8.lt_iff_toNat_lt] at hle
    exact Nat.le_of_not_lt hle
  · rw [hlexeme]
    exact fun _ h => by cases h

def NumberRead (c : UInt8) (mid chars rest : List UInt8) : Prop :=
  mid = chars ++ rest ∧ (c :: chars).IsChain fun c d => extendsNumber c d = true

theorem takes_number (c : UInt8) :
    plainly.Takes mid (number c) fun t rest => ∃ chars, t.encoding = .plain ∧
      t.lexeme = .number (textOf (c :: chars)) ∧ NumberRead c mid chars rest ∧
        ∀ last, (c :: chars).getLast? = some last →
          rest.head?.any (extendsNumber last) = false := by
  have hloop : plainly.Takes mid (loop numberRound progress_numberRound (c, [])) fun word rest =>
      ∃ chars, word = c :: chars ∧ NumberRead c mid chars rest ∧
        ∀ last, (c :: chars).getLast? = some last →
          rest.head?.any (extendsNumber last) = false := by
    refine takes_loop (I := fun s rest => ∃ chars, (s.1 :: s.2).reverse = c :: chars ∧
      NumberRead c mid chars rest) ?_ (c, []) ⟨[], rfl, rfl, List.isChain_singleton c⟩
    rintro ⟨last, before⟩ text ⟨chars, hchars, htext, hchain⟩
    have hlast : (c :: chars).getLast? = some last := by
      rw [← hchars, List.getLast?_reverse, List.head?_cons]
    refine (takes_takeIf _).bind ?_
    rintro (_ | d) rest h
    · rcases h with ⟨rfl, hother⟩
      refine takes_pure ⟨chars, hchars, ⟨htext, hchain⟩, fun last' hlast' => ?_⟩
      rw [hlast, Option.some.injEq] at hlast'
      exact hlast' ▸ hother
    · rcases h with ⟨rfl, hd⟩
      refine takes_pure ⟨chars ++ [d], ?_, by rw [htext]; simp, ?_⟩
      · dsimp only at hchars ⊢
        rw [List.reverse_cons, hchars]
        rfl
      · rw [← List.cons_append, List.isChain_append]
        refine ⟨hchain, List.isChain_singleton d, fun x hx y hy => ?_⟩
        rw [hlast, Option.mem_some_iff] at hx
        rw [List.head?_cons, Option.mem_some_iff] at hy
        exact hx ▸ hy ▸ hd
  refine hloop.bind ?_
  rintro _ rest ⟨chars, rfl, hread, hends⟩
  exact takes_finish fun t hlexeme hencoding => ⟨chars, hencoding, hlexeme, hread, hends⟩

theorem cut_number {c : UInt8} {chars : List UInt8} {t : Token} (hencoding : t.encoding = .plain)
    (hlexeme : t.lexeme = .number (textOf (c :: chars))) (hread : NumberRead c mid chars rest)
    (hbegins : Lexeme.beginsNumber (c :: chars) = true)
    (hends : ∀ last, (c :: chars).getLast? = some last →
      rest.head?.any (extendsNumber last) = false) : Cut c mid rest t := by
  have hwritten : Utf8.encode (textOf (c :: chars)) = c :: chars :=
    Utf8.encode_textOf fun b hb => (Lexeme.number_bytes hbegins hread.2 b hb).2
  refine ⟨?_, ?_, Or.inr ?_, ?_⟩
  · rw [hlexeme]
    exact ⟨hencoding, c :: chars, rfl, hbegins, hread.2⟩
  · rw [Token.spelling, hlexeme, Lexeme.spelling, hwritten]
    exact ⟨c, rfl, Or.inl rfl⟩
  · rw [hlexeme]
    cases rest with
    | nil => rfl
    | cons d rest =>
        rw [Lexeme.goesOn, Lexeme.goesOnWith, hwritten, List.getLast?_eq_some_getLast (by simp)]
        exact hends _ (List.getLast?_eq_some_getLast (by simp))
  · rw [hlexeme]
    exact fun _ h => by cases h

end CLex.Outlook
