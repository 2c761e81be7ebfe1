import CLex.Lexer.Fresh
import CLex.Proofs.Longest
import CLex.Proofs.Transcoding

/-!
What lexemes are made of, and which characters directly behind one would be read as a part of it.
A lexeme that is written with its primary spelling need not be followed by the character that stood
behind it when it was read, but only by one that is kin to it: the same, or one that goes on no more
lexemes than that did.
-/

namespace CLex

open Character Lexer

namespace Lexeme

def isNameByte (b : UInt8) : Bool :=
  isIdentChar b.toNat || b == byte '@' || b == byte '\x60'

/-- The first characters of a number: a digit, or a dot and a digit. -/
def beginsNumber : List UInt8 → Bool
  | [] => false
  | c :: rest => isDigit c.toNat || (c == byte '.' && rest.head?.any fun d => isDigit d.toNat)

/-- A character that begins neither a line nor a word nor a literal. -/
def isSymbol (c : UInt8) : Bool :=
  !isIdentStart c.toNat && !isDigit c.toNat &&
    !([Character.newline, doubleQuote, singleQuote].contains c)

/-- A character that is no token and begins none. -/
def isOdd (c : UInt8) : Bool :=
  isSymbol c && c != carriageReturn && !isBlank c.toNat && (Punctuator.ofSpelling? [c]).isNone

/-- What is known of a lexeme that has been read, with its encoding. -/
def Formed (encoding : Encoding) : Lexeme → Prop
  | .ident name => encoding = .plain ∧ (name = ".." ∨ ∃ c content,
      name = Utf8.decode (c :: content) ∧ isIdentStart c.toNat = true ∧
        ∀ b ∈ content, isNameByte b = true)
  | .number spelled => encoding = .plain ∧ ∃ chars,
      spelled = textOf chars ∧ beginsNumber chars = true ∧
        chars.IsChain fun c d => extendsNumber c d = true
  | .punctuator _ => encoding = .plain
  | .string _ => True
  | .char value => encoding ≠ .utf8 ∧
      if encoding = .plain then -0x80 ≤ value ∧ value < 0x80 else 0 ≤ value
  | .invalid spelled => encoding = .plain ∧ ∃ c, spelled = text c ∧ isOdd c = true
  | .blank | .newline | .eof => False

/-- Whether the spelling of the lexeme stands for it: a name is spelled without the two characters
that only a universal character name can bring into it, and a value that such a name is written for
is one that it may denote. -/
def Spellable : Lexeme → Prop
  | .ident name => '@' ∉ name.toList ∧ '\x60' ∉ name.toList
  | .char value => ¬ (0xD800 ≤ value ∧ value ≤ 0xDFFF) ∧ value ≤ 0xFFFFFFFF
  | _ => True

instance : (lexeme : Lexeme) → Decidable lexeme.Spellable
  | .ident _ | .char _ => inferInstanceAs (Decidable (_ ∧ _))
  | .punctuator _ | .number _ | .string _ | .blank | .newline | .eof | .invalid _ =>
      inferInstanceAs (Decidable True)

/-- Whether `d` goes on the lexeme when it comes directly behind it, with `e` behind `d`. -/
def goesOnWith : Lexeme → (d : UInt8) → (e : Option UInt8) → Bool
  | .ident name, d, e =>
      if name = ".." then d == byte '.'
      else
        isIdentChar d.toNat || (d == backslash && e.any fun e => isUniversalMark e.toNat) ||
          (d == doubleQuote && ["L", "u", "U", "u8"].contains name) ||
          (d == singleQuote && ["L", "u", "U"].contains name)
  | .number spelled, d, _ => (Utf8.encode spelled).getLast?.any fun c => extendsNumber c d
  | .punctuator p, d, _ =>
      Punctuator.isBeginning (bytes p.entry.spelling ++ [d]) ||
        (p == .slash && (d == byte '*' || d == byte '/')) || (p == .dot && isDigit d.toNat)
  | _, _, _ => false

/-- Whether a text that comes directly behind the lexeme goes it on. -/
def goesOn (lexeme : Lexeme) : List UInt8 → Bool
  | [] => false
  | d :: rest => lexeme.goesOnWith d rest.head?

end Lexeme

namespace Lexeme

variable {c d : UInt8} {e e' : Option UInt8} {lexeme : Lexeme}

/-- No name goes on here. -/
def NameEnds (rest : List UInt8) : Prop :=
  rest.head?.any (fun c => isIdentChar c.toNat) = false ∧
    ∀ rest', rest = backslash :: rest' →
      rest'.head?.any (fun c => isUniversalMark c.toNat) = false

theorem goesOn_ident {name : String} (hdots : name ≠ "..") {rest : List UInt8} :
    (ident name).goesOn rest = false ↔ NameEnds rest ∧
      (name ∈ ["L", "u", "U", "u8"] → rest.head? ≠ some doubleQuote) ∧
        (name ∈ ["L", "u", "U"] → rest.head? ≠ some singleQuote) := by
  cases rest with
  | nil => simp [goesOn, NameEnds]
  | cons d rest =>
      have hmark : (∀ rest', d :: rest = backslash :: rest' →
          rest'.head?.any (fun c => isUniversalMark c.toNat) = false) ↔
          (d = backslash → rest.head?.any (fun c => isUniversalMark c.toNat) = false) := by
        constructor
        · exact fun h hd => h rest (hd ▸ rfl)
        · intro h rest' heq
          rcases List.cons.inj heq with ⟨hd, rfl⟩
          exact h hd
      simp only [goesOn, goesOnWith, NameEnds, hmark, if_neg hdots, Bool.or_eq_false_iff,
        Bool.and_eq_false_imp, beq_iff_eq, List.contains_eq_mem, decide_eq_false_iff_not,
        List.head?_cons, Option.any_some, ne_eq, Option.some.injEq]
      tauto

def isWordByte (b : UInt8) : Bool :=
  isIdentChar b.toNat || isSign b.toNat || b == byte '.'

theorem isWordByte_of_extendsNumber {last c : UInt8} (h : extendsNumber last c = true) :
    isWordByte c = true ∧ c.toNat < 0x80 := by
  simp only [extendsNumber, isWordByte, isIdentChar, isIdentStart, isDigit, isLetter, isSign,
    Bool.or_eq_true, Bool.and_eq_true, decide_eq_true_eq, beq_iff_eq] at h ⊢
  have hdot : c = byte '.' → c.toNat < 0x80 := by
    rintro rfl
    decide
  constructor
  · tauto
  · rcases h with ((h | h) | h) | h
    · omega
    · omega
    · exact hdot h
    · omega

theorem number_bytes {chars : List UInt8} (hbegins : beginsNumber chars = true)
    (hchain : chars.IsChain fun c d => extendsNumber c d = true) :
    ∀ b ∈ chars, isWordByte b = true ∧ b.toNat < 0x80 := by
  have htail : ∀ (chars : List UInt8) (c : UInt8),
      (c :: chars).IsChain (fun c d => extendsNumber c d = true) →
        ∀ b ∈ chars, isWordByte b = true ∧ b.toNat < 0x80 := by
    intro chars
    induction chars with
    | nil => exact fun _ _ _ hb => absurd hb List.not_mem_nil
    | cons d chars ih =>
        intro c hchain
        rw [List.isChain_cons_cons] at hchain
        exact List.forall_mem_cons.mpr ⟨isWordByte_of_extendsNumber hchain.1, ih d hchain.2⟩
  cases chars with
  | nil => cases hbegins
  | cons c chars =>
      have hc : extendsNumber c c = true := by
        simp only [beginsNumber, Bool.or_eq_true, Bool.and_eq_true] at hbegins
        rcases hbegins with hdigit | ⟨hdot, -⟩
        · simp [extendsNumber, hdigit]
        · simp [extendsNumber, hdot]
      exact List.forall_mem_cons.mpr ⟨isWordByte_of_extendsNumber hc, htail chars c hchain⟩

theorem written_punctuator (p : Punctuator) : Utf8.encode p.spelling = bytes p.entry.spelling := by
  have hascii : ∀ p : Punctuator, (p.entry.spelling.all fun c => c.toNat < 0x80) = true := by
    intro p
    cases p <;> decide
  exact Utf8.encode_ascii fun c hc => of_decide_eq_true (List.all_eq_true.mp (hascii p) c hc)

theorem encode_text_odd {c : UInt8} (hc : isOdd c = true) : Utf8.encode (text c) = [c] := by
  rw [show text c = textOf [c] from rfl]
  refine Utf8.encode_textOf (List.forall_mem_singleton.mpr ?_)
  simp only [isOdd, isSymbol, Bool.and_eq_true, Bool.not_eq_true', isIdentStart,
    Bool.or_eq_false_iff, decide_eq_false_iff_not] at hc
  omega

/-- A character that goes on no name, no number and no dot, and makes no comment of a slash. -/
def isIdle (d : UInt8) : Bool :=
  !isIdentChar d.toNat && !isSign d.toNat &&
    !([byte '.', backslash, doubleQuote, singleQuote, byte '*', byte '/'].contains d)

theorem goesOnWith_idle (hd : isIdle d = true)
    (hbeginning : ∀ p, lexeme = .punctuator p →
      Punctuator.isBeginning (bytes p.entry.spelling ++ [d]) = false) :
    lexeme.goesOnWith d e = false := by
  simp only [isIdle, Bool.and_eq_true, Bool.not_eq_true', List.contains_eq_mem,
    decide_eq_false_iff_not, List.mem_cons, List.not_mem_nil, or_false, not_or] at hd
  rcases hd with ⟨⟨hident, hsign⟩, hdot, hbackslash, hdouble, hsingle, hstar, hslash⟩
  have hword : isDigit d.toNat = false ∧ isLetter d.toNat = false := by
    simp only [isIdentChar, isIdentStart, Bool.or_eq_false_iff] at hident
    exact ⟨hident.2, hident.1.1.1.1⟩
  cases lexeme with
  | ident name => simp [goesOnWith, hident, hdot, hbackslash, hdouble, hsingle]
  | number spelled =>
      refine Bool.eq_false_iff.mpr fun h => ?_
      rw [goesOnWith, Option.any_eq_true] at h
      rcases h with ⟨c, -, hc⟩
      simp [extendsNumber, hword, hdot, hsign] at hc
  | punctuator p => simp [goesOnWith, hbeginning p rfl, hstar, hslash, hword]
  | _ => rfl

/-- The characters that a digraph may be written as. -/
def brackets : List UInt8 :=
  bytes ['[', ']', '\x7b', '\x7d', '#']

theorem goesOnWith_bracket (hl : lexeme ≠ .punctuator .hash) (hd : d ∈ brackets) :
    lexeme.goesOnWith d e = false := by
  refine goesOnWith_idle ((by decide +kernel : ∀ d ∈ brackets, isIdle d = true) d hd) ?_
  rintro p rfl
  have hbeginning : ∀ p, p ≠ Punctuator.hash → ∀ d ∈ brackets,
      Punctuator.isBeginning (bytes p.entry.spelling ++ [d]) = false := by
    intro p
    cases p <;> decide +kernel
  exact hbeginning p (fun h => hl (by rw [h])) d hd

theorem ascii_of_isBeginning {word : List UInt8} (h : Punctuator.isBeginning (word ++ [d]) = true) :
    0x21 ≤ d.toNat ∧ d.toNat < 0x7F := by
  have htable : ∀ e ∈ Punctuator.table, ∀ c ∈ e.1, 0x21 ≤ c.toNat ∧ c.toNat < 0x7F := by
    decide +kernel
  rcases Punctuator.isBeginning_iff.mp h with ⟨entry, hentry, hpre⟩
  exact htable entry hentry d (hpre.subset (List.mem_append_right word List.mem_cons_self))

theorem goesOnWith_break (hd : d ∈ [Character.newline, byte ' ']) :
    lexeme.goesOnWith d e = false := by
  have hidle : ∀ d ∈ [Character.newline, byte ' '], isIdle d = true ∧ d.toNat < 0x21 := by
    decide +kernel
  refine goesOnWith_idle (hidle d hd).1 fun p _ => Bool.eq_false_iff.mpr fun h => ?_
  exact absurd (ascii_of_isBeginning h).1 (by have := (hidle d hd).2; omega)

theorem goesOnWith_not_ascii (hd : 0x80 ≤ d.toNat) :
    lexeme.goesOnWith d e = match lexeme with
      | .ident name => name != ".."
      | _ => false := by
  have hne : ∀ c : UInt8, c.toNat < 0x80 → d ≠ c := by
    rintro c hc rfl
    omega
  cases lexeme with
  | ident name =>
      have hident : isIdentChar d.toNat = true := by simp [isIdentChar, isIdentStart, hd]
      by_cases hname : name = ".."
      · simp [goesOnWith, hname, hne (byte '.') (by decide)]
      · simp [goesOnWith, hname, hident]
  | number spelled =>
      refine Bool.eq_false_iff.mpr fun h => ?_
      rw [goesOnWith, Option.any_eq_true] at h
      rcases h with ⟨c, -, hc⟩
      simp only [extendsNumber, isDigit, isLetter, isSign, Bool.or_eq_true, Bool.and_eq_true,
        decide_eq_true_eq, beq_iff_eq, hne (byte '.') (by decide), or_false] at hc
      omega
  | punctuator p =>
      have hbeginning : Punctuator.isBeginning (bytes p.entry.spelling ++ [d]) = false :=
        Bool.eq_false_iff.mpr fun h => absurd (ascii_of_isBeginning h).2 (by omega)
      have hdigit : isDigit d.toNat = false := by
        simp only [isDigit, Bool.and_eq_false_iff, decide_eq_false_iff_not]
        omega
      simp [goesOnWith, hbeginning, hne (byte '*') (by decide), hne (byte '/') (by decide), hdigit]
  | _ => rfl

theorem goesOnWith_mono (h : lexeme.goesOnWith d e = true)
    (he : d = backslash → e.any (fun e => isUniversalMark e.toNat) = true →
      e'.any (fun e => isUniversalMark e.toNat) = true) : lexeme.goesOnWith d e' = true := by
  cases lexeme with
  | ident name =>
      by_cases hname : name = ".."
      · simpa [goesOnWith, hname] using h
      · simp only [goesOnWith, if_neg hname, Bool.or_eq_true, Bool.and_eq_true, beq_iff_eq] at h ⊢
        exact h.imp_left (Or.imp_left (Or.imp_right fun h => ⟨h.1, he h.1 h.2⟩))
  | _ => exact h

/-- Behind a lexeme `d` may be written where `c` was read: it is the same, or both are outside
ASCII, or it is what a digraph is written as. -/
def Kin (c d : UInt8) : Prop :=
  c = d ∨ (0x80 ≤ c.toNat ∧ 0x80 ≤ d.toNat) ∨ d ∈ brackets

theorem goesOnWith_kin (hl : lexeme ≠ .punctuator .hash) (hkin : Kin c d)
    (h : lexeme.goesOnWith d e = true)
    (he : d = backslash → e.any (fun e => isUniversalMark e.toNat) = true →
      e'.any (fun e => isUniversalMark e.toNat) = true) : lexeme.goesOnWith c e' = true := by
  rcases hkin with rfl | ⟨hc, hd⟩ | hd
  · exact goesOnWith_mono h he
  · rw [goesOnWith_not_ascii hc]
    rwa [goesOnWith_not_ascii hd] at h
  · rw [goesOnWith_bracket hl hd] at h
    cases h

end Lexeme

end CLex
