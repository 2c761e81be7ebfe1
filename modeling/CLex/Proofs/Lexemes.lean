import CLex.Lexer.Fresh

namespace CLex.Lexer

open LexM Character

variable {σ α β : Type}

/-- Every result of the operation satisfies `P`. -/
def Yields (P : α → Prop) (m : LexOn σ α) : Prop :=
  ∀ lx a lx', m lx = .ok a lx' → P a

theorem yields_throw {P : α → Prop} (f : Failure) : Yields P (throw f : LexOn σ α) :=
  fun _ _ _ h => absurd h throw_ne_ok

theorem yields_bind {P : β → Prop} {m : LexOn σ α} {f : α → LexOn σ β} (h : ∀ a, Yields P (f a)) :
    Yields P (m >>= f) := by
  intro lx b lx' hb
  rcases bind_eq_ok.mp hb with ⟨a, lx₁, -, hf⟩
  exact h a _ _ _ hf

variable [CharStream σ]

/-- Every token of the operation has a lexeme and an encoding that satisfy `P`. -/
def Gives (P : Lexeme → Encoding → Prop) (m : LexOn σ Token) : Prop :=
  Yields (fun t => P t.lexeme t.encoding) m

/-- Every token of the operation has a lexeme that satisfies `P`. -/
def Makes (P : Lexeme → Prop) (m : LexOn σ Token) : Prop :=
  Yields (fun t => P t.lexeme) m

theorem encoding_finish {lexeme : Lexeme} {encoding : Encoding} {lx lx' : Lexer σ} {t : Token}
    (h : finish lexeme encoding lx = .ok t lx') : t.encoding = encoding := by
  unfold finish at h
  split at h <;> simp at h <;> simp [← h.1]

/-- What the value of a character literal may be: that of a signed byte, or behind a mark any number
at all. -/
def InRange (encoding : Encoding) (value : Int) : Prop :=
  if encoding = .plain then -0x80 ≤ value ∧ value < 0x80 else 0 ≤ value

theorem inRange_literal (encoding : Encoding) (value : Nat) :
    InRange encoding (if encoding = .plain then plainValue value else value) := by
  unfold InRange
  split
  · unfold plainValue
    exact ⟨Int.le_bmod (x := value) (m := 0x100) (by decide),
      Int.bmod_lt (x := value) (m := 0x100) (by decide)⟩
  · exact Int.natCast_nonneg value

section Gives

variable {P : Lexeme → Encoding → Prop}

theorem gives_finish {lexeme : Lexeme} {encoding : Encoding} (h : P lexeme encoding) :
    Gives (σ := σ) P (finish lexeme encoding) := by
  intro lx t lx' ht
  rw [lexeme_finish ht, encoding_finish ht]
  exact h

theorem gives_stringLiteral {encoding : Encoding} (h : ∀ content, P (.string content) encoding) :
    Gives (σ := σ) P (stringLiteral encoding) :=
  yields_bind fun content => gives_finish (h content)

theorem gives_charLiteral {encoding : Encoding}
    (h : ∀ value, InRange encoding value → P (.char value) encoding) :
    Gives (σ := σ) P (charLiteral encoding) := by
  apply yields_bind
  rintro (_ | d)
  · exact yields_bind fun _ => yields_throw _
  · apply yields_bind
    intro value
    apply yields_bind
    intro e
    split
    · exact gives_finish (h _ (inRange_literal encoding value))
    · exact yields_bind fun _ => yields_throw _

theorem gives_ident (h : ∀ name, P (.ident name) .plain) (first : UInt8) :
    Gives (σ := σ) P (ident first) :=
  yields_bind fun _ => gives_finish (h _)

theorem gives_number (h : ∀ spelled, P (.number spelled) .plain) (first : UInt8) :
    Gives (σ := σ) P (number first) :=
  yields_bind fun _ => gives_finish (h _)

theorem gives_operator {c : UInt8} (h : ∀ p, P (.punctuator p) .plain)
    (hinvalid : P (.invalid (text c)) .plain) : Gives (σ := σ) P (operator c) := by
  unfold operator
  split
  · exact yields_bind fun p => gives_finish (h p)
  · exact gives_finish hinvalid

theorem encodingOf?_ne_utf8 {c : UInt8} {encoding : Encoding}
    (h : encodingOf? c = some encoding) : encoding ≠ .utf8 := by
  rintro rfl
  unfold encodingOf? at h
  repeat' split at h
  all_goals cases h

theorem gives_literalOrIdent (hstring : ∀ content encoding, P (.string content) encoding)
    (hident : ∀ name, P (.ident name) .plain) (c : UInt8) {encoding : Encoding}
    (hchar : ∀ value, InRange encoding value → P (.char value) encoding) :
    Gives (σ := σ) P (literalOrIdent c encoding) := by
  apply yields_bind
  intro quoted
  split
  · exact gives_stringLiteral fun content => hstring content encoding
  · apply yields_bind
    intro quoted
    split
    · exact gives_charLiteral hchar
    · split
      · apply yields_bind
        intro eight
        split
        · apply yields_bind
          intro quoted
          split
          · exact gives_stringLiteral fun content => hstring content .utf8
          · exact yields_bind fun _ => gives_ident hident c
        · exact gives_ident hident c
      · exact gives_ident hident c

theorem gives_dots_else (h : ∀ p, P (.punctuator p) .plain) (hident : P (.ident "..") .plain) :
    Gives (σ := σ) P (do
      if ← skipIf (byte '.') then do
        if ← skipIf (byte '.') then finish (.punctuator .ellipsis)
        else finish (.ident "..")
      else finish (.punctuator .dot)) := by
  apply yields_bind
  intro second
  split
  · apply yields_bind
    intro third
    split
    · exact gives_finish (h _)
    · exact gives_finish hident
  · exact gives_finish (h _)

theorem gives_dots (h : ∀ p, P (.punctuator p) .plain) (hident : P (.ident "..") .plain)
    (hnumber : ∀ spelled, P (.number spelled) .plain) (c : UInt8) :
    Gives (σ := σ) P (dots c) := by
  apply yields_bind
  intro digit
  split
  · exact gives_number hnumber c
  · exact gives_dots_else h hident

/-- The lexemes that a first character may lead to, each with its encodings. -/
theorem gives_tokenFrom {c : UInt8} (hline : c = newline → P .newline .plain)
    (hstring : ∀ content encoding, P (.string content) encoding)
    (hchar : ∀ value encoding, encoding ≠ .utf8 → InRange encoding value → P (.char value) encoding)
    (hident : ∀ name, P (.ident name) .plain)
    (hnumber : isDigit c.toNat = true → ∀ spelled, P (.number spelled) .plain)
    (hpunctuator : ∀ p, P (.punctuator p) .plain) (hinvalid : P (.invalid (text c)) .plain)
    (hdots : c = byte '.' → Gives (σ := σ) P (dots c)) : Gives (σ := σ) P (tokenFrom c) := by
  unfold tokenFrom
  split
  · next hc => exact gives_finish (hline hc)
  · split
    · next hencoding =>
      exact gives_literalOrIdent hstring hident c
        fun value => hchar value _ (encodingOf?_ne_utf8 hencoding)
    · split
      · exact gives_ident hident c
      · split
        · next hc => exact gives_number (hnumber hc) c
        · split
          · exact gives_stringLiteral fun content => hstring content .plain
          · split
            · exact gives_charLiteral fun value => hchar value .plain (by decide)
            · split
              · next hc => exact hdots hc
              · exact gives_operator hpunctuator hinvalid

end Gives

section Makes

variable {P : Lexeme → Prop}

theorem makes_finish {lexeme : Lexeme} (h : P lexeme) (encoding : Encoding) :
    Makes (σ := σ) P (finish lexeme encoding) :=
  gives_finish (P := fun lexeme _ => P lexeme) h

theorem makes_dots_else (h : ∀ p, P (.punctuator p)) (hident : P (.ident "..")) :
    Makes (σ := σ) P (do
      if ← skipIf (byte '.') then do
        if ← skipIf (byte '.') then finish (.punctuator .ellipsis)
        else finish (.ident "..")
      else finish (.punctuator .dot)) :=
  gives_dots_else (P := fun lexeme _ => P lexeme) h hident

theorem makes_dots (h : ∀ p, P (.punctuator p)) (hident : P (.ident ".."))
    (hnumber : ∀ spelled, P (.number spelled)) (c : UInt8) : Makes (σ := σ) P (dots c) :=
  gives_dots (P := fun lexeme _ => P lexeme) h hident hnumber c

theorem makes_tokenFrom {c : UInt8} (hline : c = newline → P .newline)
    (hstring : ∀ content, P (.string content)) (hchar : ∀ value, P (.char value))
    (hident : ∀ name, P (.ident name))
    (hnumber : isDigit c.toNat = true → ∀ spelled, P (.number spelled))
    (hpunctuator : ∀ p, P (.punctuator p)) (hinvalid : P (.invalid (text c)))
    (hdots : c = byte '.' → Makes (σ := σ) P (dots c)) : Makes (σ := σ) P (tokenFrom c) :=
  gives_tokenFrom (P := fun lexeme _ => P lexeme) hline (fun content _ => hstring content)
    (fun value _ _ _ => hchar value) hident hnumber hpunctuator hinvalid hdots

end Makes

/-- Whether a lexeme may begin with `c`. -/
def Fits (c : UInt8) : Lexeme → Prop
  | .newline => c = newline
  | .invalid spelled => spelled = text c
  | .blank | .eof => False
  | _ => True

theorem begins_tokenFrom (c : UInt8) : Makes (σ := σ) (Fits c) (tokenFrom c) :=
  makes_tokenFrom (fun hc => hc) (fun _ => trivial) (fun _ => trivial) (fun _ => trivial)
    (fun _ _ => trivial) (fun _ => trivial) rfl
    fun _ => makes_dots (fun _ => trivial) trivial (fun _ => trivial) c

end CLex.Lexer
