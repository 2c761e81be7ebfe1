import CLex.Proofs.Leading
import CLex.Proofs.Lexemes
import CLex.Proofs.Respelling

namespace CLex

open Character Lexer LexM

/-- What a number may go on with: a digit, a letter, a dot, or an exponent letter and its sign. -/
inductive NumberItem : List UInt8 → Prop
  | single {c : UInt8} (h : isDigit c.toNat = true ∨ isLetter c.toNat = true ∨ c = byte '.') :
      NumberItem [c]
  | exponent {e s : UInt8} (he : isExponentMark e.toNat = true) (hs : isSign s.toNat = true) :
      NumberItem [e, s]

/-- A number: a digit, which may have a dot before it, and items. -/
inductive IsNumber : List UInt8 → Prop
  | digit {d : UInt8} {items : List (List UInt8)} (hd : isDigit d.toNat = true)
      (hitems : ∀ item ∈ items, NumberItem item) : IsNumber (d :: items.flatten)
  | dot {d : UInt8} {items : List (List UInt8)} (hd : isDigit d.toNat = true)
      (hitems : ∀ item ∈ items, NumberItem item) : IsNumber (byte '.' :: d :: items.flatten)

/-- The characters go one another on. -/
def Extends (chars : List UInt8) : Prop :=
  chars.IsChain fun c d => extendsNumber c d = true

theorem extendsNumber_of_single {c : UInt8} (last : UInt8)
    (h : isDigit c.toNat = true ∨ isLetter c.toNat = true ∨ c = byte '.') :
    extendsNumber last c = true := by
  simp only [extendsNumber, Bool.or_eq_true, beq_iff_eq]
  rcases h with h | h | h
  · exact Or.inl (Or.inl (Or.inl h))
  · exact Or.inl (Or.inl (Or.inr h))
  · exact Or.inl (Or.inr h)

theorem isLetter_of_isExponentMark {code : Nat} (h : isExponentMark code = true) :
    isLetter code = true := by
  simp only [isExponentMark, isLetter, Bool.or_eq_true, Bool.and_eq_true, beq_iff_eq,
    decide_eq_true_eq] at h ⊢
  omega

theorem not_isExponentMark_of_isDigit {code : Nat} (h : isDigit code = true) :
    isExponentMark code = false := by
  simp only [isExponentMark, isDigit, Bool.or_eq_false_iff, Bool.and_eq_true,
    decide_eq_true_eq, beq_eq_false_iff_ne] at h ⊢
  omega

theorem extends_items {items : List (List UInt8)} (h : ∀ item ∈ items, NumberItem item)
    (last : UInt8) : Extends (last :: items.flatten) := by
  induction items generalizing last with
  | nil => exact List.isChain_singleton last
  | cons item items ih =>
      have htail := ih fun i hi => h i (List.mem_cons_of_mem item hi)
      cases h item List.mem_cons_self with
      | single hc => exact List.isChain_cons_cons.mpr ⟨extendsNumber_of_single last hc, htail _⟩
      | @exponent e s he hs =>
          have hletter := isLetter_of_isExponentMark he
          have hsign : extendsNumber e s = true := by simp [extendsNumber, he, hs]
          exact List.isChain_cons_cons.mpr
            ⟨extendsNumber_of_single last (Or.inr (Or.inl hletter)),
              List.isChain_cons_cons.mpr ⟨hsign, htail s⟩⟩

theorem items_of_extends {chars : List UInt8} {last : UInt8} (h : Extends (last :: chars)) :
    ∃ items : List (List UInt8), (∀ item ∈ items, NumberItem item) ∧
      (chars = items.flatten ∨ ∃ s, isExponentMark last.toNat = true ∧ isSign s.toNat = true ∧
        chars = s :: items.flatten) := by
  induction chars generalizing last with
  | nil => exact ⟨[], by simp, Or.inl rfl⟩
  | cons c chars ih =>
      rcases List.isChain_cons_cons.mp h with ⟨hc, htail⟩
      rcases ih htail with ⟨items, hitems, hrest | ⟨s, he, hs, hrest⟩⟩
      · by_cases hsingle : isDigit c.toNat = true ∨ isLetter c.toNat = true ∨ c = byte '.'
        · refine ⟨[c] :: items, ?_, Or.inl (by rw [hrest]; rfl)⟩
          exact List.forall_mem_cons.mpr ⟨.single hsingle, hitems⟩
        · simp only [not_or, Bool.not_eq_true] at hsingle
          simp only [extendsNumber, hsingle.1, hsingle.2.1, beq_eq_false_iff_ne.mpr hsingle.2.2,
            Bool.false_or, Bool.and_eq_true] at hc
          exact ⟨items, hitems, Or.inr ⟨c, hc.1, hc.2, by rw [hrest]⟩⟩
      · refine ⟨[c, s] :: items, ?_, Or.inl (by rw [hrest]; rfl)⟩
        exact List.forall_mem_cons.mpr ⟨.exponent he hs, hitems⟩

theorem items_of_digit {chars : List UInt8} {d : UInt8} (hd : isDigit d.toNat = true)
    (h : Extends (d :: chars)) :
    ∃ items : List (List UInt8), (∀ item ∈ items, NumberItem item) ∧ chars = items.flatten := by
  rcases items_of_extends h with ⟨items, hitems, hchars | ⟨s, he, -⟩⟩
  · exact ⟨items, hitems, hchars⟩
  · rw [not_isExponentMark_of_isDigit hd] at he
    cases he

/-- The grammar of numbers is what the lexer goes by. -/
theorem isNumber_iff {chars : List UInt8} :
    IsNumber chars ↔ Lexeme.beginsNumber chars = true ∧ Extends chars := by
  constructor
  · rintro (⟨hd, hitems⟩ | ⟨hd, hitems⟩)
    · exact ⟨by simp [Lexeme.beginsNumber, hd], extends_items hitems _⟩
    · refine ⟨by simp [Lexeme.beginsNumber, hd], ?_⟩
      exact List.isChain_cons_cons.mpr
        ⟨extendsNumber_of_single _ (Or.inl hd), extends_items hitems _⟩
  · rintro ⟨hbegins, hextends⟩
    cases chars with
    | nil => cases hbegins
    | cons c chars =>
        cases chars with
        | nil =>
            have hc : isDigit c.toNat = true := by simpa [Lexeme.beginsNumber] using hbegins
            have hnil : IsNumber (c :: ([] : List (List UInt8)).flatten) := .digit hc (by simp)
            exact hnil
        | cons d chars =>
            simp only [Lexeme.beginsNumber, Bool.or_eq_true, Bool.and_eq_true, beq_iff_eq,
              List.head?_cons, Option.any_some] at hbegins
            rcases hbegins with hc | ⟨rfl, hd⟩
            · rcases items_of_digit hc hextends with ⟨items, hitems, hchars⟩
              rw [hchars]
              exact .digit hc hitems
            · rcases items_of_digit hd (List.isChain_cons_cons.mp hextends).2 with
                ⟨items, hitems, rfl⟩
              exact .dot hd hitems

/-- The text begins with the number, and with no longer one. -/
def LongestNumber (text number : List UInt8) : Prop :=
  IsNumber number ∧ number <+: text ∧
    ∀ number', IsNumber number' → number' <+: text → number'.length ≤ number.length

theorem LongestNumber.unique {text number number' : List UInt8} (h : LongestNumber text number)
    (h' : LongestNumber text number') : number = number' := by
  have hlen := h'.2.2 number h.1 h.2.1
  exact (List.prefix_of_prefix_length_le h.2.1 h'.2.1 hlen).eq_of_length_le
    (h.2.2 number' h'.1 h'.2.1)

theorem exists_extends (first : UInt8) (text : List UInt8) :
    ∃ chars rest, text = chars ++ rest ∧ Extends (first :: chars) ∧
      ∀ last, (first :: chars).getLast? = some last →
        rest.head?.any (extendsNumber last) = false := by
  induction text generalizing first with
  | nil => exact ⟨[], [], rfl, List.isChain_singleton first, fun _ _ => rfl⟩
  | cons c text ih =>
      by_cases hc : extendsNumber first c = true
      · rcases ih c with ⟨chars, rest, rfl, hextends, hrest⟩
        refine ⟨c :: chars, rest, rfl, List.isChain_cons_cons.mpr ⟨hc, hextends⟩, ?_⟩
        intro last hlast
        exact hrest last (by rwa [List.getLast?_cons_cons] at hlast)
      · refine ⟨[], c :: text, rfl, List.isChain_singleton first, ?_⟩
        rintro last ⟨⟩
        simpa using hc

theorem longestNumber_of_extends {first : UInt8} {chars rest : List UInt8}
    (hbegins : Lexeme.beginsNumber (first :: chars) = true) (h : Extends (first :: chars))
    (hrest : ∀ last, (first :: chars).getLast? = some last →
      rest.head?.any (extendsNumber last) = false) :
    LongestNumber (first :: chars ++ rest) (first :: chars) := by
  refine ⟨isNumber_iff.mpr ⟨hbegins, h⟩, List.prefix_append _ rest, fun number hnumber hpre => ?_⟩
  by_contra hlen
  rw [Nat.not_le] at hlen
  rcases List.prefix_of_prefix_length_le (List.prefix_append (first :: chars) rest) hpre
    (Nat.le_of_lt hlen) with ⟨more, rfl⟩
  rw [List.prefix_append_right_inj] at hpre
  rcases hpre with ⟨tail, rfl⟩
  cases more with
  | nil => simp at hlen
  | cons c more =>
      have hseam := (List.isChain_append.mp (isNumber_iff.mp hnumber).2).2.2
      rcases hlast : (first :: chars).getLast? with _ | last
      · simp at hlast
      · have hgoes := hseam last hlast c rfl
        have hstops := hrest last hlast
        simp [hgoes] at hstops

theorem exists_longestNumber {text : List UInt8} (h : Lexeme.beginsNumber text = true) :
    ∃ first chars rest, text = first :: chars ++ rest ∧
      Lexeme.beginsNumber (first :: chars) = true ∧ Extends (first :: chars) ∧
      ∀ last, (first :: chars).getLast? = some last →
        rest.head?.any (extendsNumber last) = false := by
  cases text with
  | nil => cases h
  | cons first text =>
      rcases exists_extends first text with ⟨chars, rest, rfl, hextends, hrest⟩
      refine ⟨first, chars, rest, rfl, ?_, hextends, hrest⟩
      simp only [Lexeme.beginsNumber, Bool.or_eq_true, Bool.and_eq_true, beq_iff_eq] at h ⊢
      refine h.imp_right fun hdot => ⟨hdot.1, ?_⟩
      cases chars with
      | cons d chars => exact hdot.2
      | nil =>
          have hstops := hrest first rfl
          cases rest with
          | nil => cases hdot.2
          | cons d rest =>
              have hd : isDigit d.toNat = true := hdot.2
              simp [extendsNumber, hd] at hstops

variable {σ : Type} [CharStream σ] {O : Outlook σ} {text : List UInt8}

def Lexeme.Other (lexeme : Lexeme) : Prop :=
  ∀ spelled, lexeme ≠ .number spelled

/-- Whatever the operation makes, if it makes anything, is no number. -/
def Outlook.Avoids (O : Outlook σ) (text : List UInt8) (m : LexOn σ Token) : Prop :=
  Leads (fun _ _ => True) (O.faces text) m fun t _ => t.lexeme.Other

namespace Outlook

theorem avoids_of_makes {m : LexOn σ Token} (h : Makes Lexeme.Other m) : O.Avoids text m := by
  intro lx _
  cases hm : m lx with
  | ok t lx' => exact h lx t lx' hm
  | error f lx' => trivial

theorem Reads.avoids {α : Type} {m : LexOn σ α} {f : α → LexOn σ Token} {rest : List UInt8}
    {P : α → Prop} (hm : O.Reads text m P rest) (hf : ∀ a, P a → O.Avoids rest (f a)) :
    O.Avoids text (m >>= f) :=
  hm.leads_bind hf

theorem avoids_tokenFrom {c : UInt8} (h : Lexeme.beginsNumber (c :: text) = false) :
    O.Avoids text (tokenFrom c) := by
  rw [Lexeme.beginsNumber, Bool.or_eq_false_iff] at h
  by_cases hdot : c = byte '.'
  · subst hdot
    rw [show tokenFrom (σ := σ) (byte '.') = dots (byte '.') from rfl]
    refine (reads_peekIs _).avoids ?_
    rintro digit rfl
    rw [show text.head?.any (fun d => isDigit d.toNat) = false by simpa using h.2,
      if_neg (by simp)]
    exact avoids_of_makes (makes_dots_else (by simp [Lexeme.Other]) (by simp [Lexeme.Other]))
  · refine avoids_of_makes (makes_tokenFrom ?_ ?_ ?_ ?_ ?_ ?_ ?_ fun hc => absurd hc hdot)
    · simp [Lexeme.Other]
    · simp [Lexeme.Other]
    · simp [Lexeme.Other]
    · simp [Lexeme.Other]
    · rw [h.1]
      intro hdigit
      cases hdigit
    · simp [Lexeme.Other]
    · simp [Lexeme.Other]

theorem avoids_rawToken (hblank : Unblank text) (h : Lexeme.beginsNumber text = false) :
    O.Avoids text rawToken := by
  refine reads_needSource.avoids fun _ _ => (reads_skipBlanks_none hblank).avoids ?_
  rintro _ rfl
  refine reads_setMark.avoids fun _ _ => ?_
  cases text with
  | nil =>
      refine reads_next_end.avoids ?_
      rintro _ rfl
      exact avoids_of_makes (makes_finish (by simp [Lexeme.Other]) .plain)
  | cons c text =>
      refine reads_next.avoids ?_
      rintro _ rfl
      exact avoids_tokenFrom h

end Outlook

/-- Where neither a blank nor a comment comes next, a number is read just if one begins; it is the
longest one, and what follows it is left. -/
theorem rawToken_number {lx : Lexer} (h : lx.stream.IsLone)
    (hblank : Outlook.Unblank lx.stream.readToEnd.1) :
    ((∃ t lx' spelled, rawToken lx = .ok t lx' ∧ t.lexeme = .number spelled) ↔
        Lexeme.beginsNumber lx.stream.readToEnd.1 = true) ∧
      ∀ t lx' spelled, rawToken lx = .ok t lx' → t.lexeme = .number spelled →
        ∃ number, LongestNumber lx.stream.readToEnd.1 number ∧ spelled = textOf number ∧
          lx.stream.readToEnd.1 = number ++ lx'.stream.readToEnd.1 := by
  have reads : Lexeme.beginsNumber lx.stream.readToEnd.1 = true → ∃ number t lx',
      LongestNumber lx.stream.readToEnd.1 number ∧ rawToken lx = .ok t lx' ∧
        t.lexeme = .number (textOf number) ∧
        lx.stream.readToEnd.1 = number ++ lx'.stream.readToEnd.1 := by
    intro hbegins
    rcases exists_longestNumber hbegins with ⟨first, chars, rest, htext, hnumber, hextends, hrest⟩
    have hread := Outlook.reads_token_number (O := Outlook.spliced) hnumber hextends hrest
    rw [← htext] at hread
    rcases rawToken_of_reads h (Outlook.reads_rawToken hblank hread) rfl with
      ⟨t, lx', hraw, hgist, hleft⟩
    refine ⟨first :: chars, t, lx', ?_, hraw, congrArg Prod.fst hgist, by rw [hleft, htext]⟩
    rw [htext]
    exact longestNumber_of_extends hnumber hextends hrest
  have begins : ∀ t lx' spelled, rawToken lx = .ok t lx' → t.lexeme = .number spelled →
      Lexeme.beginsNumber lx.stream.readToEnd.1 = true := by
    intro t lx' spelled hraw hlexeme
    by_contra hnumber
    rw [Bool.not_eq_true] at hnumber
    rcases rawToken_ofRest h hraw with ⟨t', rest, htext, hgist, -⟩
    exact (Outlook.avoids_rawToken hblank hnumber).ok (Outlook.spliced_ofRest lx) htext spelled
      ((congrArg Prod.fst hgist).trans hlexeme)
  refine ⟨⟨?_, ?_⟩, ?_⟩
  · rintro ⟨t, lx', spelled, hraw, hlexeme⟩
    exact begins t lx' spelled hraw hlexeme
  · intro hbegins
    rcases reads hbegins with ⟨number, t, lx', -, hraw, hlexeme, -⟩
    exact ⟨t, lx', _, hraw, hlexeme⟩
  · intro t lx' spelled hraw hlexeme
    rcases reads (begins t lx' spelled hraw hlexeme) with
      ⟨number, t', lx'', hlongest, hraw', hlexeme', hleft⟩
    cases hraw.symm.trans hraw'
    cases hlexeme.symm.trans hlexeme'
    exact ⟨number, hlongest, rfl, hleft⟩

/-- A dot that has been put back, and an exponent whose sign is on the next line. -/
theorem rawToken_number_exponent :
    let source := { Source.ofBytes "t.c" (bytes ['5', 'e', '\\', '\n', '+', '1', '+', '2']) with
      pushback := bytes ['.'] }
    let lx := Lexer.ofStream (Stream.ofSources [source])
    ∃ t lx', rawToken lx = .ok t lx' ∧ t.lexeme = .number ".5e+1" ∧
      lx'.stream.readToEnd.1 = bytes ['+', '2', '\n'] := by
  intro source lx
  have htext : lx.stream.readToEnd.1 =
      bytes ['.', '5', 'e', '+', '1'] ++ bytes ['+', '2', '\n'] := by
    decide +kernel
  have hlone : lx.stream.IsLone := ⟨source, rfl, by decide⟩
  rcases rawToken_number hlone (by rw [htext]; exact ⟨rfl, by decide⟩) with ⟨hiff, hlongest⟩
  rcases hiff.mpr (by rw [htext]; rfl) with ⟨t, lx', spelled, hraw, hlexeme⟩
  rcases hlongest t lx' spelled hraw hlexeme with ⟨number, hnumber, rfl, hleft⟩
  rw [htext] at hnumber hleft
  have hlonger : LongestNumber (bytes ['.', '5', 'e', '+', '1'] ++ bytes ['+', '2', '\n'])
      (bytes ['.', '5', 'e', '+', '1']) := by
    refine longestNumber_of_extends (by decide) (by unfold Extends; decide) ?_
    rintro last ⟨⟩
    decide
  obtain rfl := hnumber.unique hlonger
  exact ⟨t, lx', hraw, hlexeme, (List.append_cancel_left hleft).symm⟩

end CLex
