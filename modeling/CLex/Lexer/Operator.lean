import CLex.Lexer.Basic

namespace CLex.Lexer

variable {σ : Type} [CharStream σ]

open LexM Character

/-- The characters that are punctuators by themselves, whatever follows them. -/
def singles : List UInt8 :=
  bytes ['(', ')', ',', ';', '[', ']', '\x7b', '\x7d', '?', '~']

/-- `p` if `expected` follows, and else `other`. -/
def rep (expected : Char) (p other : Punctuator) : LexOn σ Punctuator := do
  if ← skipIf (byte expected) then pure p else pure other

/-- `p` or `q` if the character expected for it follows, and else `other`. -/
def rep2 (first : Char) (p : Punctuator) (second : Char) (q other : Punctuator) :
    LexOn σ Punctuator := do
  if ← skipIf (byte first) then pure p else rep second q other

def dash : LexOn σ Punctuator := do
  if ← skipIf (byte '-') then pure .decrement
  else if ← skipIf (byte '>') then pure .arrow
  else if ← skipIf (byte '=') then pure .minusAssign
  else pure .minus

def less : LexOn σ Punctuator := do
  if ← skipIf (byte '<') then rep '=' .leftShiftAssign .leftShift
  else if ← skipIf (byte '=') then pure .lessEqual
  else if ← skipIf (byte ':') then pure .leftBracket
  else if ← skipIf (byte '%') then pure .leftBrace
  else pure .less

def greater : LexOn σ Punctuator := do
  if ← skipIf (byte '=') then pure .greaterEqual
  else if ← skipIf (byte '>') then rep '=' .rightShiftAssign .rightShift
  else pure .greater

/-- The digraph that begins with a percent sign, if one does. A second percent sign behind `%:` is
put back unless it begins the rest of a `%:%:`. -/
def hashDigraph? : LexOn σ (Option Punctuator) := do
  if ← skipIf (byte '>') then pure (some .rightBrace)
  else if ← skipIf (byte ':') then do
    if ← skipIf (byte '%') then do
      if ← skipIf (byte ':') then pure (some .hashHash)
      else do
        unread (byte '%')
        pure (some .hash)
    else pure (some .hash)
  else pure none

def percent : LexOn σ Punctuator := do
  match ← hashDigraph? with
  | some p => pure p
  | none => rep '=' .percentAssign .percent

/-- How a punctuator is read that begins with `c`, if one does. A dot is not read here. -/
def punctuator? (c : UInt8) : Option (LexOn σ Punctuator) :=
  if c ∈ singles then (Punctuator.ofCode? c.toNat).map pure
  else if c = byte ':' then some (rep '>' .rightBracket .colon)
  else if c = byte '#' then some (rep '#' .hashHash .hash)
  else if c = byte '+' then some (rep2 '+' .increment '=' .plusAssign .plus)
  else if c = byte '*' then some (rep '=' .starAssign .star)
  else if c = byte '=' then some (rep '=' .equal .assign)
  else if c = byte '!' then some (rep '=' .notEqual .not)
  else if c = byte '&' then some (rep2 '&' .andAnd '=' .andAssign .ampersand)
  else if c = byte '|' then some (rep2 '|' .orOr '=' .orAssign .pipe)
  else if c = byte '^' then some (rep '=' .xorAssign .caret)
  else if c = byte '/' then some (rep '=' .slashAssign .slash)
  else if c = byte '-' then some dash
  else if c = byte '<' then some less
  else if c = byte '>' then some greater
  else if c = byte '%' then some percent
  else none

/-- The punctuator that begins with `c`, or an invalid token if none does. -/
def operator (c : UInt8) : LexOn σ Token := do
  match punctuator? c with
  | some read => finish (.punctuator (← read))
  | none => finish (.invalid (text c))

/-- The tests that a branch makes of what follows, as data. -/
inductive Branch where
  /-- Nothing more is looked at. -/
  | found (p : Punctuator)
  /-- `c` is taken if it follows, and `other` goes on where it does not. -/
  | next (c : UInt8) (taken other : Branch)
  /-- `c` and `d` are taken if both follow, and neither of them otherwise. -/
  | pair (c d : UInt8) (taken other : Punctuator)
  deriving DecidableEq

namespace Branch

/-- What the tests come to. -/
def run : Branch → LexOn σ Punctuator
  | .found p => pure p
  | .next c taken other => do
    if ← skipIf c then taken.run else other.run
  | .pair c d taken other => do
    if ← skipIf c then do
      if ← skipIf d then pure taken
      else do
        unread c
        pure other
    else pure other

def rep (expected : Char) (p other : Punctuator) : Branch :=
  .next (byte expected) (.found p) (.found other)

def rep2 (first : Char) (p : Punctuator) (second : Char) (q other : Punctuator) : Branch :=
  .next (byte first) (.found p) (rep second q other)

/-- The branches, each with the character that leads to it. -/
def all : List (UInt8 × Branch) :=
  [(byte '(', .found .leftParen), (byte ')', .found .rightParen), (byte ',', .found .comma),
    (byte ';', .found .semicolon), (byte '[', .found .leftBracket),
    (byte ']', .found .rightBracket), (byte '\x7b', .found .leftBrace),
    (byte '\x7d', .found .rightBrace), (byte '?', .found .question), (byte '~', .found .tilde),
    (byte ':', rep '>' .rightBracket .colon), (byte '#', rep '#' .hashHash .hash),
    (byte '+', rep2 '+' .increment '=' .plusAssign .plus),
    (byte '*', rep '=' .starAssign .star), (byte '=', rep '=' .equal .assign),
    (byte '!', rep '=' .notEqual .not),
    (byte '&', rep2 '&' .andAnd '=' .andAssign .ampersand),
    (byte '|', rep2 '|' .orOr '=' .orAssign .pipe), (byte '^', rep '=' .xorAssign .caret),
    (byte '/', rep '=' .slashAssign .slash),
    (byte '-', .next (byte '-') (.found .decrement) (rep2 '>' .arrow '=' .minusAssign .minus)),
    (byte '<', .next (byte '<') (rep '=' .leftShiftAssign .leftShift)
      (.next (byte '=') (.found .lessEqual) (rep2 ':' .leftBracket '%' .leftBrace .less))),
    (byte '>', .next (byte '=') (.found .greaterEqual)
      (.next (byte '>') (rep '=' .rightShiftAssign .rightShift) (.found .greater))),
    (byte '%', .next (byte '>') (.found .rightBrace)
      (.next (byte ':') (.pair (byte '%') (byte ':') .hashHash .hash)
        (rep '=' .percentAssign .percent)))]

def of? (c : UInt8) : Option Branch :=
  (all.find? fun e => e.1 == c).map (·.2)

theorem mem_of {c : UInt8} {b : Branch} (h : of? c = some b) : (c, b) ∈ all := by
  rw [of?, Option.map_eq_some_iff] at h
  obtain ⟨e, he, rfl⟩ := h
  have hc : e.1 = c := by simpa using List.find?_some he
  exact hc ▸ List.mem_of_find?_eq_some he

theorem run_percent : (percent : LexOn σ Punctuator) =
    run (.next (byte '>') (.found .rightBrace) (.next (byte ':')
      (.pair (byte '%') (byte ':') .hashHash .hash) (rep '=' .percentAssign .percent))) := by
  unfold percent hashDigraph?
  rw [bind_assoc]
  refine bind_congr fun brace => ?_
  cases brace with
  | true => exact pure_bind _ _
  | false =>
    rw [if_neg (by simp), if_neg (by simp), bind_assoc]
    refine bind_congr fun colon => ?_
    cases colon with
    | false => exact pure_bind _ _
    | true =>
      rw [if_pos rfl, if_pos rfl, bind_assoc]
      refine bind_congr fun percent => ?_
      cases percent with
      | false => exact pure_bind _ _
      | true =>
        rw [if_pos rfl, if_pos rfl, bind_assoc]
        refine bind_congr fun colon => ?_
        cases colon with
        | true => exact pure_bind _ _
        | false =>
          rw [if_neg (by simp), if_neg (by simp), bind_assoc]
          exact bind_congr fun _ => pure_bind _ _

theorem punctuator?_of_mem : ∀ e ∈ all, punctuator? (σ := σ) e.1 = some e.2.run := by
  rw [all]
  repeat refine List.forall_mem_cons.mpr ⟨rfl, ?_⟩
  -- What begins with a percent sign is left: only it is written in another way than it runs.
  exact List.forall_mem_singleton.mpr (congrArg some run_percent)

theorem punctuator?_of_not_mem {c : UInt8} (h : ∀ e ∈ all, e.1 ≠ c) :
    punctuator? (σ := σ) c = none := by
  have hne : ∀ d ∈ all.map (·.1), c ≠ d := by
    simpa [eq_comm] using h
  have hsingle : ∀ d ∈ singles, d ∈ all.map (·.1) := by
    decide +kernel
  unfold punctuator?
  rw [if_neg fun hc => hne c (hsingle c hc) rfl]
  repeat rw [if_neg (hne _ (by decide +kernel))]

theorem punctuator?_eq (c : UInt8) : punctuator? (σ := σ) c = (of? c).map run := by
  cases hc : of? c with
  | some b => exact punctuator?_of_mem _ (mem_of hc)
  | none =>
    refine punctuator?_of_not_mem fun e he => ?_
    rw [of?, Option.map_eq_none_iff, List.find?_eq_none] at hc
    simpa using hc e he

/-- The tests are for no newline and no backslash, and what is put back is the second percent sign
of a digraph. -/
def Plain : Branch → Prop
  | .found _ => True
  | .next c taken other => (c ≠ newline ∧ c ≠ backslash) ∧ taken.Plain ∧ other.Plain
  | .pair c d _ other => (c = byte '%' ∧ other = .hash) ∧ d ≠ newline ∧ d ≠ backslash

instance : (b : Branch) → Decidable b.Plain
  | .found _ => isTrue trivial
  | .next _ taken other =>
    have := instDecidablePlain taken
    have := instDecidablePlain other
    inferInstanceAs (Decidable (_ ∧ _ ∧ _))
  | .pair .. => inferInstanceAs (Decidable (_ ∧ _ ∧ _))

theorem plain_of {c : UInt8} {b : Branch} (h : of? c = some b) : b.Plain := by
  have hall : ∀ e ∈ all, e.2.Plain := by
    decide +kernel
  exact hall _ (mem_of h)

theorem keeps_run (b : Branch) : Keeps (σ := σ) b.run := by
  induction b with
  | found p => exact keeps_pure p
  | next c taken other htaken hother =>
    refine (keeps_skipIf c).bind fun follows => ?_
    split
    · exact htaken
    · exact hother
  | pair c d taken other =>
    intro lx p lx' h
    obtain ⟨first, lx₁, h₁, h⟩ := bind_eq_ok.1 h
    cases first with
    | false => exact Nat.le_trans (keeps_pure _ _ _ _ h) (keeps_skipIf _ _ _ _ h₁)
    | true =>
      have hlt := weight_skipIf_true h₁
      obtain ⟨second, lx₂, h₂, h⟩ := bind_eq_ok.1 h
      have hle := keeps_skipIf _ _ _ _ h₂
      cases second with
      | true =>
        have := keeps_pure _ _ _ _ h
        omega
      | false =>
        obtain ⟨_, lx₃, h₃, h⟩ := bind_eq_ok.1 h
        have := weight_unread h₃
        have := keeps_pure _ _ _ _ h
        omega

end Branch

theorem operator_eq (c : UInt8) :
    operator (σ := σ) c =
      match Branch.of? c with
      | some b => do finish (.punctuator (← b.run))
      | none => finish (.invalid (text c)) := by
  rw [operator, Branch.punctuator?_eq]
  cases Branch.of? c with
  | some b => rfl
  | none => rfl

theorem keeps_operator (c : UInt8) : Keeps (σ := σ) (operator c) := by
  rw [operator_eq]
  split
  · exact (Branch.keeps_run _).bind fun _ => keeps_finish _ _
  · exact keeps_finish _ _

end CLex.Lexer
