import CLex.Lexer.Conditional
import CLex.Proofs.Taking

namespace CLex

open Character Lexer Lines

/-- The name of the directive that two tokens begin: a `#` that is the first token of its line and
is written with this character, and an identifier. -/
def directiveName? (text : List UInt8) (hash name : Token) : Option String :=
  match name.lexeme with
  | .ident spelled =>
    if hash.lexeme = .punctuator .hash ∧ hash.startsLine ∧
        charAt? text hash.line hash.column = some (byte '#') then some spelled
    else none
  | _ => none

/-- The `#` of the directive that ends a group in which `depth` conditionals are open. -/
def groupEnd? (text : List UInt8) : (depth : Nat) → List Token → Option Token
  | depth, hash :: name :: rest =>
    match directiveName? text hash name with
    | none => groupEnd? text depth (name :: rest)
    | some spelled =>
      if depth = 0 ∧ divides spelled then some hash
      else groupEnd? text (depthAfter spelled depth) (name :: rest)
  | _, _ => none

/-- The directives inside the group: the name of each, and the tokens behind it. -/
def directives (text : List UInt8) : (depth : Nat) → List Token → List (Token × List Token)
  | depth, hash :: name :: rest =>
    match directiveName? text hash name with
    | none => directives text depth (name :: rest)
    | some spelled =>
      if depth = 0 ∧ divides spelled then []
      else (name, rest) :: directives text (depthAfter spelled depth) (name :: rest)
  | _, _ => []

/-- The line of the first newline token. -/
def newlineLine? (tokens : List Token) : Option Int :=
  (tokens.find? (·.lexeme == .newline)).map Token.line

/-- The line of a directive ends where its name stands: nothing that begins behind the name goes on
beyond the end of the line. -/
def EndsOnLine (directive : Token × List Token) : Prop :=
  newlineLine? directive.2 = some directive.1.line

instance (directive : Token × List Token) : Decidable (EndsOnLine directive) :=
  inferInstanceAs (Decidable (_ = _))

/-- A token that begins no directive, whatever follows it. -/
def Idle (text : List UInt8) (t : Token) : Prop :=
  ∀ name, directiveName? text t name = none

variable {text : List UInt8} {tokens rest : List Token} {t : Token}

theorem groupEnd?_cons (h : Idle text t) (depth : Nat) (rest : List Token) :
    groupEnd? text depth (t :: rest) = groupEnd? text depth rest := by
  cases rest with
  | nil => rfl
  | cons name rest =>
      rw [groupEnd?, h name]

theorem directives_cons (h : Idle text t) (depth : Nat) (rest : List Token) :
    directives text depth (t :: rest) = directives text depth rest := by
  cases rest with
  | nil => rfl
  | cons name rest =>
      rw [directives, h name]

theorem groupEnd?_append (h : ∀ t ∈ tokens, Idle text t) (depth : Nat) (rest : List Token) :
    groupEnd? text depth (tokens ++ rest) = groupEnd? text depth rest := by
  induction tokens with
  | nil => rfl
  | cons t tokens ih =>
      rw [List.cons_append, groupEnd?_cons (h t List.mem_cons_self)]
      exact ih fun t ht => h t (List.mem_cons_of_mem _ ht)

theorem directives_append (h : ∀ t ∈ tokens, Idle text t) (depth : Nat) (rest : List Token) :
    directives text depth (tokens ++ rest) = directives text depth rest := by
  induction tokens with
  | nil => rfl
  | cons t tokens ih =>
      rw [List.cons_append, directives_cons (h t List.mem_cons_self)]
      exact ih fun t ht => h t (List.mem_cons_of_mem _ ht)

theorem idle_of_lexeme (h : t.lexeme ≠ .punctuator .hash) : Idle text t := by
  intro name
  unfold directiveName?
  split
  · rw [if_neg fun hd => h hd.1]
  · rfl

theorem idle_of_startsLine (h : t.startsLine = false) : Idle text t := by
  intro name
  unfold directiveName?
  split
  · rw [if_neg]
    rintro ⟨-, hstart, -⟩
    rw [h] at hstart
    cases hstart
  · rfl

theorem directiveName?_of_ne_ident {name : Token} (h : ∀ spelled, name.lexeme ≠ .ident spelled) :
    directiveName? text t name = none := by
  unfold directiveName?
  split
  · next spelled hname => exact absurd hname (h spelled)
  · rfl

theorem ident_of_directiveName? {hash name : Token} {spelled : String}
    (h : directiveName? text hash name = some spelled) : name.lexeme = .ident spelled := by
  unfold directiveName? at h
  split at h
  · next word hname =>
    split at h
    · rw [hname, Option.some.inj h]
    · cases h
  · cases h

theorem idle_of_ident {spelled : String} (h : t.lexeme = .ident spelled) : Idle text t :=
  idle_of_lexeme (by rw [h]; simp)

section Pair

variable {hash name : Token} {spelled : String}

theorem groupEnd?_none (h : directiveName? text hash name = none) (depth : Nat)
    (rest : List Token) :
    groupEnd? text depth (hash :: name :: rest) = groupEnd? text depth (name :: rest) := by
  rw [groupEnd?, h]

theorem directives_none (h : directiveName? text hash name = none) (depth : Nat)
    (rest : List Token) :
    directives text depth (hash :: name :: rest) = directives text depth (name :: rest) := by
  rw [directives, h]

theorem groupEnd?_some (h : directiveName? text hash name = some spelled) (depth : Nat)
    (rest : List Token) :
    groupEnd? text depth (hash :: name :: rest) =
      if depth = 0 ∧ divides spelled then some hash
      else groupEnd? text (depthAfter spelled depth) rest := by
  rw [groupEnd?, h]
  dsimp only
  rw [groupEnd?_cons (idle_of_ident (ident_of_directiveName? h))]

theorem directives_some (h : directiveName? text hash name = some spelled) (depth : Nat)
    (rest : List Token) :
    directives text depth (hash :: name :: rest) =
      if depth = 0 ∧ divides spelled then []
      else (name, rest) :: directives text (depthAfter spelled depth) rest := by
  rw [directives, h]
  dsimp only
  rw [directives_cons (idle_of_ident (ident_of_directiveName? h))]

end Pair

theorem newlineLine?_cons :
    newlineLine? (t :: tokens) =
      if t.lexeme = .newline then some t.line else newlineLine? tokens := by
  unfold newlineLine?
  by_cases h : t.lexeme = .newline <;> simp [h]

theorem mem_of_newlineLine? {line : Int} (h : newlineLine? tokens = some line) :
    ∃ x ∈ tokens, x.line = line := by
  rw [newlineLine?, Option.map_eq_some_iff] at h
  rcases h with ⟨x, hfind, hline⟩
  exact ⟨x, List.mem_of_find?_eq_some hfind, hline⟩

/-- The listing begins with these tokens and goes on from another lexer. -/
structure Lists (s : Lexer Book) (tokens : List Token) (s' : Lexer Book) : Prop where
  tokens_eq : s.listing.tokens = tokens ++ s'.listing.tokens
  ok : s'.listing.failure = none
  less : s'.weight < s.weight

theorem Lists.trans {s s' s'' : Lexer Book} {tokens tokens' : List Token} (h : Lists s tokens s')
    (h' : Lists s' tokens' s'') : Lists s (tokens ++ tokens') s'' := by
  refine ⟨?_, h'.ok, h'.less.trans h.less⟩
  rw [h.tokens_eq, h'.tokens_eq, List.append_assoc]

theorem listing_cases {s : Lexer Book} (hok : s.listing.failure = none) :
    ∃ a s', nextToken s = .ok a s' ∧
      (a.lexeme = .eof ∧ s.listing.tokens = [a] ∨ a.lexeme ≠ .eof ∧ Lists s [a] s') := by
  cases hs : nextToken s with
  | error f s' =>
      rw [listing_of_error hs] at hok
      cases hok
  | ok a s' =>
      refine ⟨a, s', rfl, ?_⟩
      cases hend : a.isEnd with
      | true =>
          refine Or.inl ⟨by simpa [Token.isEnd] using hend, ?_⟩
          rw [listing_of_end hs hend]
      | false =>
          have hmore := listing_of_more hs hend
          rw [hmore] at hok
          refine Or.inr ⟨by simpa [Token.isEnd] using hend, ?_, hok,
            advances_nextToken _ _ _ hs hend⟩
          rw [hmore]
          rfl

namespace Placing

variable {sheet : Sheet} {read blanks w : List UInt8} {s s' : Lexer Book} {p first p' : Page}
  {a : Token}

theorem Taken.line_eq (h : Taken sheet read blanks w s a s' p first p') :
    a.line = (placeAfter (read ++ blanks)).1 := by
  rcases h.begins with ⟨spaced, s₁, -, hs₁⟩
  exact h.line.trans hs₁.placed.line

theorem Taken.idle (h : Taken sheet read blanks w s a s' p first p')
    (hidle : (∀ text, first.rest ≠ byte '#' :: text) ∨ 1 < (placeAfter read).2) :
    Idle sheet.text a := by
  by_cases hlexeme : a.lexeme = .punctuator .hash
  · rcases h.begun (by rw [hlexeme]; decide) with ⟨c, text, hfirst, written⟩
    rw [hlexeme] at written
    rcases written_hash_of written with rfl | ⟨rfl, tail, rfl⟩
    · rcases hidle with hidle | hmiddle
      · exact absurd hfirst (hidle text)
      · apply idle_of_startsLine
        have hcolumn := (h.column_of_hash hfirst).1
        rw [h.startsLine, hcolumn]
        simp only [beq_eq_false_iff_ne]
        omega
    · -- The place is known here too, and there is no `#` at it.
      rcases h.begins with ⟨spaced, s₁, -, hs₁⟩
      have hcolumn : first.column = (placeAfter (read ++ blanks)).2 := by
        rcases hs₁.placed.column with hcolumn | hnear
        · exact hcolumn
        · rw [hfirst] at hnear
          exact absurd hnear.newline_of (by decide)
      have hchar : charAt? sheet.text a.line a.column = some (byte '%') := by
        rw [hs₁.placed.text_eq, hfirst, h.line_eq, h.column, hcolumn]
        exact charAt?_placeAfter _ _ _
      intro name
      unfold directiveName?
      split
      · rw [hchar, if_neg]
        rintro ⟨-, -, heq⟩
        exact absurd heq (by decide)
      · rfl
  · exact idle_of_lexeme hlexeme

theorem Taken.directiveName?_eq (h : Taken sheet read blanks w s a s' p first p')
    {text : List UInt8} (hfirst : first.rest = byte '#' :: text)
    (hlexeme : a.lexeme = .punctuator .hash) (hstart : a.startsLine = true) {name : Token}
    {spelled : String} (hname : name.lexeme = .ident spelled) :
    directiveName? sheet.text a name = some spelled := by
  rcases h.begins with ⟨spaced, s₁, -, hs₁⟩
  have hchar : charAt? sheet.text a.line a.column = some (byte '#') := by
    rw [hs₁.placed.text_eq, hfirst, h.line_eq, h.column, (h.column_of_hash hfirst).2]
    exact charAt?_placeAfter _ _ _
  unfold directiveName?
  rw [hname]
  exact if_pos ⟨hlexeme, hstart, hchar⟩

theorem taken_of_nextToken (hs : Stands sheet read [] s p) (h : nextToken s = .ok a s') :
    ∃ blanks w first p', Taken sheet read blanks w s a s' p first p' := by
  rcases nextToken_level hs hs h with ⟨blanks, w, -, -, first, -, p', -, taken, -⟩
  exact ⟨blanks, w, first, p', taken⟩

theorem line_le_listing (hs : Stands sheet read [] s p) (hok : s.listing.failure = none) :
    ∀ x ∈ s.listing.tokens, (placeAfter read).1 ≤ x.line := by
  induction hn : s.weight using Nat.strongRecOn generalizing read s p with
  | ind n ih =>
      rcases listing_cases hok with ⟨a, s', hnext, hlist⟩
      rcases taken_of_nextToken hs hnext with ⟨blanks, w, first, p', taken⟩
      have ha : (placeAfter read).1 ≤ a.line := by
        rw [taken.line_eq]
        exact line_le read blanks
      rcases hlist with ⟨-, htokens⟩ | ⟨-, hlist⟩
      · rw [htokens]
        rintro x hx
        rw [List.mem_singleton.mp hx]
        exact ha
      · rw [hlist.tokens_eq]
        rintro x hx
        rcases List.mem_append.mp hx with hx | hx
        · rw [List.mem_singleton.mp hx]
          exact ha
        · have hx' := ih s'.weight (hn ▸ hlist.less) taken.stop hlist.ok rfl x hx
          have hread := line_le read (blanks ++ w)
          rw [← List.append_assoc] at hread
          omega

theorem to_newline (hs : Stands sheet read [] s p) (hok : s.listing.failure = none)
    (hmiddle : 1 < (placeAfter read).2)
    (hline : newlineLine? s.listing.tokens = some (placeAfter read).1) :
    ∃ v tokens s' p', newline ∉ v ∧ p.rest = v ++ newline :: p'.rest ∧
      Stands sheet (read ++ (v ++ [newline])) [] s' p' ∧ Lists s tokens s' ∧
      ∀ x ∈ tokens, Idle sheet.text x := by
  -- Along the tokens that are left; each of them leaves less.
  induction hn : s.weight using Nat.strongRecOn generalizing read s p with
  | ind n ih =>
      rcases listing_cases hok with ⟨a, s', hnext, hlist⟩
      rcases taken_of_nextToken hs hnext with ⟨blanks, w, first, p', taken⟩
      rcases hlist with ⟨hend, htokens⟩ | ⟨-, hlist⟩
      · rw [htokens, newlineLine?_cons, hend] at hline
        cases hline
      · have hidle : Idle sheet.text a := taken.idle (Or.inr hmiddle)
        rw [hlist.tokens_eq, List.singleton_append, newlineLine?_cons] at hline
        split at hline
        · next hlexeme =>
          rw [taken.line_eq, Option.some.injEq] at hline
          rcases taken.newline hlexeme with ⟨rfl, hfirst⟩
          refine ⟨blanks, [a], s', p', (column_le hline).1, by rw [taken.rest_eq, hfirst], ?_,
            hlist, ?_⟩
          · rw [← List.append_assoc]
            exact taken.stop
          · rintro x hx
            rw [List.mem_singleton.mp hx]
            exact hidle
        · next hlexeme =>
          have hread : read ++ blanks ++ w = read ++ (blanks ++ w) := List.append_assoc _ _ _
          -- The newline token is on the line, so no token before it has left the line.
          have hstay : (placeAfter (read ++ (blanks ++ w))).1 = (placeAfter read).1 := by
            rcases mem_of_newlineLine? hline with ⟨x, hx, hxline⟩
            have hle := line_le_listing taken.stop hlist.ok x hx
            have hle' := line_le read (blanks ++ w)
            rw [hread] at hle
            omega
          rcases column_le hstay with ⟨hnot, hcolumn⟩
          rw [← hstay, ← hread] at hline
          rw [← hread] at hcolumn
          rcases ih s'.weight (hn ▸ hlist.less) taken.stop hlist.ok (by omega) hline rfl with
            ⟨v, tokens, s'', p'', hv, hrest', hs'', hlist', hidle'⟩
          refine ⟨blanks ++ w ++ v, a :: tokens, s'', p'', ?_, ?_, ?_, hlist.trans hlist', ?_⟩
          · rw [List.mem_append, not_or]
            exact ⟨hnot, hv⟩
          · rw [taken.rest_eq, taken.first_eq, hrest']
            simp only [List.append_assoc]
          · simpa only [List.append_assoc] using hs''
          · rintro x hx
            rcases List.mem_cons.mp hx with rfl | hx
            · exact hidle
            · exact hidle' x hx

end Placing

end CLex
