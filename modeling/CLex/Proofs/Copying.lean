import CLex.Lexer.Conditional
import CLex.Lexer.Header
import CLex.Proofs.Composition

namespace CLex

open Character Lexer LexM

variable {σ τ α β κ ρ : Type}

/-- The lexer over another stream. -/
def Lexer.over (lx : Lexer σ) (stream : τ) : Lexer τ :=
  { stream, options := lx.options, collector := lx.collector, pending := lx.pending,
    mark := lx.mark }

/-- A relation between the states of two streams that every step keeps. -/
structure Copy (σ τ : Type) [CharStream σ] [CharStream τ] where
  rel : σ → τ → Prop
  read {s : σ} {t : τ} (h : rel s t) : (CharStream.read t).1 = (CharStream.read s).1 ∧
    rel (CharStream.read s).2 (CharStream.read t).2
  unread {s : σ} {t : τ} (h : rel s t) (c : UInt8) :
    (∃ s' t', CharStream.unread s c = .ok s' ∧ CharStream.unread t c = .ok t' ∧ rel s' t') ∨
      ∃ f, CharStream.unread s c = .error f ∧ CharStream.unread t c = .error f
  place? {s : σ} {t : τ} (h : rel s t) : CharStream.place? t = CharStream.place? s
  depth {s : σ} {t : τ} (h : rel s t) : CharStream.depth t = CharStream.depth s
  draw {s : σ} {t : τ} (h : rel s t) : (CharStream.draw t).1 = (CharStream.draw s).1 ∧
    rel (CharStream.draw s).2 (CharStream.draw t).2
  note {s : σ} {t : τ} (h : rel s t) (shown : String) :
    rel (CharStream.note s shown) (CharStream.note t shown)

namespace Copy

variable [CharStream σ] [CharStream τ] (C : Copy σ τ)

/-- The lexers differ in their streams alone, and the second stream copies the first. -/
def Beside (s : Lexer σ) (t : Lexer τ) : Prop :=
  ∃ stream, C.rel s.stream stream ∧ t = s.over stream

/-- Two runs end with the same result or the same failure, and side by side. -/
def Ends : EStateM.Result Failure (Lexer σ) α → EStateM.Result Failure (Lexer τ) α → Prop
  | .ok a s, .ok b t => b = a ∧ C.Beside s t
  | .error f s, .error g t => g = f ∧ C.Beside s t
  | _, _ => False

/-- Side by side the two operations end alike. -/
def Copies (m : LexOn σ α) (n : LexOn τ α) : Prop :=
  ∀ s t, C.Beside s t → C.Ends (m s) (n t)

variable {C}

theorem Ends.ok {a : α} {s : Lexer σ} {r : EStateM.Result Failure (Lexer τ) α}
    (h : C.Ends (.ok a s) r) : ∃ t, r = .ok a t ∧ C.Beside s t := by
  cases r with
  | ok b t =>
      obtain ⟨rfl, h⟩ := h
      exact ⟨t, rfl, h⟩
  | error => exact h.elim

theorem Ends.error {f : Failure} {s : Lexer σ} {r : EStateM.Result Failure (Lexer τ) α}
    (h : C.Ends (.error f s) r) : ∃ t, r = .error f t ∧ C.Beside s t := by
  cases r with
  | ok => exact h.elim
  | error g t =>
      obtain ⟨rfl, h⟩ := h
      exact ⟨t, rfl, h⟩

theorem copies_pure (a : α) : C.Copies (pure a) (pure a) :=
  fun _ _ h => ⟨rfl, h⟩

theorem copies_throw (f : Failure) : C.Copies (α := α) (throw f) (throw f) :=
  fun _ _ h => ⟨rfl, h⟩

theorem copies_bind {m : LexOn σ α} {n : LexOn τ α} {f : α → LexOn σ β} {g : α → LexOn τ β}
    (hm : C.Copies m n) (hf : ∀ a, C.Copies (f a) (g a)) : C.Copies (m >>= f) (n >>= g) := by
  intro s t h
  have hrun := hm s t h
  cases hs : m s with
  | ok a s' =>
      rw [hs] at hrun
      rcases hrun.ok with ⟨t', ht, h'⟩
      rw [bind_of_ok hs, bind_of_ok ht]
      exact hf a s' t' h'
  | error e s' =>
      rw [hs] at hrun
      rcases hrun.error with ⟨t', ht, h'⟩
      rw [bind_of_error hs, bind_of_error ht]
      exact ⟨rfl, h'⟩

theorem copies_loop {step : κ → LexOn σ (Round κ ρ)} {step' : κ → LexOn τ (Round κ ρ)}
    {progress : Progress step} {progress' : Progress step'}
    (h : ∀ a, C.Copies (step a) (step' a)) (a : κ) :
    C.Copies (loop step progress a) (loop step' progress' a) := by
  intro s t hst
  induction a, s using round_induction progress generalizing t with
  | error a s f s' hs =>
      have hround := h a s t hst
      rw [hs] at hround
      rcases hround.error with ⟨t', ht, h'⟩
      rw [loop_eq step progress, loop_eq step' progress', hs, ht]
      exact ⟨rfl, h'⟩
  | done a s x s' hs =>
      have hround := h a s t hst
      rw [hs] at hround
      rcases hround.ok with ⟨t', ht, h'⟩
      rw [loop_eq step progress, loop_eq step' progress', hs, ht]
      exact ⟨rfl, h'⟩
  | again a s b s' hs ih =>
      have hround := h a s t hst
      rw [hs] at hround
      rcases hround.ok with ⟨t', ht, h'⟩
      rw [loop_eq step progress, loop_eq step' progress', hs, ht]
      exact ih t' h'

theorem copies_get {f : Lexer σ → LexOn σ α} {g : Lexer τ → LexOn τ α}
    (h : ∀ s t, C.Beside s t → C.Ends (f s s) (g t t)) : C.Copies (get >>= f) (get >>= g) :=
  h

theorem copies_next? : C.Copies next? next? := by
  rintro s _ ⟨stream, h, rfl⟩
  obtain ⟨hc, h'⟩ := C.read h
  exact ⟨hc, _, h', rfl⟩

theorem copies_unread (c : UInt8) : C.Copies (Lexer.unread c) (Lexer.unread c) := by
  rintro s _ ⟨stream, h, rfl⟩
  unfold Lexer.unread
  rcases C.unread h c with ⟨s', t', hs, ht, h'⟩ | ⟨f, hs, ht⟩
  · rw [hs, show CharStream.unread (s.over stream).stream c = .ok t' from ht]
    exact ⟨rfl, t', h', rfl⟩
  · rw [hs, show CharStream.unread (s.over stream).stream c = .error f from ht]
    exact ⟨rfl, stream, h, rfl⟩

theorem place?_eq {s : Lexer σ} {t : Lexer τ} (h : C.Beside s t) :
    CharStream.place? t.stream = CharStream.place? s.stream := by
  rcases h with ⟨stream, h, rfl⟩
  exact C.place? h

theorem location_eq {s : Lexer σ} {t : Lexer τ} (h : C.Beside s t) :
    CharStream.location t.stream = CharStream.location s.stream :=
  congrArg (Option.getD · Location.unknown) (place?_eq h)

theorem pending_eq {s : Lexer σ} {t : Lexer τ} (h : C.Beside s t) : t.pending = s.pending := by
  rcases h with ⟨stream, -, rfl⟩
  rfl

theorem copies_here (back : Int) : C.Copies (here back) (here back) :=
  fun _ _ h => ⟨congrArg (Location.back · back) (location_eq h), h⟩

theorem copies_isAtLineStart : C.Copies isAtLineStart isAtLineStart :=
  fun _ _ h => ⟨congrArg (fun l => l.column == 1) (location_eq h), h⟩

theorem copies_marked : C.Copies marked marked := by
  intro s t h
  refine ⟨?_, h⟩
  rw [location_eq h]
  rcases h with ⟨stream, -, rfl⟩
  rfl

theorem copies_setMark : C.Copies setMark setMark := by
  intro s t h
  unfold setMark
  rw [place?_eq h]
  rcases h with ⟨stream, h, rfl⟩
  cases CharStream.place? s.stream with
  | none => exact ⟨rfl, stream, h, rfl⟩
  | some place => exact ⟨rfl, stream, h, rfl⟩

theorem copies_needSource : C.Copies needSource needSource := by
  intro s t h
  unfold needSource
  rw [place?_eq h]
  cases CharStream.place? s.stream with
  | none => exact ⟨rfl, h⟩
  | some place => exact ⟨rfl, h⟩

theorem copies_warn (location : Location) (text : String) :
    C.Copies (warn location text) (warn location text) := by
  rintro s _ ⟨stream, h, rfl⟩
  unfold warn
  show C.Ends _
    (if s.options.enableWarnings then if s.options.warningsAsErrors then _ else _ else _)
  split
  · split
    · exact ⟨rfl, stream, h, rfl⟩
    · exact ⟨rfl, _, C.note h _, rfl⟩
  · exact ⟨rfl, stream, h, rfl⟩

theorem copies_finish (lexeme : Lexeme) (encoding : Encoding) :
    C.Copies (finish lexeme encoding) (finish lexeme encoding) := by
  intro s t h
  unfold finish
  rw [place?_eq h]
  rcases h with ⟨stream, h, rfl⟩
  cases CharStream.place? s.stream with
  | none => exact ⟨rfl, stream, h, rfl⟩
  | some place =>
      obtain ⟨hindex, h'⟩ := C.draw h
      refine ⟨?_, _, h', rfl⟩
      dsimp only [Lexer.over]
      rw [hindex]

theorem copies_pushBack (t : Token) : C.Copies (pushBack t) (pushBack t) := by
  rintro s _ ⟨stream, h, rfl⟩
  unfold pushBack
  split
  · exact ⟨rfl, stream, h, rfl⟩
  · rw [show (s.over stream).pending = s.pending from rfl]
    cases s.pending with
    | nil => exact ⟨rfl, stream, h, rfl⟩
    | cons buffer outer => exact ⟨rfl, stream, h, rfl⟩

theorem hashMark?_eq {s : Lexer σ} {t : Lexer τ} (h : C.Beside s t) :
    hashMark? t.stream = hashMark? s.stream := by
  unfold hashMark?
  rw [place?_eq h]
  rcases h with ⟨stream, h, rfl⟩
  dsimp only [Lexer.over]
  rw [(C.draw h).1, C.depth h]

theorem copies_hashToken (hash : HashMark) : C.Copies (hashToken hash) (hashToken hash) := by
  rintro s _ ⟨stream, h, rfl⟩
  have hdepth : CharStream.depth (s.over stream).stream = CharStream.depth s.stream := C.depth h
  unfold hashToken
  simp only [hdepth]
  split
  · obtain ⟨hindex, h'⟩ := C.draw h
    refine ⟨?_, _, h', rfl⟩
    rw [show (CharStream.draw (s.over stream).stream).1 = (CharStream.draw s.stream).1 from hindex]
  · exact ⟨rfl, stream, h, rfl⟩

theorem rules : TokenRules fun _ (m : LexOn σ _) (n : LexOn τ _) => C.Copies m n where
  rel_pure := copies_pure
  rel_throw := fun _ => copies_throw _
  rel_bind := copies_bind
  rel_loop := copies_loop
  rel_next := copies_next?
  rel_unread := copies_unread
  rel_here := copies_here
  rel_warn := copies_warn
  rel_finish := copies_finish
  rel_throw_marked := fun _ _ => copies_bind copies_marked fun _ => copies_throw _
  rel_throw_comment := fun _ => copies_throw _
  rel_setMark := copies_setMark
  rel_needSource := copies_needSource
  rel_isAtLineStart := copies_isAtLineStart

theorem copies_nextToken : C.Copies nextToken nextToken := by
  intro s t h
  unfold nextToken
  rw [pending_eq h]
  split
  · exact ⟨rfl, h⟩
  · rcases h with ⟨stream, h, rfl⟩
    exact ⟨rfl, stream, h, rfl⟩
  · exact rules.rel_endToken s t h
  · exact rules.rel_freshToken s t h

theorem copies_headerUpTo (start : Location) (close : UInt8) (system : Bool) :
    C.Copies (headerUpTo start close system) (headerUpTo start close system) := by
  refine copies_bind (copies_loop (fun bytes => ?_) []) fun bytes => ?_
  · refine copies_bind (rules.rel_skipIf close) fun closed => ?_
    split
    · exact copies_pure _
    · refine copies_bind copies_next? fun c => ?_
      cases c with
      | none => exact copies_throw _
      | some c =>
          dsimp only
          split
          · exact copies_throw _
          · exact copies_pure _
  · split
    · exact copies_throw _
    · exact copies_pure _

theorem copies_headerName? : C.Copies headerName? headerName? := by
  refine copies_get fun s t hst => ?_
  rw [pending_eq hst]
  refine (?_ : C.Copies _ _) s t hst
  split
  · refine copies_bind copies_needSource fun _ => copies_bind rules.rel_skipBlanks fun _ => ?_
    refine copies_bind (copies_here 0) fun start => copies_bind (rules.rel_skipIf _) fun quoted => ?_
    split
    · exact copies_headerUpTo start _ _
    · refine copies_bind (rules.rel_skipIf _) fun angled => ?_
      split
      · exact copies_headerUpTo start _ _
      · exact copies_pure _
  · exact copies_pure _

theorem copies_directive (hash : HashMark) (depth : Nat) :
    C.Copies (directive hash depth) (directive hash depth) := by
  refine copies_bind copies_nextToken fun t => ?_
  split
  · split
    · refine copies_bind (copies_pushBack t) fun _ => ?_
      refine copies_bind (copies_hashToken hash) fun h => ?_
      exact copies_bind (copies_pushBack h) fun _ => copies_pure _
    · exact copies_bind rules.rel_skipLine fun _ => copies_pure _
  · exact copies_pure _

theorem copies_groupFrom (startsLine : Bool) (depth : Nat) (c : UInt8) :
    C.Copies (groupFrom startsLine depth c) (groupFrom startsLine depth c) := by
  unfold groupFrom
  split
  · exact copies_bind rules.rel_skipCharLiteral fun _ => copies_pure _
  · split
    · exact copies_bind rules.rel_skipStringLiteral fun _ => copies_pure _
    · split
      · refine copies_get fun s t hst => ?_
        rw [hashMark?_eq hst]
        cases hashMark? s.stream with
        | none => exact copies_pure _ s t hst
        | some hash => exact copies_directive hash depth s t hst
      · exact copies_pure _

theorem copies_skipGroup : C.Copies skipGroup skipGroup := by
  refine copies_bind copies_needSource fun _ => copies_loop (fun depth => ?_) 0
  refine copies_bind copies_isAtLineStart fun startsLine => ?_
  refine copies_bind rules.rel_skipBlanks fun _ => copies_bind copies_next? fun c => ?_
  cases c with
  | none => exact copies_pure _
  | some c => exact copies_groupFrom startsLine depth c

end Copy

end CLex
