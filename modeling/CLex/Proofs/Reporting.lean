import CLex.Proofs.Isolation
import CLex.Proofs.Termination

namespace CLex

open Character Lexer LexM

namespace Stream

/-- The warnings noted, in order, as they are shown. -/
def warnings (s : Stream) : List String :=
  (s.journal.events.filter Event.isWarning).map Event.message

theorem warnings_warning (s : Stream) (shown : String) :
    (s.record (.warning shown)).warnings = s.warnings ++ [shown] := by
  rw [warnings, record, Journal.events_add, List.filter_append, List.map_append]
  rfl

theorem warnings_record (s : Stream) {e : Event} (he : e.isWarning = false) :
    (s.record e).warnings = s.warnings := by
  rw [warnings, record, Journal.events_add, List.filter_append, List.filter_singleton, he]
  exact congrArg (List.map Event.message) (List.append_nil _)

theorem warnings_drop (s : Stream) : s.drop.warnings = s.warnings := by
  unfold drop pop? release
  cases s.files with
  | nil => rfl
  | cons top below =>
      have hpop := warnings_record { s with files := below } (e := .popped top.name below.length) rfl
      dsimp only
      split
      · exact (warnings_record _ rfl).trans hpop
      · exact hpop

theorem warnings_readChar (s : Stream) : s.readChar.2.warnings = s.warnings := by
  unfold readChar
  split <;> rfl

theorem warnings_readAcross (s : Stream) : s.readAcross.2.warnings = s.warnings := by
  have hread := warnings_readChar
  fun_induction readAcross s with
  | case1 s c s' h => rw [← hread s, h]
  | case2 s s' h => rw [← hread s, h]
  | case3 s s' h _ ih => rw [ih, warnings_drop, ← hread s, h]

theorem warnings_draw (s : Stream) : s.draw.2.warnings = s.warnings := by
  unfold draw
  split <;> rfl

namespace Same

variable {s t : Stream}

theorem place? (h : s.Same t) : CharStream.place? t = CharStream.place? s :=
  congrArg (fun files => files.head?.map Source.location) h.files

theorem readChar (h : s.Same t) :
    t.readChar.1 = s.readChar.1 ∧ s.readChar.2.Same t.readChar.2 := by
  unfold Stream.readChar
  rw [h.files, h.console]
  cases s.files with
  | nil => exact ⟨rfl, h⟩
  | cons top below => exact ⟨rfl, rfl, h.stashed, rfl⟩

theorem drop (h : s.Same t) : s.drop.Same t.drop := by
  unfold Stream.drop pop?
  rw [h.files]
  cases s.files with
  | nil => exact h
  | cons top below =>
      dsimp only [release]
      split
      · exact ⟨rfl, h.stashed, h.console⟩
      · exact ⟨rfl, h.stashed, h.console⟩

theorem readAcross (h : s.Same t) :
    t.readAcross.1 = s.readAcross.1 ∧ s.readAcross.2.Same t.readAcross.2 := by
  fun_induction Stream.readAcross s generalizing t with
  | case1 s c s' hs =>
      rcases h.readChar with ⟨hc, h'⟩
      rcases ht : t.readChar with ⟨d, t'⟩
      rw [hs, ht] at hc h'
      obtain rfl : d = some c := hc
      rw [Stream.readAcross, ht]
      exact ⟨rfl, h'⟩
  | case2 s s' hs hlast =>
      rcases h.readChar with ⟨hc, h'⟩
      rcases ht : t.readChar with ⟨d, t'⟩
      rw [hs, ht] at hc h'
      obtain rfl : d = none := hc
      rw [Stream.readAcross, ht]
      dsimp only
      rw [if_pos (by rw [h'.files]; exact hlast)]
      exact ⟨rfl, h'⟩
  | case3 s s' hs hmore ih =>
      rcases h.readChar with ⟨hc, h'⟩
      rcases ht : t.readChar with ⟨d, t'⟩
      rw [hs, ht] at hc h'
      obtain rfl : d = none := hc
      rw [Stream.readAcross, ht]
      dsimp only
      rw [if_neg (by rw [h'.files]; exact hmore)]
      exact ih h'.drop

theorem draw (h : s.Same t) : t.draw.1 = s.draw.1 ∧ s.draw.2.Same t.draw.2 := by
  unfold Stream.draw
  rw [h.files]
  cases s.files with
  | nil => exact ⟨rfl, h⟩
  | cons top below => exact ⟨rfl, rfl, h.stashed, h.console⟩

end Same

end Stream

structure Warning where
  location : Location
  text : String
  deriving DecidableEq, Repr

namespace Warning

/-- The warning as it is shown. -/
def shown (w : Warning) : String :=
  Collector.warningText (some w.location) w.text

/-- The warning as a failure. -/
def failure (w : Warning) : Failure :=
  .located (.promotedWarning w.text none) w.location

end Warning

/-- Warnings stop the reading. -/
def Options.IsStrict (o : Options) : Prop :=
  o.enableWarnings = true ∧ o.warningsAsErrors = true

/-- What is shown of some warnings. -/
def Options.shown (o : Options) (ws : List Warning) : List String :=
  if o.enableWarnings then ws.map Warning.shown else []

namespace Reporting

variable {α β : Type} {ws vs : List Warning} {s t s' t' t'' : Lexer}

/-- The lexers differ in their options, in the collected warnings and in their journals alone. -/
structure Beside (s t : Lexer) : Prop extends s.SameInput t where
  mark : t.mark = s.mark

/-- From one lexer to the other these warnings have been passed, and shown if that is asked for. -/
structure Reported (ws : List Warning) (t t' : Lexer) : Prop where
  options : t'.options = t.options
  warnings : t'.stream.warnings = t.stream.warnings ++ t.options.shown ws
  collector : t'.collector = (t.options.shown ws).foldl Collector.keep t.collector

theorem reported_nil (hoptions : t'.options = t.options)
    (hwarnings : t'.stream.warnings = t.stream.warnings) (hcollector : t'.collector = t.collector) :
    Reported [] t t' := by
  have hshown : t.options.shown [] = [] := by simp [Options.shown]
  exact ⟨hoptions, by rw [hshown, hwarnings, List.append_nil], by rw [hshown, hcollector]; rfl⟩

theorem Reported.trans (h : Reported ws t t') (h' : Reported vs t' t'') :
    Reported (ws ++ vs) t t'' := by
  have hshown : t.options.shown (ws ++ vs) = t.options.shown ws ++ t.options.shown vs := by
    unfold Options.shown
    split
    · exact List.map_append
    · rfl
  refine ⟨h'.options.trans h.options, ?_, ?_⟩
  · rw [h'.warnings, h.warnings, h.options, hshown, List.append_assoc]
  · rw [h'.collector, h.collector, h.options, hshown, List.foldl_append]

/-- How a run from `t` answers a run that passes the warnings `ws`: it ends in the same way, or its
options have it stop at the first of them. -/
inductive Answers (ws : List Warning) (t : Lexer) :
    EStateM.Result Failure Lexer α → EStateM.Result Failure Lexer α → Prop
  | ok (quiet : t.options.IsStrict → ws = []) {a : α} {s' t' : Lexer} (beside : Beside s' t')
      (reported : Reported ws t t') : Answers ws t (.ok a s') (.ok a t')
  | error (quiet : t.options.IsStrict → ws = []) {f : Failure} {s' t' : Lexer}
      (beside : Beside s' t') (reported : Reported ws t t') : Answers ws t (.error f s') (.error f t')
  | stopped (strict : t.options.IsStrict) {w : Warning} (first : ws.head? = some w)
      {r : EStateM.Result Failure Lexer α} {t' : Lexer} (reported : Reported [] t t') :
      Answers ws t r (.error w.failure t')

/-- Warnings are shown and stop nothing. -/
def Shows (s : Lexer) : Prop :=
  s.options.enableWarnings = true ∧ s.options.warningsAsErrors = false

/-- The run from `s` passes certain warnings, and the runs beside it answer it. -/
def ReportsAt (s : Lexer) (m : LexM α) : Prop :=
  ∃ ws, ∀ t, Beside s t → Answers ws t (m s) (m t)

def Reports (m : LexM α) : Prop :=
  ∀ s, Shows s → ReportsAt s m

theorem Beside.refl (s : Lexer) : Beside s s :=
  ⟨⟨⟨rfl, rfl, rfl⟩, rfl⟩, rfl⟩

theorem Shows.not_strict (h : Shows s) : ¬ s.options.IsStrict := by
  rintro ⟨-, hstrict⟩
  rw [h.2] at hstrict
  cases hstrict

theorem reported_ok {m : LexM α} {a : α} (hm : m s = .ok a s')
    (hanswers : ∀ t, Beside s t → Answers ws t (m s) (m t)) : Reported ws s s' := by
  have hself := hanswers s (Beside.refl s)
  rw [hm] at hself
  cases hself with
  | ok _ _ reported => exact reported

theorem Shows.reported_error (h : Shows s) {m : LexM α} {f : Failure} (hm : m s = .error f s')
    (hanswers : ∀ t, Beside s t → Answers ws t (m s) (m t)) : Reported ws s s' := by
  have hself := hanswers s (Beside.refl s)
  rw [hm] at hself
  cases hself with
  | error _ _ reported => exact reported
  | stopped strict _ _ => exact absurd strict h.not_strict

theorem Shows.next (h : Shows s) (hreported : Reported ws s s') : Shows s' := by
  unfold Shows
  rw [hreported.options]
  exact h

theorem Answers.behind {r r' : EStateM.Result Failure Lexer α}
    (quiet : t.options.IsStrict → ws = []) (reported : Reported ws t t') (h : Answers vs t' r r') :
    Answers (ws ++ vs) t r r' := by
  have hquiet : (t'.options.IsStrict → vs = []) → t.options.IsStrict → ws ++ vs = [] := by
    intro quiet' hstrict
    rw [quiet hstrict, quiet' (reported.options ▸ hstrict)]
    rfl
  cases h with
  | ok quiet' beside reported' => exact .ok (hquiet quiet') beside (reported.trans reported')
  | error quiet' beside reported' => exact .error (hquiet quiet') beside (reported.trans reported')
  | stopped strict first reported' =>
      have hstrict : t.options.IsStrict := reported.options ▸ strict
      obtain rfl := quiet hstrict
      exact .stopped hstrict first (reported.trans reported')

theorem ReportsAt.bind {m : LexM α} {f : α → LexM β} (hs : Shows s) (hm : ReportsAt s m)
    (hf : ∀ a s', m s = .ok a s' → Shows s' → ReportsAt s' (f a)) : ReportsAt s (m >>= f) := by
  rcases hm with ⟨ws, hm⟩
  cases hrun : m s with
  | error e s' =>
      refine ⟨ws, fun t ht => ?_⟩
      have hanswers := hm t ht
      rw [bind_of_error hrun]
      rw [hrun] at hanswers
      generalize hrun' : m t = r at hanswers
      cases hanswers with
      | error quiet beside reported =>
          rw [bind_of_error hrun']
          exact .error quiet beside reported
      | stopped strict first reported =>
          rw [bind_of_error hrun']
          exact .stopped strict first reported
  | ok a s' =>
      rcases hf a s' hrun (hs.next (reported_ok hrun hm)) with ⟨vs, hf⟩
      refine ⟨ws ++ vs, fun t ht => ?_⟩
      have hanswers := hm t ht
      rw [bind_of_ok hrun]
      rw [hrun] at hanswers
      generalize hrun' : m t = r at hanswers
      cases hanswers with
      | ok quiet beside reported =>
          rw [bind_of_ok hrun']
          exact (hf _ beside).behind quiet reported
      | stopped strict first reported =>
          rw [bind_of_error hrun']
          exact .stopped strict (by rw [List.head?_append, first]; rfl) reported

theorem reports_pure (a : α) : Reports (pure a : LexM α) :=
  fun _ _ => ⟨[], fun _ ht => .ok (fun _ => rfl) ht (reported_nil rfl rfl rfl)⟩

theorem reports_throw (f : Failure) : Reports (throw f : LexM α) :=
  fun _ _ => ⟨[], fun _ ht => .error (fun _ => rfl) ht (reported_nil rfl rfl rfl)⟩

theorem reports_bind {m : LexM α} {f : α → LexM β} (hm : Reports m) (hf : ∀ a, Reports (f a)) :
    Reports (m >>= f) :=
  fun s hs => (hm s hs).bind hs fun a s' _ hs' => hf a s' hs'

theorem reports_loop {κ ρ : Type} {step : κ → LexM (Round κ ρ)} {progress : Progress step}
    (h : ∀ a, Reports (step a)) (a : κ) : Reports (loop step progress a) := by
  intro s hs
  induction hn : s.weight using Nat.strongRecOn generalizing a s with
  | ind n ih =>
      have hloop : loop step progress a =
          step a >>= fun r => Round.rec (fun b => loop step progress b) (fun x => pure x) r := by
        funext lx
        rw [loop_eq]
        cases hstep : step a lx with
        | error f lx' => rw [bind_of_error hstep]
        | ok r lx' =>
            rw [bind_of_ok hstep]
            cases r <;> rfl
      rw [hloop]
      refine (h a s hs).bind hs fun r s' hround hs' => ?_
      cases r with
      | done x => exact reports_pure x s' hs'
      | again b => exact ih s'.weight (hn ▸ progress _ _ _ _ hround) b s' hs' rfl

theorem reports_silent {m : LexM α} (h : ∀ s t, Beside s t →
    (∃ a s' t', m s = .ok a s' ∧ m t = .ok a t' ∧ Beside s' t' ∧ Reported [] t t') ∨
      ∃ f, m s = .error f s ∧ m t = .error f t) : Reports m := by
  refine fun s _ => ⟨[], fun t ht => ?_⟩
  rcases h s t ht with ⟨a, s', t', hs, ht, beside, reported⟩ | ⟨f, hs, ht'⟩
  · rw [hs, ht]
    exact .ok (fun _ => rfl) beside reported
  · rw [hs, ht']
    exact .error (fun _ => rfl) ht (reported_nil rfl rfl rfl)

theorem reports_next : Reports next? := by
  refine reports_silent fun s t h => Or.inl ?_
  rcases h.toSame.readAcross with ⟨hc, hsame⟩
  refine ⟨_, { s with stream := s.stream.readAcross.2 }, { t with stream := t.stream.readAcross.2 },
    rfl, ?_, ⟨⟨hsame, h.pending⟩, h.mark⟩, reported_nil rfl t.stream.warnings_readAcross rfl⟩
  exact congrArg (EStateM.Result.ok · _) hc

theorem reports_unread (c : UInt8) : Reports (unread c) := by
  refine reports_silent fun s t h => ?_
  have hread : ∀ u : Lexer, CharStream.unread u.stream c = u.stream.unread c := fun _ => rfl
  unfold Lexer.unread
  rw [hread, hread, Stream.unread, Stream.unread, h.files, h.console, h.stashed]
  cases s.stream.files with
  | nil => exact Or.inr ⟨_, rfl, rfl⟩
  | cons top below =>
      dsimp only
      cases top.unread? c with
      | none => exact Or.inr ⟨_, rfl, rfl⟩
      | some top =>
          refine Or.inl ⟨(), _, _, rfl, rfl, ?_, reported_nil rfl rfl rfl⟩
          exact ⟨⟨⟨rfl, rfl, rfl⟩, h.pending⟩, h.mark⟩

theorem location_eq (h : Beside s t) : CharStream.location t.stream = CharStream.location s.stream :=
  congrArg (Option.getD · Location.unknown) h.place?

theorem reports_here (back : Int) : Reports (here back) := by
  refine reports_silent fun s t h => Or.inl ⟨_, s, t, rfl, ?_, h, reported_nil rfl rfl rfl⟩
  rw [here, location_eq h]

theorem reports_isAtLineStart : Reports isAtLineStart := by
  refine reports_silent fun s t h => Or.inl ⟨_, s, t, rfl, ?_, h, reported_nil rfl rfl rfl⟩
  rw [isAtLineStart, location_eq h]

theorem reports_marked : Reports marked := by
  refine reports_silent fun s t h => Or.inl ⟨_, s, t, rfl, ?_, h, reported_nil rfl rfl rfl⟩
  rw [marked, location_eq h, h.mark]

theorem reports_setMark : Reports setMark := by
  refine reports_silent fun s t h => Or.inl ?_
  unfold setMark
  rw [h.place?]
  cases CharStream.place? s.stream with
  | none => exact ⟨(), s, t, rfl, rfl, h, reported_nil rfl rfl rfl⟩
  | some place => exact ⟨(), _, _, rfl, rfl, ⟨⟨h.toSame, h.pending⟩, rfl⟩, reported_nil rfl rfl rfl⟩

theorem reports_needSource : Reports needSource := by
  refine reports_silent fun s t h => ?_
  unfold needSource
  rw [h.place?]
  cases CharStream.place? s.stream with
  | none => exact Or.inr ⟨_, rfl, rfl⟩
  | some place => exact Or.inl ⟨(), s, t, rfl, rfl, h, reported_nil rfl rfl rfl⟩

theorem reports_finish (lexeme : Lexeme) (encoding : Encoding) :
    Reports (finish lexeme encoding) := by
  refine reports_silent fun s t h => Or.inl ?_
  unfold finish
  rw [h.place?, h.mark]
  cases CharStream.place? s.stream with
  | none => exact ⟨_, s, t, rfl, rfl, h, reported_nil rfl rfl rfl⟩
  | some place =>
      rcases h.toSame.draw with ⟨hindex, hsame⟩
      refine ⟨_, { s with stream := s.stream.draw.2 }, { t with stream := t.stream.draw.2 }, rfl, ?_,
        ⟨⟨hsame, h.pending⟩, h.mark⟩, reported_nil rfl t.stream.warnings_draw rfl⟩
      dsimp only [CharStream.draw]
      rw [hindex, h.mark]

/-- Here alone the options make a difference. -/
theorem reports_warn (location : Location) (text : String) : Reports (warn location text) := by
  intro s hs
  refine ⟨[⟨location, text⟩], fun t h => ?_⟩
  have hrun : warn location text s = .ok () { s with
      collector := (s.collector.add text (some location)).2,
      stream := CharStream.note s.stream (s.collector.add text (some location)).1 } := by
    rw [warn, if_pos hs.1, hs.2]
    rfl
  rw [hrun]
  unfold warn
  by_cases henabled : t.options.enableWarnings = true
  · rw [if_pos henabled]
    by_cases herrors : t.options.warningsAsErrors = true
    · rw [if_pos herrors]
      exact .stopped (w := ⟨location, text⟩) ⟨henabled, herrors⟩ rfl (reported_nil rfl rfl rfl)
    · rw [if_neg herrors]
      have hshown : t.options.shown [⟨location, text⟩] =
          [Collector.warningText (some location) text] := if_pos henabled
      refine .ok (fun hstrict => absurd hstrict.2 herrors) ?_ ⟨rfl, ?_, ?_⟩
      · exact ⟨⟨⟨h.files, h.stashed, h.console⟩, h.pending⟩, h.mark⟩
      · rw [hshown]
        exact Stream.warnings_warning _ _
      · rw [hshown]
        rfl
  · rw [if_neg henabled]
    have hshown : t.options.shown [⟨location, text⟩] = [] := if_neg henabled
    refine .ok (fun hstrict => absurd hstrict.1 henabled) ?_ ⟨rfl, ?_, ?_⟩
    · exact ⟨⟨⟨h.files, h.stashed, h.console⟩, h.pending⟩, h.mark⟩
    · rw [hshown, List.append_nil]
    · rw [hshown]
      rfl

theorem rules : TokenRules fun _ (m _ : LexM _) => Reports m where
  rel_pure := reports_pure
  rel_throw := fun _ => reports_throw _
  rel_bind := reports_bind
  rel_loop := reports_loop
  rel_next := reports_next
  rel_unread := reports_unread
  rel_here := reports_here
  rel_warn := reports_warn
  rel_finish := reports_finish
  rel_throw_marked := fun _ _ => reports_bind reports_marked fun _ => reports_throw _
  rel_throw_comment := fun _ => reports_throw _
  rel_setMark := reports_setMark
  rel_needSource := reports_needSource
  rel_isAtLineStart := reports_isAtLineStart

theorem ReportsAt.congr {m n : LexM α} (hn : ReportsAt s n) (h : ∀ t, Beside s t → m t = n t) :
    ReportsAt s m := by
  rcases hn with ⟨ws, hn⟩
  refine ⟨ws, fun t ht => ?_⟩
  rw [h s (Beside.refl s), h t ht]
  exact hn t ht

theorem reports_take (t : Token) (pending : List (List Token)) :
    Reports fun lx => .ok t { lx with pending } :=
  reports_silent fun _ _ h => Or.inl ⟨t, _, _, rfl, rfl, ⟨⟨h.toSame, rfl⟩, h.mark⟩,
    reported_nil rfl rfl rfl⟩

theorem reports_nextToken : Reports nextToken := by
  intro s hs
  match hpending : s.pending with
  | [] =>
      refine (reports_throw .nothingThere s hs).congr fun t h => ?_
      rw [nextToken, h.pending, hpending]
      rfl
  | (first :: rest) :: outer =>
      refine (reports_take first (rest :: outer) s hs).congr fun t h => ?_
      rw [nextToken, h.pending, hpending]
  | [] :: _ :: _ =>
      refine (rules.rel_endToken s hs).congr fun t h => ?_
      rw [nextToken, h.pending, hpending]
  | [[]] =>
      refine (rules.rel_freshToken s hs).congr fun t h => ?_
      rw [nextToken, h.pending, hpending]

/-- The tokens from `t` stop with the warning `w`. They are those that the calls from `s` give
before the one that notes the first warning. -/
structure StopsAt (w : Warning) (s t : Lexer) : Prop where
  failure : t.listing.failure = some w.failure
  tokens : t.listing.tokens <+: s.listing.tokens
  calls : (nextTokens s t.listing.tokens.length).1 = t.listing.tokens.map some
  silent : (nextTokens s t.listing.tokens.length).2.stream.warnings = s.stream.warnings
  noted : (nextTokens s (t.listing.tokens.length + 1)).2.stream.warnings ≠ s.stream.warnings

/-- How the tokens from `t` answer those of a run from `s` that passes the warnings `ws`. -/
structure ListingAnswers (ws : List Warning) (s t : Lexer) : Prop where
  alike (quiet : t.options.IsStrict → ws = []) :
    t.listing.tokens = s.listing.tokens ∧ t.listing.failure = s.listing.failure ∧
      Reported ws t t.listing.lexer
  stopped (strict : t.options.IsStrict) {w : Warning} (first : ws.head? = some w) : StopsAt w s t

/-- The call that notes the first warning is the one that fails. -/
theorem stopsAt_first (hs : Shows s) {w : Warning} (first : ws.head? = some w)
    (hanswers : ∀ t, Beside s t → Answers ws t (nextToken s) (nextToken t))
    (ht : nextToken t = .error w.failure t') : StopsAt w s t := by
  have hlisting := listing_of_error ht
  have hshown : s.options.shown ws ≠ [] := by
    rw [Options.shown, if_pos hs.1]
    rintro hnil
    rw [List.map_eq_nil_iff.mp hnil] at first
    cases first
  have hne : ∀ s', Reported ws s s' → s'.stream.warnings ≠ s.stream.warnings := by
    intro s' hreported
    rw [hreported.warnings]
    exact fun heq => hshown (List.append_right_eq_self.mp heq)
  constructor
  · rw [hlisting]
  · rw [hlisting]
    exact List.nil_prefix
  · rw [hlisting]
    rfl
  · rw [hlisting]
    rfl
  · rw [hlisting]
    show (nextTokens s 1).2.stream.warnings ≠ _
    rw [nextTokens, nextTokens]
    cases hrun : nextToken s with
    | error f s' => exact hne s' (hs.reported_error hrun hanswers)
    | ok first s' => exact hne s' (reported_ok hrun hanswers)

theorem listingAnswers_stopped (hs : Shows s) (strict : t.options.IsStrict) {w : Warning}
    (first : ws.head? = some w)
    (hanswers : ∀ t, Beside s t → Answers ws t (nextToken s) (nextToken t))
    (ht : nextToken t = .error w.failure t') (vs : List Warning) :
    ListingAnswers (ws ++ vs) s t := by
  have hhead : (ws ++ vs).head? = some w := by rw [List.head?_append, first]; rfl
  constructor
  · intro quiet
    rw [quiet strict] at hhead
    cases hhead
  · intro _ v hv
    obtain rfl : w = v := Option.some.inj (hhead.symm.trans hv)
    exact stopsAt_first hs first hanswers ht

theorem listingAnswers_last {tokens : List Token} {failure : Option Failure}
    (hs : s.listing = ⟨tokens, failure, s'⟩) (ht : t.listing = ⟨tokens, failure, t'⟩)
    (quiet : t.options.IsStrict → ws = []) (reported : Reported ws t t') :
    ListingAnswers ws s t := by
  constructor
  · intro _
    rw [hs, ht]
    exact ⟨rfl, rfl, reported⟩
  · intro strict w first
    rw [quiet strict] at first
    cases first

theorem StopsAt.cons {w : Warning} (h : StopsAt w s' t') {token : Token}
    (hrun : nextToken s = .ok token s') (hs : s.listing = s'.listing.cons token)
    (ht : t.listing = t'.listing.cons token) (silent : s'.stream.warnings = s.stream.warnings) :
    StopsAt w s t := by
  have htokens : t.listing.tokens = token :: t'.listing.tokens := by rw [ht]; rfl
  have hcons : ∀ n, nextTokens s (n + 1) =
      (some token :: (nextTokens s' n).1, (nextTokens s' n).2) := by
    intro n
    rw [nextTokens_cons, hrun]
  constructor
  · rw [ht]
    exact h.failure
  · rw [htokens, show s.listing.tokens = token :: s'.listing.tokens by rw [hs]; rfl,
      List.cons_prefix_cons]
    exact ⟨rfl, h.tokens⟩
  · rw [htokens, List.length_cons, hcons, h.calls]
    rfl
  · rw [htokens, List.length_cons, hcons, ← silent]
    exact h.silent
  · rw [htokens, List.length_cons, hcons, ← silent]
    exact h.noted

theorem ListingAnswers.cons (h : ListingAnswers vs s' t') {token : Token}
    (hrun : nextToken s = .ok token s') (hreported : Reported ws s s')
    (hs : s.listing = s'.listing.cons token) (ht : t.listing = t'.listing.cons token)
    (quiet : t.options.IsStrict → ws = []) (reported : Reported ws t t') :
    ListingAnswers (ws ++ vs) s t := by
  constructor
  · intro quiet'
    rcases h.alike fun strict =>
      (List.append_eq_nil_iff.mp (quiet' (reported.options ▸ strict))).2 with
      ⟨htokens, hfailure, hrest⟩
    rw [hs, ht]
    exact ⟨congrArg (token :: ·) htokens, hfailure, reported.trans hrest⟩
  · intro strict w first
    -- A strict run has come so far only if it has passed no warning yet.
    obtain rfl := quiet strict
    refine (h.stopped (reported.options ▸ strict) first).cons hrun hs ht ?_
    have hwarnings := hreported.warnings
    rwa [show s.options.shown [] = [] by simp [Options.shown], List.append_nil] at hwarnings

theorem listing_answers (hs : Shows s) : ∃ ws, ∀ t, Beside s t → ListingAnswers ws s t := by
  induction hn : s.weight using Nat.strongRecOn generalizing s with
  | ind n ih =>
      rcases reports_nextToken s hs with ⟨ws, hnext⟩
      cases hrun : nextToken s with
      | error f s' =>
          refine ⟨ws ++ [], fun t ht => ?_⟩
          have hanswers := hnext t ht
          rw [hrun] at hanswers
          generalize hrun' : nextToken t = r at hanswers
          cases hanswers with
          | error quiet beside reported =>
              rw [List.append_nil]
              exact listingAnswers_last (listing_of_error hrun) (listing_of_error hrun') quiet reported
          | stopped strict first _ => exact listingAnswers_stopped hs strict first hnext hrun' []
      | ok token s' =>
          have hreported := reported_ok hrun hnext
          -- What the rest passes depends on the first run alone.
          have hrest : ∃ vs, ∀ t t', Beside s' t' → nextToken t = .ok token t' →
              (t.options.IsStrict → ws = []) → Reported ws t t' → ListingAnswers (ws ++ vs) s t := by
            cases hend : token.isEnd with
            | true =>
                refine ⟨[], fun t t' _ hrun' quiet reported => ?_⟩
                rw [List.append_nil]
                exact listingAnswers_last (listing_of_end hrun hend) (listing_of_end hrun' hend) quiet
                  reported
            | false =>
                rcases ih s'.weight (hn ▸ advances_nextToken _ _ _ hrun hend) (hs.next hreported) rfl
                  with ⟨vs, hlist⟩
                refine ⟨vs, fun t t' beside hrun' quiet reported => ?_⟩
                exact (hlist t' beside).cons hrun hreported (listing_of_more hrun hend)
                  (listing_of_more hrun' hend) quiet reported
          rcases hrest with ⟨vs, hrest⟩
          refine ⟨ws ++ vs, fun t ht => ?_⟩
          have hanswers := hnext t ht
          rw [hrun] at hanswers
          generalize hrun' : nextToken t = r at hanswers
          cases hanswers with
          | ok quiet beside reported => exact hrest t _ beside hrun' quiet reported
          | stopped strict first _ => exact listingAnswers_stopped hs strict first hnext hrun' vs

theorem keep_foldl (limit : Int) (before shown : List String) :
    (shown.foldl Collector.keep ⟨limit, before.take limit.toNat⟩).warnings =
      (before ++ shown).take limit.toNat := by
  induction shown generalizing before with
  | nil => rw [List.append_nil]; rfl
  | cons first shown ih =>
      have hkeep : Collector.keep ⟨limit, before.take limit.toNat⟩ first =
          ⟨limit, (before ++ [first]).take limit.toNat⟩ := by
        unfold Collector.keep
        dsimp only
        rw [List.length_take, List.take_append]
        by_cases hroom : before.length < limit.toNat
        · rw [if_pos (by omega), List.take_of_length_le (Nat.le_of_lt hroom),
            List.take_of_length_le (show [first].length ≤ _ by simp; omega)]
        · rw [if_neg (by omega), Nat.sub_eq_zero_of_le (Nat.le_of_not_lt hroom), List.take_zero,
            List.append_nil]
      rw [List.foldl_cons, hkeep, ih, List.append_assoc]
      rfl

end Reporting

/-- The warnings of an input do not depend on what is done with them. If they are shown, they are
noted in order and the first of them are kept, as many as there is room for. If they are passed
over, the tokens and the failure are the same and nothing is noted or kept. If they stop the
reading, the tokens and the failure are the same as long as there is no warning; otherwise the
first warning is the failure, and the tokens are those of the calls before the one that notes it. -/
theorem listing_warnings (stream : Stream) :
    let lexer := fun options => Lexer.ofStream stream options
    let shown := (lexer {}).listing
    ∃ warnings : List Warning,
      (∀ maxWarnings : Int,
        let run := (lexer { maxWarnings }).listing
        run.tokens = shown.tokens ∧ run.failure = shown.failure ∧
          run.lexer.stream.warnings = stream.warnings ++ warnings.map Warning.shown ∧
          run.lexer.collector.warnings = (warnings.map Warning.shown).take maxWarnings.toNat) ∧
      (∀ (warningsAsErrors : Bool) (maxWarnings : Int),
        let run := (lexer { enableWarnings := false, warningsAsErrors, maxWarnings }).listing
        run.tokens = shown.tokens ∧ run.failure = shown.failure ∧
          run.lexer.stream.warnings = stream.warnings ∧ run.lexer.collector.warnings = []) ∧
      ∀ maxWarnings : Int,
        let run := (lexer { warningsAsErrors := true, maxWarnings }).listing
        match warnings with
        | [] =>
          run.tokens = shown.tokens ∧ run.failure = shown.failure ∧
            run.lexer.stream.warnings = stream.warnings ∧ run.lexer.collector.warnings = []
        | first :: _ =>
          run.failure = some first.failure ∧ run.tokens <+: shown.tokens ∧
            (nextTokens (lexer {}) run.tokens.length).1 = run.tokens.map some ∧
            (nextTokens (lexer {}) run.tokens.length).2.stream.warnings = stream.warnings ∧
            (nextTokens (lexer {}) (run.tokens.length + 1)).2.stream.warnings ≠ stream.warnings := by
  intro lexer shown
  have hshows : Reporting.Shows (lexer {}) := ⟨rfl, rfl⟩
  have hbeside : ∀ options, Reporting.Beside (lexer {}) (lexer options) :=
    fun options => ⟨⟨⟨rfl, rfl, rfl⟩, rfl⟩, rfl⟩
  rcases Reporting.listing_answers hshows with ⟨warnings, hanswers⟩
  have answers : ∀ options, Reporting.ListingAnswers warnings (lexer {}) (lexer options) :=
    fun options => hanswers _ (hbeside options)
  refine ⟨warnings, ?_, ?_, ?_⟩
  · intro maxWarnings run
    have quiet : ({ maxWarnings } : Options).IsStrict → warnings = [] := fun strict => nomatch strict.2
    rcases (answers { maxWarnings }).alike quiet with ⟨htokens, hfailure, hreported⟩
    refine ⟨htokens, hfailure, hreported.warnings, ?_⟩
    rw [hreported.collector]
    have hkept := Reporting.keep_foldl maxWarnings [] (warnings.map Warning.shown)
    rwa [List.take_nil, List.nil_append] at hkept
  · intro warningsAsErrors maxWarnings run
    let options : Options := { enableWarnings := false, warningsAsErrors, maxWarnings }
    have quiet : options.IsStrict → warnings = [] := fun strict => nomatch strict.1
    rcases (answers options).alike quiet with ⟨htokens, hfailure, hreported⟩
    refine ⟨htokens, hfailure, ?_, ?_⟩
    · rw [hreported.warnings]
      exact List.append_nil _
    · rw [hreported.collector]
      rfl
  · intro maxWarnings run
    have hrun := answers { warningsAsErrors := true, maxWarnings }
    cases warnings with
    | nil =>
        rcases hrun.alike fun _ => rfl with ⟨htokens, hfailure, hreported⟩
        refine ⟨htokens, hfailure, ?_, ?_⟩
        · rw [hreported.warnings]
          exact List.append_nil _
        · rw [hreported.collector]
          rfl
    | cons first rest =>
        have hstops := hrun.stopped ⟨rfl, rfl⟩ rfl
        exact ⟨hstops.failure, hstops.tokens, hstops.calls, hstops.silent, hstops.noted⟩

end CLex
