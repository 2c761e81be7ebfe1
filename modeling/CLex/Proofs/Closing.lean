import CLex.Lexer.Conditional
import CLex.Proofs.Footing.Basic
import CLex.Proofs.Reading
import CLex.Proofs.Rereading

/-!
Passing over a literal stops where reading it stops. The reader decodes escapes and looks ahead; all
that the skipper knows is that a backslash hides one character. Yet what an escape goes on with is
digits, and a digit closes no literal: when the reader is done with an escape, the skipper comes to
the same place by itself.
-/

namespace CLex

open Character Lexer LexM

namespace Source

variable (s : Source)

def uncounted : Source :=
  { s with tokens := 0 }

theorem advance_uncounted (c : Option UInt8) : s.uncounted.advance c = (s.advance c).uncounted := by
  cases c with
  | none => rfl
  | some c =>
      simp only [advance]
      split <;> rfl

theorem putBack_uncounted (c : UInt8) : s.uncounted.putBack c = (s.putBack c).uncounted := by
  simp only [putBack]
  split <;> rfl

theorem readInput_uncounted :
    s.uncounted.readInput = (s.readInput.1, s.readInput.2.uncounted) := by
  have hclosed : s.uncounted.isLineClosed = s.isLineClosed := rfl
  unfold readInput
  rw [show s.uncounted.input = s.input from rfl, hclosed]
  rcases s.input.next with ⟨_ | b, rest⟩
  · rfl
  · dsimp only
    split <;> rfl

theorem get_uncounted : s.uncounted.get = (s.get.1, s.get.2.uncounted) := by
  unfold get
  rw [show s.uncounted.pushback = s.pushback from rfl]
  cases s.pushback with
  | nil =>
      dsimp only
      rw [readInput_uncounted, advance_uncounted]
  | cons c rest =>
      exact congrArg (Prod.mk (some c)) (advance_uncounted { s with pushback := rest } (some c))

theorem readChar_uncounted : s.uncounted.readChar = (s.readChar.1, s.readChar.2.uncounted) := by
  fun_induction readChar s with
  | case1 s s₁ hb => rw [readChar_eq, get_uncounted, hb]
  | case2 s s₁ s₂ hend hb =>
      rw [readChar_eq, get_uncounted, hb]
      dsimp only
      rw [if_pos rfl, get_uncounted, hend]
  | case3 s s₁ s₂ hb hpair ih =>
      rw [readChar_eq, get_uncounted, hb]
      dsimp only
      rw [if_pos rfl, get_uncounted, hpair]
      dsimp only
      rw [if_pos rfl, ih]
  | case4 s s₁ d s₂ hd hne hb =>
      rw [readChar_eq, get_uncounted, hb]
      dsimp only
      rw [if_pos rfl, get_uncounted, hd]
      dsimp only
      rw [if_neg hne, putBack_uncounted]
  | case5 s b s₁ hb hne =>
      rw [readChar_eq, get_uncounted, hb]
      dsimp only
      rw [if_neg hne]

end Source

namespace Stream

/-- The stream without its records: no token has been counted and nothing noted. -/
def bare (s : Stream) : Stream :=
  { s with files := s.files.map Source.uncounted, journal := {} }

variable {s t : Stream}

theorem readChar_bare (s : Stream) : s.bare.readChar = (s.readChar.1, s.readChar.2.bare) := by
  unfold readChar
  cases hfiles : s.files with
  | nil => simp [bare, hfiles]
  | cons top below =>
      have hread := (top.lend s.console).readChar_uncounted
      simp only [bare, hfiles, List.map_cons]
      rw [show top.uncounted.lend s.console = (top.lend s.console).uncounted from rfl, hread]
      rfl

theorem drop_bare (s : Stream) : s.bare.drop.bare = s.drop.bare := by
  unfold drop pop?
  cases hfiles : s.files with
  | nil => simp [bare, hfiles]
  | cons top below =>
      simp only [bare, hfiles, List.map_cons, release]
      split <;> split <;> simp [record, Source.uncounted, Function.comp_def]

theorem readAcross_eq (s : Stream) :
    s.readAcross =
      match s.readChar with
      | (some c, s') => (some c, s')
      | (none, s') => if s'.files.length ≤ 1 then (none, s') else s'.drop.readAcross := by
  rw [readAcross]
  split
  · next hr => rw [hr]
  · next hr => rw [hr]

theorem readChar_of_bare_eq {s' : Stream} {c : Option UInt8} (h : s.bare = t.bare)
    (hr : s.readChar = (c, s')) :
    ∃ t', t.readChar = (c, t') ∧ s'.bare = t'.bare ∧ s'.files.length = t'.files.length := by
  have hread := s.readChar_bare.symm.trans (h ▸ t.readChar_bare)
  rw [hr, Prod.mk.injEq] at hread
  have hfiles := congrArg (fun s : Stream => s.files.length) hread.2
  simp only [bare, List.length_map] at hfiles
  exact ⟨t.readChar.2, Prod.ext hread.1.symm rfl, hread.2, hfiles⟩

/-- What has been counted and noted makes no difference to what is read. -/
theorem readAcross_of_bare_eq (h : s.bare = t.bare) :
    s.readAcross.1 = t.readAcross.1 ∧ s.readAcross.2.bare = t.readAcross.2.bare := by
  fun_induction readAcross s generalizing t with
  | case1 s c s' hr =>
      rcases readChar_of_bare_eq h hr with ⟨t', ht, hbare, -⟩
      rw [readAcross_eq t, ht]
      exact ⟨rfl, hbare⟩
  | case2 s s' hr hlen =>
      rcases readChar_of_bare_eq h hr with ⟨t', ht, hbare, hfiles⟩
      rw [readAcross_eq t, ht]
      dsimp only
      rw [if_pos (hfiles ▸ hlen)]
      exact ⟨rfl, hbare⟩
  | case3 s s' hr hlen ih =>
      rcases readChar_of_bare_eq h hr with ⟨t', ht, hbare, hfiles⟩
      rw [readAcross_eq t, ht]
      dsimp only
      rw [if_neg (hfiles ▸ hlen)]
      exact ih (by rw [← drop_bare, hbare, drop_bare])

theorem readAcross_of_none {s' : Stream} (h : s.readAcross = (none, s')) :
    s'.readAcross.1 = none := by
  have hread := s.readPages_book
  rw [h] at hread
  rcases Book.textOf_readPages_none hread with ⟨-, hlen, hend⟩
  exact readAcross_of_end hlen hend 0

/-- When both streams have read the character that the first one has next, they are alike. -/
def Nears (s t : Stream) : Prop :=
  ∀ c s', s.readAcross = (some c, s') → ∃ t', t.readAcross = (some c, t') ∧ t'.bare = s'.bare

theorem nears_of_bare_eq (h : t.bare = s.bare) : s.Nears t := by
  intro c s' hs
  rcases readAcross_of_bare_eq h with ⟨hc, hbare⟩
  rw [hs] at hc hbare
  exact ⟨t.readAcross.2, Prod.ext hc rfl, hbare⟩

theorem Nears.of_bare_eq {s' : Stream} (h : s.Nears t) (hbare : s'.bare = s.bare) :
    s'.Nears t := by
  intro c u hu
  rcases nears_of_bare_eq hbare.symm c u hu with ⟨s₁, hs, h₁⟩
  rcases h c s₁ hs with ⟨t₁, ht, h₂⟩
  exact ⟨t₁, ht, h₂.trans h₁⟩

theorem nears_of_ended (h : s.readAcross.1 = none) (t : Stream) : s.Nears t := by
  intro c s' hs
  rw [hs] at h
  cases h

theorem Nears.unread {s₁ s₂ : Stream} {c : UInt8} (h : s.Nears t)
    (hread : s.readAcross = (some c, s₁)) (hunread : s₁.unread c = .ok s₂) : s₂.Nears t := by
  intro d s' hs
  rw [readAcross_unread hread hunread] at hs
  exact h d s' (hread.trans hs)

end Stream

namespace Closing

def Anyhow (_ : Failure) (_ : Lexer) : Prop :=
  True

variable {skip : LexM Unit} {r : EStateM.Result Failure Lexer Unit} {c : UInt8}

/-- Somewhere along its way to the result `r`, the skipper stands where the lexer does. -/
def Trails (skip : LexM Unit) (r : EStateM.Result Failure Lexer Unit) (lx : Lexer) : Prop :=
  ∃ sk : Lexer, skip sk = r ∧ lx.stream.Nears sk.stream

/-- The lexer and the skipper have both read `c`. -/
def Shares (skip : LexM Unit) (r : EStateM.Result Failure Lexer Unit) (c : UInt8) (lx : Lexer) :
    Prop :=
  ∃ sk sk' : Lexer, skip sk = r ∧ next? sk = .ok (some c) sk' ∧ sk'.stream.bare = lx.stream.bare

/-- The skipper has ended where the lexer stands. -/
def Meets (r : EStateM.Result Failure Lexer Unit) (lx : Lexer) : Prop :=
  ∃ sk : Lexer, r = .ok () sk ∧ sk.stream.bare = lx.stream.bare

/-- Having read `c`, the skipper goes on as `skip'` does. -/
def GoesOn (skip : LexM Unit) (c : UInt8) (skip' : LexM Unit) : Prop :=
  ∀ sk sk', next? sk = .ok (some c) sk' → skip sk = skip' sk'

theorem Shares.trails {skip' : LexM Unit} {lx : Lexer} (h : Shares skip r c lx)
    (hgoes : GoesOn skip c skip') : Trails skip' r lx := by
  rcases h with ⟨sk, sk', hskip, hread, hbare⟩
  exact ⟨sk', hskip ▸ (hgoes sk sk' hread).symm, Stream.nears_of_bare_eq hbare⟩

theorem trails_note {lx lx' : Lexer} (h : Trails skip r lx)
    (hbare : lx'.stream.bare = lx.stream.bare) : Trails skip r lx' := by
  rcases h with ⟨sk, hskip, hnears⟩
  exact ⟨sk, hskip, hnears.of_bare_eq hbare⟩

theorem leads_next? :
    Leads Anyhow (Trails skip r) next? fun c lx =>
      match c with
      | none => lx.stream.readAcross.1 = none
      | some c => Shares skip r c lx := by
  rintro lx ⟨sk, hskip, hnears⟩
  unfold next?
  cases h : CharStream.read lx.stream with
  | mk c stream =>
      cases c with
      | none => exact Stream.readAcross_of_none h
      | some c =>
          rcases hnears c stream h with ⟨t, ht, hbare⟩
          refine ⟨sk, { sk with stream := t }, hskip, ?_, hbare⟩
          show EStateM.Result.ok sk.stream.readAcross.1 { sk with stream := sk.stream.readAcross.2 } = _
          rw [ht]

theorem trails_of_ended (h : ∃ sk : Lexer, skip sk = r) {lx : Lexer}
    (hend : lx.stream.readAcross.1 = none) : Trails skip r lx := by
  rcases h with ⟨sk, hskip⟩
  exact ⟨sk, hskip, Stream.nears_of_ended hend _⟩

theorem Trails.exists {lx : Lexer} (h : Trails skip r lx) : ∃ sk : Lexer, skip sk = r := by
  rcases h with ⟨sk, hskip, -⟩
  exact ⟨sk, hskip⟩

theorem Trails.unread {lx lx₁ lx₂ : Lexer} (h : Trails skip r lx)
    (hread : next? lx = .ok (some c) lx₁) (hunread : unread c lx₁ = .ok () lx₂) :
    Trails skip r lx₂ := by
  unfold next? at hread
  simp only [EStateM.Result.ok.injEq] at hread
  rcases hread with ⟨hc, rfl⟩
  rcases h with ⟨sk, hskip, hnears⟩
  unfold Lexer.unread at hunread
  split at hunread
  · next stream hstream =>
    simp only [EStateM.Result.ok.injEq, true_and] at hunread
    subst hunread
    exact ⟨sk, hskip, hnears.unread (Prod.ext hc rfl) hstream⟩
  · cases hunread

theorem leads_peekIs (p : UInt8 → Bool) :
    Leads Anyhow (Trails skip r) (peekIs p) fun _ => Trails skip r := by
  intro lx h
  rw [peekIs]
  have hrun := leads_next? lx h
  rcases hread : next? lx with ⟨_ | c, lx₁⟩ | ⟨f, lx₁⟩
  · rw [hread] at hrun
    rw [bind_of_ok hread]
    exact trails_of_ended h.exists hrun
  · rw [bind_of_ok hread]
    dsimp only
    rcases hunread : unread c lx₁ with ⟨⟨⟩, lx₂⟩ | ⟨f, lx₂⟩
    · rw [bind_of_ok hunread]
      exact h.unread hread hunread
    · rw [bind_of_error hunread]
      trivial
  · cases hread

theorem leads_takeIf {p : UInt8 → Bool} (hp : ∀ c, p c = true → GoesOn skip c skip) :
    Leads Anyhow (Trails skip r) (takeIf p) fun _ => Trails skip r := by
  intro lx h
  rw [takeIf]
  have hrun := leads_next? lx h
  rcases hread : next? lx with ⟨_ | c, lx₁⟩ | ⟨f, lx₁⟩
  · rw [hread] at hrun
    rw [bind_of_ok hread]
    exact trails_of_ended h.exists hrun
  · rw [hread] at hrun
    rw [bind_of_ok hread]
    dsimp only
    by_cases hc : p c = true
    · rw [if_pos hc]
      exact hrun.trails (hp c hc)
    · rw [if_neg hc]
      rcases hunread : unread c lx₁ with ⟨⟨⟩, lx₂⟩ | ⟨f, lx₂⟩
      · rw [bind_of_ok hunread]
        exact h.unread hread hunread
      · rw [bind_of_error hunread]
        trivial
  · cases hread

theorem leads_warn (location : Location) (text : String) :
    Leads Anyhow (Trails skip r) (warn location text) fun _ => Trails skip r :=
  leads_warn_of (fun _ _ _ _ => trivial) fun _ _ _ h => trails_note h rfl

theorem leads_hidden :
    Leads Anyhow (Trails (next? >>= fun _ => skip) r) next? fun _ => Trails skip r := by
  refine fun lx h => ?_
  have hrun := leads_next? lx h
  rcases hread : next? lx with ⟨_ | c, lx₁⟩ | ⟨f, lx₁⟩
  · rw [hread] at hrun
    rcases h.exists with ⟨sk, hskip⟩
    rcases hsk : next? sk with ⟨d, sk'⟩ | ⟨f, sk'⟩
    · rw [bind_of_ok hsk] at hskip
      exact trails_of_ended ⟨sk', hskip⟩ hrun
    · cases hsk
  · rw [hread] at hrun
    exact hrun.trails fun sk sk' hsk => bind_of_ok hsk
  · cases hread

section Escapes

variable (hdigits : ∀ c, (hexValue? c.toNat).isSome = true → GoesOn skip c skip)

include hdigits

theorem leads_hexDigits : Leads Anyhow (Trails skip r) hexDigits fun _ => Trails skip r := by
  refine leads_bind (leads_here 2) fun start => leads_bind leads_next? fun d => ?_
  cases d with
  | none => exact leads_throw fun _ _ => trivial
  | some d =>
      dsimp only
      cases hd : hexValue? d.toNat with
      | none => exact leads_throw fun _ _ => trivial
      | some value =>
          refine (leads_loop (I := fun _ => Trails skip r) (fun a => ?_) value).pre fun lx h =>
            h.trails (hdigits d (by rw [hd]; rfl))
          refine leads_bind (leads_takeIf hdigits) fun e => ?_
          cases e <;> exact leads_pure fun _ h => h

theorem leads_universalDigits (start : Location) (count value : Nat) :
    Leads Anyhow (Trails skip r) (universalDigits start count value) fun _ => Trails skip r := by
  induction count generalizing value with
  | zero => exact leads_pure fun _ h => h
  | succ count ih =>
      refine leads_bind leads_next? fun d => ?_
      cases d with
      | none => exact leads_throw fun _ _ => trivial
      | some d =>
          dsimp only
          cases hd : hexValue? d.toNat with
          | none => exact leads_throw fun _ _ => trivial
          | some value' => exact (ih _).pre fun lx h => h.trails (hdigits d (by rw [hd]; rfl))

theorem leads_universalName (mark : Char) (count : Nat) :
    Leads Anyhow (Trails skip r) (universalName mark count) fun _ => Trails skip r := by
  refine leads_bind (leads_here 2) fun start =>
    leads_bind (leads_universalDigits hdigits start count 0) fun code => ?_
  split
  · exact leads_pure fun _ h => h
  · exact leads_throw fun _ _ => trivial

theorem leads_octalDigits (count value : Nat) :
    Leads Anyhow (Trails skip r) (octalDigits count value) fun _ => Trails skip r := by
  have hoctal : ∀ c : UInt8, isOctalDigit c.toNat = true → GoesOn skip c skip := by
    intro c hc
    refine hdigits c ?_
    simp only [isOctalDigit, Bool.and_eq_true, decide_eq_true_eq] at hc
    rw [hexValue?, if_pos (by omega)]
    rfl
  induction count generalizing value with
  | zero => exact leads_pure fun _ h => h
  | succ count ih =>
      refine leads_bind (leads_takeIf hoctal) fun d => ?_
      cases d with
      | none => exact leads_pure fun _ h => h
      | some d => exact ih _

theorem leads_escapeFrom (start : Location) (c : UInt8) :
    Leads Anyhow (Trails skip r) (escapeFrom start c) fun _ => Trails skip r := by
  unfold escapeFrom
  split
  · exact leads_pure fun _ h => h
  · split
    · exact leads_hexDigits hdigits
    · split
      · exact leads_universalName hdigits _ _
      · split
        · exact leads_universalName hdigits _ _
        · split
          · exact leads_octalDigits hdigits _ _
          · exact leads_bind (leads_warn _ _) fun _ => leads_pure fun _ h => h

theorem leads_escape :
    Leads Anyhow (Trails (next? >>= fun _ => skip) r) escape fun _ => Trails skip r := by
  refine leads_bind (leads_here 1) fun start => leads_bind leads_hidden fun d => ?_
  cases d with
  | none => exact leads_bind (leads_warn _ _) fun _ => leads_pure fun _ h => h
  | some d => exact leads_escapeFrom hdigits start d

end Escapes

theorem leads_unterminated {α : Type} {P : Lexer → Prop} {Q : α → Lexer → Prop} (cause : Cause) :
    Leads Anyhow P (do throw (.located cause (← marked))) Q :=
  leads_bind leads_marked fun _ => leads_throw fun _ _ => trivial

theorem ne_of_isSome_hexValue? {c d : UInt8} (h : (hexValue? c.toNat).isSome = true)
    (hd : hexValue? d.toNat = none) : c ≠ d := by
  rintro rfl
  rw [hd] at h
  cases h

theorem skipStringLiteral_quote {sk sk' : Lexer} (h : next? sk = .ok (some doubleQuote) sk') :
    skipStringLiteral sk = .ok () sk' := by
  have hround : quoteRound () sk = .ok (.done ()) sk' := by
    rw [quoteRound, bind_of_ok h]
    rfl
  rw [skipStringLiteral, loop_eq, hround]

theorem goesOn_backslash :
    GoesOn skipStringLiteral backslash (next? >>= fun _ => skipStringLiteral) := by
  intro sk sk' h
  rcases hidden : next? sk' with ⟨d, sk''⟩ | ⟨f, sk''⟩
  · have hround : quoteRound () sk = .ok (.again ()) sk'' := by
      rw [quoteRound, bind_of_ok h]
      dsimp only
      rw [if_neg (by decide), if_pos rfl, bind_of_ok hidden]
      rfl
    rw [skipStringLiteral, loop_eq, hround, bind_of_ok hidden]
  · cases hidden

theorem goesOn_string (hquote : c ≠ doubleQuote) (hback : c ≠ backslash) :
    GoesOn skipStringLiteral c skipStringLiteral := by
  intro sk sk' h
  have hround : quoteRound () sk = .ok (.again ()) sk' := by
    rw [quoteRound, bind_of_ok h]
    dsimp only
    rw [if_neg hquote, if_neg hback]
    rfl
  rw [skipStringLiteral, loop_eq, hround]

theorem leads_stringRound (bytes : List UInt8) :
    Leads Anyhow (Trails skipStringLiteral r) (stringRound bytes)
      (RoundLeft (fun _ => Trails skipStringLiteral r) fun _ => Meets r) := by
  have hdigits : ∀ c : UInt8, (hexValue? c.toNat).isSome = true →
      GoesOn skipStringLiteral c skipStringLiteral := fun c hc =>
    goesOn_string (ne_of_isSome_hexValue? hc rfl) (ne_of_isSome_hexValue? hc rfl)
  refine leads_bind leads_next? fun c => ?_
  cases c with
  | none => exact leads_unterminated _
  | some c =>
      dsimp only
      split
      · next hc =>
        refine leads_pure ?_
        rintro lx ⟨sk, sk', hskip, hread, hbare⟩
        exact ⟨sk', hskip ▸ skipStringLiteral_quote (hc ▸ hread), hbare⟩
      · next hquote =>
        split
        · next hc =>
          subst hc
          refine Leads.pre ?_ fun lx h => h.trails goesOn_backslash
          refine leads_bind (leads_peekIs _) fun named =>
            leads_bind (leads_escape hdigits) fun value => ?_
          split
          · refine leads_bind (Q := fun _ => Trails skipStringLiteral r) ?_ fun units =>
              leads_pure fun _ h => h
            unfold universalBytes
            split
            · exact leads_pure fun _ h => h
            · exact leads_throw fun _ _ => trivial
          · exact leads_pure fun _ h => h
        · next hback => exact leads_pure fun lx h => h.trails (goesOn_string hquote hback)

theorem leads_finish (lexeme : Lexeme) (encoding : Encoding) :
    Leads Anyhow (Meets r) (finish lexeme encoding) fun _ => Meets r := by
  refine leads_finish_of fun lx h => ?_
  rcases h with ⟨sk, hskip, hbare⟩
  refine ⟨sk, hskip, hbare.trans ?_⟩
  show lx.stream.bare = lx.stream.draw.2.bare
  unfold Stream.draw
  split
  · rfl
  · next top below hfiles =>
    simp [Stream.bare, hfiles, Source.nextIndex, Source.uncounted]

theorem leads_stringLiteral (encoding : Encoding) :
    Leads Anyhow (Trails skipStringLiteral r) (stringLiteral encoding) fun _ => Meets r :=
  leads_bind (leads_loop leads_stringRound []) fun _ => leads_finish _ _

/-- Passes over what is left of a character literal, up to the closing quote. -/
def passQuote : LexM Unit :=
  loop (closeRound singleQuote) (progress_closeRound singleQuote) ()

theorem passQuote_quote {sk sk' : Lexer} (h : next? sk = .ok (some singleQuote) sk') :
    passQuote sk = .ok () sk' := by
  have hround : closeRound singleQuote () sk = .ok (.done ()) sk' := by
    rw [closeRound, bind_of_ok h]
    rfl
  rw [passQuote, loop_eq, hround]

theorem goesOn_quote (hquote : c ≠ singleQuote) : GoesOn passQuote c passQuote := by
  intro sk sk' h
  have hround : closeRound singleQuote () sk = .ok (.again ()) sk' := by
    rw [closeRound, bind_of_ok h]
    dsimp only
    rw [if_neg hquote]
    rfl
  rw [passQuote, loop_eq, hround]

theorem leads_literalValue (c : UInt8) :
    Leads Anyhow (Shares skipCharLiteral r c) (literalValue c) fun _ => Trails passQuote r := by
  unfold literalValue
  split
  · next hc =>
    subst hc
    refine (leads_escape fun c hc => goesOn_quote (ne_of_isSome_hexValue? hc rfl)).pre fun lx h =>
      h.trails fun sk sk' hread => ?_
    rw [skipCharLiteral, bind_of_ok hread, if_pos rfl]
    rfl
  · next hc =>
    refine leads_pure fun lx h => h.trails fun sk sk' hread => ?_
    rw [skipCharLiteral, bind_of_ok hread, if_neg (by simpa using hc)]
    rfl

theorem leads_charLiteral (encoding : Encoding) :
    Leads Anyhow (Trails skipCharLiteral r) (charLiteral encoding) fun _ => Meets r := by
  refine leads_bind leads_next? fun c => ?_
  cases c with
  | none => exact leads_unterminated _
  | some c =>
      refine leads_bind (leads_literalValue c) fun value => leads_bind leads_next? fun close => ?_
      by_cases hclose : close = some singleQuote
      · subst hclose
        rw [if_pos rfl]
        refine (leads_finish _ _).pre ?_
        rintro lx ⟨sk, sk', hskip, hread, hbare⟩
        exact ⟨sk', hskip ▸ passQuote_quote hread, hbare⟩
      · rw [if_neg hclose]
        exact leads_unterminated _

theorem exists_ok_of_lexeme {m : LexM Token} {lx : Lexer} {lexeme : Lexeme}
    (h : (m.run' lx).map Token.lexeme = some lexeme) :
    ∃ t lx', m lx = .ok t lx' ∧ t.lexeme = lexeme := by
  delta EStateM.run' EStateM.run at h
  cases hm : m lx with
  | ok t lx' =>
      rw [hm, Option.map_some, Option.some.injEq] at h
      exact ⟨t, lx', rfl, h⟩
  | error f lx' =>
      rw [hm] at h
      cases h

end Closing

/-- Passing over a literal ends where reading it ends. Whenever the literal behind an opening quote
is read to its closing quote, in any state of the lexer, the skipper stops as well, with the same
sources, characters and positions. -/
theorem skipLiteral_bare (lx : Lexer) (encoding : Encoding) :
    (∀ t lx', stringLiteral encoding lx = .ok t lx' →
        ∃ sk, skipStringLiteral lx = .ok () sk ∧ sk.stream.bare = lx'.stream.bare) ∧
      ∀ t lx', charLiteral encoding lx = .ok t lx' →
        ∃ sk, skipCharLiteral lx = .ok () sk ∧ sk.stream.bare = lx'.stream.bare := by
  have trails : ∀ skip : LexM Unit, Closing.Trails skip (skip lx) lx := fun skip =>
    ⟨lx, rfl, Stream.nears_of_bare_eq rfl⟩
  exact ⟨fun t lx' h => (Closing.leads_stringLiteral encoding).ok (trails _) h,
    fun t lx' h => (Closing.leads_charLiteral encoding).ok (trails _) h⟩

/-- A string with escapes goes on behind the end of a file, and a quote stands between quotes. -/
theorem skipLiteral_bare_file_over_memory :
    let string := Lexer.ofStream (Stream.ofSources
      [.ofFile "a.h" (bytes "\\\"\\x4".toList), .ofBytes "b.c" (bytes "1\\u00e9\"z".toList)])
    let char := Lexer.ofStream (Stream.ofSources [.ofBytes "c.c" (bytes "''z".toList)])
    (∃ t lx' sk, stringLiteral .plain string = .ok t lx' ∧
        t.lexeme = .string [doubleQuote, 4, newline, byte '1', 0xC3, 0xA9] ∧
        skipStringLiteral string = .ok () sk ∧ sk.stream.bare = lx'.stream.bare) ∧
      ∃ t lx' sk, charLiteral .plain char = .ok t lx' ∧ t.lexeme = .char 39 ∧
        skipCharLiteral char = .ok () sk ∧ sk.stream.bare = lx'.stream.bare := by
  intro string char
  constructor
  · have hlexeme : ((stringLiteral .plain).run' string).map Token.lexeme =
        some (.string [doubleQuote, 4, newline, byte '1', 0xC3, 0xA9]) := by
      decide +kernel
    rcases Closing.exists_ok_of_lexeme hlexeme with ⟨t, lx', hread, heq⟩
    rcases (skipLiteral_bare string .plain).1 t lx' hread with ⟨sk, hskip, hbare⟩
    exact ⟨t, lx', sk, hread, heq, hskip, hbare⟩
  · have hlexeme : ((charLiteral .plain).run' char).map Token.lexeme = some (.char 39) := by
      decide +kernel
    rcases Closing.exists_ok_of_lexeme hlexeme with ⟨t, lx', hread, heq⟩
    rcases (skipLiteral_bare char .plain).2 t lx' hread with ⟨sk, hskip, hbare⟩
    exact ⟨t, lx', sk, hread, heq, hskip, hbare⟩

end CLex
