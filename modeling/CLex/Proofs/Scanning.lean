import CLex.Proofs.Footing.Basic
import CLex.Proofs.Splicing

/-!
What the operations of a lexer read of a known text. An operation that finds what it looks for
succeeds and leaves the text behind it to be read. An `Outlook` says when a lexer has a given text
before it; what else is kept of the lexer is up to it.
-/

namespace CLex

open Character LexM

/-- When a lexer has a text before it, and what reading and putting back make of that text. -/
structure Outlook (σ : Type) [CharStream σ] where
  faces : List UInt8 → Lexer σ → Prop
  /-- The texts that can lie before a lexer. -/
  sound : List UInt8 → Prop
  sound_of_faces {text : List UInt8} {lx : Lexer σ} (h : faces text lx) : sound text
  pending {text : List UInt8} {lx : Lexer σ} (h : faces text lx) : lx.pending = [[]]
  next_ok {c : UInt8} {rest : List UInt8} {lx : Lexer σ} (h : faces (c :: rest) lx) :
    ∃ lx', Lexer.next? lx = .ok (some c) lx' ∧ faces rest lx'
  next_end {lx : Lexer σ} (h : faces [] lx) : ∃ lx', Lexer.next? lx = .ok none lx' ∧ faces [] lx'
  unread_ok {c : UInt8} {rest : List UInt8} {lx : Lexer σ} (hsound : sound (c :: rest))
    (h : faces rest lx) : ∃ lx', Lexer.unread c lx = .ok () lx' ∧ faces (c :: rest) lx'
  setMark_ok {text : List UInt8} {lx : Lexer σ} (h : faces text lx) :
    ∃ lx', Lexer.setMark lx = .ok () lx' ∧ faces text lx'
  needSource_ok {text : List UInt8} {lx : Lexer σ} (h : faces text lx) :
    Lexer.needSource lx = .ok () lx
  finish_ok {text : List UInt8} {lx : Lexer σ} (h : faces text lx) (lexeme : Lexeme)
    (encoding : Encoding) :
    ∃ t lx', Lexer.finish lexeme encoding lx = .ok t lx' ∧
      t.gist = (lexeme, encoding, false) ∧ faces text lx'

namespace Outlook

open Lexer

variable {σ α β κ ρ : Type} [CharStream σ] {O : Outlook σ} {text mid rest : List UInt8}

/-- From `text` the operation succeeds with a result in `P` and leaves `rest`. -/
def Reads (O : Outlook σ) (text : List UInt8) (m : LexOn σ α) (P : α → Prop)
    (rest : List UInt8) : Prop :=
  Leads (fun _ _ => False) (O.faces text) m fun a lx => P a ∧ O.faces rest lx

theorem reads_of_ok {m : LexOn σ α} {P : α → Prop}
    (h : ∀ lx, O.faces text lx → ∃ a lx', m lx = .ok a lx' ∧ P a ∧ O.faces rest lx') :
    O.Reads text m P rest :=
  leads_of_ok h

theorem Reads.exists_ok {m : LexOn σ α} {P : α → Prop} (h : O.Reads text m P rest) {lx : Lexer σ}
    (hlx : O.faces text lx) : ∃ a lx', m lx = .ok a lx' ∧ P a ∧ O.faces rest lx' := by
  have hrun := h lx hlx
  cases hm : m lx with
  | error f lx' =>
      rw [hm] at hrun
      exact hrun.elim
  | ok a lx' =>
      rw [hm] at hrun
      exact ⟨a, lx', rfl, hrun⟩

theorem reads_of_sound {m : LexOn σ α} {P : α → Prop}
    (h : O.sound text → O.Reads text m P rest) : O.Reads text m P rest :=
  fun lx hlx => h (O.sound_of_faces hlx) lx hlx

theorem reads_pure {a : α} {P : α → Prop} (h : P a) : O.Reads text (pure a) P text :=
  leads_pure fun _ hlx => ⟨h, hlx⟩

theorem Reads.leads_bind {m : LexOn σ α} {f : α → LexOn σ β} {P : α → Prop}
    {E : Failure → Lexer σ → Prop} {Q : β → Lexer σ → Prop} (hm : O.Reads text m P mid)
    (hf : ∀ a, P a → Leads E (O.faces mid) (f a) Q) : Leads E (O.faces text) (m >>= f) Q := by
  intro lx hlx
  rcases hm.exists_ok hlx with ⟨a, lx', hrun, ha, hmid⟩
  rw [bind_of_ok hrun]
  exact hf a ha lx' hmid

theorem Reads.leads_bind_eq {m : LexOn σ α} {f : α → LexOn σ β} {a : α}
    {E : Failure → Lexer σ → Prop} {Q : β → Lexer σ → Prop} (hm : O.Reads text m (· = a) mid)
    (hf : Leads E (O.faces mid) (f a) Q) : Leads E (O.faces text) (m >>= f) Q :=
  hm.leads_bind fun _ hb => hb ▸ hf

theorem Reads.bind {m : LexOn σ α} {f : α → LexOn σ β} {P : α → Prop} {Q : β → Prop}
    (hm : O.Reads text m P mid) (hf : ∀ a, P a → O.Reads mid (f a) Q rest) :
    O.Reads text (m >>= f) Q rest :=
  hm.leads_bind hf

theorem Reads.bind_eq {m : LexOn σ α} {f : α → LexOn σ β} {a : α} {Q : β → Prop}
    (hm : O.Reads text m (· = a) mid) (hf : O.Reads mid (f a) Q rest) :
    O.Reads text (m >>= f) Q rest :=
  hm.leads_bind_eq hf

theorem Reads.mono {m : LexOn σ α} {P Q : α → Prop} (h : O.Reads text m P rest)
    (hPQ : ∀ a, P a → Q a) : O.Reads text m Q rest :=
  h.post fun a _ ha => ⟨hPQ a ha.1, ha.2⟩

theorem Reads.map {m : LexOn σ α} {f : α → β} {P : α → Prop} {Q : β → Prop}
    (hm : O.Reads text m P rest) (hf : ∀ a, P a → Q (f a)) :
    O.Reads text (m >>= fun a => pure (f a)) Q rest :=
  hm.bind fun a ha => reads_pure (hf a ha)

variable {step : κ → LexOn σ (Round κ ρ)} {progress : Progress step}

theorem reads_loop_done {a : κ} {x : ρ} (h : O.Reads text (step a) (· = .done x) rest) :
    O.Reads text (loop step progress a) (· = x) rest := by
  intro lx hlx
  rcases h.exists_ok hlx with ⟨_, lx', hs, rfl, hrest⟩
  rw [loop_eq, hs]
  exact ⟨rfl, hrest⟩

theorem leads_loop_again {a b : κ} {E : Failure → Lexer σ → Prop} {Q : ρ → Lexer σ → Prop}
    (h : O.Reads text (step a) (· = .again b) mid)
    (hloop : Leads E (O.faces mid) (loop step progress b) Q) :
    Leads E (O.faces text) (loop step progress a) Q := by
  intro lx hlx
  rcases h.exists_ok hlx with ⟨_, lx', hs, rfl, hmid⟩
  rw [loop_eq, hs]
  exact hloop lx' hmid

theorem reads_loop_again {a b : κ} {P : ρ → Prop}
    (h : O.Reads text (step a) (· = .again b) mid)
    (hloop : O.Reads mid (loop step progress b) P rest) :
    O.Reads text (loop step progress a) P rest :=
  leads_loop_again h hloop

/-- From `text` the operation fails for this cause. -/
def Fails (O : Outlook σ) (text : List UInt8) (m : LexOn σ α) (cause : Cause) : Prop :=
  Leads (fun f _ => ∃ location, f = .located cause location) (O.faces text) m fun _ _ => False

variable {cause : Cause}

theorem Fails.exists_error {m : LexOn σ α} (h : O.Fails text m cause) {lx : Lexer σ}
    (hlx : O.faces text lx) : ∃ location lx', m lx = .error (.located cause location) lx' := by
  have hrun := h lx hlx
  cases hm : m lx with
  | ok a lx' =>
      rw [hm] at hrun
      exact hrun.elim
  | error f lx' =>
      rw [hm] at hrun
      rcases hrun with ⟨location, rfl⟩
      exact ⟨location, lx', rfl⟩

theorem fails_throw (location : Location) :
    O.Fails text (throw (.located cause location) : LexOn σ α) cause :=
  leads_throw fun _ _ => ⟨location, rfl⟩

theorem fails_throw_marked :
    O.Fails text (do throw (.located cause (← marked)) : LexOn σ α) cause :=
  leads_bind leads_marked fun location => fails_throw location

theorem Fails.bind {m : LexOn σ α} {f : α → LexOn σ β} (h : O.Fails text m cause) :
    O.Fails text (m >>= f) cause :=
  leads_bind h fun _ _ hlx => hlx.elim

theorem Reads.bind_fails {m : LexOn σ α} {f : α → LexOn σ β} {P : α → Prop}
    (hm : O.Reads text m P mid) (hf : ∀ a, P a → O.Fails mid (f a) cause) :
    O.Fails text (m >>= f) cause :=
  hm.leads_bind hf

theorem Reads.bind_fails_eq {m : LexOn σ α} {f : α → LexOn σ β} {a : α}
    (hm : O.Reads text m (· = a) mid) (hf : O.Fails mid (f a) cause) :
    O.Fails text (m >>= f) cause :=
  hm.leads_bind_eq hf

theorem fails_loop {a : κ} (h : O.Fails text (step a) cause) :
    O.Fails text (loop step progress a) cause := by
  intro lx hlx
  rcases h.exists_error hlx with ⟨location, lx', hs⟩
  rw [loop_eq, hs]
  exact ⟨location, rfl⟩

theorem reads_next {c : UInt8} : O.Reads (c :: rest) next? (· = some c) rest := by
  refine reads_of_ok fun lx hlx => ?_
  rcases O.next_ok hlx with ⟨lx', hnext, hrest⟩
  exact ⟨_, lx', hnext, rfl, hrest⟩

theorem reads_next_end : O.Reads [] next? (· = none) [] := by
  refine reads_of_ok fun lx hlx => ?_
  rcases O.next_end hlx with ⟨lx', hnext, hrest⟩
  exact ⟨_, lx', hnext, rfl, hrest⟩

theorem reads_unread {c : UInt8} (h : O.sound (c :: rest)) :
    O.Reads rest (unread c) (fun _ => True) (c :: rest) := by
  refine reads_of_ok fun lx hlx => ?_
  rcases O.unread_ok h hlx with ⟨lx', hunread, hrest⟩
  exact ⟨_, lx', hunread, trivial, hrest⟩

theorem reads_takeIf {c : UInt8} {p : UInt8 → Bool} (hp : p c = true) :
    O.Reads (c :: rest) (takeIf p) (· = some c) rest := by
  refine reads_next.bind_eq ?_
  dsimp only
  rw [if_pos hp]
  exact reads_pure rfl

theorem reads_takeIf_other {p : UInt8 → Bool} (hp : rest.head?.any p = false) :
    O.Reads rest (takeIf p) (· = none) rest := by
  refine reads_of_sound fun hsound => ?_
  cases rest with
  | nil => exact reads_next_end.bind_eq (reads_pure rfl)
  | cons c rest =>
      refine reads_next.bind_eq ?_
      dsimp only
      rw [if_neg (by simpa using hp)]
      exact (reads_unread hsound).bind fun _ _ => reads_pure rfl

theorem reads_skipIf {c : UInt8} : O.Reads (c :: rest) (skipIf c) (· = true) rest :=
  (reads_takeIf (by simp)).bind_eq (reads_pure rfl)

theorem reads_skipIf_other {c : UInt8} (hc : rest.head? ≠ some c) :
    O.Reads rest (skipIf c) (· = false) rest := by
  refine (reads_takeIf_other ?_).bind_eq (reads_pure rfl)
  cases rest with
  | nil => rfl
  | cons d rest => simpa using hc

theorem reads_peekIs (p : UInt8 → Bool) :
    O.Reads rest (peekIs p) (· = rest.head?.any p) rest := by
  refine reads_of_sound fun hsound => ?_
  cases rest with
  | nil => exact reads_next_end.bind_eq (reads_pure rfl)
  | cons c rest =>
      exact reads_next.bind_eq ((reads_unread hsound).bind fun _ _ => reads_pure rfl)

theorem reads_here (back : Int) : O.Reads text (here back) (fun _ => True) text :=
  (leads_here back).post fun _ _ hlx => ⟨trivial, hlx⟩

theorem reads_isAtLineStart : O.Reads text isAtLineStart (fun _ => True) text :=
  fun _ hlx => ⟨trivial, hlx⟩

theorem reads_setMark : O.Reads text setMark (fun _ => True) text := by
  refine reads_of_ok fun lx hlx => ?_
  rcases O.setMark_ok hlx with ⟨lx', hmark, hrest⟩
  exact ⟨_, lx', hmark, trivial, hrest⟩

theorem reads_needSource : O.Reads text needSource (fun _ => True) text :=
  reads_of_ok fun lx hlx => ⟨(), lx, O.needSource_ok hlx, trivial, hlx⟩

theorem reads_finish (lexeme : Lexeme) (encoding : Encoding) :
    O.Reads text (finish lexeme encoding) (fun t => t.gist = (lexeme, encoding, false)) text :=
  reads_of_ok fun _ hlx => O.finish_ok hlx lexeme encoding

/-- Neither a blank nor a comment begins here. -/
def Unblank : List UInt8 → Prop
  | [] => True
  | c :: rest =>
      isBlank c.toNat = false ∧
        (c = byte '/' → rest.head? ≠ some (byte '*') ∧ rest.head? ≠ some (byte '/'))

theorem reads_skipBlank_none (h : Unblank text) : O.Reads text skipBlank (· = false) text := by
  refine reads_of_sound fun hsound => ?_
  cases text with
  | nil => exact reads_next_end.bind_eq (reads_pure rfl)
  | cons c rest =>
      refine reads_next.bind_eq ?_
      dsimp only
      rw [if_neg (by simp [h.1])]
      split
      · next hc =>
        refine (reads_skipIf_other (h.2 hc).1).bind_eq ?_
        rw [if_neg (by simp)]
        refine (reads_skipIf_other (h.2 hc).2).bind_eq ?_
        rw [if_neg (by simp)]
        exact (reads_unread hsound).bind fun _ _ => reads_pure rfl
      · exact (reads_unread hsound).bind fun _ _ => reads_pure rfl

theorem reads_skipBlanks {blanks : List UInt8} (hblanks : ∀ b ∈ blanks, isBlank b.toNat = true)
    (h : Unblank text) : O.Reads (blanks ++ text) skipBlanks (· = !blanks.isEmpty) text := by
  have loops : ∀ skipped, O.Reads (blanks ++ text) (loop blankRound progress_blankRound skipped)
      (· = (skipped || !blanks.isEmpty)) text := by
    induction blanks with
    | nil =>
        intro skipped
        rw [List.isEmpty_nil, Bool.not_true, Bool.or_false]
        exact reads_loop_done ((reads_skipBlank_none h).bind_eq (reads_pure rfl))
    | cons b blanks ih =>
        intro skipped
        rw [List.forall_mem_cons] at hblanks
        have hblank : O.Reads (b :: (blanks ++ text)) skipBlank (· = true) (blanks ++ text) := by
          refine reads_next.bind_eq ?_
          dsimp only
          rw [if_pos hblanks.1]
          exact reads_pure rfl
        refine reads_loop_again (hblank.bind_eq (reads_pure rfl)) ((ih hblanks.2 true).mono ?_)
        rintro _ rfl
        simp
  exact loops false

theorem reads_skipBlanks_none (h : Unblank text) : O.Reads text skipBlanks (· = false) text :=
  reads_skipBlanks (fun _ hb => absurd hb List.not_mem_nil) h

/-- A space, if there is to be one. -/
def spaceIf (spaced : Bool) : List UInt8 :=
  if spaced then [byte ' '] else []

theorem leads_token {c : UInt8} {E : Failure → Lexer σ → Prop} {Q : Token → Lexer σ → Prop}
    (h : Leads E (O.faces text) (tokenFrom c) Q) : Leads E (O.faces (c :: text)) token Q :=
  reads_setMark.leads_bind fun _ _ => reads_next.leads_bind_eq h

theorem reads_token {c : UInt8} {P : Token → Prop} (h : O.Reads text (tokenFrom c) P rest) :
    O.Reads (c :: text) token P rest :=
  leads_token h

theorem reads_token_newline :
    O.Reads (newline :: rest) token (fun t => t.gist = (.newline, .plain, false)) rest := by
  refine reads_token ?_
  rw [tokenFrom, if_pos rfl]
  exact reads_finish _ _

theorem reads_token_end :
    O.Reads [] token (fun t => t.gist = (.eof, .plain, false)) [] :=
  reads_setMark.bind fun _ _ => reads_next_end.bind_eq (reads_finish _ _)

theorem fails_freshToken (hblank : Unblank text) (h : O.Fails text token cause) :
    O.Fails text freshToken cause :=
  reads_needSource.bind_fails fun _ _ => reads_isAtLineStart.bind_fails fun _ _ =>
    (reads_skipBlanks_none hblank).bind_fails_eq h.bind

theorem reads_freshToken {lexeme : Lexeme} {encoding : Encoding} (spaced : Bool)
    (hblank : Unblank text)
    (h : O.Reads text token (fun t => t.gist = (lexeme, encoding, false)) rest) :
    O.Reads (spaceIf spaced ++ text) freshToken (fun t => t.gist = (lexeme, encoding, spaced))
      rest := by
  have hblanks : O.Reads (spaceIf spaced ++ text) skipBlanks (· = spaced) text := by
    cases spaced with
    | false => exact reads_skipBlanks_none hblank
    | true => exact reads_skipBlanks (List.forall_mem_singleton.mpr (by decide)) hblank
  refine reads_needSource.bind fun _ _ => reads_isAtLineStart.bind fun startsLine _ => ?_
  refine hblanks.bind_eq (h.map fun t ht => ?_)
  simp only [Token.gist, Prod.mk.injEq] at ht ⊢
  exact ⟨ht.1, ht.2.1, trivial⟩

/-- From `text` the lexer lists tokens that say this, up to the end and without a failure. -/
def Lists (O : Outlook σ) (text : List UInt8) (gists : List Gist) : Prop :=
  ∀ lx, O.faces text lx →
    lx.listing.failure = none ∧ lx.listing.gists = gists ∧ O.faces [] lx.listing.lexer

theorem lists_end : O.Lists [] [(.eof, .plain, false)] := by
  intro lx hlx
  rcases (reads_freshToken false (by exact trivial) reads_token_end).exists_ok hlx with
    ⟨t, lx', hread, hgist, hend⟩
  rw [← nextToken_fresh (O.pending hlx)] at hread
  have hlexeme : t.isEnd = true := by
    rw [Token.gist, Prod.mk.injEq] at hgist
    simp [Token.isEnd, hgist.1]
  rw [listing_of_end hread hlexeme]
  exact ⟨rfl, by rw [Listing.gists, List.map_singleton, hgist], hend⟩

theorem Lists.cons {gists : List Gist} (hrest : O.Lists mid gists) {lx lx' : Lexer σ} {t : Token}
    (hpending : lx.pending = [[]]) (hread : freshToken lx = .ok t lx') (hmid : O.faces mid lx')
    (hend : t.gist.1 ≠ .eof) :
    lx.listing.failure = none ∧ lx.listing.gists = t.gist :: gists ∧
      O.faces [] lx.listing.lexer := by
  have hlexeme : t.isEnd = false := by
    simpa [Token.isEnd] using (show t.lexeme ≠ .eof from hend)
  rcases hrest lx' hmid with ⟨hfailure, hgists, hlast⟩
  rw [← nextToken_fresh hpending] at hread
  rw [listing_of_more hread hlexeme]
  exact ⟨hfailure, by rw [Listing.cons, ← hgists]; rfl, hlast⟩

theorem lists_cons {g : Gist} {gists : List Gist} (hg : g.1 ≠ .eof)
    (h : O.Reads text freshToken (fun t => t.gist = g) mid) (hrest : O.Lists mid gists) :
    O.Lists text (g :: gists) := by
  intro lx hlx
  rcases h.exists_ok hlx with ⟨t, lx', hread, rfl, hmid⟩
  exact hrest.cons (O.pending hlx) hread hmid hg

theorem Fails.listing (h : O.Fails text freshToken cause) {lx : Lexer σ} (hlx : O.faces text lx) :
    lx.listing.tokens = [] ∧ ∃ location, lx.listing.failure = some (.located cause location) := by
  rcases h.exists_error hlx with ⟨location, lx', hread⟩
  rw [← nextToken_fresh (O.pending hlx)] at hread
  rw [listing_of_error hread]
  exact ⟨rfl, location, rfl⟩

theorem lists_newline : O.Lists [newline] [(.newline, .plain, false), (.eof, .plain, false)] :=
  lists_cons (by simp)
    (reads_freshToken false ⟨by decide, fun h => absurd h (by decide)⟩ reads_token_newline) lists_end

end Outlook

namespace Lexer

open Lines

theorem failure_eq_none_iff {σ : Type} [CharStream σ] {lx : Lexer σ} :
    lx.listing.failure = none ↔ ∃ t ∈ lx.listing.tokens, t.lexeme = .eof := by
  induction lx using listing_induction with
  | error lx f lx' hnext => simp [listing_of_error hnext]
  | last lx t lx' hnext hend => simpa [listing_of_end hnext hend, Token.isEnd] using hend
  | more lx t lx' hnext hend ih =>
      have hne : t.lexeme ≠ .eof := by simpa [Token.isEnd] using hend
      simpa [listing_of_more hnext hend, Listing.cons, hne] using ih

theorem failure_of_gists {σ τ : Type} [CharStream σ] [CharStream τ] {s : Lexer σ} {t : Lexer τ}
    (h : s.listing.gists = t.listing.gists) (hs : s.listing.failure = none) :
    t.listing.failure = none := by
  rw [failure_eq_none_iff] at hs ⊢
  rcases hs with ⟨a, ha, hend⟩
  have hmem : a.gist ∈ t.listing.gists := h ▸ List.mem_map_of_mem ha
  rcases List.mem_map.mp hmem with ⟨b, hb, hgist⟩
  exact ⟨b, hb, (congrArg Prod.fst hgist).trans hend⟩

/-- A lexer of a book without pages. -/
def idle (options : Options) : Lexer Book :=
  ofStream { pages := [] } options

end Lexer

open Lexer Lines

/-- The outlook of a lexer that has given no warning: it has changed in nothing but its page and its
mark. -/
def Outlook.quiet (options : Options) : Outlook Book where
  faces text lx := ∃ p mark, lx = ({ idle options with mark } : Lexer Book).withPages [p] ∧
    p.rest = text ∧ Unjoined text
  sound := Unjoined
  sound_of_faces := by
    rintro text lx ⟨_, _, -, -, h⟩
    exact h
  pending := by
    rintro text lx ⟨p, mark, rfl, -⟩
    rfl
  next_ok := by
    rintro c rest lx ⟨p, mark, rfl, hp, h⟩
    exact ⟨_, next?_settled rfl (fun _ => hp.symm ▸ h) hp, _, mark, rfl, Page.rest_advance _ _,
      h.tail⟩
  next_end := by
    rintro lx ⟨p, mark, rfl, hp, h⟩
    exact ⟨_, next?_end rfl hp, p, mark, rfl, hp, h⟩
  unread_ok := by
    rintro c rest lx hsound ⟨p, mark, rfl, rfl, -⟩
    exact ⟨_, unread_pages rfl c, _, mark, rfl, Page.rest_putBack p c, hsound⟩
  setMark_ok := by
    rintro text lx ⟨p, mark, rfl, hp, h⟩
    exact ⟨_, setMark_pages rfl, p, (p.line, p.column), rfl, hp, h⟩
  needSource_ok := by
    rintro text lx ⟨p, mark, rfl, -⟩
    exact needSource_pages rfl
  finish_ok := by
    rintro text lx ⟨p, mark, rfl, hp, h⟩ lexeme encoding
    exact ⟨_, _, finish_pages rfl lexeme encoding, rfl, _, mark, rfl, hp, h⟩

theorem Stream.not_warning_of_warningsOf {events : List Event}
    (h : Stream.warningsOf events = []) : ∀ e ∈ events, e.isWarning = false := by
  intro e he
  cases e with
  | warning shown => exact absurd (List.filterMap_eq_nil_iff.mp h _ he) (by simp)
  | _ => rfl

theorem listing_of_page (name : String) (bytes : List UInt8) (options : Options) :
    let read := (Lexer.ofStream (Stream.ofSources [.ofBytes name bytes]) options).listing
    ((idle options).withPages [{ name, rest := canon bytes }]).listing =
      ⟨read.tokens, read.failure, read.lexer.book⟩ := by
  intro read
  have hfresh := Source.isFresh_ofBytes name bytes
  have hroom : (Stream.ofSources [.ofBytes name bytes]).HasRoom 0 := by
    apply (Stream.hasRoom_of_fresh (by simp [Stream.ofSources]) ?_).mono (Nat.zero_le 3)
    exact fun source hsource => List.mem_singleton.mp hsource ▸ hfresh
  let lx := Lexer.ofStream (Stream.ofSources [.ofBytes name bytes]) options
  have hbook := Stack.listing_book lx hroom
  have hpages := Stream.pages_single (s := .ofSources [.ofBytes name bytes]) rfl hfresh
  have hself : lx.book.withPages [{ name, rest := canon bytes }] = lx.book :=
    withPages_self hpages
  rw [← hbook]
  exact congrArg Lexer.listing hself

/-- A source is listed as its characters are. If these only lead to what `Lists` says, no warning is
given. -/
theorem listing_of_lists {bytes : List UInt8} (name : String) (options : Options)
    {gists : List Gist} (hunjoined : Unjoined (canon bytes))
    (h : (Outlook.quiet options).Lists (canon bytes) gists) :
    let read := (Lexer.ofStream (Stream.ofSources [.ofBytes name bytes]) options).listing
    read.failure = none ∧ read.gists = gists ∧
      read.lexer.collector = .empty options.maxWarnings ∧
      ∀ e ∈ read.lexer.stream.journal.events, e.isWarning = false := by
  intro read
  let page : Page := { name, rest := canon bytes }
  rcases h ((idle options).withPages [page]) ⟨page, (1, 1), rfl, rfl, hunjoined⟩ with
    ⟨hfailure, hgists, p, mark, hlexer, -⟩
  rw [listing_of_page name bytes options] at hfailure hgists hlexer
  refine ⟨hfailure, hgists, congrArg (fun lx => lx.collector) hlexer, fun e he => ?_⟩
  have hnotes : Stream.warningsOf read.lexer.stream.journal.entries = [] :=
    congrArg (fun lx => lx.stream.notes) hlexer
  exact Stream.not_warning_of_warningsOf hnotes e (List.mem_reverse.mp he)

/-- A text that is a line of its own, without the newline at its end, and that begins with a
token. -/
structure OneLine (text : List UInt8) : Prop where
  newline_notMem : newline ∉ text
  return_notMem : carriageReturn ∉ text
  ends : text.getLast? ≠ some backslash
  unblank : Outlook.Unblank (text ++ [newline])

section OneLine

open Outlook

variable {text : List UInt8} (name : String) (options : Options)

theorem OneLine.canon_eq (h : OneLine text) : canon text = text ++ [newline] :=
  canon_open h.return_notMem fun hlast => h.newline_notMem (List.mem_of_getLast? hlast)

theorem OneLine.unjoined (h : OneLine text) : Unjoined (canon text) := by
  rw [h.canon_eq]
  exact unjoined_line h.newline_notMem h.ends

theorem listing_of_token (hline : OneLine text) {lexeme : Lexeme} {encoding : Encoding}
    (hlexeme : lexeme ≠ .eof)
    (h : (Outlook.quiet options).Reads (text ++ [newline]) token
      (fun t => t.gist = (lexeme, encoding, false)) [newline]) :
    let read := (Lexer.ofStream (Stream.ofSources [.ofBytes name text]) options).listing
    read.failure = none ∧
      read.gists =
        [(lexeme, encoding, false), (.newline, .plain, false), (.eof, .plain, false)] ∧
      read.lexer.collector = .empty options.maxWarnings ∧
      ∀ e ∈ read.lexer.stream.journal.events, e.isWarning = false := by
  refine listing_of_lists name options hline.unjoined ?_
  rw [hline.canon_eq]
  exact lists_cons hlexeme (reads_freshToken false hline.unblank h) lists_newline

theorem listing_of_fails (hline : OneLine text) {cause : Cause}
    (h : (Outlook.quiet options).Fails (text ++ [newline]) token cause) :
    let read := (Lexer.ofStream (Stream.ofSources [.ofBytes name text]) options).listing
    read.tokens = [] ∧ ∃ location, read.failure = some (.located cause location) := by
  intro read
  have hfaces : (Outlook.quiet options).faces (text ++ [newline])
      ((idle options).withPages [{ name, rest := canon text }]) :=
    ⟨_, (1, 1), rfl, hline.canon_eq, hline.canon_eq ▸ hline.unjoined⟩
  have hlisting := (fails_freshToken hline.unblank h).listing hfaces
  rwa [listing_of_page name text options] at hlisting

end OneLine

end CLex
