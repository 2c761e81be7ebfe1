import CLex.Proofs.LineStart
import CLex.Proofs.Respelling
import CLex.Proofs.Stopping.Token
import CLex.Rendering

namespace CLex

open Character Lexer Lines Outlook

namespace Rendering

/-- A newline, if there is to be one. -/
def breakIf (broken : Bool) : List UInt8 :=
  if broken then [newline] else []

/-- What is written for a token, after something has been written or not. -/
def shown (started : Bool) (t : Token) : List UInt8 :=
  breakIf (t.startsLine && started) ++ (spaceIf t.spaced ++ Utf8.encode t.spelling)

/-- What is written for tokens, after something has been written or not. -/
def written (started : Bool) : List Token → List UInt8
  | [] => []
  | t :: rest =>
      if t.lexeme = .eof then newline :: written started rest
      else if t.lexeme = .newline then written started rest
      else shown started t ++ written true rest

theorem addSource_shown {r : Rendering} {t : Token} (hend : t.lexeme ≠ .eof)
    (hline : t.lexeme ≠ .newline) :
    Utf8.encode (r.addSource t).text = Utf8.encode r.text ++ shown (r.count != 0) t ∧
      (r.addSource t).count = r.count + 1 := by
  have hbreak : Utf8.encode (if t.startsLine = true ∧ r.count ≠ 0 then "\n" else "") =
      breakIf (t.startsLine && r.count != 0) := by
    by_cases h : t.startsLine = true ∧ r.count ≠ 0
    · rw [if_pos h, show (t.startsLine && r.count != 0) = true by simpa using h]
      decide +kernel
    · rw [if_neg h, show (t.startsLine && r.count != 0) = false by simpa using h]
      decide +kernel
  have hspace : Utf8.encode (if t.spaced = true then " " else "") = spaceIf t.spaced := by
    cases t.spaced with
    | false => decide +kernel
    | true => decide +kernel
  have hadd : r.addSource t =
      { text := r.text ++ (if t.startsLine ∧ r.count ≠ 0 then "\n" else "") ++
          (if t.spaced then " " else "") ++ t.spelling
        count := r.count + 1 } := by
    unfold addSource
    split
    · next h => exact absurd h hend
    · next h => exact absurd h hline
    · rfl
  rw [hadd, Utf8.encode_append, Utf8.encode_append, Utf8.encode_append, hbreak, hspace, shown]
  simp

theorem encode_foldl (tokens : List Token) (r : Rendering) :
    Utf8.encode (tokens.foldl addSource r).text =
      Utf8.encode r.text ++ written (r.count != 0) tokens := by
  induction tokens generalizing r with
  | nil => simp [written]
  | cons t rest ih =>
      rw [List.foldl_cons, ih, written]
      by_cases hend : t.lexeme = .eof
      · have hadd : r.addSource t = { r with text := r.text ++ "\n" } := by
          rw [addSource, hend]
        rw [hadd, Utf8.encode_append, show Utf8.encode "\n" = [newline] by decide +kernel,
          if_pos hend, List.append_assoc]
        rfl
      · by_cases hline : t.lexeme = .newline
        · rw [if_neg hend, if_pos hline, addSource, hline]
        · rcases addSource_shown hend hline with ⟨htext, hcount⟩
          rw [if_neg hend, if_neg hline, htext, hcount, List.append_assoc]
          rfl

theorem encode_source (tokens : List Token) :
    Utf8.encode (source tokens).text = written false tokens :=
  encode_foldl tokens {}

end Rendering

namespace Token

/-- The token `u` may be written behind `t`: no hash comes directly behind a hash, and a backslash
that is no token does not end its line. -/
def Apart (t u : Token) : Prop :=
  (t.lexeme = .punctuator .hash →
      u.lexeme = .punctuator .hash ∨ u.lexeme = .punctuator .hashHash →
        u.spaced = true ∨ u.startsLine = true) ∧
    (t.lexeme = .invalid "\\" →
      u.lexeme ≠ .newline ∧ u.lexeme ≠ .eof ∧ u.startsLine = false)

instance (t u : Token) : Decidable (Apart t u) :=
  inferInstanceAs (Decidable (_ ∧ _))

/-- The first token of a line is marked as such. -/
def Marked (t u : Token) : Prop :=
  t.lexeme = .newline → u.lexeme ≠ .newline → u.lexeme ≠ .eof → u.startsLine = true

end Token

/-- Each of the tokens is what its spelling says, and each may be written behind the one before. -/
def Writable (tokens : List Token) : Prop :=
  (∀ t ∈ tokens, t.lexeme.Spellable) ∧ tokens.IsChain Token.Apart

instance (tokens : List Token) : Decidable (Writable tokens) :=
  inferInstanceAs (Decidable (_ ∧ _))

/-- What tokens say, the newlines left out. -/
def withoutNewlines (gists : List Gist) : List Gist :=
  gists.filter fun g => g.1 != .newline

namespace Reprinting

open Position Rendering

theorem chain_marked {lx lx' : Lexer Book} {text : List UInt8} {mark : Int × Int}
    {last : Option (Option Token)} (h : On mark (Between text last) lx) (hlast : last ≠ some none)
    {t : Token} (ht : nextToken lx = .ok t lx') {tokens : List Token}
    (htokens : (t :: tokens).IsChain Token.Marked) :
    (last.join.toList ++ t :: tokens).IsChain Token.Marked := by
  match last, h, hlast with
  | none, _, _ => exact htokens
  | some none, _, hlast => exact absurd rfl hlast
  | some (some u), h, hlast =>
      refine List.isChain_cons_cons.mpr ⟨?_, htokens⟩
      intro hline htline htend
      refine (nextToken_marked h hlast ht htline htend).1 ?_
      rintro v hv
      cases hv
      exact hline

theorem marked_listing {lx : Lexer Book} {text : List UInt8} {mark : Int × Int}
    {last : Option (Option Token)} (h : On mark (Between text last) lx) (hlast : last ≠ some none) :
    (last.join.toList ++ lx.listing.tokens).IsChain Token.Marked := by
  induction lx using listing_induction generalizing mark last with
  | error lx f lx' ht =>
      rw [listing_of_error ht, List.append_nil]
      cases last.join with
      | none => exact List.isChain_nil
      | some u => exact List.isChain_singleton u
  | last lx t lx' ht hend =>
      rw [listing_of_end ht hend]
      exact chain_marked h hlast ht (List.isChain_singleton t)
  | more lx t lx' ht hend ih =>
      rcases between_ok h ht with ⟨mark', hon⟩
      rw [listing_of_more ht hend]
      exact chain_marked h hlast ht (ih hon (by simp))

theorem marked_tokens {stream : Stream} {source : Source} (hfiles : stream.files = [source])
    (hfresh : source.IsFresh) (options : Options) :
    (Lexer.ofStream stream options).listing.tokens.IsChain Token.Marked := by
  rcases between_nextTokens hfiles hfresh options 0 with ⟨hroom, mark, hon⟩
  have hbook := Stack.listing_book (Lexer.ofStream stream options) hroom
  have hchain := marked_listing hon (by simp [nextTokens])
  rw [show (Lexer.ofStream stream options).listing.tokens =
    (Lexer.ofStream stream options).book.listing.tokens from
    congrArg (fun l => l.tokens) hbook.symm]
  exact hchain

variable {text mid : List UInt8} {t u : Token} {rest tokens : List Token} {started : Bool}

/-- Tokens of a text that may be written out. -/
structure Passage (text : List UInt8) (tokens : List Token) : Prop where
  parsed : Parsed text (tokens.map Token.gist)
  marked : tokens.IsChain Token.Marked
  writable : Writable tokens

theorem Passage.ne_nil (h : Passage text tokens) : tokens ≠ [] := by
  rintro rfl
  cases h.parsed

theorem Passage.behind (h : Passage text (t :: rest)) {left : List UInt8}
    (hleft : Parsed left (rest.map Token.gist)) : Passage left rest where
  parsed := hleft
  marked := (List.isChain_cons.mp h.marked).2
  writable := ⟨fun u hu => h.writable.1 u (List.mem_cons_of_mem t hu),
    (List.isChain_cons.mp h.writable.2).2⟩

/-- The first token is the end, a newline, or cut from the text. -/
inductive Passage.First (text : List UInt8) (t : Token) (rest : List Token) : Prop where
  | done (hend : t.lexeme = .eof) (hplain : t.encoding = .plain) (hrest : rest = [])
  | newline (hline : t.lexeme = .newline) {left : List UInt8} (more : Passage left rest)
  | token {c : UInt8} {mid left : List UInt8} (begun : t.spaced = false → text = c :: mid)
      (cut : Cut c mid left t) (more : Passage left rest)

theorem Passage.first (h : Passage text (t :: rest)) : Passage.First text t rest := by
  have hparsed := h.parsed
  rw [List.map_cons] at hparsed
  generalize hgist : t.gist = g at hparsed
  generalize hgists : rest.map Token.gist = gists at hparsed
  cases hparsed with
  | done spaced =>
      rw [Token.gist, Prod.mk.injEq, Prod.mk.injEq] at hgist
      exact .done hgist.1 hgist.2.1 (List.map_eq_nil_iff.mp hgists)
  | newline spaced more =>
      rw [Token.gist, Prod.mk.injEq] at hgist
      exact .newline hgist.1 (h.behind (hgists ▸ more))
  | token begun cut more =>
      have hspaced := congrArg (fun g => g.2.2) hgist
      exact .token (fun ht => begun (hspaced.symm.trans ht)) (cut.congr hgist.symm)
        (h.behind (hgists ▸ more))

theorem written_behind_newline (h : Passage text rest) (hline : t.lexeme = .newline)
    (hmarked : (t :: rest).IsChain Token.Marked) : (written true rest).head? = some newline := by
  induction rest generalizing text t with
  | nil => exact absurd rfl h.ne_nil
  | cons u rest ih =>
      rw [List.isChain_cons_cons] at hmarked
      cases h.first with
      | done hend => rw [written, if_pos hend, List.head?_cons]
      | newline huline more =>
          rw [written, if_neg (by simp [huline]), if_pos huline]
          exact ih more huline hmarked.2
      | token begun cut more =>
          have hstarts : u.startsLine = true :=
            hmarked.1 hline cut.lexeme_ne_newline cut.lexeme_ne_eof
          rw [written, if_neg cut.lexeme_ne_eof, if_neg cut.lexeme_ne_newline, shown, hstarts]
          rfl

theorem written_cases (h : Passage text (t :: rest)) :
    (∃ d more, written true (t :: rest) = d :: more ∧ d ∈ [newline, byte ' ']) ∨
      (t.startsLine = false ∧ t.spaced = false ∧
        written true (t :: rest) = Utf8.encode t.spelling ++ written true rest ∧
          ∃ c mid left, text = c :: mid ∧ Cut c mid left t ∧ Passage left rest) := by
  cases h.first with
  | done hend => exact Or.inl ⟨newline, _, by rw [written, if_pos hend], List.mem_cons_self⟩
  | newline hline more =>
      have hhead := written_behind_newline more hline h.marked
      rw [written, if_neg (by simp [hline]), if_pos hline]
      rcases hwritten : written true rest with _ | ⟨d, w⟩
      · rw [hwritten] at hhead
        cases hhead
      · rw [hwritten, List.head?_cons, Option.some.injEq] at hhead
        exact Or.inl ⟨d, w, rfl, hhead ▸ List.mem_cons_self⟩
  | token begun cut more =>
      rw [written, if_neg cut.lexeme_ne_eof, if_neg cut.lexeme_ne_newline, shown]
      cases hstarts : t.startsLine with
      | true => exact Or.inl ⟨newline, _, rfl, List.mem_cons_self⟩
      | false =>
          cases hspaced : t.spaced with
          | true => exact Or.inl ⟨byte ' ', _, rfl, by simp⟩
          | false => exact Or.inr ⟨rfl, rfl, rfl, _, _, _, begun hspaced, cut, more⟩

/-- What is written of a token that is cut from the text: where the cut begins, something kin to it
is written. -/
theorem inked_cut {c : UInt8} {left : List UInt8} (cut : Cut c mid left t)
    (hspell : t.lexeme.Spellable) :
    ∃ d w, Utf8.encode t.spelling = d :: w ∧ Inked t.lexeme d w ∧ Lexeme.Kin c d := by
  rcases inked_written cut.formed hspell with ⟨d, w, hwritten, hinked⟩
  rcases cut.head with ⟨e, he, hkin⟩
  rw [Token.spelling, hwritten, List.head?_cons, Option.some.injEq] at he
  exact ⟨d, w, hwritten, hinked, he ▸ hkin⟩

/-- A letter that makes a universal character name of a backslash stands where it stood in the
text. -/
theorem mark_written (h : Passage text tokens)
    (hmark : (written true tokens).head?.any (fun e => isUniversalMark e.toNat) = true) :
    text.head?.any (fun e => isUniversalMark e.toNat) = true := by
  cases tokens with
  | nil => exact absurd rfl h.ne_nil
  | cons t rest =>
      rcases written_cases h with ⟨d, more, hwritten, hd⟩ |
        ⟨-, -, hwritten, c, mid, left, rfl, cut, -⟩
      · have hbreak : ∀ d ∈ [newline, byte ' '], isUniversalMark d.toNat = false := by
          decide +kernel
        rw [hwritten, List.head?_cons, Option.any_some, hbreak d hd] at hmark
        cases hmark
      · rcases inked_cut cut (h.writable.1 t List.mem_cons_self) with ⟨d, w, hspelled, -, hkin⟩
        rw [hwritten, hspelled, List.cons_append, List.head?_cons, Option.any_some] at hmark
        rw [List.head?_cons, Option.any_some]
        rcases hkin with rfl | ⟨-, hd⟩ | hd
        · exact hmark
        · simp only [isUniversalMark, Bool.or_eq_true, beq_iff_eq] at hmark
          omega
        · have hbracket : ∀ d ∈ Lexeme.brackets, isUniversalMark d.toNat = false := by
            decide +kernel
          rw [hbracket d hd] at hmark
          cases hmark

/-- No token is gone on by what is written behind it. -/
theorem goesOn_written {c : UInt8} (cut : Cut c mid text t) (h : Passage text tokens)
    (hapart : (t :: tokens).IsChain Token.Apart) :
    t.lexeme.goesOn (written true tokens) = false := by
  cases tokens with
  | nil => exact absurd rfl h.ne_nil
  | cons u rest =>
      rcases written_cases h with ⟨d, more, hwritten, hd⟩ |
        ⟨hstarts, hspaced, hwritten, c', mid', left, rfl, cut', more⟩
      · rw [hwritten]
        exact Lexeme.goesOnWith_break hd
      · rcases inked_cut cut' (h.writable.1 u List.mem_cons_self) with
          ⟨d, w, hspelled, hinked, hkin⟩
        rw [hwritten, hspelled]
        by_cases hhash : t.lexeme = .punctuator .hash
        · -- Behind a hash the text says nothing, but two of them are kept apart.
          rw [List.isChain_cons_cons] at hapart
          rw [hhash]
          refine Bool.eq_false_iff.mpr fun hgoes => ?_
          have hspelling : bytes Punctuator.hash.entry.spelling = [byte '#'] := by decide +kernel
          have hbeginning : Punctuator.isBeginning ([byte '#'] ++ [d]) = true := by
            simpa [Lexeme.goesOn, Lexeme.goesOnWith, hspelling] using hgoes
          have hd := Punctuator.eq_hash_of_isBeginning hbeginning
          have hbreak := hapart.1.1 hhash (hinked.hash hd)
          simp [hstarts, hspaced] at hbreak
        · refine Bool.eq_false_iff.mpr fun hgoes => ?_
          have hstops := cut.stops.resolve_left hhash
          refine absurd hstops (Bool.not_eq_false _ |>.mpr ?_)
          refine Lexeme.goesOnWith_kin hhash hkin hgoes fun hd hmark => ?_
          rcases hinked.escape hd with ⟨hlexeme, rfl⟩
          rw [← cut'.single _ hlexeme]
          exact mark_written more hmark

theorem not_mem_shown {d : UInt8} {w : List UInt8} (hspelled : Utf8.encode t.spelling = d :: w)
    (hinked : Inked t.lexeme d w) : carriageReturn ∉ shown started t := by
  have hbreak : ∀ b, carriageReturn ∉ breakIf b := by decide
  have hspace : ∀ b, carriageReturn ∉ spaceIf b := by decide
  rw [shown, hspelled, List.mem_append, List.mem_append, not_or, not_or]
  exact ⟨hbreak _, hspace _, fun hmem => (hinked.breakless _ hmem).2 rfl⟩

theorem unjoined_shown {d : UInt8} {w : List UInt8} (hspelled : Utf8.encode t.spelling = d :: w)
    (hinked : Inked t.lexeme d w) : Unjoined (shown started t) := by
  have hbreak : ∀ b, Unjoined (breakIf b) ∧ (breakIf b).getLast? ≠ some backslash := by decide
  have hspace : ∀ b, Unjoined (spaceIf b) ∧ (spaceIf b).getLast? ≠ some backslash := by decide
  have hline : Unjoined (d :: w) :=
    unjoined_of_not_mem fun hmem => (hinked.breakless _ hmem).1 rfl
  rw [shown, hspelled]
  refine (hbreak _).1.append ?_ fun h => absurd h (hbreak _).2
  exact (hspace _).1.append hline fun h => absurd h (hspace _).2

theorem written_not_newline {d : UInt8} {w : List UInt8} (h : Passage text tokens)
    (hapart : (t :: tokens).IsChain Token.Apart) (hinked : Inked t.lexeme d w)
    (hlast : (d :: w).getLast? = some backslash) :
    (written true tokens).head? ≠ some newline := by
  cases tokens with
  | nil => exact absurd rfl h.ne_nil
  | cons u rest =>
      rcases (List.isChain_cons_cons.mp hapart).1.2 (hinked.open_end hlast) with
        ⟨hline, hend, hstarts⟩
      cases h.first with
      | done heof => exact absurd heof hend
      | newline hnewline => exact absurd hnewline hline
      | token begun cut more =>
          rcases inked_cut cut (h.writable.1 u List.mem_cons_self) with ⟨e, v, hspelled, hu, -⟩
          rw [written, if_neg hend, if_neg hline, shown, hstarts, hspelled]
          cases u.spaced with
          | true =>
              show some (byte ' ') ≠ some newline
              decide
          | false =>
              show some e ≠ some newline
              rw [Ne, Option.some.injEq]
              exact (hu.breakless e List.mem_cons_self).1

theorem sound_written (started : Bool) (h : Passage text tokens) :
    Unjoined (written started tokens) ∧ carriageReturn ∉ written started tokens := by
  induction tokens generalizing text started with
  | nil => exact absurd rfl h.ne_nil
  | cons t rest ih =>
      cases h.first with
      | done hend _ hrest =>
          rw [written, if_pos hend, hrest, written]
          decide
      | newline hline more =>
          rw [written, if_neg (by simp [hline]), if_pos hline]
          exact ih started more
      | token begun cut more =>
          rcases inked_cut cut (h.writable.1 t List.mem_cons_self) with ⟨d, w, hspelled, ht, -⟩
          rw [written, if_neg cut.lexeme_ne_eof, if_neg cut.lexeme_ne_newline, List.mem_append,
            not_or]
          refine ⟨(unjoined_shown hspelled ht).append (ih true more).1 fun hlast => ?_,
            not_mem_shown hspelled ht, (ih true more).2⟩
          refine written_not_newline more h.writable.2 ht ?_
          rw [shown, hspelled, List.getLast?_append, List.getLast?_append] at hlast
          simpa [List.getLast?_cons] using hlast

theorem getLast_written (h : Passage text tokens) :
    (written started tokens).getLast? = some newline := by
  induction tokens generalizing text started with
  | nil => exact absurd rfl h.ne_nil
  | cons t rest ih =>
      cases h.first with
      | done hend _ hrest =>
          rw [written, if_pos hend, hrest]
          rfl
      | newline hline more =>
          rw [written, if_neg (by simp [hline]), if_pos hline]
          exact ih more
      | token begun cut more =>
          rw [written, if_neg cut.lexeme_ne_eof, if_neg cut.lexeme_ne_newline,
            List.getLast?_append, ih more]
          rfl

variable {σ : Type} [CharStream σ] {O : Outlook σ}

theorem lists_break {gists : List Gist} (broken : Bool) (h : O.Lists text gists) :
    O.Lists (breakIf broken ++ text)
      ((if broken then [(.newline, .plain, false)] else []) ++ gists) := by
  cases broken with
  | false => exact h
  | true =>
      refine lists_cons (by simp) (reads_freshToken false ?_ reads_token_newline) h
      exact ⟨by decide, fun h => absurd h (by decide)⟩

theorem lists_written (started : Bool) (h : Passage text tokens) :
    ∃ gists again spaced, O.Lists (written started tokens) again ∧
      withoutNewlines (tokens.map Token.gist) = gists ++ [(.eof, .plain, spaced)] ∧
      withoutNewlines again = gists ++ [(.eof, .plain, false)] := by
  induction tokens generalizing text started with
  | nil => exact absurd rfl h.ne_nil
  | cons t rest ih =>
      cases h.first with
      | done hend hplain hrest =>
          rw [written, if_pos hend, hrest, written]
          refine ⟨[], _, t.spaced, lists_break true lists_end, ?_, rfl⟩
          simp [withoutNewlines, Token.gist, hend, hplain]
      | newline hline more =>
          rcases ih started more with ⟨gists, again, spaced, hlists, hread, hagain⟩
          rw [written, if_neg (by simp [hline]), if_pos hline]
          refine ⟨gists, again, spaced, hlists, ?_, hagain⟩
          rw [← hread]
          simp [withoutNewlines, Token.gist, hline]
      | token begun cut more =>
          have hspell := h.writable.1 t List.mem_cons_self
          have hgoesOn := goesOn_written cut more h.writable.2
          rcases inked_cut cut hspell with ⟨d, w, hspelled, hinked, -⟩
          rcases ih true more with ⟨gists, again, spaced, hlists, hread, hagain⟩
          have hunblank : Unblank (Utf8.encode t.spelling ++ written true rest) :=
            hspelled ▸ unblank_written hinked hgoesOn
          have hfresh := reads_freshToken (O := O) t.spaced hunblank
            (reads_token_written cut.formed hspell hgoesOn)
          have hmore := lists_break (t.startsLine && started)
            (lists_cons cut.lexeme_ne_eof hfresh hlists)
          -- In front of the token stands a break at most, and behind it nothing that goes it on.
          rw [written, if_neg cut.lexeme_ne_eof, if_neg cut.lexeme_ne_newline, shown,
            List.append_assoc, List.append_assoc]
          refine ⟨t.gist :: gists, _, spaced, hmore, ?_, ?_⟩
          · rw [List.cons_append, ← hread]
            simp [withoutNewlines, Token.gist, cut.lexeme_ne_newline]
          · rw [List.cons_append, ← hagain]
            cases t.startsLine && started with
            | false => simp [withoutNewlines, Token.gist, cut.lexeme_ne_newline]
            | true => simp [withoutNewlines, Token.gist, cut.lexeme_ne_newline]

end Reprinting

open Position Rendering Reprinting

/-- Tokens that are written out are read back. If the tokens of a source are those of its joined
text, and may be written out as they are, then what is written has no failure, and but for its
newlines it has the same tokens, with their values, their encodings and the blanks before them. Only
the end token has no blank before it, as none is written. -/
theorem listing_reprinted {stream : Stream} {source : Source} (hfiles : stream.files = [source])
    (hfresh : source.IsFresh) (options : Options) :
    let read := (Lexer.ofStream stream options).listing
    let joined :=
      (Lexer.ofText (join (canon (source.lend stream.console).input.remaining)) options).listing
    read.failure = none → read.gists = joined.gists → Writable read.tokens →
    ∀ (name : String) (options' : Options),
      let written := Utf8.encode (Rendering.source read.tokens).text
      let again :=
        (Lexer.ofStream (Stream.ofSources [.ofBytes name written]) options').listing
      again.failure = none ∧ ∃ gists spaced,
        withoutNewlines read.gists = gists ++ [(.eof, .plain, spaced)] ∧
          withoutNewlines again.gists = gists ++ [(.eof, .plain, false)] := by
  intro read joined hfailure hgists hwritable name options' written again
  have hparsed : ∃ text, Parsed text joined.gists :=
    ⟨_, parsed_listing ⟨_, ⟨rfl, rfl, rfl⟩, rfl, fun h => not_mem_canon _ (mem_of_mem_join h)⟩
      (Lexer.failure_of_gists hgists hfailure)⟩
  rw [← hgists] at hparsed
  rcases hparsed with ⟨text, hparsed⟩
  have hpassage : Passage text read.tokens :=
    ⟨hparsed, marked_tokens hfiles hfresh options, hwritable⟩
  have hwritten : written = Rendering.written false read.tokens := encode_source read.tokens
  have hsound := sound_written false hpassage
  have hcanon : canon written = written := by
    rw [hwritten]
    exact canon_closed hsound.2 (getLast_written hpassage)
  rcases lists_written (O := .quiet options') false hpassage with
    ⟨gists, back, spaced, hlists, hread, hback⟩
  rw [← hwritten] at hlists
  rcases listing_of_lists name options' (by rw [hcanon, hwritten]; exact hsound.1)
      (by rw [hcanon]; exact hlists) with ⟨hnone, hagain, -⟩
  refine ⟨hnone, gists, spaced, hread, ?_⟩
  rw [← hback]
  exact congrArg withoutNewlines hagain

/-- Digraphs, escapes, comments and the joint of two lines are not written again, and a backslash
may stand before a blank. -/
theorem listing_reprinted_lines :
    let text := bytes
      "%:define f(x) x<:0:> // c\n u8\"\\x41\" L'\\102' a\\u00e9/**/b\\\nc \\ d\n".toList
    let read := (Lexer.ofStream (Stream.ofSources [.ofBytes "t.c" text])).listing
    let written := (Rendering.source read.tokens).text
    let again := (Lexer.ofStream (Stream.ofSources [.ofBytes "t.i" (Utf8.encode written)])).listing
    written = "#define f(x) x[0]\n u8\"A\" L'B' a\u00e9 bc \\ d\n" ∧ again.failure = none ∧
      ∃ gists spaced, withoutNewlines read.gists = gists ++ [(.eof, .plain, spaced)] ∧
        withoutNewlines again.gists = gists ++ [(.eof, .plain, false)] := by
  intro text read written again
  exact ⟨by decide +kernel, listing_reprinted rfl (Source.isFresh_ofBytes _ _) {}
    (by decide +kernel) (by decide +kernel) (by decide +kernel) "t.i" {}⟩

/-- What is read of some texts and not read back: two hashes, one of them spelled as a digraph,
become one token; a backslash that ends its line joins it; a name holds a character that no name is
written with; and the blank at the end of a text is not written. -/
theorem listing_reprinted_odd :
    let read text := (Lexer.ofStream (Stream.ofSources [.ofBytes "t.c" text])).listing
    let again text := read (Utf8.encode (Rendering.source (read text).tokens).text)
    let hashes := bytes "%:#".toList
    let open_end := bytes "\\ \n".toList
    let named := bytes "a\\u0040".toList
    let blank := bytes " \\\n".toList
    (∀ text ∈ [hashes, open_end, named, blank], (read text).failure = none) ∧
      (withoutNewlines (read hashes).gists =
          [(.punctuator .hash, .plain, false), (.punctuator .hash, .plain, false),
            (.eof, .plain, false)] ∧
        withoutNewlines (again hashes).gists =
          [(.punctuator .hashHash, .plain, false), (.eof, .plain, false)]) ∧
      (withoutNewlines (read open_end).gists =
          [(.invalid "\\", .plain, false), (.eof, .plain, false)] ∧
        withoutNewlines (again open_end).gists = [(.eof, .plain, false)]) ∧
      (withoutNewlines (read named).gists = [(.ident "a@", .plain, false), (.eof, .plain, false)] ∧
        withoutNewlines (again named).gists =
          [(.ident "a", .plain, false), (.invalid "@", .plain, false), (.eof, .plain, false)]) ∧
      withoutNewlines (read blank).gists = [(.eof, .plain, true)] ∧
      withoutNewlines (again blank).gists = [(.eof, .plain, false)] := by
  decide +kernel

end CLex
