import CLex.Proofs.Joining
import CLex.Proofs.Lexemes

namespace CLex

open Character Lexer Lines Reading

abbrev Gist : Type :=
  Lexeme × Encoding × Bool

def Listing.gists {σ : Type} (l : Listing σ) : List Gist :=
  l.tokens.map Token.gist

/-- A backslash and a newline, with no blank before either. -/
def strayPair : List Gist :=
  [(.invalid "\\", .plain, false), (.newline, .plain, false)]

/-- The tokens without the stray pairs that follow a name. -/
def dropStray : List Gist → List Gist
  | [] => []
  | g :: rest =>
      if g.1.isName ∧ strayPair.isPrefixOf rest then g :: dropStray (rest.drop 2)
      else g :: dropStray rest
termination_by gists => gists.length
decreasing_by
  · rw [List.length_drop, List.length_cons]
    omega
  · rw [List.length_cons]
    omega

theorem dropStray_name {g : Gist} (hg : g.1.isName = true) (rest : List Gist) :
    dropStray (g :: (strayPair ++ rest)) = g :: dropStray rest := by
  rw [dropStray, if_pos]
  · rfl
  · exact ⟨hg, List.isPrefixOf_iff_prefix.mpr (List.prefix_append _ _)⟩

theorem dropStray_cons {g : Gist} {rest : List Gist}
    (h : g.1.isName = true → ¬ strayPair <+: rest) : dropStray (g :: rest) = g :: dropStray rest := by
  rw [dropStray, if_neg]
  rintro ⟨hg, hpre⟩
  exact h hg (List.isPrefixOf_iff_prefix.mp hpre)

theorem length_dropStray_le (gists : List Gist) : (dropStray gists).length ≤ gists.length := by
  fun_induction dropStray gists with
  | case1 => exact Nat.le_refl _
  | case2 g rest h ih =>
      rw [List.length_cons, List.length_cons]
      rw [List.length_drop] at ih
      omega
  | case3 g rest h ih =>
      rw [List.length_cons, List.length_cons]
      omega

/-- Nothing is dropped exactly when no name is followed by a stray pair. -/
theorem dropStray_eq_self_iff (gists : List Gist) :
    dropStray gists = gists ↔
      ∀ before g after, g.1.isName = true → gists ≠ before ++ g :: (strayPair ++ after) := by
  fun_induction dropStray gists with
  | case1 => simp
  | case2 g rest h ih =>
      rcases List.isPrefixOf_iff_prefix.mp h.2 with ⟨after, rfl⟩
      constructor
      · intro heq
        have hlen := congrArg List.length heq
        have hle := length_dropStray_le ((strayPair ++ after).drop 2)
        simp only [List.length_cons, List.length_drop, List.length_append] at hlen hle
        rw [show strayPair.length = 2 from rfl] at hlen hle
        omega
      · exact fun hno => absurd rfl (hno [] g after h.1)
  | case3 g rest h ih =>
      rw [List.cons.injEq, eq_self, true_and, ih]
      constructor
      · rintro hno (_ | ⟨b, before⟩) g' after hname heq
        · cases heq
          exact h ⟨hname, List.isPrefixOf_iff_prefix.mpr (List.prefix_append _ _)⟩
        · cases heq
          exact hno before g' after hname rfl
      · intro hno before g' after hname heq
        exact hno (g :: before) g' after hname (by rw [heq]; rfl)

namespace Lexer

variable {lx : Lexer Book} {p : Page}

theorem tokenFrom_backslash {σ : Type} [CharStream σ] :
    tokenFrom (σ := σ) backslash = finish (.invalid "\\") := by
  rw [tokenFrom, if_neg (by decide), show encodingOf? backslash = none by decide]
  dsimp only
  rw [if_neg (by decide), if_neg (by decide), if_neg (by decide), if_neg (by decide),
    if_neg (by decide), operator, show punctuator? backslash = none from rfl]
  rfl

theorem eq_backslash_of_text {c : UInt8} (h : "\\" = text c) : c = backslash := by
  have hchar : ['\\'] = [Char.ofNat c.toNat] := by
    have := congrArg String.toList h
    rwa [text, String.toList_singleton] at this
  have hnat := congrArg Char.toNat (List.cons.inj hchar).1
  have hcode : (Char.ofNat c.toNat).toNat = c.toNat :=
    Utf8.toNat_ofNat (by rw [← hnat]; decide)
  exact UInt8.toNat_inj.mp (hcode.symm.trans hnat.symm)

theorem freshToken_unspaced (h : lx.stream.pages = [p]) (hs : lx.Settled p) {t : Token}
    {lx' : Lexer Book} (ht : freshToken lx = .ok t lx') (hspaced : t.spaced = false)
    (hend : t.isEnd = false) :
    ∃ c rest p' lx₁ t', p.rest = c :: rest ∧ p'.rest = rest ∧ lx₁.stream.pages = [p'] ∧
      lx₁.stream.joins = lx.stream.joins ∧ lx₁.pending = lx.pending ∧
      tokenFrom c lx₁ = .ok t' lx' ∧ t'.lexeme = t.lexeme := by
  rw [freshToken, LexM.bind_of_ok (needSource_pages h),
    LexM.bind_of_ok (isAtLineStart_pages h)] at ht
  rcases LexM.bind_eq_ok.mp ht with ⟨spaced, lx₁, hblanks, ht⟩
  rcases LexM.bind_eq_ok.mp ht with ⟨t', lx₂, htoken, ht⟩
  rcases LexM.pure_eq_ok.mp ht with ⟨rfl, rfl⟩
  cases show spaced = false from hspaced
  rcases skipBlank_false h hs (skipBlanks_false hblanks) with ⟨p', rfl, hp'⟩
  rw [token, LexM.bind_of_ok (setMark_pages rfl)] at htoken
  have hs' : ({ lx.withPages [p'] with mark := (p'.line, p'.column) } : Lexer Book).Settled p' := by
    intro hj
    rw [hp']
    exact hs hj
  cases hp : p.rest with
  | nil =>
      rw [LexM.bind_of_ok (next?_end rfl (hp'.trans hp))] at htoken
      have := lexeme_finish htoken
      simp [Token.isEnd, this] at hend
  | cons c rest =>
      rw [LexM.bind_of_ok (next?_settled rfl hs' (hp'.trans hp))] at htoken
      refine ⟨c, rest, { p' with rest }.advance c, _, t', rfl, Page.rest_advance _ _, ?_, ?_, ?_,
        htoken, rfl⟩
      · rfl
      · rfl
      · rfl

end Lexer

namespace Joining

variable {s t : Lexer Book}

/-- A lexer of one page whose lines are not joined. -/
structure Plainly (t : Lexer Book) (q : Page) : Prop where
  pages : t.stream.pages = [q]
  joins : t.stream.joins = false
  pending : t.pending = [[]]

theorem Plainly.settled {q : Page} (h : Plainly t q) : t.Settled q := by
  intro hj
  rw [h.joins] at hj
  cases hj

theorem nextToken_single {q : Page} (h : Plainly t q) {c : UInt8} {rest : List UInt8}
    {lexeme : Lexeme} (hq : q.rest = c :: rest) (hblank : isBlank c.toNat = false)
    (hslash : c ≠ byte '/') (hfinish : tokenFrom (σ := Book) c = finish lexeme) :
    ∃ (a : Token) (t' : Lexer Book) (q' : Page), nextToken t = .ok a t' ∧
      a.gist = (lexeme, .plain, false) ∧ Plainly t' q' ∧ t'.options = t.options ∧
      q'.rest = rest := by
  rw [nextToken_fresh h.pending, freshToken_cons h.pages h.settled hq hblank hslash, hfinish,
    LexM.bind_of_ok (finish_pages rfl lexeme .plain)]
  exact ⟨_, _, _, rfl, rfl, ⟨rfl, h.joins, h.pending⟩, rfl, Page.rest_advance _ _⟩

theorem listing_cons {a : Token} {t' : Lexer Book} (h : nextToken t = .ok a t')
    (hend : a.isEnd = false) :
    t.listing.gists = a.gist :: t'.listing.gists ∧ t.listing.failure = t'.listing.failure ∧
      t'.weight < t.weight := by
  rw [listing_of_more h hend]
  exact ⟨rfl, rfl, advances_nextToken _ _ _ h hend⟩

theorem isEnd_of_gist {a : Token} {lexeme : Lexeme} {encoding : Encoding} {spaced : Bool}
    (h : a.gist = (lexeme, encoding, spaced)) (hne : lexeme ≠ .eof) : a.isEnd = false := by
  rw [Token.gist, Prod.mk.injEq] at h
  simpa [Token.isEnd, h.1] using hne

theorem listing_stray {q : Page} {rest : List UInt8} (h : Plainly t q)
    (hq : q.rest = backslash :: newline :: rest) :
    ∃ (t' : Lexer Book) (q' : Page), t.listing.gists = strayPair ++ t'.listing.gists ∧
      t.listing.failure = t'.listing.failure ∧ t'.weight < t.weight ∧ Plainly t' q' ∧
      t'.options = t.options ∧ q'.rest = rest := by
  have newline_token : tokenFrom (σ := Book) newline = finish .newline := by
    rw [tokenFrom, if_pos rfl]
  rcases nextToken_single h hq (by decide) (by decide) tokenFrom_backslash with
    ⟨a, t₁, q₁, ha, hgist, h₁, hoptions, hq₁⟩
  rcases nextToken_single h₁ hq₁ (by decide) (by decide) newline_token with
    ⟨b, t₂, q₂, hb, hgist', h₂, hoptions', hq₂⟩
  rcases listing_cons ha (isEnd_of_gist hgist (by simp)) with ⟨hgists, hfailure, hlt⟩
  rcases listing_cons hb (isEnd_of_gist hgist' (by simp)) with ⟨hgists', hfailure', hlt'⟩
  refine ⟨t₂, q₂, ?_, hfailure.trans hfailure', Nat.lt_trans hlt' hlt, h₂,
    hoptions'.trans hoptions, hq₂⟩
  rw [hgists, hgists', hgist, hgist']
  rfl

theorem plainly_of_gists {q : Page} (h : Plainly t q) {lexeme : Lexeme} {encoding : Encoding}
    {more : List Gist} (hgists : t.listing.gists = (lexeme, encoding, false) :: more)
    (hne : lexeme ≠ .eof) :
    ∃ (c : UInt8) (rest : List UInt8) (t' lx : Lexer Book) (p' : Page) (a : Token),
      q.rest = c :: rest ∧ Fits c lexeme ∧ p'.rest = rest ∧ Plainly lx p' ∧
      tokenFrom c lx = .ok a t' ∧ t'.listing.gists = more := by
  rw [listing_eq, nextToken_fresh h.pending] at hgists
  cases ht : freshToken t with
  | error f t' =>
      rw [ht] at hgists
      cases hgists
  | ok a t' =>
      rw [ht] at hgists
      dsimp only at hgists
      split at hgists
      · next hend =>
        rw [Listing.gists, List.map_singleton, List.cons.injEq, Token.gist, Prod.mk.injEq] at hgists
        rw [Token.isEnd, hgists.1.1] at hend
        exact absurd (by simpa using hend) hne
      · next hend =>
        rw [Listing.gists, Listing.cons, List.map_cons, List.cons.injEq, Token.gist, Prod.mk.injEq,
          Prod.mk.injEq] at hgists
        rcases hgists with ⟨⟨hlexeme, -, hspaced⟩, hmore⟩
        rcases freshToken_unspaced h.pages h.settled ht hspaced (by simpa using hend) with
          ⟨c, rest, p', lx, a', hq, hp', hpages, hjoins, hpending, htoken, hlexeme'⟩
        have hfits := begins_tokenFrom c _ _ _ htoken
        dsimp only at hfits
        rw [hlexeme', hlexeme] at hfits
        exact ⟨c, rest, t', lx, p', a', hq, hfits, hp',
          ⟨hpages, hjoins.trans h.joins, hpending.trans h.pending⟩, htoken, hmore⟩

theorem prefix_of_strayPair {q : Page} (h : Plainly t q) (hpre : strayPair <+: t.listing.gists) :
    [backslash, newline] <+: q.rest := by
  rcases hpre with ⟨more, hmore⟩
  rcases plainly_of_gists h hmore.symm (by simp) with
    ⟨c, rest, t₁, lx, p', a, hq, hfits, hp', hlx, htoken, hgists⟩
  have hc : c = backslash := eq_backslash_of_text hfits
  rw [hc, tokenFrom_backslash, finish_pages hlx.pages] at htoken
  cases htoken
  have h₁ : Plainly (lx.withPages [{ p' with tokens := p'.tokens + 1 }])
      { p' with tokens := p'.tokens + 1 } := ⟨rfl, hlx.joins, hlx.pending⟩
  rcases plainly_of_gists h₁ hgists (by simp) with
    ⟨d, rest', t₂, lx', p'', b, hq', hfits', -⟩
  have hd : d = newline := hfits'
  rw [hq, ← hp', show p'.rest = d :: rest' from hq', hc, hd]
  exact ⟨rest', rfl⟩

/-- Two lexers list the same, but for stray pairs after names in the second list. -/
structure SameButStray (s t : Lexer Book) : Prop where
  gists_eq : s.listing.gists = dropStray t.listing.gists
  failure_eq : s.listing.failure.map Failure.unplaced = t.listing.failure.map Failure.unplaced

theorem sameButStray_after {a b : Token} {s' t' : Lexer Book} (hs : nextToken s = .ok a s')
    (ht : nextToken t = .ok b t') (hend : b.isEnd = false) (hgist : a.gist = b.gist)
    (hafter : After b.lexeme s' t')
    (ih : ∀ s'' t'', t''.weight < t.weight → Held [] s'' t'' → SameButStray s'' t'') :
    SameButStray s t := by
  have hlexeme : a.lexeme = b.lexeme := congrArg Prod.fst hgist
  rcases listing_cons hs (by rw [Token.isEnd, hlexeme]; exact hend) with ⟨hgists, hfailure, -⟩
  rcases listing_cons ht hend with ⟨hgists', hfailure', hlt⟩
  have next : SameButStray s' t' →
      (b.lexeme.isName = true → ¬ strayPair <+: t'.listing.gists) → SameButStray s t := by
    intro h hno
    refine ⟨?_, by rw [hfailure, hfailure', h.failure_eq]⟩
    rw [hgists, hgists', dropStray_cons hno, hgist, h.gists_eq]
  unfold After at hafter
  split at hafter
  · next hname =>
    rcases hafter with ⟨p, q, hword⟩
    have hplain : Plainly t' q := ⟨hword.right, hword.plain, hword.pending.2⟩
    rcases hword.texts with ⟨rest, hp, hq⟩ | ⟨htexts, hno⟩
    · rcases listing_stray hplain hq with
        ⟨t'', q', hstray, hfailure'', hlt', h'', hoptions, hq'⟩
      have hheld : Held [] s' t'' :=
        ⟨p, q', hword.left, hword.joins, h''.pages, h''.joins, hword.options.trans hoptions.symm,
          ⟨hword.pending.1, h''.pending⟩, by rw [hq', hp, join_pair], by simp⟩
      have hsame := ih s' t'' (hlt'.trans hlt) hheld
      refine ⟨?_, by rw [hfailure, hfailure', hfailure'', hsame.failure_eq]⟩
      rw [hgists, hgists', hstray, dropStray_name hname, hgist, hsame.gists_eq]
    · have hheld : Held [] s' t' :=
        ⟨p, q, hword.left, hword.joins, hword.right, hword.plain, hword.options, hword.pending,
          htexts, by simp⟩
      exact next (ih s' t' hlt hheld) fun _ hpre => hno (prefix_of_strayPair hplain hpre)
  · next hname =>
    exact next (ih s' t' hlt hafter) fun hn => absurd hn hname

/-- The listing of a source is that of its joined text without the stray pairs after names. -/
theorem sameButStray_of_held (h : Held [] s t) : SameButStray s t := by
  -- By what is left of the joined text, of which one token or three are taken at a time.
  induction hn : t.weight using Nat.strongRecOn generalizing s t with
  | ind n ih =>
      have hrun := FreshSimulation.runs_freshToken (S := simulation) s t h
      have hpending : s.pending = [[]] ∧ t.pending = [[]] := by
        rcases h with ⟨p, q, h⟩
        exact h.pending
      rw [← nextToken_fresh hpending.1, ← nextToken_fresh hpending.2] at hrun
      cases hs : nextToken s with
      | error f s' =>
          rw [hs] at hrun
          cases ht : nextToken t with
          | ok => rw [ht] at hrun; exact hrun.elim
          | error g t' =>
              rw [ht] at hrun
              rcases hrun with hlax | ⟨hfailure, -⟩
              · exact hlax.elim
              · constructor
                · rw [listing_of_error hs, listing_of_error ht]
                  simp [Listing.gists, dropStray]
                · rw [listing_of_error hs, listing_of_error ht]
                  exact congrArg some hfailure
      | ok a s' =>
          rw [hs] at hrun
          cases ht : nextToken t with
          | error => rw [ht] at hrun; exact hrun.elim
          | ok b t' =>
              rw [ht] at hrun
              rcases hrun with ⟨hgist, hlexeme, hafter⟩
              cases hend : b.isEnd with
              | true =>
                  have hsingle : dropStray [b.gist] = [b.gist] := by
                    rw [dropStray_cons fun _ => by decide, dropStray]
                  have hends : a.isEnd = true := by rw [Token.isEnd, hlexeme]; exact hend
                  constructor
                  · rw [listing_of_end hs hends, listing_of_end ht hend]
                    simpa [Listing.gists, hsingle] using show a.gist = b.gist from hgist
                  · rw [listing_of_end hs hends, listing_of_end ht hend]
              | false =>
                  exact sameButStray_after hs ht hend hgist (hlexeme ▸ hafter)
                    fun s'' t'' hlt hheld => ih t''.weight (hn ▸ hlt) hheld rfl

end Joining

namespace Lexer

/-- A lexer of given characters, whose lines are not joined any more. -/
def ofText (text : List UInt8) (options : Options := {}) : Lexer Book :=
  ofStream { pages := [{ name := "", rest := text }], joins := false } options

end Lexer

open Joining

/-- A source is lexed as its joined text is, but for the backslash and the newline that may follow a
name there: with them the tokens differ, without them they are the same. -/
theorem listing_splice {stream : Stream} {source : Source} (hfiles : stream.files = [source])
    (hfresh : source.IsFresh) (options : Options) :
    let read := (Lexer.ofStream stream options).listing
    let joined :=
      (Lexer.ofText (join (canon (source.lend stream.console).input.remaining)) options).listing
    read.gists = dropStray joined.gists ∧
      read.failure.map Failure.unplaced = joined.failure.map Failure.unplaced ∧
      (read.gists = joined.gists ↔ ∀ before g after, g.1.isName = true →
        joined.gists ≠ before ++ g :: (strayPair ++ after)) := by
  intro read joined
  have hroom : stream.HasRoom 0 := by
    apply (Stream.hasRoom_of_fresh (by simp [hfiles]) ?_).mono (Nat.zero_le 3)
    rw [hfiles]
    exact fun other h => List.mem_singleton.mp h ▸ hfresh
  have hbook := Stack.listing_book (Lexer.ofStream stream options) hroom
  have hlend : (source.lend stream.console).IsFresh :=
    ⟨hfresh.last, hfresh.line, hfresh.column, hfresh.pushback, hfresh.tokens⟩
  have hheld : Held [] (Lexer.ofStream stream options).book
      (Lexer.ofText (join (canon (source.lend stream.console).input.remaining)) options) := by
    refine ⟨(source.lend stream.console).page, _, ?_, rfl, rfl, rfl, rfl, ⟨rfl, rfl⟩, ?_, by simp⟩
    · show Stream.pagesOf stream.console stream.files = _
      rw [hfiles]
      rfl
    · rw [hlend.page_eq]
  rcases sameButStray_of_held hheld with ⟨hgists, hfailure⟩
  rw [hbook] at hgists hfailure
  have hread : read.gists = dropStray joined.gists := hgists
  refine ⟨hread, hfailure, ?_⟩
  rw [hread]
  exact dropStray_eq_self_iff joined.gists

theorem listing_splice_name :
    (Lexer.ofStream
        (Stream.ofSources [.ofBytes "t.c" (bytes ['a', '\\', '\n', 'b'])])).listing.gists =
      [(.ident "ab", .plain, false), (.newline, .plain, false), (.eof, .plain, false)] :=
  (listing_splice rfl (Source.isFresh_ofBytes _ _) {}).1.trans (by decide +kernel)

/-- A name, two backslashes and two newlines: one backslash and one newline are left of the joined
text, and no token of the source stands for them. -/
theorem listing_splice_stray :
    let text := bytes ['a', '\\', '\\', '\n', '\n', 'b']
    let read := (Lexer.ofStream (Stream.ofSources [.ofBytes "t.c" text])).listing.gists
    let joined := (Lexer.ofText (join (canon text))).listing.gists
    read = [(.ident "a", .plain, false), (.ident "b", .plain, false), (.newline, .plain, false),
        (.eof, .plain, false)] ∧
      joined = [(.ident "a", .plain, false), (.invalid "\\", .plain, false),
        (.newline, .plain, false), (.ident "b", .plain, false), (.newline, .plain, false),
        (.eof, .plain, false)] ∧
      read ≠ joined := by
  decide +kernel

end CLex
