import CLex.Proofs.Finishing
import CLex.Proofs.Interchange
import CLex.Proofs.Shielding

namespace CLex

open Character Lexer LexM

namespace Source

theorem tokens_advance (s : Source) (c : Option UInt8) : (s.advance c).tokens = s.tokens := by
  cases c with
  | none => rfl
  | some c => simp only [advance]; split <;> rfl

theorem tokens_get (s : Source) : s.get.2.tokens = s.tokens := by
  have hread : s.readInput.2.tokens = s.tokens := by
    unfold readInput
    split
    · rfl
    · split <;> rfl
  unfold get
  split
  · rw [tokens_advance]
  · rw [tokens_advance, hread]

theorem tokens_putBack (s : Source) (c : UInt8) : (s.putBack c).tokens = s.tokens := by
  unfold putBack
  split <;> rfl

theorem tokens_readChar (s : Source) : s.readChar.2.tokens = s.tokens := by
  have hget : ∀ {s s₁ : Source} {c : Option UInt8}, s.get = (c, s₁) → s₁.tokens = s.tokens :=
    fun {s _ _} h => (congrArg (·.2.tokens) h).symm.trans (tokens_get s)
  fun_induction readChar s with
  | case1 s s₁ hb => exact hget hb
  | case2 s s₁ s₂ hc hb => exact (hget hc).trans (hget hb)
  | case3 s s₁ s₂ hb hc ih => exact ih.trans ((hget hc).trans (hget hb))
  | case4 s s₁ c s₂ hc hne hb =>
      rw [tokens_putBack]
      exact (hget hc).trans (hget hb)
  | case5 s c s₁ hb hne => exact hget hb

end Source

namespace Token

def isHash (t : Token) : Bool :=
  t.isPunctuator .hash

/-- The name of a directive that ends a group or divides it. -/
def isDivider (t : Token) : Bool :=
  match t.lexeme with
  | .ident name => divides name
  | _ => false

end Token

namespace Numbering

/-- One source is read, and its next number is at least `n`. Of the tokens in `held` the last ones
are pending, at least one if there are any. -/
structure Passing (held : List Token) (n : Int) (lx : Lexer) : Prop where
  single : ∃ source, lx.stream.files = [source] ∧ n ≤ source.tokens
  waiting : ∃ w, lx.pending = [w] ∧ w <:+ held ∧ (w = [] → held = [])

/-- What may be pending behind the calls: nothing, the end of a group, or its name alone. -/
inductive Waiting (n : Int) : List Token → Prop
  | none : Waiting n []
  | name {t : Token} (divider : t.isDivider) (below : t.index < n) : Waiting n [t]
  | pair {hash t : Token} (is_hash : hash.isHash) (divider : t.isDivider)
      (order : t.index < hash.index) (below : hash.index < n) : Waiting n [hash, t]

variable {held : List Token} {n m : Int} {lx lx' : Lexer}

theorem Waiting.name_last (h : Waiting n held) {t : Token} (hlast : held.getLast? = some t) :
    t.isDivider = true ∧ t.index < n ∧ t ∈ held := by
  cases h with
  | none => cases hlast
  | name divider below =>
      cases Option.some.inj hlast
      exact ⟨divider, below, List.mem_singleton_self _⟩
  | pair is_hash divider order below =>
      cases Option.some.inj hlast
      exact ⟨divider, Int.lt_trans order below, by simp⟩

theorem Passing.mono (h : Passing held n lx) (hle : m ≤ n) : Passing held m lx := by
  rcases h.single with ⟨source, hfiles, hn⟩
  exact ⟨⟨source, hfiles, Int.le_trans hle hn⟩, h.waiting⟩

theorem Passing.next (h : Passing held n lx) :
    Passing held n { lx with stream := (CharStream.read lx.stream).2 } := by
  rcases h.single with ⟨source, hfiles, hn⟩
  have hread : CharStream.read lx.stream = lx.stream.readChar := Stream.readAcross_single hfiles
  refine ⟨?_, h.waiting⟩
  rw [hread, Stream.readChar, hfiles]
  refine ⟨_, rfl, ?_⟩
  rw [Source.settle, Source.tokens_readChar]
  exact hn

theorem Passing.unread (h : Passing held n lx) {c : UInt8} {stream : Stream}
    (hstream : lx.stream.unread c = .ok stream) : Passing held n { lx with stream } := by
  rcases h.single with ⟨source, hfiles, hn⟩
  unfold Stream.unread Source.unread? at hstream
  rw [hfiles] at hstream
  dsimp only at hstream
  split at hstream
  · next top hroom =>
    split at hroom
    · cases hroom
      cases hstream
      exact ⟨⟨_, rfl, by rw [Source.tokens_putBack]; exact hn⟩, h.waiting⟩
    · cases hroom
  · cases hstream

section Single

variable {source : Source} (hfiles : lx.stream.files = [source])

include hfiles

theorem place?_single : CharStream.place? lx.stream = some source.location := by
  show lx.stream.files.head?.map Source.location = _
  rw [hfiles]
  rfl

theorem depth_single : CharStream.depth lx.stream = 1 := by
  show lx.stream.files.length = 1
  rw [hfiles]
  rfl

theorem draw_single :
    CharStream.draw lx.stream =
      (source.tokens, { lx.stream with files := [{ source with tokens := source.tokens + 1 }] }) :=
  Shielding.stream_draw hfiles

end Single

theorem ending_passing (held : List Token) (n : Int) :
    Ending (Passing held n) fun t lx => n ≤ t.index ∧ Passing held (t.index + 1) lx where
  next := fun lx h => h.next
  unread := by
    intro c lx h
    rw [Lexer.unread, show CharStream.unread lx.stream c = lx.stream.unread c from rfl]
    cases hstream : lx.stream.unread c with
    | ok stream => exact h.unread hstream
    | error f => exact h
  warn := fun _ _ => leads_warn_of (fun _ h _ _ => h) fun _ _ _ h => ⟨h.single, h.waiting⟩
  finish := by
    intro lexeme encoding lx h
    rcases h.single with ⟨source, hfiles, hn⟩
    rw [finish, place?_single hfiles]
    dsimp only
    rw [draw_single hfiles]
    exact ⟨hn, ⟨_, rfl, by simp⟩, h.waiting⟩
  keeps := fun h => h.2.mono (by omega)

theorem waiting_of_empty (h : Passing [] n lx) : lx.pending = [[]] := by
  rcases h.waiting with ⟨w, hpending, hsuffix, -⟩
  rwa [List.suffix_nil.mp hsuffix] at hpending

theorem leads_freshToken :
    Leads (fun _ => Passing held n) (Passing held n) freshToken
      fun t lx => n ≤ t.index ∧ Passing held (t.index + 1) lx := by
  have hending := ending_passing held n
  refine leads_bind (leads_needSource_of fun _ h => h) fun _ => ?_
  refine leads_bind (Q := fun _ => Passing held n) (fun _ h => h) fun startsLine => ?_
  refine leads_bind hending.blankRules.rel_skipBlanks fun spaced => ?_
  refine leads_bind (Q := fun t lx => n ≤ t.index ∧ Passing held (t.index + 1) lx) ?_
    fun t => leads_pure fun _ h => h
  exact leads_bind (leads_setMark_of fun _ _ h => ⟨h.single, h.waiting⟩)
    fun _ => hending.leads_marked_token

/-- What comes as the next token, and what is pending behind it. -/
inductive Came (held : List Token) (n : Int) (t : Token) (lx : Lexer) : Prop
  | fresh (empty : held = []) (later : n ≤ t.index) (rest : Passing [] (t.index + 1) lx)
  | hash {name : Token} (pair : held = [t, name]) (rest : Passing [name] n lx)
  | name (last : held.getLast? = some t) (rest : Passing [] n lx)

theorem leads_nextToken (hheld : Waiting n held) :
    Leads (fun _ => Passing held n) (Passing held n) nextToken (Came held n) := by
  intro lx h
  rcases h.waiting with ⟨w, hpending, hsuffix, hlast⟩
  cases w with
  | nil =>
      cases hlast rfl
      rw [nextToken_fresh hpending]
      exact (leads_freshToken.post fun _ _ h => .fresh rfl h.1 h.2) lx h
  | cons t w =>
      have hnext : nextToken lx = .ok t { lx with pending := [w] } := by rw [nextToken, hpending]
      have hname : held.getLast? = some t → w = [] → Came held n t { lx with pending := [w] } := by
        rintro hmem rfl
        exact .name hmem ⟨h.single, [], rfl, List.nil_suffix, fun _ => rfl⟩
      rw [hnext]
      cases hheld with
      | none => cases List.suffix_nil.mp hsuffix
      | name divider below =>
          rcases List.suffix_cons_iff.mp hsuffix with heq | hnil
          · cases heq
            exact hname rfl rfl
          · cases List.suffix_nil.mp hnil
      | pair is_hash divider order below =>
          rcases List.suffix_cons_iff.mp hsuffix with heq | hsuffix
          · cases heq
            exact .hash rfl ⟨h.single, _, rfl, List.suffix_rfl, fun hw => absurd hw (by simp)⟩
          · rcases List.suffix_cons_iff.mp hsuffix with heq | hnil
            · cases heq
              exact hname rfl rfl
            · cases List.suffix_nil.mp hnil

theorem Passing.behind {hash name : Token} (h : Passing [name] n lx) :
    Passing [hash, name] n lx := by
  rcases h.waiting with ⟨w, hpending, hsuffix, hlast⟩
  refine ⟨h.single, w, hpending, hsuffix.trans (List.suffix_cons _ _), fun hw => ?_⟩
  cases hlast hw

/-- The directive that ended a group has been put back, behind the `#` that was made for it. -/
def Answered (held : List Token) (n : Int) (lx : Lexer) : Prop :=
  ∃ hash t, Waiting (hash.index + 1) [hash, t] ∧ n ≤ hash.index ∧
    (t ∈ held ∨ held = [] ∧ n ≤ t.index) ∧ Passing [hash, t] (hash.index + 1) lx

/-- What a round leaves. While the end of a group waits no conditional is open inside another one,
so that the next directive is taken for the name that waits and put back again. -/
abbrev Passed (held : List Token) (n : Int) : Round Nat Unit → Lexer → Prop :=
  RoundLeft (fun depth lx => (held ≠ [] → depth = 0) ∧ Passing held n lx)
    fun _ lx => Passing held n lx ∨ Answered held n lx

theorem hashToken_single {source : Source} {hash : HashMark}
    (hfiles : lx.stream.files = [source]) (hdepth : hash.depth = 1) :
    hashToken hash lx =
      .ok
        { lexeme := .punctuator .hash, file := some hash.place.file, line := hash.place.line,
          column := hash.place.column, index := source.tokens, startsLine := true }
        { lx with stream :=
            { lx.stream with files := [{ source with tokens := source.tokens + 1 }] } } := by
  rw [hashToken, if_pos ((depth_single hfiles).trans hdepth.symm)]
  dsimp only
  rw [draw_single hfiles]

theorem answered_of_name {hash : HashMark} (hdepth : hash.depth = 1) {t : Token}
    (hdivider : t.isDivider = true) (hbelow : t.index < m) (hle : n ≤ m)
    (hname : t ∈ held ∨ held = [] ∧ n ≤ t.index) :
    Leads (fun _ => Passing held n) (Passing [] m)
      (do
        pushBack t
        pushBack (← hashToken hash)
        pure (.done ()))
      (Passed held n) := by
  have hend : t.isEnd = false := by
    unfold Token.isDivider at hdivider
    unfold Token.isEnd
    split at hdivider
    · next name hlexeme => rw [hlexeme]; rfl
    · cases hdivider
  refine leads_of_ok fun lx h => ?_
  rcases h.single with ⟨source, hfiles, hm⟩
  have hpush : pushBack t lx = .ok () { lx with pending := [[t]] } := by
    rw [pushBack, if_neg (by simp [hend]), waiting_of_empty h]
  let made : Token :=
    { lexeme := .punctuator .hash, file := some hash.place.file, line := hash.place.line,
      column := hash.place.column, index := source.tokens, startsLine := true }
  let stream := { lx.stream with files := [{ source with tokens := source.tokens + 1 }] }
  refine ⟨.done (), { lx with stream, pending := [[made, t]] }, ?_, Or.inr ⟨made, t,
    .pair rfl hdivider (Int.lt_of_lt_of_le hbelow hm) (Int.lt_succ _), Int.le_trans hle hm, hname,
    ⟨_, rfl, Int.le_refl _⟩, _, rfl, List.suffix_rfl, nofun⟩⟩
  have hfiles' : ({ lx with pending := [[t]] } : Lexer).stream.files = [source] := hfiles
  rw [bind_of_ok hpush, bind_of_ok (hashToken_single hfiles' hdepth)]
  rfl

theorem Came.passing {t : Token} (hcame : Came held n t lx) (hdivider : t.isDivider = false)
    (hheld : Waiting n held) : Passing held n lx := by
  cases hcame with
  | fresh empty later rest => exact empty ▸ rest.mono (by omega)
  | hash pair rest => exact pair ▸ rest.behind
  | name last rest =>
      rw [(hheld.name_last last).1] at hdivider
      cases hdivider

theorem Came.of_ident {t : Token} {name : String} (hcame : Came held n t lx)
    (hheld : Waiting n held) (hlexeme : t.lexeme = .ident name) :
    held = [] ∧ n ≤ t.index ∧ Passing [] (t.index + 1) lx ∨
      held.getLast? = some t ∧ Passing [] n lx := by
  cases hcame with
  | fresh empty later rest => exact Or.inl ⟨empty, later, rest⟩
  | name last rest => exact Or.inr ⟨last, rest⟩
  | hash pair rest =>
      cases hheld with
      | none => cases pair
      | name => cases pair
      | pair is_hash =>
          cases pair
          rw [Token.isHash, Token.isPunctuator, hlexeme] at is_hash
          cases is_hash

theorem leads_directive (hheld : Waiting n held) {hash : HashMark} (hdepth : hash.depth = 1)
    {depth : Nat} (hopen : held ≠ [] → depth = 0) :
    Leads (fun _ => Passing held n) (Passing held n) (directive hash depth)
      (Passed held n) := by
  refine leads_bind (leads_nextToken hheld) fun t => ?_
  cases hlexeme : t.lexeme with
  | ident name =>
      have hdivides : t.isDivider = divides name := by rw [Token.isDivider, hlexeme]
      dsimp only
      split
      · next hends =>
        have hdivider := hdivides.trans hends.2
        intro lx hcame
        rcases hcame.of_ident hheld hlexeme with ⟨hempty, hlater, hrest⟩ | ⟨hlast, hrest⟩
        · exact answered_of_name hdepth hdivider (Int.lt_succ _) (by omega)
            (Or.inr ⟨hempty, hlater⟩) lx hrest
        · rcases hheld.name_last hlast with ⟨-, hbelow, hmem⟩
          exact answered_of_name hdepth hdivider hbelow (Int.le_refl n) (Or.inl hmem) lx hrest
      · next hends =>
        intro lx hcame
        rcases hcame.of_ident hheld hlexeme with ⟨hempty, hlater, hrest⟩ | ⟨hlast, hrest⟩
        · refine leads_bind (ending_passing _ _).rules.rel_skipLine
            (fun _ => leads_pure fun _ h => ⟨fun hne => absurd hempty hne, h⟩) lx ?_
          exact hempty ▸ hrest.mono (by omega)
        · refine absurd ⟨hopen ?_, hdivides.symm.trans (hheld.name_last hlast).1⟩ hends
          rintro rfl
          cases hlast
  | _ =>
    dsimp only
    refine leads_pure fun lx hcame => ⟨hopen, hcame.passing ?_ hheld⟩
    rw [Token.isDivider, hlexeme]

theorem leads_groupRound (hheld : Waiting n held) (depth : Nat) :
    Leads (fun _ => Passing held n) (fun lx => (held ≠ [] → depth = 0) ∧ Passing held n lx)
      (groupRound depth) (Passed held n) := by
  refine leads_given fun hopen => ?_
  have hending := ending_passing held n
  refine leads_bind (Q := fun _ => Passing held n) (fun _ h => h) fun startsLine => ?_
  refine leads_bind hending.blankRules.rel_skipBlanks fun _ => leads_bind hending.next fun c => ?_
  have hagain : Leads (fun _ => Passing held n) (Passing held n) (pure (.again depth))
      (Passed held n) :=
    leads_pure fun _ h => ⟨hopen, h⟩
  cases c with
  | none => exact leads_pure fun _ h => Or.inl h
  | some c =>
      dsimp only
      unfold groupFrom
      split
      · exact leads_bind hending.rules.rel_skipCharLiteral fun _ => hagain
      · split
        · exact leads_bind hending.rules.rel_skipStringLiteral fun _ => hagain
        · split
          · intro lx h
            rcases h.single with ⟨source, hfiles, -⟩
            have hmark : hashMark? lx.stream =
                some ⟨source.location.back 1, (CharStream.draw lx.stream).1, 1⟩ := by
              rw [hashMark?, place?_single hfiles, depth_single hfiles]
              rfl
            have hget : (get : LexM Lexer) lx = .ok lx lx := rfl
            rw [bind_of_ok hget, hmark]
            exact leads_directive hheld rfl hopen lx h
          · exact hagain

theorem leads_skipGroup (hheld : Waiting n held) :
    Leads (fun _ => Passing held n) (Passing held n) skipGroup
      fun _ lx => Passing held n lx ∨ Answered held n lx := by
  refine leads_bind (leads_needSource_of fun _ h => h) fun _ => ?_
  exact (leads_loop (leads_groupRound hheld) 0).pre fun _ h => ⟨fun _ => rfl, h⟩

end Numbering

inductive Move where
  | next
  | skip

/-- A token that a call has given. -/
structure Given where
  token : Token
  /-- It was not read by the call but put back before. -/
  waited : Bool

/-- The tokens that are given. A call that fails gives none, and the calls go on behind it. -/
def given : List Move → Lexer → List Given
  | [], _ => []
  | .next :: moves, lx =>
    match nextToken lx with
    | .ok t lx' => ⟨t, lx.pending != [[]]⟩ :: given moves lx'
    | .error _ lx' => given moves lx'
  | .skip :: moves, lx => given moves (lx.after skipGroup)

namespace Given

/-- The `#` of a directive that has ended a group. -/
def isHash (g : Given) : Bool :=
  g.waited && g.token.isHash

/-- The name of a directive that has ended a group. -/
def isDivider (g : Given) : Bool :=
  g.waited && g.token.isDivider

end Given

namespace Numbering

/-- How tokens are numbered from a point on where the next number is `n` and tokens of `held` are
pending. -/
structure Ordered (held : List Token) (n : Int) (gs : List Given) : Prop where
  later : ∀ g ∈ gs, n ≤ g.token.index ∨ g.waited = true ∧ g.token ∈ held
  /-- Nothing is read while the end of a group waits. -/
  first : held ≠ [] → ∀ g ∈ gs.head?, g.isHash ∨ g.isDivider ∧ g.token ∈ held
  distinct : gs.Pairwise fun a b => a.token.index ≠ b.token.index
  ordered : gs.Pairwise fun a b => a.token.index < b.token.index ∨ a.isHash ∧ b.isDivider
  adjacent : gs.IsChain fun a b => b.token.index < a.token.index ↔ a.isHash ∧ b.isDivider

variable {held : List Token} {n : Int} {lx : Lexer} {gs : List Given} {t : Token}

theorem not_isDivider_of_isHash {g : Given} (h : g.isHash = true) : ¬ g.isDivider = true := by
  intro hdivider
  rw [Given.isHash, Bool.and_eq_true, Token.isHash, Token.isPunctuator, beq_iff_eq] at h
  rw [Given.isDivider, Token.isDivider, h.2] at hdivider
  simp at hdivider

theorem Passing.waits (h : Passing held n lx) : (lx.pending != [[]]) = !held.isEmpty := by
  rcases h.waiting with ⟨w, hpending, hsuffix, hlast⟩
  rw [hpending]
  cases w with
  | nil => rw [hlast rfl]; rfl
  | cons t w =>
      cases held with
      | nil => cases List.suffix_nil.mp hsuffix
      | cons => rfl

theorem ordered_nil : Ordered held n [] :=
  ⟨by simp, by simp, .nil, .nil, .nil⟩

theorem Ordered.cons_smaller {m : Int} (h : Ordered [] m gs) (hlt : t.index < m) (waited : Bool)
    (hhash : Given.isHash ⟨t, waited⟩ = false) :
    (⟨t, waited⟩ :: gs).Pairwise (fun a b => a.token.index ≠ b.token.index) ∧
      (⟨t, waited⟩ :: gs).Pairwise (fun a b => a.token.index < b.token.index ∨
        a.isHash ∧ b.isDivider) ∧
      (⟨t, waited⟩ :: gs).IsChain (fun a b => b.token.index < a.token.index ↔
        a.isHash ∧ b.isDivider) := by
  have hless : ∀ g ∈ gs, t.index < g.token.index := by
    intro g hg
    rcases h.later g hg with hle | ⟨-, hmem⟩
    · exact Int.lt_of_lt_of_le hlt hle
    · cases hmem
  refine ⟨List.pairwise_cons.mpr ⟨fun g hg => Int.ne_of_lt (hless g hg), h.distinct⟩,
    List.pairwise_cons.mpr ⟨fun g hg => Or.inl (hless g hg), h.ordered⟩,
    List.isChain_cons.mpr ⟨fun g hg => ?_, h.adjacent⟩⟩
  refine iff_of_false (Int.lt_asymm (hless g (List.mem_of_mem_head? hg))) fun h => ?_
  exact absurd h.1 (by simp [hhash])

theorem Ordered.cons_fresh (h : Ordered [] (t.index + 1) gs) (hle : n ≤ t.index) :
    Ordered [] n (⟨t, false⟩ :: gs) := by
  rcases h.cons_smaller (Int.lt_succ t.index) false rfl with ⟨hdistinct, hordered, hadjacent⟩
  refine ⟨fun g hg => ?_, fun hne => absurd rfl hne, hdistinct, hordered, hadjacent⟩
  rcases List.mem_cons.mp hg with rfl | hg
  · exact Or.inl hle
  · exact (h.later g hg).imp_left fun h => by omega

theorem Ordered.cons_name (h : Ordered [] n gs) (hheld : Waiting n held)
    (hlast : held.getLast? = some t) : Ordered held n (⟨t, true⟩ :: gs) := by
  rcases hheld.name_last hlast with ⟨hdivider, hbelow, hmem⟩
  have hhash : Given.isHash ⟨t, true⟩ = false := by
    rw [← Bool.not_eq_true]
    exact fun h => not_isDivider_of_isHash h hdivider
  rcases h.cons_smaller hbelow true hhash with ⟨hdistinct, hordered, hadjacent⟩
  refine ⟨fun g hg => ?_, fun _ g hg => ?_, hdistinct, hordered, hadjacent⟩
  · rcases List.mem_cons.mp hg with rfl | hg
    · exact Or.inr ⟨rfl, hmem⟩
    · exact Or.inl ((h.later g hg).resolve_right fun h => by cases h.2)
  · cases Option.some.inj hg
    exact Or.inr ⟨hdivider, hmem⟩

/-- The `#` of a directive in front of its name. -/
theorem Ordered.cons_hash {hash name : Token} (h : Ordered [name] n gs)
    (hwaiting : Waiting n [hash, name]) : Ordered [hash, name] n (⟨hash, true⟩ :: gs) := by
  cases hwaiting with
  | pair is_hash divider order below =>
    have hhash : Given.isHash ⟨hash, true⟩ = true := is_hash
    have hlater : ∀ g ∈ gs, hash.index < g.token.index ∨ g.isDivider ∧ g.token = name := by
      intro g hg
      rcases h.later g hg with hle | ⟨hwaited, hmem⟩
      · exact Or.inl (Int.lt_of_lt_of_le below hle)
      · cases List.mem_singleton.mp hmem
        exact Or.inr ⟨by rw [Given.isDivider, hwaited]; exact divider, rfl⟩
    constructor
    · intro g hg
      rcases List.mem_cons.mp hg with rfl | hg
      · exact Or.inr ⟨rfl, List.mem_cons_self⟩
      · exact (h.later g hg).imp_right fun h => ⟨h.1, List.mem_cons_of_mem _ h.2⟩
    · rintro - g hg
      cases Option.some.inj hg
      exact Or.inl hhash
    · refine List.pairwise_cons.mpr ⟨fun g hg => ?_, h.distinct⟩
      rcases hlater g hg with hlt | ⟨-, hname⟩
      · exact Int.ne_of_lt hlt
      · dsimp only
        rw [hname]
        omega
    · refine List.pairwise_cons.mpr ⟨fun g hg => ?_, h.ordered⟩
      exact (hlater g hg).imp_right fun h => ⟨hhash, h.1⟩
    · refine List.isChain_cons.mpr ⟨fun g hg => ?_, h.adjacent⟩
      rcases h.first (by simp) g hg with hg' | ⟨hdivider, hmem⟩
      · rcases hlater g (List.mem_of_mem_head? hg) with hlt | ⟨hdivider, -⟩
        · exact iff_of_false (Int.lt_asymm hlt) fun h => not_isDivider_of_isHash hg' h.2
        · exact absurd hdivider (not_isDivider_of_isHash hg')
      · cases List.mem_singleton.mp hmem
        exact ⟨fun _ => ⟨hhash, hdivider⟩, fun _ => order⟩

theorem Ordered.of_answered {hash : Token} (h : Ordered [hash, t] (hash.index + 1) gs)
    (hwaiting : Waiting (hash.index + 1) [hash, t]) (hle : n ≤ hash.index)
    (hmem : t ∈ held ∨ held = [] ∧ n ≤ t.index) : Ordered held n gs := by
  cases hwaiting with
  | pair is_hash divider order below =>
    refine ⟨fun g hg => ?_, fun hne g hg => ?_, h.distinct, h.ordered, h.adjacent⟩
    · rcases h.later g hg with hlater | ⟨hwaited, hg'⟩
      · exact Or.inl (by omega)
      · rcases List.mem_pair.mp hg' with heq | heq
        · exact Or.inl (heq ▸ hle)
        · rw [heq]
          exact hmem.elim (fun h => Or.inr ⟨hwaited, h⟩) fun h => Or.inl h.2
    · rcases h.first (by simp) g hg with hhash | ⟨hdivider, hg'⟩
      · exact Or.inl hhash
      · rcases List.mem_pair.mp hg' with heq | heq
        · refine Or.inl ?_
          rw [Given.isDivider, Bool.and_eq_true] at hdivider
          rw [Given.isHash, hdivider.1, heq]
          exact is_hash
        · refine Or.inr ⟨hdivider, ?_⟩
          rw [heq]
          exact hmem.resolve_right fun h => hne h.1

theorem passing_or_answered (hheld : Waiting n held) (h : Passing held n lx) :
    Passing held n (lx.after skipGroup) ∨ Answered held n (lx.after skipGroup) := by
  have hrun := leads_skipGroup hheld lx h
  unfold Lexer.after
  cases hskip : skipGroup lx with
  | ok u lx' =>
      rw [hskip] at hrun
      exact hrun
  | error f lx' =>
      rw [hskip] at hrun
      exact Or.inl hrun

theorem ordered_given (moves : List Move) (h : Passing held n lx) (hheld : Waiting n held) :
    Ordered held n (given moves lx) := by
  induction moves generalizing lx held n with
  | nil => exact ordered_nil
  | cons move moves ih =>
      cases move with
      | skip =>
          rw [given]
          rcases passing_or_answered hheld h with hpassing | hanswered
          · exact ih hpassing hheld
          · rcases hanswered with ⟨hash, t, hwaiting, hle, hmem, hpassing⟩
            exact (ih hpassing hwaiting).of_answered hwaiting hle hmem
      | next =>
          have hrun := leads_nextToken hheld lx h
          rw [given, h.waits]
          cases hnext : nextToken lx with
          | error f lx' =>
              rw [hnext] at hrun
              exact ih hrun hheld
          | ok t lx' =>
              rw [hnext] at hrun
              dsimp only at hrun ⊢
              cases hrun with
              | fresh empty later rest =>
                  subst empty
                  exact (ih rest .none).cons_fresh later
              | hash pair rest =>
                  subst pair
                  cases hheld with
                  | pair is_hash divider order below =>
                    have hrest := ih rest (.name divider (Int.lt_trans order below))
                    exact hrest.cons_hash (.pair is_hash divider order below)
              | name last rest =>
                  have hwaited : (!held.isEmpty) = true := by
                    simpa using List.ne_nil_of_mem (hheld.name_last last).2.2
                  rw [hwaited]
                  exact (ih rest .none).cons_name hheld last

end Numbering

open CLex.Numbering

/-- Tokens are read and groups passed over in any order. No two tokens that are given have the same
number, and each has a larger one than those before it, but for the directive that has ended a
group: its name has a smaller number than the `#` that is given just before it. -/
theorem given_index {lx : Lexer} {source : Source} (hfiles : lx.stream.files = [source])
    (hpending : lx.pending = [[]]) (moves : List Move) :
    (given moves lx).Pairwise (fun a b => a.token.index ≠ b.token.index) ∧
      (given moves lx).Pairwise (fun a b => a.token.index < b.token.index ∨
        a.isHash ∧ b.isDivider) ∧
      (given moves lx).IsChain (fun a b => b.token.index < a.token.index ↔
        a.isHash ∧ b.isDivider) := by
  have h : Passing [] source.tokens lx :=
    ⟨⟨source, hfiles, Int.le_refl _⟩, [], hpending, List.nil_suffix, fun _ => rfl⟩
  have hordered := ordered_given moves h .none
  exact ⟨hordered.distinct, hordered.ordered, hordered.adjacent⟩

theorem given_index_group :
    let text := Utf8.encode "a\n#if x\nb\n#endif\nc\n#else\nd"
    let lx := Lexer.ofStream (Stream.ofSources [.ofBytes "t.c" text])
    let moves := [.next, .next, .skip, .next, .next, .next, .next]
    (given moves lx).map (fun g => (g.token.lexeme, g.token.index)) =
        [(.ident "a", 0), (.newline, 1), (.punctuator .hash, 5), (.ident "else", 4), (.newline, 6),
          (.ident "d", 7)] ∧
      (given moves lx).Pairwise (fun a b => a.token.index < b.token.index ∨
        a.isHash ∧ b.isDivider) := by
  intro text lx moves
  exact ⟨by decide +kernel, (given_index rfl rfl moves).2.1⟩

/-- The end of a group is all that there is, and its two tokens are numbered backwards. -/
theorem given_index_backwards :
    let lx := Lexer.ofStream (Stream.ofSources [.ofBytes "t.c" (Utf8.encode "#endif\n")])
    (given [.skip, .next, .next] lx).map (fun g => (g.token.lexeme, g.token.index)) =
        [(.punctuator .hash, 1), (.ident "endif", 0)] ∧
      ¬ (given [.skip, .next, .next] lx).Pairwise fun a b => a.token.index < b.token.index := by
  decide +kernel

end CLex
