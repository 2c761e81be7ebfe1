import CLex.Proofs.Directives
import CLex.Proofs.Reading
import CLex.Proofs.Simulation.Group
import CLex.Proofs.Skipping

namespace CLex

open Character Lexer Lines Reading Placing

namespace Skipping

variable {sheet : Sheet} {read rest : List UInt8} {s s' t t₁ t₂ t₃ : Lexer Book} {q : Page}
  {a b : Token} {depth : Nat} {hash : HashMark} {spelled : String} {spaced : Bool}

theorem At.stands (h : At sheet rest t) (htext : sheet.text = read ++ rest) :
    ∃ q, Stands sheet read [] t q ∧ q.rest = rest := by
  rcases h with ⟨read', q, ht, rfl⟩
  exact ⟨q, List.append_cancel_right (ht.placed.text_eq.symm.trans htext) ▸ ht, rfl⟩

theorem pass_hash (h : Stands sheet read [] t q) (hq : q.rest = byte '#' :: rest)
    (hmiddle : 1 < (placeAfter read).2) (depth : Nat) :
    ∃ t', At sheet rest t' ∧ group depth t = group depth t' := by
  have hlook : At sheet (byte '#' :: rest) (t.withPages [q.look]) := by
    rw [← hq, ← Page.rest_look q]
    exact at_of_stands (stands_look h)
  refine pass_char (skipBlanks_cons h.pages h.settled hq (by decide) (by decide)) hlook (by decide)
    (fun _ => ?_) depth
  rw [location_pages h.pages]
  show q.column ≠ 1
  rcases h.placed.column with hcolumn | hnear
  · omega
  · exact absurd (hq ▸ hnear) not_near_hash

theorem directive_other (hnext : nextToken t = .ok b t₁)
    (hname : ∀ spelled, b.lexeme ≠ .ident spelled) :
    directive hash depth t = .ok (.again depth) t₁ := by
  rw [directive, LexM.bind_of_ok hnext]
  cases hlexeme : b.lexeme with
  | ident spelled => exact absurd hlexeme (hname spelled)
  | _ => rfl

theorem directive_pass (hnext : nextToken t = .ok b t₁) (hname : b.lexeme = .ident spelled)
    (hpass : ¬ (depth = 0 ∧ divides spelled)) (hskip : skipLine t₁ = .ok () t₂) :
    directive hash depth t = .ok (.again (depthAfter spelled depth)) t₂ := by
  rw [directive, LexM.bind_of_ok hnext, hname]
  dsimp only
  rw [if_neg hpass, LexM.bind_of_ok hskip]
  rfl

theorem hashToken_ok (hash : HashMark) (t : Lexer Book) :
    ∃ h t', hashToken hash t = .ok h t' ∧ t'.pending = t.pending ∧
      h.lexeme = .punctuator .hash ∧ h.line = hash.place.line ∧ h.column = hash.place.column := by
  unfold hashToken
  split
  · exact ⟨_, _, rfl, rfl, rfl, rfl, rfl⟩
  · exact ⟨_, _, rfl, rfl, rfl, rfl, rfl⟩

theorem directive_stop_of_hash {h : Token} (hnext : nextToken t = .ok b t₁)
    (hname : b.lexeme = .ident spelled) (hstop : depth = 0 ∧ divides spelled)
    (hpending : t₁.pending = [[]]) (hhash : hashToken hash { t₁ with pending := [[b]] } = .ok h t₂)
    (hlexeme : h.lexeme = .punctuator .hash) (hpending₂ : t₂.pending = [[b]]) :
    directive hash depth t = .ok (.done ()) { t₂ with pending := [[h, b]] } := by
  have hpush : pushBack b t₁ = .ok () { t₁ with pending := [[b]] } := by
    rw [pushBack, Token.isEnd, hname, hpending]
    rfl
  have hpush' : pushBack h t₂ = .ok () { t₂ with pending := [[h, b]] } := by
    rw [pushBack, Token.isEnd, hlexeme, hpending₂]
    rfl
  rw [directive, LexM.bind_of_ok hnext, hname]
  dsimp only
  rw [if_pos hstop, LexM.bind_of_ok hpush, LexM.bind_of_ok hhash, LexM.bind_of_ok hpush']
  rfl

theorem directive_stop (hash : HashMark) (hnext : nextToken t = .ok b t₁)
    (hname : b.lexeme = .ident spelled) (hstop : depth = 0 ∧ divides spelled)
    (hpending : t₁.pending = [[]]) :
    ∃ h t', directive hash depth t = .ok (.done ()) t' ∧ t'.pending = [[h, b]] ∧
      h.lexeme = .punctuator .hash ∧ h.line = hash.place.line ∧ h.column = hash.place.column := by
  rcases hashToken_ok hash { t₁ with pending := [[b]] } with
    ⟨h, t₂, hhash, hpending₂, hlexeme, hplace⟩
  exact ⟨h, _, directive_stop_of_hash hnext hname hstop hpending hhash hlexeme hpending₂, rfl,
    hlexeme, hplace⟩

/-- How the group ends: before the directive with this `#`, whose tokens are pending, or at the end
of the text. -/
def Ended (sheet : Sheet) (hash? : Option Token)
    (r : EStateM.Result Failure (Lexer Book) Unit) : Prop :=
  ∃ t, r = .ok () t ∧
    match hash? with
    | some hash => ∃ h name, t.pending = [[h, name]] ∧ h.lexeme = .punctuator .hash ∧
        h.line = hash.line ∧ h.column = hash.column
    | none => At sheet [] t

/-- The same is left to be found, by the tokens from `s'` on and by the rounds from `t'` on. -/
structure Onward (sheet : Sheet) (depth : Nat) (s t : Lexer Book) (deeper : Nat)
    (s' t' : Lexer Book) : Prop where
  beside : ∃ rest, At sheet rest s' ∧ At sheet rest t'
  ok : s'.listing.failure = none
  less : s'.weight < s.weight
  groupEnd_eq : groupEnd? sheet.text depth s.listing.tokens =
    groupEnd? sheet.text deeper s'.listing.tokens
  directives_mem : ∀ d ∈ directives sheet.text deeper s'.listing.tokens,
    d ∈ directives sheet.text depth s.listing.tokens
  group_eq : group depth t = group deeper t'

/-- The group ends, or it goes on. -/
def Goes (sheet : Sheet) (depth : Nat) (s t : Lexer Book) : Prop :=
  Ended sheet (groupEnd? sheet.text depth s.listing.tokens) (group depth t) ∨
    ∃ deeper s' t', Onward sheet depth s t deeper s' t'

theorem goes_idle {tokens : List Token} (hlist : Lists s tokens s')
    (hidle : ∀ x ∈ tokens, Idle sheet.text x) (hs : At sheet rest s')
    (h : ∃ t', At sheet rest t' ∧ group depth t = group depth t') : Goes sheet depth s t := by
  rcases h with ⟨t', ht, hgroup⟩
  refine Or.inr ⟨depth, s', t', ⟨rest, hs, ht⟩, hlist.ok, hlist.less, ?_, ?_, hgroup⟩
  · rw [hlist.tokens_eq, groupEnd?_append hidle]
  · rw [hlist.tokens_eq, directives_append hidle]
    exact fun d hd => hd

theorem goes_name {p : Page} {s₁ : Lexer Book} (hs : Stands sheet read [] s₁ p)
    (ht : Stands sheet read [] t₁ q) (hmiddle : 1 < (placeAfter read).2)
    (hline : b.line = (placeAfter read).1) (hlist : Lists s [a, b] s₁)
    (hname : directiveName? sheet.text a b = some spelled)
    (hpass : ¬ (depth = 0 ∧ divides spelled))
    (hends : ∀ d ∈ directives sheet.text depth s.listing.tokens, EndsOnLine d)
    (hgroup : ∀ t₂, skipLine t₁ = .ok () t₂ →
      group depth t = group (depthAfter spelled depth) t₂) :
    Goes sheet depth s t := by
  have hgroupEnd := groupEnd?_some hname depth s₁.listing.tokens
  have hdirectives := directives_some hname depth s₁.listing.tokens
  rw [if_neg hpass] at hgroupEnd hdirectives
  have htokens : s.listing.tokens = a :: b :: s₁.listing.tokens := hlist.tokens_eq
  rw [← htokens] at hgroupEnd hdirectives
  have hnewline : newlineLine? s₁.listing.tokens = some (placeAfter read).1 := by
    rw [← hline]
    exact hends (b, s₁.listing.tokens) (hdirectives ▸ List.mem_cons_self)
  rcases to_newline hs hlist.ok hmiddle hnewline with
    ⟨v, tokens, s', p', hv, hrest, hs', hlist', hidle⟩
  have hat : At sheet (v ++ newline :: p'.rest) t₁ :=
    ⟨read, q, ht, by rw [← hs.rest_eq ht, hrest]⟩
  rcases skipLine_line hv hat with ⟨t₂, hskip, ht₂⟩
  rcases pass_newline ht₂ (depthAfter spelled depth) with ⟨t', ht', hgroup'⟩
  refine Or.inr ⟨depthAfter spelled depth, s', t', ⟨_, at_of_stands hs', ht'⟩, hlist'.ok,
    hlist'.less.trans hlist.less, ?_, ?_, (hgroup t₂ hskip).trans hgroup'⟩
  · rw [hgroupEnd, hlist'.tokens_eq, groupEnd?_append hidle]
  · rw [hdirectives, hlist'.tokens_eq, directives_append hidle]
    exact fun d hd => List.mem_cons_of_mem _ hd

theorem Taken.middle {blanks w : List UInt8} {p first p' : Page}
    (h : Taken sheet read blanks w s b s' p first p') (hname : b.lexeme = .ident spelled) :
    b.line = (placeAfter (read ++ blanks ++ w)).1 ∧ 1 < (placeAfter (read ++ blanks ++ w)).2 := by
  have hfirst := h.first_eq
  rcases h.begun (by rw [hname]; exact Lexeme.noConfusion) with ⟨c, text, hrest, written⟩
  rw [hname] at written
  rcases written_name written with ⟨hc, v, htext, hv⟩
  rw [hrest, htext] at hfirst
  have hw : (c :: v) ++ p'.rest = w ++ p'.rest := hfirst
  have hnot : newline ∉ c :: v := by
    rw [List.mem_cons, not_or]
    exact ⟨Ne.symm hc, hv⟩
  rw [← List.append_cancel_right hw]
  refine ⟨?_, one_lt_column hnot (List.cons_ne_nil c v) _⟩
  rw [placeAfter_append hnot, h.line_eq]

theorem goes_nameless {blanks w : List UInt8} {p first first' p' q' : Page} {s'' : Lexer Book}
    {b' : Token} (taken : Taken sheet read blanks w s' b s'' p first p')
    (taken' : Taken sheet read blanks w t₁ b' t₂ q first' q') (hlist : Lists s [a] s')
    (hcases : b.lexeme = .eof ∧ s'.listing.tokens = [b] ∨ b.lexeme ≠ .eof ∧ Lists s' [b] s'')
    (hlexeme : b'.lexeme = b.lexeme) (hother : directiveName? sheet.text a b = none)
    (hidle : Idle sheet.text b) (hgroup : group depth t = group depth t₂) :
    Goes sheet depth s t := by
  rcases hcases with ⟨hend, htokens⟩ | ⟨-, hlist'⟩
  · have hat : At sheet [] t₂ :=
      (taken'.ended (hlexeme.trans hend)).2 ▸ at_of_stands taken'.stop
    have htokens' : s.listing.tokens = [a, b] := by
      rw [hlist.tokens_eq, htokens]
      rfl
    refine Or.inl ⟨t₂, hgroup.trans (group_end hat.skipBlanks_end hat depth), ?_⟩
    rw [htokens', groupEnd?_none hother]
    exact hat
  · have htokens : s.listing.tokens = a :: b :: s''.listing.tokens :=
      (hlist.trans hlist').tokens_eq
    refine Or.inr ⟨depth, s'', t₂, ⟨_, at_of_stands taken.stop, ?_⟩, hlist'.ok,
      hlist'.less.trans hlist.less, ?_, ?_, hgroup⟩
    · rw [taken.stop.rest_eq taken'.stop]
      exact at_of_stands taken'.stop
    · rw [htokens, groupEnd?_none hother, groupEnd?_cons hidle]
    · rw [htokens, directives_none hother, directives_cons hidle]
      exact fun d hd => hd

theorem goes_directive {p : Page} (hs : Stands sheet read [] s' p) (ht : Stands sheet read [] t₁ q)
    (hmiddle : 1 < (placeAfter read).2) (hlist : Lists s [a] s')
    (hhash : ∀ b spelled, b.lexeme = .ident spelled →
      directiveName? sheet.text a b = some spelled)
    (hround : groupRound depth t = directive hash depth t₁) (hline : hash.place.line = a.line)
    (hcolumn : hash.place.column = a.column)
    (hends : ∀ d ∈ directives sheet.text depth s.listing.tokens, EndsOnLine d) :
    Goes sheet depth s t := by
  rcases listing_cases hlist.ok with ⟨b, s'', hb, hcases⟩
  rcases nextToken_level hs ht hb with
    ⟨blanks, w, b', t₂, first, first', p', q', taken, hb', hlexeme, taken'⟩
  by_cases hname : ∃ spelled, b.lexeme = .ident spelled
  · rcases hname with ⟨spelled, hname⟩
    have hname' : b'.lexeme = .ident spelled := hlexeme.trans hname
    have hlist' : Lists s [a, b] s'' := by
      refine hlist.trans (hcases.resolve_left fun h => ?_).2
      rw [hname] at h
      cases h.1
    by_cases hstop : depth = 0 ∧ divides spelled
    · rcases directive_stop hash hb' hname' hstop taken'.stop.pending with
        ⟨h, t₃, hdone, hpending, hh, hhline, hhcolumn⟩
      have hgroupEnd := groupEnd?_some (hhash b spelled hname) depth s''.listing.tokens
      rw [if_pos hstop] at hgroupEnd
      refine Or.inl ⟨t₃, ?_, ?_⟩
      · rw [group, LexM.loop_eq, hround, hdone]
      · rw [show s.listing.tokens = a :: b :: s''.listing.tokens from hlist'.tokens_eq, hgroupEnd]
        exact ⟨h, b', hpending, hh, hhline.trans hline, hhcolumn.trans hcolumn⟩
    · rcases Taken.middle taken hname with ⟨hbline, hbmiddle⟩
      refine goes_name taken.stop taken'.stop hbmiddle hbline hlist' (hhash b spelled hname) hstop
        hends fun t₃ hskip => group_again ?_
      rw [hround, directive_pass hb' hname' hstop hskip]
  · have hgroup : group depth t = group depth t₂ := group_again
      (hround.trans (directive_other hb' fun spelled h => hname ⟨spelled, hlexeme.symm.trans h⟩))
    exact goes_nameless taken taken' hlist hcases hlexeme
      (directiveName?_of_ne_ident fun spelled h => hname ⟨spelled, h⟩)
      (taken.idle (Or.inr hmiddle)) hgroup

/-- Two `#` are one token, but only the first of them is looked at in a group. -/
theorem goes_hashHash {p : Page}
    (hs : Stands sheet (read ++ [byte '#', byte '#']) [] s' p)
    (ht : Stands sheet (read ++ [byte '#']) [] t₁ q) (hlist : Lists s [a] s')
    (hidle : Idle sheet.text a) (hround : groupRound depth t = directive hash depth t₁) :
    Goes sheet depth s t := by
  have hq : q.rest = byte '#' :: p.rest := by
    have htext := ht.placed.text_eq.symm.trans hs.placed.text_eq
    rw [List.append_assoc, List.append_assoc] at htext
    exact (List.cons.inj (List.append_cancel_left htext)).2
  rcases nextToken_hash_ok ht hq with ⟨b, t₂, hb⟩
  rcases taken_of_nextToken ht hb with ⟨blanks, w, first, q', taken⟩
  rcases taken.blanks_eq hq with ⟨rfl, hfirst⟩
  have hother : ∀ {punctuator : Punctuator}, b.lexeme = .punctuator punctuator →
      group depth t = group depth t₂ := by
    intro punctuator hlexeme
    refine group_again (hround.trans (directive_other hb fun spelled h => ?_))
    rw [hlexeme] at h
    cases h
  rcases taken.hash hfirst with ⟨hlexeme, -, hrest⟩ | ⟨hlexeme, rfl, hrest⟩
  · refine goes_idle hlist ?_ (at_of_stands hs) ⟨t₂, ?_, hother hlexeme⟩
    · exact fun x hx => List.mem_singleton.mp hx ▸ hidle
    · rw [← hrest]
      exact at_of_stands taken.stop
  · -- The rounds are ahead by one `#`, which is the next token or the beginning of it.
    rcases listing_cases hlist.ok with ⟨d, s'', hd, hcases⟩
    rcases taken_of_nextToken hs hd with ⟨blanks', w', first', p', taken'⟩
    rcases taken'.blanks_eq hrest with ⟨rfl, hfirst'⟩
    have hidle' : Idle sheet.text d :=
      taken'.idle (Or.inr (one_lt_column (by decide) (by simp) read))
    have hlist' : Lists s' [d] s'' := by
      refine (hcases.resolve_left fun h => ?_).2
      rw [(taken'.ended h.1).1] at hfirst'
      cases hfirst'
    refine goes_idle (hlist.trans hlist') ?_ (at_of_stands taken'.stop) ?_
    · rintro x hx
      rcases List.mem_cons.mp hx with rfl | hx
      · exact hidle
      · exact List.mem_singleton.mp hx ▸ hidle'
    · rcases taken'.hash hfirst' with ⟨-, -, hrest'⟩ | ⟨-, -, hrest'⟩
      · refine ⟨t₂, ?_, hother hlexeme⟩
        rw [hrest']
        exact at_of_stands taken.stop
      · have hstands := taken.stop
        rw [List.append_assoc, List.append_assoc] at hstands
        rcases pass_hash hstands hrest' (one_lt_column (by decide) (by simp) read) depth with
          ⟨t', ht', hgroup⟩
        exact ⟨t', ht', (hother hlexeme).trans hgroup⟩

section Token

variable {blanks w text : List UInt8} {p first first' p' q' : Page}

theorem goes_hash_start (taken : Taken sheet read blanks w s a s' p first p')
    (taken' : Taken sheet read blanks w t b t' q first' q')
    (hfirst : first.rest = byte '#' :: text) (hfirst' : first'.rest = byte '#' :: text)
    (hlist : Lists s [a] s') (hstart : (placeAfter read).2 = 1)
    (hends : ∀ d ∈ directives sheet.text depth s.listing.tokens, EndsOnLine d) :
    Goes sheet depth s t := by
  rcases taken'.begins with ⟨spaced, t₁, hblanks, ht₁⟩
  have hcolumn := taken.column_of_hash hfirst
  have hcolumn' := taken'.column_of_hash hfirst'
  have hlocation : (CharStream.location t.stream).column = 1 := by
    rw [location_pages taken'.start.pages]
    exact hcolumn'.1.trans hstart
  rcases groupRound_hash hblanks ht₁ hfirst' hlocation depth with
    ⟨hash, t₂, q₂, hround, ht₂, hhline, hhcolumn⟩
  rcases taken.hash hfirst with ⟨hlexeme, rfl, -⟩ | ⟨hlexeme, rfl, -⟩
  · have hstartsLine : a.startsLine = true := by
      rw [taken.startsLine, hcolumn.1, hstart]
      rfl
    refine goes_directive taken.stop ht₂ (one_lt_column (by decide) (by simp) _) hlist
      (fun b spelled hb => ?_) hround ?_ ?_ hends
    · exact taken.directiveName?_eq hfirst hlexeme hstartsLine hb
    · rw [hhline, ht₁.placed.line, taken.line_eq]
    · rw [hhcolumn, hcolumn'.2, taken.column, hcolumn.2]
  · exact goes_hashHash taken.stop ht₂ hlist (idle_of_lexeme (by rw [hlexeme]; simp)) hround

theorem pass_hash_middle (taken : Taken sheet read blanks w t b t' q first' q')
    (hfirst : first'.rest = byte '#' :: text) (hmiddle : 1 < (placeAfter read).2) (depth : Nat) :
    ∃ t₂, At sheet q'.rest t₂ ∧ group depth t = group depth t₂ := by
  rcases taken.begins with ⟨spaced, t₁, hblanks, ht₁⟩
  have hlocation : (CharStream.location t.stream).column ≠ 1 := by
    rw [location_pages taken.start.pages]
    show q.column ≠ 1
    rw [(taken.column_of_hash hfirst).1]
    omega
  have hat : At sheet (byte '#' :: text) t₁ := hfirst ▸ at_of_stands ht₁
  rcases pass_char hblanks hat (by decide) (fun _ => hlocation) depth with ⟨t₂, ht₂, hgroup⟩
  rcases taken.hash hfirst with ⟨-, -, rfl⟩ | ⟨-, -, rfl⟩
  · exact ⟨t₂, ht₂, hgroup⟩
  · have htext := ht₁.placed.text_eq
    rw [hfirst] at htext
    rcases ht₂.stands (htext.trans (List.append_assoc _ [byte '#'] _).symm) with
      ⟨q₂, hstands, hq₂⟩
    rcases pass_hash hstands hq₂ (one_lt_column (by decide) (by simp) _) depth with
      ⟨t₃, ht₃, hgroup'⟩
    exact ⟨t₃, ht₃, hgroup.trans hgroup'⟩

end Token

theorem goes {p : Page} (hs : Stands sheet read [] s p) (ht : Stands sheet read [] t q)
    (hok : s.listing.failure = none)
    (hends : ∀ d ∈ directives sheet.text depth s.listing.tokens, EndsOnLine d) :
    Goes sheet depth s t := by
  rcases listing_cases hok with ⟨a, s', hnext, hcases⟩
  rcases nextToken_level hs ht hnext with
    ⟨blanks, w, b, t', first, first', p', q', taken, -, -, taken'⟩
  rcases taken'.begins with ⟨spaced, t₁, hblanks, ht₁⟩
  have hrest : first.rest = first'.rest :=
    List.append_cancel_left ((taken.rest_eq.symm.trans (hs.rest_eq ht)).trans taken'.rest_eq)
  rcases hcases with ⟨hend, htokens⟩ | ⟨hne, hlist⟩
  · have hat : At sheet [] t₁ := by
      rw [← (taken.ended hend).1, hrest]
      exact at_of_stands ht₁
    refine Or.inl ⟨t₁, group_end hblanks hat depth, ?_⟩
    rw [htokens]
    exact hat
  · rcases taken.begun hne with ⟨c, text, hfirst, written⟩
    have hfirst' : first'.rest = c :: text := hrest ▸ hfirst
    have idle : Idle sheet.text a →
        (∃ t', At sheet p'.rest t' ∧ group depth t = group depth t') → Goes sheet depth s t :=
      fun hidle => goes_idle hlist (fun x hx => List.mem_singleton.mp hx ▸ hidle)
        (at_of_stands taken.stop)
    by_cases hc : c = byte '#'
    · subst hc
      by_cases hstart : (placeAfter read).2 = 1
      · exact goes_hash_start taken taken' hfirst hfirst' hlist hstart hends
      · have hmiddle : 1 < (placeAfter read).2 := by
          have hone := one_le_column read
          omega
        refine idle (taken.idle (Or.inr hmiddle)) ?_
        rw [taken.stop.rest_eq taken'.stop]
        exact pass_hash_middle taken' hfirst' hmiddle depth
    · have hat : At sheet (c :: text) t₁ := hfirst' ▸ at_of_stands ht₁
      refine idle (taken.idle (Or.inl fun text' h => hc ?_)) (pass_token hblanks hat hc written depth)
      rw [hfirst] at h
      exact (List.cons.inj h).1

/-- The group ends where the tokens say that it ends. -/
theorem group_ended {p : Page} (hs : Stands sheet read [] s p) (ht : Stands sheet read [] t q)
    (hok : s.listing.failure = none)
    (hends : ∀ d ∈ directives sheet.text depth s.listing.tokens, EndsOnLine d) :
    Ended sheet (groupEnd? sheet.text depth s.listing.tokens) (group depth t) := by
  induction hn : s.weight using Nat.strongRecOn generalizing read s t p q depth with
  | ind n ih =>
      rcases goes hs ht hok hends with hended | ⟨deeper, s', t', onward⟩
      · exact hended
      · rcases onward.beside with ⟨rest, ⟨read', p', hs', rfl⟩, hat⟩
        rcases hat.stands hs'.placed.text_eq with ⟨q', ht', -⟩
        rw [onward.groupEnd_eq, onward.group_eq]
        exact ih s'.weight (hn ▸ onward.less) hs' ht' onward.ok
          (fun d hd => hends d (onward.directives_mem d hd)) rfl

theorem stands_fresh {stream : Stream} {source : Source} (hfiles : stream.files = [source])
    (hfresh : source.IsFresh) (options : Options)
    (hlines : Unjoined (canon (source.lend stream.console).input.remaining)) :
    Stands ⟨_, hlines, options⟩ [] [] (Lexer.ofStream stream options).book
      { name := source.name, rest := canon (source.lend stream.console).input.remaining } :=
  ⟨Stream.pages_single hfiles hfresh, rfl, rfl, rfl, rfl, List.nil_suffix, rfl, Or.inl rfl⟩

theorem At.pending_eq (h : At sheet rest s) : s.pending = [[]] := by
  rcases h with ⟨read, p, h, -⟩
  exact h.pending

theorem At.readToEnd_nil {lx : Lexer} (h : At sheet [] lx.book) : lx.stream.readToEnd.1 = [] := by
  rcases h with ⟨read, p, h, hrest⟩
  have hpages : lx.stream.book.pages = [p] := h.pages
  rw [Stream.textOf_readToEnd, hpages]
  simp [Book.textOf, hrest]

end Skipping

open Skipping

/-- The lexer stands before a directive, the tokens of which are pending, or at the end of input. -/
def EndsGroup (lx : Lexer) : Option Token → Prop
  | some hash => ∃ h name, lx.pending = [[h, name]] ∧ h.lexeme = .punctuator .hash ∧
      h.line = hash.line ∧ h.column = hash.column
  | none => lx.pending = [[]] ∧ lx.stream.readToEnd.1 = []

/-- If no line of a source ends in a backslash, its tokens are read without a failure, and every
directive that a group passes over ends on its line, then the group at the beginning of the source
ends before the `#` at which its tokens say that it ends, and at the end of input if there is none. -/
theorem skipGroup_groupEnd {stream : Stream} {source : Source} (hfiles : stream.files = [source])
    (hfresh : source.IsFresh) (options : Options) :
    let text := canon (source.lend stream.console).input.remaining
    let lx := Lexer.ofStream stream options
    Unjoined text → lx.listing.failure = none →
      (∀ d ∈ directives text 0 lx.listing.tokens, EndsOnLine d) →
      ∃ lx', skipGroup lx = .ok () lx' ∧ EndsGroup lx' (groupEnd? text 0 lx.listing.tokens) := by
  intro text lx hlines hok hends
  have hroom : lx.stream.HasRoom 0 := (Stream.hasRoom_single hfiles hfresh).mono (Nat.zero_le 3)
  have hstands := stands_fresh hfiles hfresh options hlines
  have hbook : lx.book.listing = _ := Stack.listing_book lx hroom
  have hok' : lx.book.listing.failure = none := hbook ▸ hok
  have hends' : ∀ d ∈ directives text 0 lx.book.listing.tokens, EndsOnLine d := hbook ▸ hends
  rcases group_ended hstands hstands hok' hends' with ⟨t, hgroup, hcase⟩
  rw [hbook] at hcase
  have hskip : skipGroup lx.book = .ok () t := by
    rw [skipGroup, LexM.bind_of_ok (needSource_pages hstands.pages)]
    exact hgroup
  rcases Stack.skipGroup_book hroom hskip with ⟨lx', hlx', rfl, -⟩
  refine ⟨lx', hlx', ?_⟩
  cases hgroupEnd : groupEnd? text 0 lx.listing.tokens with
  | some hash =>
      rw [hgroupEnd] at hcase
      exact hcase
  | none =>
      rw [hgroupEnd] at hcase
      have hend : At (Sheet.mk _ hlines options) [] lx'.book := hcase
      exact ⟨hend.pending_eq, hend.readToEnd_nil⟩

theorem skipGroup_groupEnd_nested :
    let text := bytes "/*\n#else*/\n#if a\n#endif\n'#' #\n #endif\n#endif b\n".toList
    let lx := Lexer.ofStream (Stream.ofSources [.ofBytes "t.c" text])
    ∃ lx' h name, skipGroup lx = .ok () lx' ∧ lx'.pending = [[h, name]] ∧
      h.lexeme = .punctuator .hash ∧ h.line = 6 ∧ h.column = 2 := by
  intro text lx
  have hfiles : lx.stream.files = [.ofBytes "t.c" text] := rfl
  rcases skipGroup_groupEnd hfiles (Source.isFresh_ofBytes _ _) {}
    (by decide +kernel) (by decide +kernel) (by decide +kernel) with ⟨lx', hskip, hends⟩
  have hgroupEnd : groupEnd? (canon text) 0 lx.listing.tokens = some
      { lexeme := .punctuator .hash, file := some "t.c", line := 6, column := 2, index := 11,
        spaced := true, startsLine := true } := by
    decide +kernel
  have hends' : EndsGroup lx' (groupEnd? (canon text) 0 lx.listing.tokens) := hends
  rw [hgroupEnd] at hends'
  rcases hends' with ⟨h, name, hend⟩
  exact ⟨lx', h, name, hskip, hend⟩

/-- A comment that begins on the line of a directive goes on beyond it. It is not seen there, and the
group ends in the middle of it, although the tokens have no other directive. -/
theorem skipGroup_comment_behind_directive :
    let text := bytes "#define X /*\n#endif\n*/\n".toList
    let lx := Lexer.ofStream (Stream.ofSources [.ofBytes "t.c" text])
    Unjoined (canon text) ∧ lx.listing.failure = none ∧
      groupEnd? (canon text) 0 lx.listing.tokens = none ∧
      (match skipGroup lx with
        | .ok _ lx' => lx'.pending.flatten.map fun t => (t.lexeme, t.line, t.column)
        | .error _ _ => []) = [(.punctuator .hash, 2, 1), (.ident "endif", 2, 2)] := by
  decide +kernel

end CLex
