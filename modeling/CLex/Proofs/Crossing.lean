import CLex.Proofs.Footing.Token
import CLex.Proofs.Reading
import CLex.Proofs.Simulation.Leaf
import CLex.Proofs.Tracking

namespace CLex

open Character Lexer LexM Lines Tracking

namespace Crossing

/-- A text with all its lines ended, none of them in a backslash. -/
structure Lined (text : List UInt8) : Prop where
  unjoined : Unjoined text
  ended : text.getLast? = some newline

structure Unread (p : Page) : Prop where
  lined : Lined p.rest
  line : p.line = 1
  column : p.column = 1

variable {text before mid rest : List UInt8} {c d : UInt8} {cs : List UInt8} {p p' q : Page}

theorem Lined.no_pairs {after : List UInt8} (h : Lined (before ++ mid ++ after))
    (hmid : join mid = []) : mid = [] := by
  rcases pairs_cases hmid with rfl | ⟨⟨w, rfl⟩, -⟩
  · rfl
  · have hchain : Unjoined (backslash :: newline :: (w ++ after)) := by
      refine (List.isChain_append.mp (?_ : Unjoined (before ++ _))).2.1
      have hall := h.unjoined
      rwa [List.append_assoc] at hall
    exact absurd ⟨rfl, rfl⟩ (List.isChain_cons_cons.mp hchain).1

theorem Lined.exists_cons (h : Lined text) : ∃ c rest, text = c :: rest := by
  cases text with
  | nil => cases h.ended
  | cons c rest => exact ⟨c, rest, rfl⟩

theorem Lined.suffix (h : Lined (before ++ c :: rest)) : Lined (c :: rest) := by
  refine ⟨(List.isChain_append.mp h.unjoined).2.1, ?_⟩
  rw [← h.ended, List.getLast?_append_cons]

theorem Lined.next (h : Lined (c :: rest)) (hc : c ≠ newline) :
    ∃ d rest', rest = d :: rest' ∧ Lined (d :: rest') := by
  cases rest with
  | nil =>
      have hlast := h.ended
      rw [List.getLast?_singleton, Option.some.injEq] at hlast
      exact absurd hlast hc
  | cons d rest =>
      have h' : Lined ([c] ++ d :: rest) := h
      exact ⟨d, rest, rfl, h'.suffix⟩

theorem Lined.trail {after : List UInt8} (h : Lined (mid ++ after)) (htrail : Trail (c :: cs) mid) :
    ∃ before, mid = before ++ [c] ∧ Trail cs before := by
  rcases htrail with ⟨before, pairs, rfl, hpairs, htrail⟩
  have hlined : Lined (before ++ [c] ++ pairs ++ after) := by simpa using h
  have hnil : pairs = [] := hlined.no_pairs hpairs
  exact ⟨before, by rw [hnil], htrail⟩

theorem read_ne_none_of_looked (hlined : Lined text) (h : Looked text (c :: cs) p) (hc : c ≠ newline) :
    (p.read true).1 ≠ none := by
  rcases h with ⟨before, h, htrail⟩
  intro hnone
  rcases h.read_none (Prod.ext hnone rfl) with ⟨hend, mid, hmid, h'⟩
  have htext := h'.text_eq
  rw [hend] at htext
  rw [htext] at hlined
  rcases hlined.trail (htrail.append hmid) with ⟨before', hlast, -⟩
  have hended := hlined.ended
  rw [List.append_nil, hlast, List.getLast?_concat, Option.some.injEq] at hended
  exact hc hended

theorem Unread.tracked (h : Unread p) : Tracked p.rest [] p := by
  refine ⟨rfl, ?_, h.line, Or.inl h.column⟩
  rintro ⟨hlast, -⟩
  cases hlast

theorem Unread.read (h : Unread p) : ∃ c p', p.read true = (some c, p') ∧ p'.name = p.name ∧
    Passed p.rest [] c p' := by
  cases hrest : p.rest with
  | nil =>
      have hlast := h.lined.ended
      rw [hrest] at hlast
      cases hlast
  | cons c rest =>
      have hsingle : ¬ (c = backslash ∧ rest.head? = some newline) := by
        have hchain := h.lined.unjoined
        rw [hrest, Unjoined, List.isChain_cons] at hchain
        exact fun hc => hchain.1 newline (by simpa using hc.2) ⟨hc.1, rfl⟩
      have hread := Page.read_cons hrest hsingle true
      refine ⟨c, _, hread, ?_, hrest ▸ h.tracked.get hrest hsingle⟩
      have hname := Page.name_read true p
      rwa [hread] at hname

/-- Of the characters behind which something has been looked at, those on the line that goes on. -/
def clean (cs : List UInt8) : List UInt8 :=
  cs.takeWhile (· != newline)

theorem clean_cons (hc : c ≠ newline) (cs : List UInt8) : clean (c :: cs) = c :: clean cs := by
  rw [clean, List.takeWhile_cons, if_pos (by simpa using hc)]
  rfl

theorem looked_clean (h : Looked text (c :: clean cs) p) : Looked text (clean (c :: cs)) p := by
  by_cases hc : c = newline
  · subst hc
    exact ⟨_, h.choose_spec.1, trivial⟩
  · rwa [clean_cons hc]

theorem looked_clean_single (h : Looked text (clean (c :: cs)) p) :
    Looked text (clean [c]) p := by
  by_cases hc : c = newline
  · subst hc
    exact h
  · rw [clean_cons hc] at h ⊢
    exact h.single

theorem looked_of_unread (h : Out text [] (d :: cs) p) : Looked text cs (p.putBack d) := by
  rcases h with ⟨before, h, htrail⟩ | ⟨-, ⟨hstray, -⟩, -⟩
  · exact ⟨before, h.putBack, htrail⟩
  · cases hstray

/-- The characters that may be put back behind the one that follows them. -/
def strays : List UInt8 :=
  [byte '/', byte '%', backslash]

/-- The first of the characters has just been read, behind the others. -/
def Seen (text : List UInt8) : List UInt8 → Page → Prop
  | [], _ => False
  | [d], p => Out text strays [d] p
  | d :: c :: cs, p => Out text [] (d :: clean (c :: cs)) p

theorem seen_of_passed (h : Passed text [] d p) : ∀ {cs : List UInt8}, clean cs = [] →
    Seen text (d :: cs) p := by
  rintro (_ | ⟨c, cs⟩) hclean
  · exact Or.inl ⟨[], h, trivial⟩
  · rw [Seen, hclean]
    exact Or.inl ⟨[], h, trivial⟩

theorem next_behind (h : Behind text c cs p) :
    Next text (fun d => Looked text (clean [d])) (p.read true) := by
  have hnext := h.next
  unfold Next at hnext ⊢
  cases hd : (p.read true).1 with
  | none =>
      rw [hd] at hnext
      exact hnext
  | some d =>
      rw [hd] at hnext
      have hlooked : Looked text (d :: clean []) (p.read true).2 := hnext
      exact looked_clean hlooked

theorem Seen.looked (h : Seen text (d :: cs) p) : Looked text (clean (d :: cs)) p := by
  rcases cs with _ | ⟨c, cs⟩
  · have hlooked : Looked text (d :: clean []) p := Out.looked h
    exact looked_clean hlooked
  · exact looked_clean (Out.looked h)

/-- The pages above one of the pages have been read to their ends, and of that page, which lies open,
this much is known. -/
inductive At (pages : List Page) (P : List UInt8 → Page → Prop) (lx : Lexer Book) : Prop
  | intro (above : List Page) (first : Page) (below : List Page) (p : Page)
      (split : pages = above ++ first :: below) (left : lx.stream.pages = p :: below)
      (name : p.name = first.name) (joins : lx.stream.joins = true) (pending : lx.pending = [[]])
      (known : P first.rest p)

variable {pages : List Page} {P Q R : List UInt8 → Page → Prop} {E : Failure → Lexer Book → Prop}
  {lx : Lexer Book}

theorem At.mono (h : At pages P lx) (hQ : ∀ text p, P text p → Q text p) : At pages Q lx := by
  rcases h with ⟨above, first, below, p, hpages, hopen, hname, hjoins, hpending, hP⟩
  exact ⟨above, first, below, p, hpages, hopen, hname, hjoins, hpending, hQ _ p hP⟩

/-- The last page lies open. -/
def Bottom (lx : Lexer Book) : Prop :=
  ∃ p, lx.stream.pages = [p]

theorem leads_next {S : UInt8 → List UInt8 → Page → Prop} (hpages : ∀ q ∈ pages, Unread q)
    (hread : ∀ text p, Lined text → P text p →
      (p.read true).1.elim (R text (p.read true).2) fun d => S d text (p.read true).2)
    (hcross : ∀ text p, Lined text → P text p → (p.read true).1 = none →
      ∀ d text' p', Passed text' [] d p' → S d text' p') :
    Leads E (At pages P) next?
      fun d => d.elim (fun lx => At pages R lx ∧ Bottom lx) fun d => At pages (S d) := by
  refine leads_of_ok fun lx hlx => ?_
  rcases hlx with ⟨above, first, below, p, hsplit, hopen, hname, hjoins, hpending, hP⟩
  have hlined : Lined first.rest := (hpages first (by rw [hsplit]; simp)).lined
  have hstay := hread first.rest p hlined hP
  have hname' : (p.read true).2.name = first.name := (Page.name_read true p).trans hname
  rcases hd : p.read true with ⟨_ | d, p'⟩
  · rw [hd] at hstay hname'
    cases below with
    | nil =>
        refine ⟨none, lx.withPages [p'], ?_, ?_, p', rfl⟩
        · rw [next?_single hopen, hjoins, hd]
        · exact ⟨above, first, [], p', hsplit, rfl, hname', hjoins, hpending, hstay⟩
    | cons q below =>
        rcases (hpages q (by rw [hsplit]; simp)).read with ⟨d, q', hq, hqname, hpassed⟩
        refine ⟨some d, lx.withPages (q' :: below), ?_, ?_⟩
        · rw [next?_turn hopen (hjoins ▸ hd), next?_read rfl (by rw [joins_withPages, hjoins, hq])]
          rfl
        · refine ⟨above ++ [first], q, below, q', by simp [hsplit], rfl, hqname, hjoins, hpending, ?_⟩
          exact hcross first.rest p hlined hP (congrArg Prod.fst hd) d q.rest q' hpassed
  · rw [hd] at hstay hname'
    refine ⟨some d, _, next?_read hopen (hjoins ▸ hd), ?_⟩
    exact ⟨above, first, below, p', hsplit, rfl, hname', hjoins, hpending, hstay⟩

theorem leads_unread {c : UInt8} (h : ∀ text p, P text p → Q text (p.putBack c)) :
    Leads E (At pages P) (unread c)
      fun _ lx => At pages Q lx ∧ (c ≠ backslash → lx.Ahead c) := by
  refine leads_of_ok fun lx hlx => ?_
  rcases hlx with ⟨above, first, below, p, hsplit, hopen, hname, hjoins, hpending, hP⟩
  have hname' : (p.putBack c).name = first.name := by
    rw [← hname, Page.putBack]
    split <;> rfl
  refine ⟨(), _, unread_pages hopen c, ?_, fun hc => ?_⟩
  · exact ⟨above, first, below, _, hsplit, rfl, hname', hjoins, hpending, h _ p hP⟩
  · exact ⟨_, next?_cons rfl (Page.rest_putBack p c) fun _ hpair => hc hpair.1⟩

theorem leads_warn (hE : ∀ f lx, At pages P lx → E f lx) (location : Location) (message : String) :
    Leads E (At pages P) (warn location message) fun _ => At pages P := by
  refine leads_warn_of (fun lx h _ _ => hE _ lx h) ?_
  rintro lx collector shown ⟨above, first, below, p, hsplit, hopen, hname, hjoins, hpending, hP⟩
  exact ⟨above, first, below, p, hsplit, hopen, hname, hjoins, hpending, hP⟩

theorem leads_finish (h : ∀ text p n, P text p → P text { p with tokens := n }) (lexeme : Lexeme)
    (encoding : Encoding) :
    Leads E (At pages P) (finish lexeme encoding) fun _ lx => True ∧ At pages P lx := by
  refine leads_of_ok fun lx hlx => ?_
  rcases hlx with ⟨above, first, below, p, hsplit, hopen, hname, hjoins, hpending, hP⟩
  refine ⟨_, _, finish_pages hopen lexeme encoding, trivial, ?_⟩
  exact ⟨above, first, below, _, hsplit, rfl, hname, hjoins, hpending, h _ p _ hP⟩

theorem leads_finish_bottom (h : ∀ text p n, P text p → P text { p with tokens := n })
    (lexeme : Lexeme) (encoding : Encoding) :
    Leads E (fun lx => At pages P lx ∧ Bottom lx) (finish lexeme encoding)
      fun _ lx => True ∧ At pages P lx ∧ Bottom lx := by
  refine leads_of_ok fun lx hlx => ?_
  rcases hlx with ⟨hat, p, hp⟩
  have hfinish := finish_pages hp lexeme encoding
  have hat' := (leads_finish (E := fun _ _ => False) h lexeme encoding).ok hat hfinish
  exact ⟨_, _, hfinish, trivial, hat'.2, _, rfl⟩

theorem leads_setMark : Leads E (At pages P) setMark fun _ => At pages P := by
  refine leads_of_ok fun lx hlx => ?_
  rcases hlx with ⟨above, first, below, p, hsplit, hopen, hname, hjoins, hpending, hP⟩
  refine ⟨(), _, setMark_pages hopen, ?_⟩
  exact ⟨above, first, below, p, hsplit, hopen, hname, hjoins, hpending, hP⟩

def stance (pages : List Page) : Stance Book where
  loose := At pages Loose
  ended := fun lx => At pages Over lx ∧ Bottom lx
  front := fun c => At pages fun text => Front text strays c
  out := fun cs => At pages fun text => Seen text cs
  looked := fun cs => At pages fun text => Looked text (clean cs)
  behind := fun c cs => At pages fun text => Behind text c (clean cs)
  stray := (· ∈ strays)
  token := fun _ => True
  failure := fun _ => True

theorem leads_next_drop {S : UInt8 → Lexer Book → Prop}
    (h : Leads E (At pages P) next?
      fun d => d.elim (fun lx => At pages R lx ∧ Bottom lx) fun d => S d) :
    Leads E (At pages P) next? fun d => d.elim (At pages R) fun d => S d := by
  refine h.post ?_
  rintro (_ | d) lx hlx
  · exact hlx.1
  · exact hlx

theorem next_looked (hpages : ∀ q ∈ pages, Unread q) (c : UInt8) (cs : List UInt8) :
    Leads E (At pages fun text => Looked text (clean (c :: cs))) next?
      fun d => d.elim (At pages fun text => Looked text (clean (c :: cs)))
        fun d => At pages fun text => Seen text (d :: c :: cs) := by
  by_cases hc : c = newline
  · subst hc
    refine leads_next_drop (leads_next hpages (fun text p _ h => ?_)
      fun _ _ _ _ _ _ _ _ h => seen_of_passed h rfl)
    have hnext : Next text (fun d => Out text [] [d]) _ := h.loose.next
    unfold Next at hnext
    cases hd : (p.read true).1 with
    | none =>
        rw [hd] at hnext
        rcases hnext.2 with ⟨before, h'⟩
        exact ⟨before, h', trivial⟩
    | some d =>
        rw [hd] at hnext
        exact hnext
  · have hclean := clean_cons hc cs
    refine leads_next_drop (leads_next hpages (fun text p _ h => ?_) fun text p hlined h hnone => ?_)
    · show (p.read true).1.elim (Looked text (clean (c :: cs)) _)
        fun d => Out text [] (d :: clean (c :: cs)) _
      rw [hclean] at h ⊢
      exact h.next
    · exact absurd hnone (read_ne_none_of_looked hlined (hclean ▸ h) hc)

def footing {pages : List Page} (hpages : ∀ q ∈ pages, Unread q) : Footing Book where
  toStance := stance pages
  loose_of_ended := fun h => At.mono h.1 fun _ _ hp => hp.2
  loose_of_front := fun h => At.mono h fun _ _ hp => hp.loose
  loose_of_looked := fun h => At.mono h fun _ _ hp => hp.loose
  looked_of_out := fun h => At.mono h fun _ _ hp => hp.looked
  looked_single := fun h => At.mono h fun _ _ hp => looked_clean_single hp
  front_of_behind := fun hstray hc h => At.mono h fun _ _ hp => hp.front hstray hc
  stray_slash := List.mem_cons_self
  next_loose := leads_next hpages (fun _ _ _ hp => hp.next)
    fun _ _ _ _ _ _ _ _ h => seen_of_passed h rfl
  next_front := by
    refine fun c => leads_next hpages (fun text p _ hp => ?_)
      fun _ _ _ _ _ _ _ _ h => seen_of_passed h rfl
    rcases hp.read with ⟨p', hread, hp'⟩
    rw [hread]
    exact hp'
  next_looked := fun c cs => next_looked hpages c cs
  next_behind := by
    refine fun c cs => leads_next hpages (fun text p _ hp => ?_) fun _ _ _ _ _ d text p h => ?_
    · exact next_behind hp
    · have hseen : Seen text [d] p := seen_of_passed h rfl
      exact hseen.looked
  next_stray := fun hstray _ => leads_next hpages (fun _ _ _ hp => hp.next_stray hstray)
    fun _ _ _ _ _ _ _ _ h => seen_of_passed h rfl
  unread_front := fun _ => (leads_unread fun _ _ hp => hp.front).post fun _ _ h => h.1
  unread_out := fun _ _ _ => leads_unread fun _ _ hp => looked_of_unread hp
  unread_looked := fun hc _ => leads_unread fun _ p hp => ⟨hc, p, rfl, clean_cons hc _ ▸ hp⟩
  warn_loose := leads_warn fun _ _ h => ⟨trivial, h⟩
  warn_looked := fun _ => leads_warn fun _ _ h => ⟨trivial, At.mono h fun _ _ hp => hp.loose⟩
  finish_ended := leads_finish_bottom fun _ p n hp => ⟨hp.1, hp.2.imp fun _ h => h.draw n⟩
  finish_looked := fun _ => leads_finish fun _ p n hp => hp.imp fun _ h => ⟨h.1.draw n, h.2⟩
  finish_behind := by
    refine fun c cs => leads_finish ?_
    rintro text p n ⟨hc, q, rfl, before, h, htrail⟩
    refine ⟨hc, { q with tokens := n }, ?_, before, h.draw n, htrail⟩
    unfold Page.putBack
    split <;> rfl
  located := fun _ _ => trivial
  tooLarge := fun _ => trivial

end Crossing

end CLex
