import CLex.Proofs.Composition
import CLex.Proofs.Crossing

namespace CLex

open Character Lexer LexM Lines Tracking

/-- What is left open begins with these characters. -/
def Cause.OpenedBy : Cause → List UInt8 → Prop
  | .unterminatedComment, opening => opening = bytes ['/', '*']
  | .unterminatedString, opening =>
      ∃ encoding : Encoding, opening = bytes encoding.mark.toList ++ [doubleQuote]
  | .unterminatedChar, opening =>
      ∃ encoding : Encoding, encoding ≠ .utf8 ∧ opening = bytes encoding.mark.toList ++ [singleQuote]
  | _, _ => False

namespace Crossing

variable {lx lx' : Lexer Book} {f : Failure} {p : Page} {below : List Page} {rest : List UInt8}
  {c d : UInt8}

theorem reads : Reads fun _ (m _ : LexOn Book _) =>
    Leads (fun _ _ => False) (fun lx => lx.stream.pages ≠ []) m fun _ lx => lx.stream.pages ≠ [] := by
  refine .ofInvariant (fun lx h => ?_) fun c lx h => ?_
  · show (Book.readPages lx.stream.joins lx.stream.pages).2 ≠ []
    generalize lx.stream.pages = pages at h
    fun_induction Book.readPages lx.stream.joins pages with
    | case1 => exact absurd rfl h
    | case2 => simp
    | case3 => simp
    | case4 p q below p' hread ih => exact ih (by simp)
  · rcases List.exists_cons_of_ne_nil h with ⟨p, below, hpages⟩
    rw [unread_pages hpages]
    simp

/-- What holds of every failure but those of open literals holds of the failures of any operation
that is not a literal. The mark stays. -/
theorem rules {E : Failure → Lexer Book → Prop} (hE : ∀ f lx, f.isUnterminated = false → E f lx)
    (mark : Int × Int) : Rules fun _ (m _ : LexOn Book _) =>
      Leads E (fun lx => lx.mark = mark) m fun _ lx => lx.mark = mark := by
  refine .ofInvariant (fun f lx hf _ => hE f lx hf) (fun _ h => h) (fun c lx h => ?_)
    (fun _ _ => leads_warn_of (fun _ _ _ _ => hE _ _ rfl) fun _ _ _ h => h)
    fun _ _ => leads_finish_of fun _ h => h
  unfold Lexer.unread
  rw [show CharStream.unread lx.stream c = lx.stream.unread c from rfl, Book.unread]
  cases lx.stream.pages with
  | nil => exact hE _ _ rfl
  | cons p below => exact h

theorem plain (mark : Int × Int) : Rules fun _ (m _ : LexOn Book _) =>
    Leads (fun f _ => f.isUnterminated = false) (fun lx => lx.mark = mark) m
      fun _ lx => lx.mark = mark :=
  rules (fun _ _ h => h) mark

theorem closed {α : Type} {m : LexOn Book α}
    (hm : ∀ mark, Leads (fun f _ => f.isUnterminated = false) (fun lx => lx.mark = mark) m
      fun _ lx => lx.mark = mark)
    (h : m lx = .error f lx') (hf : f.isUnterminated = true) : False := by
  rw [(hm lx.mark).error rfl h] at hf
  cases hf

theorem string_left_open {encoding : Encoding} (h : stringLiteral encoding lx = .error f lx')
    (hf : f.isUnterminated = true) : ∃ location, f = .located .unterminatedString location := by
  have hrules := rules (E := fun f _ =>
    f.isUnterminated = true → ∃ location, f = .located .unterminatedString location)
    (fun f _ hf htrue => absurd htrue (by simp [hf])) lx.mark
  refine Leads.error (hrules.rel_stringLiteral (fun _ => ?_) encoding) rfl h hf
  exact leads_bind leads_marked fun location => leads_throw fun _ _ _ => ⟨location, rfl⟩

theorem char_left_open {encoding : Encoding} (h : charLiteral encoding lx = .error f lx')
    (hf : f.isUnterminated = true) : ∃ location, f = .located .unterminatedChar location := by
  have hrules := rules (E := fun f _ =>
    f.isUnterminated = true → ∃ location, f = .located .unterminatedChar location)
    (fun f _ hf htrue => absurd htrue (by simp [hf])) lx.mark
  refine Leads.error (hrules.rel_charLiteral (fun _ => ?_) encoding) rfl h hf
  exact leads_bind leads_marked fun location => leads_throw fun _ _ _ => ⟨location, rfl⟩

/-- An open literal is reported at the mark, in the source that is read when the input ends. -/
theorem marked_left_open (h : tokenFrom c lx = .error f lx') (hf : f.isUnterminated = true) :
    ∃ cause, f = .located cause ⟨(CharStream.location lx'.stream).file, lx.mark.1, lx.mark.2⟩ := by
  have hrules := rules (E := fun f s => f.isUnterminated = true →
      ∃ cause, f = .located cause ⟨(CharStream.location s.stream).file, lx.mark.1, lx.mark.2⟩)
    (fun f _ hf htrue => absurd htrue (by simp [hf])) lx.mark
  refine Leads.error (LiteralRules.rel_tokenFrom ⟨hrules, ?_⟩ c) rfl h hf
  rintro cause _ s hs -
  exact ⟨cause, by rw [← hs]⟩

/-- The failure is that of a literal, which the text begins with. -/
def LeftOpen (f : Failure) (text : List UInt8) : Prop :=
  ∃ cause location opening after, f = .located cause location ∧ cause ≠ .unterminatedComment ∧
    cause.OpenedBy opening ∧ text = opening ++ after

theorem string_opens {encoding : Encoding} (h : stringLiteral encoding lx = .error f lx')
    (hf : f.isUnterminated = true) (after : List UInt8) :
    LeftOpen f (bytes encoding.mark.toList ++ [doubleQuote] ++ after) := by
  rcases string_left_open h hf with ⟨location, rfl⟩
  exact ⟨_, location, _, after, rfl, by decide, ⟨encoding, rfl⟩, rfl⟩

theorem char_opens {encoding : Encoding} (h : charLiteral encoding lx = .error f lx')
    (hencoding : encoding ≠ .utf8) (hf : f.isUnterminated = true) (after : List UInt8) :
    LeftOpen f (bytes encoding.mark.toList ++ [singleQuote] ++ after) := by
  rcases char_left_open h hf with ⟨location, rfl⟩
  exact ⟨_, location, _, after, rfl, by decide, ⟨encoding, hencoding, rfl⟩, rfl⟩

/-- The page that lies open has this text, with its lines ended. -/
def Faces (text : List UInt8) (lx : Lexer Book) : Prop :=
  Lined text ∧ ∃ p below, lx.stream.pages = p :: below ∧ p.rest = text

theorem Faces.skipIf (h : Faces (d :: rest) lx) (hc : c ≠ newline) :
    (d = c ∧ ∃ lx₁, skipIf c lx = .ok true lx₁ ∧ Faces rest lx₁) ∨
      ∃ lx₁, skipIf c lx = .ok false lx₁ ∧ Faces (d :: rest) lx₁ := by
  rcases h with ⟨hlined, p, below, hpages, hrest⟩
  have hskip := skipIf_cons hpages (fun _ => hrest ▸ hlined.unjoined) hrest c
  by_cases hd : d = c
  · rw [if_pos hd] at hskip
    rcases hlined.next (hd ▸ hc) with ⟨e, rest', rfl, hlined'⟩
    exact Or.inl ⟨hd, _, hskip, hlined', _, below, rfl, Page.rest_advance _ d⟩
  · rw [if_neg hd] at hskip
    exact Or.inr ⟨_, hskip, hlined, _, below, rfl, (Page.rest_look p).trans hrest⟩

theorem literalOrIdent_left_open {encoding : Encoding} (hc : encodingOf? c = some encoding)
    (hne : c ≠ newline) (hlined : Lined (c :: rest)) (hfaces : Faces rest lx)
    (h : literalOrIdent c encoding lx = .error f lx') (hf : f.isUnterminated = true) :
    LeftOpen f (c :: rest) := by
  rcases Simulation.mark_of_encodingOf hc with ⟨hmark, hutf8, -⟩
  rcases hlined.next hne with ⟨d, rest, rfl, -⟩
  rw [literalOrIdent] at h
  rcases hfaces.skipIf (c := doubleQuote) (by decide) with ⟨rfl, lx₁, hskip, -⟩ | ⟨lx₁, hskip, hfaces⟩
  · rw [bind_of_ok hskip, if_pos rfl] at h
    simpa [hmark] using string_opens h hf rest
  rw [bind_of_ok hskip, if_neg (by simp)] at h
  rcases hfaces.skipIf (c := singleQuote) (by decide) with ⟨rfl, lx₂, hskip, -⟩ | ⟨lx₂, hskip, hfaces⟩
  · rw [bind_of_ok hskip, if_pos rfl] at h
    simpa [hmark] using char_opens h hutf8 hf rest
  rw [bind_of_ok hskip, if_neg (by simp)] at h
  split at h
  · next h16 =>
    subst h16
    rcases hfaces.skipIf (c := byte '8') (by decide) with ⟨rfl, lx₃, hskip, hfaces⟩ | ⟨lx₃, hskip, -⟩
    · rw [bind_of_ok hskip, if_pos rfl] at h
      rcases hfaces.1.exists_cons with ⟨e, rest, rfl⟩
      rcases hfaces.skipIf (c := doubleQuote) (by decide) with
        ⟨rfl, lx₄, hskip, -⟩ | ⟨lx₄, hskip, -⟩
      · rw [bind_of_ok hskip, if_pos rfl] at h
        have hu : bytes Encoding.utf8.mark.toList = [c, byte '8'] := by
          rw [← List.singleton_inj.mp hmark]
          decide
        simpa [hu] using string_opens h hf rest
      · rw [bind_of_ok hskip, if_neg (by simp)] at h
        refine (closed (fun mark => ?_) h hf).elim
        exact leads_bind ((plain mark).rel_unread (byte '8')) fun _ => (plain mark).rel_ident c
    · rw [bind_of_ok hskip, if_neg (by simp)] at h
      exact (closed (fun mark => (plain mark).rel_ident c) h hf).elim
  · exact (closed (fun mark => (plain mark).rel_ident c) h hf).elim

theorem tokenFrom_left_open (hlined : Lined (c :: rest))
    (hfaces : c ≠ newline → Faces rest lx) (h : tokenFrom c lx = .error f lx')
    (hf : f.isUnterminated = true) : LeftOpen f (c :: rest) := by
  rw [tokenFrom] at h
  split at h
  · exact (closed (fun mark => (plain mark).rel_finish _ _) h hf).elim
  · next hne =>
    cases hencoding : encodingOf? c with
    | some encoding =>
        rw [hencoding] at h
        exact literalOrIdent_left_open hencoding hne hlined (hfaces hne) h hf
    | none =>
        rw [hencoding] at h
        dsimp only at h
        split at h
        · exact (closed (fun mark => (plain mark).rel_ident c) h hf).elim
        · split at h
          · exact (closed (fun mark => (plain mark).rel_number c) h hf).elim
          · split at h
            · next hc =>
              subst hc
              exact string_opens h hf rest
            · split at h
              · next hc =>
                subst hc
                exact char_opens h (by decide) hf rest
              · split at h
                · exact (closed (fun mark => (plain mark).rel_dots c) h hf).elim
                · exact (closed (fun mark => (plain mark).rel_operator c) h hf).elim

theorem opened_cons {cause : Cause} {opening : List UInt8} (h : cause.OpenedBy opening)
    (hcause : cause ≠ .unterminatedComment) :
    ∃ c rest, opening = c :: rest ∧ c ∉ strays ∧ c ≠ newline := by
  cases cause with
  | unterminatedString =>
      rcases h with ⟨encoding, rfl⟩
      cases encoding <;> exact ⟨_, _, rfl, by decide, by decide⟩
  | unterminatedChar =>
      rcases h with ⟨encoding, -, rfl⟩
      cases encoding <;> exact ⟨_, _, rfl, by decide, by decide⟩
  | unterminatedComment => exact absurd rfl hcause
  | _ => cases h

theorem skipComment_left_open (hpages : lx.stream.pages = p :: below)
    (h : skipComment lx = .error f lx') :
    f = .located .unterminatedComment ⟨p.name, p.line, p.column - 2⟩ := by
  have hhere : here 2 lx = .ok ⟨p.name, p.line, p.column - 2⟩ lx := by
    rw [here, location_pages hpages]
    rfl
  rw [skipComment, bind_of_ok hhere] at h
  have hround (start : Location) (star : Bool) :
      Leads (fun f _ => f = .located .unterminatedComment start) (fun _ : Lexer Book => True)
        (commentRound start star) (RoundLeft (fun _ _ => True) fun _ _ => True) := by
    refine leads_bind (Q := fun _ _ => True) (fun _ _ => trivial) fun d => ?_
    cases d with
    | none => exact leads_throw fun _ _ => rfl
    | some d =>
        dsimp only
        split
        · exact leads_pure fun _ _ => trivial
        · exact leads_pure fun _ _ => trivial
  exact Leads.error (leads_loop (hround _) false) trivial h

theorem next_of_skipIf (h : skipIf c lx = .ok true lx') : next? lx = .ok (some c) lx' := by
  rcases bind_eq_ok.mp h with ⟨_ | d, lx₁, htake, hpure⟩
  · cases hpure
  · cases hpure
    rcases bind_eq_ok.mp htake with ⟨_ | e, lx₂, hnext, htake⟩
    · cases htake
    · dsimp only at htake
      split at htake
      · next hd =>
        cases htake
        rw [hnext, show d = c by simpa using hd]
      · rcases bind_eq_ok.mp htake with ⟨_, _, _, hpure⟩
        cases hpure

theorem skipBlank_error (hne : lx.stream.pages ≠ []) (h : skipBlank lx = .error f lx') :
    ∃ lx₁ lx₂, next? lx = .ok (some (byte '/')) lx₁ ∧ skipIf (byte '*') lx₁ = .ok true lx₂ ∧
      skipComment lx₂ = .error f lx' := by
  -- All but the comment only reads and puts back, which does not fail while there is a page.
  have hput (c : UInt8) : Leads (fun _ _ => False) (fun lx : Lexer Book => lx.stream.pages ≠ [])
      (do Lexer.unread c; pure false) fun _ lx => lx.stream.pages ≠ [] :=
    leads_bind (reads.rel_unread c) fun _ => reads.rel_pure false
  have hline : Leads (fun _ _ => False) (fun lx : Lexer Book => lx.stream.pages ≠ [])
      (do
        if ← skipIf (byte '/') then do
          skipLine
          pure true
        else do
          Lexer.unread (byte '/')
          pure false) fun _ lx => lx.stream.pages ≠ [] := by
    refine leads_bind (reads.rel_skipIf (byte '/')) fun slash => ?_
    split
    · exact leads_bind reads.rel_skipLine fun _ => reads.rel_pure true
    · exact hput (byte '/')
  obtain ⟨d, lx₁, hnext⟩ : ∃ d lx₁, next? lx = .ok d lx₁ := ⟨_, _, rfl⟩
  have hne₁ : lx₁.stream.pages ≠ [] := reads.rel_next.ok hne hnext
  rw [skipBlank, bind_of_ok hnext] at h
  cases d with
  | none => cases h
  | some c =>
      dsimp only at h
      split at h
      · cases h
      · split at h
        · next hc =>
          subst hc
          cases hstar : skipIf (byte '*') lx₁ with
          | error g lx₂ => exact ((reads.rel_skipIf (byte '*')).error hne₁ hstar).elim
          | ok star lx₂ =>
              have hne₂ : lx₂.stream.pages ≠ [] := (reads.rel_skipIf (byte '*')).ok hne₁ hstar
              rw [bind_of_ok hstar] at h
              cases star with
              | false => exact (hline.error hne₂ h).elim
              | true =>
                  refine ⟨lx₁, lx₂, hnext, hstar, ?_⟩
                  cases hcomment : skipComment lx₂ with
                  | error g lx₃ =>
                      rw [if_pos rfl, bind_of_error hcomment] at h
                      cases h
                      rfl
                  | ok u lx₃ =>
                      rw [if_pos rfl, bind_of_ok hcomment] at h
                      cases h
        · exact ((hput c).error hne₁ h).elim

end Crossing

end CLex
