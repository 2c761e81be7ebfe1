import CLex.Proofs.Footing.Token
import CLex.Proofs.Scanning

namespace CLex

open Character LexM Lexer

namespace Outlook

variable {σ α β κ ρ : Type} [CharStream σ] {O : Outlook σ} {text mid rest : List UInt8}

/-- If the operation succeeds on `text`, its result and the text that it leaves are in `Q`. -/
def Takes (O : Outlook σ) (text : List UInt8) (m : LexOn σ α) (Q : α → List UInt8 → Prop) : Prop :=
  Leads (fun _ _ => True) (O.faces text) m fun a lx => ∃ rest, Q a rest ∧ O.faces rest lx

theorem Reads.takes {m : LexOn σ α} {P : α → Prop} (h : O.Reads text m P rest) :
    O.Takes text m fun a left => P a ∧ left = rest := by
  intro lx hlx
  have hrun := h lx hlx
  cases hm : m lx with
  | error f lx' => exact trivial
  | ok a lx' =>
      rw [hm] at hrun
      exact ⟨rest, ⟨hrun.1, rfl⟩, hrun.2⟩

theorem takes_pure {a : α} {Q : α → List UInt8 → Prop} (h : Q a text) :
    O.Takes text (pure a) Q :=
  leads_pure fun _ hlx => ⟨text, h, hlx⟩

theorem takes_throw {f : Failure} {Q : α → List UInt8 → Prop} : O.Takes text (throw f) Q :=
  leads_throw fun _ _ => trivial

theorem Takes.bind {m : LexOn σ α} {f : α → LexOn σ β} {P : α → List UInt8 → Prop}
    {Q : β → List UInt8 → Prop} (hm : O.Takes text m P)
    (hf : ∀ a rest, P a rest → O.Takes rest (f a) Q) : O.Takes text (m >>= f) Q :=
  leads_bind hm fun a => leads_exists fun rest => leads_given fun ha => hf a rest ha

theorem Reads.bind_takes {m : LexOn σ α} {f : α → LexOn σ β} {P : α → Prop}
    {Q : β → List UInt8 → Prop} (hm : O.Reads text m P mid) (hf : ∀ a, P a → O.Takes mid (f a) Q) :
    O.Takes text (m >>= f) Q :=
  hm.leads_bind hf

theorem Takes.mono {m : LexOn σ α} {P Q : α → List UInt8 → Prop} (h : O.Takes text m P)
    (hPQ : ∀ a rest, P a rest → Q a rest) : O.Takes text m Q :=
  h.post fun a _ ha => ha.imp fun rest ha => ⟨hPQ a rest ha.1, ha.2⟩

/-- What holds of a text after a round: `I` if there is another one, and `R` at the end. -/
def Turn (I : κ → List UInt8 → Prop) (R : ρ → List UInt8 → Prop) :
    Round κ ρ → List UInt8 → Prop
  | .again b => I b
  | .done x => R x

theorem takes_loop {step : κ → LexOn σ (Round κ ρ)} {progress : Progress step}
    {I : κ → List UInt8 → Prop} {R : ρ → List UInt8 → Prop}
    (h : ∀ a text, I a text → O.Takes text (step a) (Turn I R)) (a : κ) (ha : I a text) :
    O.Takes text (loop step progress a) R := by
  have hloop : Leads (fun _ _ => True) (fun lx => ∃ text, I a text ∧ O.faces text lx)
      (loop step progress a) fun x lx => ∃ rest, R x rest ∧ O.faces rest lx := by
    refine leads_loop (I := fun a lx => ∃ text, I a text ∧ O.faces text lx) (fun a => ?_) a
    refine leads_exists fun text => leads_given fun ha => (h a text ha).post ?_
    rintro (b | x) lx hrest
    · exact hrest
    · exact hrest
  exact hloop.pre fun lx hlx => ⟨text, ha, hlx⟩

theorem takes_takeIf (p : UInt8 → Bool) : O.Takes text (takeIf p) fun d rest =>
    d.elim (rest = text ∧ text.head?.any p = false) fun c => text = c :: rest ∧ p c = true := by
  cases text with
  | nil =>
      refine (reads_takeIf_other rfl).takes.mono ?_
      rintro _ _ ⟨rfl, rfl⟩
      exact ⟨rfl, rfl⟩
  | cons c text =>
      cases hp : p c with
      | true =>
          refine (reads_takeIf hp).takes.mono ?_
          rintro _ _ ⟨rfl, rfl⟩
          exact ⟨rfl, hp⟩
      | false =>
          have hother : (c :: text).head?.any p = false := hp
          refine (reads_takeIf_other hother).takes.mono ?_
          rintro _ _ ⟨rfl, rfl⟩
          exact ⟨rfl, hother⟩

theorem takes_skipIf (c : UInt8) : O.Takes text (skipIf c) fun b rest =>
    b = true ∧ text = c :: rest ∨ b = false ∧ rest = text ∧ text.head? ≠ some c := by
  refine (takes_takeIf _).bind ?_
  rintro (_ | d) rest h
  · refine takes_pure (Or.inr ⟨rfl, h.1, fun hc => ?_⟩)
    have hnone := h.2
    rw [hc] at hnone
    simp at hnone
  · have hd : d = c := by simpa using h.2
    exact takes_pure (Or.inl ⟨rfl, hd ▸ h.1⟩)

theorem takes_finish {lexeme : Lexeme} {encoding : Encoding} {Q : Token → List UInt8 → Prop}
    (h : ∀ t : Token, t.lexeme = lexeme → t.encoding = encoding → Q t text) :
    O.Takes text (finish lexeme encoding) Q := by
  refine (reads_finish lexeme encoding).takes.mono ?_
  rintro t _ ⟨hgist, rfl⟩
  rw [Token.gist, Prod.mk.injEq, Prod.mk.injEq] at hgist
  exact h t hgist.1 hgist.2.1

end Outlook

open Joining

/-- The outlook of a lexer of one page whose lines are not joined, and which holds no carriage
return. -/
def Outlook.plainly : Outlook Book where
  faces text lx := ∃ q, Plainly lx q ∧ q.rest = text ∧ carriageReturn ∉ text
  sound text := carriageReturn ∉ text
  sound_of_faces := by
    rintro text lx ⟨q, -, -, h⟩
    exact h
  pending := by
    rintro text lx ⟨q, h, -⟩
    exact h.pending
  next_ok := by
    rintro c rest lx ⟨q, h, hq, hcr⟩
    exact ⟨_, next?_settled h.pages h.settled hq, _, ⟨rfl, h.joins, h.pending⟩,
      Page.rest_advance _ _, fun hmem => hcr (List.mem_cons_of_mem c hmem)⟩
  next_end := by
    rintro lx ⟨q, h, hq, hcr⟩
    exact ⟨_, next?_end h.pages hq, q, h, hq, hcr⟩
  unread_ok := by
    rintro c rest lx hsound ⟨q, h, rfl, -⟩
    exact ⟨_, unread_pages h.pages c, _, ⟨rfl, h.joins, h.pending⟩, Page.rest_putBack q c, hsound⟩
  setMark_ok := by
    rintro text lx ⟨q, h, hq⟩
    exact ⟨_, setMark_pages h.pages, q, ⟨h.pages, h.joins, h.pending⟩, hq⟩
  needSource_ok := by
    rintro text lx ⟨q, h, -⟩
    exact needSource_pages h.pages
  finish_ok := by
    rintro text lx ⟨q, h, hq⟩ lexeme encoding
    exact ⟨_, _, finish_pages h.pages lexeme encoding, rfl, _, ⟨rfl, h.joins, h.pending⟩, hq⟩

namespace Stopping

/-- A lexer of such a page, wherever it stands, that may put back these characters. -/
def Holds (cs : List UInt8) (lx : Lexer Book) : Prop :=
  ∃ q, Plainly lx q ∧ carriageReturn ∉ q.rest ∧ carriageReturn ∉ cs

variable {E : Failure → Lexer Book → Prop} {cs : List UInt8}

theorem Holds.mono {ds : List UInt8} {lx : Lexer Book} (h : Holds cs lx) (hsub : ds ⊆ cs) :
    Holds ds lx := by
  rcases h with ⟨q, hlx, hrest, hcs⟩
  exact ⟨q, hlx, hrest, fun hmem => hcs (hsub hmem)⟩

theorem leads_next :
    Leads E (Holds cs) next? fun d => d.elim (Holds cs) fun d => Holds (d :: cs) := by
  rintro lx ⟨q, h, hrest, hcs⟩
  cases hq : q.rest with
  | nil =>
      rw [next?_end h.pages hq]
      exact ⟨q, h, hrest, hcs⟩
  | cons c rest =>
      rw [hq, List.mem_cons, not_or] at hrest
      rw [next?_settled h.pages h.settled hq]
      refine ⟨_, ⟨rfl, h.joins, h.pending⟩, ?_, ?_⟩
      · rw [Page.rest_advance]
        exact hrest.2
      · rw [List.mem_cons, not_or]
        exact ⟨hrest.1, hcs⟩

theorem leads_next_zero :
    Leads E (Holds []) next? fun d => d.elim (Holds []) fun d => Holds [d] :=
  leads_next

theorem leads_unread (c : UInt8) :
    Leads E (Holds (c :: cs)) (unread c) fun _ lx =>
      Holds cs lx ∧ (c ≠ backslash → lx.Ahead c) := by
  rintro lx ⟨q, h, hrest, hcs⟩
  rw [List.mem_cons, not_or] at hcs
  rw [unread_pages h.pages c]
  have h' : Plainly (lx.withPages [q.putBack c]) (q.putBack c) := ⟨rfl, h.joins, h.pending⟩
  have hnext := next?_settled h'.pages h'.settled (Page.rest_putBack q c)
  refine ⟨⟨_, h', ?_, hcs.2⟩, fun _ => ⟨_, hnext⟩⟩
  rw [Page.rest_putBack, List.mem_cons, not_or]
  exact ⟨hcs.1, hrest⟩

theorem leads_warn (hE : ∀ f lx, Holds cs lx → E f lx) (location : Location) (text : String) :
    Leads E (Holds cs) (warn location text) fun _ => Holds cs := by
  refine leads_warn_of (fun lx h _ _ => hE _ lx h) ?_
  rintro lx collector shown ⟨q, h, hholds⟩
  exact ⟨q, ⟨h.pages, h.joins, h.pending⟩, hholds⟩

theorem leads_finish (lexeme : Lexeme) (encoding : Encoding) :
    Leads E (Holds cs) (finish lexeme encoding) fun _ lx => True ∧ Holds cs lx := by
  rintro lx ⟨q, h, hholds⟩
  rw [finish_pages h.pages lexeme encoding]
  exact ⟨trivial, _, ⟨rfl, h.joins, h.pending⟩, hholds⟩

def stance : Stance Book where
  loose := Holds []
  ended := Holds []
  front _ := Holds []
  out := Holds
  looked := Holds
  behind _ _ := Holds []
  stray _ := True
  token _ := True
  failure _ := True

theorem failed (f : Failure) (lx : Lexer Book) (h : Holds cs lx) : stance.Failed f lx :=
  ⟨trivial, h.mono (List.nil_subset cs)⟩

def footing : Footing Book where
  toStance := stance
  loose_of_ended h := h
  loose_of_front h := h
  loose_of_looked h := h.mono (List.nil_subset _)
  looked_of_out h := h
  looked_single h := h.mono (by simp)
  front_of_behind _ _ h := h
  stray_slash := trivial
  next_loose := leads_next_zero
  next_front _ := leads_next_zero
  next_looked _ _ := leads_next
  next_behind _ _ := leads_next_zero
  next_stray _ _ := leads_next_zero
  unread_front c := (leads_unread c).post fun _ _ h => h.1
  unread_out d _ _ := leads_unread d
  unread_looked {c} _ cs := (leads_unread c).post fun _ _ h => ⟨h.1.mono (List.nil_subset cs), h.2⟩
  warn_loose := leads_warn failed
  warn_looked _ := leads_warn failed
  finish_ended := leads_finish
  finish_looked _ := leads_finish
  finish_behind _ _ := leads_finish
  located _ _ := trivial
  tooLarge _ := trivial

end Stopping

namespace Outlook

open Stopping

variable {α : Type} {text mid rest : List UInt8}

theorem takes_of_sound {m : LexOn Book α} {Q : α → List UInt8 → Prop}
    (h : carriageReturn ∉ text → plainly.Takes text m Q) : plainly.Takes text m Q :=
  fun lx hlx => h (plainly.sound_of_faces hlx) lx hlx

theorem takes_of_leads {m : LexOn Book α} {P : Lexer Book → Prop} {Q : α → Lexer Book → Prop}
    (h : Leads footing.Failed P m Q) (hP : ∀ lx, Holds [] lx → P lx)
    (hQ : ∀ a lx, Q a lx → Holds [] lx) : plainly.Takes text m fun _ _ => True := by
  rintro lx ⟨q, hlx, rfl, hcr⟩
  have hrun := h lx (hP lx ⟨q, hlx, hcr, List.not_mem_nil⟩)
  cases hm : m lx with
  | error f lx' => exact trivial
  | ok a lx' =>
      rw [hm] at hrun
      rcases hQ a lx' hrun with ⟨q', hlx', hcr', -⟩
      exact ⟨q'.rest, trivial, q', hlx', rfl, hcr'⟩

end Outlook

end CLex
