import CLex.Proofs.Copying
import CLex.Proofs.Room

namespace CLex

open Character Lexer LexM

namespace Input

theorem next_fst (input : Input) : input.next.1 = input.remaining.head? := by
  cases h : input.next with
  | mk b rest =>
      cases b with
      | none => rw [(remaining_next_none h).1, List.head?_nil]
      | some b => rw [remaining_next_some h, List.head?_cons]

theorem remaining_next (input : Input) : input.next.2.remaining = input.remaining.tail := by
  cases h : input.next with
  | mk b rest =>
      cases b with
      | none =>
          obtain ⟨hnil, rfl⟩ := remaining_next_none h
          rw [hnil, List.tail_nil]
      | some b => rw [remaining_next_some h, List.tail_cons]

end Input

namespace Source

/-- The sources have the same bytes still to come and are alike in all but where these come from. -/
def Twins (s t : Source) : Prop :=
  ∃ input : Input, input.remaining = s.input.remaining ∧ t = { s with input }

namespace Twins

variable {s t : Source}

theorem advance (h : s.Twins t) (c : Option UInt8) : (s.advance c).Twins (t.advance c) := by
  rcases h with ⟨input, hrest, rfl⟩
  refine ⟨input, by rw [input_advance, hrest], ?_⟩
  cases c with
  | none => rfl
  | some c =>
      simp only [Source.advance]
      split <;> rfl

theorem putBack (h : s.Twins t) (c : UInt8) : (s.putBack c).Twins (t.putBack c) := by
  rcases h with ⟨input, hrest, rfl⟩
  refine ⟨input, by rw [input_putBack, hrest], ?_⟩
  simp only [Source.putBack]
  split <;> rfl

theorem nextIndex (h : s.Twins t) :
    t.nextIndex.1 = s.nextIndex.1 ∧ s.nextIndex.2.Twins t.nextIndex.2 := by
  rcases h with ⟨input, hrest, rfl⟩
  exact ⟨rfl, input, hrest, rfl⟩

theorem name_eq {console console' : List UInt8} (h : (s.lend console).Twins (t.lend console')) :
    t.name = s.name := by
  rcases h with ⟨input, -, h⟩
  exact (congrArg Source.name h :)

theorem pushback_eq {console console' : List UInt8}
    (h : (s.lend console).Twins (t.lend console')) : t.pushback = s.pushback := by
  rcases h with ⟨input, -, h⟩
  exact (congrArg Source.pushback h :)

theorem location_eq {console console' : List UInt8}
    (h : (s.lend console).Twins (t.lend console')) : t.location = s.location := by
  rcases h with ⟨input, -, h⟩
  exact (congrArg Source.location h :)

theorem readInput (h : s.Twins t) :
    t.readInput.1 = s.readInput.1 ∧ s.readInput.2.Twins t.readInput.2 := by
  rcases h with ⟨input, hrest, rfl⟩
  have hfst : input.next.1 = s.input.next.1 := by rw [Input.next_fst, Input.next_fst, hrest]
  have hsnd : input.next.2.remaining = s.input.next.2.remaining := by
    rw [Input.remaining_next, Input.remaining_next, hrest]
  -- The two inputs give the same byte and have the same bytes left.
  unfold Source.readInput
  dsimp only
  rcases hs : s.input.next with ⟨b, rest⟩
  rcases ht : input.next with ⟨b', rest'⟩
  rw [hs, ht] at hfst hsnd
  dsimp only at hfst hsnd
  subst hfst
  cases b' with
  | none => exact ⟨rfl, rest', hsnd, rfl⟩
  | some b =>
      dsimp only
      split
      · refine ⟨rfl, rest'.dropIf newline, ?_, rfl⟩
        rw [Input.remaining_dropIf, Input.remaining_dropIf, hsnd]
      · exact ⟨rfl, rest', hsnd, rfl⟩

theorem get (h : s.Twins t) : t.get.1 = s.get.1 ∧ s.get.2.Twins t.get.2 := by
  have hpushback : t.pushback = s.pushback := by
    rcases h with ⟨input, -, rfl⟩
    rfl
  unfold Source.get
  rw [hpushback]
  cases s.pushback with
  | nil =>
      obtain ⟨hc, h'⟩ := h.readInput
      dsimp only
      rw [hc]
      exact ⟨rfl, h'.advance _⟩
  | cons c rest =>
      rcases h with ⟨input, hrest, rfl⟩
      refine ⟨rfl, advance ?_ (some c)⟩
      exact ⟨input, hrest, rfl⟩

theorem get_eq (h : s.Twins t) {c : Option UInt8} {s' : Source} (hs : s.get = (c, s')) :
    ∃ t', t.get = (c, t') ∧ s'.Twins t' := by
  obtain ⟨hc, h'⟩ := h.get
  rw [hs] at hc h'
  exact ⟨t.get.2, Prod.ext hc rfl, h'⟩

theorem readChar (h : s.Twins t) :
    t.readChar.1 = s.readChar.1 ∧ s.readChar.2.Twins t.readChar.2 := by
  fun_induction Source.readChar s generalizing t with
  | case1 s s₁ hb =>
      rcases h.get_eq hb with ⟨t₁, ht, h₁⟩
      rw [readChar_eq, ht]
      exact ⟨rfl, h₁⟩
  | case2 s s₁ s₂ hc hb =>
      rcases h.get_eq hb with ⟨t₁, ht, h₁⟩
      rcases h₁.get_eq hc with ⟨t₂, ht₂, h₂⟩
      rw [readChar_eq, ht]
      simp only [if_true, ht₂, true_and]
      exact h₂
  | case3 s s₁ s₂ hb hc ih =>
      rcases h.get_eq hb with ⟨t₁, ht, h₁⟩
      rcases h₁.get_eq hc with ⟨t₂, ht₂, h₂⟩
      rw [readChar_eq, ht]
      simp only [if_true, ht₂]
      exact ih h₂
  | case4 s s₁ d s₂ hc hd hb =>
      rcases h.get_eq hb with ⟨t₁, ht, h₁⟩
      rcases h₁.get_eq hc with ⟨t₂, ht₂, h₂⟩
      rw [readChar_eq, ht]
      simp only [if_true, ht₂, hd, if_false]
      exact ⟨trivial, h₂.putBack d⟩
  | case5 s b s₁ hb hne =>
      rcases h.get_eq hb with ⟨t₁, ht, h₁⟩
      rw [readChar_eq, ht]
      simp only [hne, if_false, true_and]
      exact h₁

end Twins

end Source

namespace Stream

/-- One source each, and the two are twins with the bytes of standard input lent to them. -/
def Twins (s t : Stream) : Prop :=
  ∃ a b : Source, s.files = [a] ∧ t.files = [b] ∧
    (a.lend s.console).Twins (b.lend t.console) ∧ t.journal = s.journal

theorem readAcross_single {s : Stream} {a : Source} (hfiles : s.files = [a]) :
    s.readAcross = s.readChar := by
  have hlength : s.readChar.2.files.length = 1 := by rw [length_files_readChar, hfiles]; rfl
  rw [readAcross]
  split
  · next hc => exact hc.symm
  · next s' hc =>
    rw [hc] at hlength
    rw [if_pos (Nat.le_of_eq hlength), hc]

namespace Twins

variable {s t : Stream}

theorem readChar (h : s.Twins t) :
    t.readChar.1 = s.readChar.1 ∧ s.readChar.2.Twins t.readChar.2 := by
  rcases h with ⟨a, b, hs, ht, htwins, hjournal⟩
  obtain ⟨hc, h'⟩ := htwins.readChar
  rw [Stream.readChar, Stream.readChar, hs, ht]
  refine ⟨hc, _, _, rfl, rfl, ?_, hjournal⟩
  rw [Source.lend_settle, Source.lend_settle]
  exact h'

theorem readAcross (h : s.Twins t) :
    t.readAcross.1 = s.readAcross.1 ∧ s.readAcross.2.Twins t.readAcross.2 := by
  rcases h with ⟨a, b, hs, ht, h⟩
  rw [readAcross_single hs, readAcross_single ht]
  exact readChar ⟨a, b, hs, ht, h⟩

theorem unread (h : s.Twins t) (c : UInt8) :
    (∃ s' t', s.unread c = .ok s' ∧ t.unread c = .ok t' ∧ s'.Twins t') ∨
      ∃ f, s.unread c = .error f ∧ t.unread c = .error f := by
  rcases h with ⟨a, b, hs, ht, htwins, hjournal⟩
  have hlend : ∀ (x : Source) (bytes : List UInt8),
      (x.putBack c).lend bytes = (x.lend bytes).putBack c := by
    intro x bytes
    simp only [Source.putBack, Source.lend]
    split <;> rfl
  rw [Stream.unread, Stream.unread, hs, ht]
  dsimp only
  rw [Source.unread?, Source.unread?, htwins.pushback_eq, htwins.name_eq]
  by_cases hroom : a.pushback.length < Source.capacity
  · simp only [hroom, if_true]
    refine Or.inl ⟨_, _, rfl, rfl, a.putBack c, b.putBack c, rfl, rfl, ?_, hjournal⟩
    rw [hlend, hlend]
    exact htwins.putBack c
  · simp only [hroom, if_false]
    exact Or.inr ⟨_, rfl, rfl⟩

theorem place?_eq (h : s.Twins t) : CharStream.place? t = CharStream.place? s := by
  rcases h with ⟨a, b, hs, ht, htwins, -⟩
  show (t.files.head?).map Source.location = (s.files.head?).map Source.location
  rw [hs, ht]
  exact congrArg some htwins.location_eq

theorem draw (h : s.Twins t) : t.draw.1 = s.draw.1 ∧ s.draw.2.Twins t.draw.2 := by
  rcases h with ⟨a, b, hs, ht, htwins, hjournal⟩
  obtain ⟨hindex, h'⟩ := htwins.nextIndex
  rw [Stream.draw, Stream.draw, hs, ht]
  exact ⟨hindex, a.nextIndex.2, b.nextIndex.2, rfl, rfl, h', hjournal⟩

theorem record (h : s.Twins t) (e : Event) : (s.record e).Twins (t.record e) := by
  rcases h with ⟨a, b, hs, ht, htwins, hjournal⟩
  refine ⟨a, b, hs, ht, htwins, ?_⟩
  rw [Stream.record, Stream.record, hjournal]

end Twins

def copy : Copy Stream Stream where
  rel := Twins
  read := Twins.readAcross
  unread := Twins.unread
  place? := Twins.place?_eq
  depth := by
    rintro s t ⟨a, b, hs, ht, -⟩
    show t.files.length = s.files.length
    rw [hs, ht]
    rfl
  draw := Twins.draw
  note h shown := h.record (.warning shown)

end Stream

/-- What can be asked of a lexer and of the stream that it reads. -/
inductive Request where
  | nextToken
  | rawToken
  | skipGroup
  | headerName
  | readChar
  | readAcross
  /-- Puts a character back; the end of input is none. -/
  | unread (c : Option UInt8)

inductive Answer where
  | token (t : Token)
  | header (name? : Option HeaderName)
  | char (c : Option UInt8)
  | done
  deriving DecidableEq

/-- The next character of the active source. -/
def Lexer.readChar : LexM (Option UInt8) := fun lx =>
  .ok lx.stream.readChar.1 { lx with stream := lx.stream.readChar.2 }

def Request.run : Request → LexM Answer
  | .nextToken => do return .token (← Lexer.nextToken)
  | .rawToken => do return .token (← Lexer.rawToken)
  | .skipGroup => do
    Lexer.skipGroup
    return .done
  | .headerName => do return .header (← headerName?)
  | .readChar => do return .char (← Lexer.readChar)
  | .readAcross => do return .char (← next?)
  | .unread none => return .done
  | .unread (some c) => do
    Lexer.unread c
    return .done

/-- What is seen of one request: its answer or its failure, and the line, the column and the next
token number of the active source afterwards. -/
structure Observation where
  answer : Except Failure Answer
  position : Option (Int × Int × Nat)
  deriving DecidableEq

/-- Line, column and next token number of the active source. -/
def Stream.position (s : Stream) : Option (Int × Int × Nat) :=
  s.top?.map fun top => (top.line, top.column, top.tokens)

/-- What is seen of some requests, one after another. A request that fails does not keep the next
one from being made. -/
def transcript : List Request → Lexer → List Observation
  | [], _ => []
  | request :: requests, lx =>
    match request.run lx with
    | .ok answer lx' => ⟨.ok answer, lx'.stream.position⟩ :: transcript requests lx'
    | .error f lx' => ⟨.error f, lx'.stream.position⟩ :: transcript requests lx'

namespace Stream

theorem Twins.position_eq {s t : Stream} (h : s.Twins t) : t.position = s.position := by
  rcases h with ⟨a, b, hs, ht, ⟨input, -, h⟩, -⟩
  rw [position, position, top?, top?, hs, ht]
  exact congrArg some (congrArg (fun x : Source => (x.line, x.column, x.tokens)) h :)

theorem copies_readChar : copy.Copies Lexer.readChar Lexer.readChar := by
  rintro s _ ⟨stream, h, rfl⟩
  obtain ⟨hc, h'⟩ := Twins.readChar h
  exact ⟨hc, _, h', rfl⟩

theorem copies_request (request : Request) : copy.Copies request.run request.run := by
  have hanswer : ∀ {α : Type} {m : LexM α} (g : α → Answer), copy.Copies m m →
      copy.Copies (do return g (← m)) (do return g (← m)) :=
    fun g hm => Copy.copies_bind hm fun a => Copy.copies_pure (g a)
  cases request with
  | nextToken => exact hanswer .token Copy.copies_nextToken
  | rawToken => exact hanswer .token Copy.rules.rel_rawToken
  | skipGroup => exact hanswer (fun _ => .done) Copy.copies_skipGroup
  | headerName => exact hanswer .header Copy.copies_headerName?
  | readChar => exact hanswer .char copies_readChar
  | readAcross => exact hanswer .char Copy.copies_next?
  | unread c =>
      cases c with
      | none => exact Copy.copies_pure _
      | some c => exact hanswer (fun _ => .done) (Copy.copies_unread c)

theorem transcript_eq {s t : Lexer} (h : copy.Beside s t) (requests : List Request) :
    transcript requests t = transcript requests s := by
  have hposition : ∀ {s t : Lexer}, copy.Beside s t → t.stream.position = s.stream.position := by
    rintro s _ ⟨stream, h, rfl⟩
    exact Twins.position_eq h
  induction requests generalizing s t with
  | nil => rfl
  | cons request requests ih =>
      have hrun := copies_request request s t h
      rw [transcript, transcript]
      cases hs : request.run s with
      | ok answer s' =>
          rw [hs] at hrun
          rcases hrun.ok with ⟨t', ht, h'⟩
          rw [ht]
          dsimp only
          rw [hposition h', ih h']
      | error f s' =>
          rw [hs] at hrun
          rcases hrun.error with ⟨t', ht, h'⟩
          rw [ht]
          dsimp only
          rw [hposition h', ih h']

end Stream

/-- A source over a handle, its own or that of standard input, and a source over the same bytes in
memory answer all requests alike, whether or not some of them fail, and are at the same place after
each of them. -/
theorem transcript_handle (name : String) (bytes : List UInt8) (options : Options)
    (requests : List Request) :
    let memory := Lexer.ofStream (Stream.ofSources [.ofBytes name bytes]) options
    let file := Lexer.ofStream (Stream.ofSources [.ofFile name bytes]) options
    let standard := Lexer.ofStream { files := [.console name], console := bytes } options
    transcript requests file = transcript requests memory ∧
      transcript requests standard = transcript requests memory := by
  intro memory file standard
  constructor
  · apply Stream.transcript_eq
    exact ⟨file.stream, ⟨_, _, rfl, rfl, ⟨.handle false none bytes, rfl, rfl⟩, rfl⟩, rfl⟩
  · apply Stream.transcript_eq
    exact ⟨standard.stream, ⟨_, _, rfl, rfl, ⟨.handle true none bytes, rfl, rfl⟩, rfl⟩, rfl⟩

end CLex
