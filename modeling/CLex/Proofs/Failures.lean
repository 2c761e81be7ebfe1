import CLex.CommandLine.Run
import CLex.Proofs.Session

namespace CLex

open Character Lexer LexM

namespace Room

variable {options : Options} {stashed : List (List Source)}

/-- A listing ends with the end token or with a failure that the text gives it. -/
def Concluded (options : Options) (listing : Listing) : Prop :=
  match listing.failure with
  | none => ∃ before last, listing.tokens = before ++ [last] ∧ last.lexeme = .eof
  | some f => Failure.FromText options f

theorem Concluded.cons {listing : Listing} (h : Concluded options listing) (t : Token) :
    Concluded options (listing.cons t) := by
  unfold Concluded at *
  show match listing.failure with
    | none => ∃ before last, t :: listing.tokens = before ++ [last] ∧ last.lexeme = .eof
    | some f => Failure.FromText options f
  cases hfailure : listing.failure with
  | some f =>
      rw [hfailure] at h
      exact h
  | none =>
      rw [hfailure] at h
      rcases h with ⟨before, last, htokens, hlast⟩
      exact ⟨t :: before, last, congrArg (t :: ·) htokens, hlast⟩

theorem listing_concluded {lx : Lexer} (h : Roomy options stashed 0 lx) :
    Concluded options lx.listing := by
  induction lx using listing_induction with
  | error lx f lx' hnext =>
      have hrun := keeps_nextToken lx h
      rw [hnext] at hrun
      rw [listing_of_error hnext]
      exact hrun.1
  | last lx t lx' hnext hend =>
      rw [listing_of_end hnext hend]
      exact ⟨[], t, rfl, by simpa [Token.isEnd] using hend⟩
  | more lx t lx' hnext hend ih =>
      have hrun := keeps_nextToken lx h
      rw [hnext] at hrun
      rw [listing_of_more hnext hend]
      exact (ih hrun).cons t

end Room

namespace CommandLine

/-- The command ends with this exit code whenever it opens these sources and writes to standard
output. -/
def Exits (lx : Lexer) (code : Nat) : Prop :=
  ∀ settings host, open? settings host = .ok lx → outputPath? settings = none →
    (execute settings host).exit = code

theorem execute_exit {settings : Settings} {host : Host} {lx : Lexer}
    (hopen : open? settings host = .ok lx) (hpath : outputPath? settings = none) :
    (execute settings host).exit =
      match lx.listing.failure with
      | none => 0
      | some f => ((Problem.failure f).report settings.verbose).exit := by
  rw [execute, hopen]
  dsimp only
  rw [hpath]
  dsimp only
  rw [hopen]
  dsimp only [Except.toOption, Option.getD]
  cases lx.listing.failure with
  | none => rfl
  | some f => rfl

theorem exits_zero {lx : Lexer} (h : lx.listing.failure = none) : Exits lx 0 := by
  intro settings host hopen hpath
  rw [execute_exit hopen hpath, h]

theorem exits_one {lx : Lexer} {cause : Cause} {location : Location}
    (h : lx.listing.failure = some (.located cause location))
    (hcause : ∀ file reason, cause ≠ .cannotOpen file reason) : Exits lx 1 := by
  intro settings host hopen hpath
  rw [execute_exit hopen hpath, h]
  cases cause with
  | cannotOpen file reason => exact absurd rfl (hcause file reason)
  | _ => rfl

theorem exits_three {lx : Lexer} {code : Nat}
    (h : lx.listing.failure = some (.codePointTooLarge code)) : Exits lx 3 := by
  intro settings host hopen hpath
  rw [execute_exit hopen hpath, h]
  rfl

end CommandLine

open CommandLine

/-- The tokens of any stack of fresh sources end with the end token, with a diagnostic about the
text, or with a warning that counts as an error; if they do not, then the text holds a universal
character name that is too large, and only then the command calls it an internal error. -/
theorem listing_failure {stream : Stream} (hne : stream.files ≠ [])
    (hfresh : ∀ source ∈ stream.files, source.IsFresh) (options : Options) :
    let lx := Lexer.ofStream stream options
    (lx.listing.failure = none ∧ Exits lx 0 ∧
        ∃ before last, lx.listing.tokens = before ++ [last] ∧ last.lexeme = .eof) ∨
      (∃ cause location, lx.listing.failure = some (.located cause location) ∧ Exits lx 1 ∧
        (cause.isSyntax = true ∨
          options.warningsAsErrors = true ∧ ∃ text, cause = .promotedWarning text none)) ∨
      ∃ code, 0x200000 ≤ code ∧ lx.listing.failure = some (.codePointTooLarge code) ∧
        Exits lx 3 := by
  intro lx
  have hends : Room.Concluded options lx.listing :=
    Room.listing_concluded (Room.roomy_fresh hne hfresh options)
  unfold Room.Concluded at hends
  cases hfailure : lx.listing.failure with
  | none =>
      rw [hfailure] at hends
      exact Or.inl ⟨rfl, exits_zero hfailure, hends⟩
  | some f =>
      rw [hfailure] at hends
      cases hends with
      | @malformed cause hcause location =>
          refine Or.inr (Or.inl ⟨cause, location, rfl, exits_one hfailure ?_, Or.inl hcause⟩)
          rintro file reason rfl
          cases hcause
      | promoted _ herrors text location =>
          refine Or.inr (Or.inl ⟨_, location, rfl, exits_one hfailure nofun, Or.inr ⟨herrors, ?_⟩⟩)
          exact ⟨text, rfl⟩
      | @tooLarge code hcode =>
          exact Or.inr (Or.inr ⟨code, hcode, rfl, exits_three hfailure⟩)

theorem listing_failure_unterminated :
    let settings : Settings := ⟨"-", none, false, false, false, false⟩
    let host : Host := ⟨⟨[], []⟩, some (bytes ['a', ' ', '"'])⟩
    (execute settings host).exit = 1 := by
  intro settings host
  let opened : Stream := { console := bytes ['a', ' ', '"'] }
  let stream := (opened.record (.opened "-")).push (Source.console "-")
  have hopen : open? settings host = .ok (Lexer.ofStream stream) := rfl
  have hfresh : ∀ source ∈ stream.files, source.IsFresh :=
    fun source h => List.mem_singleton.mp h ▸ ⟨rfl, rfl, rfl, rfl, rfl⟩
  have hfailure : (Lexer.ofStream stream).listing.failure =
      some (.located .unterminatedString ⟨"-", 1, 3⟩) := by
    decide +kernel
  rcases listing_failure (show stream.files ≠ [] by decide) hfresh {} with
    ⟨hnone, -⟩ | ⟨cause, location, -, hexits, -⟩ | ⟨code, -, hsome, -⟩
  · exact absurd (hfailure.symm.trans hnone) (by simp)
  · exact hexits settings host hopen rfl
  · exact absurd (hfailure.symm.trans hsome) (by simp [Failure.located])

/-- The largest number that eight digits can write passes for a universal character name. -/
theorem listing_failure_large :
    let settings : Settings := ⟨"-", none, false, false, false, false⟩
    let text := bytes "\"\\UFFFFFFFF\"".toList
    (Lexer.ofStream (Stream.ofSources [.ofBytes "t.c" text])).listing.failure =
        some (.codePointTooLarge 0xFFFFFFFF) ∧
      (execute settings ⟨⟨[], []⟩, some text⟩).exit = 3 := by
  decide +kernel

end CLex
