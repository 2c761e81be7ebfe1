import CLex.Lexer.Conditional
import CLex.Lexer.Header
import CLex.Lexer.Isolated
import CLex.Proofs.Room

namespace CLex

open Character Lexer LexM

namespace Room

variable {options : Options} {stashed : List (List Source)}

theorem leads_takeIf_zero (p : UInt8 → Bool) :
    Leads (footing options stashed).Failed (Roomy options stashed 0) (takeIf p)
      fun _ => Roomy options stashed 0 := by
  refine leads_bind leads_next_zero fun d => ?_
  cases d with
  | none => exact leads_pure fun lx h => h
  | some d =>
      dsimp only
      split
      · exact leads_pure fun lx h => mono h (Nat.zero_le 1)
      · exact leads_bind (leads_unread d) fun _ => leads_pure fun lx h => h.1

theorem keeps_skipIf (c : UInt8) : Keeps options stashed (skipIf c) := by
  refine keeps_bind (leads_takeIf_zero _) fun d => ?_
  cases d with
  | none => exact keeps_pure _
  | some d => exact keeps_pure _

theorem keeps_headerUpTo (start : Location) (close : UInt8) (system : Bool) :
    Keeps options stashed (headerUpTo start close system) := by
  refine keeps_bind (keeps_loop (fun bytes => ?_) []) fun bytes => ?_
  · refine keeps_bind (keeps_skipIf close) fun closed => ?_
    cases closed with
    | true => exact keeps_pure _
    | false =>
        refine keeps_bind keeps_next fun d => ?_
        cases d with
        | none => exact keeps_fail rfl start
        | some d =>
            dsimp only
            split
            · exact keeps_fail rfl start
            · exact keeps_pure _
  · split
    · exact keeps_fail rfl start
    · exact keeps_pure _

theorem keeps_headerName? : Keeps options stashed headerName? := by
  refine leads_bind (Q := fun _ => Roomy options stashed 0) (fun lx h => h) fun lx => ?_
  split
  · refine keeps_bind keeps_needSource fun _ => keeps_bind keeps_skipBlanks fun _ => ?_
    refine keeps_bind (keeps_here 0) fun start => keeps_bind (keeps_skipIf _) fun quoted => ?_
    split
    · exact keeps_headerUpTo start _ _
    · refine keeps_bind (keeps_skipIf _) fun angled => ?_
      split
      · exact keeps_headerUpTo start _ _
      · exact keeps_pure _
  · exact keeps_pure _

theorem keeps_close (close : UInt8) :
    Keeps options stashed (loop (closeRound close) (progress_closeRound close) ()) := by
  refine keeps_loop (fun _ => keeps_bind keeps_next fun d => ?_) ()
  cases d with
  | none => exact keeps_pure _
  | some d =>
      dsimp only
      split
      · exact keeps_pure _
      · exact keeps_pure _

theorem keeps_skipCharLiteral : Keeps options stashed skipCharLiteral := by
  refine keeps_bind keeps_next fun first => ?_
  split
  · exact keeps_bind keeps_next fun _ => keeps_close _
  · exact keeps_close _

theorem keeps_skipStringLiteral : Keeps options stashed skipStringLiteral := by
  refine keeps_loop (fun _ => keeps_bind keeps_next fun d => ?_) ()
  cases d with
  | none => exact keeps_pure _
  | some d =>
      dsimp only
      split
      · exact keeps_pure _
      · split
        · exact keeps_bind keeps_next fun _ => keeps_pure _
        · exact keeps_pure _

theorem keeps_skipLine : Keeps options stashed skipLine :=
  Footing.leads_skipLine (F := footing options stashed)

theorem keeps_hashToken (hash : HashMark) : Keeps options stashed (hashToken hash) := by
  refine leads_of_ok fun lx h => ?_
  unfold hashToken
  split
  · exact ⟨_, _, rfl, roomy_draw h⟩
  · exact ⟨_, _, rfl, h⟩

theorem keeps_directive (hash : HashMark) (depth : Nat) :
    Keeps options stashed (directive hash depth) := by
  refine keeps_bind keeps_nextToken fun t => ?_
  split
  · split
    · refine keeps_bind (keeps_pushBack t) fun _ => keeps_bind (keeps_hashToken hash) fun h => ?_
      exact keeps_bind (keeps_pushBack h) fun _ => keeps_pure _
    · exact keeps_bind keeps_skipLine fun _ => keeps_pure _
  · exact keeps_pure _

theorem keeps_groupFrom (startsLine : Bool) (depth : Nat) (c : UInt8) :
    Keeps options stashed (groupFrom startsLine depth c) := by
  unfold groupFrom
  split
  · exact keeps_bind keeps_skipCharLiteral fun _ => keeps_pure _
  · split
    · exact keeps_bind keeps_skipStringLiteral fun _ => keeps_pure _
    · split
      · refine leads_bind (Q := fun _ => Roomy options stashed 0) (fun lx h => h) fun lx => ?_
        split
        · exact keeps_pure _
        · exact keeps_directive _ depth
      · exact keeps_pure _

theorem keeps_skipGroup : Keeps options stashed skipGroup := by
  refine keeps_bind keeps_needSource fun _ => keeps_loop (fun depth => ?_) 0
  refine keeps_bind keeps_isAtLineStart fun startsLine => keeps_bind keeps_skipBlanks fun _ => ?_
  refine keeps_bind keeps_next fun d => ?_
  cases d with
  | none => exact keeps_pure _
  | some d => exact keeps_groupFrom startsLine depth d

theorem keeps_wholeToken (shown : String) : Keeps options stashed (wholeToken shown) := by
  refine keeps_bind keeps_rawToken fun t => keeps_bind (keeps_skipIf newline) fun _ => ?_
  refine keeps_bind (keeps_here 0) fun rest => ?_
  refine leads_bind (Q := fun _ => Roomy options stashed 0) ?_ fun more => ?_
  · refine leads_bind leads_next_zero fun d => ?_
    cases d with
    | none => exact keeps_pure _
    | some d => exact leads_bind (leads_unread d) fun _ => leads_pure fun lx h => h.1
  · split
    · exact keeps_fail rfl rest
    · exact keeps_pure t

theorem roomy_restore {lx lx' : Lexer} (h : Roomy options stashed 0 lx)
    (h' : Roomy options (lx.stream.files :: stashed) 0 lx') :
    Roomy options stashed 0 (restore lx') := by
  have hstream : lx'.stream.unstash? =
      some ({ lx'.stream with files := lx.stream.files, stashed }.record .restored) := by
    unfold Stream.unstash?
    rw [h'.stashed]
  unfold restore
  rw [hstream]
  exact ⟨h.room, rfl, h'.options, h'.pending⟩

theorem keeps_tokenOfText (bytes : List UInt8) (shown : String) :
    Keeps options stashed (tokenOfText bytes shown) := by
  intro lx h
  have hfresh : (lx.stream.stash (.ofBytes "(string)" bytes)).HasRoom 0 :=
    (Stream.hasRoom_single rfl (Source.isFresh_ofBytes "(string)" bytes)).mono (Nat.zero_le 3)
  have hkeeps : Keeps options (lx.stream.files :: stashed) (wholeToken shown) :=
    keeps_wholeToken shown
  have hwhole := hkeeps { lx with stream := lx.stream.stash (.ofBytes "(string)" bytes) }
    ⟨hfresh, congrArg (lx.stream.files :: ·) h.stashed, h.options, h.pending⟩
  rw [tokenOfText]
  dsimp only
  cases hrun : wholeToken shown
      { lx with stream := lx.stream.stash (.ofBytes "(string)" bytes) } with
  | ok t lx' =>
      rw [hrun] at hwhole
      exact roomy_restore h hwhole
  | error f lx' =>
      rw [hrun] at hwhole
      exact ⟨hwhole.1, roomy_restore h hwhole.2⟩

end Room

/-- What can be asked of a lexer. -/
inductive Call where
  | nextToken
  | rawToken
  | pushBack (t : Token)
  | tokenOfText (bytes : List UInt8) (shown : String)
  | headerName
  | skipGroup

def Call.run : Call → LexM Unit
  | .nextToken => discard Lexer.nextToken
  | .rawToken => discard Lexer.rawToken
  | .pushBack t => Lexer.pushBack t
  | .tokenOfText bytes shown => discard (Lexer.tokenOfText bytes shown)
  | .headerName => discard headerName?
  | .skipGroup => Lexer.skipGroup

/-- The failures of some calls, one after another, and the lexer afterwards. A call that fails does
not keep the next one from being made. -/
def runCalls : List Call → Lexer → List Failure × Lexer
  | [], lx => ([], lx)
  | call :: calls, lx =>
    match call.run lx with
    | .ok () lx' => runCalls calls lx'
    | .error f lx' => ((f :: (runCalls calls lx').1), (runCalls calls lx').2)

namespace Room

variable {options : Options} {stashed : List (List Source)}

theorem keeps_call (call : Call) : Keeps options stashed call.run := by
  have hdiscard : ∀ {α : Type} {m : LexM α}, Keeps options stashed m →
      Keeps options stashed (discard m) :=
    fun h => keeps_bind h fun _ => keeps_pure ()
  cases call with
  | nextToken => exact hdiscard keeps_nextToken
  | rawToken => exact hdiscard keeps_rawToken
  | pushBack t => exact keeps_pushBack t
  | tokenOfText bytes shown => exact hdiscard (keeps_tokenOfText bytes shown)
  | headerName => exact hdiscard keeps_headerName?
  | skipGroup => exact keeps_skipGroup

theorem roomy_runCalls {lx : Lexer} (h : Roomy options stashed 0 lx) (calls : List Call) :
    (∀ f ∈ (runCalls calls lx).1, Failure.FromText options f) ∧
      Roomy options stashed 0 (runCalls calls lx).2 := by
  induction calls generalizing lx with
  | nil => exact ⟨by simp [runCalls], h⟩
  | cons call calls ih =>
      have hrun := keeps_call call lx h
      rw [runCalls]
      cases hcall : call.run lx with
      | ok _ lx' =>
          rw [hcall] at hrun
          exact ih hrun
      | error f lx' =>
          rw [hcall] at hrun
          rcases ih hrun.2 with ⟨hfailures, hroomy⟩
          refine ⟨?_, hroomy⟩
          intro g hg
          rcases List.mem_cons.mp hg with rfl | hg
          · exact hrun.1
          · exact hfailures g hg

theorem roomy_fresh {stream : Stream} (hne : stream.files ≠ [])
    (hfresh : ∀ source ∈ stream.files, source.IsFresh) (options : Options) :
    Roomy options stream.stashed 0 (Lexer.ofStream stream options) :=
  ⟨(Stream.hasRoom_of_fresh hne hfresh).mono (Nat.zero_le 3), rfl, rfl, by simp [Lexer.ofStream]⟩

end Room

/-- Over a stack of fresh sources no calls whatever put back more than there is room for or find the
stack empty. After them, and so after each of them, no source holds more characters than it can, and
what its next read puts back finds room as well. -/
theorem runCalls_room {stream : Stream} (hne : stream.files ≠ [])
    (hfresh : ∀ source ∈ stream.files, source.IsFresh) (options : Options) (calls : List Call) :
    let run := runCalls calls (Lexer.ofStream stream options)
    (∀ f ∈ run.1, f ≠ .nothingThere ∧ ∀ file capacity, f ≠ .pushbackFull file capacity) ∧
      run.2.stream.files ≠ [] ∧
      ∀ source ∈ run.2.stream.files,
        source.pushback.length ≤ Source.capacity ∧ source.readChar? = some source.readChar := by
  intro run
  rcases Room.roomy_runCalls (Room.roomy_fresh hne hfresh options) calls with ⟨hfailures, hroomy⟩
  rcases hroomy.room with ⟨top, below, hfiles, htop, hbelow⟩
  refine ⟨?_, ?_, ?_⟩
  · intro f hf
    cases hfailures f hf with
    | malformed => exact ⟨nofun, nofun⟩
    | promoted => exact ⟨nofun, nofun⟩
    | tooLarge => exact ⟨nofun, nofun⟩
  · rw [hfiles]
    simp
  · intro source hsource
    have hlength : source.pushback.length ≤ Source.capacity := by
      rw [hfiles] at hsource
      rcases List.mem_cons.mp hsource with rfl | hsource
      · exact htop
      · rw [hbelow source hsource]
        exact Nat.zero_le _
    exact ⟨hlength, Source.readChar?_eq hlength⟩

theorem runCalls_room_full :
    let lx := Lexer.ofStream (Stream.ofSources [.ofBytes "t.c" (bytes ['%', ':', '%', '\\', 'x'])])
    let run := runCalls [.nextToken] lx
    run.2.stream.files.map (·.pushback.length) = [Source.capacity] ∧ run.2.stream.files ≠ [] := by
  intro lx run
  have hfresh : ∀ source ∈ lx.stream.files, source.IsFresh :=
    fun source h => List.mem_singleton.mp h ▸ Source.isFresh_ofBytes _ _
  refine ⟨by decide +kernel, ?_⟩
  exact (runCalls_room (show lx.stream.files ≠ [] by decide) hfresh {} [.nextToken]).2.1

end CLex
