import CLex.Proofs.Room

namespace CLex

open Character

namespace Source

theorem column_get_newline {s s' : Source} (h : s.get = (some newline, s')) : s'.column = 1 := by
  unfold get at h
  split at h
  · next c rest hp =>
    simp only [Prod.mk.injEq, Option.some.injEq] at h
    rcases h with ⟨rfl, rfl⟩
    simp [advance]
  · simp only [Prod.mk.injEq] at h
    rcases h with ⟨hc, rfl⟩
    rw [hc]
    simp [advance]

theorem get_putBack {s s' : Source} {c : UInt8} (h : s.get = (some c, s')) :
    (s'.putBack c).get = (some c, s') := by
  by_cases hc : c = newline
  · subst hc
    have hcolumn := column_get_newline h
    cases s'
    simp_all [putBack, get, advance]
  · cases s'
    simp [putBack, get, advance, hc]

theorem readInput_of_readInput_none {s s' : Source} (h : s.readInput = (none, s')) :
    s'.readInput = (none, s') := by
  unfold readInput at h
  split at h
  · next rest hn =>
    rcases Input.remaining_next_none hn with ⟨-, rfl⟩
    by_cases hclosed : s.isLineClosed = true
    · simp only [hclosed, if_true, Prod.mk.injEq, true_and] at h
      subst h
      simp [readInput, hn, isLineClosed]
    · simp [hclosed] at h
  · split at h <;> simp at h

theorem get_of_get_none {s s' : Source} (h : s.get = (none, s')) : s'.get = (none, s') := by
  unfold get at h
  split at h
  · simp at h
  · next hp =>
    have hback : s.readInput.2.pushback = [] := s.readInput_keeps.2.2.2.1.trans hp
    simp only [Prod.mk.injEq] at h
    rcases h with ⟨hc, rfl⟩
    have hagain := readInput_of_readInput_none (Prod.ext hc rfl)
    rw [hc, advance, get]
    simp [hback, hagain, advance]

theorem readChar_putBack {s s' : Source} {c : UInt8} (h : s.readChar = (some c, s')) :
    (s'.putBack c).readChar = (some c, s') := by
  fun_induction readChar s with
  | case1 => simp at h
  | case2 s s₁ s₂ hend hb =>
      simp only [Prod.mk.injEq, Option.some.injEq] at h
      rcases h with ⟨rfl, rfl⟩
      have hback : (s₂.putBack backslash).get = (some backslash, s₂) := by
        simp [putBack, get, advance, show ¬ backslash = newline by decide]
      rw [readChar_eq, hback]
      dsimp only
      rw [if_pos rfl, get_of_get_none hend]
  | case3 s s₁ s₂ hb hpair ih => exact ih h
  | case4 s s₁ d s₂ hd hne hb =>
      simp only [Prod.mk.injEq, Option.some.injEq] at h
      rcases h with ⟨rfl, rfl⟩
      have hback : ((s₂.putBack d).putBack backslash).get = (some backslash, s₂.putBack d) := by
        simp [putBack, get, advance, hne, show ¬ backslash = newline by decide]
      rw [readChar_eq, hback]
      dsimp only
      rw [if_pos rfl, get_putBack hd]
      dsimp only
      rw [if_neg hne]
  | case5 s b s₁ hb hne =>
      simp only [Prod.mk.injEq, Option.some.injEq] at h
      rcases h with ⟨rfl, rfl⟩
      rw [readChar_eq, get_putBack hb]
      dsimp only
      rw [if_neg hne]

theorem readChar_of_readChar_none {s s' : Source} (h : s.readChar = (none, s')) :
    s'.readChar = (none, s') := by
  fun_induction readChar s with
  | case1 s s₁ hend =>
      simp only [Prod.mk.injEq, true_and] at h
      subst h
      rw [readChar_eq, get_of_get_none hend]
  | case2 => simp at h
  | case3 s s₁ s₂ hb hpair ih => exact ih h
  | case4 => simp at h
  | case5 => simp at h

theorem readChar_putBack_of_ne {s : Source} {c : UInt8} (hline : c ≠ newline)
    (hpair : c ≠ backslash) : (s.putBack c).readChar = (some c, s) := by
  have hback : (s.putBack c).get = (some c, s) := by
    cases s
    simp [putBack, get, advance, hline]
  rw [readChar_eq, hback]
  dsimp only
  rw [if_neg hpair]

theorem lend_putBack (bytes : List UInt8) (s : Source) (c : UInt8) :
    (s.putBack c).lend bytes = (s.lend bytes).putBack c := by
  simp only [putBack, lend]
  split <;> rfl

theorem settle_putBack (s : Source) (c : UInt8) (bytes : List UInt8) :
    (s.putBack c).settle bytes = ((s.settle bytes).1.putBack c, (s.settle bytes).2) := by
  simp only [putBack, settle]
  split <;> rfl

theorem settle_settle (s : Source) (bytes : List UInt8) :
    s.settle (s.settle bytes).2 = s.settle bytes := by
  unfold settle
  match h : s.input with
  | .memory _ _ | .handle false _ _ | .handle true _ _ => rfl

end Source

namespace Stream

theorem unread_eq_ok {s s' : Stream} {c : UInt8} (h : s.unread c = .ok s') :
    ∃ top below, s.files = top :: below ∧ s' = { s with files := top.putBack c :: below } := by
  unfold unread at h
  split at h
  · cases h
  · next top below hfiles =>
    split at h
    · next top' hroom =>
      cases h
      unfold Source.unread? at hroom
      split at hroom
      · cases hroom
        exact ⟨top, below, hfiles, rfl⟩
      · cases hroom
    · cases h

theorem readChar_unread {s s' s'' : Stream} {c : UInt8} (h : s.readChar = (some c, s'))
    (hunread : s'.unread c = .ok s'') : s''.readChar = (some c, s') := by
  rcases unread_eq_ok hunread with ⟨top, below, hfiles, rfl⟩
  unfold readChar at h
  split at h
  · cases h
  · next top₀ below₀ hfiles₀ =>
    simp only [Prod.mk.injEq] at h
    rcases h with ⟨hc, rfl⟩
    rw [List.cons.injEq] at hfiles
    rcases hfiles with ⟨rfl, rfl⟩
    have hread := Source.readChar_putBack (Prod.ext hc rfl)
    simp only [readChar, Source.lend_putBack, Source.lend_settle, hread, Source.settle_settle]

/-- A character that has been read and put back is read again, with the same stream behind it. -/
theorem readAcross_unread {s s' s'' : Stream} {c : UInt8} (h : s.readAcross = (some c, s'))
    (hunread : s'.unread c = .ok s'') : s''.readAcross = (some c, s') := by
  fun_induction readAcross s with
  | case1 s d s₁ hread =>
      simp only [Prod.mk.injEq, Option.some.injEq] at h
      rcases h with ⟨rfl, rfl⟩
      have hagain := readChar_unread hread hunread
      rw [readAcross]
      split
      · next hr => rw [hagain] at hr; exact hr.symm
      · next hr => rw [hagain] at hr; simp at hr
  | case2 => simp at h
  | case3 s s₁ hread hdeep ih => exact ih h

/-- The active source has given back the bytes of standard input. -/
def Settled (s : Stream) : Prop :=
  ∀ top below, s.files = top :: below → (top.lend s.console).settle s.console = (top, s.console)

theorem settled_readChar (s : Stream) : s.readChar.2.Settled := by
  intro top below hfiles
  unfold readChar at hfiles ⊢
  split at hfiles
  · next hnil =>
    rw [hnil] at hfiles
    cases hfiles
  · next top₀ below₀ hfiles₀ =>
    dsimp only at hfiles ⊢
    rw [List.cons.injEq] at hfiles
    rw [← hfiles.1, Source.lend_settle, Source.settle_settle]

theorem settled_readAcross (s : Stream) : s.readAcross.2.Settled := by
  fun_induction readAcross s with
  | case1 s c s₁ hread =>
      have hsettled := settled_readChar s
      rw [hread] at hsettled
      exact hsettled
  | case2 s s₁ hread hlast =>
      have hsettled := settled_readChar s
      rw [hread] at hsettled
      exact hsettled
  | case3 s s₁ hread hdeep ih => exact ih

theorem Settled.unread {s s' : Stream} {c : UInt8} (h : s.Settled) (hunread : s.unread c = .ok s') :
    s'.Settled := by
  rcases unread_eq_ok hunread with ⟨top, below, hfiles, rfl⟩
  intro _ _ hfiles'
  rw [List.cons.injEq] at hfiles'
  rw [← hfiles'.1, Source.lend_putBack, Source.settle_putBack, h top below hfiles]

theorem readAcross_unread_of_ne {s s' : Stream} {c : UInt8} (h : s.Settled) (hline : c ≠ newline)
    (hpair : c ≠ backslash) (hunread : s.unread c = .ok s') : s'.readAcross = (some c, s) := by
  rcases unread_eq_ok hunread with ⟨top, below, hfiles, rfl⟩
  have hread : ({ s with files := top.putBack c :: below } : Stream).readChar = (some c, s) := by
    simp only [readChar, Source.lend_putBack, Source.readChar_putBack_of_ne hline hpair,
      h top below hfiles]
    rw [← hfiles]
  rw [readAcross]
  split
  · next hr => rw [hread] at hr; exact hr.symm
  · next hr => rw [hread] at hr; cases hr

theorem readChar_of_readChar_none {s s' : Stream} (h : s.readChar = (none, s')) :
    s'.readChar = (none, s') := by
  unfold readChar at h
  split at h
  · next hnil =>
    cases h
    rw [readChar]
    split
    · rfl
    · next hfiles => rw [hnil] at hfiles; cases hfiles
  · next top below hfiles =>
    simp only [Prod.mk.injEq] at h
    rcases h with ⟨hc, rfl⟩
    have hagain := Source.readChar_of_readChar_none (Prod.ext hc rfl)
    simp only [readChar, Source.lend_settle, hagain, Source.settle_settle]

theorem readAcross_of_readAcross_none {s s' : Stream} (h : s.readAcross = (none, s')) :
    s'.readAcross = (none, s') := by
  fun_induction readAcross s with
  | case1 => cases h
  | case2 s s₁ hread hlast =>
      cases h
      have hagain := readChar_of_readChar_none hread
      rw [readAcross]
      split
      · next hr => rw [hagain] at hr; cases hr
      · next hr =>
        rw [hagain] at hr
        cases hr
        rw [if_pos hlast]
  | case3 s s₁ hread hdeep ih => exact ih h

/-- No source holds more characters that were put back than it has room for. -/
def Bounded (s : Stream) : Prop :=
  ∀ source ∈ s.files, source.pushback.length ≤ Source.capacity

instance (s : Stream) : Decidable s.Bounded :=
  inferInstanceAs (Decidable (∀ source ∈ s.files, source.pushback.length ≤ Source.capacity))

theorem exists_unread {s : Stream} {top : Source} {below : List Source}
    (hfiles : s.files = top :: below) (hroom : top.pushback.length < Source.capacity) (c : UInt8) :
    ∃ t, s.unread c = .ok t := by
  refine ⟨{ s with files := top.putBack c :: below }, ?_⟩
  simp only [unread, hfiles, Source.unread?, if_pos hroom]

theorem Bounded.drop_readChar {s : Stream} (h : s.Bounded) : s.readChar.2.drop.Bounded := by
  intro source hsource
  rw [files_drop] at hsource
  cases hfiles : s.files with
  | nil => simp [readChar, hfiles] at hsource
  | cons top below =>
      rcases pushback_readChar hfiles with ⟨top', hfiles', -⟩
      rw [hfiles', List.tail_cons] at hsource
      exact h source (hfiles ▸ List.mem_cons_of_mem top hsource)

theorem Bounded.exists_unread_readChar {s s' : Stream} {c : UInt8} (h : s.Bounded)
    (hread : s.readChar = (some c, s')) : ∃ t, s'.unread c = .ok t := by
  cases hfiles : s.files with
  | nil => simp [readChar, hfiles] at hread
  | cons top below =>
      rcases pushback_readChar hfiles with ⟨top', hfiles', hback⟩
      have hbound := h top (hfiles ▸ List.mem_cons_self)
      rw [hread] at hfiles'
      refine exists_unread hfiles' ?_ c
      rw [Source.capacity] at *
      omega

theorem Bounded.exists_unread_readAcross {s s' : Stream} {c : UInt8} (h : s.Bounded)
    (hread : s.readAcross = (some c, s')) : ∃ t, s'.unread c = .ok t := by
  fun_induction readAcross s with
  | case1 s d s₁ hr =>
      cases hread
      exact h.exists_unread_readChar hr
  | case2 => cases hread
  | case3 s s₁ hr hdeep ih =>
      have hdrop := h.drop_readChar
      rw [hr] at hdrop
      exact ih hdrop hread

/-- Puts back what a read has given. At the end there is nothing to put back. -/
def giveBack (s : Stream) : Option UInt8 → Except Failure Stream
  | none => .ok s
  | some c => s.unread c

/-- What a read has given can be put back, and the next read gives it again and leaves the stream as
the first one did. -/
theorem read_giveBack {s : Stream} (h : s.Bounded) :
    (∃ t, s.readAcross.2.giveBack s.readAcross.1 = .ok t ∧ t.readAcross = s.readAcross) ∧
      ∃ t, s.readChar.2.giveBack s.readChar.1 = .ok t ∧ t.readChar = s.readChar := by
  constructor
  · rcases hread : s.readAcross with ⟨_ | c, s'⟩
    · exact ⟨s', rfl, readAcross_of_readAcross_none hread⟩
    · rcases h.exists_unread_readAcross hread with ⟨t, ht⟩
      exact ⟨t, ht, readAcross_unread hread ht⟩
  · rcases hread : s.readChar with ⟨_ | c, s'⟩
    · exact ⟨s', rfl, readChar_of_readChar_none hread⟩
    · rcases h.exists_unread_readChar hread with ⟨t, ht⟩
      exact ⟨t, ht, readChar_unread hread ht⟩

/-- The file on top has ended. Below it three characters have been put back, of which the first two
are a pair; the third one is another pair's backslash, and the newline behind it is made of two
bytes. The backslash that comes next takes the character behind it along. -/
theorem read_giveBack_below_file :
    let top : Source := { Source.ofFile "in.h" [] with last := some none }
    let below : Source := { Source.ofBytes "out.c" (bytes "\r\n\\b".toList) with
      pushback := bytes "\\\n\\".toList }
    let s := ofSources [top, below]
    s.Bounded ∧ s.readAcross.1 = some backslash ∧ s.readAcross.2.depth = 1 ∧
      (∃ t, s.readAcross.2.giveBack s.readAcross.1 = .ok t ∧ t.readAcross = s.readAcross) ∧
      ∃ t, s.readChar.2.giveBack s.readChar.1 = .ok t ∧ t.readChar = s.readChar := by
  intro top below s
  have hbounded : s.Bounded := by decide +kernel
  exact ⟨hbounded, by decide +kernel, by decide +kernel, read_giveBack hbounded⟩

end Stream

end CLex
