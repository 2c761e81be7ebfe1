import CLex.Source
import Mathlib.Data.List.Chain
import Mathlib.Data.List.Induction

namespace CLex.Lines

open Character

/-- The bytes with `\r\n`, `\r` and `\n` all written as one newline. -/
def uniform : List UInt8 → List UInt8
  | [] => []
  | [b] => [if b = carriageReturn then newline else b]
  | b :: c :: rest =>
      if b = carriageReturn ∧ c = newline then newline :: uniform rest
      else (if b = carriageReturn then newline else b) :: uniform (c :: rest)

/-- The text with a newline at its end, unless no line is open there. An empty text leaves open
whatever was open before it. -/
def complete (closed : Bool) (text : List UInt8) : List UInt8 :=
  if text.getLast?.elim closed (· == newline) then text else text ++ [newline]

/-- The characters of a source with the given bytes. -/
def canon (bytes : List UInt8) : List UInt8 :=
  complete false (uniform bytes)

/-- The text without its backslash-newline pairs. What a deleted pair brings together is no pair. -/
def join : List UInt8 → List UInt8
  | [] => []
  | [c] => [c]
  | c :: d :: rest =>
      if c = backslash ∧ d = newline then join rest else c :: join (d :: rest)

theorem uniform_cons (b : UInt8) (rest : List UInt8) :
    uniform (b :: rest) =
      if b = carriageReturn then
        newline :: uniform (if rest.head? = some newline then rest.tail else rest)
      else b :: uniform rest := by
  cases rest with
  | nil =>
      by_cases hb : b = carriageReturn
      · simp [uniform, hb]
      · simp [uniform, hb]
  | cons c rest =>
      by_cases hb : b = carriageReturn
      · by_cases hc : c = newline
        · simp [uniform, hb, hc]
        · simp [uniform, hb, hc]
      · simp [uniform, hb]

theorem complete_nil (closed : Bool) :
    complete closed [] = if closed then [] else [newline] := by
  cases closed <;> rfl

theorem complete_cons (closed : Bool) (c : UInt8) (text : List UInt8) :
    complete closed (c :: text) = c :: complete (c == newline) text := by
  cases text with
  | nil =>
      by_cases hc : c = newline
      · simp [complete, hc]
      · simp [complete, hc]
  | cons d text =>
      rw [complete, complete, List.getLast?_cons_cons]
      cases h : (d :: text).getLast? with
      | none => simp at h
      | some e => by_cases he : e = newline <;> simp [he]

theorem getLast?_complete (text : List UInt8) : (complete false text).getLast? = some newline := by
  rw [complete]
  cases h : text.getLast? with
  | none => simp
  | some c =>
      by_cases hc : c = newline
      · simp [hc, h]
      · simp [hc]

theorem complete_append (closed : Bool) (front : List UInt8) (c : UInt8) (text : List UInt8) :
    complete closed (front ++ c :: text) = front ++ c :: complete (c == newline) text := by
  induction front generalizing closed with
  | nil => exact complete_cons closed c text
  | cons d front ih => rw [List.cons_append, complete_cons, ih, List.cons_append]

theorem uniform_append {front : List UInt8} (h : carriageReturn ∉ front) (text : List UInt8) :
    uniform (front ++ text) = front ++ uniform text := by
  induction front with
  | nil => rfl
  | cons b front ih =>
      rw [List.mem_cons, not_or] at h
      rw [List.cons_append, uniform_cons, if_neg (Ne.symm h.1), ih h.2, List.cons_append]

theorem canon_append {front : List UInt8} {last : UInt8} (h : carriageReturn ∉ front)
    (hlast : front.getLast? = some last) (hopen : last ≠ newline) (text : List UInt8) :
    canon (front ++ text) = front ++ canon text := by
  rcases List.getLast?_eq_some_iff.mp hlast with ⟨init, rfl⟩
  rw [canon, uniform_append h, List.append_assoc, List.singleton_append, complete_append,
    beq_eq_false_iff_ne.mpr hopen, canon, List.append_assoc, List.singleton_append]

theorem uniform_of_not_mem {text : List UInt8} (h : carriageReturn ∉ text) :
    uniform text = text := by
  induction text with
  | nil => rfl
  | cons b rest ih =>
      rw [List.mem_cons, not_or] at h
      rw [uniform_cons, if_neg (Ne.symm h.1), ih h.2]

theorem not_mem_uniform (text : List UInt8) : carriageReturn ∉ uniform text := by
  have hend : ∀ b : UInt8, carriageReturn ≠ if b = carriageReturn then newline else b := by
    intro b
    split
    · decide
    · next hb => exact Ne.symm hb
  fun_induction uniform text with
  | case1 => exact List.not_mem_nil
  | case2 b => exact fun h => hend b (List.mem_singleton.mp h)
  | case3 b c rest h ih => exact List.not_mem_cons_of_ne_of_not_mem (by decide) ih
  | case4 b c rest h ih => exact List.not_mem_cons_of_ne_of_not_mem (hend b) ih

theorem not_mem_canon (text : List UInt8) : carriageReturn ∉ canon text := by
  rw [canon, complete]
  split
  · exact not_mem_uniform text
  · rw [List.mem_append, List.mem_singleton, not_or]
    exact ⟨not_mem_uniform text, by decide⟩

theorem canon_closed {text : List UInt8} (h : carriageReturn ∉ text)
    (hlast : text.getLast? = some newline) : canon text = text := by
  rw [canon, uniform_of_not_mem h, complete, hlast]
  rfl

theorem canon_open {text : List UInt8} (h : carriageReturn ∉ text)
    (hlast : text.getLast? ≠ some newline) : canon text = text ++ [newline] := by
  rw [canon, uniform_of_not_mem h, complete, if_neg ?_]
  cases hc : text.getLast? with
  | none => simp
  | some c =>
      rw [hc] at hlast
      simpa using hlast

@[simp] theorem join_nil : join [] = [] := rfl

@[simp] theorem join_pair (rest : List UInt8) :
    join (backslash :: newline :: rest) = join rest := by
  simp [join]

theorem join_cons {c : UInt8} {rest : List UInt8}
    (h : ¬ (c = backslash ∧ rest.head? = some newline)) :
    join (c :: rest) = c :: join rest := by
  cases rest with
  | nil => rfl
  | cons d rest => simp_all [join]

theorem mem_of_mem_join {text : List UInt8} {c : UInt8} (h : c ∈ join text) : c ∈ text := by
  fun_induction join text with
  | case1 => exact h
  | case2 => exact h
  | case3 d e rest _ ih => exact List.mem_cons_of_mem d (List.mem_cons_of_mem e (ih h))
  | case4 d e rest _ ih =>
      rcases List.mem_cons.mp h with rfl | h
      · exact List.mem_cons_self
      · exact List.mem_cons_of_mem d (ih h)

/-- No backslash stands directly before a newline. -/
def Unjoined (text : List UInt8) : Prop :=
  text.IsChain fun c d => ¬ (c = backslash ∧ d = newline)

instance (text : List UInt8) : Decidable (Unjoined text) :=
  inferInstanceAs (Decidable (List.IsChain _ text))

theorem Unjoined.join_eq {text : List UInt8} (h : Unjoined text) : join text = text := by
  induction text with
  | nil => rfl
  | cons c rest ih =>
      rw [Unjoined, List.isChain_cons] at h
      rw [join_cons (fun hc => h.1 _ (by simpa using hc.2) ⟨hc.1, rfl⟩), ih h.2]

theorem Unjoined.tail {c : UInt8} {rest : List UInt8} (h : Unjoined (c :: rest)) :
    Unjoined rest :=
  (List.isChain_cons.mp h).2

theorem Unjoined.append {text rest : List UInt8} (h : Unjoined text) (hrest : Unjoined rest)
    (hpair : text.getLast? = some backslash → rest.head? ≠ some newline) :
    Unjoined (text ++ rest) := by
  refine List.isChain_append.mpr ⟨h, hrest, fun c hc d hd hjoin => ?_⟩
  exact hpair (hjoin.1 ▸ hc) (hjoin.2 ▸ hd)

theorem unjoined_of_not_mem {text : List UInt8} (h : newline ∉ text) : Unjoined text := by
  induction text with
  | nil => exact List.isChain_nil
  | cons c rest ih =>
      rw [List.mem_cons, not_or] at h
      refine List.isChain_cons.mpr ⟨fun d hd hpair => h.2 ?_, ih h.2⟩
      exact hpair.2 ▸ List.mem_of_head? hd

theorem unjoined_line {text : List UInt8} (h : newline ∉ text)
    (hlast : text.getLast? ≠ some backslash) : Unjoined (text ++ [newline]) :=
  (unjoined_of_not_mem h).append (List.isChain_singleton newline) fun h => absurd h hlast

theorem join_front {front : List UInt8} (h : newline ∉ front)
    (hlast : front.getLast? ≠ some backslash) (rest : List UInt8) :
    join (front ++ rest) = front ++ join rest := by
  induction front with
  | nil => rfl
  | cons c front ih =>
      rw [List.mem_cons, not_or] at h
      cases front with
      | nil =>
          rw [List.getLast?_singleton, Ne, Option.some.injEq] at hlast
          exact join_cons fun hpair => hlast hpair.1
      | cons d front =>
          have hpair : ¬ (c = backslash ∧ (d :: front ++ rest).head? = some newline) := by
            rintro ⟨-, hhead⟩
            rw [List.cons_append, List.head?_cons, Option.some.injEq] at hhead
            exact h.2 (hhead ▸ List.mem_cons_self)
          rw [List.getLast?_cons_cons] at hlast
          rw [List.cons_append, join_cons hpair, ih h.2 hlast]
          rfl

theorem join_canon_behind {front : List UInt8} {c : UInt8} (hline : newline ∉ front)
    (hreturn : carriageReturn ∉ front) (hc : c ∉ [newline, carriageReturn, backslash])
    (text : List UInt8) : join (canon (front ++ c :: text)) = front ++ c :: join (canon text) := by
  simp only [List.mem_cons, List.not_mem_nil, or_false, not_or] at hc
  have hlast : (front ++ [c]).getLast? = some c := List.getLast?_concat
  have hline' : newline ∉ front ++ [c] := by simp [hline, Ne.symm hc.1]
  have hreturn' : carriageReturn ∉ front ++ [c] := by simp [hreturn, Ne.symm hc.2.1]
  rw [← List.singleton_append, ← List.append_assoc, canon_append hreturn' hlast hc.1,
    join_front hline' (by rw [hlast]; simpa using hc.2.2), List.append_assoc, List.singleton_append]

theorem join_append {mid : List UInt8} (h : join mid = []) (rest : List UInt8) :
    join (mid ++ rest) = join rest := by
  fun_induction join mid with
  | case1 => rfl
  | case2 => simp at h
  | case3 c d mid hcd ih =>
      rcases hcd with ⟨rfl, rfl⟩
      rw [List.cons_append, List.cons_append, join_pair]
      exact ih h
  | case4 => simp at h

theorem pairs_cases {mid : List UInt8} (h : join mid = []) :
    mid = [] ∨ (∃ w, mid = backslash :: newline :: w) ∧
      ∃ w, join w = [] ∧ mid = w ++ [backslash, newline] := by
  fun_induction join mid with
  | case1 => exact Or.inl rfl
  | case2 => simp at h
  | case3 c d mid hcd ih =>
      rcases hcd with ⟨rfl, rfl⟩
      refine Or.inr ⟨⟨mid, rfl⟩, ?_⟩
      rcases ih h with rfl | ⟨-, w, hw, rfl⟩
      · exact ⟨[], rfl, rfl⟩
      · exact ⟨backslash :: newline :: w, by rw [join_pair, hw], rfl⟩
  | case4 => simp at h

/-- The place behind the character `c`, as line and column. -/
def pass (place : Int × Int) (c : UInt8) : Int × Int :=
  if c = newline then (place.1 + 1, 1) else (place.1, place.2 + 1)

def placeAfter (text : List UInt8) : Int × Int :=
  text.foldl pass (1, 1)

/-- The character at a place of a text that begins `here`. -/
def charFrom? (here : Int × Int) : List UInt8 → Int × Int → Option UInt8
  | [], _ => none
  | c :: rest, place => if here = place then some c else charFrom? (pass here c) rest place

/-- The character at a line and a column of a text. -/
def charAt? (text : List UInt8) (line column : Int) : Option UInt8 :=
  charFrom? (1, 1) text (line, column)

theorem placeAfter_snoc (text : List UInt8) (c : UInt8) :
    placeAfter (text ++ [c]) = pass (placeAfter text) c := by
  rw [placeAfter, placeAfter, List.foldl_append]
  rfl

/-- Lines are counted by the newlines, columns by the characters since the last one. -/
theorem placeAfter_eq (text : List UInt8) :
    placeAfter text =
      (1 + (text.count newline : Int),
        1 + ((text.reverse.takeWhile (· != newline)).length : Int)) := by
  induction text using List.reverseRecOn with
  | nil => rfl
  | append_singleton text c ih =>
      rw [placeAfter_snoc, ih, pass, List.count_append, List.reverse_append]
      by_cases hc : c = newline
      · simp [hc, Int.add_assoc]
      · simp [hc, Int.add_assoc]

theorem placeAfter_newline (before : List UInt8) :
    placeAfter (before ++ [newline]) = ((placeAfter before).1 + 1, 1) := by
  rw [placeAfter_snoc, pass, if_pos rfl]

theorem column_pairs {mid : List UInt8} (h : join mid = []) (hne : mid ≠ []) (before : List UInt8) :
    (placeAfter (before ++ mid)).2 = 1 := by
  rcases pairs_cases h with rfl | ⟨-, w, -, rfl⟩
  · exact absurd rfl hne
  · rw [show before ++ (w ++ [backslash, newline]) = (before ++ w ++ [backslash]) ++ [newline] by simp,
      placeAfter_newline]

theorem one_le_column (text : List UInt8) : 1 ≤ (placeAfter text).2 := by
  induction text using List.reverseRecOn with
  | nil => decide
  | append_singleton text c ih =>
      rw [placeAfter_snoc, pass]
      split
      · exact Int.le_refl 1
      · show 1 ≤ (placeAfter text).2 + 1
        omega

theorem pair_of_column {c : UInt8} {mid : List UInt8} (hc : c ≠ newline) (hmid : join mid = [])
    {before : List UInt8} (h : (placeAfter (before ++ c :: mid)).2 = 1) :
    ∃ w, mid = w ++ [backslash, newline] := by
  rcases pairs_cases hmid with rfl | ⟨-, w, -, rfl⟩
  · rw [placeAfter_snoc, pass, if_neg hc] at h
    have hone := one_le_column before
    dsimp only at h
    omega
  · exact ⟨w, rfl⟩

theorem placeAfter_append {w : List UInt8} (hw : newline ∉ w) (before : List UInt8) :
    placeAfter (before ++ w) = ((placeAfter before).1, (placeAfter before).2 + w.length) := by
  induction w using List.reverseRecOn with
  | nil => simp
  | append_singleton w c ih =>
      simp only [List.mem_append, List.mem_singleton, not_or] at hw
      rw [← List.append_assoc, placeAfter_snoc, ih hw.1, pass, if_neg (Ne.symm hw.2)]
      simp [Int.add_assoc]

theorem one_lt_column {w : List UInt8} (hw : newline ∉ w) (hne : w ≠ []) (before : List UInt8) :
    1 < (placeAfter (before ++ w)).2 := by
  have hone := one_le_column before
  have hpos := List.length_pos_iff.mpr hne
  rw [placeAfter_append hw]
  dsimp only
  omega

/-- A place before another one, in reading order. -/
def Precedes (place place' : Int × Int) : Prop :=
  place.1 < place'.1 ∨ place.1 = place'.1 ∧ place.2 < place'.2

theorem precedes_foldl (place : Int × Int) (c : UInt8) (text : List UInt8) :
    Precedes place (text.foldl pass (pass place c)) := by
  induction text using List.reverseRecOn with
  | nil =>
      show Precedes place (pass place c)
      unfold pass Precedes
      split <;> dsimp only <;> omega
  | append_singleton text d ih =>
      rw [List.foldl_append]
      show Precedes place (pass (text.foldl pass (pass place c)) d)
      unfold pass Precedes at *
      split <;> dsimp only <;> omega

theorem charFrom?_foldl (here : Int × Int) (before : List UInt8) (c : UInt8) (rest : List UInt8) :
    charFrom? here (before ++ c :: rest) (before.foldl pass here) = some c := by
  induction before generalizing here with
  | nil => rw [List.nil_append, List.foldl_nil, charFrom?, if_pos rfl]
  | cons d before ih =>
      have hne : here ≠ (d :: before).foldl pass here := by
        intro heq
        have hprecedes := precedes_foldl here d before
        rw [List.foldl_cons] at heq
        rw [← heq, Precedes] at hprecedes
        omega
      rw [List.cons_append, charFrom?, if_neg hne]
      exact ih (pass here d)

theorem charAt?_placeAfter (before : List UInt8) (c : UInt8) (rest : List UInt8) :
    charAt? (before ++ c :: rest) (placeAfter before).1 (placeAfter before).2 = some c :=
  charFrom?_foldl (1, 1) before c rest

theorem line_le (before text : List UInt8) :
    (placeAfter before).1 ≤ (placeAfter (before ++ text)).1 := by
  induction text using List.reverseRecOn with
  | nil => simp
  | append_singleton text c ih =>
      rw [← List.append_assoc, placeAfter_snoc, pass]
      split <;> dsimp only <;> omega

theorem column_le {before text : List UInt8}
    (h : (placeAfter (before ++ text)).1 = (placeAfter before).1) :
    newline ∉ text ∧ (placeAfter before).2 ≤ (placeAfter (before ++ text)).2 := by
  induction text using List.reverseRecOn with
  | nil => simp
  | append_singleton text c ih =>
      have hle := line_le before text
      rw [← List.append_assoc, placeAfter_snoc, pass] at h ⊢
      split at h
      · dsimp only at h
        omega
      · next hc =>
        rcases ih h with ⟨hnot, hcolumn⟩
        rw [if_neg hc]
        refine ⟨?_, by dsimp only; omega⟩
        rw [List.mem_append, List.mem_singleton]
        rintro (hmem | heq)
        · exact hnot hmem
        · exact hc heq.symm

end CLex.Lines
