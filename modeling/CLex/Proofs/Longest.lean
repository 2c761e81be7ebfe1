import CLex.Lexer.Operator

namespace CLex

open Character Lexer

namespace Punctuator

theorem mem_all (p : Punctuator) : p ∈ all := by
  cases p <;> decide

def digraphs : List (List Char × Punctuator) :=
  [(['<', ':'], .leftBracket), ([':', '>'], .rightBracket), (['<', '%'], .leftBrace),
    (['%', '>'], .rightBrace), (['%', ':'], .hash), (['%', ':', '%', ':'], .hashHash)]

/-- Every spelling, as it is read, with its punctuator. -/
def table : List (List UInt8 × Punctuator) :=
  (all.map fun p => (bytes p.entry.spelling, p)) ++ digraphs.map fun d => (bytes d.1, d.2)

def ofSpelling? (word : List UInt8) : Option Punctuator :=
  (table.find? fun e => e.1 == word).map (·.2)

/-- Whether some spelling begins with `word`. -/
def isBeginning (word : List UInt8) : Bool :=
  table.any fun e => word.isPrefixOf e.1

theorem isBeginning_iff {word : List UInt8} :
    isBeginning word = true ↔ ∃ e ∈ table, word <+: e.1 := by
  simp only [isBeginning, List.any_eq_true, List.isPrefixOf_iff_prefix]

theorem mem_table_of_ofSpelling {word : List UInt8} {p : Punctuator}
    (h : ofSpelling? word = some p) : (word, p) ∈ table := by
  rw [ofSpelling?, Option.map_eq_some_iff] at h
  obtain ⟨e, he, rfl⟩ := h
  have hword : e.1 = word := by simpa using List.find?_some he
  exact hword ▸ List.mem_of_find?_eq_some he

theorem spelling_hash : ∀ e ∈ table,
    (e.1.head? = some (byte '#') →
      e.1 = [byte '#'] ∧ e.2 = .hash ∨ e.1 = [byte '#', byte '#'] ∧ e.2 = .hashHash) ∧
      (e.2 = .hash → e.1 = [byte '#'] ∨ e.1 = [byte '%', byte ':']) := by
  decide +kernel

theorem eq_hash_of_isBeginning {c : UInt8} (h : isBeginning ([byte '#'] ++ [c]) = true) :
    c = byte '#' := by
  obtain ⟨e, he, rest, hrest⟩ := isBeginning_iff.mp h
  rcases (spelling_hash e he).1 (by rw [← hrest]; rfl) with ⟨heq, -⟩ | ⟨heq, -⟩
  · rw [heq] at hrest
    cases hrest
  · rw [heq] at hrest
    cases hrest
    rfl

/-- The entry's spelling begins the text, and no longer spelling does. -/
def Longest (text : List UInt8) (e : List UInt8 × Punctuator) : Prop :=
  e ∈ table ∧ e.1 <+: text ∧ ∀ e' ∈ table, e'.1 <+: text → e'.1.length ≤ e.1.length

instance (text : List UInt8) (e : List UInt8 × Punctuator) : Decidable (Longest text e) :=
  inferInstanceAs (Decidable (_ ∧ _ ∧ _))

/-- The word spells `p`, and every longer spelling goes on with one of `tried`. -/
def Ends (tried : List (List UInt8)) (word : List UInt8) (p : Punctuator) : Prop :=
  (word, p) ∈ table ∧
    ∀ e ∈ table, word <+: e.1 → e.1 = word ∨ ∃ more ∈ tried, word ++ more <+: e.1

instance (tried : List (List UInt8)) (word : List UInt8) (p : Punctuator) :
    Decidable (Ends tried word p) :=
  inferInstanceAs (Decidable (_ ∧ _))

variable {text tail word : List UInt8} {tried : List (List UInt8)} {p : Punctuator} {d : UInt8}
  {e e' : List UInt8 × Punctuator}

theorem eq_of_spelling_eq : ∀ e ∈ table, ∀ e' ∈ table, e.1 = e'.1 → e = e' := by
  decide +kernel

theorem Longest.unique (h : Longest text e) (h' : Longest text e') : e = e' := by
  refine eq_of_spelling_eq e h.1 e' h'.1 ?_
  have hlen := h'.2.2 e h.1 h.2.1
  exact (List.prefix_of_prefix_length_le h.2.1 h'.2.1 hlen).eq_of_length_le (h.2.2 e' h'.1 h'.2.1)

theorem Ends.longest (h : Ends tried word p) (htext : ∀ more ∈ tried, ¬ more <+: text) :
    Longest (word ++ text) (word, p) := by
  refine ⟨h.1, List.prefix_append word text, fun e he hpre => ?_⟩
  rcases List.prefix_or_prefix_of_prefix hpre (List.prefix_append word text) with hshort | hlong
  · exact hshort.length_le
  · rcases h.2 e he hlong with heq | ⟨more, hmore, hgoes⟩
    · exact Nat.le_of_eq (congrArg List.length heq)
    · exact absurd ((List.prefix_append_right_inj word).mp (hgoes.trans hpre)) (htext more hmore)

theorem Ends.isBeginning_eq_false (h : Ends [] word p) : isBeginning (word ++ [d]) = false := by
  refine Bool.eq_false_iff.mpr fun hbeginning => ?_
  rcases isBeginning_iff.mp hbeginning with ⟨e, he, hpre⟩
  rcases h.2 e he ((List.prefix_append word [d]).trans hpre) with heq | ⟨more, hmore, -⟩
  · have hlen := hpre.length_le
    rw [heq, List.length_append] at hlen
    exact absurd hlen (Nat.not_succ_le_self _)
  · cases hmore

theorem longest_of_head (hp : (word, p) ∈ table)
    (hrest : text.head?.any (fun d => isBeginning (word ++ [d])) = false) :
    Longest (word ++ text) (word, p) := by
  refine ⟨hp, List.prefix_append word text, fun e he hpre => Nat.le_of_not_lt fun hlen => ?_⟩
  cases text with
  | nil =>
      rw [List.append_nil] at hpre
      exact absurd hpre.length_le (Nat.not_le_of_lt hlen)
  | cons d tail =>
      -- A longer spelling has one more character of the text.
      have hbeginning : isBeginning (word ++ [d]) = true := by
        refine isBeginning_iff.mpr ⟨e, he, ?_⟩
        rw [List.append_cons] at hpre
        refine List.prefix_of_prefix_length_le (List.prefix_append _ tail) hpre ?_
        rw [List.length_append]
        exact hlen
      simp [hbeginning] at hrest

theorem spelling_take : ∀ e ∈ table, e.1.head? ≠ some (byte '.') → e.2 ≠ .hash →
    ∀ e' ∈ table, e.1 <+: e'.1 → e'.1 = e.1 ∨
      e'.1.take (e.1.length + 1) ∈ table.map (·.1) := by
  decide +kernel

theorem Longest.isBeginning_eq_false (h : Longest (word ++ d :: tail) (word, p))
    (hdot : word.head? ≠ some (byte '.')) (hhash : p ≠ .hash) :
    isBeginning (word ++ [d]) = false := by
  refine Bool.eq_false_iff.mpr fun hbeginning => ?_
  rcases isBeginning_iff.mp hbeginning with ⟨e, he, hpre⟩
  have hlen : (word ++ [d]).length = word.length + 1 := List.length_append
  rcases spelling_take _ h.1 hdot hhash e he ((List.prefix_append word [d]).trans hpre) with
    heq | hmem
  · have := hpre.length_le
    rw [heq, hlen] at this
    exact absurd this (Nat.not_succ_le_self _)
  · rw [← hlen, ← List.prefix_iff_eq_take.mp hpre, List.mem_map] at hmem
    rcases hmem with ⟨e', he', heq⟩
    have hle := h.2.2 e' he' (heq ▸ ⟨tail, (List.append_cons word d tail).symm⟩)
    rw [heq, hlen] at hle
    exact absurd hle (Nat.not_succ_le_self _)

end Punctuator

namespace Lexer.Branch

/-- Wherever the tests end, a spelling ends that nothing makes longer but what they have ruled
out. -/
def Munches (tried : List (List UInt8)) (word : List UInt8) : Branch → Prop
  | .found p => Punctuator.Ends tried word p
  | .next c taken other => taken.Munches [] (word ++ [c]) ∧ other.Munches ([c] :: tried) word
  | .pair c d taken other =>
    Punctuator.Ends [] (word ++ [c, d]) taken ∧ Punctuator.Ends ([c, d] :: tried) word other

instance : (tried : List (List UInt8)) → (word : List UInt8) → (b : Branch) →
    Decidable (b.Munches tried word)
  | tried, word, .found p => inferInstanceAs (Decidable (Punctuator.Ends tried word p))
  | tried, word, .next c taken other =>
    have := instDecidableMunches [] (word ++ [c]) taken
    have := instDecidableMunches ([c] :: tried) word other
    inferInstanceAs (Decidable (_ ∧ _))
  | _, _, .pair .. => inferInstanceAs (Decidable (_ ∧ _))

theorem munches_of {c : UInt8} {b : Branch} (h : of? c = some b) : b.Munches [] [c] := by
  have hall : ∀ e ∈ all, e.2.Munches [] [e.1] := by
    decide +kernel
  exact hall _ (mem_of h)

end Lexer.Branch

end CLex
