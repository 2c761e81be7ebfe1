namespace CLex.Similarity

/-- The length of the longest common beginning. -/
def commonBeginning : List Char → List Char → Nat
  | c :: a, d :: b => if c = d then commonBeginning a b + 1 else 0
  | _, _ => 0

/-- A block that two words have in common: where it begins in each, and its length. -/
structure Block where
  left : Nat
  right : Nat
  size : Nat

/-- The longest block that begins where `a` begins, the first one in `b`. -/
def blockAtStart (a : List Char) : List Char → Block
  | [] => ⟨0, 0, 0⟩
  | d :: b =>
    let later := blockAtStart a b
    if commonBeginning a (d :: b) < later.size then { later with right := later.right + 1 }
    else ⟨0, 0, commonBeginning a (d :: b)⟩

/-- The longest common block, the first one in `a` and then in `b`. -/
def longestBlock : List Char → List Char → Block
  | [], _ => ⟨0, 0, 0⟩
  | c :: a, b =>
    let later := longestBlock a b
    if (blockAtStart (c :: a) b).size < later.size then { later with left := later.left + 1 }
    else blockAtStart (c :: a) b

theorem commonBeginning_le_length (a b : List Char) : commonBeginning a b ≤ a.length := by
  fun_induction commonBeginning a b with
  | case1 c a b ih => simpa using ih
  | case2 => simp
  | case3 => simp

theorem blockAtStart_bounds (a b : List Char) :
    (blockAtStart a b).left = 0 ∧ (blockAtStart a b).size ≤ a.length := by
  induction b with
  | nil => simp [blockAtStart]
  | cons d b ih =>
    simp only [blockAtStart]
    split
    · exact ih
    · exact ⟨rfl, commonBeginning_le_length _ _⟩

theorem longestBlock_le_length (a b : List Char) :
    (longestBlock a b).left + (longestBlock a b).size ≤ a.length := by
  induction a with
  | nil => simp [longestBlock]
  | cons c a ih =>
    simp only [longestBlock]
    split
    · simp only [List.length_cons]
      omega
    · have := blockAtStart_bounds (c :: a) b
      omega

/-- How many characters two words have in common, block by block. -/
def common (a b : List Char) : Nat :=
  let block := longestBlock a b
  if _h : block.size = 0 then 0
  else
    common (a.take block.left) (b.take block.right) + block.size +
      common (a.drop (block.left + block.size)) (b.drop (block.right + block.size))
termination_by a.length
decreasing_by
  all_goals
    have hle := longestBlock_le_length a b
    have hsize : (longestBlock a b).size ≠ 0 := _h
    simp only [List.length_take, List.length_drop]
    omega

theorem common_le_length (a b : List Char) : common a b ≤ a.length := by
  fun_induction common a b with
  | case1 => simp
  | case2 a b block h ih₁ ih₂ =>
    have hle : block.left + block.size ≤ a.length := longestBlock_le_length a b
    simp only [List.length_take, List.length_drop] at ih₁ ih₂
    omega

/-- Whether twice the common characters are at least three fifths of all characters. -/
def isSimilar (word name : String) : Bool :=
  decide (3 * (name.length + word.length) ≤ 10 * common name.toList word.toList)

/-- Whether `name` has a greater part in common with `word` than `other` has. Of two names with equal
parts the later one in the order of strings comes first. -/
def isCloser (word name other : String) : Bool :=
  let part := common name.toList word.toList * (other.length + word.length)
  let otherPart := common other.toList word.toList * (name.length + word.length)
  decide (otherPart < part) || (part == otherPart && decide (other < name))

/-- The names that are similar to `word`, in the order given: the closest ones, at most `count`. -/
def suggestions (count : Nat) (word : String) (names : List String) : List String :=
  let similar := names.filter (isSimilar word)
  similar.filter fun name => decide (similar.countP (isCloser word · name) < count)

end CLex.Similarity
