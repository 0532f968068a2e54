namespace Localization.Text

/-- What follows the last place where `separator` stands; all of the text if it stands nowhere. -/
def afterLast (separator s : List Char) : List Char :=
  (go s).getD s
where
  go : List Char → Option (List Char)
    | [] => none
    | c :: rest => (go rest).or (separator.isPrefixOf? (c :: rest))

/-- The text before the last `mark` and the text after it. -/
def splitLast? (mark : Char) : List Char → Option (List Char × List Char)
  | [] => none
  | c :: rest =>
    match splitLast? mark rest with
    | some (before, after) => some (c :: before, after)
    | none => if c = mark then some ([], rest) else none

theorem splitLast?_eq_none_iff {mark : Char} {s : List Char} :
    splitLast? mark s = none ↔ mark ∉ s := by
  induction s with
  | nil => simp [splitLast?]
  | cons c rest ih =>
    cases hrest : splitLast? mark rest with
    | none => simp [splitLast?, hrest, ih.1 hrest, eq_comm]
    | some parts =>
      have hmem : mark ∈ rest := Decidable.of_not_not fun hnot => by simp [ih.2 hnot] at hrest
      simp [splitLast?, hrest, hmem]

/-- A text split at its last mark is put together again around the mark, and no mark comes after. -/
theorem eq_of_splitLast? {mark : Char} {s before after : List Char}
    (h : splitLast? mark s = some (before, after)) :
    s = before ++ mark :: after ∧ mark ∉ after := by
  induction s generalizing before after with
  | nil => simp [splitLast?] at h
  | cons c rest ih =>
    unfold splitLast? at h
    split at h
    · rename_i b a hsplit
      obtain ⟨rfl, rfl⟩ := by simpa using h
      simpa using ih hsplit
    · rename_i hnone
      split at h
      · obtain ⟨rfl, rfl⟩ := by simpa using h
        exact ⟨by simp [*], splitLast?_eq_none_iff.1 hnone⟩
      · simp at h

/-- A text is split at the mark after which no other comes. -/
theorem splitLast?_eq_some_iff {mark : Char} {s before after : List Char} :
    splitLast? mark s = some (before, after) ↔ s = before ++ mark :: after ∧ mark ∉ after := by
  constructor
  · exact eq_of_splitLast?
  · rintro ⟨rfl, hafter⟩
    have hnone := splitLast?_eq_none_iff.2 hafter
    induction before with
    | nil => simp [splitLast?, hnone]
    | cons c before ih => rw [List.cons_append, splitLast?, ih]

end Localization.Text
