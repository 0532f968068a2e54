import Mathlib
import Localization.Proofs.Results
import Localization.Properties

namespace Localization

/-! What changes where other lines stand above -/

/-- The entry as it is with `n` more lines above it. -/
def Property.below (n : Nat) (p : Property) : Property :=
  { p with line := p.line + n }

/-- The error as it is with `n` more lines above the text it is about. -/
def Error.below (n : Nat) : Error → Error
  | .malformedProperties line fault => .malformedProperties (line + n) fault
  | error => error

namespace Properties

def LogicalLine.below (n : Nat) (l : LogicalLine) : LogicalLine :=
  { l with number := l.number + n }

/-! Texts that end with a line -/

/-- Whether a text has no line that lacks its end. -/
def Ended (text : List Char) : Prop :=
  text = [] ∨ text.getLast? = some '\n'

theorem Ended.of_cons {c : Char} {text : List Char} (h : Ended (c :: text)) : Ended text := by
  cases text with
  | nil => exact .inl rfl
  | cons d text => exact .inr (by simpa [Ended] using h)

theorem Ended.lines_ne_nil {c : Char} {text : List Char} (h : Ended (c :: text)) (hc : c ≠ '\n') :
    lines text ≠ [] := by
  have hne : text ≠ [] := by
    rintro rfl
    exact hc (by simpa [Ended] using h)
  fun_induction lines text <;> simp_all

/-- Lines that have their ends are not touched by what follows them. -/
theorem lines_append_of_ended {text : List Char} (h : Ended text) (rest : List Char) :
    lines (text ++ rest) = lines text ++ lines rest := by
  fun_induction lines text with
  | case1 => rfl
  | case2 text ih => simp [lines, ih h.of_cons]
  | case3 text ih => simp [lines, ih h.of_cons.of_cons]
  | case4 c text hlf hcrlf hlines ih => exact absurd hlines (h.lines_ne_nil hlf)
  | case5 c text hlf hcrlf line more hlines ih =>
    have hne : text ≠ [] := by
      rintro rfl
      simp [lines] at hlines
    obtain ⟨d, text, rfl⟩ := List.exists_cons_of_ne_nil hne
    have hrest := ih h.of_cons
    rw [hlines] at hrest
    rw [List.cons_append, lines, hrest]
    · rfl
    · exact hlf
    -- `c` is no carriage return before a line feed, as the character behind it is still `d`.
    · rintro text' rfl heq
      simp only [List.cons_append, List.cons.injEq] at heq
      exact hcrlf _ rfl (by rw [heq.1])

theorem length_lines_of_ended {text : List Char} (h : Ended text) :
    (lines text).length = text.count '\n' := by
  fun_induction lines text with
  | case1 => rfl
  | case2 text ih => simp [ih h.of_cons]
  | case3 text ih => simp [ih h.of_cons.of_cons]
  | case4 c text hlf hcrlf hlines ih => exact absurd hlines (h.lines_ne_nil hlf)
  | case5 c text hlf hcrlf line more hlines ih =>
    have hrest := ih h.of_cons
    rw [hlines] at hrest
    rw [List.count_cons_of_ne hlf, ← hrest]
    rfl

/-! One line after the other -/

/-- The logical line that a line completes, given the one left open before it. -/
def completed? (number : Nat) (line : List Char) (pending : Option LogicalLine) :
    Option LogicalLine :=
  (extend number line pending).filter (!continues ·.text)

/-- The logical line that is open after a line, without the backslash that keeps it open. -/
def openAfter (number : Nat) (line : List Char) (pending : Option LogicalLine) :
    Option LogicalLine :=
  ((extend number line pending).filter (continues ·.text)).map fun l =>
    { l with text := l.text.dropLast }

/-- The logical line that the lines numbered from `number` on leave open. -/
def leftOpen (number : Nat) (pending : Option LogicalLine) : List (List Char) → Option LogicalLine
  | [] => pending
  | line :: rest => leftOpen (number + 1) (openAfter number line pending) rest

/-- Whether a text ends within a logical line that a backslash keeps open. -/
def Dangling (text : List Char) : Prop :=
  leftOpen 1 none (lines text) ≠ none

variable (number : Nat) (pending : Option LogicalLine)

theorem logicalLines_cons_eq (line : List Char) (rest : List (List Char)) :
    logicalLines number pending (line :: rest) = (completed? number line pending).toList ++
      logicalLines (number + 1) (openAfter number line pending) rest := by
  rw [logicalLines, completed?, openAfter]
  cases extend number line pending with
  | none => rfl
  | some l => cases hcontinues : continues l.text <;> simp [Option.filter_some, hcontinues]

/-- All that lines hand on to what follows them is their number and what they leave open. -/
theorem exists_logicalLines_append (above : List (List Char)) :
    ∃ closed, ∀ rest, logicalLines number pending (above ++ rest) =
      closed ++ logicalLines (number + above.length) (leftOpen number pending above) rest := by
  induction above generalizing number pending with
  | nil => exact ⟨[], fun rest => rfl⟩
  | cons line above ih =>
    obtain ⟨closed, hclosed⟩ := ih (number + 1) (openAfter number line pending)
    refine ⟨(completed? number line pending).toList ++ closed, fun rest => ?_⟩
    rw [List.cons_append, logicalLines_cons_eq, hclosed, List.append_assoc, List.length_cons,
      Nat.add_right_comm, Nat.add_assoc]
    rfl

theorem logicalLines_append_of_closed {above : List (List Char)}
    (h : leftOpen number pending above = none) (rest : List (List Char)) :
    logicalLines number pending (above ++ rest) =
      logicalLines number pending above ++ logicalLines (number + above.length) none rest := by
  obtain ⟨closed, hclosed⟩ := exists_logicalLines_append number pending above
  have habove : logicalLines number pending above = closed := by
    simpa [h, logicalLines] using hclosed []
  rw [hclosed, h, habove]

/-- Below lines that leave nothing open, the logical lines are those of the text there. -/
theorem logicalLines_text_append {above : List Char} (hended : Ended above)
    (hclosed : ¬Dangling above) (rest : List Char) :
    logicalLines 1 none (lines (above ++ rest)) =
      logicalLines 1 none (lines above) ++
        logicalLines (above.count '\n' + 1) none (lines rest) := by
  rw [lines_append_of_ended hended, logicalLines_append_of_closed _ _ (not_not.1 hclosed),
    length_lines_of_ended hended, Nat.add_comm]

theorem extend_below (n : Nat) (line : List Char) :
    extend (number + n) line (pending.map (·.below n)) =
      (extend number line pending).map (·.below n) := by
  cases pending with
  | some l => rfl
  | none =>
    cases hskipped : isSkipped (Text.trimLeft line) <;>
      simp [extend, hskipped, LogicalLine.below]

theorem completed?_below (n : Nat) (line : List Char) :
    completed? (number + n) line (pending.map (·.below n)) =
      (completed? number line pending).map (·.below n) := by
  rw [completed?, completed?, extend_below]
  cases extend number line pending with
  | none => rfl
  | some l =>
    cases hcontinues : continues l.text <;>
      simp [Option.filter_some, LogicalLine.below, hcontinues]

theorem openAfter_below (n : Nat) (line : List Char) :
    openAfter (number + n) line (pending.map (·.below n)) =
      (openAfter number line pending).map (·.below n) := by
  rw [openAfter, openAfter, extend_below]
  cases extend number line pending with
  | none => rfl
  | some l =>
    cases hcontinues : continues l.text <;>
      simp [Option.filter_some, LogicalLine.below, hcontinues]

/-- Lines above change nothing but the numbers. -/
theorem logicalLines_below (n : Nat) (text : List (List Char)) :
    logicalLines (number + n) (pending.map (·.below n)) text =
      (logicalLines number pending text).map (·.below n) := by
  induction text generalizing number pending with
  | nil => cases pending <;> rfl
  | cons line rest ih =>
    have hrest := ih (number + 1) (openAfter number line pending)
    rw [logicalLines_cons_eq, logicalLines_cons_eq, completed?_below, openAfter_below,
      Nat.add_right_comm, hrest, List.map_append, Option.toList_map]

/-! The numbers of logical lines -/

/-- The numbers of the lines that start a logical line if none is open before them. -/
def starts (text : List (List Char)) : List Nat :=
  ((text.zipIdx number).filter fun (line, _) => !isSkipped (Text.trimLeft line)).map (·.2)

theorem number_completed?_openAfter (line : List Char) :
    ((completed? number line pending).map (·.number)).toList ++
        ((openAfter number line pending).map (·.number)).toList =
      ((extend number line pending).map (·.number)).toList := by
  rw [completed?, openAfter]
  cases extend number line pending with
  | none => rfl
  | some l => cases hcontinues : continues l.text <;> simp [Option.filter_some, hcontinues]

theorem number_extend (line : List Char) (rest : List (List Char)) :
    (((extend number line pending).map (·.number)).toList ++ starts (number + 1) rest).Sublist
      ((pending.map (·.number)).toList ++ starts number (line :: rest)) := by
  have hstarts : starts number (line :: rest) =
      (if isSkipped (Text.trimLeft line) then [] else [number]) ++ starts (number + 1) rest := by
    cases hskipped : isSkipped (Text.trimLeft line) <;> simp [starts, hskipped]
  rw [hstarts]
  cases pending with
  | some l => exact List.Sublist.cons_cons _ (List.sublist_append_right _ _)
  | none => cases hskipped : isSkipped (Text.trimLeft line) <;> simp [extend, hskipped]

/-- A logical line has the number of the line that it starts on. -/
theorem number_logicalLines (text : List (List Char)) :
    ((logicalLines number pending text).map (·.number)).Sublist
      ((pending.map (·.number)).toList ++ starts number text) := by
  induction text generalizing number pending with
  | nil => cases pending <;> simp [logicalLines, starts]
  | cons line rest ih =>
    have hrest := ih (number + 1) (openAfter number line pending)
    refine List.Sublist.trans ?_ (number_extend number pending line rest)
    rw [logicalLines_cons_eq, List.map_append, ← number_completed?_openAfter, List.append_assoc,
      ← Option.toList_map]
    exact hrest.append_left _

theorem bounds_of_mem_starts {text : List (List Char)} {n : Nat} (h : n ∈ starts number text) :
    number ≤ n ∧ n < number + text.length := by
  simp only [starts, List.mem_map, List.mem_filter, Prod.exists, exists_eq_right] at h
  obtain ⟨line, hmem, -⟩ := h
  exact ⟨List.le_snd_of_mem_zipIdx hmem, List.snd_lt_add_of_mem_zipIdx hmem⟩

/-- The number of a logical line is that of one of the lines. -/
theorem bounds_of_mem_logicalLines {text : List (List Char)} {l : LogicalLine}
    (h : l ∈ logicalLines number none text) :
    number ≤ l.number ∧ l.number < number + text.length :=
  bounds_of_mem_starts number
    ((number_logicalLines number none text).subset (List.mem_map_of_mem h))

/-! Reading the entries -/

/-- The entry of a logical line, or the error that names its line. -/
def readEntry (l : LogicalLine) : Except Error Property :=
  (Property.ofLine l).mapError (.malformedProperties l.number)

theorem parse_eq (text : String) :
    parse text = (logicalLines 1 none (lines text.toList)).mapM readEntry :=
  rfl

/-- What is read off a logical line depends on its text, and the line of it is its number. -/
theorem ofLine_eq (number : Nat) (text : List Char) :
    Property.ofLine ⟨number, text⟩ =
      (Property.ofLine ⟨0, text⟩).map fun p => { p with line := number } := by
  simp only [Property.ofLine]
  cases unescape (splitLine text).1 with
  | error fault => rfl
  | ok name =>
    cases unescape (splitLine text).2 with
    | error fault => rfl
    | ok value =>
      simp only [bind, Except.bind]
      cases splitForm name with
      | error fault => rfl
      | ok parts => cases hempty : parts.1.isEmpty <;> simp only [hempty] <;> rfl

theorem ofLine_below (n : Nat) (l : LogicalLine) :
    Property.ofLine (l.below n) = (Property.ofLine l).map (·.below n) := by
  rw [LogicalLine.below, ofLine_eq, ofLine_eq l.number]
  cases Property.ofLine ⟨0, l.text⟩ <;> rfl

theorem readEntry_below (n : Nat) (l : LogicalLine) :
    readEntry (l.below n) = ((readEntry l).map (·.below n)).mapError (·.below n) := by
  rw [readEntry, readEntry, ofLine_below]
  cases Property.ofLine l <;> rfl

theorem line_of_readEntry {l : LogicalLine} {p : Property} (h : readEntry l = .ok p) :
    p.line = l.number := by
  rw [readEntry, ofLine_eq] at h
  cases hread : Property.ofLine ⟨0, l.text⟩ with
  | error fault =>
    rw [hread] at h
    cases h
  | ok q =>
    rw [hread] at h
    cases h
    rfl

theorem malformed_of_readEntry {l : LogicalLine} {error : Error} (h : readEntry l = .error error) :
    ∃ fault, error = .malformedProperties l.number fault := by
  rw [readEntry] at h
  cases hread : Property.ofLine l with
  | error fault =>
    rw [hread] at h
    cases h
    exact ⟨fault, rfl⟩
  | ok p =>
    rw [hread] at h
    cases h

/-- Below lines that leave nothing open, a text is read as it is without them. -/
theorem parse_append_eq {a b : String} (hended : Ended a.toList) (hclosed : ¬Dangling a.toList) :
    parse (a ++ b) = do
      let above ← parse a
      let rest ← (parse b).mapError (·.below (a.toList.count '\n'))
      return above ++ rest.map (·.below (a.toList.count '\n')) := by
  have hbelow := logicalLines_below 1 none (a.toList.count '\n') (lines b.toList)
  rw [Option.map_none] at hbelow
  rw [parse_eq, String.toList_append, logicalLines_text_append hended hclosed, Nat.add_comm _ 1,
    hbelow, List.mapM_append, mapM_map_eq (readEntry_below _), ← parse_eq, ← parse_eq]
  cases parse a with
  | error error => rfl
  | ok above => cases parse b <;> rfl

theorem line_of_parse {text : String} {entries : List Property} (h : parse text = .ok entries) :
    (entries.map (·.line)).Sublist (starts 1 (lines text.toList)) := by
  rw [parse_eq, mapM_eq_ok_iff] at h
  have hnumbers : List.Forall₂ (· = ·) (entries.map (·.line))
      ((logicalLines 1 none (lines text.toList)).map (·.number)) :=
    List.forall₂_map_left_iff.2 (List.forall₂_map_right_iff.2
      (h.flip.imp fun p l hread => line_of_readEntry hread))
  rw [List.forall₂_eq_eq_eq] at hnumbers
  rw [hnumbers]
  exact number_logicalLines 1 none (lines text.toList)

theorem pairwise_starts (text : List (List Char)) : (starts number text).Pairwise (· < ·) := by
  have hall : ((text.zipIdx number).map (·.2)).Pairwise (· < ·) := by
    rw [List.zipIdx_map_snd]
    exact List.pairwise_lt_range'
  exact hall.sublist (List.filter_sublist.map _)

theorem pairwise_logicalLines (text : List (List Char)) :
    (logicalLines number none text).Pairwise fun l l' => l.number < l'.number :=
  List.pairwise_map.1 ((pairwise_starts number text).sublist (number_logicalLines number none text))

theorem exists_of_mem_starts {text : List (List Char)} {n : Nat} (h : n ∈ starts 1 text) :
    ∃ i line, n = i + 1 ∧ text[i]? = some line ∧ isSkipped (Text.trimLeft line) = false := by
  simp only [starts, List.mem_map, List.mem_filter, Prod.exists, exists_eq_right,
    Bool.not_eq_true'] at h
  obtain ⟨line, hmem, hstarts⟩ := h
  obtain ⟨hle, hget⟩ := List.mk_mem_zipIdx_iff_le_and_getElem?_sub.1 hmem
  exact ⟨n - 1, line, by omega, hget, hstarts⟩

/-- Below entries, the error of a text names a line if and only if that line is no entry. -/
theorem exists_parse_eq_error_iff {text : String} {above below : List LogicalLine} {l : LogicalLine}
    (hlines : logicalLines 1 none (lines text.toList) = above ++ l :: below)
    (habove : ∀ l' ∈ above, ∃ p, Property.ofLine l' = .ok p) :
    (∃ fault, parse text = .error (.malformedProperties l.number fault)) ↔
      ∃ fault, Property.ofLine l = .error fault := by
  rw [parse_eq, hlines]
  constructor
  · rintro ⟨fault, hparse⟩
    obtain ⟨l', hmem, hread⟩ := exists_of_mapM_eq_error hparse
    obtain ⟨fault', heq⟩ := malformed_of_readEntry hread
    obtain ⟨hnumber, rfl⟩ := Error.malformedProperties.inj heq
    have hpairwise := pairwise_logicalLines 1 (lines text.toList)
    rw [hlines, List.pairwise_append, List.pairwise_cons] at hpairwise
    rcases List.mem_append.1 hmem with hmem | hmem
    · have hlt := hpairwise.2.2 l' hmem l List.mem_cons_self
      omega
    rcases List.mem_cons.1 hmem with rfl | hmem
    · cases hl : Property.ofLine l' with
      | error fault => exact ⟨fault, rfl⟩
      | ok p =>
        rw [readEntry, hl] at hread
        cases hread
    · have hlt := hpairwise.2.1.1 l' hmem
      omega
  · rintro ⟨fault, hread⟩
    have hread' : ∀ l' ∈ above, ∃ p, readEntry l' = .ok p := fun l' hl' =>
      (habove l' hl').imp fun p => mapError_eq_ok_iff.2
    obtain ⟨entries, hentries⟩ := exists_mapM_eq_ok hread'
    refine ⟨fault, ?_⟩
    rw [List.mapM_append, hentries, List.mapM_cons, readEntry, hread]
    rfl

/-- Texts are read one below the other. A text that ends with a line and not within a logical line
has its entries, or its error, whatever text follows it; the entries or the error of that one are
what they are without it, further down by as many lines as it has. The entries of a text are on
lines in increasing order, each of which is neither blank nor a comment. -/
theorem parse_append :
    (∀ a b : String, Ended a.toList → ¬Dangling a.toList →
      (∀ error, parse a = .error error → parse (a ++ b) = .error error) ∧
      ∀ above, parse a = .ok above →
        (∀ error, parse b = .error error → ∃ line fault, error = .malformedProperties line fault ∧
          parse (a ++ b) = .error (.malformedProperties (line + a.toList.count '\n') fault)) ∧
        ∀ rest, parse b = .ok rest →
          parse (a ++ b) = .ok (above ++ rest.map (·.below (a.toList.count '\n')))) ∧
    ∀ text entries, parse text = .ok entries →
      (entries.map (·.line)).Pairwise (· < ·) ∧
      ∀ p ∈ entries, ∃ i line, p.line = i + 1 ∧ (lines text.toList)[i]? = some line ∧
        isSkipped (Text.trimLeft line) = false := by
  refine ⟨fun a b hended hclosed => ?_, fun text entries hparse => ?_⟩
  · have heq := parse_append_eq (b := b) hended hclosed
    refine ⟨fun error ha => ?_, fun above ha => ⟨fun error hb => ?_, fun rest hb => ?_⟩⟩
    · rw [heq, ha]
      rfl
    · obtain ⟨l, -, hl⟩ := exists_of_mapM_eq_error (parse_eq b ▸ hb)
      obtain ⟨fault, rfl⟩ := malformed_of_readEntry hl
      refine ⟨l.number, fault, rfl, ?_⟩
      rw [heq, ha, hb]
      rfl
    · rw [heq, ha, hb]
      rfl
  · have hlines := line_of_parse hparse
    refine ⟨(pairwise_starts 1 _).sublist hlines, fun p hp => ?_⟩
    exact exists_of_mem_starts (hlines.subset (List.mem_map_of_mem hp))

/-- Above other text stand a comment that ends in a backslash, which does not continue, and an entry
that does. -/
theorem parse_append_comment_entry :
    Ended "! note\\\r\nlong = \\\n one\n".toList ∧
    ¬Dangling "! note\\\r\nlong = \\\n one\n".toList ∧
    parse "! note\\\r\nlong = \\\n one\n" = .ok [⟨2, "long", none, "one"⟩] ∧
    parse ("! note\\\r\nlong = \\\n one\n" ++ "\nfiles[one] : 1") =
      .ok [⟨2, "long", none, "one"⟩, ⟨5, "files", some ⟨"one"⟩, "1"⟩] ∧
    parse ("! note\\\r\nlong = \\\n one\n" ++ "\nfiles] : 1") =
      .error (.malformedProperties 5 (.unbalancedSelector "files]")) := by
  have hended : Ended "! note\\\r\nlong = \\\n one\n".toList := .inr rfl
  have hclosed : ¬Dangling "! note\\\r\nlong = \\\n one\n".toList := fun h => h rfl
  have habove : parse "! note\\\r\nlong = \\\n one\n" = .ok [⟨2, "long", none, "one"⟩] := rfl
  obtain ⟨-, happend⟩ := parse_append.1 _ "\nfiles[one] : 1" hended hclosed
  obtain ⟨-, happend'⟩ := parse_append.1 _ "\nfiles] : 1" hended hclosed
  refine ⟨hended, hclosed, habove, ?_, ?_⟩
  · exact (happend _ habove).2 [⟨2, "files", some ⟨"one"⟩, "1"⟩] rfl
  · obtain ⟨line, fault, herror, h⟩ := (happend' _ habove).1 _ rfl
    cases herror
    exact h

end Properties

end Localization
