import Localization.Proofs.Properties.Composition
import Localization.Proofs.Properties.RoundTrip

namespace Localization

/-! What changes where lines are put in -/

/-- The entry as it is with `n` more lines put in below a line. -/
def Property.spread (line n : Nat) (p : Property) : Property :=
  if line < p.line then p.below n else p

/-- The error as it is with `n` more lines put in below a line. -/
def Error.spread (line n : Nat) : Error → Error
  | .malformedProperties found fault =>
    .malformedProperties (if line < found then found + n else found) fault
  | error => error

namespace Properties

def LogicalLine.spread (line n : Nat) (l : LogicalLine) : LogicalLine :=
  if line < l.number then l.below n else l

/-! Ways of breaking a line -/

/-- The ends that a line may have. -/
def IsLineEnd (ending : List Char) : Prop :=
  ending = ['\n'] ∨ ending = ['\r', '\n']

/-- What may stand before the text of a line. -/
def IsIndent (blanks : List Char) : Prop :=
  ∀ c ∈ blanks, Text.isBlank c ∧ c ≠ '\r' ∧ c ≠ '\n'

/-- The ways of laying out the rest of a line, given what stands before it. The line is broken, any
number of times, by a backslash, a line's end and an indent, at places that are not behind an odd
number of backslashes and not before a blank. -/
inductive LaysOut : List Char → List Char → List Char → Prop
  | whole {before rest} : LaysOut before rest rest
  | broken {before part rest ending indent text} (hpart : continues (before ++ part) = false)
      (hrest : ∀ c ∈ rest.head?, Text.isBlank c = false) (hending : IsLineEnd ending)
      (hindent : IsIndent indent) (h : LaysOut (before ++ part) rest text) :
      LaysOut before (part ++ rest) (part ++ '\\' :: (ending ++ (indent ++ text)))

/-- A line that is a logical line by itself. -/
structure Standalone (line : List Char) : Prop where
  no_break : '\r' ∉ line ∧ '\n' ∉ line
  start : ∃ c ∈ line.head?, Text.isBlank c = false ∧ c ≠ '#' ∧ c ≠ '!'
  not_continues : continues line = false

/-- What follows a line without its end: nothing, or an end and more text. -/
def Follows (below more : List Char) : Prop :=
  below = [] ∧ more = [] ∨ ∃ ending, IsLineEnd ending ∧ below = ending ++ more

/-- The text with a carriage return before each of its line feeds. -/
def withReturns (text : List Char) : List Char :=
  text.flatMap fun c => if c = '\n' then ['\r', '\n'] else [c]

/-! Physical lines -/

theorem IsIndent.no_break {indent : List Char} (h : IsIndent indent) :
    '\r' ∉ indent ∧ '\n' ∉ indent :=
  ⟨fun hmem => (h _ hmem).2.1 rfl, fun hmem => (h _ hmem).2.2 rfl⟩

theorem IsIndent.trimLeft_append {indent : List Char} (h : IsIndent indent) (s : List Char) :
    Text.trimLeft (indent ++ s) = Text.trimLeft s :=
  List.dropWhile_append_of_pos fun c hc => (h c hc).1

theorem IsLineEnd.lines_append {ending : List Char} (h : IsLineEnd ending) (more : List Char) :
    lines (ending ++ more) = [] :: lines more := by
  obtain rfl | rfl := h <;> rfl

theorem IsLineEnd.count {ending : List Char} (h : IsLineEnd ending) : ending.count '\n' = 1 := by
  obtain rfl | rfl := h <;> rfl

/-- The lines of a text do not show which ends they have. -/
theorem lines_withReturns {text : List Char} (h : '\r' ∉ text) :
    lines (withReturns text) = lines text := by
  induction text with
  | nil => rfl
  | cons c text ih =>
    obtain ⟨hc, htext⟩ : '\r' ≠ c ∧ '\r' ∉ text := by simpa using h
    have hcons : withReturns (c :: text) =
        (if c = '\n' then ['\r', '\n'] else [c]) ++ withReturns text := rfl
    by_cases hlf : c = '\n'
    · have hend : IsLineEnd ['\r', '\n'] := .inr rfl
      rw [hcons, if_pos hlf, hend.lines_append, ih htext, hlf]
      rfl
    · rw [hcons, if_neg hlf, List.singleton_append, lines_cons_of_ne hc.symm hlf, ih htext,
        lines_cons_of_ne hc.symm hlf]

/-- The line that a text without line ends makes with what follows it, and the lines below. -/
theorem Follows.lines_append {below more : List Char} (h : Follows below more) {text : List Char}
    (hbreak : '\r' ∉ text ∧ '\n' ∉ text) :
    (lines (text ++ below)).headD [] = text ∧ (lines (text ++ below)).tail = lines more := by
  induction text with
  | nil =>
    obtain ⟨rfl, rfl⟩ | ⟨ending, hending, rfl⟩ := h
    · exact ⟨rfl, rfl⟩
    · rw [List.nil_append, hending.lines_append]
      exact ⟨rfl, rfl⟩
  | cons c text ih =>
    simp only [List.mem_cons, not_or] at hbreak
    obtain ⟨⟨hcr, hcr'⟩, hlf, hlf'⟩ := hbreak
    obtain ⟨hhead, htail⟩ := ih ⟨hcr', hlf'⟩
    rw [List.cons_append, lines_cons_of_ne (Ne.symm hcr) (Ne.symm hlf), hhead, htail]
    exact ⟨rfl, rfl⟩

/-! Logical lines -/

/-- The line that an open logical line ends with, or the end of the text. -/
theorem logicalLines_of_last (number : Nat) {l : LogicalLine} {ls : List (List Char)}
    (h : continues (l.text ++ Text.trimLeft (ls.headD [])) = false) :
    logicalLines number (some l) ls =
      { l with text := l.text ++ Text.trimLeft (ls.headD []) } ::
        logicalLines (number + 1) none ls.tail := by
  cases ls with
  | nil => simp [logicalLines]
  | cons line ls =>
    rw [List.headD_cons] at h
    simp [logicalLines, extend, h]

/-- A line that is neither blank nor a comment starts a logical line with what it holds. -/
theorem logicalLines_of_start (number : Nat) {line : List Char} (rest : List (List Char))
    (h : isSkipped (Text.trimLeft line) = false) :
    logicalLines number none (line :: rest) =
      logicalLines number (some ⟨number, []⟩) (line :: rest) := by
  simp [logicalLines, extend, h]

/-- A broken line is put together again. What has been put together so far never ends in an odd
number of backslashes, but for the one that breaks the line. -/
theorem LaysOut.logicalLines_eq {before rest text : List Char} (h : LaysOut before rest text)
    {indent : List Char} (hindent : IsIndent indent) {below more : List Char}
    (hfollows : Follows below more) (hbreak : '\r' ∉ rest ∧ '\n' ∉ rest)
    (hstart : ∀ c ∈ rest.head?, Text.isBlank c = false)
    (hcontinues : continues (before ++ rest) = false) (number start : Nat) :
    logicalLines number (some ⟨start, before⟩) (lines (indent ++ text ++ below)) =
      ⟨start, before ++ rest⟩ ::
        logicalLines (number + text.count '\n' + 1) none (lines more) := by
  induction h generalizing indent number with
  | @whole before rest =>
    have htext : '\r' ∉ indent ++ rest ∧ '\n' ∉ indent ++ rest := by
      simp [hindent.no_break, hbreak]
    obtain ⟨hhead, htail⟩ := hfollows.lines_append htext
    have htrim : Text.trimLeft (indent ++ rest) = rest := by
      rw [hindent.trimLeft_append, trimLeft_of_start hstart]
    rw [logicalLines_of_last, hhead, htrim, htail, List.count_eq_zero.2 hbreak.2, Nat.add_zero]
    rwa [hhead, htrim]
  | @broken before part rest ending indent' text hpart hrest hending hindent' _ ih =>
    simp only [List.mem_append, not_or] at hbreak
    obtain ⟨⟨hcr, hcr'⟩, hlf, hlf'⟩ := hbreak
    have hline : lines (indent ++ (part ++ '\\' :: (ending ++ (indent' ++ text))) ++ below) =
        (indent ++ part ++ ['\\']) :: lines (indent' ++ text ++ below) := by
      have hfirst : '\r' ∉ indent ++ part ++ ['\\'] ∧ '\n' ∉ indent ++ part ++ ['\\'] := by
        simp [hindent.no_break, hcr, hlf]
      have hend := hending.lines_append (indent' ++ text ++ below)
      simpa using lines_append_of_cons hend hfirst
    have htrim : Text.trimLeft (indent ++ part ++ ['\\']) = part ++ ['\\'] := by
      rw [List.append_assoc, hindent.trimLeft_append]
      apply trimLeft_of_start
      intro c hc
      cases part with
      | nil =>
        obtain rfl : '\\' = c := by simpa using hc
        decide
      | cons d part => exact hstart c hc
    have hopen : continues (before ++ (part ++ ['\\'])) = true := by
      rw [← List.append_assoc, continues_concat, hpart]
      rfl
    have hcount : (part ++ '\\' :: (ending ++ (indent' ++ text))).count '\n' =
        1 + text.count '\n' := by
      simp [List.count_eq_zero.2 hlf, List.count_eq_zero.2 hindent'.no_break.2, hending.count]
    have hrest := ih hindent' ⟨hcr', hlf'⟩ hrest (by simpa using hcontinues) (number + 1)
    rw [hline, hcount, logicalLines, extend]
    simp only [htrim, hopen, if_true]
    rw [← List.append_assoc, List.dropLast_concat, hrest, List.append_assoc, Nat.add_assoc number]

/-- However it is broken, a line starts with its first character or with the backslash of a break. -/
theorem LaysOut.exists_cons {before line text : List Char} (h : LaysOut before line text)
    (hne : line ≠ []) : ∃ c rest, text = c :: rest ∧ (c ∈ line.head? ∨ c = '\\') := by
  cases h with
  | whole =>
    obtain ⟨c, rest, rfl⟩ := List.exists_cons_of_ne_nil hne
    exact ⟨c, rest, rfl, .inl rfl⟩
  | @broken _ part rest ending indent text _ _ _ _ _ =>
    cases part with
    | nil => exact ⟨'\\', _, rfl, .inr rfl⟩
    | cons c part => exact ⟨c, _, rfl, .inl rfl⟩

/-- A line is read off any of its layouts. -/
theorem Standalone.logicalLines_eq {line text : List Char} (hline : Standalone line)
    (h : LaysOut [] line text) {indent : List Char} (hindent : IsIndent indent)
    {below more : List Char} (hfollows : Follows below more) (number : Nat) :
    logicalLines number none (lines (indent ++ text ++ below)) =
      ⟨number, line⟩ :: logicalLines (number + text.count '\n' + 1) none (lines more) := by
  obtain ⟨hbreak, ⟨first, hfirst, hblank, hhash, hbang⟩, hcontinues⟩ := hline
  have hstart : ∀ c ∈ line.head?, Text.isBlank c = false :=
    fun c hc => Option.mem_unique hfirst hc ▸ hblank
  have hne : line ≠ [] := by
    rintro rfl
    cases hfirst
  obtain ⟨c, rest, rfl, hc⟩ := h.exists_cons hne
  -- What the text starts with neither ends a line nor is skipped.
  have hc : (c ≠ '\r' ∧ c ≠ '\n') ∧ Text.isBlank c = false ∧ c ≠ '#' ∧ c ≠ '!' := by
    rcases hc with hc | rfl
    · have hmem := List.mem_of_mem_head? hc
      obtain rfl := Option.mem_unique hfirst hc
      exact ⟨⟨fun heq => hbreak.1 (heq ▸ hmem), fun heq => hbreak.2 (heq ▸ hmem)⟩, hblank, hhash,
        hbang⟩
    · decide
  have hlines := lines_append_of_cons (lines_cons_of_ne hc.1.1 hc.1.2 (rest ++ below))
    hindent.no_break
  have hread := h.logicalLines_eq hindent hfollows hbreak hstart hcontinues number number
  rw [List.append_assoc, List.cons_append, hlines] at hread ⊢
  rw [logicalLines_of_start, hread, List.nil_append]
  rw [hindent.trimLeft_append, Text.trimLeft_cons, hc.2.1]
  simp [isSkipped, hc.2.2]

/-! Entries -/

theorem readEntry_spread (line n : Nat) (l : LogicalLine) :
    readEntry (l.spread line n) =
      ((readEntry l).map (·.spread line n)).mapError (·.spread line n) := by
  by_cases hline : line < l.number
  · rw [LogicalLine.spread, if_pos hline, readEntry_below]
    cases hread : readEntry l with
    | error error =>
      obtain ⟨fault, rfl⟩ := malformed_of_readEntry hread
      simp [Except.map, Except.mapError, Error.below, Error.spread, hline]
    | ok p =>
      have hp : p.spread line n = p.below n := by
        rw [Property.spread, line_of_readEntry hread, if_pos hline]
      simp [Except.map, Except.mapError, hp]
  · rw [LogicalLine.spread, if_neg hline]
    cases hread : readEntry l with
    | error error =>
      obtain ⟨fault, rfl⟩ := malformed_of_readEntry hread
      simp [Except.map, Except.mapError, Error.spread, hline]
    | ok p =>
      have hp : p.spread line n = p := by
        rw [Property.spread, line_of_readEntry hread, if_neg hline]
      simp [Except.map, Except.mapError, hp]

/-- Where a line is broken, all that stands below it moves down, and nothing else changes. -/
theorem Standalone.logicalLines_laidOut {line text indent above below : List Char}
    (hline : Standalone line) (h : LaysOut [] line text) (hindent : IsIndent indent)
    (hended : Ended above) (hclosed : ¬Dangling above) {more : List Char}
    (hfollows : Follows below more) :
    logicalLines 1 none (lines (above ++ (indent ++ text ++ below))) =
      (logicalLines 1 none (lines (above ++ (line ++ below)))).map
        (·.spread (above.count '\n' + 1) (text.count '\n')) := by
  have hnone : IsIndent [] := by simp [IsIndent]
  have hwhole := hline.logicalLines_eq .whole hnone hfollows (above.count '\n' + 1)
  have hbroken := hline.logicalLines_eq h hindent hfollows (above.count '\n' + 1)
  have hbelow := logicalLines_below (above.count '\n' + 1 + 1) none (text.count '\n') (lines more)
  rw [Option.map_none] at hbelow
  rw [List.nil_append, List.count_eq_zero.2 hline.no_break.2, Nat.add_zero] at hwhole
  rw [logicalLines_text_append hended hclosed, logicalLines_text_append hended hclosed, hwhole,
    hbroken, List.map_append, List.map_cons, Nat.add_right_comm _ _ 1, hbelow]
  congr 1
  · rw [List.map_congr_left (g := id), List.map_id]
    intro l hl
    have hnumber := (bounds_of_mem_logicalLines 1 hl).2
    rw [length_lines_of_ended hended] at hnumber
    exact if_neg (by omega)
  · congr 1
    · exact (if_neg (Nat.lt_irrefl _)).symm
    · apply List.map_congr_left
      intro l hl
      have hnumber := (bounds_of_mem_logicalLines _ hl).1
      exact (if_pos (by omega)).symm

/-- How a text is laid out does not matter. Wherever a line stands among others, however often and
at whatever places it is broken, and whatever indents it has, its entry or its error is the same, as
are those of the other lines, further down by the breaks if they stand below it. Nor does it matter
which ends the lines of a text have. -/
theorem parse_laidOut :
    (∀ line text indent above below more : List Char, Standalone line → LaysOut [] line text →
      IsIndent indent → Ended above → ¬Dangling above → Follows below more →
      parse (String.ofList (above ++ (indent ++ text ++ below))) =
        ((parse (String.ofList (above ++ (line ++ below)))).map
          (·.map (·.spread (above.count '\n' + 1) (text.count '\n')))).mapError
            (·.spread (above.count '\n' + 1) (text.count '\n'))) ∧
    ∀ text : List Char, '\r' ∉ text →
      parse (String.ofList (withReturns text)) = parse (String.ofList text) := by
  constructor
  · intro line text indent above below more hline h hindent hended hclosed hfollows
    rw [parse_eq, parse_eq, String.toList_ofList, String.toList_ofList,
      hline.logicalLines_laidOut h hindent hended hclosed hfollows,
      mapM_map_eq (readEntry_spread _ _)]
  · intro text h
    rw [parse_eq, parse_eq, String.toList_ofList, String.toList_ofList, lines_withReturns h]

/-- A line is broken within its name, within its form, behind an escaped backslash and at its end. -/
theorem parse_laidOut_path :
    parse "# note\n  k\\\r\n [a\\\n\t]=\\\\\\\n x\\\n\nnext" =
        .ok [⟨2, "k", some ⟨"a"⟩, "\\x"⟩, ⟨7, "next", none, ""⟩] ∧
      parse "# note\r\nnext" = parse "# note\nnext" := by
  have hline : Standalone ['k', '[', 'a', ']', '=', '\\', '\\', 'x'] :=
    ⟨by decide, ⟨'k', rfl, by decide⟩, rfl⟩
  have hsolid {c : Char} (h : Text.isBlank c = false) (rest : List Char) :
      ∀ d ∈ (c :: rest).head?, Text.isBlank d = false := by
    simpa using h
  have hindent {c : Char} (h : Text.isBlank c ∧ c ≠ '\r' ∧ c ≠ '\n') (n : Nat) :
      IsIndent (List.replicate n c) := fun d hd => List.eq_of_mem_replicate hd ▸ h
  have hspaces := hindent (c := ' ') (by decide)
  have htabs := hindent (c := '\t') (by decide)
  have hlaid : LaysOut [] ['k', '[', 'a', ']', '=', '\\', '\\', 'x'] _ :=
    @LaysOut.broken _ ['k'] _ _ _ _ rfl (hsolid (by decide) _) (.inr rfl) (hspaces 1) <|
    @LaysOut.broken _ ['[', 'a'] _ _ _ _ rfl (hsolid (by decide) _) (.inl rfl) (htabs 1) <|
    @LaysOut.broken _ [']', '=', '\\', '\\'] _ _ _ _ rfl (hsolid (by decide) _) (.inl rfl)
      (hspaces 1) <|
    @LaysOut.broken _ ['x'] [] _ _ _ rfl (by simp) (.inl rfl) (hspaces 0) .whole
  have hended : Ended "# note\n".toList := .inr rfl
  have hclosed : ¬Dangling "# note\n".toList := fun h => h rfl
  have hfollows : Follows ('\n' :: "next".toList) "next".toList := .inr ⟨['\n'], .inl rfl, rfl⟩
  have hread := parse_laidOut.1 _ _ _ _ _ _ hline hlaid (hspaces 2) hended hclosed hfollows
  refine ⟨hread.trans ?_, ?_⟩
  · rfl
  · exact parse_laidOut.2 "# note\nnext".toList (by decide)

end Properties

end Localization
