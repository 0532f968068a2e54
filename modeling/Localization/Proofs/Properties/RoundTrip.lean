import Localization.Proofs.Properties.Name
import Localization.Proofs.Properties.Resolved
import Localization.Proofs.Properties.Written

namespace Localization

namespace Selector

theorem isBlank_of_isFormChar {c : Char} (h : isFormChar c) : Text.isBlank c = false := by
  simp only [isFormChar, Bool.or_eq_true, beq_iff_eq] at h
  rcases h with (((h | rfl) | rfl) | rfl) | rfl
  · exact Text.isBlank_of_isAlphanum h
  all_goals decide

/-- A normalized form is read as it is. -/
theorem Normalized.ofString? {form : Selector} (h : form.Normalized) :
    ofString? form.text = some form := by
  have htrim : Text.trim form.text.toList = form.text.toList :=
    Text.trim_of_no_blank fun c hc => isBlank_of_isFormChar (h.chars c hc).1
  have hlower : form.text.toList.map Char.toLower = form.text.toList := by
    rw [List.map_congr_left fun c hc => (h.chars c hc).2, List.map_id']
  have hchars : form.text.toList.all isFormChar := List.all_eq_true.2 fun c hc => (h.chars c hc).1
  have hne : form.text.toList ≠ [] := by simpa using h.nonempty
  simp [Selector.ofString?, htrim, hlower, hchars, hne]

/-- Reading gives normalized forms only. -/
theorem normalized_of_ofString? (text : String) {form : Selector} (h : ofString? text = some form) :
    form.Normalized := by
  simp only [Selector.ofString?, Option.ite_none_right_eq_some, Option.some.injEq] at h
  obtain ⟨⟨hne, hchars⟩, rfl⟩ := h
  refine ⟨by simpa using hne, fun c hc => ?_⟩
  rw [String.toList_ofList] at hc
  refine ⟨List.all_eq_true.1 hchars c hc, ?_⟩
  obtain ⟨d, -, rfl⟩ := List.mem_map.1 hc
  exact Char.toLower_toLower_eq_toLower d

end Selector

namespace Properties

theorem trimLeft_of_start {text : List Char} (h : ∀ c ∈ text.head?, Text.isBlank c = false) :
    Text.trimLeft text = text := by
  cases text with
  | nil => rfl
  | cons c text => simp [Text.trimLeft_cons, h c (by simp)]

/-! Reading lines -/

theorem lines_cons_of_ne {c : Char} (hcr : c ≠ '\r') (hlf : c ≠ '\n') (s : List Char) :
    lines (c :: s) = (c :: (lines s).headD []) :: (lines s).tail := by
  rw [lines]
  · cases lines s <;> rfl
  · exact hlf
  · intro _ hc
    exact absurd hc hcr

/-- Text without line ends belongs to the line that it stands before. -/
theorem lines_append_of_cons {s line : List Char} {rest : List (List Char)}
    (h : lines s = line :: rest) {text : List Char} (hbreak : '\r' ∉ text ∧ '\n' ∉ text) :
    lines (text ++ s) = (text ++ line) :: rest := by
  induction text with
  | nil => exact h
  | cons c text ih =>
    simp only [List.mem_cons, not_or] at hbreak
    obtain ⟨⟨hcr, hcr'⟩, hlf, hlf'⟩ := hbreak
    rw [List.cons_append, lines_cons_of_ne (Ne.symm hcr) (Ne.symm hlf), ih ⟨hcr', hlf'⟩]
    rfl

theorem lines_append {line : List Char} (hbreak : '\r' ∉ line ∧ '\n' ∉ line) (rest : List Char) :
    lines (line ++ '\n' :: rest) = line :: lines rest := by
  have hbelow : lines ('\n' :: rest) = [] :: lines rest := by rw [lines]
  rw [lines_append_of_cons hbelow hbreak, List.append_nil]

theorem lines_flatMap {written : List (List Char)}
    (h : ∀ line ∈ written, '\r' ∉ line ∧ '\n' ∉ line) :
    lines (written.flatMap (· ++ ['\n'])) = written := by
  induction written with
  | nil => rfl
  | cons line written ih =>
    obtain ⟨hline, hrest⟩ := List.forall_mem_cons.1 h
    rw [List.flatMap_cons, List.append_assoc, List.singleton_append, lines_append hline, ih hrest]

/-- A line that starts with its key and does not continue is a logical line by itself. -/
theorem logicalLines_cons {line : List Char}
    (hstart : ∃ c ∈ line.head?, Text.isBlank c = false ∧ c ≠ '#' ∧ c ≠ '!')
    (hcontinues : continues line = false) (number : Nat) (rest : List (List Char)) :
    logicalLines number none (line :: rest) =
      ⟨number, line⟩ :: logicalLines (number + 1) none rest := by
  obtain ⟨c, hc, hblank, hhash, hbang⟩ := hstart
  have htrim : Text.trimLeft line = line := trimLeft_of_start fun d hd => by
    rwa [Option.mem_unique hd hc]
  have hskipped : isSkipped line = false := by
    cases line with
    | nil => simp at hc
    | cons d line =>
      obtain rfl : d = c := by simpa using hc
      simp [isSkipped, hhash, hbang]
  simp [logicalLines, extend, htrim, hskipped, hcontinues]

/-! Resolving escapes -/

theorem escaped_of_not_isAlphanum {c : Char} (h : ¬c.isAlphanum) : escaped c = c := by
  unfold escaped
  split <;> first | rfl | exact absurd (by decide) h

/-- Whatever way a character is written in, it is read back. -/
theorem WritesChar.unescape_append {c : Char} {text : List Char} (h : WritesChar c text)
    (rest : List Char) : unescape (text ++ rest) = (c :: ·) <$> unescape rest := by
  cases h with
  | plain hc => exact unescape_plain (Text.ne_of_isAlphanum hc (by decide)) rest
  | pair hc _ =>
    have hu : c ≠ 'u' := by
      rintro rfl
      exact hc (by decide)
    rw [List.cons_append, List.singleton_append, unescape_pair hu, escaped_of_not_isAlphanum hc]
  | units hc hwritten =>
    rcases Text.utf16Units_cases c with ⟨unit, hunit, hunits, hhigh, hlow, hchar⟩ |
      ⟨high, hhighLt, low, hlowLt, hunits, hhigh, hlow, hchar⟩
    · rw [hunits] at hwritten
      obtain - | ⟨hspelled, - | -⟩ := hwritten
      have hread := Text.readHex4?_of_spelled hunit hspelled
      rw [← hchar]
      exact unescape_unit hread hhigh hlow rest
    · rw [hunits] at hwritten
      obtain - | ⟨hspelledHigh, - | ⟨hspelledLow, - | -⟩⟩ := hwritten
      have hreadHigh := Text.readHex4?_of_spelled hhighLt hspelledHigh
      have hreadLow := Text.readHex4?_of_spelled hlowLt hspelledLow
      rw [← hchar]
      exact unescape_surrogates hreadHigh hreadLow hhigh hlow rest

theorem Writes.unescape_append {s text : List Char} (h : Writes s text) (rest : List Char) :
    unescape (text ++ rest) = (s ++ ·) <$> unescape rest := by
  induction h with
  | nil => simp
  | cons hc _ ih => simp [List.append_assoc, hc.unescape_append, ih]

theorem Writes.unescape {s text : List Char} (h : Writes s text) : unescape text = .ok s := by
  have := h.unescape_append []
  simpa [Properties.unescape] using this

/-! Splitting a line -/

/-- Brackets keep a form's characters from ending the key. -/
theorem splitKey_bracketed {form : List Char} (h : ∀ c ∈ form, Selector.isFormChar c)
    (rest : List Char) : splitKey true (form ++ ']' :: rest) =
      (form ++ ']' :: (splitKey false rest).1, (splitKey false rest).2) := by
  induction form with
  | nil => simp [splitKey, bracketedAfter]
  | cons c form ih =>
    obtain ⟨hc, hform⟩ := List.forall_mem_cons.1 h
    have hne (d : Char) (hd : Selector.isFormChar d = false) : c ≠ d := by
      rintro rfl
      simp [hc] at hd
    have hbracketed : bracketedAfter true c = true := by
      simp [bracketedAfter, hne ']' (by decide)]
    rw [List.cons_append, splitKey]
    · simp [hbracketed, ih hform]
    · exact hne _ (by decide)

theorem splitKey_suffix {form? : Option Selector} (h : ∀ form ∈ form?, form.Normalized)
    (value : List Char) :
    splitKey false (suffix form? ++ '=' :: value) = (suffix form?, '=' :: value) := by
  have hend : splitKey false ('=' :: value) = ([], '=' :: value) := by simp [splitKey, endsKey]
  cases form? with
  | none => exact hend
  | some form =>
    have hform : ∀ c ∈ form.text.toList, Selector.isFormChar c := fun c hc =>
      ((h form rfl).chars c hc).1
    have hopen : endsKey '[' = false := by decide
    have hbracketed : bracketedAfter false '[' = true := by decide
    simp [suffix, splitKey, hopen, hbracketed, splitKey_bracketed hform, hend]

/-- The first character outside of guarded text and brackets that can end the key is the `=`. -/
theorem Guarded.splitLine {key value : List Char} (hkey : Guarded key) (hvalue : Guarded value)
    {form? : Option Selector} (hform : ∀ form ∈ form?, form.Normalized) :
    splitLine (key ++ (suffix form? ++ '=' :: value)) = (key ++ suffix form?, value) := by
  have hblank : Text.isBlank '=' = false := by decide
  have htrim : Text.trimLeft value = value :=
    trimLeft_of_start fun c hc => (hvalue.start c hc).1
  rw [Properties.splitLine, hkey.splitKey_append, splitKey_suffix hform]
  simp [dropSeparator, Text.trimLeft_cons, hblank, htrim]

/-- A key without its escapes is parted from its form, if it does not seem to have one. -/
theorem splitForm_suffix {form? : Option Selector} (h : ∀ form ∈ form?, form.Normalized)
    {key : List Char} (hkey : form? = none → key.getLast? ≠ some ']') :
    splitForm (key ++ suffix form?) = .ok (key, form?) := by
  rw [splitForm_eq_ok_iff]
  cases form? with
  | none =>
    rw [suffix, List.append_nil]
    exact .plain (hkey rfl)
  | some form =>
    have hnormal := h form rfl
    have hopen : '[' ∉ form.text.toList := by
      intro hmem
      have := (hnormal.chars _ hmem).1
      simp [Selector.isFormChar] at this
    apply Names.formed hopen
    rw [String.ofList_toList, hnormal.ofString?]

end Properties

/-- Whether an entry can be written: it has a key, its form is normalized, and without a form its
key does not end as if it had one. -/
structure Property.Writable (p : Property) : Prop where
  key : p.key ≠ ""
  form : ∀ form ∈ p.form?, form.Normalized
  bracket : p.form? = none → p.key.toList.getLast? ≠ some ']'

namespace Properties

variable {p : Property} {line : List Char}

theorem not_mem_suffix {form? : Option Selector} (h : ∀ form ∈ form?, form.Normalized) {c : Char}
    (hc : Selector.isFormChar c = false) (hopen : c ≠ '[') (hclose : c ≠ ']') :
    c ∉ suffix form? := by
  cases form? with
  | none => simp [suffix]
  | some form =>
    have hform : c ∉ form.text.toList := by
      intro hmem
      simp [((h form rfl).chars c hmem).1] at hc
    simp [suffix, hopen, hclose, hform]

namespace WritesEntry

theorem no_break (hp : p.Writable) (h : WritesEntry p line) : '\r' ∉ line ∧ '\n' ∉ line := by
  obtain @⟨key, value, hkey, hvalue⟩ := h
  have hcr := not_mem_suffix hp.form (c := '\r') (by decide) (by decide) (by decide)
  have hlf := not_mem_suffix hp.form (c := '\n') (by decide) (by decide) (by decide)
  simp [hkey.guarded.no_break, hvalue.guarded.no_break, hcr, hlf]

theorem not_continues (h : WritesEntry p line) : continues line = false := by
  obtain @⟨key, value, hkey, hvalue⟩ := h
  have hseparator : continues (key ++ suffix p.form? ++ ['=']) = false := by
    rw [continues_concat]
    rfl
  simpa using hvalue.guarded.whole.not_continues hseparator

/-- An entry's line starts no comment and is a logical line by itself. -/
theorem logicalLines_cons (hp : p.Writable) (h : WritesEntry p line) (number : Nat)
    (rest : List (List Char)) : logicalLines number none (line :: rest) =
      ⟨number, line⟩ :: logicalLines (number + 1) none rest := by
  have hcontinues := h.not_continues
  obtain @⟨key, value, hkey, hvalue⟩ := h
  have hne : key ≠ [] := by
    rintro rfl
    have hempty : p.key.toList = [] := (Except.ok.inj hkey.unescape).symm
    exact hp.key (by simpa using hempty)
  obtain ⟨c, key, rfl⟩ := List.exists_cons_of_ne_nil hne
  exact Properties.logicalLines_cons ⟨c, rfl, hkey.guarded.start c rfl⟩ hcontinues number _

/-- An entry is read off its line. -/
theorem ofLine (hp : p.Writable) (h : WritesEntry p line) (number : Nat) :
    Property.ofLine ⟨number, line⟩ = .ok { p with line := number } := by
  obtain @⟨key, value, hkey, hvalue⟩ := h
  have hsplit := hkey.guarded.splitLine hvalue.guarded hp.form
  have hname : unescape (key ++ suffix p.form?) = .ok (p.key.toList ++ suffix p.form?) := by
    have hescape := not_mem_suffix hp.form (c := '\\') (by decide) (by decide) (by decide)
    rw [hkey.unescape_append, unescape_of_no_escape hescape]
    rfl
  have hform := splitForm_suffix hp.form hp.bracket
  have hkeyEmpty : p.key.toList.isEmpty = false := by simpa using hp.key
  simp only [Property.ofLine, hsplit, hname, hvalue.unescape, ok_bind, hform, hkeyEmpty,
    String.ofList_toList]
  rfl

theorem exists_line (p : Property) : ∃ line, WritesEntry p line := by
  obtain ⟨key, hkey⟩ := exists_writes p.key.toList
  obtain ⟨value, hvalue⟩ := exists_writes p.value.toList
  exact ⟨_, .intro hkey hvalue⟩

end WritesEntry

variable {props : List Property} {written : List (List Char)}

/-- Entries are read off their lines, one after the other. -/
theorem mapM_ofLine_written (hprops : ∀ p ∈ props, p.Writable)
    (h : List.Forall₂ WritesEntry props written) (number : Nat) :
    (logicalLines number none written).mapM (fun line =>
        (Property.ofLine line).mapError (Error.malformedProperties line.number)) =
      .ok ((props.zipIdx number).map fun (p, number) => { p with line := number }) := by
  induction h generalizing number with
  | nil => rfl
  | cons hp _ ih =>
    obtain ⟨hwritable, hrest⟩ := List.forall_mem_cons.1 hprops
    rw [hp.logicalLines_cons hwritable, List.mapM_cons, hp.ofLine hwritable, ih hrest]
    rfl

/-- Entries that can be written are, in whatever way each of their characters is written, read back
in order, each with the number of its line. -/
theorem parse_written (hprops : ∀ p ∈ props, p.Writable) :
    (∃ written, List.Forall₂ WritesEntry props written) ∧
      ∀ written, List.Forall₂ WritesEntry props written →
        parse (String.ofList (written.flatMap (· ++ ['\n']))) =
          .ok ((props.zipIdx 1).map fun (p, number) => { p with line := number }) := by
  constructor
  · clear hprops
    induction props with
    | nil => exact ⟨[], .nil⟩
    | cons p props ih =>
      obtain ⟨line, hline⟩ := WritesEntry.exists_line p
      obtain ⟨written, hwritten⟩ := ih
      exact ⟨line :: written, .cons hline hwritten⟩
  · intro written h
    have hbreak : ∀ line ∈ written, '\r' ∉ line ∧ '\n' ∉ line := by
      induction h with
      | nil => simp
      | cons hp _ ih =>
        obtain ⟨hwritable, hrest⟩ := List.forall_mem_cons.1 hprops
        exact List.forall_mem_cons.2 ⟨hp.no_break hwritable, ih hrest⟩
    rw [parse, String.toList_ofList, lines_flatMap hbreak]
    exact mapM_ofLine_written hprops h 1

/-- A key that looks like a comment and ends in a bracket, with a form for an exact count and a
value that ends in a backslash and a character beyond the first plane. -/
theorem parse_written_hash_bracket :
    parse "\\#k\\][=0]=a\\\\\\ud83d\\uDE00\n" = .ok [⟨1, "#k]", some ⟨"=0"⟩, "a\\😀"⟩] := by
  have hform : (⟨"=0"⟩ : Selector).Normalized := Selector.normalized_of_ofString? "=0" rfl
  have hwritable : ∀ p ∈ [(⟨0, "#k]", some ⟨"=0"⟩, "a\\😀"⟩ : Property)], p.Writable := by
    intro p hp
    obtain rfl := List.mem_singleton.1 hp
    exact ⟨by decide, by simpa using hform, by simp⟩
  have hkey : Writes "#k]".toList ['\\', '#', 'k', '\\', ']'] := by
    have hlist : "#k]".toList = ['#', 'k', ']'] := rfl
    rw [hlist]
    exact .cons (.pair (by decide) (by decide)) <| .cons (.plain (by decide)) <|
      .cons (.pair (by decide) (by decide)) .nil
  have hvalue : Writes "a\\😀".toList
      ['a', '\\', '\\', '\\', 'u', 'd', '8', '3', 'd', '\\', 'u', 'D', 'E', '0', '0'] := by
    have hlist : "a\\😀".toList = ['a', '\\', '😀'] := rfl
    have hunits : WritesChar '😀'
        ['\\', 'u', 'd', '8', '3', 'd', '\\', 'u', 'D', 'E', '0', '0'] := by
      have hpair : Text.utf16Units '😀' = [0xD83D, 0xDE00] := by decide
      refine .units (by decide) ?_
      rw [hpair]
      exact .cons (by decide) (.cons (by decide) .nil)
    rw [hlist]
    exact .cons (.plain (by decide)) <| .cons (.pair (by decide) (by decide)) <|
      .cons hunits .nil
  have hline := WritesEntry.intro (p := ⟨0, "#k]", some ⟨"=0"⟩, "a\\😀"⟩) hkey hvalue
  have hread := (parse_written hwritable).2 _ (.cons hline .nil)
  exact hread

end Properties

end Localization
