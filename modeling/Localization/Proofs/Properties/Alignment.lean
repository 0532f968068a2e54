import Localization.Proofs.Properties.Composition
import Localization.Proofs.Properties.Resolved

namespace Localization.Properties

/-- A line in the parts that it is cut into: its key, its value, and between them characters that
end keys. None of its escapes lies across the place where a part ends. -/
structure Parts (line key separator value : List Char) : Prop where
  line_eq : line = key ++ separator ++ value
  ends_key : ∀ c ∈ separator, endsKey c
  before_separator : Whole key
  before_value : Whole (key ++ separator)
  value : Whole value

/-- The texts whose escapes are resolved where a text is read: the key and the value of each of its
logical lines. -/
def escapedTexts (text : String) : List (List Char) :=
  (logicalLines 1 none (lines text.toList)).flatMap fun l =>
    [(splitLine l.text).1, (splitLine l.text).2]

section

variable (decode : List Char → Except Fault (List Char))

/-- The entry of a logical line, with `decode` in place of resolving the escapes in it. -/
def ofLineBy (l : LogicalLine) : Except Fault Property := do
  let (rawKey, rawValue) := splitLine l.text
  let name ← decode rawKey
  let value ← decode rawValue
  let (key, form?) ← splitForm name
  if key.isEmpty then throw .emptyKey
  return { line := l.number, key := String.ofList key, form?, value := String.ofList value }

/-- The entries of a text, with `decode` in place of resolving the escapes in it. -/
def parseBy (text : String) : Except Error (List Property) :=
  (logicalLines 1 none (lines text.toList)).mapM fun l =>
    (ofLineBy decode l).mapError (.malformedProperties l.number)

end

theorem parseBy_unescape (text : String) : parseBy unescape text = parse text :=
  rfl

/-! Logical lines -/

variable {number : Nat} {pending : Option LogicalLine} {l : LogicalLine}

theorem not_continues_dropLast {line : List Char} (h : continues line = true) :
    continues line.dropLast = false := by
  cases line using List.reverseRecOn with
  | nil => rfl
  | append_singleton line c =>
    rw [continues_concat, Bool.and_eq_true, Bool.not_eq_true'] at h
    rw [List.dropLast_concat]
    exact h.2

theorem not_continues_completed? {line : List Char} (h : l ∈ completed? number line pending) :
    continues l.text = false := by
  simpa using (Option.mem_filter_iff.1 h).2

/-- A logical line that is left open has lost the backslash that keeps it open. -/
theorem not_continues_openAfter {line : List Char} (h : l ∈ openAfter number line pending) :
    continues l.text = false := by
  obtain ⟨l', hl', rfl⟩ := Option.mem_map.1 h
  exact not_continues_dropLast (Option.mem_filter_iff.1 hl').2

/-- Lines that are handed on open never end in an odd number of backslashes, so that the end of the
text may close them. -/
theorem not_continues_of_mem_logicalLines (hpending : ∀ l ∈ pending, continues l.text = false)
    {text : List (List Char)} (h : l ∈ logicalLines number pending text) :
    continues l.text = false := by
  induction text generalizing number pending with
  | nil => exact hpending l (Option.mem_toList.1 h)
  | cons line rest ih =>
    rw [logicalLines_cons_eq, List.mem_append, Option.mem_toList] at h
    rcases h with h | h
    · exact not_continues_completed? h
    · exact ih (fun l' hl' => not_continues_openAfter hl') h

theorem whole_of_mem_logicalLines {text : List (List Char)}
    (h : l ∈ logicalLines number none text) : Whole l.text := by
  have hnone : ∀ l ∈ (none : Option LogicalLine), continues l.text = false := by simp
  exact whole_iff.2 (not_continues_of_mem_logicalLines hnone h)

/-! The parts of a line -/

theorem splitKey_append_eq (bracketed : Bool) (line : List Char) :
    (splitKey bracketed line).1 ++ (splitKey bracketed line).2 = line := by
  fun_induction splitKey bracketed line with
  | case1 => rfl
  | case2 => rfl
  | case3 bracketed c rest key after hsplit ih =>
    rw [hsplit] at ih
    rw [← ih]
    rfl
  | case4 => rfl
  | case5 bracketed c rest hc hends key after hsplit ih =>
    rw [hsplit] at ih
    rw [← ih]
    rfl

/-- A key takes an escape in as a whole or not at all. -/
theorem Whole.fst_splitKey {line : List Char} (h : Whole line) (bracketed : Bool) :
    Whole (splitKey bracketed line).1 := by
  fun_induction splitKey bracketed line with
  | case1 => exact .nil
  | case2 => exact h
  | case3 bracketed c rest key after hsplit ih =>
    have hkey := ih h.of_pair
    rw [hsplit] at hkey
    exact .pair hkey
  | case4 => exact .nil
  | case5 bracketed c rest hc hends key after hsplit ih =>
    have hkey := ih (h.of_plain hc)
    rw [hsplit] at hkey
    exact .plain hc hkey

theorem exists_blanks (text : List Char) :
    ∃ blanks, text = blanks ++ Text.trimLeft text ∧ ∀ c ∈ blanks, endsKey c := by
  refine ⟨text.takeWhile Text.isBlank, List.takeWhile_append_dropWhile.symm, fun c hc => ?_⟩
  have hblank : Text.isBlank c := List.mem_takeWhile_imp hc
  simp [endsKey, hblank]

/-- What is dropped in front of a value ends keys. -/
theorem exists_separator (text : List Char) :
    ∃ separator, text = separator ++ dropSeparator text ∧ ∀ c ∈ separator, endsKey c := by
  obtain ⟨blanks, htext, hblanks⟩ := exists_blanks text
  unfold dropSeparator
  split
  · rename_i hnil
    exact ⟨blanks, by rwa [hnil] at htext, hblanks⟩
  · rename_i c rest hcons
    rw [hcons] at htext
    split
    · rename_i hmark
      obtain ⟨blanks', hrest, hblanks'⟩ := exists_blanks rest
      have hends : endsKey c := by rw [endsKey, hmark, Bool.true_or]
      refine ⟨blanks ++ c :: blanks', ?_, ?_⟩
      · rw [List.append_assoc, List.cons_append, ← hrest]
        exact htext
      · exact List.forall_mem_append.2 ⟨hblanks, List.forall_mem_cons.2 ⟨hends, hblanks'⟩⟩
    · exact ⟨blanks, htext, hblanks⟩

/-- A line that does not end within an escape is cut nowhere within one. -/
theorem Whole.exists_parts {line : List Char} (h : Whole line) :
    ∃ separator, Parts line (splitLine line).1 separator (splitLine line).2 := by
  obtain ⟨separator, hafter, hends⟩ := exists_separator (splitKey false line).2
  have hline : line = (splitLine line).1 ++ separator ++ (splitLine line).2 := calc
    line = (splitKey false line).1 ++ (splitKey false line).2 :=
      (splitKey_append_eq false line).symm
    _ = (splitKey false line).1 ++ (separator ++ dropSeparator (splitKey false line).2) := by
      rw [← hafter]
    _ = (splitLine line).1 ++ separator ++ (splitLine line).2 := (List.append_assoc ..).symm
  have hescape : endsKey '\\' = false := by decide
  have hseparator : Whole separator := whole_of_no_escape fun hmem => by
    simpa [hescape] using hends _ hmem
  have hkey : Whole (splitLine line).1 := h.fst_splitKey false
  have hboth : Whole ((splitLine line).1 ++ separator) := hkey.append_iff.2 hseparator
  exact ⟨separator, hline, hends, hkey, hboth, hboth.append_iff.1 (hline ▸ h)⟩

theorem whole_of_mem_escapedTexts {text : String} {raw : List Char} (h : raw ∈ escapedTexts text) :
    Whole raw := by
  obtain ⟨l, hl, hraw⟩ := List.mem_flatMap.1 h
  obtain ⟨separator, hparts⟩ := (whole_of_mem_logicalLines hl).exists_parts
  rcases List.mem_pair.1 hraw with rfl | rfl
  · exact hparts.before_separator
  · exact hparts.value

/-! Reading a text -/

/-- Reading resolves escapes in the keys and the values of logical lines and nowhere else. -/
theorem parseBy_congr {decode decode' : List Char → Except Fault (List Char)} {text : String}
    (h : ∀ raw ∈ escapedTexts text, decode raw = decode' raw) :
    parseBy decode text = parseBy decode' text := by
  refine mapM_congr fun l hl => ?_
  have hraw : ∀ raw ∈ [(splitLine l.text).1, (splitLine l.text).2], decode raw = decode' raw :=
    fun raw hmem => h raw (List.mem_flatMap.2 ⟨l, hl, hmem⟩)
  have hkey := hraw _ List.mem_cons_self
  have hvalue := hraw _ (List.mem_cons_of_mem _ List.mem_cons_self)
  simp only [ofLineBy, hkey, hvalue]

/-- No escape is cut where a text is read. A logical line does not end in an odd number of
backslashes, not even if the end of the text closes it, and it is cut into a key and a value at
places outside its escapes. So neither ends in a backslash that stands alone, resolving their escapes
never comes to such a backslash, and it gets to their ends if they have no malformed escapes. There
are no other texts in which reading resolves escapes. -/
theorem parse_cuts_no_escape (text : String) :
    (∀ l ∈ logicalLines 1 none (lines text.toList), continues l.text = false ∧
      ∃ separator, Parts l.text (splitLine l.text).1 separator (splitLine l.text).2) ∧
    (∀ raw ∈ escapedTexts text, continues raw = false ∧
      ∀ s, ¬Resolves raw s ['\\'] ∧ (unescape raw = .ok s ↔ Resolves raw s [])) ∧
    ∀ decode, (∀ raw ∈ escapedTexts text, decode raw = unescape raw) →
      parseBy decode text = parse text := by
  refine ⟨fun l hl => ?_, fun raw hraw => ?_, fun decode hdecode => ?_⟩
  · have hwhole := whole_of_mem_logicalLines hl
    exact ⟨hwhole.continues_eq_false, hwhole.exists_parts⟩
  · have hwhole := whole_of_mem_escapedTexts hraw
    exact ⟨hwhole.continues_eq_false,
      fun s => ⟨hwhole.not_resolves_escape, hwhole.unescape_eq_ok_iff⟩⟩
  · rw [parseBy_congr hdecode, parseBy_unescape]

/-- The text ends within a logical line, an escaped blank and an escaped backslash stand before the
`=`, and resolving is replaced by what fails at texts that end within an escape. -/
theorem parse_cuts_no_escape_dangling :
    ⟨1, "k\\ \\\\ = a\\\\".toList⟩ ∈ logicalLines 1 none (lines "k\\ \\\\ = a\\\\\\".toList) ∧
      (∃ separator, Parts "k\\ \\\\ = a\\\\".toList "k\\ \\\\".toList separator "a\\\\".toList) ∧
      "a\\\\".toList ∈ escapedTexts "k\\ \\\\ = a\\\\\\" ∧
      Resolves "a\\\\".toList "a\\".toList [] ∧
      parseBy (fun raw => if continues raw then .error .emptyKey else unescape raw)
        "k\\ \\\\ = a\\\\\\" = .ok [⟨1, "k \\", none, "a\\"⟩] := by
  obtain ⟨hlines, htexts, hby⟩ := parse_cuts_no_escape "k\\ \\\\ = a\\\\\\"
  have hl : ⟨1, "k\\ \\\\ = a\\\\".toList⟩ ∈
      logicalLines 1 none (lines "k\\ \\\\ = a\\\\\\".toList) := List.mem_singleton_self _
  have hraw : "a\\\\".toList ∈ escapedTexts "k\\ \\\\ = a\\\\\\" :=
    List.mem_cons_of_mem _ (List.mem_singleton_self _)
  refine ⟨hl, (hlines _ hl).2, hraw, ((htexts _ hraw).2 _).2.1 rfl, ?_⟩
  rw [hby]
  · rfl
  · intro raw hmem
    simp [(htexts raw hmem).1]

end Localization.Properties
