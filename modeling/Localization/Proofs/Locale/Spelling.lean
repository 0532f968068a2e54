import Localization.Proofs.Locale.Grammar

namespace Localization

namespace Text

/-- Blanks around a text do not count. -/
theorem trim_append {before after : List Char} (hbefore : ∀ c ∈ before, isBlank c)
    (hafter : ∀ c ∈ after, isBlank c) (text : List Char) :
    trim (before ++ text ++ after) = trim text := by
  have hleft : trimLeft (before ++ text ++ after) = trimLeft (text ++ after) := by
    rw [trimLeft, List.append_assoc, List.dropWhile_append_of_pos hbefore, trimLeft]
  have hright (s : List Char) : trimRight (s ++ after) = trimRight s := by
    rw [trimRight, List.reverse_append, List.dropWhile_append_of_pos (by simpa using hafter),
      trimRight]
  have hnone : trimLeft after = [] := List.dropWhile_eq_nil_iff.2 hafter
  rw [trim, hleft, trimLeft, List.dropWhile_append, trim]
  split
  · rename_i hempty
    rw [trimLeft, List.isEmpty_iff.1 hempty]
    exact congrArg trimRight hnone
  · exact hright _

/-- What keeps blanks keeps where a text is trimmed. -/
theorem trim_map {f : Char → Char} (hf : ∀ c, isBlank (f c) = isBlank c) (text : List Char) :
    trim (text.map f) = (trim text).map f := by
  have hcomp : isBlank ∘ f = isBlank := funext hf
  simp only [trim, trimLeft, trimRight, List.dropWhile_map, hcomp, ← List.map_reverse]

end Text

theorem map_intercalate {α β : Type} (f : α → β) (sep : List α) (pieces : List (List α)) :
    (sep.intercalate pieces).map f = (sep.map f).intercalate (pieces.map (List.map f)) := by
  induction pieces with
  | nil => rfl
  | cons piece rest ih =>
    cases rest with
    | nil => simp
    | cons next rest =>
      rw [List.intercalate_cons_cons, List.map_append, List.map_append, ih]
      exact List.intercalate_cons_cons.symm

namespace Locale

/-! Characters that tags do not tell apart -/

@[simp] theorem isDigit_toLower (c : Char) : c.toLower.isDigit = c.isDigit := by
  refine apply_toLower (fun c halpha => ?_) c
  rw [Bool.eq_false_iff, ne_eq, Text.isDigit_iff]
  rw [Char.isAlpha, Bool.or_eq_true, Text.isUpper_iff, Text.isLower_iff] at halpha
  omega

@[simp] theorem isBlank_toLower (c : Char) : Text.isBlank c.toLower = Text.isBlank c :=
  apply_toLower (fun _ h => Text.isBlank_of_isAlphanum (isAlphanum_of_isAlpha h)) c

/-- Characters that a tag can be written with in place of each other, but for the case of letters
in the variant: a letter in either case, or the separators. -/
def Alike (c c' : Char) : Prop :=
  c.toLower = c'.toLower ∨ isSeparator c ∧ isSeparator c'

instance : DecidableRel Alike := fun c c' =>
  inferInstanceAs (Decidable (c.toLower = c'.toLower ∨ isSeparator c ∧ isSeparator c'))

/-- One character for all that are alike. -/
def foldChar (c : Char) : Char :=
  if isSeparator c then '_' else c.toLower

theorem Alike.foldChar_eq {c c' : Char} (h : Alike c c') : foldChar c = foldChar c' := by
  rcases h with h | ⟨h, h'⟩
  · rw [foldChar, foldChar, ← isSeparator_toLower, h, isSeparator_toLower]
  · rw [foldChar, foldChar, if_pos h, if_pos h']

theorem map_foldChar_eq {text text' : List Char} (h : List.Forall₂ Alike text text') :
    text.map foldChar = text'.map foldChar := by
  induction h with
  | nil => rfl
  | cons halike _ ih => rw [List.map_cons, List.map_cons, halike.foldChar_eq, ih]

theorem foldChar_of_not_isSeparator {c : Char} (h : isSeparator c = false) :
    foldChar c = c.toLower := by
  simp [foldChar, h]

@[simp] theorem isSeparator_foldChar (c : Char) : isSeparator (foldChar c) = isSeparator c := by
  unfold foldChar
  split
  · rename_i h
    exact h.symm
  · exact isSeparator_toLower c

theorem isBlank_of_isSeparator {c : Char} (h : isSeparator c) : Text.isBlank c = false := by
  have hcases : c = '_' ∨ c = '-' := by simpa [isSeparator] using h
  rcases hcases with rfl | rfl <;> rfl

@[simp] theorem isBlank_foldChar (c : Char) : Text.isBlank (foldChar c) = Text.isBlank c := by
  unfold foldChar
  split
  · rename_i h
    rw [isBlank_of_isSeparator h]
    rfl
  · exact isBlank_toLower c

@[simp] theorem isTagChar_foldChar (c : Char) : isTagChar (foldChar c) = isTagChar c := by
  cases h : isSeparator c with
  | true => simp [isTagChar, h]
  | false => simp [isTagChar, h, foldChar_of_not_isSeparator h, Char.isAlphanum]

/-! Segments in either case -/

theorem splitOnP_map_foldChar (text : List Char) :
    (text.map foldChar).splitOnP isSeparator =
      (text.splitOnP isSeparator).map (List.map Char.toLower) := by
  induction text with
  | nil => rfl
  | cons c rest ih =>
    rw [List.map_cons, List.splitOnP_cons_eq_if_modifyHead, List.splitOnP_cons_eq_if_modifyHead,
      isSeparator_foldChar, ih]
    cases h : isSeparator c with
    | true => simp
    | false =>
      obtain ⟨first, others, hsplit⟩ :=
        List.exists_cons_of_ne_nil (List.splitOnP_ne_nil isSeparator rest)
      simp [hsplit, foldChar_of_not_isSeparator h]

theorem filter_map_toLower (segments : List (List Char)) :
    (segments.map (List.map Char.toLower)).filter (!·.isEmpty) =
      (segments.filter (!·.isEmpty)).map (List.map Char.toLower) := by
  simp [List.filter_map, Function.comp_def]

@[simp] theorem isScript_map_toLower (s : List Char) :
    isScript (s.map Char.toLower) = isScript s := by
  simp [isScript, List.all_map, Function.comp_def]

@[simp] theorem isRegion_map_toLower (s : List Char) :
    isRegion (s.map Char.toLower) = isRegion s := by
  simp [isRegion, List.all_map, Function.comp_def]

@[simp] theorem titlecase_map_toLower (s : List Char) :
    titlecase (s.map Char.toLower) = titlecase s := by
  simp [titlecase, Function.comp_def]

/-- A test that does not see the case takes the same subtag. -/
theorem takeSubtag_map_toLower {test : List Char → Bool}
    (htest : ∀ s, test (s.map Char.toLower) = test s) (subtags : List (List Char)) :
    takeSubtag test (subtags.map (List.map Char.toLower)) =
      ((takeSubtag test subtags).1.map Char.toLower,
        (takeSubtag test subtags).2.map (List.map Char.toLower)) := by
  cases subtags with
  | nil => rfl
  | cons s rest =>
    rw [List.map_cons, takeSubtag, takeSubtag, htest]
    split <;> rfl

/-- The tag with its variant in lower case. -/
def foldVariant (t : Locale) : Locale :=
  { t with variant := String.ofList (t.variant.toList.map Char.toLower) }

/-- Of the subtags only those of the variant keep their case. -/
theorem ofSubtags_map_toLower (language : List Char) (subtags : List (List Char)) :
    ofSubtags (language.map Char.toLower) (subtags.map (List.map Char.toLower)) =
      (ofSubtags language subtags).foldVariant := by
  simp [ofSubtags, foldVariant, takeSubtag_map_toLower, map_intercalate, Function.comp_def]

/-! Texts in either case, with either separator -/

theorem not_isSeparator_of_isRootName {text : List Char} (h : isRootName text) :
    ∀ c ∈ text, isSeparator c = false := by
  rcases (isRootName_iff text).1 h with rfl | hroot | hdefault
  · simp
  · exact not_isSeparator_of_map_toLower rfl hroot
  · exact not_isSeparator_of_map_toLower rfl hdefault

/-- A word without separators is written with letters in either case only. -/
theorem map_foldChar_spells_iff {word : List Char} (hword : word.all (!isSeparator ·))
    (text : List Char) :
    (text.map foldChar).map Char.toLower = word ↔ text.map Char.toLower = word := by
  -- A separator is none of the word's letters, whether it is folded or not.
  have hsame (hfree : ∀ c ∈ text, isSeparator c = false) :
      (text.map foldChar).map Char.toLower = text.map Char.toLower := by
    rw [List.map_congr_left fun c hc => foldChar_of_not_isSeparator (hfree c hc)]
    simp [Function.comp_def]
  constructor
  · intro h
    have hfree := not_isSeparator_of_map_toLower hword h
    rw [← hsame fun c hc => by simpa using hfree (foldChar c) (List.mem_map_of_mem hc), h]
  · intro h
    rw [hsame (not_isSeparator_of_map_toLower hword h), h]

theorem isRootName_map_foldChar (text : List Char) :
    isRootName (text.map foldChar) = isRootName text := by
  rw [Bool.eq_iff_iff, isRootName_iff, isRootName_iff, map_foldChar_spells_iff rfl,
    map_foldChar_spells_iff rfl, List.map_eq_nil_iff]

/-- A text is read like any other that is alike, but for the case of the variant. -/
theorem read_map_foldChar (text : List Char) :
    (read (text.map foldChar)).toOption = (read text).toOption.map foldVariant := by
  have hcomp : (fun c => !isTagChar c) ∘ foldChar = fun c => !isTagChar c := by
    simp [Function.comp_def]
  rw [read, read, isRootName_map_foldChar, List.find?_map, hcomp]
  split
  · rfl
  · cases text.find? fun c => !isTagChar c with
    | some c => rfl
    | none =>
      rw [splitOnP_map_foldChar]
      cases text.splitOnP isSeparator with
      | nil => rfl
      | cons language segments =>
        have hempty : (language.map Char.toLower).isEmpty = language.isEmpty := by simp
        have halpha : (language.map Char.toLower).all Char.isAlpha = language.all Char.isAlpha := by
          simp [List.all_map, Function.comp_def]
        simp only [Option.map_none, List.map_cons, hempty, halpha, filter_map_toLower,
          ofSubtags_map_toLower]
        split
        · rfl
        · split <;> rfl

/-- A text is another one with letters in another case, with separators exchanged, and with other
blanks around it. -/
inductive Respelled : List Char → List Char → Prop
  | intro {core core' before before' after after' : List Char}
      (hcore : List.Forall₂ Alike core core')
      (hbefore : ∀ c ∈ before ++ before', Text.isBlank c)
      (hafter : ∀ c ∈ after ++ after', Text.isBlank c) :
      Respelled (before ++ core ++ after) (before' ++ core' ++ after')

theorem Respelled.map_foldChar_trim {s s' : List Char} (h : Respelled s s') :
    (Text.trim s).map foldChar = (Text.trim s').map foldChar := by
  obtain ⟨hcore, hbefore, hafter⟩ := h
  obtain ⟨hbefore, hbefore'⟩ := List.forall_mem_append.1 hbefore
  obtain ⟨hafter, hafter'⟩ := List.forall_mem_append.1 hafter
  rw [Text.trim_append hbefore hafter, Text.trim_append hbefore' hafter',
    ← Text.trim_map isBlank_foldChar, ← Text.trim_map isBlank_foldChar, map_foldChar_eq hcore]

theorem exists_read_of_map_foldChar {text text' : List Char}
    (h : text.map foldChar = text'.map foldChar) {t : Locale} (ht : read text = .ok t) :
    ∃ t', read text' = .ok t' ∧ t.foldVariant = t'.foldVariant := by
  have hread := read_map_foldChar text
  rw [h, read_map_foldChar text', ht] at hread
  cases ht' : read text' with
  | error fault => simp [ht', Except.toOption] at hread
  | ok t' => exact ⟨t', rfl, by simpa [ht', Except.toOption] using hread.symm⟩

/-- The segments that count, the language apart. -/
def segmentsAfterLanguage (text : String) : List (List Char) :=
  ((Text.trim text.toList).splitOnP isSeparator).tail.filter (!·.isEmpty)

/-- What a script and a region leave of some segments. -/
def variantOf (segments : List (List Char)) : List (List Char) :=
  (takeSubtag isRegion (takeSubtag isScript segments).2).2

theorem variantOf_map_toLower (segments : List (List Char)) :
    variantOf (segments.map (List.map Char.toLower)) =
      (variantOf segments).map (List.map Char.toLower) := by
  simp [variantOf, takeSubtag_map_toLower]

theorem takeSubtag_suffix (test : List Char → Bool) (subtags : List (List Char)) :
    (takeSubtag test subtags).2 <:+ subtags := by
  cases subtags with
  | nil => exact List.suffix_refl []
  | cons s rest =>
    rw [takeSubtag]
    split
    · exact List.suffix_cons s rest
    · exact List.suffix_refl _

theorem variantOf_suffix (segments : List (List Char)) : variantOf segments <:+ segments :=
  (takeSubtag_suffix isRegion _).trans (takeSubtag_suffix isScript segments)

/-- The variant is made of the segments that are left. -/
theorem variant_of_parse {text : String} {t : Locale} (h : parse text = .ok t) :
    t.variant.toList = ['_'].intercalate (variantOf (segmentsAfterLanguage text)) := by
  rcases read_eq_ok_iff.1 (parse_eq_ok_iff.1 h) with
    ⟨hroot, rfl⟩ | ⟨-, -, language, segments, hsplit, -, -, rfl⟩
  · rw [segmentsAfterLanguage, List.splitOnP_eq_singleton (not_isSeparator_of_isRootName hroot)]
    rfl
  · rw [segmentsAfterLanguage, hsplit]
    simp [ofSubtags, variantOf]

theorem map_toLower_segmentsAfterLanguage {text text' : String}
    (h : (Text.trim text.toList).map foldChar = (Text.trim text'.toList).map foldChar) :
    (segmentsAfterLanguage text).map (List.map Char.toLower) =
      (segmentsAfterLanguage text').map (List.map Char.toLower) := by
  simp only [segmentsAfterLanguage, ← filter_map_toLower, List.map_tail, ← splitOnP_map_foldChar, h]

/-- Segments that differ in case leave as many for the variant, which are the last. -/
theorem variantOf_eq_of_suffix {segments segments' : List (List Char)}
    (h : segments.map (List.map Char.toLower) = segments'.map (List.map Char.toLower))
    (hsuffix : variantOf segments <:+ segments') : variantOf segments = variantOf segments' := by
  have hlength : (variantOf segments).length = (variantOf segments').length := by
    have hvariant := congrArg variantOf h
    rw [variantOf_map_toLower, variantOf_map_toLower] at hvariant
    simpa using congrArg List.length hvariant
  have hnested := List.suffix_of_suffix_length_le hsuffix (variantOf_suffix segments') hlength.le
  exact hnested.eq_of_length hlength

theorem foldVariant_eq_iff {t t' : Locale} : t.foldVariant = t'.foldVariant ↔
    t.language = t'.language ∧ t.script = t'.script ∧ t.region = t'.region ∧
      t.variant.toList.map Char.toLower = t'.variant.toList.map Char.toLower := by
  rw [foldVariant, foldVariant, Locale.mk.injEq, String.ofList_inj]

/-- A tag can be written in either case, with either separator and with blanks around it: it is read
with the same language, script and region and, but for its case, the same variant. The variant is
made of the last segments, and where those keep their letters the tags are the same. -/
theorem parse_respelled {s s' : String} (h : Respelled s.toList s'.toList) :
    ((∃ t, parse s = .ok t) ↔ ∃ t', parse s' = .ok t') ∧
      ∀ t t', parse s = .ok t → parse s' = .ok t' →
        t.language = t'.language ∧ t.script = t'.script ∧ t.region = t'.region ∧
        t.variant.toList.map Char.toLower = t'.variant.toList.map Char.toLower ∧
        t.variant.toList = ['_'].intercalate (variantOf (segmentsAfterLanguage s)) ∧
        (variantOf (segmentsAfterLanguage s) <:+ segmentsAfterLanguage s' → t = t') := by
  have hfold := h.map_foldChar_trim
  refine ⟨⟨fun ⟨t, ht⟩ => ?_, fun ⟨t, ht⟩ => ?_⟩, fun t t' ht ht' => ?_⟩
  · obtain ⟨t', ht', -⟩ := exists_read_of_map_foldChar hfold (parse_eq_ok_iff.1 ht)
    exact ⟨t', parse_eq_ok_iff.2 ht'⟩
  · obtain ⟨t', ht', -⟩ := exists_read_of_map_foldChar hfold.symm (parse_eq_ok_iff.1 ht)
    exact ⟨t', parse_eq_ok_iff.2 ht'⟩
  · obtain ⟨u, hu, hsame⟩ := exists_read_of_map_foldChar hfold (parse_eq_ok_iff.1 ht)
    obtain rfl : u = t' := Except.ok.inj (hu.symm.trans (parse_eq_ok_iff.1 ht'))
    obtain ⟨hlanguage, hscript, hregion, hcase⟩ := foldVariant_eq_iff.1 hsame
    refine ⟨hlanguage, hscript, hregion, hcase, variant_of_parse ht, fun hsuffix => ?_⟩
    have hleft := variantOf_eq_of_suffix (map_toLower_segmentsAfterLanguage hfold) hsuffix
    have hvariant : t.variant = u.variant := by
      rw [← String.toList_inj, variant_of_parse ht, variant_of_parse ht', hleft]
    calc
      t = ⟨t.language, t.script, t.region, t.variant⟩ := rfl
      _ = u := by rw [hlanguage, hscript, hregion, hvariant]

/-- A tag with a variant, written in two ways that agree in the variant's letters. -/
theorem parse_respelled_az_Cyrl :
    Respelled " AZ-cyrl_az-Foo".toList "az_Cyrl-AZ_Foo\t".toList ∧
    parse " AZ-cyrl_az-Foo" = .ok ⟨"az", "Cyrl", "AZ", "Foo"⟩ ∧
    parse "az_Cyrl-AZ_Foo\t" = .ok ⟨"az", "Cyrl", "AZ", "Foo"⟩ := by
  have hcore : List.Forall₂ Alike "AZ-cyrl_az-Foo".toList "az_Cyrl-AZ_Foo".toList := by decide
  have hbefore : ∀ c ∈ [' '] ++ [], Text.isBlank c := List.forall_mem_singleton.2 rfl
  have hafter : ∀ c ∈ [] ++ ['\t'], Text.isBlank c := List.forall_mem_singleton.2 rfl
  have h : Respelled " AZ-cyrl_az-Foo".toList "az_Cyrl-AZ_Foo\t".toList :=
    .intro hcore hbefore hafter
  have hread : parse " AZ-cyrl_az-Foo" = .ok ⟨"az", "Cyrl", "AZ", "Foo"⟩ := rfl
  obtain ⟨hsucceeds, hsame⟩ := parse_respelled h
  obtain ⟨t', ht'⟩ := hsucceeds.1 ⟨_, hread⟩
  obtain ⟨-, -, -, -, -, hkeeps⟩ := hsame _ _ hread ht'
  have hsuffix : variantOf (segmentsAfterLanguage " AZ-cyrl_az-Foo") <:+
      segmentsAfterLanguage "az_Cyrl-AZ_Foo\t" := ⟨["Cyrl".toList, "AZ".toList], rfl⟩
  exact ⟨h, hread, hkeeps hsuffix ▸ ht'⟩

end Locale

end Localization
