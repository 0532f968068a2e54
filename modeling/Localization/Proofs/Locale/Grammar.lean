import Localization.Proofs.Locale.Canonical

namespace Localization

theorem exists_mem_splitOnP {α : Type} {p : α → Bool} {as : List α} {a : α} (ha : a ∈ as)
    (hp : p a = false) : ∃ piece ∈ as.splitOnP p, a ∈ piece := by
  induction as with
  | nil => cases ha
  | cons b rest ih =>
    rw [List.splitOnP_cons_eq_if_modifyHead]
    cases hb : p b with
    | true =>
      have hrest : a ∈ rest := by
        rcases List.mem_cons.1 ha with rfl | hrest
        · simp [hp] at hb
        · exact hrest
      obtain ⟨piece, hpiece, hmem⟩ := ih hrest
      exact ⟨piece, by simp [hpiece], hmem⟩
    | false =>
      obtain ⟨first, others, hsplit⟩ := List.exists_cons_of_ne_nil (List.splitOnP_ne_nil p rest)
      simp only [hsplit, Bool.false_eq_true, if_false, List.modifyHead_cons] at ih ⊢
      rcases List.mem_cons.1 ha with rfl | hrest
      · exact ⟨a :: first, List.mem_cons_self, List.mem_cons_self⟩
      · obtain ⟨piece, hpiece, hmem⟩ := ih hrest
        rcases List.mem_cons.1 hpiece with rfl | hpiece
        · exact ⟨b :: piece, List.mem_cons_self, List.mem_cons_of_mem b hmem⟩
        · exact ⟨piece, List.mem_cons_of_mem _ hpiece, hmem⟩

theorem head?_splitOnP {α : Type} (p : α → Bool) (as : List α) :
    (as.splitOnP p).head? = some (as.takeWhile (!p ·)) := by
  induction as with
  | nil => rfl
  | cons a rest ih =>
    obtain ⟨first, others, hsplit⟩ := List.exists_cons_of_ne_nil (List.splitOnP_ne_nil p rest)
    have hfirst : first = rest.takeWhile (!p ·) := by simpa [hsplit] using ih
    rw [List.splitOnP_cons_eq_if_modifyHead, hsplit, List.takeWhile_cons]
    cases hp : p a <;> simp [hfirst]

namespace Locale

/-! Which texts are tags -/

/-- The text before the first separator. -/
def firstSegment (text : List Char) : List Char :=
  text.takeWhile (!isSeparator ·)

/-- Whether a text without blanks around it names root or has the form of a tag: letters, digits and
separators, of which letters come first. -/
def IsTag (text : List Char) : Prop :=
  text = [] ∨ text.map Char.toLower = "root".toList ∨ text.map Char.toLower = "default".toList ∨
    (∀ c ∈ text, c.isAlphanum ∨ c = '_' ∨ c = '-') ∧
      firstSegment text ≠ [] ∧ ∀ c ∈ firstSegment text, c.isAlpha

theorem isRootName_iff (text : List Char) : isRootName text ↔
    text = [] ∨ text.map Char.toLower = "root".toList ∨
      text.map Char.toLower = "default".toList := by
  simp only [isRootName, Bool.or_eq_true, List.isEmpty_iff, beq_iff_eq, or_assoc]

theorem isTagChar_iff (c : Char) : isTagChar c ↔ c.isAlphanum ∨ c = '_' ∨ c = '-' := by
  simp only [isTagChar, isSeparator, Bool.or_eq_true, beq_iff_eq]

theorem exists_read_iff (text : List Char) : (∃ t, read text = .ok t) ↔ IsTag text := by
  have hhead : (text.splitOnP isSeparator).head? = some (firstSegment text) :=
    head?_splitOnP isSeparator text
  have htagged : IsTag text ↔ isRootName text ∨ (∀ c ∈ text, isTagChar c) ∧
      firstSegment text ≠ [] ∧ ∀ c ∈ firstSegment text, c.isAlpha := by
    simp only [IsTag, isRootName_iff, isTagChar_iff, or_assoc]
  rw [htagged]
  constructor
  · rintro ⟨t, h⟩
    rcases read_eq_ok_iff.1 h with ⟨hroot, -⟩ | ⟨-, htag, htagged⟩
    · exact .inl hroot
    · obtain ⟨language, segments, hsplit, hne, halpha, -⟩ := htagged
      obtain rfl : language = firstSegment text := by simpa [hsplit] using hhead
      exact .inr ⟨htag, hne, halpha⟩
  · intro h
    cases hroot : isRootName text with
    | true => exact ⟨root, read_eq_ok_iff.2 (.inl ⟨hroot, rfl⟩)⟩
    | false =>
      obtain ⟨htag, hne, halpha⟩ := h.resolve_left (by simp [hroot])
      obtain ⟨language, segments, hsplit⟩ :=
        List.exists_cons_of_ne_nil (List.splitOnP_ne_nil isSeparator text)
      obtain rfl : language = firstSegment text := by simpa [hsplit] using hhead
      exact ⟨_, read_eq_ok_iff.2 (.inr ⟨hroot, htag, _, segments, hsplit, hne, halpha, rfl⟩)⟩

/-! Characters and words in either case -/

/-- What holds of no letter holds in either case or in none. -/
theorem apply_toLower {f : Char → Bool} (hf : ∀ c : Char, c.isAlpha → f c = false) (c : Char) :
    f c.toLower = f c := by
  by_cases hupper : c.isUpper
  · have halpha : c.isAlpha := by simp [Char.isAlpha, hupper]
    rw [hf c halpha, hf c.toLower (by simpa using halpha)]
  · rw [Char.toLower_eq_of_not_isUpper hupper]

theorem isAlphanum_of_isAlpha {c : Char} (h : c.isAlpha) : c.isAlphanum := by
  simp [Char.isAlphanum, h]

@[simp] theorem isSeparator_toLower (c : Char) : isSeparator c.toLower = isSeparator c :=
  apply_toLower (fun _ h => not_isSeparator_of_isAlphanum (isAlphanum_of_isAlpha h)) c

/-- A word without separators has none in either case. -/
theorem not_isSeparator_of_map_toLower {text word : List Char}
    (hword : word.all (!isSeparator ·)) (h : text.map Char.toLower = word) :
    ∀ c ∈ text, isSeparator c = false := by
  intro c hc
  have hlower := List.all_eq_true.1 hword c.toLower (h ▸ List.mem_map_of_mem hc)
  simpa using hlower

variable {t u : Locale}

/-! Which tags are read -/

theorem isLower_iff_toLower {c : Char} : c.isLower ↔ c.isAlpha ∧ c.toLower = c := by
  constructor
  · exact fun h => ⟨by simp [Char.isAlpha, h],
      Char.toLower_eq_of_not_isUpper (Char.not_isUpper_of_isLower h)⟩
  · rintro ⟨halpha, hlower⟩
    rw [← hlower, Char.isLower_toLower_eq_isAlpha]
    exact halpha

theorem isUpper_iff_isAlpha {c : Char} : c.isUpper ↔ c.isAlpha ∧ c.isLower = false := by
  have hor : c.isAlpha ↔ c.isUpper ∨ c.isLower := by simp [Char.isAlpha]
  constructor
  · exact fun h => ⟨hor.2 (.inl h), by simpa using Char.not_isLower_of_isUpper h⟩
  · rintro ⟨halpha, hlower⟩
    exact (hor.1 halpha).resolve_right (by simp [hlower])

theorem isUpper_iff_toUpper {c : Char} : c.isUpper ↔ c.isAlpha ∧ c.toUpper = c := by
  constructor
  · exact fun h => ⟨(isUpper_iff_isAlpha.1 h).1,
      Char.toUpper_eq_of_not_isLower (Char.not_isLower_of_isUpper h)⟩
  · rintro ⟨halpha, hupper⟩
    rw [← hupper, Char.isUpper_toUpper_eq_isAlpha]
    exact halpha

theorem script_iff (s : List Char) : isScript s ∧ titlecase s = s ↔
    ∃ first rest, s = first :: rest ∧ first.isUpper ∧ rest.length = 3 ∧ ∀ c ∈ rest, c.isLower := by
  cases s with
  | nil => simp [isScript]
  | cons first rest =>
    have hshape : isScript (first :: rest) ↔
        first.isAlpha ∧ rest.length = 3 ∧ ∀ c ∈ rest, c.isAlpha := by
      simp [isScript, and_left_comm]
    have hcase : titlecase (first :: rest) = first :: rest ↔
        first.toUpper = first ∧ ∀ c ∈ rest, c.toLower = c := by
      have hmap : rest.map Char.toLower = rest ↔ ∀ c ∈ rest, c.toLower = c := by
        simpa using List.map_eq_map_iff (f := Char.toLower) (g := id) (l := rest)
      simp [titlecase, hmap]
    simp only [hshape, hcase, List.cons.injEq, isLower_iff_toLower, isUpper_iff_toUpper, forall_and]
    constructor
    · rintro ⟨⟨hfirst, hlength, hrest⟩, hfirst', hrest'⟩
      exact ⟨first, rest, ⟨rfl, rfl⟩, ⟨hfirst, hfirst'⟩, hlength, hrest, hrest'⟩
    · rintro ⟨_, _, ⟨rfl, rfl⟩, ⟨hfirst, hfirst'⟩, hlength, hrest, hrest'⟩
      exact ⟨⟨hfirst, hlength, hrest⟩, hfirst', hrest'⟩

theorem region_iff (s : List Char) : (isRegion s ∧ ∀ c ∈ s, c.isLower = false) ↔
    s.length = 2 ∧ (∀ c ∈ s, c.isUpper) ∨ s.length = 3 ∧ ∀ c ∈ s, c.isDigit := by
  simp only [isUpper_iff_isAlpha, forall_and]
  simp only [isRegion, Bool.or_eq_true, Bool.and_eq_true, beq_iff_eq, List.all_eq_true]
  have hdigit : (∀ c ∈ s, c.isDigit) → ∀ c ∈ s, c.isLower = false := fun h c hc => by
    have hbounds := (Text.isDigit_iff c).1 (h c hc)
    rw [Bool.eq_false_iff, ne_eq, Text.isLower_iff]
    omega
  tauto

/-- The subtags of a tag in their shapes. -/
theorem canonical_iff : t.Canonical ↔
    t.language ≠ "" ∧ (∀ c ∈ t.language.toList, c.isLower) ∧
    (t.script = "" ∨ ∃ first rest, t.script.toList = first :: rest ∧ first.isUpper ∧
      rest.length = 3 ∧ ∀ c ∈ rest, c.isLower) ∧
    (t.region = "" ∨ t.region.toList.length = 2 ∧ (∀ c ∈ t.region.toList, c.isUpper) ∨
      t.region.toList.length = 3 ∧ ∀ c ∈ t.region.toList, c.isDigit) ∧
    ∃ segments, t.VariantSegments segments := by
  have hlanguage : t.language ≠ "" ↔ t.language.toList ≠ [] := by simp
  rw [hlanguage, ← script_iff, ← region_iff]
  exact ⟨fun ⟨hne, hlower, hscript, hregion, hvariant⟩ => ⟨hne, hlower, hscript, hregion, hvariant⟩,
    fun ⟨hne, hlower, hscript, hregion, hvariant⟩ => ⟨hne, hlower, hscript, hregion, hvariant⟩⟩

theorem splitOnP_append_separators {α : Type} {p : α → Bool} (as : List α) {trail : List α}
    (h : ∀ a ∈ trail, p a) : (as ++ trail).splitOnP p = as.splitOnP p ++ trail.map fun _ => [] := by
  induction trail generalizing as with
  | nil => simp
  | cons a trail ih =>
    obtain ⟨ha, htrail⟩ := List.forall_mem_cons.1 h
    have hrest := ih [] htrail
    rw [List.splitOnP_append_cons as trail ha]
    simpa using hrest

variable {segments : List (List Char)}

theorem VariantSegments.filter_segments (h : t.VariantSegments segments) :
    (segment t.script ++ (segment t.region ++ segments)).filter (!·.isEmpty) =
      segment t.script ++ (segment t.region ++ segments) := by
  have hsegment (subtag : String) : ∀ s ∈ segment subtag, s ≠ [] := by
    intro s hs
    rw [segment, List.mem_ite_nil_left] at hs
    rw [List.mem_singleton.1 hs.2]
    simpa using hs.1
  refine List.filter_eq_self.2 fun s hs => ?_
  have hne : s ≠ [] := by
    rcases List.mem_append.1 hs with hs | hs
    · exact hsegment _ s hs
    · rcases List.mem_append.1 hs with hs | hs
      · exact hsegment _ s hs
      · exact (h.alphanum s hs).1
  simpa using hne

/-- A text of tag characters is not trimmed. -/
theorem trim_of_isTagChar {text : List Char} (h : ∀ c ∈ text, isTagChar c) :
    Text.trim text = text := by
  refine Text.trim_of_no_blank fun c hc => ?_
  rcases (isTagChar_iff c).1 (h c hc) with halphanum | rfl | rfl
  · exact Text.isBlank_of_isAlphanum halphanum
  · decide
  · decide

theorem Canonical.isTagChar_of_mem_name (h : t.Canonical) {c : Char} (hc : c ∈ t.name.toList) :
    isTagChar c := by
  obtain ⟨segments, hsegments⟩ := h.variant
  by_cases hseparator : isSeparator c
  · simp [isTagChar, hseparator]
  · obtain ⟨piece, hpiece, hmem⟩ := exists_mem_splitOnP hc (by simpa using hseparator)
    have hsplit := h.splitOnP_name hsegments
    rw [← List.append_assoc, ← List.cons_append] at hsplit
    rw [hsplit] at hpiece
    have halphanum : c.isAlphanum := by
      rcases List.mem_append.1 hpiece with hpiece | hpiece
      · exact h.isAlphanum_of_mem_leadingSegments hpiece hmem
      · exact (hsegments.alphanum piece hpiece).2 c hmem
    simp [isTagChar, halphanum]

/-- A tag is read back from its written form, with or without separators behind it, unless that
names root. -/
theorem Canonical.parse_name_append (h : t.Canonical) {trail : String}
    (htrail : ∀ c ∈ trail.toList, isSeparator c)
    (hroot : isRootName (t.name ++ trail).toList = false) : parse (t.name ++ trail) = .ok t := by
  obtain ⟨segments, hsegments⟩ := h.variant
  have hsplit := splitOnP_append_separators t.name.toList htrail
  rw [h.splitOnP_name hsegments, List.cons_append, ← String.toList_append] at hsplit
  have htag : ∀ c ∈ (t.name ++ trail).toList, isTagChar c := by
    intro c hc
    rcases List.mem_append.1 (String.toList_append ▸ hc) with hc | hc
    · exact h.isTagChar_of_mem_name hc
    · simp [isTagChar, htrail c hc]
  have halpha : ∀ c ∈ t.language.toList, c.isAlpha := fun c hc => by
    simp [Char.isAlpha, h.language c hc]
  rw [parse_eq_ok_iff, trim_of_isTagChar htag]
  refine read_eq_ok_iff.2 (.inr ⟨hroot, htag, _, _, hsplit, h.language_ne_nil, halpha, ?_⟩)
  -- The separators behind the tag only add empty segments, which do not count.
  have hempty : (trail.toList.map fun _ => ([] : List Char)).filter (!·.isEmpty) = [] := by simp
  rw [List.filter_append, hsegments.filter_segments, hempty, List.append_nil,
    h.ofSubtags_eq hsegments]

theorem Canonical.name_eq (h : t.Canonical) : t.name = "_".intercalate t.presentSubtags := by
  rw [name, isRoot_eq_false h.language_ne_empty, if_neg Bool.false_ne_true]

/-- A separator at its end keeps a text from naming root. -/
theorem Canonical.parse_name_underscore (h : t.Canonical) : parse (t.name ++ "_") = .ok t := by
  refine h.parse_name_append (by simp [isSeparator]) ?_
  rw [Bool.eq_false_iff, ne_eq, isRootName_iff]
  rintro (hname | hname | hname) <;> have hlast := congrArg List.getLast? hname <;> simp at hlast

theorem exists_parse_iff : (∃ text, parse text = .ok t) ↔ t = root ∨ t.Canonical := by
  constructor
  · rintro ⟨text, h⟩
    exact canonical_of_parse h
  · rintro (rfl | h)
    · exact ⟨"", rfl⟩
    · exact ⟨t.name ++ "_", h.parse_name_underscore⟩

theorem Canonical.ne_root (h : t.Canonical) : t ≠ root := by
  rintro rfl
  exact h.language_ne_empty rfl

/-- The texts that are read, blanks around them apart, are those that name root or have the form of
a tag. The tags that they are read as are root and those with each subtag in its shape and none in
the variant that could be read as another; such a tag is read from its subtags with a separator at
the end. With a tag its parent is read, too. -/
theorem parse_grammar :
    (∀ text, (∃ t, parse text = .ok t) ↔ IsTag (Text.trim text.toList)) ∧
    (∀ t, t ≠ root ∧ (∃ text, parse text = .ok t) ↔
      t.language ≠ "" ∧ (∀ c ∈ t.language.toList, c.isLower) ∧
      (t.script = "" ∨ ∃ first rest, t.script.toList = first :: rest ∧ first.isUpper ∧
        rest.length = 3 ∧ ∀ c ∈ rest, c.isLower) ∧
      (t.region = "" ∨ t.region.toList.length = 2 ∧ (∀ c ∈ t.region.toList, c.isUpper) ∨
        t.region.toList.length = 3 ∧ ∀ c ∈ t.region.toList, c.isDigit) ∧
      ∃ segments, t.VariantSegments segments) ∧
    (∀ text t, parse text = .ok t → t ≠ root →
      parse ("_".intercalate t.presentSubtags ++ "_") = .ok t) ∧
    ∀ text t p, parse text = .ok t → t.parent? = some p → ∃ text, parse text = .ok p := by
  refine ⟨fun text => ?_, fun t => ?_, fun text t h hne => ?_, fun text t p h hparent => ?_⟩
  · simp only [parse_eq_ok_iff, exists_read_iff]
  · rw [← canonical_iff, exists_parse_iff]
    exact ⟨fun ⟨hne, h⟩ => h.resolve_left hne, fun h => ⟨h.ne_root, .inr h⟩⟩
  · have hcanonical := (canonical_of_parse h).resolve_left hne
    rw [← hcanonical.name_eq]
    exact hcanonical.parse_name_underscore
  · rw [exists_parse_iff]
    rcases canonical_of_parse h with rfl | hcanonical
    · cases hparent
    · exact hcanonical.of_parent? hparent

/-- A language that is written like root, with empty segments and a variant that looks like a region
further on. -/
theorem parse_grammar_root_Latn :
    parse "ROOT--latn_x-419" = .ok ⟨"root", "Latn", "", "x_419"⟩ ∧
    parse "root_Latn_x_419_" = .ok ⟨"root", "Latn", "", "x_419"⟩ ∧
    ∃ text, parse text = .ok ⟨"root", "Latn", "", ""⟩ := by
  have hread : parse "ROOT--latn_x-419" = .ok ⟨"root", "Latn", "", "x_419"⟩ := rfl
  obtain ⟨-, -, hagain, hparent⟩ := parse_grammar
  exact ⟨hread, hagain _ _ hread (by decide), hparent _ _ _ hread rfl⟩

end Locale

end Localization
