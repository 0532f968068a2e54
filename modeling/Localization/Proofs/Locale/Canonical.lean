import Localization.Locale.Parse
import Localization.Proofs.Locale.Chain
import Localization.Proofs.Text.Units

namespace Localization

theorem splitOnP_intercalate {α : Type} {p : α → Bool} {sep : α} (hsep : p sep = true)
    {pieces : List (List α)} (hne : pieces ≠ [])
    (hfree : ∀ piece ∈ pieces, ∀ a ∈ piece, p a = false) :
    ([sep].intercalate pieces).splitOnP p = pieces := by
  induction pieces with
  | nil => exact absurd rfl hne
  | cons piece rest ih =>
    have hpiece := hfree piece List.mem_cons_self
    cases rest with
    | nil => simpa using List.splitOnP_eq_singleton hpiece
    | cons next rest =>
      have hrest := ih (List.cons_ne_nil _ _) fun q hq => hfree q (List.mem_cons_of_mem _ hq)
      rw [List.intercalate_cons_cons, List.append_assoc, List.singleton_append,
        List.splitOnP_append_cons_of_forall_mem hpiece sep hsep, hrest]

theorem mem_of_mem_splitOnP {α : Type} {p : α → Bool} {as piece : List α}
    (hpiece : piece ∈ as.splitOnP p) {a : α} (ha : a ∈ piece) : a ∈ as ∧ p a = false := by
  induction as generalizing piece with
  | nil => simp_all
  | cons b rest ih =>
    rw [List.splitOnP_cons_eq_if_modifyHead] at hpiece
    cases hb : p b with
    | true =>
      rw [if_pos hb] at hpiece
      rcases List.mem_cons.1 hpiece with rfl | hmem
      · cases ha
      · exact (ih hmem ha).imp (List.mem_cons_of_mem b) id
    | false =>
      cases hrest : rest.splitOnP p with
      | nil => exact absurd hrest (List.splitOnP_ne_nil p rest)
      | cons first others =>
        rw [if_neg (by simp [hb]), hrest, List.modifyHead_cons] at hpiece
        rw [hrest] at ih
        rcases List.mem_cons.1 hpiece with rfl | hmem
        · rcases List.mem_cons.1 ha with rfl | ha
          · exact ⟨List.mem_cons_self, hb⟩
          · exact (ih List.mem_cons_self ha).imp (List.mem_cons_of_mem b) id
        · exact (ih (List.mem_cons_of_mem first hmem) ha).imp (List.mem_cons_of_mem b) id

/-- Pieces that are joined beforehand are joined all the same. -/
theorem intercalate_append_singleton {α : Type} (sep : List α) (pieces : List (List α))
    {more : List (List α)} (hne : more ≠ []) :
    sep.intercalate (pieces ++ [sep.intercalate more]) = sep.intercalate (pieces ++ more) := by
  induction pieces with
  | nil => simp
  | cons piece rest ih => simp [List.intercalate_cons_of_ne_nil, hne, ih]

namespace Locale

/-- The segments of a tag's variant. The first is not like a region or a script that the tag could
have had in its place. -/
structure VariantSegments (t : Locale) (segments : List (List Char)) : Prop where
  variant : t.variant.toList = ['_'].intercalate segments
  alphanum : ∀ s ∈ segments, s ≠ [] ∧ ∀ c ∈ s, c.isAlphanum
  not_region : t.region = "" → ∀ s, segments.head? = some s → isRegion s = false
  not_script : t.script = "" → t.region = "" → ∀ s, segments.head? = some s → isScript s = false

/-- A tag other than root as it is kept: each subtag in its case, and none in the variant that could
be read as another. -/
structure Canonical (t : Locale) : Prop where
  language_ne_nil : t.language.toList ≠ []
  language : ∀ c ∈ t.language.toList, c.isLower
  script : t.script = "" ∨ isScript t.script.toList ∧ titlecase t.script.toList = t.script.toList
  region : t.region = "" ∨ isRegion t.region.toList ∧ ∀ c ∈ t.region.toList, c.isLower = false
  variant : ∃ segments, t.VariantSegments segments

theorem Canonical.language_ne_empty {t : Locale} (h : t.Canonical) : t.language ≠ "" := by
  intro hempty
  apply h.language_ne_nil
  rw [hempty]
  rfl

theorem isRoot_eq_false {t : Locale} (h : t.language ≠ "") : t.isRoot = false := by
  simp [isRoot, specificity, presentSubtags, subtags, h]

theorem takeSubtag_spec (test : List Char → Bool) (hnil : test [] = false)
    (subtags : List (List Char)) :
    ((takeSubtag test subtags).1 = [] ∨ test (takeSubtag test subtags).1) ∧
      (∀ s ∈ (takeSubtag test subtags).2, s ∈ subtags) ∧
      ((takeSubtag test subtags).1 = [] →
        (takeSubtag test subtags).2 = subtags ∧ ∀ s, subtags.head? = some s → test s = false) := by
  cases subtags with
  | nil => simp [takeSubtag]
  | cons s rest =>
    cases htest : test s with
    | true =>
      have hne : s ≠ [] := fun heq => by simp [heq, hnil] at htest
      simp +contextual [takeSubtag, htest, hne]
    | false => simp [takeSubtag, htest]

theorem titlecase_titlecase (s : List Char) : titlecase (titlecase s) = titlecase s := by
  cases s <;> simp [titlecase]

theorem isScript_titlecase (s : List Char) : isScript (titlecase s) = isScript s := by
  cases s <;> simp [isScript, titlecase, List.all_map, Function.comp_def]

theorem toUpper_of_isDigit {c : Char} (h : c.isDigit) : c.toUpper = c := by
  refine Char.toUpper_eq_of_not_isLower fun hlower => ?_
  rw [Text.isDigit_iff] at h
  rw [Text.isLower_iff] at hlower
  omega

theorem isRegion_map_toUpper {s : List Char} (h : isRegion s) : isRegion (s.map Char.toUpper) := by
  simp only [isRegion, Bool.or_eq_true, Bool.and_eq_true, beq_iff_eq, List.all_eq_true,
    List.length_map, List.mem_map, forall_exists_index, and_imp, forall_apply_eq_imp_iff₂,
    Char.isAlpha_toUpper_eq_isAlpha] at h ⊢
  refine h.imp id fun hdigits => ⟨hdigits.1, fun c hc => ?_⟩
  rw [toUpper_of_isDigit (hdigits.2 c hc)]
  exact hdigits.2 c hc

/-- What is read is kept in the canonical form. -/
theorem canonical_ofSubtags {language : List Char} {subtags : List (List Char)}
    (hne : language ≠ []) (halpha : ∀ c ∈ language, c.isAlpha)
    (hsubtags : ∀ s ∈ subtags, s ≠ [] ∧ ∀ c ∈ s, c.isAlphanum) :
    (ofSubtags language subtags).Canonical := by
  obtain ⟨hscript, hafterScript, hnoScript⟩ := takeSubtag_spec isScript rfl subtags
  rcases hs : takeSubtag isScript subtags with ⟨script, afterScript⟩
  rw [hs] at hscript hafterScript hnoScript
  obtain ⟨hregion, hafterRegion, hnoRegion⟩ := takeSubtag_spec isRegion rfl afterScript
  rcases hr : takeSubtag isRegion afterScript with ⟨region, afterRegion⟩
  rw [hr] at hregion hafterRegion hnoRegion
  have heq : ofSubtags language subtags =
      { language := String.ofList (language.map Char.toLower)
        script := String.ofList (titlecase script)
        region := String.ofList (region.map Char.toUpper)
        variant := String.ofList (['_'].intercalate afterRegion) } := by
    simp only [ofSubtags, hs, hr]
  have hscriptEmpty : String.ofList (titlecase script) = "" ↔ script = [] := by
    cases script <;> simp [titlecase]
  have hregionEmpty : String.ofList (region.map Char.toUpper) = "" ↔ region = [] := by
    cases region <;> simp
  rw [heq]
  refine ⟨by simpa using hne, ?_, ?_, ?_, afterRegion, ?_, ?_, ?_, ?_⟩
  · intro c hc
    simp only [String.toList_ofList, List.mem_map] at hc
    obtain ⟨d, hd, rfl⟩ := hc
    rw [Char.isLower_toLower_eq_isAlpha]
    exact halpha d hd
  · refine hscript.imp hscriptEmpty.2 fun htest => ?_
    simp only [String.toList_ofList, isScript_titlecase, titlecase_titlecase]
    exact ⟨htest, trivial⟩
  · refine hregion.imp hregionEmpty.2 fun htest => ⟨?_, ?_⟩
    · simpa using isRegion_map_toUpper htest
    · simp
  · simp
  · exact fun s hs => hsubtags s (hafterScript s (hafterRegion s hs))
  · intro hempty s hhead
    obtain ⟨hsame, hnot⟩ := hnoRegion (hregionEmpty.1 hempty)
    exact hnot s (hsame ▸ hhead)
  · intro hempty hempty' s hhead
    obtain ⟨hsame, hnot⟩ := hnoScript (hscriptEmpty.1 hempty)
    obtain ⟨hsame', -⟩ := hnoRegion (hregionEmpty.1 hempty')
    exact hnot s (hsame ▸ hsame' ▸ hhead)

theorem parse_eq_ok_iff {text : String} {t : Locale} :
    parse text = .ok t ↔ read (Text.trim text.toList) = .ok t := by
  rw [parse]
  cases read (Text.trim text.toList) <;> simp [Except.mapError]

/-- Text is read as root if it names root, and else if it is made of the characters of tags and
starts with a language. -/
theorem read_eq_ok_iff {text : List Char} {t : Locale} :
    read text = .ok t ↔
      isRootName text ∧ t = root ∨
      isRootName text = false ∧ (∀ c ∈ text, isTagChar c) ∧ ∃ language segments,
        text.splitOnP isSeparator = language :: segments ∧ language ≠ [] ∧
        (∀ c ∈ language, c.isAlpha) ∧ t = ofSubtags language (segments.filter (!·.isEmpty)) := by
  rw [read]
  cases hroot : isRootName text with
  | true => simpa using eq_comm
  | false =>
    cases hfind : text.find? fun c => !isTagChar c with
    | some c =>
      have hbad := List.find?_some hfind
      have hmem := List.mem_of_find?_eq_some hfind
      have hnot : ¬∀ c ∈ text, isTagChar c := fun hall => by simp [hall c hmem] at hbad
      simp [hnot]
    | none =>
      have htag : ∀ c ∈ text, isTagChar c := by simpa using List.find?_eq_none.1 hfind
      cases hsplit : text.splitOnP isSeparator with
      | nil => exact absurd hsplit (List.splitOnP_ne_nil _ _)
      | cons language segments =>
        by_cases hempty : language = []
        · simp [hempty]
        · by_cases halpha : ∀ c ∈ language, c.isAlpha
          · have hall : language.all Char.isAlpha := List.all_eq_true.2 halpha
            simp only [hempty, hall, List.isEmpty_iff, Bool.not_true, Bool.false_eq_true, if_false,
              Except.ok.injEq, false_and, false_or, List.cons.injEq, true_and]
            constructor
            · exact fun h => ⟨htag, language, segments, ⟨rfl, rfl⟩, hempty, halpha, h.symm⟩
            · rintro ⟨-, _, _, ⟨rfl, rfl⟩, -, -, rfl⟩
              rfl
          · have hall : language.all Char.isAlpha = false := by simpa using halpha
            simp [hempty, hall, halpha]

theorem canonical_of_parse {text : String} {t : Locale} (h : parse text = .ok t) :
    t = root ∨ t.Canonical := by
  rcases read_eq_ok_iff.1 (parse_eq_ok_iff.1 h) with
    ⟨-, rfl⟩ | ⟨-, htag, language, segments, hsplit, hne, halpha, rfl⟩
  · exact .inl rfl
  · refine .inr (canonical_ofSubtags hne halpha fun s hs => ?_)
    rw [List.mem_filter] at hs
    refine ⟨by simpa using hs.2, fun c hc => ?_⟩
    have hmem : s ∈ (Text.trim text.toList).splitOnP isSeparator :=
      hsplit ▸ List.mem_cons_of_mem _ hs.1
    obtain ⟨hchar, hnot⟩ := mem_of_mem_splitOnP hmem hc
    simpa [isTagChar, hnot] using htag c hchar

theorem variantSegments_nil {t : Locale} (h : t.variant = "") : t.VariantSegments [] where
  variant := by simp [h]
  alphanum := by simp
  not_region := by simp
  not_script := by simp

theorem Canonical.of_parent? {t p : Locale} (h : t.Canonical) (hparent : t.parent? = some p) :
    p = root ∨ p.Canonical := by
  unfold parent? at hparent
  split at hparent
  · cases hparent
    exact .inr { h with variant := ⟨[], variantSegments_nil rfl⟩ }
  · have hvariant : t.variant = "" := by simp_all
    split at hparent
    · cases hparent
      exact .inr { h with region := .inl rfl, variant := ⟨[], variantSegments_nil hvariant⟩ }
    · split at hparent
      · cases hparent
        exact .inr { h with script := .inl rfl, variant := ⟨[], variantSegments_nil hvariant⟩ }
      · split at hparent
        · cases hparent
          obtain ⟨language, script, region, variant⟩ := t
          exact .inl (by simp_all [root])
        · cases hparent

theorem canonical_of_mem_chain {t u : Locale} (h : t = root ∨ t.Canonical) (hmem : u ∈ t.chain) :
    u = root ∨ u.Canonical := by
  induction t using induction_on_parent with
  | root =>
    rw [chain_of_no_parent rfl, List.mem_singleton] at hmem
    exact .inl hmem
  | step t p hparent ih =>
    rw [chain_of_parent? hparent, List.mem_cons] at hmem
    rcases hmem with rfl | hmem
    · exact h
    · rcases h with rfl | h
      · cases hparent
      · exact ih (h.of_parent? hparent) hmem

/-- The segments of a subtag that may be absent. -/
def segment (subtag : String) : List (List Char) :=
  if subtag = "" then [] else [subtag.toList]

theorem takeSubtag_segment {test : List Char → Bool} {subtag : String} {rest : List (List Char)}
    (htest : subtag = "" ∨ test subtag.toList)
    (hrest : subtag = "" → ∀ s, rest.head? = some s → test s = false) :
    takeSubtag test (segment subtag ++ rest) = (subtag.toList, rest) := by
  by_cases hempty : subtag = ""
  · subst hempty
    cases rest with
    | nil => rfl
    | cons s rest => simp [segment, takeSubtag, hrest rfl s rfl]
  · simp [segment, takeSubtag, hempty, htest.resolve_left hempty]

/-- The segments of a tag, those of the variant apart. -/
def leadingSegments (t : Locale) : List (List Char) :=
  t.language.toList :: (segment t.script ++ segment t.region)

variable {t u : Locale} {segments : List (List Char)}

theorem VariantSegments.toList_name (h : t.VariantSegments segments) (hlanguage : t.language ≠ "") :
    t.name.toList = ['_'].intercalate (t.leadingSegments ++ segments) := by
  have hpresent : t.presentSubtags.map String.toList = t.leadingSegments ++ segment t.variant := by
    simp only [presentSubtags, subtags, leadingSegments, segment]
    grind
  rw [name, isRoot_eq_false hlanguage, if_neg Bool.false_ne_true, String.toList_intercalate,
    hpresent]
  show ['_'].intercalate _ = _
  by_cases hsegments : segments = []
  · have hvariant : t.variant = "" := by simpa [hsegments] using h.variant
    simp [segment, hvariant, hsegments]
  · have hvariant : t.variant ≠ "" := by
      intro hempty
      have hintercalate := h.variant
      obtain ⟨s, rest, rfl⟩ := List.exists_cons_of_ne_nil hsegments
      have hs := (h.alphanum s List.mem_cons_self).1
      cases rest <;> simp_all [List.intercalate_cons_cons]
    rw [segment, if_neg hvariant, h.variant, intercalate_append_singleton _ _ hsegments]

theorem not_isScript_of_isRegion {s : List Char} (h : isRegion s) : isScript s = false := by
  have hlength : s.length ≠ 4 := by
    intro hlength
    simp [isRegion, hlength] at h
  simp [isScript, hlength]

/-- A canonical tag is read back from its segments. -/
theorem Canonical.ofSubtags_eq (h : t.Canonical) (hsegments : t.VariantSegments segments) :
    ofSubtags t.language.toList (segment t.script ++ (segment t.region ++ segments)) = t := by
  have hscript : takeSubtag isScript (segment t.script ++ (segment t.region ++ segments)) =
      (t.script.toList, segment t.region ++ segments) := by
    refine takeSubtag_segment (h.script.imp_right And.left) fun hempty s hhead => ?_
    by_cases hregion : t.region = ""
    · rw [segment, if_pos hregion] at hhead
      exact hsegments.not_script hempty hregion s hhead
    · rw [segment, if_neg hregion] at hhead
      cases hhead
      exact not_isScript_of_isRegion (h.region.resolve_left hregion).1
  have hregion : takeSubtag isRegion (segment t.region ++ segments) =
      (t.region.toList, segments) :=
    takeSubtag_segment (h.region.imp_right And.left) hsegments.not_region
  have hlanguage : t.language.toList.map Char.toLower = t.language.toList :=
    (List.map_congr_left fun c hc => Char.toLower_eq_of_not_isUpper
      (Char.not_isUpper_of_isLower (h.language c hc))).trans (List.map_id _)
  have htitle : titlecase t.script.toList = t.script.toList := by
    rcases h.script with hempty | ⟨-, htitle⟩
    · rw [hempty]
      rfl
    · exact htitle
  have hupper : t.region.toList.map Char.toUpper = t.region.toList := by
    rcases h.region with hempty | ⟨-, hupper⟩
    · rw [hempty]
      rfl
    · exact (List.map_congr_left fun c hc => Char.toUpper_eq_of_not_isLower
        (by simp [hupper c hc])).trans (List.map_id _)
  simp only [ofSubtags, hscript, hregion, hlanguage, htitle, hupper, ← hsegments.variant,
    String.ofList_toList]

theorem not_isSeparator_of_isAlphanum {c : Char} (h : c.isAlphanum) : isSeparator c = false := by
  have hlow := Text.ne_of_isAlphanum h (d := '_') (by decide)
  have hdash := Text.ne_of_isAlphanum h (d := '-') (by decide)
  simp [isSeparator, hlow, hdash]

theorem Canonical.isAlphanum_of_mem_leadingSegments (h : t.Canonical) {s : List Char}
    (hs : s ∈ t.leadingSegments) {c : Char} (hc : c ∈ s) : c.isAlphanum := by
  simp only [leadingSegments, segment, List.mem_cons, List.mem_append] at hs
  rcases hs with rfl | hs | hs
  · simp [Char.isAlphanum, Char.isAlpha, h.language c hc]
  · split at hs
    · cases hs
    · have hscript := (h.script.resolve_left ‹_›).1
      rw [List.mem_singleton.1 hs] at hc
      simp only [isScript, Bool.and_eq_true, List.all_eq_true] at hscript
      simp [Char.isAlphanum, hscript.2 c hc]
  · split at hs
    · cases hs
    · have hregion := (h.region.resolve_left ‹_›).1
      rw [List.mem_singleton.1 hs] at hc
      simp only [isRegion, Bool.or_eq_true, Bool.and_eq_true, List.all_eq_true] at hregion
      rcases hregion with hletters | hdigits
      · simp [Char.isAlphanum, hletters.2 c hc]
      · simp [Char.isAlphanum, hdigits.2 c hc]

theorem Canonical.splitOnP_name (h : t.Canonical) (hsegments : t.VariantSegments segments) :
    t.name.toList.splitOnP isSeparator =
      t.language.toList :: (segment t.script ++ (segment t.region ++ segments)) := by
  have hfree : ∀ s ∈ t.leadingSegments ++ segments, ∀ c ∈ s, isSeparator c = false := by
    intro s hs c hc
    rcases List.mem_append.1 hs with hs | hs
    · exact not_isSeparator_of_isAlphanum (h.isAlphanum_of_mem_leadingSegments hs hc)
    · exact not_isSeparator_of_isAlphanum ((hsegments.alphanum s hs).2 c hc)
  have hne : t.leadingSegments ++ segments ≠ [] := by simp [leadingSegments]
  rw [hsegments.toList_name h.language_ne_empty, splitOnP_intercalate rfl hne hfree,
    leadingSegments, List.cons_append, List.append_assoc]

/-- The written form tells canonical tags apart. -/
theorem Canonical.eq_of_name_eq (h : t.Canonical) (hu : u.Canonical) (hname : t.name = u.name) :
    t = u := by
  obtain ⟨segments, hsegments⟩ := h.variant
  obtain ⟨segments', hsegments'⟩ := hu.variant
  have hsplit := h.splitOnP_name hsegments
  rw [hname, hu.splitOnP_name hsegments', List.cons_eq_cons] at hsplit
  rw [← h.ofSubtags_eq hsegments, ← hu.ofSubtags_eq hsegments', hsplit.1, hsplit.2]

end Locale

end Localization
