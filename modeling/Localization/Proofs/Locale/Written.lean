import Localization.Json.Encoding
import Localization.Proofs.Locale.Grammar

namespace Localization.Locale

/-- Whether a locale is one of the two languages that are written as root can be written. -/
def Misread (t : Locale) : Prop :=
  t = { language := "root" } ∨ t = { language := "default" }

instance : DecidablePred Misread := fun t =>
  inferInstanceAs (Decidable (t = _ ∨ t = _))

variable {t u : Locale}

/-- Only a language alone is written as a word without separators. -/
theorem Canonical.eq_of_map_toLower_name (h : t.Canonical) {word : String}
    (hword : word.toList.all (!isSeparator ·))
    (hname : t.name.toList.map Char.toLower = word.toList) : t = { language := word } := by
  obtain ⟨segments, hsegments⟩ := h.variant
  have hfree := not_isSeparator_of_map_toLower hword hname
  -- The text is one segment, so that there is nothing but the language.
  have hsplit := h.splitOnP_name hsegments
  rw [List.splitOnP_eq_singleton hfree] at hsplit
  obtain ⟨hlanguage, hrest⟩ := List.cons_eq_cons.1 hsplit
  obtain ⟨hscript, hrest⟩ := List.append_eq_nil_iff.1 hrest.symm
  obtain ⟨hregion, hvariant⟩ := List.append_eq_nil_iff.1 hrest
  have hempty {subtag : String} (hsegment : segment subtag = []) : subtag = "" := by
    by_contra hne
    rw [segment, if_neg hne] at hsegment
    cases hsegment
  have hlower : t.language.toList.map Char.toLower = t.language.toList :=
    (List.map_congr_left fun c hc => (isLower_iff_toLower.1 (h.language c hc)).2).trans
      (List.map_id _)
  have hvariantEmpty : t.variant = "" := by simpa [hvariant] using hsegments.variant
  have hlanguageEq : t.language = word := by
    rw [hlanguage, hlower] at hname
    exact String.toList_injective hname
  calc
    t = ⟨t.language, t.script, t.region, t.variant⟩ := rfl
    _ = { language := word } := by
      rw [hlanguageEq, hempty hscript, hempty hregion, hvariantEmpty]

/-- The written form of a tag other than root names root for those two languages alone. -/
theorem Canonical.isRootName_name_iff (h : t.Canonical) : isRootName t.name.toList ↔ t.Misread := by
  rw [isRootName_iff]
  constructor
  · rintro (hempty | hroot | hdefault)
    · have hword : t.name.toList.map Char.toLower = "".toList := by simp [hempty]
      exact absurd (h.eq_of_map_toLower_name rfl hword) h.ne_root
    · exact .inl (h.eq_of_map_toLower_name rfl hroot)
    · exact .inr (h.eq_of_map_toLower_name rfl hdefault)
  · rintro (rfl | rfl)
    · exact .inr (.inl rfl)
    · exact .inr (.inr rfl)

/-- What is read from the written form of a tag other than root. -/
theorem Canonical.parse_name (h : t.Canonical) (hread : ¬t.Misread) : parse t.name = .ok t := by
  have htrail : ∀ c ∈ "".toList, isSeparator c := by simp
  have hroot : isRootName (t.name ++ "").toList = false := by
    rw [String.append_empty, Bool.eq_false_iff, ne_eq, h.isRootName_name_iff]
    exact hread
  simpa using h.parse_name_append htrail hroot

theorem Misread.parse_name (h : t.Misread) : parse t.name = .ok root := by
  rcases h with rfl | rfl <;> rfl

theorem Misread.ne_root (h : t.Misread) : t ≠ root := by
  rcases h with rfl | rfl <;> decide

theorem parse_name_eq_ok_iff (h : t = root ∨ t.Canonical) : parse t.name = .ok t ↔ ¬t.Misread := by
  constructor
  · intro hparse hmisread
    rw [hmisread.parse_name] at hparse
    exact hmisread.ne_root (Except.ok.inj hparse).symm
  · intro hread
    rcases h with rfl | h
    · rfl
    · exact h.parse_name hread

theorem ofJson?_toJson_eq_some_iff (v : Locale) :
    ofJson? t.toJson = some v ↔ parse t.name = .ok v := by
  have hread : ofJson? t.toJson = (parse t.name).toOption := rfl
  rw [hread]
  cases parse t.name <;> simp [Except.toOption]

/-- The language that is written as root is. -/
theorem Canonical.name_eq_root_iff (h : t.Canonical) :
    t.name = root.name ↔ t = { language := "root" } := by
  constructor
  · intro hname
    have hlower : root.name.toList.map Char.toLower = "root".toList := rfl
    exact h.eq_of_map_toLower_name rfl (hname ▸ hlower)
  · rintro rfl
    rfl

theorem name_eq_iff (ht : t = root ∨ t.Canonical) (hu : u = root ∨ u.Canonical) :
    t.name = u.name ↔ t = u ∨ t = root ∧ u = { language := "root" } ∨
      t = { language := "root" } ∧ u = root := by
  constructor
  · intro hname
    rcases ht with rfl | ht <;> rcases hu with rfl | hu
    · exact .inl rfl
    · exact .inr (.inl ⟨rfl, hu.name_eq_root_iff.1 hname.symm⟩)
    · exact .inr (.inr ⟨ht.name_eq_root_iff.1 hname, rfl⟩)
    · exact .inl (ht.eq_of_name_eq hu hname)
  · rintro (rfl | ⟨rfl, rfl⟩ | ⟨rfl, rfl⟩) <;> rfl

/-- A locale that is read, or falls back from one, is read back from its written form, and in JSON,
unless it is the language `root` or the language `default`; these are read back as root. Of such
locales only root and the language `root` are written alike. -/
theorem parse_name_of_mem_chain {text : String} (h : parse text = .ok t) (hu : u ∈ t.chain) :
    (parse u.name = .ok u ↔ ¬u.Misread) ∧ (ofJson? u.toJson = some u ↔ ¬u.Misread) ∧
      (u.Misread → parse u.name = .ok root) ∧
      ∀ text' t' v, parse text' = .ok t' → v ∈ t'.chain →
        (u.name = v.name ↔ u = v ∨ u = root ∧ v = { language := "root" } ∨
          u = { language := "root" } ∧ v = root) := by
  have hcanonical := canonical_of_mem_chain (canonical_of_parse h) hu
  refine ⟨parse_name_eq_ok_iff hcanonical, ?_, Misread.parse_name, fun text' t' v h' hv => ?_⟩
  · rw [ofJson?_toJson_eq_some_iff, parse_name_eq_ok_iff hcanonical]
  · exact name_eq_iff hcanonical (canonical_of_mem_chain (canonical_of_parse h') hv)

/-- The script of the language `default` is enough to tell it from root. -/
theorem parse_name_default_Latn :
    parse "default-latn_x" = .ok ⟨"default", "Latn", "", "x"⟩ ∧
    ⟨"default", "Latn", "", ""⟩ ∈ (⟨"default", "Latn", "", "x"⟩ : Locale).chain ∧
    parse "default_Latn" = .ok ⟨"default", "Latn", "", ""⟩ := by
  have hread : parse "default-latn_x" = .ok ⟨"default", "Latn", "", "x"⟩ := rfl
  have hmem : ⟨"default", "Latn", "", ""⟩ ∈ (⟨"default", "Latn", "", "x"⟩ : Locale).chain := by
    decide
  exact ⟨hread, hmem, (parse_name_of_mem_chain hread hmem).1.2 (by decide)⟩

/-- The language `root`, which is read from `root_` and which `root_AZ` falls back to, is written as
root is, so that root is read back. -/
theorem parse_name_language_root :
    parse "root_" = .ok { language := "root" } ∧
    parse "root_AZ" = .ok { language := "root", region := "AZ" } ∧
    { language := "root" } ∈ ({ language := "root", region := "AZ" } : Locale).chain ∧
    parse ({ language := "root" } : Locale).name = .ok root ∧
    ofJson? ({ language := "root" } : Locale).toJson = some root ∧
    ({ language := "root" } : Locale).name = root.name ∧ ({ language := "root" } : Locale) ≠ root :=
  ⟨rfl, rfl, by decide, rfl, rfl, rfl, by decide⟩

end Localization.Locale
