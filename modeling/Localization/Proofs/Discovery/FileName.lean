import Localization.Generation.Job
import Localization.Proofs.Locale.Grammar

namespace Localization

namespace Text

/-- What follows the last mark has no mark. -/
theorem not_mem_afterLast (mark : Char) (s : List Char) : mark ∉ afterLast [mark] s := by
  have hgo : ∀ after, (afterLast.go [mark] s).getD s = after → mark ∉ after := by
    induction s with
    | nil => simp [afterLast.go]
    | cons c rest ih =>
      intro after hafter
      cases hrest : afterLast.go [mark] rest with
      | some found =>
        have hfound : found = after := by simpa [afterLast.go, hrest] using hafter
        exact ih after (by simpa [hrest] using hfound)
      | none =>
        have hnot : mark ∉ rest := ih rest (by simp [hrest])
        by_cases hc : mark = c
        · have hopening : [mark].isPrefixOf? (c :: rest) = some rest := by
            rw [List.isPrefixOf?_eq_some_iff_append_eq, hc, List.singleton_append]
          obtain rfl : rest = after := by
            simpa [afterLast.go, hrest, hopening] using hafter
          exact hnot
        · have hopening : [mark].isPrefixOf? (c :: rest) = none := by
            simp [List.isPrefixOf?, hc]
          obtain rfl : c :: rest = after := by
            simpa [afterLast.go, hrest, hopening] using hafter
          simp [hc, hnot]
  exact hgo _ rfl

end Text

namespace Interface

variable {i : Interface} {fileName : String} {t : Locale}

theorem dot_not_mem_simpleName (i : Interface) : '.' ∉ i.simpleName.toList := by
  rw [simpleName, String.toList_ofList]
  exact Text.not_mem_afterLast '.' _

/-! The part of a file name that tells the locale -/

/-- Whether a character ends the name of a folder in a path. -/
def IsFolderEnd (c : Char) : Prop :=
  c = '/' ∨ c = '\\'

/-- The folders in front of a file name do not count. -/
theorem stemOf_append_folder (folder : List Char) {c : Char} (hc : IsFolderEnd c)
    (name : List Char) : stemOf (folder ++ c :: name) = stemOf name := by
  have hstop : (c != '/' && c != '\\') = false := by
    rcases hc with rfl | rfl <;> rfl
  have hreverse : (folder ++ c :: name).reverse = name.reverse ++ c :: folder.reverse := by simp
  simp only [stemOf, hreverse, List.takeWhile_append, List.takeWhile_cons, hstop]
  split <;> rename_i hlength
  · have hall : name.reverse.takeWhile (fun c => c != '/' && c != '\\') = name.reverse :=
      (List.takeWhile_prefix _).eq_of_length hlength
    simp [hall]
  · rfl

theorem stemOf_of_no_folder {name : List Char} (h : ∀ c ∈ name, ¬IsFolderEnd c) :
    stemOf name = name.takeWhile (· != '.') := by
  have hall : name.reverse.takeWhile (fun c => c != '/' && c != '\\') = name.reverse := by
    rw [List.takeWhile_eq_self_iff]
    intro c hc
    simpa [IsFolderEnd] using h c (List.mem_reverse.1 hc)
  simp only [stemOf, hall, List.reverse_reverse]

/-- The part is cut off at folders and at the first dot. -/
theorem not_mem_stemOf {name : List Char} {c : Char} (hc : c ∈ stemOf name) :
    c ≠ '.' ∧ ¬IsFolderEnd c := by
  have hdot := List.mem_takeWhile_imp hc
  have hbase := (List.takeWhile_prefix _).subset hc
  have hfolder := List.mem_takeWhile_imp (List.mem_reverse.1 hbase)
  simp only [bne_iff_ne, ne_eq, Bool.and_eq_true] at hdot hfolder
  exact ⟨hdot, by simpa [IsFolderEnd] using hfolder⟩

/-- All of a name before its extension is read just if no folder and no dot is in it. -/
theorem stemOf_append_extension_iff {whole extension : List Char}
    (hextension : ∀ c ∈ extension, ¬IsFolderEnd c) :
    stemOf (whole ++ '.' :: extension) = whole ↔ ∀ c ∈ whole, c ≠ '.' ∧ ¬IsFolderEnd c := by
  constructor
  · intro h c hc
    exact not_mem_stemOf (h ▸ hc)
  · intro h
    have hfolder : ∀ c ∈ whole ++ '.' :: extension, ¬IsFolderEnd c := by
      intro c hc
      rcases List.mem_append.1 hc with hc | hc
      · exact (h c hc).2
      · rcases List.mem_cons.1 hc with rfl | hc
        · simp [IsFolderEnd]
        · exact hextension c hc
    rw [stemOf_of_no_folder hfolder, List.takeWhile_append_of_pos]
    · simp
    · intro c hc
      simpa using (h c hc).1

/-! The locale of a file name -/

/-- What is behind the simple name in a file name spells a locale: nothing spells root, and a tag
behind an underscore spells what it is read as. -/
inductive Spells : List Char → Locale → Prop where
  | root : Spells [] .root
  | tag {text : String} {t : Locale} (hne : text ≠ "") (hparse : Locale.parse text = .ok t) :
      Spells ('_' :: text.toList) t

theorem spells_nil_iff : Spells [] t ↔ t = .root := by
  constructor
  · rintro ⟨⟩
    rfl
  · rintro rfl
    exact .root

theorem spells_cons_iff {c : Char} {tag : List Char} :
    Spells (c :: tag) t ↔ c = '_' ∧ tag ≠ [] ∧ Locale.parse (String.ofList tag) = .ok t := by
  constructor
  · intro h
    generalize hrest : c :: tag = rest at h
    cases h with
    | root => cases hrest
    | @tag text _ hne hparse =>
      obtain ⟨rfl, rfl⟩ := List.cons_eq_cons.1 hrest
      exact ⟨rfl, by simpa using hne, by simpa using hparse⟩
  · rintro ⟨rfl, hne, hparse⟩
    have htag := Spells.tag (by simpa using hne) hparse
    rwa [String.toList_ofList] at htag

/-- A file is for the locale that the part of its name without folders and up to the first dot
spells behind the simple name. -/
theorem localeOfName_eq_ok_iff : i.localeOfName fileName = .ok t ↔
    ∃ rest, stemOf fileName.toList = i.simpleName.toList ++ rest ∧ Spells rest t := by
  rw [localeOfName]
  cases hopening : i.simpleName.toList.isPrefixOf? (stemOf fileName.toList) with
  | none =>
    refine iff_of_false (by simp) ?_
    rintro ⟨rest, hstem, -⟩
    rw [List.isPrefixOf?_eq_some_iff_append_eq.2 hstem.symm] at hopening
    cases hopening
  | some rest =>
    have hstem := List.isPrefixOf?_eq_some_iff_append_eq.1 hopening
    have hunique : (∃ rest, stemOf fileName.toList = i.simpleName.toList ++ rest ∧ Spells rest t) ↔
        Spells rest t := by
      simp [← hstem, List.append_cancel_left_eq]
    rw [hunique]
    clear hunique hstem hopening
    match rest with
    | [] => simpa [spells_nil_iff] using eq_comm
    | [c] =>
      by_cases hc : c = '_'
      · simp [spells_cons_iff, hc]
      · simp [spells_cons_iff, hc]
    | c :: d :: tag =>
      by_cases hc : c = '_'
      · simp [spells_cons_iff, hc]
      · simp [spells_cons_iff, hc]

/-! The name of a resource -/

/-- What the name of a locale's resource has behind the simple name. -/
def suffixOf (t : Locale) : String :=
  if t.isRoot then "" else "_" ++ t.name

theorem resourceName_eq (i : Interface) (t : Locale) :
    i.resourceName t propertiesExtension = i.simpleName ++ suffixOf t ++ ".properties" := by
  rw [resourceName, suffixOf]
  split <;> simp [← String.toList_inj, propertiesExtension, toString]

theorem plain_of_isTagChar {c : Char} (h : Locale.isTagChar c) : c ≠ '.' ∧ ¬IsFolderEnd c := by
  constructor
  · rintro rfl
    cases h
  · rintro (rfl | rfl) <;> cases h

/-- The suffix of a locale that is read back from its written form spells it, and is not cut off
anywhere. -/
theorem spells_suffixOf (h : Locale.parse t.name = .ok t) :
    Spells (suffixOf t).toList t ∧ ∀ c ∈ (suffixOf t).toList, c ≠ '.' ∧ ¬IsFolderEnd c := by
  rcases Locale.canonical_of_parse h with rfl | hcanonical
  · exact ⟨.root, by simp [suffixOf, Locale.isRoot, Locale.specificity, Locale.presentSubtags,
      Locale.subtags, Locale.root]⟩
  · have hne : t.name ≠ "" := by
      intro hempty
      rw [hempty] at h
      cases h
      exact hcanonical.language_ne_empty rfl
    have hsuffix : (suffixOf t).toList = '_' :: t.name.toList := by
      simp [suffixOf, Locale.isRoot_eq_false hcanonical.language_ne_empty]
    rw [hsuffix]
    refine ⟨.tag hne h, fun c hc => ?_⟩
    rcases List.mem_cons.1 hc with rfl | hc
    · exact plain_of_isTagChar rfl
    · exact plain_of_isTagChar (hcanonical.isTagChar_of_mem_name hc)

/-- The locale of a resource is found in its name, whatever folders come in front. -/
theorem localeOfName_resourceName (hsimple : ∀ c ∈ i.simpleName.toList, ¬IsFolderEnd c)
    (h : Locale.parse t.name = .ok t) (folder : String) (hfolder : folder = "" ∨
      ∃ path c, folder = path ++ String.singleton c ∧ IsFolderEnd c) :
    i.localeOfName (folder ++ i.resourceName t propertiesExtension) = .ok t := by
  obtain ⟨hspells, hsuffix⟩ := spells_suffixOf h
  have hwhole : ∀ c ∈ (i.simpleName ++ suffixOf t).toList, c ≠ '.' ∧ ¬IsFolderEnd c := by
    intro c hc
    rcases List.mem_append.1 (String.toList_append ▸ hc) with hc | hc
    · exact ⟨fun hdot => i.dot_not_mem_simpleName (hdot ▸ hc), hsimple c hc⟩
    · exact hsuffix c hc
  have hextension : ∀ c ∈ propertiesExtension.toList, ¬IsFolderEnd c := by
    simp [propertiesExtension, IsFolderEnd]
  have hname : (i.resourceName t propertiesExtension).toList =
      (i.simpleName ++ suffixOf t).toList ++ '.' :: propertiesExtension.toList := by
    rw [resourceName_eq]
    simp [propertiesExtension]
  have hstem : stemOf (folder ++ i.resourceName t propertiesExtension).toList =
      (i.simpleName ++ suffixOf t).toList := by
    rw [String.toList_append, hname]
    have hstem := (stemOf_append_extension_iff hextension).2 hwhole
    rcases hfolder with rfl | ⟨path, c, rfl, hc⟩
    · rw [String.toList_empty, List.nil_append, hstem]
    · rw [String.toList_append, String.toList_singleton, List.append_assoc, List.singleton_append,
        stemOf_append_folder _ hc, hstem]
  exact localeOfName_eq_ok_iff.2 ⟨_, hstem.trans String.toList_append, hspells⟩

end Interface

namespace Generation

theorem splitExtension_eq_iff {fileName stem extension : String} (hstem : stem ≠ "") :
    splitExtension fileName = (stem, some extension) ↔
      fileName = stem ++ "." ++ extension ∧ '.' ∉ extension.toList := by
  have hlists : fileName = stem ++ "." ++ extension ↔
      fileName.toList = stem.toList ++ '.' :: extension.toList := by
    rw [← String.toList_inj]
    simp
  have hne : stem.toList ≠ [] := by simpa using hstem
  rw [hlists, ← Text.splitLast?_eq_some_iff, splitExtension]
  split
  · rename_i c before after hsplit
    rw [hsplit, Prod.mk.injEq, Option.some.injEq, Option.some.injEq, Prod.mk.injEq,
      ← String.toList_inj, ← String.toList_inj, String.toList_ofList, String.toList_ofList]
  · rename_i hnone
    obtain ⟨c, before, hcons⟩ := List.exists_cons_of_ne_nil hne
    refine iff_of_false (by simp) fun hsplit => hnone c before extension.toList ?_
    rw [hsplit, hcons]

/-- A file is the interface's if its name is the simple name and the extension with nothing between
them, or an underscore and more. -/
theorem isResourceOf_iff {i : Interface} (hname : i.simpleName ≠ "") (fileName : String) :
    isResourceOf i fileName ↔ ∃ rest, fileName = i.simpleName ++ rest ++ ".properties" ∧
      (rest = "" ∨ ∃ tag, rest = "_" ++ tag) := by
  constructor
  · intro h
    unfold isResourceOf at h
    split at h
    · rename_i stem extension hsplit
      rw [Bool.and_eq_true, beq_iff_eq] at h
      obtain ⟨rfl, hrest⟩ := h
      obtain ⟨rest, hopening, hsuffix⟩ : ∃ rest : List Char,
          i.simpleName.toList ++ rest = stem.toList ∧ (rest = [] ∨ ∃ tag, rest = '_' :: tag) := by
        split at hrest
        · rename_i hopening
          exact ⟨[], List.isPrefixOf?_eq_some_iff_append_eq.1 hopening, .inl rfl⟩
        · rename_i tag hopening
          exact ⟨'_' :: tag, List.isPrefixOf?_eq_some_iff_append_eq.1 hopening, .inr ⟨tag, rfl⟩⟩
        · cases hrest
      have hstem : stem = i.simpleName ++ String.ofList rest := by
        rw [← String.toList_inj, ← hopening]
        simp
      have hne : stem ≠ "" := by simp [hstem, hname]
      refine ⟨String.ofList rest, ?_, ?_⟩
      · rw [((splitExtension_eq_iff hne).1 hsplit).1, hstem, String.append_assoc]
        rfl
      · refine hsuffix.imp (fun h => by simp [h]) ?_
        rintro ⟨tag, rfl⟩
        exact ⟨String.ofList tag, by simp⟩
    · cases h
  · rintro ⟨rest, rfl, hrest⟩
    have hsplit : splitExtension (i.simpleName ++ rest ++ ".properties") =
        (i.simpleName ++ rest, some Interface.propertiesExtension) := by
      refine (splitExtension_eq_iff ?_).2 ⟨?_, ?_⟩
      · simp [hname]
      · simp [← String.toList_inj, Interface.propertiesExtension]
      · simp [Interface.propertiesExtension]
    have hopening : i.simpleName.toList.isPrefixOf? (i.simpleName ++ rest).toList =
        some rest.toList := by
      rw [List.isPrefixOf?_eq_some_iff_append_eq, String.toList_append]
    rw [isResourceOf, hsplit]
    simp only [hopening, beq_self_eq_true, Bool.true_and]
    rcases hrest with rfl | ⟨tag, rfl⟩
    · rfl
    · simp

theorem isResourceOf_resourceName {i : Interface} (hname : i.simpleName ≠ "") (t : Locale) :
    isResourceOf i (i.resourceName t Interface.propertiesExtension) := by
  refine (isResourceOf_iff hname _).2 ⟨_, i.resourceName_eq t, ?_⟩
  rw [Interface.suffixOf]
  split
  · exact .inl rfl
  · exact .inr ⟨t.name, rfl⟩

end Generation

end Localization
