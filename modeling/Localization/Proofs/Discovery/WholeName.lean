import Localization.Proofs.Discovery.Folder

namespace Localization

theorem Text.mem_trim_or_isBlank {s : List Char} {c : Char} (hc : c ∈ s) :
    c ∈ trim s ∨ isBlank c = true := by
  have hdrop {s : List Char} (hc : c ∈ s) : c ∈ s.dropWhile isBlank ∨ isBlank c = true := by
    rw [← List.takeWhile_append_dropWhile (p := isBlank) (l := s), List.mem_append] at hc
    exact hc.symm.imp_right List.mem_takeWhile_imp
  rcases hdrop hc with hleft | hblank
  · rcases hdrop (List.mem_reverse.2 hleft) with hright | hblank
    · exact .inl (List.mem_reverse.2 hright)
    · exact .inr hblank
  · exact .inr hblank

/-- A text that is read is made of the characters of tags, root's names included. -/
theorem Locale.isTagChar_of_read {text : List Char} {t : Locale} (h : read text = .ok t) {c : Char}
    (hc : c ∈ text) : isTagChar c := by
  have hname {word : String} (hword : word.toList.all Char.isAlpha)
      (heq : text.map Char.toLower = word.toList) : isTagChar c := by
    have hlower := List.all_eq_true.1 hword _ (heq ▸ List.mem_map_of_mem hc)
    rw [Char.isAlpha_toLower_eq_isAlpha] at hlower
    simp [isTagChar, Char.isAlphanum, hlower]
  rcases read_eq_ok_iff.1 h with ⟨hroot, -⟩ | ⟨-, htag, -⟩
  · rcases (isRootName_iff text).1 hroot with rfl | hroot | hdefault
    · cases hc
    · exact hname rfl hroot
    · exact hname rfl hdefault
  · exact htag c hc

namespace Interface

variable {i : Interface} {t : Locale}

/-- A text with a dot or with the end of a folder's name in it is no tag. -/
theorem plain_of_parse {text : String} (h : Locale.parse text = .ok t) {c : Char}
    (hc : c ∈ text.toList) : c ≠ '.' ∧ ¬IsFolderEnd c := by
  have hread := Locale.parse_eq_ok_iff.1 h
  rcases Text.mem_trim_or_isBlank hc with hmem | hblank
  · exact plain_of_isTagChar (Locale.isTagChar_of_read hread hmem)
  · constructor
    · rintro rfl
      cases hblank
    · rintro (rfl | rfl) <;> cases hblank

theorem Spells.plain {rest : List Char} (h : Spells rest t) {c : Char} (hc : c ∈ rest) :
    c ≠ '.' ∧ ¬IsFolderEnd c := by
  cases h with
  | root => cases hc
  | tag _ hparse =>
    rcases List.mem_cons.1 hc with rfl | hc
    · simp [IsFolderEnd]
    · exact plain_of_parse hparse hc

end Interface

namespace Generation

variable {i : Interface} {fileName : String} {t : Locale}

/-- Whether a file is loaded with a bundle for the locale: the folder that holds nothing else is
loaded if the text is well-formed, and a folder that is loaded has the file's bundle there. -/
def LoadedUnder (i : Interface) (fileName : String) (t : Locale) : Prop :=
  (∀ location text, (∃ b, Bundle.ofProperties i t none text = .ok b) →
    ∃ c, Directory.catalog ⟨location, [(fileName, .text text)]⟩ i = .ok c) ∧
  ∀ d text c, (fileName, .text text) ∈ d.files → Directory.catalog d i = .ok c →
    ∃ b, c.get? t = some b ∧ b.source? = some fileName

/-- Each bundle of a folder is for the locale in the name of the file that it comes from. -/
theorem localeOfName_of_get? {d : Directory} {c : Catalog} (hc : d.catalog i = .ok c) {b : Bundle}
    (hget : c.get? t = some b) (hsource : b.source? = some fileName) :
    i.localeOfName fileName = .ok t := by
  obtain ⟨bs, hbs, hlist⟩ := Directory.catalog_eq_ok_iff.1 hc
  obtain ⟨hcompatible, rfl⟩ := (Catalog.ofList_eq_ok_iff i bs c).1 hlist
  obtain ⟨hmem, rfl⟩ := (hcompatible.get?_eq_some_iff t b).1 hget
  obtain ⟨⟨name, content⟩, -, hb⟩ := exists_of_mem_mapM (mapM_eq_ok_iff.2 hbs) hmem
  cases content with
  | unreadable => cases hb
  | text text =>
    obtain ⟨u, hlocale, htext⟩ := Directory.bundleOf_text_eq_ok_iff.1 hb
    obtain ⟨-, hlocale', hsource'⟩ := Bundle.belongs_of_ofProperties htext
    rw [hsource', Option.some.injEq] at hsource
    rw [← hsource, hlocale']
    exact hlocale

theorem exists_of_catalog_eq_ok (h : isResourceOf i fileName) {d : Directory} {text : String}
    {c : Catalog} (hfile : (fileName, .text text) ∈ d.files) (hc : d.catalog i = .ok c) :
    ∃ t b, i.localeOfName fileName = .ok t ∧ c.get? t = some b ∧ b.source? = some fileName := by
  obtain ⟨bs, hbs, hlist⟩ := Directory.catalog_eq_ok_iff.1 hc
  obtain ⟨b, hmem, hb⟩ := exists_result_of_mem (mapM_eq_ok_iff.2 hbs)
    (Directory.mem_resourcesOf.2 ⟨hfile, h⟩)
  obtain ⟨t, hlocale, htext⟩ := Directory.bundleOf_text_eq_ok_iff.1 hb
  obtain ⟨-, hb', hsource⟩ := Bundle.belongs_of_ofProperties htext
  obtain ⟨hcompatible, rfl⟩ := (Catalog.ofList_eq_ok_iff i bs c).1 hlist
  exact ⟨t, b, hlocale, (hcompatible.get?_eq_some_iff t b).2 ⟨hmem, hb'⟩, hsource⟩

theorem exists_catalog_singleton (h : isResourceOf i fileName)
    (hlocale : i.localeOfName fileName = .ok t) {text : String} {b : Bundle}
    (hb : Bundle.ofProperties i t none text = .ok b) (location : String) :
    ∃ c, Directory.catalog ⟨location, [(fileName, .text text)]⟩ i = .ok c := by
  let d : Directory := ⟨location, [(fileName, .text text)]⟩
  let loaded : Bundle := { b with source? := some fileName }
  have hresources : d.resourcesOf i = d.files := by
    simp [Directory.resourcesOf, d, h]
  have hbundle : d.bundleOf i (fileName, .text text) = .ok loaded :=
    Directory.bundleOf_text_eq_ok_iff.2 ⟨t, hlocale, Bundle.ofProperties_of_source hb _⟩
  have hcompatible : Catalog.Compatible i [loaded] := by
    refine ⟨fun a ha => ?_, List.nodup_singleton _⟩
    obtain rfl := List.mem_singleton.1 ha
    exact (Bundle.belongs_of_ofProperties (Bundle.ofProperties_of_source hb _)).1
  refine ⟨_, Directory.catalog_eq_ok_iff.2 ⟨[loaded], ?_,
    (Catalog.ofList_eq_ok_iff i _ _).2 ⟨hcompatible, rfl⟩⟩⟩
  rw [hresources]
  exact .cons hbundle .nil

theorem loadedUnder_iff (h : isResourceOf i fileName) :
    LoadedUnder i fileName t ↔ i.localeOfName fileName = .ok t := by
  constructor
  · rintro ⟨halone, hall⟩
    obtain ⟨c, hc⟩ := halone "" "" ⟨_, rfl⟩
    obtain ⟨b, hget, hsource⟩ := hall _ "" c List.mem_cons_self hc
    exact localeOfName_of_get? hc hget hsource
  · intro hlocale
    refine ⟨fun location text ⟨b, hb⟩ => exists_catalog_singleton h hlocale hb location,
      fun d text c hfile hc => ?_⟩
    obtain ⟨u, b, hlocale', hget, hsource⟩ := exists_of_catalog_eq_ok h hfile hc
    rw [hlocale] at hlocale'
    obtain rfl := Except.ok.inj hlocale'
    exact ⟨b, hget, hsource⟩

/-- A file that is for no locale lets every folder fail. -/
theorem exists_error_of_not_loadedUnder (h : isResourceOf i fileName)
    (hnone : ∀ t, ¬LoadedUnder i fileName t) {d : Directory} {text : String}
    (hfile : (fileName, .text text) ∈ d.files) : ∃ error, d.catalog i = .error error := by
  cases hc : d.catalog i with
  | error error => exact ⟨error, rfl⟩
  | ok c =>
    obtain ⟨t, -, hlocale, -⟩ := exists_of_catalog_eq_ok h hfile hc
    exact absurd ((loadedUnder_iff h).2 hlocale) (hnone t)

theorem loadedUnder_iff_spells (h : isResourceOf i fileName) : LoadedUnder i fileName t ↔
    ∃ part, Interface.stemOf fileName.toList = i.simpleName.toList ++ part ∧
      Interface.Spells part t :=
  (loadedUnder_iff h).trans Interface.localeOfName_eq_ok_iff

/-- The part of a resource's name that is read is all of it before the extension unless there is a
backslash in the name or a dot behind the simple name. -/
theorem stemOf_eq_whole_iff {rest : String}
    (hslash : '/' ∉ (i.simpleName ++ rest ++ ".properties").toList) :
    Interface.stemOf (i.simpleName ++ rest ++ ".properties").toList =
        i.simpleName.toList ++ rest.toList ↔
      '\\' ∉ (i.simpleName ++ rest).toList ∧ '.' ∉ rest.toList := by
  have hname : (i.simpleName ++ rest ++ ".properties").toList =
      (i.simpleName ++ rest).toList ++ '.' :: Interface.propertiesExtension.toList := by
    simp [Interface.propertiesExtension]
  have hextension : ∀ c ∈ Interface.propertiesExtension.toList, ¬Interface.IsFolderEnd c := by
    simp [Interface.propertiesExtension, Interface.IsFolderEnd]
  rw [hname] at hslash ⊢
  rw [← String.toList_append, Interface.stemOf_append_extension_iff hextension]
  constructor
  · intro h
    refine ⟨fun hc => (h _ hc).2 (.inr rfl), fun hc => (h '.' ?_).1 rfl⟩
    rw [String.toList_append]
    exact List.mem_append_right _ hc
  · rintro ⟨hbackslash, hdot⟩ c hc
    constructor
    · rintro rfl
      rcases List.mem_append.1 (String.toList_append ▸ hc) with hc | hc
      · exact i.dot_not_mem_simpleName hc
      · exact hdot hc
    · rintro (rfl | rfl)
      · exact hslash (List.mem_append_left _ hc)
      · exact hbackslash hc

/-- A file that counts as the interface's has the simple name, nothing or an underscore and more,
and the extension as its name. It is loaded under the locale that is spelled between the simple name
and the first dot, in what follows the last backslash of the name, and where none is spelled there no
folder with it can be loaded. That is what its whole name spells unless there is a backslash in the
name or a dot behind the simple name; of such a name it is so only if neither spells a locale. -/
theorem loaded_under_whole_name_iff (hname : i.simpleName ≠ "") (hslash : '/' ∉ fileName.toList)
    (h : isResourceOf i fileName) :
    ∃ rest : String, fileName = i.simpleName ++ rest ++ ".properties" ∧
      (rest = "" ∨ ∃ tag, rest = "_" ++ tag) ∧
      (∀ t, LoadedUnder i fileName t ↔
        ∃ part, Interface.stemOf fileName.toList = i.simpleName.toList ++ part ∧
          Interface.Spells part t) ∧
      ((∀ t, ¬LoadedUnder i fileName t) → ∀ (d : Directory) (text : String),
        (fileName, .text text) ∈ d.files → ∃ error, d.catalog i = .error error) ∧
      ((∀ t, LoadedUnder i fileName t ↔ Interface.Spells rest.toList t) ↔
        ('\\' ∉ (i.simpleName ++ rest).toList ∧ '.' ∉ rest.toList) ∨
          (∀ t, ¬LoadedUnder i fileName t) ∧ ∀ t, ¬Interface.Spells rest.toList t) := by
  obtain ⟨rest, rfl, hrest⟩ := (isResourceOf_iff hname fileName).1 h
  refine ⟨rest, rfl, hrest, fun t => loadedUnder_iff_spells h,
    fun hnone d text hfile => exists_error_of_not_loadedUnder h hnone hfile, ?_⟩
  constructor
  · intro hspelled
    by_cases hspells : ∃ t, Interface.Spells rest.toList t
    · -- The file is loaded, so that nothing of the simple name is cut off, and no tag has a dot.
      obtain ⟨t, ht⟩ := hspells
      obtain ⟨part, hstem, -⟩ := (loadedUnder_iff_spells h).1 ((hspelled t).2 ht)
      refine .inl ⟨fun hbackslash => ?_, fun hdot => (ht.plain hdot).1 rfl⟩
      rcases List.mem_append.1 (String.toList_append ▸ hbackslash) with hsimple | hrest
      · exact (Interface.not_mem_stemOf (hstem ▸ List.mem_append_left _ hsimple)).2 (.inr rfl)
      · exact (ht.plain hrest).2 (.inr rfl)
    · have hnone (t : Locale) : ¬Interface.Spells rest.toList t := fun ht => hspells ⟨t, ht⟩
      exact .inr ⟨fun t ht => hnone t ((hspelled t).1 ht), hnone⟩
  · rintro (hwhole | ⟨hnone, hnone'⟩) t
    · rw [loadedUnder_iff_spells h, (stemOf_eq_whole_iff hslash).2 hwhole]
      simp
    · exact iff_of_false (hnone t) (hnone' t)

/-- A name with two dots is read up to the first one. -/
theorem loaded_under_whole_name_dotted :
    let i : Interface := ⟨"org.app.Messages"⟩
    let fileName := "Messages_az_Cyrl.old.properties"
    i.simpleName ≠ "" ∧ '/' ∉ fileName.toList ∧ isResourceOf i fileName ∧
      LoadedUnder i fileName { language := "az", script := "Cyrl" } := by
  intro i fileName
  have hname : i.simpleName ≠ "" := by decide +kernel
  have hslash : '/' ∉ fileName.toList := by simp [fileName]
  have hresource : isResourceOf i fileName := by decide +kernel
  have hstem : Interface.stemOf fileName.toList = i.simpleName.toList ++ '_' :: "az_Cyrl".toList := by
    decide +kernel
  have hparse : Locale.parse "az_Cyrl" = .ok { language := "az", script := "Cyrl" } := rfl
  obtain ⟨-, -, -, hloaded, -⟩ := loaded_under_whole_name_iff hname hslash hresource
  exact ⟨hname, hslash, hresource, (hloaded _).2 ⟨_, hstem, .tag (by decide) hparse⟩⟩

/-- The file `Messages_az.old.properties` counts as one of `Messages`. Its name spells no locale, as
there is a dot in the tag, and yet a folder with it is loaded, with its bundle for `az`. -/
theorem loaded_under_part_of_name :
    let i : Interface := ⟨"Messages"⟩
    let fileName := "Messages_az.old.properties"
    isResourceOf i fileName ∧ fileName = i.simpleName ++ ("_" ++ "az.old") ++ ".properties" ∧
      (∀ t, Locale.parse "az.old" ≠ .ok t) ∧
      ∃ c b, Directory.catalog ⟨"", [(fileName, .text "title=Ev")]⟩ i = .ok c ∧
        c.get? { language := "az" } = some b ∧ b.source? = some fileName := by
  intro i fileName
  have hresource : isResourceOf i fileName := by decide +kernel
  have hlocale : i.localeOfName fileName = .ok { language := "az" } := by decide +kernel
  have hloaded := (loadedUnder_iff hresource).2 hlocale
  have htext : (Bundle.ofProperties i { language := "az" } none "title=Ev").isOk := by decide +kernel
  obtain ⟨c, hc⟩ := hloaded.1 "" "title=Ev" (exists_of_isOk htext)
  obtain ⟨b, hget, hsource⟩ := hloaded.2 _ _ c List.mem_cons_self hc
  refine ⟨hresource, by decide +kernel, fun t ht => ?_, c, b, hc, hget, hsource⟩
  have hdot : '.' ∈ "az.old".toList := by simp
  exact (Interface.plain_of_parse ht hdot).1 rfl

end Generation

end Localization
