import Localization.DateTime.Catalog
import Localization.Proofs.Bundle.Declared
import Localization.Proofs.Cache.Resolving
import Localization.Proofs.Catalog.Insertion
import Localization.Proofs.DateTime.Reading

namespace Localization.DateTime

/-! The tables -/

theorem isOk_parse_of_mem_tables : ∀ t ∈ tables, (Locale.parse t.locale).isOk := by
  decide +kernel

theorem bundledLocales_eq : bundledLocales =
    [.root, { language := "az" }, { language := "az", script := "Cyrl" }] := by
  decide +kernel

/-- Whatever a table has under a key that is asked for has the shape that is asked for. -/
theorem fits_of_mem_cells :
    ∀ t ∈ tables, ∀ cell ∈ t.cells, ∀ d ∈ demands, d.key = cell.1 → d.fits cell.2 := by
  decide +kernel

/-- The table of root has every key that is asked for. -/
theorem exists_cell_of_mem_demands : ∀ d ∈ demands, ∃ cell ∈ rootTable.cells, cell.1 = d.key := by
  decide +kernel

theorem Table.bundle_eq_ok_iff {t : Table} {b : Bundle} : t.bundle = .ok b ↔
    ∃ locale, Locale.parse t.locale = .ok locale ∧
      Bundle.ofDeclarations interface locale (some s!"cldr:{t.name}")
        (t.cells.map fun (key, value) => .default key value) = .ok b :=
  bind_eq_ok_iff

/-- A bundle that holds just what a table does. -/
structure Table.Holds (t : Table) (b : Bundle) : Prop where
  locale : Locale.parse t.locale = .ok b.locale
  interface : b.interface = DateTime.interface
  mem_cells : ∀ key value, b.default? key = some value → (key, value) ∈ t.cells
  isSome : ∀ key value, (key, value) ∈ t.cells → (b.default? key).isSome

theorem Table.exists_bundle {t : Table} {locale : Locale} (h : Locale.parse t.locale = .ok locale) :
    ∃ b, t.bundle = .ok b ∧ t.Holds b := by
  obtain ⟨b, hb, hinterface, rfl, hmem, hsome⟩ :=
    Bundle.exists_ofDefaults interface locale (some s!"cldr:{t.name}") t.cells
  exact ⟨b, bundle_eq_ok_iff.2 ⟨_, h, hb⟩, h, hinterface, hmem, hsome⟩

theorem Table.holds_of_bundle {t : Table} {b : Bundle} (h : t.bundle = .ok b) : t.Holds b := by
  obtain ⟨locale, hlocale, -⟩ := bundle_eq_ok_iff.1 h
  obtain ⟨b', hb', hholds⟩ := exists_bundle hlocale
  obtain rfl : b = b' := Except.ok.inj (h.symm.trans hb')
  exact hholds

/-! The catalog of the tables -/

theorem map_locale_of_bundles {ts : List Table} {bs : List Bundle}
    (h : ts.mapM Table.bundle = .ok bs) :
    bs.map (·.locale) = ts.filterMap fun t => (Locale.parse t.locale).toOption := by
  induction mapM_eq_ok_iff.1 h with
  | nil => rfl
  | @cons t b ts bs hb hrest ih =>
    have hparsed := (Table.holds_of_bundle hb).locale
    rw [List.map_cons, ih (mapM_eq_ok_iff.2 hrest), List.filterMap_cons, hparsed]
    rfl

/-- A catalog with a bundle for each bundled locale, which has what the tables have. -/
structure Tabled (c : Catalog) : Prop where
  bundled : ∀ u, (c.get? u).isSome ↔ u ∈ bundledLocales
  held : ∀ u b, c.get? u = some b → ∃ t ∈ tables, t.Holds b
  root : ∃ b, c.get? .root = some b ∧ rootTable.Holds b

theorem exists_catalog : ∃ c, catalog = .ok c ∧ Tabled c := by
  obtain ⟨bs, hbundles⟩ := exists_mapM_eq_ok fun t ht => by
    obtain ⟨locale, hlocale⟩ := exists_of_isOk (isOk_parse_of_mem_tables t ht)
    obtain ⟨b, hb, -⟩ := Table.exists_bundle hlocale
    exact ⟨b, hb⟩
  have hlocales : bs.map (·.locale) = bundledLocales := map_locale_of_bundles hbundles
  have hheld (b : Bundle) (hb : b ∈ bs) : ∃ t ∈ tables, t.Holds b := by
    obtain ⟨t, ht, hbundle⟩ := exists_of_mem_mapM hbundles hb
    exact ⟨t, ht, Table.holds_of_bundle hbundle⟩
  have hcompatible : Catalog.Compatible interface bs := by
    refine ⟨fun b hb => ?_, ?_⟩
    · obtain ⟨t, -, hholds⟩ := hheld b hb
      exact hholds.interface
    · rw [hlocales, bundledLocales_eq]
      decide
  refine ⟨_, bind_eq_ok_iff.2 ⟨bs, hbundles, (Catalog.ofList_eq_ok_iff _ _ _).2 ⟨hcompatible, rfl⟩⟩,
    fun u => ?_, fun u b hget => ?_, ?_⟩
  · rw [Option.isSome_iff_exists, ← hlocales, List.mem_map]
    simp only [hcompatible.get?_eq_some_iff]
  · exact hheld b ((hcompatible.get?_eq_some_iff u b).1 hget).1
  · have hmem : rootTable ∈ tables := List.mem_cons_self
    obtain ⟨b, hb, hbundle⟩ := exists_result_of_mem hbundles hmem
    have hholds := Table.holds_of_bundle hbundle
    have hroot : Locale.parse rootTable.locale = .ok .root := rfl
    have hlocale : b.locale = .root := Except.ok.inj (hholds.locale.symm.trans hroot)
    exact ⟨b, (hcompatible.get?_eq_some_iff _ b).2 ⟨hb, hlocale⟩, hholds⟩

namespace Tabled

variable {c : Catalog}

/-- Whatever the locale, the first value of each key that is asked for has the right shape: root has
one, and no table has another kind of value. -/
theorem fault?_eq_none (h : Tabled c) (t : Locale) :
    ∀ d ∈ demands, d.fault? (c.resolve t) = none := by
  intro d hd
  obtain ⟨b, hget, hroot⟩ := h.root
  obtain ⟨cell, hcell, hkey⟩ := exists_cell_of_mem_demands d hd
  have hmem : b ∈ (c.resolve t).bundles := List.mem_filterMap.2 ⟨.root, t.root_mem_chain, hget⟩
  have hdefault : (b.defaultBinding? d.key).isSome := by
    rw [← hkey, Bundle.defaultBinding?, Option.isSome_map]
    exact hroot.isSome cell.1 cell.2 hcell
  have hsome : ((c.resolve t).findDefault? d.key).isSome :=
    List.findSome?_isSome_iff.2 ⟨b, hmem, hdefault⟩
  obtain ⟨found, hfound⟩ := Option.isSome_iff_exists.1 hsome
  obtain ⟨b', hmem', hvalue⟩ := Resolution.default?_of_findDefault? hfound
  obtain ⟨table, htable, hholds⟩ := h.held _ b' (c.get?_of_mem_bundles t hmem')
  have hfits : d.fits found.value :=
    fits_of_mem_cells table htable _ (hholds.mem_cells _ _ hvalue) d hd rfl
  simp [Demand.fault?, hfound, hfits]

theorem find?_bundled_eq_effective (h : Tabled c) (t : Locale) :
    t.chain.find? (· ∈ bundledLocales) = some (c.resolve t).effective := by
  obtain ⟨b, hget, -⟩ := h.root
  rw [← c.find?_chain_eq_effective (by simp [hget])]
  congr 1
  funext u
  exact Bool.eq_iff_iff.2 (by simpa using (h.bundled u).symm)

/-- The formats of a locale are those of the first locale of its chain that has a table. -/
theorem exists_formats (h : Tabled c) (t : Locale) :
    ∃ f, Formats.ofResolution (c.resolve t) = .ok f ∧ f.locale = (c.resolve t).effective ∧
      Formats.ofResolution (c.resolve (c.resolve t).effective) = .ok f := by
  obtain ⟨f, hf⟩ := (reads_ofResolution.exists_ok_iff (c.resolve t)).2 (h.fault?_eq_none t)
  exact ⟨f, hf, Formats.locale_of_ofResolution hf,
    reads_ofResolution.congr _ _ f (c.bundles_resolve_effective t).symm hf⟩

end Tabled

/-- The locale whose table comes first for a locale. -/
def tableLocale (t : Locale) : Locale :=
  if t.language = "az" then
    if t.script = "Cyrl" then { language := "az", script := "Cyrl" } else { language := "az" }
  else .root

theorem tableLocale_of_mem (t : Locale) (ht : t ∈ bundledLocales) : tableLocale t = t := by
  rw [bundledLocales_eq] at ht
  simp only [List.mem_cons, List.not_mem_nil, or_false] at ht
  obtain rfl | rfl | rfl := ht <;> rfl

/-- A locale without a table of its own is served like its parent. -/
theorem tableLocale_of_parent? {t p : Locale} (hparent : t.parent? = some p)
    (ht : t ∉ bundledLocales) : tableLocale t = tableLocale p := by
  rw [bundledLocales_eq] at ht
  obtain ⟨language, script, region, variant⟩ := t
  unfold Locale.parent? at hparent
  split at hparent
  · obtain rfl := Option.some.inj hparent
    rfl
  split at hparent
  · obtain rfl := Option.some.inj hparent
    rfl
  rename_i hvariant hregion
  obtain rfl : variant = "" := not_not.1 hvariant
  obtain rfl : region = "" := not_not.1 hregion
  split at hparent
  · obtain rfl := Option.some.inj hparent
    by_cases hlanguage : language = "az"
    · have hscript : script ≠ "Cyrl" := by
        rintro rfl
        simp [hlanguage] at ht
      simp [tableLocale, hlanguage, hscript]
    · simp [tableLocale, hlanguage]
  rename_i hscript
  obtain rfl : script = "" := not_not.1 hscript
  split at hparent
  · obtain rfl := Option.some.inj hparent
    have hlanguage : language ≠ "az" := by
      rintro rfl
      simp at ht
    simp [tableLocale, hlanguage]
  · cases hparent

theorem find?_bundled_eq_tableLocale (t : Locale) :
    t.chain.find? (· ∈ bundledLocales) = some (tableLocale t) := by
  induction t using Locale.induction_on_parent with
  | root =>
    rw [bundledLocales_eq]
    rfl
  | step t p hparent ih =>
    rw [Locale.chain_of_parent? hparent, List.find?_cons]
    by_cases ht : t ∈ bundledLocales
    · rw [decide_eq_true ht, tableLocale_of_mem t ht]
    · rw [decide_eq_false ht, tableLocale_of_parent? hparent ht, ih]

/-! Requests one after the other -/

namespace Formats

/-- The formats of some locales, one after the other, through one cache. -/
def resolveEach (cache : Cache) (catalog : Catalog) : List Locale → List (Except Error Formats)
  | [] => []
  | t :: rest =>
    let (formats, cache) := Formats.resolve cache catalog t
    formats :: resolveEach cache catalog rest

variable {cache : Cache} {catalog : Catalog}

theorem resolve_of_mirrors (h : cache.Mirrors catalog) (t : Locale) :
    Formats.resolve cache catalog t =
      (Formats.ofResolution (catalog.resolve t), (cache.resolve catalog t).2) := by
  rw [← h.resolution_eq]
  rfl

/-- What was asked for before makes no difference. -/
theorem resolveEach_of_mirrors (h : cache.Mirrors catalog) (requests : List Locale) :
    resolveEach cache catalog requests =
      requests.map fun t => Formats.ofResolution (catalog.resolve t) := by
  induction requests generalizing cache with
  | nil => rfl
  | cons t rest ih =>
    simp only [resolveEach, resolve_of_mirrors h, ih (h.resolve t), List.map_cons]

/-- Every locale has all date and time data: in any sequence of requests through one cache, each
locale has formats, those of the first locale of its chain that has a table, which is `az_Cyrl` for
Azerbaijani in Cyrillic script, `az` for all other Azerbaijani, and root for the rest. They are what
that locale has itself with a cache of its own. -/
theorem resolveEach_complete :
    ∃ c, DateTime.catalog = .ok c ∧ ∀ requests : List Locale, ∃ formats : List Formats,
      resolveEach {} c requests = formats.map .ok ∧
      List.Forall₂ (fun t f =>
        t.chain.find? (· ∈ bundledLocales) = some f.locale ∧ f.locale = tableLocale t ∧
          (Formats.resolve {} c f.locale).1 = .ok f) requests formats := by
  obtain ⟨c, hc, htabled⟩ := exists_catalog
  choose formats hformats hlocale hown using htabled.exists_formats
  refine ⟨c, hc, fun requests => ⟨requests.map formats, ?_, ?_⟩⟩
  · rw [resolveEach_of_mirrors (.empty c), List.map_map]
    exact List.map_congr_left fun t _ => hformats t
  · rw [List.forall₂_map_right_iff, List.forall₂_same]
    intro t _
    have hfirst := htabled.find?_bundled_eq_effective t
    rw [← hlocale t] at hfirst
    have htable := hfirst.symm.trans (find?_bundled_eq_tableLocale t)
    refine ⟨hfirst, Option.some.inj htable, ?_⟩
    rw [resolve_of_mirrors (.empty c), hlocale t]
    exact hown t

end Formats

end Localization.DateTime
