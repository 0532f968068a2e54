import Localization.Proofs.Catalog.Insertion
import Localization.Proofs.Lookup.Count

namespace Localization

theorem Bundle.forms_of_not_contains {b : Bundle} {key : String} (h : b.contains key = false) :
    b.forms key = [] := by
  have hget : b.entries.get? key = none := by simpa [contains] using h
  simp only [forms, hget]

theorem Bundle.lacks_of_not_contains {b : Bundle} {key : String} (h : b.contains key = false)
    (forms : List Selector) : b.Lacks key forms := by
  have hget : b.entries.get? key = none := by simpa [contains] using h
  refine ⟨?_, fun form _ => ?_⟩
  · simp [default?, hget]
  · simp [form?, hget]

namespace Resolution

/-- A resolution for the same locale with one more bundle among the others, at its place. -/
structure Extends (s r : Resolution) (b : Bundle) : Prop where
  requested : s.requested = r.requested
  bundles : ∃ nearer farther, r.bundles = nearer ++ farther ∧ s.bundles = nearer ++ b :: farther

variable {r s : Resolution} {b : Bundle} {policy : Fallback} {key : String}

/-- A walk passes over a bundle that has nothing for it. -/
theorem Extends.findSome?_eq (h : s.Extends r b) (f : Bundle → Option Binding) (hb : f b = none) :
    s.bundles.findSome? f = r.bundles.findSome? f := by
  obtain ⟨nearer, farther, hr, hs⟩ := h.bundles
  rw [hr, hs, List.findSome?_append, List.findSome?_append, List.findSome?_cons, hb]

theorem Extends.select?_eq (h : s.Extends r b) {forms : List Selector} (hb : b.Lacks key forms) :
    s.select? policy key forms = r.select? policy key forms := by
  have hdefault : b.defaultBinding? key = none := by simp [Bundle.defaultBinding?, hb.1]
  have hforms : ∀ form ∈ forms, b.formBinding? key form = none := fun form hform => by
    simp [Bundle.formBinding?, hb.2 form hform]
  cases policy with
  | sameLocaleDefault => exact h.findSome?_eq _ ((b.nearest_eq_none_iff key forms).2 hb)
  | acrossChainFirst =>
    have hfind : ∀ form ∈ forms, s.findForm? key form = r.findForm? key form :=
      fun form hform => h.findSome?_eq _ (hforms form hform)
    have hfirst : forms.findSome? (s.findForm? key ·) = forms.findSome? (r.findForm? key ·) :=
      findSome?_congr hfind
    have hlast : s.findDefault? key = r.findDefault? key := h.findSome?_eq _ hdefault
    simp only [select?, hfirst, hlast]

theorem Extends.declaredForms_eq (h : s.Extends r b) (hb : b.contains key = false) :
    s.declaredForms key = r.declaredForms key := by
  obtain ⟨nearer, farther, hr, hs⟩ := h.bundles
  simp [declaredForms, hr, hs, Bundle.forms_of_not_contains hb]

theorem Extends.lookup?_eq (h : s.Extends r b) (hb : b.contains key = false)
    (form? : Option Selector) : s.lookup? policy key form? = r.lookup? policy key form? := by
  rw [lookup?_eq_select?, lookup?_eq_select?]
  exact h.select?_eq (Bundle.lacks_of_not_contains hb _)

theorem Extends.lookup_eq_ok_iff (h : s.Extends r b) (hb : b.contains key = false)
    (form? : Option Selector) (found : Binding) :
    s.lookup policy key form? = .ok found ↔ r.lookup policy key form? = .ok found := by
  rw [lookup_eq_require, lookup_eq_require, require_eq_ok_iff, require_eq_ok_iff,
    h.lookup?_eq hb]

theorem Extends.lookupCount_eq_ok_iff (h : s.Extends r b) (hb : b.contains key = false)
    (count : Int) (found : Binding) :
    s.lookupCount policy key count = .ok found ↔ r.lookupCount policy key count = .ok found := by
  have hcategory : s.category count = r.category count := by simp only [category, h.requested]
  rw [lookupCount_eq_require, lookupCount_eq_require, require_eq_ok_iff, require_eq_ok_iff,
    hcategory, h.select?_eq (Bundle.lacks_of_not_contains hb _)]

theorem Extends.formTable_eq_ok_iff (h : s.Extends r b) (hb : b.contains key = false)
    (table : FormTable) :
    s.formTable policy key = .ok table ↔ r.formTable policy key = .ok table := by
  simp only [formTable, h.lookup?_eq hb, h.declaredForms_eq hb]
  split <;> simp

end Resolution

namespace Catalog

variable {c d : Catalog} {b : Bundle} {t : Locale}

theorem filterMap_get?_of_insert (h : c.insert b = .ok d) {locales : List Locale}
    (hother : b.locale ∉ locales) : locales.filterMap d.get? = locales.filterMap c.get? := by
  obtain ⟨-, -, hget⟩ := insert_eq_ok_iff.1 h
  refine List.filterMap_congr fun u hu => ?_
  have hne : u ≠ b.locale := fun heq => hother (heq ▸ hu)
  rw [hget, if_neg hne]

theorem resolve_of_insert_of_not_mem_chain (h : c.insert b = .ok d) (hchain : b.locale ∉ t.chain) :
    d.resolve t = c.resolve t := by
  rw [resolve, resolve, filterMap_get?_of_insert h hchain, (insert_eq_ok_iff.1 h).2.1]

/-- A bundle comes into the resolution at its locale's place in the chain. -/
theorem bundles_resolve_of_insert (h : c.insert b = .ok d) {before after : List Locale}
    (hsplit : t.chain = before ++ b.locale :: after) :
    (c.resolve t).bundles = before.filterMap c.get? ++ after.filterMap c.get? ∧
      (d.resolve t).bundles = before.filterMap c.get? ++ b :: after.filterMap c.get? := by
  obtain ⟨⟨-, hfree⟩, -, hget⟩ := insert_eq_ok_iff.1 h
  have hnodup := t.nodup_chain
  rw [hsplit, List.nodup_middle, List.nodup_cons, List.mem_append, not_or] at hnodup
  have hnew : d.get? b.locale = some b := by rw [hget, if_pos rfl]
  constructor
  · simp only [resolve, hsplit, List.filterMap_append, List.filterMap_cons, hfree]
  · simp only [resolve, hsplit, List.filterMap_append, List.filterMap_cons, hnew,
      filterMap_get?_of_insert h hnodup.1.1, filterMap_get?_of_insert h hnodup.1.2]

/-- An insertion leaves a resolution as it is or brings the bundle into it. -/
theorem resolve_eq_or_extends_of_insert (h : c.insert b = .ok d) (t : Locale) :
    d.resolve t = c.resolve t ∨ (d.resolve t).Extends (c.resolve t) b := by
  by_cases hchain : b.locale ∈ t.chain
  · obtain ⟨before, after, hsplit⟩ := List.append_of_mem hchain
    exact .inr ⟨rfl, _, _, bundles_resolve_of_insert h hsplit⟩
  · exact .inl (resolve_of_insert_of_not_mem_chain h hchain)

/-- A bundle that is put into a catalog concerns only the locales that fall back to its own. There
it takes the place of its locale in the chain, and the others keep their order. Lookups of all kinds
for a key that it does not have give the same results as before, or fail as before. -/
theorem resolve_insert (h : c.insert b = .ok d) (t : Locale) :
    (b.locale ∉ t.chain → d.resolve t = c.resolve t) ∧
      (d.resolve t).chain = (c.resolve t).chain ∧
      (b.locale ∈ t.chain → ∃ before after, t.chain = before ++ b.locale :: after ∧
        b.locale ∉ before ∧ b.locale ∉ after ∧
        (c.resolve t).bundles = before.filterMap c.get? ++ after.filterMap c.get? ∧
        (d.resolve t).bundles = before.filterMap c.get? ++ b :: after.filterMap c.get?) ∧
      ∀ key, b.contains key = false → ∀ policy,
        (∀ form? found, (d.resolve t).lookup policy key form? = .ok found ↔
          (c.resolve t).lookup policy key form? = .ok found) ∧
        (∀ form?, (d.resolve t).lookup? policy key form? = (c.resolve t).lookup? policy key form?) ∧
        (∀ count found, (d.resolve t).lookupCount policy key count = .ok found ↔
          (c.resolve t).lookupCount policy key count = .ok found) ∧
        ∀ table, (d.resolve t).formTable policy key = .ok table ↔
          (c.resolve t).formTable policy key = .ok table := by
  refine ⟨resolve_of_insert_of_not_mem_chain h, rfl, fun hchain => ?_, fun key hkey policy => ?_⟩
  · obtain ⟨before, after, hsplit⟩ := List.append_of_mem hchain
    have hnodup := t.nodup_chain
    rw [hsplit, List.nodup_middle, List.nodup_cons, List.mem_append, not_or] at hnodup
    obtain ⟨hbefore, hafter⟩ := bundles_resolve_of_insert h hsplit
    exact ⟨before, after, hsplit, hnodup.1.1, hnodup.1.2, hbefore, hafter⟩
  · by_cases hchain : b.locale ∈ t.chain
    · obtain ⟨before, after, hsplit⟩ := List.append_of_mem hchain
      have hextends : (d.resolve t).Extends (c.resolve t) b :=
        ⟨rfl, _, _, bundles_resolve_of_insert h hsplit⟩
      exact ⟨hextends.lookup_eq_ok_iff hkey, hextends.lookup?_eq hkey,
        hextends.lookupCount_eq_ok_iff hkey, hextends.formTable_eq_ok_iff hkey⟩
    · rw [resolve_of_insert_of_not_mem_chain h hchain]
      exact ⟨fun _ _ => Iff.rfl, fun _ => rfl, fun _ _ => Iff.rfl, fun _ => Iff.rfl⟩

/-- A bundle for `az` that has only files comes between those for `az_Cyrl` and root, and leaves
titles alone. -/
theorem resolve_insert_az :
    let made : Except Error (Catalog × Bundle) := do
      let home ← Bundle.ofDeclarations ⟨"Messages"⟩ .root none [.default "title" (.text "Home")]
      let button ← Bundle.ofDeclarations ⟨"Messages"⟩ { language := "az", script := "Cyrl" } none
        [.default "button" (.text "OK")]
      let files ← Bundle.ofDeclarations ⟨"Messages"⟩ { language := "az" } none
        [.default "files" (.text "fayl")]
      return (← ofList ⟨"Messages"⟩ [home, button], files)
    ∃ c b d, made = .ok (c, b) ∧ c.insert b = .ok d ∧ b.contains "title" = false ∧
      (c.resolve { language := "az", script := "Cyrl" }).locales =
        [{ language := "az", script := "Cyrl" }, .root] ∧
      (d.resolve { language := "az", script := "Cyrl" }).locales =
        [{ language := "az", script := "Cyrl" }, { language := "az" }, .root] ∧
      d.resolve { language := "ka" } = c.resolve { language := "ka" } ∧
      (d.resolve { language := "az", script := "Cyrl" }).lookup .sameLocaleDefault "title" none =
        .ok ⟨.text "Home", .root, none⟩ := by
  intro made
  obtain ⟨c, b, d, hmade, hlocale, hinsert, htitle, hlocales, hlocales', hhome⟩ :
      ∃ c b d, made = .ok (c, b) ∧ b.locale = { language := "az" } ∧ c.insert b = .ok d ∧
        b.contains "title" = false ∧
        (c.resolve { language := "az", script := "Cyrl" }).locales =
          [{ language := "az", script := "Cyrl" }, .root] ∧
        (d.resolve { language := "az", script := "Cyrl" }).locales =
          [{ language := "az", script := "Cyrl" }, { language := "az" }, .root] ∧
        (c.resolve { language := "az", script := "Cyrl" }).lookup .sameLocaleDefault "title" none =
          .ok ⟨.text "Home", .root, none⟩ :=
    ⟨_, _, _, rfl, rfl, rfl, rfl, rfl, rfl, rfl⟩
  have hother : b.locale ∉ Locale.chain { language := "ka" } := by
    rw [hlocale]
    decide
  obtain ⟨hsame, -⟩ := resolve_insert hinsert { language := "ka" }
  obtain ⟨-, -, -, hlookups⟩ := resolve_insert hinsert { language := "az", script := "Cyrl" }
  exact ⟨c, b, d, hmade, hinsert, htitle, hlocales, hlocales', hsame hother,
    ((hlookups "title" htitle .sameLocaleDefault).1 none _).2 hhome⟩

end Catalog

end Localization
