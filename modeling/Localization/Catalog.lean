import Localization.Bundle

namespace Localization

/-- The bundles of one interface, at most one for each locale. -/
structure Catalog where
  interface : Interface
  bundles : SortedMap Locale Bundle
  belongs : ∀ t b, bundles.get? t = some b → b.locale = t ∧ b.interface = interface

namespace Catalog

def empty (interface : Interface) : Catalog where
  interface
  bundles := .empty
  belongs := by simp

/-- The bundle for exactly this locale. -/
def get? (c : Catalog) (locale : Locale) : Option Bundle :=
  c.bundles.get? locale

/-- The locales that have a bundle, the least specific first. -/
def locales (c : Catalog) : List Locale :=
  c.bundles.keys

def size (c : Catalog) : Nat :=
  c.bundles.size

/-- The catalog with one more bundle, which must be one of its interface and for a new locale. -/
def insert (c : Catalog) (b : Bundle) : Except Error Catalog :=
  if h : b.interface = c.interface then
    if (c.get? b.locale).isSome then .error (.duplicateLocale c.interface b.locale)
    else
      .ok
        { interface := c.interface
          bundles := c.bundles.insert b.locale b
          belongs := fun t found hget => by
            by_cases ht : t = b.locale
            · subst ht
              obtain rfl : b = found := by simpa using hget
              exact ⟨rfl, h⟩
            · rw [SortedMap.get?_insert_of_ne _ ht] at hget
              exact c.belongs t found hget }
  else .error (.foreignBundle c.interface b.interface)

/-- The catalog of some bundles, or the error of the first one that cannot be inserted. -/
def ofList (interface : Interface) (bundles : List Bundle) : Except Error Catalog :=
  bundles.foldlM insert (empty interface)

end Catalog

end Localization
