import Localization.Proofs.Cache.Sound

namespace Localization.Cache

theorem resolve_of_get?_eq_some {c : Cache} {catalog : Catalog} {locale : Locale} {stored : Stored}
    (h : c.get? { interface := catalog.interface, locale } = some stored) :
    c.resolve catalog locale = (stored, c.hit) := by
  simp only [resolve, h]

theorem resolve_of_get?_eq_none {c : Cache} {catalog : Catalog} {locale : Locale}
    (h : c.get? { interface := catalog.interface, locale } = none) :
    c.resolve catalog locale =
      c.miss.store { interface := catalog.interface, locale } (catalog.resolve locale) := by
  simp only [resolve, h]

/-- What the cache gives for a locale of a catalog: what it has, or else what the catalog has. -/
theorem resolution_resolve (c : Cache) (catalog : Catalog) (locale : Locale) :
    (c.resolve catalog locale).1.resolution =
      ((c.get? { interface := catalog.interface, locale }).map (·.resolution)).getD
        (catalog.resolve locale) := by
  cases hget : c.get? { interface := catalog.interface, locale } with
  | some stored =>
    rw [resolve_of_get?_eq_some hget]
    rfl
  | none =>
    rw [resolve_of_get?_eq_none hget]
    rfl

/-- It keeps what it gave and leaves the other keys alone. -/
theorem get?_resolve (c : Cache) (catalog : Catalog) (locale : Locale) (key : Key) :
    ((c.resolve catalog locale).2.get? key).map (·.resolution) =
      if key = { interface := catalog.interface, locale } then
        some (c.resolve catalog locale).1.resolution
      else (c.get? key).map (·.resolution) := by
  cases hget : c.get? { interface := catalog.interface, locale } with
  | some stored =>
    rw [resolve_of_get?_eq_some hget]
    split
    · rename_i hkey
      rw [hkey, get?_hit, hget]
      rfl
    · rfl
  | none =>
    rw [resolve_of_get?_eq_none hget]
    split
    · rename_i hkey
      rw [hkey, get?_store_self]
      rfl
    · rename_i hkey
      rw [get?_store_of_ne _ hkey]
      rfl

/-- What the cache has for a catalog's interface is what the catalog has. -/
def Mirrors (c : Cache) (catalog : Catalog) : Prop :=
  ∀ locale resolution,
    (c.get? { interface := catalog.interface, locale }).map (·.resolution) = some resolution →
      resolution = catalog.resolve locale

namespace Mirrors

theorem empty (catalog : Catalog) : Mirrors {} catalog := by
  simp [Mirrors, get?]

variable {c : Cache} {catalog : Catalog}

/-- Such a cache gives what the catalog gives. -/
theorem resolution_eq (h : c.Mirrors catalog) (locale : Locale) :
    (c.resolve catalog locale).1.resolution = catalog.resolve locale := by
  rw [resolution_resolve]
  cases hget : (c.get? { interface := catalog.interface, locale }).map (·.resolution) with
  | none => rfl
  | some resolution => exact h locale resolution hget

theorem resolve (h : c.Mirrors catalog) (locale : Locale) :
    (c.resolve catalog locale).2.Mirrors catalog := by
  intro other resolution hget
  rw [get?_resolve] at hget
  split at hget
  · rename_i hkey
    obtain rfl : other = locale := congrArg Key.locale hkey
    rw [← Option.some.inj hget, h.resolution_eq]
  · exact h other resolution hget

end Mirrors

end Localization.Cache
