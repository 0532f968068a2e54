import Localization.Catalog

namespace Localization

/-- The bundles that apply to a requested locale, the most specific first. -/
structure Resolution where
  interface : Interface
  requested : Locale
  bundles : List Bundle
deriving DecidableEq

namespace Resolution

/-- The fallback chain of the requested locale, with or without bundles. -/
def chain (r : Resolution) : List Locale :=
  r.requested.chain

def locales (r : Resolution) : List Locale :=
  r.bundles.map (·.locale)

/-- The most specific locale that a bundle comes from, root if there is none. -/
def effective (r : Resolution) : Locale :=
  r.locales.head?.getD .root

end Resolution

/-- The bundles for the locales of the requested one's fallback chain. -/
def Catalog.resolve (c : Catalog) (requested : Locale) : Resolution where
  interface := c.interface
  requested
  bundles := requested.chain.filterMap c.get?

end Localization
