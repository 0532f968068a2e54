import Localization.Bundle.Draft
import Localization.Catalog
import Localization.DateTime.Table
import Localization.Locale.Parse

namespace Localization.DateTime

/-- The interface that the date and time data belongs to. -/
def interface : Interface := ⟨"DateTimeFormatInfo"⟩

/-- The bundle of a table. -/
def Table.bundle (t : Table) : Except Localization.Error Bundle := do
  let locale ← Locale.parse t.locale
  Bundle.ofDeclarations interface locale (some s!"cldr:{t.name}") <|
    t.cells.map fun (key, value) => .default key value

/-- The catalog of the bundled tables. -/
def catalog : Except Localization.Error Catalog := do
  Catalog.ofList interface (← tables.mapM Table.bundle)

/-- The locales that have a bundled table, in the order of the tables. -/
def bundledLocales : List Locale :=
  tables.filterMap fun t => (Locale.parse t.locale).toOption

end Localization.DateTime
