import Localization.Text.Pieces

namespace Localization

/-- A localizable interface, known by its qualified name. -/
structure Interface where
  name : String
deriving DecidableEq, Inhabited

namespace Interface

/-- The name without its qualification: what follows the last `::` and then the last `.`. -/
def simpleName (i : Interface) : String :=
  String.ofList (Text.afterLast ['.'] (Text.afterLast [':', ':'] i.name.toList))

instance : ToString Interface := ⟨name⟩

end Interface

end Localization
