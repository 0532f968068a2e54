import Localization.Generation.Config
import Localization.Json.Reader
import Localization.Json.Token
import Localization.Toml.Decode

namespace Localization.Generation.Config

/-- Reads the members of a TOML document; other members do not count, and what is missing has its
default. -/
def ofToml? (members : List (String × Toml)) : Option Config := do
  return {
    locales := ← Toml.member? "locales" Toml.texts? ["default"] members
    workers := ← Toml.member? "workers" Toml.nat? 1 members
    selectorFallback :=
      ← Toml.member? "selector_fallback" (fun v => v.choice?.bind Fallback.ofName?)
        .sameLocaleDefault members
    failOnMissing := ← Toml.member? "fail_on_missing" Toml.bool? true members
    reuseEquivalentArtifacts :=
      ← Toml.member? "reuse_equivalent_artifacts" Toml.bool? true members }

/-- The two languages a configuration may be written in. -/
inductive Format where
  | toml | json
deriving DecidableEq

def parse? : Format → String → Option Config
  | .toml, text => do ofToml? (← Toml.parse? text)
  | .json, text => do ofJson? (← Json.parse? text)

/-- The configuration in one line of JSON. -/
def render (c : Config) : String :=
  c.toJson.render

end Localization.Generation.Config
