import Localization.Json.Encoding

namespace Localization.Generation

/-- The settings of a generation pass. -/
structure Config where
  /-- The locales that every interface is bound for, as they are written. -/
  locales : List String := ["default"]
  /-- How many workers share the interfaces. -/
  workers : Nat := 1
  selectorFallback : Fallback := .sameLocaleDefault
  /-- Whether an interface fails when a required key is missing everywhere. -/
  failOnMissing : Bool := true
  /-- Whether locales with one effective locale share an artifact. -/
  reuseEquivalentArtifacts : Bool := true
deriving DecidableEq

namespace Config

/-- Why a configuration is not valid. -/
inductive Fault where
  | noWorkers
  | noLocales
  | repeatedLocale (text : String)
  | malformedLocale (error : Localization.Error)
deriving DecidableEq

def Fault.message : Fault → String
  | noWorkers => "workers must be > 0"
  | noLocales => "locales must not be empty"
  | repeatedLocale text => s!"locale '{text}' is listed more than once"
  | malformedLocale error => s!"locales: {error.message}"

/-- The faults of a list of locales, after others that were seen before. -/
def localeFaults (seen : List Locale) : List String → List Fault
  | [] => []
  | text :: rest =>
    match Locale.parse text with
    | .ok locale =>
      if locale ∈ seen then .repeatedLocale text :: localeFaults seen rest
      else localeFaults (locale :: seen) rest
    | .error error => .malformedLocale error :: localeFaults seen rest

/-- All faults of a configuration; it is valid if there are none. -/
def faults (c : Config) : List Fault :=
  (if c.workers = 0 then [.noWorkers] else []) ++
    (if c.locales = [] then [.noLocales] else []) ++ localeFaults [] c.locales

/-- The locales as tags, or the error of the first one that is malformed. -/
def parsedLocales (c : Config) : Except Localization.Error (List Locale) :=
  c.locales.mapM Locale.parse

def lookupSettings (c : Config) : LookupSettings where
  selectorFallback := c.selectorFallback

/-- The largest number of workers that can be written. -/
def maxWorkers : Nat := 18446744073709551615

def toJson (c : Config) : Json :=
  .ofMembers
    [("locales", .array (c.locales.map .ofString)),
     ("workers", .ofNat c.workers),
     ("selector_fallback", c.selectorFallback.toJson),
     ("fail_on_missing", .bool c.failOnMissing),
     ("reuse_equivalent_artifacts", .bool c.reuseEquivalentArtifacts)]

/-- A number of workers that is not too large. -/
private def workers? (v : Json) : Option Nat :=
  v.nat?.filter (· ≤ maxWorkers)

/-- The names of the settings, in order. -/
def settingNames : List String :=
  ["locales", "workers", "selector_fallback", "fail_on_missing", "reuse_equivalent_artifacts"]

/-- Reads the settings by their names; those that are missing have their default. -/
def ofMembers? (members : List (Option String × Json)) : Option Config := do
  if members.any (·.1.isNone) then none
  return {
    locales := ← Json.member? "locales" Json.texts? ["default"] members
    workers := ← Json.member? "workers" workers? 1 members
    selectorFallback :=
      ← Json.member? "selector_fallback" Fallback.ofJson? .sameLocaleDefault members
    failOnMissing := ← Json.member? "fail_on_missing" Json.bool? true members
    reuseEquivalentArtifacts :=
      ← Json.member? "reuse_equivalent_artifacts" Json.bool? true members }

/-- Reads an object, whose other members do not count, or an array that lists the settings in order
and may lack the last ones. -/
def ofJson? : Json → Option Config
  | .object members => ofMembers? members
  | .array items =>
    if settingNames.length < items.length then none
    else ofMembers? ((settingNames.map some).zip items)
  | _ => none

end Config

end Localization.Generation
