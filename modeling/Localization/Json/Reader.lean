import Localization.Json.Lexer

namespace Localization.Json

/-- An array or object that is not closed yet, with what it holds kept last one first. -/
inductive Frame where
  | item (before : List Json)
  /-- In an object, where the value under this name is to come. -/
  | member (before : List (Option String × Json)) (name? : Option String)

/-- What a reader of tokens expects next, inside of some frames, the innermost first. -/
inductive State where
  | value (frames : List Frame)
  /-- The first item of an array, or its end. -/
  | firstItem (frames : List Frame)
  /-- The first name in an object, or its end. -/
  | firstName (frames : List Frame)
  | name (before : List (Option String × Json)) (frames : List Frame)
  | colon (before : List (Option String × Json)) (name? : Option String) (frames : List Frame)
  /-- What comes after a complete value. -/
  | after (v : Json) (frames : List Frame)

/-- Reads the first token of a value. -/
def startValue (frames : List Frame) : Token → Option State
  | .null => some (.after .null frames)
  | .bool b => some (.after (.bool b) frames)
  | .number numeral => some (.after (.number numeral) frames)
  | .string text? => some (.after (.string text?) frames)
  | .openArray => some (.firstItem frames)
  | .openObject => some (.firstName frames)
  | _ => none

def State.step : State → Token → Option State
  | value frames, t => startValue frames t
  | firstItem frames, .closeArray => some (.after (.array []) frames)
  | firstItem frames, t => startValue (.item [] :: frames) t
  | firstName frames, .closeObject => some (.after (.object []) frames)
  | firstName frames, .string name? => some (.colon [] name? frames)
  | name before frames, .string name? => some (.colon before name? frames)
  | colon before name? frames, .colon => some (.value (.member before name? :: frames))
  | after v (.item before :: frames), .comma => some (.value (.item (v :: before) :: frames))
  | after v (.item before :: frames), .closeArray =>
    some (.after (.array (v :: before).reverse) frames)
  | after v (.member before name? :: frames), .comma =>
    some (.name ((name?, v) :: before) frames)
  | after v (.member before name? :: frames), .closeObject =>
    some (.after (.object ((name?, v) :: before).reverse) frames)
  | _, _ => none

/-- The value that some tokens spell. -/
def ofTokens? (tokens : List Token) : Option Json := do
  match ← tokens.foldlM State.step (.value []) with
  | .after v [] => some v
  | _ => none

/-- Reads a text that holds one value. -/
def parse? (text : String) : Option Json := do
  ofTokens? (← lex .between text.toList)

end Localization.Json
