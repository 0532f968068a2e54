import Localization.Json
import Localization.Text.Hex

namespace Localization.Json

/-- The smallest parts of a JSON text. -/
inductive Token where
  | openArray | closeArray | openObject | closeObject | comma | colon
  | null
  | bool (b : Bool)
  | number (numeral : String)
  | string (text? : Option String)
deriving DecidableEq

mutual

def tokens : Json → List Token
  | null => [.null]
  | bool b => [.bool b]
  | number numeral => [.number numeral]
  | string text? => [.string text?]
  | array items => .openArray :: (itemTokens items ++ [.closeArray])
  | object members => .openObject :: (memberTokens members ++ [.closeObject])

/-- The tokens of array items, with commas between them. -/
def itemTokens : List Json → List Token
  | [] => []
  | [v] => v.tokens
  | v :: rest => v.tokens ++ .comma :: itemTokens rest

/-- The tokens of object members, with commas between them. -/
def memberTokens : List (Option String × Json) → List Token
  | [] => []
  | [(name?, v)] => .string name? :: .colon :: v.tokens
  | (name?, v) :: rest => .string name? :: .colon :: (v.tokens ++ .comma :: memberTokens rest)

end

/-- A hexadecimal digit in lower case. -/
private def lowerHexDigit (n : Nat) : Char :=
  (Text.hexDigit n).toLower

theorem hexDigit?_lowerHexDigit : ∀ n < 16, Text.hexDigit? (lowerHexDigit n) = some n := by
  decide

/-- How a character is written between quotes: control characters, the quote and the backslash as
escapes, all else as itself. -/
def escape (c : Char) : List Char :=
  if c = '"' then ['\\', '"']
  else if c = '\\' then ['\\', '\\']
  else if c = '\x08' then ['\\', 'b']
  else if c = '\x0c' then ['\\', 'f']
  else if c = '\n' then ['\\', 'n']
  else if c = '\r' then ['\\', 'r']
  else if c = '\t' then ['\\', 't']
  else if c.toNat < 32 then
    ['\\', 'u', '0', '0', lowerHexDigit (c.toNat / 16), lowerHexDigit (c.toNat % 16)]
  else [c]

/-- How a string is written. One without text is written as a surrogate that stands alone. -/
def quote : Option String → List Char
  | some text => '"' :: (text.toList.flatMap escape ++ ['"'])
  | none => "\"\\ud800\"".toList

def Token.write : Token → List Char
  | openArray => ['[']
  | closeArray => [']']
  | openObject => ['\x7b']
  | closeObject => ['\x7d']
  | comma => [',']
  | colon => [':']
  | null => "null".toList
  | bool true => "true".toList
  | bool false => "false".toList
  | number numeral => numeral.toList
  | string text? => quote text?

/-- The value in one line, without blanks between its tokens. -/
def render (v : Json) : String :=
  String.ofList (v.tokens.flatMap Token.write)

end Localization.Json
