import Localization.Toml

namespace Localization.Toml

/-- The longest chain of arrays and inline tables, or of parts of a key, is one less than this. -/
def nestingLimit : Nat := 80

/-- Reads a part of a text from its start and leaves the rest. -/
abbrev Reader (α : Type) := StateT (List Char) Option α

namespace Reader

/-- Reads just this text. -/
def exactly (text : String) : Reader Unit :=
  fun s => (text.toList.isPrefixOf? s).map ((), ·)

/-- Reads one character that passes the test. -/
def oneOf (test : Char → Bool) : Reader Char
  | c :: rest => if test c then some (c, rest) else none
  | [] => none

/-- Reads the characters up to the first that fails the test. -/
def takeWhile (test : Char → Bool) : Reader (List Char) :=
  fun s => some (s.takeWhile test, s.dropWhile test)

/-- Reads just so many characters that pass the test. -/
def count (test : Char → Bool) : Nat → Reader (List Char)
  | 0 => pure []
  | n + 1 => do
    let c ← oneOf test
    return c :: (← count test n)

/-- Succeeds at the end of the text. -/
def atEnd : Reader Unit
  | [] => some ((), [])
  | _ => none

/-- What the reader gives for the text read, with that text. -/
def withText {α : Type} (p : Reader α) : Reader (α × String) := fun s => do
  let (a, rest) ← p s
  return ((a, String.ofList (s.take (s.length - rest.length))), rest)

/-- Reads as often as it succeeds, at most so many times. -/
private def manyUpTo {α : Type} (p : Reader α) : Nat → Reader (List α)
  | 0 => pure []
  | n + 1 =>
    (do
      let a ← p
      return a :: (← manyUpTo p n)) <|> pure []

/-- Reads as often as it succeeds. Every success has to read a character, so the length of the text
bounds their number. -/
def many {α : Type} (p : Reader α) : Reader (List α) := do
  manyUpTo p (← get).length

/-- Reads one or more with separators between them. -/
def separated {α : Type} (p : Reader α) (separator : Reader Unit) : Reader (List α) := do
  let first ← p
  return first :: (← many (separator *> p))

end Reader

end Localization.Toml
