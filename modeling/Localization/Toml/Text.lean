import Localization.Text.Hex
import Localization.Toml.Reader

namespace Localization.Toml.Reader

/-- Tab, and all that is no control character. -/
def isPrintable (c : Char) : Bool :=
  c == '\t' || (32 ≤ c.toNat && c.toNat != 127)

def spaces : Reader Unit := do
  let _ ← takeWhile fun c => c == ' ' || c == '\t'

def newline : Reader Unit :=
  exactly "\n" <|> exactly "\r\n"

/-- From a number sign to the end of the line. -/
def comment : Reader Unit := do
  exactly "#"
  let _ ← takeWhile isPrintable

/-- What may stand after a statement on its line. -/
def lineEnd : Reader Unit := do
  spaces
  let _ ← optional comment
  newline <|> atEnd

/-- Blanks, line ends and comments. -/
def filler : Reader Unit := do
  let _ ← many <|
    (do let _ ← oneOf fun c => c == ' ' || c == '\t') <|> newline <|> comment

/-- The character of a code point in hexadecimal digits. -/
def codePoint (digits : Nat) : Reader Char := do
  let ds ← count (fun c => (Text.hexDigit? c).isSome) digits
  let n := ds.foldl (fun n c => n * 16 + (Text.hexDigit? c).getD 0) 0
  if n.isValidChar then return Char.ofNat n else failure

/-- The character that follows a backslash, with what it stands for. -/
def escape : Reader Char := do
  exactly "\\"
  let c ← oneOf fun _ => true
  match c with
  | 'b' => return '\x08'
  | 'f' => return '\x0c'
  | 'n' => return '\n'
  | 'r' => return '\r'
  | 't' => return '\t'
  | '"' => return '"'
  | '\\' => return '\\'
  | 'u' => codePoint 4
  | 'U' => codePoint 8
  | _ => failure

/-- A backslash at the end of a line, which takes away all blanks and line ends after it. -/
def lineJoin : Reader (List Char) := do
  exactly "\\"
  spaces
  newline
  let _ ← many <| (do let _ ← oneOf fun c => c == ' ' || c == '\t') <|> newline
  return []

/-- A character of a basic string that stands for itself. -/
def basicChar : Reader Char :=
  oneOf fun c => isPrintable c && c != '"' && c != '\\'

/-- A string between quotes, with escapes. -/
def basicString : Reader String := do
  exactly "\""
  let text ← many (basicChar <|> escape)
  exactly "\""
  return String.ofList text

/-- The apostrophe, the quote of literal strings. -/
def apostrophe : Char := Char.ofNat 39

/-- A character of a literal string. -/
def literalChar : Reader Char :=
  oneOf fun c => isPrintable c && c != apostrophe

/-- A string between apostrophes, without escapes. -/
def literalString : Reader String := do
  let _ ← oneOf (· == apostrophe)
  let text ← takeWhile fun c => isPrintable c && c != apostrophe
  let _ ← oneOf (· == apostrophe)
  return String.ofList text

/-- A run of one or two quotes, which does not end a string of several lines. -/
def shortRun (quote : Char) : Reader (List Char) := do
  let run ← takeWhile (· == quote)
  if run.length = 1 ∨ run.length = 2 then return run else failure

/-- A string between runs of three quotes. A line end right after the first run does not count, and
up to two quotes of the text may stand right before the last run. -/
def longString (quote : Char) (piece : Reader (List Char)) : Reader String := do
  let _ ← count (· == quote) 3
  let _ ← optional newline
  let pieces ← many (piece <|> shortRun quote <|> (do newline; return ['\n']))
  let run ← takeWhile (· == quote)
  if 3 ≤ run.length ∧ run.length ≤ 5 then
    return String.ofList (pieces.flatten ++ run.drop 3)
  else failure

/-- A string of any of the four kinds. -/
def string : Reader String :=
  longString '"' ((return [← basicChar]) <|> lineJoin <|> (return [← escape])) <|>
    basicString <|> longString apostrophe (return [← literalChar]) <|> literalString

def keyPart : Reader String :=
  basicString <|> literalString <|> do
    let text ← takeWhile fun c => c.isAlphanum || c == '_' || c == '-'
    if text = [] then failure else return String.ofList text

/-- The parts of a key, with dots between them. -/
def key : Reader (List String) := do
  let parts ← separated (do spaces; let part ← keyPart; spaces; return part) (exactly ".")
  if parts.length < nestingLimit then return parts else failure

end Localization.Toml.Reader
