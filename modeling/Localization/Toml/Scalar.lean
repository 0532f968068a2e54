import Localization.Toml.Text

namespace Localization.Toml.Reader

/-- Digits that may have an underscore between two neighbours, without the underscores. -/
def digitRun (test : Char → Bool) : Reader (List Char) := do
  let first ← oneOf test
  let rest ← many <| (oneOf test) <|> (do exactly "_"; oneOf test)
  return first :: rest

/-- A plus or minus sign, which may be missing. -/
def sign : Reader (Option Char) :=
  optional (oneOf fun c => c == '+' || c == '-')

/-- A whole number in decimal digits without leading zeros. -/
def wholeDigits : Reader (List Char) := do
  match ← get with
  | '0' :: rest =>
    set rest
    return ['0']
  | _ => digitRun Char.isDigit

/-- A whole number of 64 bits. -/
private def inRange (n : Int) : Reader Toml :=
  if -9223372036854775808 ≤ n ∧ n ≤ 9223372036854775807 then return .integer n else failure

/-- A whole number in digits of another radix, after the mark of the radix. -/
private def radixInteger (mark : String) (radix : Nat) : Reader Toml := do
  exactly mark
  let digits ← digitRun fun c => (Text.hexDigit? c).any (· < radix)
  inRange (digits.foldl (fun n c => n * radix + (Text.hexDigit? c).getD 0) 0 : Nat)

def integer : Reader Toml :=
  radixInteger "0x" 16 <|> radixInteger "0o" 8 <|> radixInteger "0b" 2 <|> do
    let minus := (← sign) == some '-'
    let n := Nat.ofDigitChars 10 (← wholeDigits) 0
    inRange (if minus then -n else n)

/-- Whether `digits · 10 ^ exponent` is too large for a number of double precision, which is to say
at least `2 ^ 1024 - 2 ^ 970`. -/
def overflows (digits : Nat) (exponent : Int) : Bool :=
  let limit := Nat.pow 2 1024 - Nat.pow 2 970
  let length : Int := (toString digits).length
  if digits = 0 ∨ length + exponent < 300 then false
  else if 400 < length + exponent then true
  else if 0 ≤ exponent then limit ≤ digits * Nat.pow 10 exponent.toNat
  else limit * Nat.pow 10 (-exponent).toNat ≤ digits

private def exponentPart : Reader Int := do
  let _ ← oneOf fun c => c == 'e' || c == 'E'
  let minus := (← sign) == some '-'
  let n := Nat.ofDigitChars 10 (← digitRun Char.isDigit) 0
  return if minus then -n else n

private def fractionPart : Reader (List Char) := do
  exactly "."
  digitRun Char.isDigit

/-- A number with a fraction or an exponent that is not too large. -/
def decimalFloat : Reader Unit := do
  let minus := (← sign) == some '-'
  let whole ← wholeDigits
  let fraction ← optional fractionPart
  let exponent ← optional exponentPart
  if fraction.isNone && exponent.isNone then failure
  let fraction := fraction.getD []
  let digits := Nat.ofDigitChars 10 (whole ++ fraction) 0
  if !minus && overflows digits (exponent.getD 0 - fraction.length) then failure

/-- Infinity, or no number. -/
def specialFloat : Reader Unit := do
  let _ ← sign
  exactly "inf" <|> exactly "nan"

/-- A number with a fraction or an exponent, infinity, or no number. -/
def float : Reader Toml := do
  let (_, text) ← withText (decimalFloat <|> specialFloat)
  return .float text

/-- A number of just so many digits between two bounds. -/
def field (digits low high : Nat) : Reader Nat := do
  let n := Nat.ofDigitChars 10 (← count Char.isDigit digits) 0
  if low ≤ n ∧ n ≤ high then return n else failure

def daysIn (year month : Nat) : Nat :=
  if month = 2 then
    if year % 4 = 0 ∧ (year % 100 ≠ 0 ∨ year % 400 = 0) then 29 else 28
  else if month ∈ [4, 6, 9, 11] then 30
  else 31

def date : Reader Unit := do
  let year ← field 4 0 9999
  exactly "-"
  let month ← field 2 1 12
  exactly "-"
  let _ ← field 2 1 (daysIn year month)

/-- A time of the day, in which a minute may have 61 seconds. -/
def time : Reader Unit := do
  let _ ← field 2 0 23
  exactly ":"
  let _ ← field 2 0 59
  exactly ":"
  let _ ← field 2 0 60
  let _ ← optional do
    exactly "."
    let _ ← oneOf Char.isDigit
    takeWhile Char.isDigit

/-- The difference from universal time. -/
def offset : Reader Unit :=
  (do let _ ← oneOf fun c => c == 'Z' || c == 'z') <|> do
    let _ ← oneOf fun c => c == '+' || c == '-'
    let _ ← field 2 0 23
    exactly ":"
    let _ ← field 2 0 59

/-- A date, a date with a time and perhaps an offset, or a time. -/
def dateTime : Reader Toml := do
  let dated := do
    date
    let _ ← optional do
      let _ ← oneOf fun c => c == 'T' || c == 't' || c == ' '
      time
      optional offset
  let (_, text) ← withText (dated <|> time)
  return .dateTime text

def boolean : Reader Toml :=
  (do exactly "true"; return .boolean true) <|> (do exactly "false"; return .boolean false)

/-- A value without parts. -/
def scalar : Reader Toml :=
  (.string <$> string) <|> boolean <|> dateTime <|> float <|> integer

end Localization.Toml.Reader
