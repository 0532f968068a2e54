import Localization.Text.Blank

namespace Localization.Properties

/-- The lines of a text. A line ends at a line feed, and a carriage return just before that is part
of the line's end; the last line may lack its end. -/
def lines : List Char → List (List Char)
  | [] => []
  | '\n' :: rest => [] :: lines rest
  | '\r' :: '\n' :: rest => [] :: lines rest
  | c :: rest =>
    match lines rest with
    | [] => [[c]]
    | line :: more => (c :: line) :: more

/-- Whether a line ends in an odd number of backslashes, so that the last one is not escaped. -/
def continues (line : List Char) : Bool :=
  (line.reverse.takeWhile (· == '\\')).length % 2 == 1

/-- Whether a line that starts here is blank or a comment. -/
def isSkipped : List Char → Bool
  | [] => true
  | c :: _ => c == '#' || c == '!'

/-- A line of properties text with the lines that continue it. -/
structure LogicalLine where
  /-- The number of its first line, counted from 1. -/
  number : Nat
  text : List Char
deriving DecidableEq

/-- What a line makes of the logical line left open before it: it goes on with that one, without the
blanks at its start. If none is open it starts a new one, unless it is to be skipped. -/
def extend (number : Nat) (line : List Char) : Option LogicalLine → Option LogicalLine
  | some l => some { l with text := l.text ++ Text.trimLeft line }
  | none =>
    if isSkipped (Text.trimLeft line) then none else some { number, text := Text.trimLeft line }

/-- The logical lines among the lines numbered from `number` on, given the one that the lines
before left open. A line that continues loses its last backslash and stays open; the end of the text
closes it. -/
def logicalLines (number : Nat) (pending : Option LogicalLine) :
    List (List Char) → List LogicalLine
  | [] => pending.toList
  | line :: rest =>
    match extend number line pending with
    | none => logicalLines (number + 1) none rest
    | some l =>
      if continues l.text then
        logicalLines (number + 1) (some { l with text := l.text.dropLast }) rest
      else l :: logicalLines (number + 1) none rest

end Localization.Properties
