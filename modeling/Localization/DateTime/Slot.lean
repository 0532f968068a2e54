namespace Localization.DateTime

/-- Puts a text in place of every slot with this digit, a slot being a digit in braces. -/
def fillSlot (digit : Char) (text : List Char) : List Char → List Char
  | c :: d :: e :: rest =>
    if c = '\x7b' ∧ d = digit ∧ e = '\x7d' then text ++ fillSlot digit text rest
    else c :: fillSlot digit text (d :: e :: rest)
  | short => short
termination_by structural s => s

end Localization.DateTime
