import Localization.Json.Lexer
import Localization.Proofs.Text.Units

namespace Localization.Json

variable {mode mode' : Mode} {c : Char} {read word rest : List Char} {token : Token}
  {tokens : List Token}

theorem lex_cons (mode : Mode) (c : Char) (rest : List Char) :
    lex mode (c :: rest) =
      (mode.step c).bind fun made => (lex made.2 rest).map (made.1 ++ ·) := by
  cases h : mode.step c with
  | none => simp [lex, h]
  | some made => simp [lex, h, Option.map_eq_bind]

/-- A character that completes no token only moves the reader on. -/
theorem lex_of_step (h : mode.step c = some ([], mode')) (rest : List Char) :
    lex mode (c :: rest) = lex mode' rest := by
  simp [lex_cons, h]

/-! Strings -/

/-- Characters are no surrogates, so each stands for itself among the code points. -/
theorem decodeUnits_map_toNat (s : List Char) : decodeUnits (s.map Char.toNat) = some s := by
  induction s with
  | nil => rfl
  | cons c s ih =>
    have hrange := Text.toNat_range c
    have hhigh : Text.isHighSurrogate c.toNat = false := by
      simp only [Text.isHighSurrogate, Bool.and_eq_false_iff, decide_eq_false_iff_not]
      omega
    have hlow : Text.isLowSurrogate c.toNat = false := by
      simp only [Text.isLowSurrogate, Bool.and_eq_false_iff, decide_eq_false_iff_not]
      omega
    rw [List.map_cons]
    unfold decodeUnits
    simp [hhigh, hlow, ih]

theorem ofUnits_reverse_map_toNat (text : String) :
    ofUnits (text.toList.reverse.map Char.toNat) = some text := by
  rw [ofUnits, List.map_reverse, List.reverse_reverse, decodeUnits_map_toNat, Option.map_some,
    String.ofList_toList]

/-- The ways to write a character between quotes. -/
inductive Escapes (c : Char) : List Char → Prop
  | short {letter : Char} (h : unescape? letter = some c) : Escapes c ['\\', letter]
  | unit {high low : Char} (h : Text.readHex4? '0' '0' high low = some c.toNat) :
    Escapes c ['\\', 'u', '0', '0', high, low]
  | plain (hquote : c ≠ '"') (hbackslash : c ≠ '\\') (hcontrol : 32 ≤ c.toNat) : Escapes c [c]

theorem escapes_escape (c : Char) : Escapes c (escape c) := by
  unfold escape
  split_ifs with hquote hbackslash hbackspace hfeed hline hreturn htab hcontrol
  · exact .short (congrArg some hquote.symm)
  · exact .short (congrArg some hbackslash.symm)
  · exact .short (congrArg some hbackspace.symm)
  · exact .short (congrArg some hfeed.symm)
  · exact .short (congrArg some hline.symm)
  · exact .short (congrArg some hreturn.symm)
  · exact .short (congrArg some htab.symm)
  · have hzero : Text.hexDigit? '0' = some 0 := rfl
    have hhigh := hexDigit?_lowerHexDigit (c.toNat / 16) (by omega)
    have hlow := hexDigit?_lowerHexDigit (c.toNat % 16) (Nat.mod_lt _ (by decide))
    have hsum : c.toNat / 16 * 16 + c.toNat % 16 = c.toNat := by omega
    exact .unit (by simp [Text.readHex4?, hzero, hhigh, hlow, hsum])
  · exact .plain hquote hbackslash (Nat.le_of_not_lt hcontrol)

theorem lex_short {letter : Char} (h : unescape? letter = some c) (units : List Nat)
    (rest : List Char) :
    lex (.text units) ('\\' :: letter :: rest) = lex (.text (c.toNat :: units)) rest := by
  have hu : letter ≠ 'u' := by
    rintro rfl
    cases h
  rw [lex_of_step rfl, lex_of_step]
  simp [Mode.step, hu, h]

/-- Four digits after the letter of an escape spell a unit. -/
theorem lex_unit {a b c d : Char} {unit : Nat} (h : Text.readHex4? a b c d = some unit)
    (units : List Nat) (rest : List Char) :
    lex (.text units) ('\\' :: 'u' :: a :: b :: c :: d :: rest) =
      lex (.text (unit :: units)) rest := by
  simp only [Text.readHex4?, bind, Option.bind_eq_some_iff] at h
  obtain ⟨high, ha, second, hb, third, hc, low, hd, hunit⟩ := h
  obtain rfl := Option.some.inj hunit
  rw [lex_of_step rfl, lex_of_step rfl]
  simp [lex_cons, Mode.step, ha, hb, hc, hd, Function.comp_def]

/-- A character is read back from how it is written between quotes. -/
theorem Escapes.lex_append {escaped : List Char} (h : Escapes c escaped) (units : List Nat)
    (rest : List Char) :
    lex (.text units) (escaped ++ rest) = lex (.text (c.toNat :: units)) rest := by
  cases h with
  | short h => exact lex_short h units rest
  | unit h => exact lex_unit h units rest
  | plain hquote hbackslash hcontrol =>
    refine lex_of_step ?_ rest
    simp [Mode.step, hquote, hbackslash, Nat.not_lt.2 hcontrol]

/-- How a character is written has no line end in it. -/
theorem Escapes.one_line {escaped : List Char} (h : Escapes c escaped) : '\n' ∉ escaped := by
  have hdigit {d : Char} {n : Nat} (hd : Text.hexDigit? d = some n) : '\n' ≠ d := by
    rintro rfl
    cases hd
  cases h with
  | @short letter h =>
    have hletter : '\n' ≠ letter := by
      rintro rfl
      cases h
    simp [hletter]
  | unit h =>
    simp only [Text.readHex4?, bind, Option.bind_eq_some_iff] at h
    obtain ⟨-, -, -, -, high, hhigh, low, hlow, -⟩ := h
    simp [hdigit hhigh, hdigit hlow]
  | plain hquote hbackslash hcontrol =>
    rw [List.mem_singleton]
    rintro rfl
    exact absurd hcontrol (by decide)

theorem lex_escapes (units : List Nat) (s rest : List Char) :
    lex (.text units) (s.flatMap escape ++ rest) =
      lex (.text (s.reverse.map Char.toNat ++ units)) rest := by
  induction s generalizing units with
  | nil => rfl
  | cons c s ih => rw [List.flatMap_cons, List.append_assoc, (escapes_escape c).lex_append, ih]; simp

theorem quote_some (text : String) :
    quote (some text) = '"' :: (text.toList.flatMap escape ++ ['"']) :=
  rfl

theorem quote_none : quote none = ['"', '\\', 'u', 'd', '8', '0', '0', '"'] :=
  rfl

/-- A string is read back from its quotation, one without text as well. -/
theorem lex_quote (text? : Option String) (rest : List Char) :
    lex .between (quote text? ++ rest) = (lex .between rest).map (.string text? :: ·) := by
  have hstart (rest : List Char) : lex .between ('"' :: rest) = lex (.text []) rest :=
    lex_of_step rfl rest
  have hend (units : List Nat) (rest : List Char) : lex (.text units) ('"' :: rest) =
      (lex .between rest).map (.string (ofUnits units) :: ·) := by
    rw [lex_cons]
    rfl
  cases text? with
  | none =>
    have hhalf : Text.readHex4? 'd' '8' '0' '0' = some 0xD800 := rfl
    simp only [quote_none, List.cons_append, List.nil_append]
    rw [hstart, lex_unit hhalf, hend]
    rfl
  | some text =>
    simp only [quote_some, List.cons_append, List.append_assoc, List.nil_append]
    rw [hstart, lex_escapes, List.append_nil, hend, ofUnits_reverse_map_toNat]

theorem not_mem_quote (text? : Option String) : '\n' ∉ quote text? := by
  cases text? with
  | none => decide
  | some text =>
    rw [quote_some]
    simp [List.mem_flatMap, (escapes_escape _).one_line]

/-! Words -/

/-- Whether a word that stands before the text ends there. -/
def Ends (rest : List Char) : Prop :=
  ∀ c ∈ rest.head?, isWordChar c = false

theorem ends_nil : Ends [] := by
  simp [Ends]

theorem startToken_of_isWordChar (h : isWordChar c) : startToken c = some ([], .word [c]) := by
  have hne {d : Char} (hd : isWordChar d = false) : (c == d) = false := by
    rw [beq_eq_false_iff_ne]
    rintro rfl
    simp [hd] at h
  have hblank : (c == ' ' || c == '\t' || c == '\n' || c == '\r') = false := by
    rw [hne (d := ' ') rfl, hne (d := '\t') rfl, hne (d := '\n') rfl, hne (d := '\r') rfl]
    rfl
  simp [startToken, hblank, hne (d := '[') rfl, hne (d := ']') rfl, hne (d := '\x7b') rfl,
    hne (d := '\x7d') rfl, hne (d := ',') rfl, hne (d := ':') rfl, hne (d := '"') rfl, h]

theorem lex_wordChars (h : word.all isWordChar) (read rest : List Char) :
    lex (.word read) (word ++ rest) = lex (.word (word.reverse ++ read)) rest := by
  induction word generalizing read with
  | nil => rfl
  | cons c word ih =>
    rw [List.all_cons, Bool.and_eq_true] at h
    have hstep : (Mode.word read).step c = some ([], .word (c :: read)) := if_pos h.1
    rw [List.cons_append, lex_of_step hstep, ih h.2]
    simp

/-- Where a word ends its token is complete, and the reader stands between tokens. -/
theorem lex_word_of_ends (htoken : wordToken? read.reverse = some token) (hrest : Ends rest) :
    lex (.word read) rest = (lex .between rest).map (token :: ·) := by
  cases rest with
  | nil => simp [lex, htoken]
  | cons c rest =>
    have hc : isWordChar c = false := hrest c rfl
    rw [lex_cons, lex_cons]
    cases hstart : startToken c <;> simp [Mode.step, hc, htoken, hstart, Function.comp_def]

theorem lex_word (hword : word.all isWordChar) (htoken : wordToken? word = some token)
    (hrest : Ends rest) : lex .between (word ++ rest) = (lex .between rest).map (token :: ·) := by
  cases word with
  | nil => cases htoken
  | cons c word =>
    rw [List.all_cons, Bool.and_eq_true] at hword
    have hstart : Mode.between.step c = some ([], .word [c]) := startToken_of_isWordChar hword.1
    rw [List.cons_append, lex_of_step hstart, lex_wordChars hword.2]
    exact lex_word_of_ends (by simpa using htoken) hrest

/-! Rows of tokens -/

/-- A token of one character, which is never a part of a word. -/
def Token.IsMark (t : Token) : Prop :=
  ∃ c, t.write = [c] ∧ startToken c = some ([t], .between)

/-- Tokens that are read back from how they are written in one line. -/
structure Legible (tokens : List Token) : Prop where
  lex_append : ∀ rest, Ends rest →
    lex .between (tokens.flatMap Token.write ++ rest) = (lex .between rest).map (tokens ++ ·)
  one_line : '\n' ∉ tokens.flatMap Token.write

theorem legible_nil : Legible [] where
  lex_append rest _ := by simp
  one_line := by simp

theorem legible_string (text? : Option String) : Legible [.string text?] where
  lex_append rest _ := by simpa [Token.write] using lex_quote text? rest
  one_line := by simpa [Token.write] using not_mem_quote text?

theorem legible_word (hword : token.write.all isWordChar)
    (htoken : wordToken? token.write = some token) : Legible [token] where
  lex_append rest hrest := by simpa using lex_word hword htoken hrest
  one_line := by
    rw [List.flatMap_singleton]
    intro hmem
    exact absurd (List.all_eq_true.1 hword _ hmem) (by decide)

/-- A mark may stand before any tokens. -/
theorem Legible.cons_mark (hmark : token.IsMark) (h : Legible tokens) : Legible (token :: tokens) := by
  obtain ⟨c, hwrite, hstart⟩ := hmark
  have hline : '\n' ≠ c := by
    rintro rfl
    cases hstart
  refine ⟨fun rest hrest => ?_, ?_⟩
  · rw [List.flatMap_cons, hwrite, List.append_assoc, List.singleton_append, lex_cons, Mode.step,
      hstart, Option.bind_some, h.lex_append rest hrest, Option.map_map]
    rfl
  · simp [List.flatMap_cons, hwrite, hline, h.one_line]

/-- A mark may stand after any tokens: a word ends before it. -/
theorem Legible.append_mark {before : List Token} (hbefore : Legible before)
    (hmark : token.IsMark) (h : Legible tokens) : Legible (before ++ token :: tokens) := by
  have hafter := h.cons_mark hmark
  obtain ⟨c, hwrite, hstart⟩ := hmark
  have hc : isWordChar c = false := by
    rw [Bool.eq_false_iff]
    intro hword
    rw [startToken_of_isWordChar hword] at hstart
    cases hstart
  refine ⟨fun rest hrest => ?_, ?_⟩
  · have hends : Ends ((token :: tokens).flatMap Token.write ++ rest) := by
      simp [Ends, List.flatMap_cons, hwrite, hc]
    rw [List.flatMap_append, List.append_assoc, hbefore.lex_append _ hends,
      hafter.lex_append rest hrest, Option.map_map]
    simp [Function.comp_def]
  · rw [List.flatMap_append, List.mem_append, not_or]
    exact ⟨hbefore.one_line, hafter.one_line⟩

end Localization.Json
