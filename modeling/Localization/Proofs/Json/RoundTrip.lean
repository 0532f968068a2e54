import Localization.Json.Reader
import Localization.Proofs.Json.Lexing

namespace Localization.Json

/-- A value whose numbers are written as numerals. -/
inductive Standard : Json → Prop
  | null : Standard .null
  | bool (b : Bool) : Standard (.bool b)
  | number {numeral : String} (h : isNumeral numeral.toList) : Standard (.number numeral)
  | string (text? : Option String) : Standard (.string text?)
  | array {items : List Json} (h : ∀ v ∈ items, Standard v) : Standard (.array items)
  | object {members : List (Option String × Json)} (h : ∀ m ∈ members, Standard m.2) :
    Standard (.object members)

variable {v : Json} {items : List Json} {members : List (Option String × Json)}

/-! From text to tokens -/

theorem wordToken?_of_isNumeral {s : List Char} (h : isNumeral s) :
    wordToken? s = some (.number (String.ofList s)) := by
  have hne (name : List Char) (hname : isNumeral name = false) : s ≠ name := by
    rintro rfl
    simp [hname] at h
  have hnull := hne "null".toList (by decide)
  have htrue := hne "true".toList (by decide)
  have hfalse := hne "false".toList (by decide)
  simp only [wordToken?, if_neg hnull, if_neg htrue, if_neg hfalse, if_pos h]

theorem legible_number {numeral : String} (h : isNumeral numeral.toList) :
    Legible [.number numeral] :=
  legible_word (all_isWordChar_of_isNumeral h) <| by
    rw [Token.write, wordToken?_of_isNumeral h, String.ofList_toList]

/-- Items are read back if each of them is. -/
theorem legible_itemTokens (h : ∀ v ∈ items, Legible v.tokens) : Legible (itemTokens items) := by
  have hcomma : Token.comma.IsMark := ⟨',', rfl, rfl⟩
  induction items with
  | nil => exact legible_nil
  | cons v rest ih =>
    obtain ⟨hv, hrest⟩ := List.forall_mem_cons.1 h
    cases rest with
    | nil => exact hv
    | cons w rest => exact hv.append_mark hcomma (ih hrest)

/-- Members are read back if the values of all of them are. -/
theorem legible_memberTokens (h : ∀ m ∈ members, Legible m.2.tokens) :
    Legible (memberTokens members) := by
  have hcomma : Token.comma.IsMark := ⟨',', rfl, rfl⟩
  have hcolon : Token.colon.IsMark := ⟨':', rfl, rfl⟩
  induction members with
  | nil => exact legible_nil
  | cons m rest ih =>
    obtain ⟨name?, v⟩ := m
    obtain ⟨hv, hrest⟩ := List.forall_mem_cons.1 h
    have hmember := (legible_string name?).append_mark hcolon hv
    cases rest with
    | nil => exact hmember
    | cons next rest => exact hmember.append_mark hcomma (ih hrest)

theorem Standard.legible_tokens (h : v.Standard) : Legible v.tokens := by
  induction h with
  | null => exact legible_word (by decide) rfl
  | bool b => cases b <;> exact legible_word (by decide) rfl
  | number h => exact legible_number h
  | string text? => exact legible_string text?
  | array h ih =>
    have hopen : Token.openArray.IsMark := ⟨'[', rfl, rfl⟩
    have hclose : Token.closeArray.IsMark := ⟨']', rfl, rfl⟩
    exact ((legible_itemTokens ih).append_mark hclose legible_nil).cons_mark hopen
  | object h ih =>
    have hopen : Token.openObject.IsMark := ⟨'\x7b', rfl, rfl⟩
    have hclose : Token.closeObject.IsMark := ⟨'\x7d', rfl, rfl⟩
    exact ((legible_memberTokens ih).append_mark hclose legible_nil).cons_mark hopen

/-! From tokens to values -/

/-- A value that is made out of its tokens wherever a value is expected. -/
def Spelled (v : Json) : Prop :=
  ∀ frames, v.tokens.foldlM State.step (.value frames) = some (.after v frames)

/-- No value starts with the end of an array, so where there is an item the first one is read. -/
theorem exists_itemTokens_eq_cons (v : Json) (rest : List Json) :
    ∃ t tokens, itemTokens (v :: rest) = t :: tokens ∧ t ≠ .closeArray := by
  cases rest <;> cases v <;> exact ⟨_, _, rfl, nofun⟩

theorem step_firstItem {t : Token} (h : t ≠ .closeArray) (frames : List Frame) :
    State.step (.firstItem frames) t = State.step (.value (.item [] :: frames)) t := by
  cases t with
  | closeArray => contradiction
  | _ => rfl

/-- The items of an array, after those before them, up to the end of the array. -/
theorem foldlM_itemTokens {rest : List Json} (h : ∀ w ∈ v :: rest, w.Spelled) (before : List Json)
    (frames : List Frame) :
    (itemTokens (v :: rest) ++ [Token.closeArray]).foldlM State.step
        (.value (.item before :: frames)) =
      some (.after (.array (before.reverse ++ v :: rest)) frames) := by
  induction rest generalizing v before with
  | nil =>
    have hv := h v List.mem_cons_self
    rw [itemTokens, List.foldlM_append, hv]
    simp [State.step]
  | cons w rest ih =>
    obtain ⟨hv, hrest⟩ := List.forall_mem_cons.1 h
    have htokens : itemTokens (v :: w :: rest) = v.tokens ++ .comma :: itemTokens (w :: rest) := rfl
    rw [htokens, List.append_assoc, List.foldlM_append, hv]
    simpa [State.step] using ih hrest (v :: before)

/-- The members of an object, after those before them, up to the end of the object. -/
theorem foldlM_memberTokens {m : Option String × Json} {rest : List (Option String × Json)}
    (h : ∀ w ∈ m :: rest, w.2.Spelled) (before : List (Option String × Json))
    (frames : List Frame) :
    (memberTokens (m :: rest) ++ [Token.closeObject]).foldlM State.step (.name before frames) =
      some (.after (.object (before.reverse ++ m :: rest)) frames) := by
  induction rest generalizing m before with
  | nil =>
    have hv := h m List.mem_cons_self (.member before m.1 :: frames)
    rw [memberTokens, List.cons_append, List.cons_append]
    simp [State.step, List.foldlM_append, hv]
  | cons w rest ih =>
    obtain ⟨hm, hrest⟩ := List.forall_mem_cons.1 h
    have hv := hm (.member before m.1 :: frames)
    have htokens : memberTokens (m :: w :: rest) =
      .string m.1 :: .colon :: (m.2.tokens ++ .comma :: memberTokens (w :: rest)) := rfl
    rw [htokens]
    simpa [State.step, List.foldlM_append, hv] using ih hrest (m :: before)

theorem Standard.spelled (h : v.Standard) : v.Spelled := by
  induction h with
  | null => exact fun _ => rfl
  | bool b => exact fun _ => rfl
  | number h => exact fun _ => rfl
  | string text? => exact fun _ => rfl
  | @array items h ih =>
    intro frames
    cases items with
    | nil => rfl
    | cons v rest =>
      -- The first item is read where the array could also end, the others only where one is due.
      have hitems := foldlM_itemTokens ih [] frames
      obtain ⟨t, tokens, htokens, hclose⟩ := exists_itemTokens_eq_cons v rest
      rw [htokens, List.cons_append, List.foldlM_cons, ← step_firstItem hclose] at hitems
      rw [Json.tokens, htokens]
      exact hitems
  | @object members h ih =>
    intro frames
    cases members with
    | nil => rfl
    | cons m rest => cases rest <;> exact foldlM_memberTokens ih [] frames

/-- A value is read back from its line. -/
theorem Standard.parse?_render (h : v.Standard) : parse? v.render = some v := by
  have hlex : lex .between v.render.toList = some v.tokens := by
    simpa [render, lex] using h.legible_tokens.lex_append [] ends_nil
  have hspelled := h.spelled []
  simp [parse?, hlex, ofTokens?, hspelled]

/-- A value is written in one line. -/
theorem Standard.not_mem_render (h : v.Standard) : '\n' ∉ v.render.toList := by
  rw [render, String.toList_ofList]
  exact h.legible_tokens.one_line

end Localization.Json
