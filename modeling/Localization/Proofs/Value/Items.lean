import Localization.Proofs.Properties.Escaped

namespace Localization.Value

/-- Whether a character is a comma that separates, given what stands before it: the backslashes right
before it are even in number. -/
def separates (before : List Char) (c : Char) : Bool :=
  c == ',' && !Properties.continues before

/-- The characters of a text, each with whether it is a comma that separates, given what stands
before the text. -/
def marked (before : List Char) : List Char → List (Char × Bool)
  | [] => []
  | c :: rest => (c, separates before c) :: marked (before ++ [c]) rest

/-- The pieces of a text between the commas that separate. -/
def pieces (before text : List Char) : List (List Char) :=
  ((marked before text).splitOnP (·.2)).map (·.map (·.1))

/-- The text without the backslash that stands right before a comma. -/
def unescapeCommas : List Char → List Char
  | [] => []
  | '\\' :: ',' :: rest => ',' :: unescapeCommas rest
  | c :: rest => c :: unescapeCommas rest

/-- The text with a backslash before each comma. -/
def escapeCommas (text : List Char) : List Char :=
  text.flatMap fun c => if c = ',' then ['\\', ','] else [c]

/-- The text that lists some items. -/
def joined (items : List String) : String :=
  ",".intercalate (items.map fun item => String.ofList (escapeCommas item.toList))

/-- Whether an item can be listed as it is: it has no backslash, and no blanks around it. -/
structure Listable (item : String) : Prop where
  no_escape : '\\' ∉ item.toList
  trimmed : Text.trim item.toList = item.toList

/-! Pieces -/

theorem pieces_cons (before : List Char) (c : Char) (rest : List Char) :
    pieces before (c :: rest) =
      if separates before c then [] :: pieces (before ++ [c]) rest
      else (pieces (before ++ [c]) rest).modifyHead (c :: ·) := by
  simp only [pieces, marked, List.splitOnP_cons_eq_if_modifyHead]
  split
  · rfl
  · cases (marked (before ++ [c]) rest).splitOnP (·.2) <;> rfl

theorem pieces_ne_nil (before text : List Char) : pieces before text ≠ [] := by
  simp [pieces, List.splitOnP_ne_nil]

theorem length_pieces (before text : List Char) :
    (pieces before text).length = (marked before text).countP (·.2) + 1 := by
  induction text generalizing before with
  | nil => rfl
  | cons c rest ih =>
    rw [pieces_cons, marked, List.countP_cons]
    split <;> simp [*]

theorem intercalate_pieces (before text : List Char) :
    [','].intercalate (pieces before text) = text := by
  induction text generalizing before with
  | nil => rfl
  | cons c rest ih =>
    have hrest := ih (before ++ [c])
    rw [pieces_cons]
    cases hpieces : pieces (before ++ [c]) rest with
    | nil => exact absurd hpieces (pieces_ne_nil _ _)
    | cons first others =>
      rw [hpieces] at hrest
      split
      · rename_i hsep
        obtain ⟨rfl, -⟩ : c = ',' ∧ _ := by simpa [separates] using hsep
        rw [List.intercalate_cons_cons, hrest]
        rfl
      · rw [List.modifyHead_cons, ← hrest]
        cases others <;> simp [List.intercalate_cons_cons]

/-- Behind an even number of backslashes a comma separates, so that no piece starts with one. -/
theorem head_pieces_ne_comma {before : List Char} (h : Properties.continues before = false)
    (text : List Char) : ∀ first ∈ (pieces before text).head?, first.head? ≠ some ',' := by
  cases text with
  | nil => simp [pieces, marked]
  | cons c rest =>
    rw [pieces_cons]
    split
    · simp
    · rename_i hsep
      have hc : c ≠ ',' := by simpa [separates, h] using hsep
      cases pieces (before ++ [c]) rest <;> simp [hc]

/-! The scan -/

theorem continues_plain {c : Char} (hc : c ≠ '\\') (before : List Char) :
    Properties.continues (before ++ [c]) = false := by
  simp [Properties.continues_concat, hc]

theorem continues_pair {before : List Char} (h : Properties.continues before = false) (c : Char) :
    Properties.continues (before ++ ['\\', c]) = false := by
  have hpair : Properties.Whole ['\\', c] := .pair .nil
  exact hpair.not_continues h

/-- A backslash and the character behind it stay in one piece. -/
theorem pieces_pair {before : List Char} (h : Properties.continues before = false) (c : Char)
    (rest : List Char) : pieces before ('\\' :: c :: rest) =
      (pieces (before ++ ['\\', c]) rest).modifyHead ('\\' :: c :: ·) := by
  have hescape : separates before '\\' = false := by simp [separates]
  have hescaped : separates (before ++ ['\\']) c = false := by
    simp [separates, Properties.continues_concat, h]
  rw [pieces_cons, if_neg (by simp [hescape]), pieces_cons, if_neg (by simp [hescaped]),
    List.append_assoc, List.singleton_append]
  cases pieces (before ++ ['\\', c]) rest <;> rfl

theorem unescapeCommas_cons {c : Char} {rest : List Char} (h : c = '\\' → rest.head? ≠ some ',') :
    unescapeCommas (c :: rest) = c :: unescapeCommas rest := by
  rw [unescapeCommas]
  rintro rest' rfl rfl
  exact h rfl rfl

/-- The scan, which takes a backslash together with the character behind it, goes by whether the
backslashes before a comma are even or odd in number. -/
theorem splitCommas_eq {before : List Char} (h : Properties.continues before = false)
    (text : List Char) : splitCommas text = (pieces before text).map unescapeCommas := by
  fun_induction splitCommas text generalizing before with
  | case1 => rfl
  | case2 rest ih =>
    have hsep : separates before ',' = true := by simp [separates, h]
    rw [pieces_cons, if_pos hsep, List.map_cons, ih (continues_plain (c := ',') (by decide) before)]
    rfl
  | case3 rest ih =>
    rw [ih (continues_pair h ','), pieces_pair h]
    cases pieces (before ++ ['\\', ',']) rest <;> rfl
  | case4 c rest hc ih =>
    have hafter := continues_pair h c
    have hhead := head_pieces_ne_comma hafter rest
    rw [ih hafter, pieces_pair h]
    cases hpieces : pieces (before ++ ['\\', c]) rest with
    | nil => rfl
    | cons first others =>
      have hfirst : first.head? ≠ some ',' := hhead first (by simp [hpieces])
      rw [List.map_cons, List.modifyHead_cons, List.modifyHead_cons, List.map_cons,
        unescapeCommas_cons fun _ => by simpa using hc, unescapeCommas_cons fun _ => hfirst]
  | case5 c rest hcomma _ hpair ih =>
    have hsep : separates before c = false := by simpa [separates] using fun hc => absurd hc hcomma
    rw [pieces_cons, if_neg (by simp [hsep])]
    by_cases hc : c = '\\'
    · -- A backslash that nothing follows ends the text.
      obtain rfl : rest = [] := List.eq_nil_iff_forall_not_mem.2 fun d hd => by
        obtain ⟨e, rest, rfl⟩ := List.exists_cons_of_ne_nil (List.ne_nil_of_mem hd)
        exact hpair e rest hc rfl
      subst hc
      rfl
    · rw [ih (continues_plain hc before)]
      cases pieces (before ++ [c]) rest with
      | nil => rfl
      | cons first others =>
        rw [List.map_cons, List.modifyHead_cons, List.modifyHead_cons, List.map_cons,
          unescapeCommas_cons fun h => absurd h hc]

/-! Items joined and split -/

/-- An item that is written with its commas escaped stays in one piece. -/
theorem splitCommas_escapeCommas_append {item : List Char} (h : '\\' ∉ item) (rest : List Char) :
    splitCommas (escapeCommas item ++ rest) = (splitCommas rest).modifyHead (item ++ ·) := by
  induction item with
  | nil => cases hrest : splitCommas rest <;> simp [escapeCommas, hrest]
  | cons c item ih =>
    simp only [List.mem_cons, not_or] at h
    have hitem := ih h.2
    by_cases hc : c = ','
    · subst hc
      rw [escapeCommas, List.flatMap_cons, if_pos rfl]
      change splitCommas ('\\' :: ',' :: (escapeCommas item ++ rest)) = _
      rw [splitCommas, hitem, List.modifyHead_modifyHead]
      rfl
    · rw [escapeCommas, List.flatMap_cons, if_neg hc]
      change splitCommas (c :: (escapeCommas item ++ rest)) = _
      rw [splitCommas, hitem, List.modifyHead_modifyHead]
      · rfl
      · exact hc
      · exact fun _ h' => absurd h' (Ne.symm h.1)
      · exact fun _ _ h' => absurd h' (Ne.symm h.1)

theorem splitCommas_joined {items : List (List Char)} (hne : items ≠ [])
    (h : ∀ item ∈ items, '\\' ∉ item) :
    splitCommas ([','].intercalate (items.map escapeCommas)) = items := by
  induction items with
  | nil => exact absurd rfl hne
  | cons item rest ih =>
    obtain ⟨hitem, hrest⟩ := List.forall_mem_cons.1 h
    cases rest with
    | nil => simpa [splitCommas] using splitCommas_escapeCommas_append hitem []
    | cons next rest =>
      rw [List.map_cons, List.map_cons, List.intercalate_cons_cons, List.append_assoc,
        splitCommas_escapeCommas_append hitem, List.singleton_append, splitCommas,
        ← List.map_cons, ih (List.cons_ne_nil _ _) hrest, List.modifyHead_cons, List.append_nil]

theorem toList_joined (items : List String) : (joined items).toList =
    [','].intercalate ((items.map String.toList).map escapeCommas) := by
  simp [joined, String.toList_intercalate, Function.comp_def]

theorem escapeCommas_eq_nil_iff (text : List Char) : escapeCommas text = [] ↔ text = [] := by
  cases text with
  | nil => simp [escapeCommas]
  | cons c text =>
    rw [escapeCommas, List.flatMap_cons]
    split <;> simp

theorem joined_eq_empty_iff (items : List String) :
    joined items = "" ↔ items = [] ∨ items = [""] := by
  rw [← String.toList_inj, toList_joined]
  match items with
  | [] => simp
  | [item] => simp [escapeCommas_eq_nil_iff]
  | item :: next :: rest => simp [List.intercalate_cons_cons]

/-- A text that is not empty has an item for each of the pieces between its separating commas, one
more than those commas: the piece without the backslashes of the commas in it, and without the blanks
around it. Items that can be listed as they are come back from the text that lists them, unless they
are a single empty one. -/
theorem toList_exact :
    (∀ text : String, text ≠ "" →
      [','].intercalate (pieces [] text.toList) = text.toList ∧
      (Value.text text).toList = (pieces [] text.toList).map (fun piece =>
        String.ofList (Text.trim (unescapeCommas piece))) ∧
      (Value.text text).toList.length = (marked [] text.toList).countP (·.2) + 1) ∧
    ∀ items : List String, (∀ item ∈ items, Listable item) →
      ((Value.text (joined items)).toList = items ↔ items ≠ [""]) := by
  have hnone : Properties.continues [] = false := rfl
  constructor
  · intro text hne
    have hitems : (Value.text text).toList = (pieces [] text.toList).map (fun piece =>
        String.ofList (Text.trim (unescapeCommas piece))) := by
      rw [toList, if_neg hne, splitCommas_eq hnone, List.map_map]
      rfl
    refine ⟨intercalate_pieces [] text.toList, hitems, ?_⟩
    rw [hitems, List.length_map, length_pieces]
  · intro items hlistable
    rw [toList]
    by_cases hempty : joined items = ""
    · rw [if_pos hempty]
      rcases (joined_eq_empty_iff items).1 hempty with rfl | rfl <;> simp
    · have hne := mt (joined_eq_empty_iff items).2 hempty
      rw [not_or] at hne
      have hplain : ∀ item ∈ items.map String.toList, '\\' ∉ item :=
        List.forall_mem_map.2 fun item hitem => (hlistable item hitem).no_escape
      have hsplit := splitCommas_joined (by simpa using hne.1) hplain
      rw [if_neg hempty, toList_joined, hsplit, List.map_map]
      refine iff_of_true ?_ hne.2
      rw [List.map_congr_left (g := id), List.map_id]
      intro item hitem
      simp [(hlistable item hitem).trimmed]

/-- Commas behind one, two and three backslashes and behind none, blanks around and within the
pieces, and items with nothing or a comma in them. -/
theorem toList_exact_quarters :
    (Value.text " Q\\,1 ,\\\\, a b\\\\\\,,").toList = ["Q,1", "\\\\", "a b\\\\,", ""] ∧
      (∀ item ∈ [",", "Q1", "", "x y"], Listable item) ∧
      (Value.text "\\,,Q1,,x y").toList = [",", "Q1", "", "x y"] := by
  have hlistable : ∀ item ∈ [",", "Q1", "", "x y"], Listable item := by
    intro item hitem
    simp only [List.mem_cons, List.not_mem_nil, or_false] at hitem
    rcases hitem with rfl | rfl | rfl | rfl <;> exact ⟨by decide, by decide⟩
  have hitems := (toList_exact.1 " Q\\,1 ,\\\\, a b\\\\\\,," (by decide)).2.1
  exact ⟨hitems.trans rfl, hlistable, (toList_exact.2 _ hlistable).2 (by decide)⟩

end Localization.Value
