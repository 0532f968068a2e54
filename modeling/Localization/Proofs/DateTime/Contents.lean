import Localization.Proofs.Catalog.Extension
import Localization.Proofs.DateTime.Complete
import Mathlib.Data.Nat.Digits.Defs

namespace Localization

namespace Value

theorem text?_eq_some_iff {value : Value} {text : String} :
    value.text? = some text ↔ value = .text text := by
  cases value <;> simp [text?]

theorem list?_eq_some_iff {value : Value} {items : List String} :
    value.list? = some items ↔ value = .list items := by
  cases value <;> simp [list?]

end Value

namespace Resolution

/-- Whether a bundle is the nearest in the chain that has a default value for a key, with which
value. -/
def Nearest (r : Resolution) (key : String) (b : Bundle) (value : Value) : Prop :=
  ∃ nearer farther, r.bundles = nearer ++ b :: farther ∧ (∀ x ∈ nearer, x.default? key = none) ∧
    b.default? key = some value

/-- What is found for a key is the value of the nearest bundle. -/
theorem exists_nearest_iff {r : Resolution} {key : String} {P : Locale → Value → Prop} :
    (∃ b value, r.Nearest key b value ∧ P b.locale value) ↔
      ∃ found, r.findDefault? key = some found ∧ P found.locale found.value := by
  simp only [findDefault?, List.findSome?_eq_some_iff, Bundle.defaultBinding?,
    Option.map_eq_some_iff, Option.map_eq_none_iff]
  constructor
  · rintro ⟨b, value, ⟨nearer, farther, hsplit, hnearer, hvalue⟩, hP⟩
    exact ⟨_, ⟨nearer, b, farther, hsplit, ⟨value, hvalue, rfl⟩, hnearer⟩, hP⟩
  · rintro ⟨_, ⟨nearer, b, farther, hsplit, ⟨value, hvalue, rfl⟩, hnearer⟩, hP⟩
    exact ⟨b, value, ⟨nearer, farther, hsplit, hnearer, hvalue⟩, hP⟩

end Resolution

namespace DateTime

/-! What is said and what is asked for -/

/-- Whether a text is a numeral of a number: decimal digits, perhaps with a plus sign in front of
them and with blanks around. -/
def IsNumeral (text : String) (n : Nat) : Prop :=
  ∃ sign digits, Text.trim text.toList = sign ++ digits ∧ (sign = [] ∨ sign = ['+']) ∧
    digits ≠ [] ∧ (∀ c ∈ digits, c.isDigit) ∧
    Nat.ofDigits 10 (digits.reverse.map fun c => c.toNat - '0'.toNat) = n

theorem ofDigitChars_eq_ofDigits (digits : List Char) : Nat.ofDigitChars 10 digits 0 =
    Nat.ofDigits 10 (digits.reverse.map fun c => c.toNat - '0'.toNat) := by
  rw [Nat.ofDigits_eq_foldr, List.map_reverse, List.foldr_reverse, List.foldl_map,
    Nat.ofDigitChars]
  simp only [Nat.cast_id, Nat.add_comm]

/-- A sign is taken off before the digits are read, and no digit is a sign. -/
theorem isNumeral_iff {text : String} {n : Nat} : IsNumeral text n ↔
    let numeral := Text.trim text.toList
    let digits := if numeral.head? = some '+' then numeral.tail else numeral
    digits ≠ [] ∧ (∀ c ∈ digits, c.isDigit) ∧ Nat.ofDigitChars 10 digits 0 = n := by
  simp only [IsNumeral, ← ofDigitChars_eq_ofDigits]
  constructor
  · rintro ⟨sign, digits, hsplit, rfl | rfl, hne, hdigits, hn⟩
    · have hsign : digits.head? ≠ some '+' := fun hhead =>
        absurd (hdigits _ (List.mem_of_head? hhead)) (by decide)
      rw [hsplit, List.nil_append, if_neg hsign]
      exact ⟨hne, hdigits, hn⟩
    · rw [hsplit]
      exact ⟨hne, hdigits, hn⟩
  · intro h
    split at h
    · rename_i hsign
      exact ⟨['+'], _, (List.cons_head?_tail hsign).symm, .inr rfl, h⟩
    · exact ⟨[], _, rfl, .inl rfl, h⟩

theorem readDay?_eq_some_iff {text : String} {day : Fin 7} :
    readDay? text = some day ↔ IsNumeral text day := by
  rw [isNumeral_iff, readDay?]
  simp only [Option.dite_none_right_eq_some, Option.some.injEq, Fin.ext_iff, List.all_eq_true]
  constructor
  · rintro ⟨⟨hne, hdigits, -⟩, hday⟩
    exact ⟨hne, hdigits, hday⟩
  · rintro ⟨hne, hdigits, hday⟩
    exact ⟨⟨hne, hdigits, hday ▸ day.isLt⟩, hday⟩

theorem ofCount?_eq_some_iff {count : Nat} {items : List String} {names : Vector String count} :
    ofCount? count items = some names ↔ items = names.toList := by
  simp only [ofCount?, Option.dite_none_right_eq_some, Option.some.injEq]
  constructor
  · rintro ⟨hlength, rfl⟩
    rfl
  · rintro rfl
    exact ⟨names.length_toList, rfl⟩

/-- What a field of the formats can hold. -/
inductive Content where
  | pattern (text : String)
  | names (items : List String)
  | day (n : Nat)

/-- Whether a value says what a field holds. -/
def Content.IsOf : Content → Value → Prop
  | pattern text, value => value = .text text
  | names items, value => value = .list items
  | day n, value => ∃ text, value = .text text ∧ IsNumeral text n

def Patterns.contents (stem : String) (p : Patterns) : List (String × Content) :=
  [(stem ++ "Full", .pattern p.full), (stem ++ "Long", .pattern p.long),
    (stem ++ "Medium", .pattern p.medium), (stem ++ "Short", .pattern p.short)]

def Skeletons.contents (s : Skeletons) : List (String × Content) :=
  [("formatDay", .pattern s.day), ("formatHour12Minute", .pattern s.hour12Minute),
    ("formatHour12MinuteSecond", .pattern s.hour12MinuteSecond),
    ("formatHour24Minute", .pattern s.hour24Minute),
    ("formatHour24MinuteSecond", .pattern s.hour24MinuteSecond),
    ("formatMinuteSecond", .pattern s.minuteSecond), ("formatMonthAbbrev", .pattern s.monthAbbrev),
    ("formatMonthAbbrevDay", .pattern s.monthAbbrevDay), ("formatMonthFull", .pattern s.monthFull),
    ("formatMonthFullDay", .pattern s.monthFullDay),
    ("formatMonthFullWeekdayDay", .pattern s.monthFullWeekdayDay),
    ("formatMonthNumDay", .pattern s.monthNumDay), ("formatYear", .pattern s.year),
    ("formatYearMonthAbbrev", .pattern s.yearMonthAbbrev),
    ("formatYearMonthAbbrevDay", .pattern s.yearMonthAbbrevDay),
    ("formatYearMonthFull", .pattern s.yearMonthFull),
    ("formatYearMonthFullDay", .pattern s.yearMonthFullDay),
    ("formatYearMonthNum", .pattern s.yearMonthNum),
    ("formatYearMonthNumDay", .pattern s.yearMonthNumDay),
    ("formatYearMonthWeekdayDay", .pattern s.yearMonthWeekdayDay),
    ("formatYearQuarterFull", .pattern s.yearQuarterFull),
    ("formatYearQuarterShort", .pattern s.yearQuarterShort)]

/-- What the fields hold, each with the key that it is read from. -/
def Formats.contents (f : Formats) : List (String × Content) :=
  f.datePatterns.contents "dateFormat" ++ f.timePatterns.contents "timeFormat" ++
    f.gluePatterns.contents "dateTime" ++ f.skeletons.contents ++
    [("ampms", .names f.ampms.toList), ("erasFull", .names f.erasFull.toList),
      ("erasShort", .names f.erasShort.toList), ("monthsFull", .names f.monthsFull.toList),
      ("monthsNarrow", .names f.monthsNarrow.toList), ("monthsShort", .names f.monthsShort.toList),
      ("quartersFull", .names f.quartersFull.toList),
      ("quartersShort", .names f.quartersShort.toList),
      ("weekdaysFull", .names f.weekdaysFull.toList),
      ("weekdaysNarrow", .names f.weekdaysNarrow.toList),
      ("weekdaysShort", .names f.weekdaysShort.toList),
      ("firstDayOfTheWeek", .day f.firstDayOfTheWeek), ("weekendStart", .day f.weekendStart),
      ("weekendEnd", .day f.weekendEnd)]

/-- No key is read twice, and none is left out. -/
theorem Formats.keys_contents (f : Formats) : f.contents.map (·.1) = demands.map (·.key) := rfl

/-- Whether the nearest value for a key says what a field holds. -/
def Says (r : Resolution) (field : String × Content) : Prop :=
  ∃ b value, r.Nearest field.1 b value ∧ field.2.IsOf value

variable {r : Resolution} {key : String}

/-- A reader that takes just the values with some content finds what is said. -/
theorem ofShape_eq_ok_iff_says {α : Type} {shape : Shape} {read : Value → Option α} {a : α}
    {content : Content} (hread : ∀ value, read value = some a ↔ content.IsOf value) :
    ofShape r key shape read = .ok a ↔ Says r (key, content) := by
  rw [ofShape_eq_ok_iff]
  simp only [hread]
  exact (Resolution.exists_nearest_iff (P := fun _ => content.IsOf)).symm

theorem patternOf_eq_ok_iff_says {text : String} :
    patternOf r key = .ok text ↔ Says r (key, .pattern text) :=
  ofShape_eq_ok_iff_says fun _ => Value.text?_eq_some_iff

theorem namesOf_eq_ok_iff_says {count : Nat} {names : Vector String count} :
    namesOf r key = .ok names ↔ Says r (key, .names names.toList) := by
  refine ofShape_eq_ok_iff_says fun value => ?_
  simp only [Option.bind_eq_some_iff, Value.list?_eq_some_iff, ofCount?_eq_some_iff,
    existsAndEq, and_true]
  rfl

theorem dayOf_eq_ok_iff_says {day : Fin 7} : dayOf r key = .ok day ↔ Says r (key, .day day) := by
  refine ofShape_eq_ok_iff_says fun value => ?_
  simp only [Option.bind_eq_some_iff, Value.text?_eq_some_iff, readDay?_eq_some_iff]
  rfl

theorem patternsOf_eq_ok_iff_says {stem : String} {p : Patterns} :
    patternsOf r stem = .ok p ↔ ∀ field ∈ p.contents stem, Says r field := by
  simp only [patternsOf_eq_ok_iff, patternOf_eq_ok_iff_says, Patterns.contents,
    List.forall_mem_cons, List.not_mem_nil, IsEmpty.forall_iff, implies_true, and_true]

theorem skeletonsOf_eq_ok_iff_says {s : Skeletons} :
    skeletonsOf r = .ok s ↔ ∀ field ∈ s.contents, Says r field := by
  cases s
  simp only [skeletonsOf, bind_eq_ok_iff, pure, Except.pure, Except.ok.injEq, Skeletons.mk.injEq,
    existsAndEq, and_true, patternOf_eq_ok_iff_says, Skeletons.contents, List.forall_mem_cons,
    List.not_mem_nil, IsEmpty.forall_iff, implies_true]

theorem Formats.ofResolution_eq_ok_iff {f : Formats} : Formats.ofResolution r = .ok f ↔
    (∀ field ∈ f.contents, Says r field) ∧ f.locale = r.effective := by
  cases f
  simp only [Formats.ofResolution, bind_eq_ok_iff, pure, Except.pure, Except.ok.injEq,
    Formats.mk.injEq, existsAndEq, and_true, patternsOf_eq_ok_iff_says, skeletonsOf_eq_ok_iff_says,
    namesOf_eq_ok_iff_says, dayOf_eq_ok_iff_says, Formats.contents, List.forall_mem_append,
    List.forall_mem_cons, List.not_mem_nil, IsEmpty.forall_iff, implies_true, and_assoc,
    eq_comm (a := r.effective)]

/-! Demands that are met and those that are not -/

namespace Demand

theorem fits_pattern_iff {value : Value} :
    (pattern key).fits value ↔ ∃ text, value = .text text := by
  cases value <;> simp [pattern, Value.text?]

theorem fits_names_iff {count : Nat} {value : Value} :
    (names count key).fits value ↔ ∃ items, value = .list items ∧ items.length = count := by
  cases value <;> simp [names, Value.list?, ofCount?]

theorem fits_day_iff {value : Value} :
    (day key).fits value ↔ ∃ text n, value = .text text ∧ IsNumeral text n ∧ n < 7 := by
  cases value with
  | list items => simp [day, Value.text?]
  | text text =>
    simp [day, Value.text?, Option.isSome_iff_exists, readDay?_eq_some_iff, Fin.exists_iff,
      and_comm]

/-- Whether the nearest value for the key of a demand has the shape that it asks for. -/
def Met (d : Demand) (r : Resolution) : Prop :=
  ∃ b value, r.Nearest d.key b value ∧ d.fits value

theorem fault?_eq_none_iff {d : Demand} : d.fault? r = none ↔ d.Met r := by
  rw [Met, Resolution.exists_nearest_iff (P := fun _ value => d.fits value), fault?]
  cases r.findDefault? d.key <;> simp

theorem fault?_eq_some_iff {d : Demand} {error : Error} : d.fault? r = some error ↔
    (∀ b ∈ r.bundles, b.default? d.key = none) ∧ error = .missingKey (r.missingKey d.key) ∨
      ∃ b value, r.Nearest d.key b value ∧ d.fits value = false ∧
        error = .wrongShape d.key b.locale d.shape := by
  rw [Resolution.exists_nearest_iff (P := fun locale value => d.fits value = false ∧
    error = .wrongShape d.key locale d.shape), ← Resolution.findDefault?_eq_none_iff, fault?]
  cases r.findDefault? d.key with
  | none => simpa using eq_comm
  | some found =>
    cases hfits : d.fits found.value with
    | true => simp [hfits]
    | false => simpa [hfits] using eq_comm

variable {s : Resolution} {d : Demand} {b : Bundle}

/-- A demand stays met when a bundle comes in whose own value, if it has one, has the shape. -/
theorem Met.extend (h : d.Met r) (hextends : s.Extends r b)
    (hb : ∀ value, b.default? d.key = some value → d.fits value) : d.Met s := by
  rw [Met, Resolution.exists_nearest_iff (P := fun _ value => d.fits value)] at h ⊢
  obtain ⟨found, hfound, hfits⟩ := h
  obtain ⟨nearer, farther, hr, hs⟩ := hextends.bundles
  rw [Resolution.findDefault?, hr, List.findSome?_append] at hfound
  simp only [Resolution.findDefault?, hs, List.findSome?_append, List.findSome?_cons]
  cases hnearer : nearer.findSome? (·.defaultBinding? d.key) with
  | some first =>
    rw [hnearer, Option.some_or] at hfound
    exact ⟨found, hfound, hfits⟩
  | none =>
    rw [hnearer, Option.none_or] at hfound
    cases hown : b.defaultBinding? d.key with
    | none => exact ⟨found, hfound, hfits⟩
    | some own =>
      obtain ⟨value, hvalue, rfl⟩ := Option.map_eq_some_iff.1 hown
      exact ⟨_, rfl, hb value hvalue⟩

/-- A demand stays met through insertions, whether or not they succeed. -/
theorem Met.afterInsertions {c : Catalog} {t : Locale} {bs : List Bundle} (h : d.Met (c.resolve t))
    (hbs : ∀ b ∈ bs, ∀ value, b.default? d.key = some value → d.fits value) :
    d.Met ((c.afterInsertions bs).resolve t) := by
  induction bs generalizing c with
  | nil => exact h
  | cons b bs ih =>
    obtain ⟨hb, hrest⟩ := List.forall_mem_cons.1 hbs
    cases hinsert : c.insert b with
    | error error =>
      rw [Catalog.afterInsertions_of_error hinsert]
      exact ih h hrest
    | ok inserted =>
      rw [Catalog.afterInsertions_of_ok hinsert]
      refine ih ?_ hrest
      rcases Catalog.resolve_eq_or_extends_of_insert hinsert t with hsame | hextends
      · rw [hsame]
        exact h
      · exact h.extend hextends hb

end Demand

namespace Formats

/-- Reading is exact. It succeeds just where, for each key that is read, the nearest value has the
shape that is asked for: text for a pattern, a list of so many names, a numeral below seven for a
day. The fields then hold what these values say. It fails with the error of the first key in the
order of reading for which no bundle has a value, or the nearest value has another shape, whatever
the bundles farther on have. So bundles whose values have the shapes can be put in at any time, and
no locale that was read before will fail. -/
theorem ofResolution_exact :
    (∀ key value, ((Demand.pattern key).fits value ↔ ∃ text, value = .text text) ∧
      (∀ count, (Demand.names count key).fits value ↔
        ∃ items, value = .list items ∧ items.length = count) ∧
      ((Demand.day key).fits value ↔
        ∃ text n, value = .text text ∧ IsNumeral text n ∧ n < 7)) ∧
    (∀ f : Formats, f.contents.map (·.1) = demands.map (·.key)) ∧
    (∀ r,
      ((∃ f, ofResolution r = .ok f) ↔
        ∀ d ∈ demands, ∃ b value, r.Nearest d.key b value ∧ d.fits value) ∧
      (∀ f, ofResolution r = .ok f ↔
        (∀ field ∈ f.contents, ∃ b value, r.Nearest field.1 b value ∧ field.2.IsOf value) ∧
          f.locale = r.effective) ∧
      ∀ error, ofResolution r = .error error ↔
        ∃ before d after, demands = before ++ d :: after ∧
          (∀ x ∈ before, ∃ b value, r.Nearest x.key b value ∧ x.fits value) ∧
          ((∀ b ∈ r.bundles, b.default? d.key = none) ∧
              error = .missingKey ⟨d.key, r.locales, r.requested.chain⟩ ∨
            ∃ b value, r.Nearest d.key b value ∧ d.fits value = false ∧
              error = .wrongShape d.key b.locale d.shape)) ∧
    ∀ (c : Catalog) (t : Locale) (bs : List Bundle),
      (∀ b ∈ bs, ∀ d ∈ demands, ∀ value, b.default? d.key = some value → d.fits value) →
      (∃ f, ofResolution (c.resolve t) = .ok f) →
      ∃ f, ofResolution ((c.afterInsertions bs).resolve t) = .ok f := by
  have hok (r : Resolution) : (∃ f, ofResolution r = .ok f) ↔ ∀ d ∈ demands, d.Met r := by
    simp only [reads_ofResolution.exists_ok_iff, Demand.fault?_eq_none_iff]
  refine ⟨fun key value => ⟨Demand.fits_pattern_iff, fun count => Demand.fits_names_iff,
    Demand.fits_day_iff⟩, keys_contents, fun r => ⟨hok r, fun f => ofResolution_eq_ok_iff,
    fun error => ?_⟩, fun c t bs hbs h => ?_⟩
  · rw [reads_ofResolution.error_iff, List.findSome?_eq_some_iff]
    simp only [Demand.fault?_eq_none_iff, Demand.fault?_eq_some_iff]
    constructor
    · rintro ⟨before, d, after, hsplit, hd, hbefore⟩
      exact ⟨before, d, after, hsplit, hbefore, hd⟩
    · rintro ⟨before, d, after, hsplit, hbefore, hd⟩
      exact ⟨before, d, after, hsplit, hd, hbefore⟩
  · rw [hok] at h ⊢
    exact fun d hd => (h d hd).afterInsertions fun b hb => hbs b hb d hd

/-- The bundled tables are read for a locale that has none of its own, and still are when a bundle
with one date pattern is put in for it. -/
theorem ofResolution_exact_az_AZ :
    let t : Locale := { language := "az", region := "AZ" }
    ∃ c b, catalog = .ok c ∧ b.locale = t ∧
      b.default? "dateFormatFull" = some (.text "d MMMM y, EEEE") ∧
      (∃ f, ofResolution (c.resolve t) = .ok f) ∧
      ∃ f, ofResolution ((c.afterInsertions [b]).resolve t) = .ok f := by
  intro t
  obtain ⟨c, hcatalog, htabled⟩ := exists_catalog
  obtain ⟨f, hf, -⟩ := htabled.exists_formats t
  let cell : String × Value := ("dateFormatFull", .text "d MMMM y, EEEE")
  obtain ⟨b, -, -, hlocale, hmem, hsome⟩ := Bundle.exists_ofDefaults interface t none [cell]
  have hcell {key : String} {value : Value} (h : b.default? key = some value) :
      key = cell.1 ∧ value = cell.2 := Prod.ext_iff.1 (List.mem_singleton.1 (hmem key value h))
  have hfits : ∀ d ∈ demands, d.key = cell.1 → d.fits cell.2 := by decide +kernel
  obtain ⟨-, -, -, hinsert⟩ := ofResolution_exact
  refine ⟨c, b, hcatalog, hlocale, ?_, ⟨f, hf⟩, hinsert c t [b] ?_ ⟨f, hf⟩⟩
  · obtain ⟨value, hvalue⟩ := Option.isSome_iff_exists.1 (hsome cell.1 cell.2 (by simp))
    rwa [(hcell hvalue).2] at hvalue
  · rintro _ hb d hd value hvalue
    obtain rfl := List.mem_singleton.1 hb
    obtain ⟨hkey, rfl⟩ := hcell hvalue
    exact hfits d hd hkey

end Formats

end DateTime

end Localization
