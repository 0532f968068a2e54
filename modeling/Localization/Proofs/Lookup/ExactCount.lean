import Localization.Proofs.Bundle.Conflict
import Localization.Proofs.Lookup.Count
import Localization.Proofs.Properties.FormLine
import Localization.Selector.Parse

namespace Localization

namespace Selector

/-- The ways in which a form is made: it is read, or it is the form of a count, a plural category or a
gender. -/
inductive Made : Selector → Prop
  | read {text form} (h : ofString? text = some form) : Made form
  | exact (count : Int) : Made (exact count)
  | category (category : PluralCategory) : Made (ofCategory category)
  | gender (gender : Gender) : Made (ofGender gender)

/-- Numbers are written with digits, and with a minus if they are negative. -/
theorem isDigit_of_mem_toString {n : Int} {c : Char} (h : c ∈ (toString n).toList) :
    c.isDigit ∨ c = '-' := by
  have hdigit {k : Nat} (hk : c ∈ k.repr.toList) : c.isDigit := by
    rw [Nat.toList_repr] at hk
    exact Nat.isDigit_of_mem_toDigits (by decide) (by decide) hk
  rw [Int.toString_eq_repr, Int.repr_eq_if] at h
  split at h
  · exact .inl (hdigit h)
  · rw [String.toList_append, List.mem_append] at h
    exact h.symm.imp hdigit fun hminus => by simpa using hminus

theorem toLower_of_isDigit {c : Char} (h : c.isDigit) : c.toLower = c := by
  refine Char.toLower_eq_of_not_isUpper fun hupper => ?_
  rw [Text.isDigit_iff] at h
  rw [Text.isUpper_iff] at hupper
  omega

theorem exact_inj {m n : Int} : exact m = exact n ↔ m = n := by
  rw [exact, exact, mk.injEq, String.append_right_inj]
  exact Int.repr_inj

theorem normalized_exact (count : Int) : (exact count).Normalized where
  nonempty := by simp [exact]
  chars := by
    intro c hc
    rw [exact, String.toList_append, List.mem_append] at hc
    rcases hc with hc | hc
    · obtain rfl : c = '=' := by simpa using hc
      decide
    · rcases isDigit_of_mem_toString hc with hdigit | rfl
      · exact ⟨by simp [isFormChar, Char.isAlphanum, hdigit], toLower_of_isDigit hdigit⟩
      · decide

theorem normalized_ofCategory (category : PluralCategory) : (ofCategory category).Normalized := by
  have hread : ofString? (ofCategory category).text = some (ofCategory category) := by
    cases category <;> rfl
  exact normalized_of_ofString? _ hread

theorem normalized_ofGender (gender : Gender) : (ofGender gender).Normalized := by
  have hread : ofString? (ofGender gender).text = some (ofGender gender) := by cases gender <;> rfl
  exact normalized_of_ofString? _ hread

theorem Made.normalized {form : Selector} (h : form.Made) : form.Normalized := by
  cases h with
  | read h => exact normalized_of_ofString? _ h
  | exact count => exact normalized_exact count
  | category category => exact normalized_ofCategory category
  | gender gender => exact normalized_ofGender gender

theorem Made.parse_text {form : Selector} (h : form.Made) : parse form.text = .ok form := by
  rw [parse, h.normalized.ofString?]

end Selector

namespace Bundle

variable {i : Interface} {t : Locale} {source? : Option String} {b : Bundle}
  {keyText valueText : List Char} {key : String} {form : Selector} {value : String}

/-- A line of a key, a form and a value makes a bundle that has the value for the form and nothing
else. -/
theorem exists_ofProperties_formLine (hkey : Properties.KeyText keyText key)
    (hform : form.Normalized) (hvalue : Properties.ValueText valueText value) (i : Interface)
    (t : Locale) (source? : Option String) :
    ∃ b, ofProperties i t source?
        (String.ofList (Properties.formLine keyText form valueText)) = .ok b ∧ b.locale = t ∧
      b.default? key = none ∧
      ∀ other, b.form? key other = if other = form then some (.text value) else none := by
  have hparse := Properties.parse_formLine hkey hform hvalue
  obtain ⟨b, hb⟩ : ∃ b, ofDeclarations i t source? [.form key form (.text value)] = .ok b := ⟨_, rfl⟩
  have hcollects := collects_of_ofDeclarations hb
  refine ⟨b, ofProperties_eq_ok_iff.2 ⟨_, hparse, hb⟩, (belongs_of_ofDeclarations hb).2.1, ?_, ?_⟩
  · rw [hcollects.default?_eq]
    rfl
  · intro other
    split
    · rename_i hsame
      rw [hcollects.form?_iff, hsame]
      exact List.mem_singleton_self _
    · rename_i hne
      refine Option.eq_none_iff_forall_ne_some.2 fun found hfound => ?_
      rw [hcollects.form?_iff, List.mem_singleton, Declaration.form.injEq] at hfound
      exact hne hfound.2.1

end Bundle

namespace Resolution

variable {r : Resolution} {b : Bundle} {key : String} {form : Selector} {value : Value}

/-- Where the only bundle has the value for one form and nothing else, a selection finds it if it
seeks the form, and else nothing, whatever the policy. -/
theorem select?_of_single (hr : r.bundles = [b]) (hdefault : b.default? key = none)
    (hform : ∀ other, b.form? key other = if other = form then some value else none)
    (policy : Fallback) (forms : List Selector) : r.select? policy key forms =
      if form ∈ forms then some ⟨value, b.locale, some form⟩ else none := by
  have hfind (other : Selector) : r.findForm? key other = b.formBinding? key other := by
    rw [findForm?, hr]
    simp
  have hnearest : forms.findSome? (b.formBinding? key ·) =
      if form ∈ forms then some ⟨value, b.locale, some form⟩ else none := by
    induction forms with
    | nil => rfl
    | cons other rest ih =>
      rw [List.findSome?_cons, Bundle.formBinding?, hform]
      by_cases hother : other = form
      · simp [hother]
      · simp [hother, Ne.symm hother, ih]
  cases policy with
  | sameLocaleDefault => simp [select?, hr, hnearest, Bundle.defaultBinding?, hdefault]
  | acrossChainFirst =>
    simp [select?, hfind, hnearest, findDefault?, hr, Bundle.defaultBinding?, hdefault]

/-- A line that gives a key a value for an exact count gives it for this count and for no other,
whatever the requested locale and the policy. A form is read back from its text, in whatever way it
was made. -/
theorem lookupCount_formLine_iff {keyText valueText : List Char} {key value : String}
    (hkey : Properties.KeyText keyText key) (hvalue : Properties.ValueText valueText value)
    (i : Interface) (t : Locale) (source? : Option String) (n : Int) :
    (∃ b, Bundle.ofProperties i t source? (String.ofList
        (Properties.formLine keyText (.exact n) valueText)) = .ok b ∧
      ∀ (r : Resolution) (policy : Fallback) (m : Int) (found : Binding), r.bundles = [b] →
        (r.lookupCount policy key m = .ok found ↔
          m = n ∧ found = ⟨.text value, t, some (.exact n)⟩)) ∧
      ∀ form : Selector, form.Made → Selector.parse form.text = .ok form := by
  refine ⟨?_, fun form hform => hform.parse_text⟩
  obtain ⟨b, hb, hlocale, hdefault, hform⟩ := Bundle.exists_ofProperties_formLine hkey
    (Selector.normalized_exact n) hvalue i t source?
  refine ⟨b, hb, fun r policy m found hr => ?_⟩
  have hsought : Selector.exact n ∈ [.exact m, .ofCategory (r.category m)] ↔ m = n := by
    simp [Selector.exact_inj, Selector.exact_ne_ofCategory, eq_comm]
  rw [lookupCount_eq_require, require_eq_ok_iff, select?_of_single hr hdefault hform,
    Option.ite_none_right_eq_some, Option.some.injEq, hsought, hlocale, eq_comm (b := found)]

/-- The line of the least count of 64 bits is found for no other count, and its form is read back. -/
theorem lookupCount_formLine_least :
    Properties.KeyText ['k'] "k" ∧ Properties.ValueText ['v'] "v" ∧
      (∃ b, Bundle.ofProperties ⟨"Messages"⟩ .root none "k[=-9223372036854775808]=v" = .ok b ∧
        ∀ (policy : Fallback) (m : Int) (found : Binding),
          (⟨⟨"Messages"⟩, { language := "ru" }, [b]⟩ : Resolution).lookupCount policy "k" m =
              .ok found ↔
            m = -9223372036854775808 ∧
              found = ⟨.text "v", .root, some ⟨"=-9223372036854775808"⟩⟩) ∧
      Selector.parse "=-9223372036854775808" = .ok ⟨"=-9223372036854775808"⟩ := by
  have hkey : Properties.KeyText ['k'] "k" :=
    ⟨by decide, ⟨'k', rfl, by decide⟩, .plain (by decide) .nil,
      Properties.not_hasUnescaped (List.forall_mem_singleton.2 rfl), rfl, by decide⟩
  have hvalue : Properties.ValueText ['v'] "v" :=
    ⟨by decide, fun _ h => Option.some.inj h ▸ rfl, .plain (by decide) .nil, rfl⟩
  have hform : Selector.exact (-9223372036854775808) = ⟨"=-9223372036854775808"⟩ := rfl
  obtain ⟨⟨b, hb, hlookup⟩, hread⟩ :=
    lookupCount_formLine_iff hkey hvalue ⟨"Messages"⟩ .root none (-9223372036854775808)
  rw [hform] at hb hlookup
  have hparse := hread _ (.exact (-9223372036854775808))
  rw [hform] at hparse
  exact ⟨hkey, hvalue, ⟨b, hb, fun policy m found => hlookup _ policy m found rfl⟩, hparse⟩

end Resolution

end Localization
