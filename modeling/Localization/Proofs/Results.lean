import Mathlib.Data.List.Forall2

namespace Localization

variable {ε α β : Type} {f : α → Except ε β} {l : List α} {l' : List β}

theorem ok_bind (a : α) : (Except.ok a >>= f) = f a :=
  rfl

/-- What comes after a result is done with the result. -/
theorem bind_eq_ok_iff {x : Except ε α} {b : β} :
    (x >>= f) = .ok b ↔ ∃ a, x = .ok a ∧ f a = .ok b := by
  cases x with
  | error error => exact iff_of_false (fun h => by cases h) fun ⟨_, h, _⟩ => by cases h
  | ok a =>
    constructor
    · exact fun h => ⟨a, rfl, h⟩
    · rintro ⟨_, ⟨⟩, h⟩
      exact h

/-- There is an error where there is no result to go on with, or where what comes after fails. -/
theorem bind_eq_error_iff {x : Except ε α} {error : ε} :
    (x >>= f) = .error error ↔ x = .error error ∨ ∃ a, x = .ok a ∧ f a = .error error := by
  cases x <;> simp [bind, Except.bind]

theorem mapError_eq_ok_iff {ε' : Type} {x : Except ε α} {g : ε → ε'} {a : α} :
    x.mapError g = .ok a ↔ x = .ok a := by
  cases x <;> simp [Except.mapError]

theorem map_eq_error_iff {g : α → β} {x : Except ε α} {error : ε} :
    x.map g = .error error ↔ x = .error error := by
  cases x <;> simp [Except.map]

theorem exists_of_isOk {x : Except ε α} (h : x.isOk) : ∃ a, x = .ok a := by
  cases x with
  | error error => cases h
  | ok a => exact ⟨a, rfl⟩

theorem exists_error_iff {x : Except ε α} : (∃ error, x = .error error) ↔ ¬∃ a, x = .ok a := by
  cases x <;> simp

/-- A list has results if each of its elements has one. -/
theorem mapM_eq_ok_iff : l.mapM f = .ok l' ↔ List.Forall₂ (fun a b => f a = .ok b) l l' := by
  induction l generalizing l' with
  | nil => cases l' <;> simp [pure, Except.pure]
  | cons a l ih =>
    rw [List.mapM_cons, List.forall₂_cons_left_iff]
    cases ha : f a with
    | error error =>
      refine iff_of_false (fun h => by cases h) ?_
      rintro ⟨b, rest, hb, -, -⟩
      cases hb
    | ok b =>
      cases hrest : l.mapM f with
      | error error =>
        refine iff_of_false (fun h => by cases h) ?_
        rintro ⟨b, rest, -, hforall, -⟩
        rw [← ih, hrest] at hforall
        cases hforall
      | ok bs =>
        constructor
        · rintro ⟨⟩
          exact ⟨b, bs, rfl, ih.1 hrest, rfl⟩
        · rintro ⟨b', rest, hb, hforall, rfl⟩
          obtain rfl := Except.ok.inj hb
          obtain rfl := Except.ok.inj (hrest.symm.trans (ih.2 hforall))
          rfl

theorem exists_of_mem_mapM (h : l.mapM f = .ok l') {b : β} (hb : b ∈ l') :
    ∃ a ∈ l, f a = .ok b := by
  induction mapM_eq_ok_iff.1 h with
  | nil => cases hb
  | @cons a b' rest rest' ha hrest ih =>
    rcases List.mem_cons.1 hb with rfl | hb
    · exact ⟨a, List.mem_cons_self, ha⟩
    · obtain ⟨a', hmem, ha'⟩ := ih (mapM_eq_ok_iff.2 hrest) hb
      exact ⟨a', List.mem_cons_of_mem a hmem, ha'⟩

theorem exists_result_of_mem (h : l.mapM f = .ok l') {a : α} (ha : a ∈ l) :
    ∃ b ∈ l', f a = .ok b := by
  induction mapM_eq_ok_iff.1 h with
  | nil => cases ha
  | @cons a' b rest rest' hb hrest ih =>
    rcases List.mem_cons.1 ha with rfl | ha
    · exact ⟨b, List.mem_cons_self, hb⟩
    · obtain ⟨b', hmem, hb'⟩ := ih (mapM_eq_ok_iff.2 hrest) ha
      exact ⟨b', List.mem_cons_of_mem b hmem, hb'⟩

/-- The error of a list is that of the first element that has no result. -/
theorem mapM_eq_error_iff {error : ε} : l.mapM f = .error error ↔
    ∃ before a after, l = before ++ a :: after ∧ (∀ a' ∈ before, ∃ b, f a' = .ok b) ∧
      f a = .error error := by
  induction l with
  | nil => simp [pure, Except.pure]
  | cons a l ih =>
    simp only [List.mapM_cons, bind_eq_error_iff, pure, Except.pure, reduceCtorEq, and_false,
      exists_false, or_false, ih]
    constructor
    · rintro (ha | ⟨b, ha, before, a', after, rfl, hbefore, ha'⟩)
      · exact ⟨[], a, l, rfl, by simp, ha⟩
      · exact ⟨a :: before, a', after, rfl, List.forall_mem_cons.2 ⟨⟨b, ha⟩, hbefore⟩, ha'⟩
    · rintro ⟨_ | ⟨a', before⟩, a₁, after, hl, hbefore, ha₁⟩
      · obtain ⟨rfl, rfl⟩ := List.cons.inj hl
        exact .inl ha₁
      · obtain ⟨rfl, rfl⟩ := List.cons.inj hl
        obtain ⟨⟨b, ha⟩, hbefore⟩ := List.forall_mem_cons.1 hbefore
        exact .inr ⟨b, ha, before, a₁, after, rfl, hbefore, ha₁⟩

/-- The error of a list is that of one of its elements. -/
theorem exists_of_mapM_eq_error {error : ε} (h : l.mapM f = .error error) :
    ∃ a ∈ l, f a = .error error := by
  obtain ⟨before, a, after, rfl, -, ha⟩ := mapM_eq_error_iff.1 h
  exact ⟨a, List.mem_append_right before List.mem_cons_self, ha⟩

theorem exists_mapM_eq_ok (h : ∀ a ∈ l, ∃ b, f a = .ok b) : ∃ l', l.mapM f = .ok l' := by
  cases hresults : l.mapM f with
  | ok l' => exact ⟨l', rfl⟩
  | error error =>
    obtain ⟨a, hmem, ha⟩ := exists_of_mapM_eq_error hresults
    obtain ⟨b, hb⟩ := h a hmem
    rw [ha] at hb
    cases hb

/-- What changes each element, its result and its error alike changes those of the list so. -/
theorem mapM_map_eq {change : α → α} {result : β → β} {fault : ε → ε}
    (h : ∀ a, f (change a) = ((f a).map result).mapError fault) (l : List α) :
    (l.map change).mapM f = ((l.mapM f).map (·.map result)).mapError fault := by
  induction l with
  | nil => rfl
  | cons a l ih =>
    rw [List.map_cons, List.mapM_cons, List.mapM_cons, h, ih]
    cases f a with
    | error error => rfl
    | ok b => cases l.mapM f <;> rfl

theorem toOption_mapM (f : α → Except ε β) (l : List α) :
    (l.mapM f).toOption = l.mapM fun a => (f a).toOption := by
  induction l with
  | nil => rfl
  | cons a rest ih =>
    rw [List.mapM_cons, List.mapM_cons, ← ih]
    cases f a with
    | error error => rfl
    | ok b => cases rest.mapM f <;> rfl

theorem mapM_congr {f g : α → Except ε β} (h : ∀ a ∈ l, f a = g a) : l.mapM f = l.mapM g := by
  induction l with
  | nil => rfl
  | cons a l ih =>
    obtain ⟨ha, hrest⟩ := List.forall_mem_cons.1 h
    rw [List.mapM_cons, List.mapM_cons, ha, ih hrest]

/-- A search goes by what it finds along the way. -/
theorem findSome?_congr {f g : α → Option β} (h : ∀ a ∈ l, f a = g a) :
    l.findSome? f = l.findSome? g := by
  rw [← List.head?_filterMap, List.filterMap_congr h, List.head?_filterMap]

end Localization
