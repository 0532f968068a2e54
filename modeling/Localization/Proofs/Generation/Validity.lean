import Localization.Proofs.Generation.Progress
import Localization.Proofs.Results
import Mathlib.Data.List.FinRange

namespace Localization.Generation

namespace Config

/-- What is wrong with a locale that comes after others: it is malformed, or one of them is the same
locale, maybe written differently. -/
def faultAfter? (earlier : List String) (text : String) : Option Fault :=
  match Locale.parse text with
  | .error error => some (.malformedLocale error)
  | .ok locale =>
    if ∃ other ∈ earlier, Locale.parse other = .ok locale then some (.repeatedLocale text) else none

/-- What is wrong with a locale at its place in a list. -/
def faultAt? (texts : List String) : String × Nat → Option Fault
  | (text, i) => faultAfter? (texts.take i) text

theorem faultAt?_length (earlier rest : List String) (text : String) :
    faultAt? (earlier ++ rest) (text, earlier.length) = faultAfter? earlier text := by
  rw [faultAt?, List.take_left]

/-- The locales that were seen are those that came before. -/
def Sees (seen : List Locale) (earlier : List String) : Prop :=
  ∀ locale, locale ∈ seen ↔ ∃ text ∈ earlier, Locale.parse text = .ok locale

theorem sees_nil : Sees [] [] := by
  simp [Sees]

variable {seen seen' : List Locale} {earlier : List String}

theorem Sees.concat (h : Sees seen earlier) {text : String}
    (hseen : ∀ locale, locale ∈ seen' ↔ locale ∈ seen ∨ Locale.parse text = .ok locale) :
    Sees seen' (earlier ++ [text]) := by
  intro locale
  rw [hseen, h locale]
  simp [or_and_right, exists_or]

/-- The first of the locales that are left has the fault that those before it give it, and then is
one of them. -/
theorem Sees.exists_localeFaults_cons (h : Sees seen earlier) (text : String) (rest : List String) :
    ∃ seen', Sees seen' (earlier ++ [text]) ∧ localeFaults seen (text :: rest) =
      (faultAfter? earlier text).toList ++ localeFaults seen' rest := by
  rw [localeFaults, faultAfter?]
  cases hparse : Locale.parse text with
  | error error => exact ⟨seen, h.concat (by simp [hparse]), rfl⟩
  | ok locale =>
    by_cases hmem : locale ∈ seen
    · refine ⟨seen, h.concat (by simp [hparse, hmem]), ?_⟩
      simp [hmem, (h locale).1 hmem]
    · refine ⟨locale :: seen, h.concat (by simp [hparse, eq_comm, or_comm]), ?_⟩
      simp only [if_neg hmem, if_neg (mt (h locale).2 hmem)]
      rfl

/-- Along a list, every locale has the fault that its place gives it. -/
theorem Sees.localeFaults_eq (h : Sees seen earlier) (rest : List String) :
    localeFaults seen rest =
      (rest.zipIdx earlier.length).filterMap (faultAt? (earlier ++ rest)) := by
  induction rest generalizing seen earlier with
  | nil => rfl
  | cons text rest ih =>
    obtain ⟨seen', h', hcons⟩ := h.exists_localeFaults_cons text rest
    -- The text goes over to the earlier ones, so that the list as a whole is the same.
    have hrest := ih h'
    rw [List.append_assoc, List.length_append] at hrest
    rw [hcons, hrest, List.zipIdx_cons, List.filterMap_cons, faultAt?_length]
    cases faultAfter? earlier text <;> rfl

/-- There is no fault just if all locales can be parsed and none comes again. -/
theorem localeFaults_eq_nil_iff {texts : List String} : localeFaults seen texts = [] ↔
    ∃ locales, texts.mapM Locale.parse = .ok locales ∧ locales.Nodup ∧
      ∀ locale ∈ locales, locale ∉ seen := by
  induction texts generalizing seen with
  | nil => simp [localeFaults, pure, Except.pure]
  | cons text rest ih =>
    rw [localeFaults]
    simp only [mapM_eq_ok_iff, List.forall₂_cons_left_iff] at ih ⊢
    cases hparse : Locale.parse text with
    | error error => simp
    | ok locale =>
      by_cases hmem : locale ∈ seen
      · simp [hmem]
      · simp only [if_neg hmem, ih, Except.ok.injEq]
        constructor
        · rintro ⟨locales, hlocales, hnodup, hnew⟩
          refine ⟨locale :: locales, ⟨locale, locales, rfl, hlocales, rfl⟩, ?_, ?_⟩
          · exact List.nodup_cons.2 ⟨fun h => hnew locale h List.mem_cons_self, hnodup⟩
          · exact List.forall_mem_cons.2
              ⟨hmem, fun other h hseen => hnew other h (List.mem_cons_of_mem locale hseen)⟩
        · rintro ⟨_, ⟨_, locales, rfl, hlocales, rfl⟩, hnodup, hnew⟩
          obtain ⟨hlocale, hnodup⟩ := List.nodup_cons.1 hnodup
          refine ⟨locales, hlocales, hnodup, fun other hother => ?_⟩
          rw [List.mem_cons, not_or]
          exact ⟨fun h => hlocale (h ▸ hother), (List.forall_mem_cons.1 hnew).2 other hother⟩

theorem faults_eq_nil_iff {c : Config} : c.faults = [] ↔ 0 < c.workers ∧ c.locales ≠ [] ∧
    ∃ locales, c.parsedLocales = .ok locales ∧ locales.Nodup := by
  simp only [faults, List.append_eq_nil_iff, ite_eq_right_iff, List.cons_ne_self, imp_false,
    localeFaults_eq_nil_iff, List.not_mem_nil, not_false_eq_true, implies_true, and_true,
    Nat.pos_iff_ne_zero, and_assoc, parsedLocales, ne_eq]

end Config

/-- A configuration without faults has locales that can be parsed. -/
theorem Pass.start_of_faults_eq_nil {c : Config} (h : c.faults = []) :
    ∃ p, Pass.start c = .ok p := by
  obtain ⟨-, -, locales, hlocales, -⟩ := Config.faults_eq_nil_iff.1 h
  refine ⟨{ config := c, locales }, ?_⟩
  rw [Pass.start, if_neg (not_not.2 h), hlocales]
  rfl

theorem Pass.start_eq_error_iff {c : Config} {error : Error} :
    Pass.start c = .error error ↔ c.faults ≠ [] ∧ error = .invalidConfig c.faults := by
  by_cases h : c.faults = []
  · obtain ⟨p, hp⟩ := Pass.start_of_faults_eq_nil h
    simp [hp, h]
  · rw [Pass.start, if_pos h]
    simp [h, eq_comm]

/-- A configuration has a fault for having no workers, one for having no locales, and in order one
for each locale that is malformed or comes again. A pass starts just if there is none, and its
locales are then those of the configuration, each once. -/
theorem Config.faults_complete (c : Config) :
    c.faults = (if c.workers = 0 then [.noWorkers] else []) ++
        (if c.locales = [] then [.noLocales] else []) ++
        c.locales.zipIdx.filterMap (faultAt? c.locales) ∧
      (c.faults = [] ↔ 0 < c.workers ∧ c.locales ≠ [] ∧ ∃ locales,
        List.Forall₂ (fun text locale => Locale.parse text = .ok locale) c.locales locales ∧
          locales.Nodup) ∧
      (∀ error, Pass.start c = .error error ↔ c.faults ≠ [] ∧ error = .invalidConfig c.faults) ∧
      (∀ error, c.parsedLocales = .error error → c.faults ≠ []) ∧
      ∀ p, Pass.start c = .ok p →
        List.Forall₂ (fun text locale => Locale.parse text = .ok locale) c.locales p.locales ∧
          p.locales.Nodup := by
  have hlocales (locales : List Locale) : c.parsedLocales = .ok locales ↔
      List.Forall₂ (fun text locale => Locale.parse text = .ok locale) c.locales locales :=
    mapM_eq_ok_iff
  refine ⟨?_, ?_, fun error => Pass.start_eq_error_iff, fun error hparsed hvalid => ?_,
    fun p hp => ?_⟩
  · rw [faults, sees_nil.localeFaults_eq, List.nil_append, List.length_nil]
  · simp only [← hlocales, faults_eq_nil_iff]
  · obtain ⟨-, -, locales, hlocales, -⟩ := faults_eq_nil_iff.1 hvalid
    cases hparsed.symm.trans hlocales
  · obtain ⟨hvalid, hparsed, -, -⟩ := Pass.eq_of_start hp
    obtain ⟨-, -, locales, hlocales', hnodup⟩ := faults_eq_nil_iff.1 hvalid
    obtain rfl := Except.ok.inj (hparsed.symm.trans hlocales')
    exact ⟨(hlocales p.locales).1 hparsed, hnodup⟩

theorem Config.faults_complete_az :
    let c : Config := { locales := ["az", "root"], workers := 1 }
    ∃ p, Pass.start c = .ok p ∧
      List.Forall₂ (fun text locale => Locale.parse text = .ok locale) c.locales p.locales ∧
      p.locales.Nodup := by
  intro c
  obtain ⟨-, -, -, -, hstart⟩ := c.faults_complete
  exact ⟨_, rfl, hstart _ rfl⟩

example : ({ locales := ["az", "root", "AZ", "default"], workers := 0 } : Config).faults =
    [.noWorkers, .repeatedLocale "AZ", .repeatedLocale "default"] := by decide

end Localization.Generation
