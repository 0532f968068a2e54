import Localization.DateTime.Formats
import Localization.Proofs.Lookup.Effective
import Localization.Proofs.Results

namespace Localization.DateTime

/-- What a field asks of the first default value that is found for a key. -/
structure Demand where
  key : String
  shape : Shape
  fits : Value → Bool

namespace Demand

def pattern (key : String) : Demand :=
  ⟨key, .pattern, fun value => value.text?.isSome⟩

def names (count : Nat) (key : String) : Demand :=
  ⟨key, .names, fun value => (value.list?.bind (ofCount? count)).isSome⟩

def day (key : String) : Demand :=
  ⟨key, .day, fun value => (value.text?.bind readDay?).isSome⟩

/-- The error with which a demand fails, if it is not met. -/
def fault? (r : Resolution) (d : Demand) : Option Error :=
  match r.findDefault? d.key with
  | none => some (.missingKey (r.missingKey d.key))
  | some found => if d.fits found.value then none else some (.wrongShape d.key found.locale d.shape)

end Demand

/-- The demands of a pattern for each width. -/
def patternDemands (stem : String) : List Demand :=
  ["Full", "Long", "Medium", "Short"].map fun width => .pattern (stem ++ width)

def skeletonDemands : List Demand :=
  ["formatDay", "formatHour12Minute", "formatHour12MinuteSecond", "formatHour24Minute",
    "formatHour24MinuteSecond", "formatMinuteSecond", "formatMonthAbbrev", "formatMonthAbbrevDay",
    "formatMonthFull", "formatMonthFullDay", "formatMonthFullWeekdayDay", "formatMonthNumDay",
    "formatYear", "formatYearMonthAbbrev", "formatYearMonthAbbrevDay", "formatYearMonthFull",
    "formatYearMonthFullDay", "formatYearMonthNum", "formatYearMonthNumDay",
    "formatYearMonthWeekdayDay", "formatYearQuarterFull", "formatYearQuarterShort"].map .pattern

/-- All demands of the formats, in the order of the fields. -/
def demands : List Demand :=
  patternDemands "dateFormat" ++ patternDemands "timeFormat" ++ patternDemands "dateTime" ++
    skeletonDemands ++
    [.names 2 "ampms", .names 2 "erasFull", .names 2 "erasShort", .names 12 "monthsFull",
      .names 12 "monthsNarrow", .names 12 "monthsShort", .names 4 "quartersFull",
      .names 4 "quartersShort", .names 7 "weekdaysFull", .names 7 "weekdaysNarrow",
      .names 7 "weekdaysShort", .day "firstDayOfTheWeek", .day "weekendStart", .day "weekendEnd"]

/-- A reader fails just with the error of the first demand that is not met, and what it gives
depends on the bundles alone. -/
structure Reads {α : Type} (read : Resolution → Except Error α) (ds : List Demand) : Prop where
  error_iff : ∀ r error, read r = .error error ↔ ds.findSome? (·.fault? r) = some error
  congr : ∀ r s a, r.bundles = s.bundles → read r = .ok a → read s = .ok a

namespace Reads

variable {α β : Type} {read : Resolution → Except Error α} {d : Demand} {ds ds' : List Demand}

theorem pure {make : Resolution → α} (hmake : ∀ r s, r.bundles = s.bundles → make r = make s) :
    Reads (fun r => .ok (make r)) [] where
  error_iff := by simp
  congr := by
    intro r s a hbundles hread
    rw [← hread, hmake r s hbundles]

theorem findSome?_eq_none (h : Reads read ds) {r : Resolution} {a : α} (hread : read r = .ok a) :
    ds.findSome? (·.fault? r) = none := by
  rw [Option.eq_none_iff_forall_ne_some]
  intro error herror
  rw [← h.error_iff, hread] at herror
  cases herror

/-- A reader succeeds just where all its demands are met. -/
theorem exists_ok_iff (h : Reads read ds) (r : Resolution) :
    (∃ a, read r = .ok a) ↔ ∀ d ∈ ds, d.fault? r = none := by
  rw [← List.findSome?_eq_none_iff]
  cases hread : read r with
  | error error => simp [(h.error_iff r error).1 hread]
  | ok a => simp [h.findSome?_eq_none hread]

/-- One reader after the other has the demands of the one and then those of the other. -/
theorem bind {next : α → Resolution → Except Error β} (h : Reads read ds)
    (hnext : ∀ a, Reads (next a) ds') :
    Reads (fun r => read r >>= fun a => next a r) (ds ++ ds') where
  error_iff := by
    intro r error
    rw [List.findSome?_append]
    cases hread : read r with
    | error first =>
      rw [(h.error_iff r first).1 hread, Option.some_or]
      rw [Option.some.injEq]
      exact (Except.error.injEq first error).to_iff
    | ok a =>
      rw [h.findSome?_eq_none hread, Option.none_or]
      exact (hnext a).error_iff r error
  congr := by
    intro r s b hbundles hboth
    obtain ⟨a, hread, hrest⟩ := bind_eq_ok_iff.1 hboth
    exact bind_eq_ok_iff.2 ⟨a, h.congr r s a hbundles hread, (hnext a).congr r s b hbundles hrest⟩

theorem cons {next : α → Resolution → Except Error β} (h : Reads read [d])
    (hnext : ∀ a, Reads (next a) ds') :
    Reads (fun r => read r >>= fun a => next a r) (d :: ds') :=
  h.bind hnext

end Reads

/-- A value is read from the first default value along the chain. -/
theorem ofShape_eq {α : Type} (r : Resolution) (key : String) (shape : Shape)
    (read : Value → Option α) : ofShape r key shape read =
      match r.findDefault? key with
      | none => .error (.missingKey (r.missingKey key))
      | some found =>
        match read found.value with
        | some a => .ok a
        | none => .error (.wrongShape key found.locale shape) := by
  simp only [ofShape, Resolution.lookup, Resolution.lookup?]
  cases r.findDefault? key <;> rfl

theorem reads_ofShape {α : Type} (key : String) (shape : Shape) (read : Value → Option α) :
    Reads (fun r => ofShape r key shape read) [⟨key, shape, fun value => (read value).isSome⟩] where
  error_iff := by
    intro r error
    simp only [ofShape_eq, Demand.fault?, List.findSome?_cons, List.findSome?_nil]
    cases r.findDefault? key with
    | none => simp
    | some found => cases hread : read found.value <;> simp [hread]
  congr := by
    intro r s a hbundles hread
    have hfound : r.findDefault? key = s.findDefault? key := by
      simp only [Resolution.findDefault?, hbundles]
    rw [ofShape_eq, hfound] at hread
    rw [ofShape_eq]
    cases hs : s.findDefault? key with
    | none => simp [hs] at hread
    | some found => simpa [hs] using hread

theorem ofShape_eq_ok_iff {α : Type} {r : Resolution} {key : String} {shape : Shape}
    {read : Value → Option α} {a : α} : ofShape r key shape read = .ok a ↔
      ∃ found, r.findDefault? key = some found ∧ read found.value = some a := by
  rw [ofShape_eq]
  cases r.findDefault? key with
  | none => simp
  | some found => cases hread : read found.value <;> simp [hread]

theorem patternOf_eq_ok_iff {r : Resolution} {key text : String} : patternOf r key = .ok text ↔
    ∃ found, r.findDefault? key = some found ∧ found.value.text? = some text :=
  ofShape_eq_ok_iff

theorem reads_patternOf (key : String) : Reads (fun r => patternOf r key) [.pattern key] :=
  reads_ofShape key .pattern Value.text?

theorem reads_namesOf (key : String) {count : Nat} :
    Reads (fun r => (namesOf r key : Except Error (Vector String count))) [.names count key] :=
  reads_ofShape key .names fun value => value.list?.bind (ofCount? count)

theorem reads_dayOf (key : String) : Reads (fun r => dayOf r key) [.day key] :=
  reads_ofShape key .day fun value => value.text?.bind readDay?

theorem patternsOf_eq_ok_iff {r : Resolution} {stem : String} {p : Patterns} :
    patternsOf r stem = .ok p ↔
      patternOf r (stem ++ "Full") = .ok p.full ∧ patternOf r (stem ++ "Long") = .ok p.long ∧
      patternOf r (stem ++ "Medium") = .ok p.medium ∧
      patternOf r (stem ++ "Short") = .ok p.short := by
  unfold patternsOf
  constructor
  · intro h
    obtain ⟨full, hfull, h⟩ := bind_eq_ok_iff.1 h
    obtain ⟨long, hlong, h⟩ := bind_eq_ok_iff.1 h
    obtain ⟨medium, hmedium, h⟩ := bind_eq_ok_iff.1 h
    obtain ⟨short, hshort, h⟩ := bind_eq_ok_iff.1 h
    obtain rfl := Except.ok.inj h
    exact ⟨hfull, hlong, hmedium, hshort⟩
  · rintro ⟨hfull, hlong, hmedium, hshort⟩
    rw [hfull, hlong, hmedium, hshort]
    rfl

theorem reads_patternsOf (stem : String) :
    Reads (fun r => patternsOf r stem) (patternDemands stem) := by
  unfold patternsOf patternDemands
  repeat refine .cons (reads_patternOf _) fun _ => ?_
  exact .pure fun _ _ _ => rfl

theorem reads_skeletonsOf : Reads skeletonsOf skeletonDemands := by
  unfold skeletonsOf skeletonDemands
  repeat refine .cons (reads_patternOf _) fun _ => ?_
  exact .pure fun _ _ _ => rfl

theorem reads_ofResolution : Reads Formats.ofResolution demands := by
  simp only [demands, List.append_assoc]
  repeat refine .bind (reads_patternsOf _) fun _ => ?_
  refine .bind reads_skeletonsOf fun _ => ?_
  repeat refine .cons (reads_namesOf _) fun _ => ?_
  repeat refine .cons (reads_dayOf _) fun _ => ?_
  exact .pure fun r s hbundles => by rw [Resolution.effective_congr hbundles]

theorem Formats.locale_of_ofResolution {r : Resolution} {f : Formats}
    (h : Formats.ofResolution r = .ok f) : f.locale = r.effective := by
  unfold Formats.ofResolution at h
  repeat obtain ⟨_, -, h⟩ := bind_eq_ok_iff.1 h
  obtain rfl := Except.ok.inj h
  rfl

theorem Formats.gluePatterns_of_ofResolution {r : Resolution} {f : Formats}
    (h : Formats.ofResolution r = .ok f) : patternsOf r "dateTime" = .ok f.gluePatterns := by
  unfold Formats.ofResolution at h
  obtain ⟨_, -, h⟩ := bind_eq_ok_iff.1 h
  obtain ⟨_, -, h⟩ := bind_eq_ok_iff.1 h
  obtain ⟨glue, hglue, h⟩ := bind_eq_ok_iff.1 h
  repeat obtain ⟨_, -, h⟩ := bind_eq_ok_iff.1 h
  obtain rfl := Except.ok.inj h
  exact hglue

end Localization.DateTime
