import Localization.Cache
import Localization.DateTime.Reading
import Localization.DateTime.Slot

namespace Localization.DateTime

inductive Width where
  | full | long | medium | short
deriving DecidableEq

/-- One pattern for each width. -/
structure Patterns where
  full : String
  long : String
  medium : String
  short : String
deriving DecidableEq

def Patterns.get (p : Patterns) : Width → String
  | .full => p.full
  | .long => p.long
  | .medium => p.medium
  | .short => p.short

/-- The patterns for a selection of fields rather than for a width. -/
structure Skeletons where
  day : String
  hour12Minute : String
  hour12MinuteSecond : String
  hour24Minute : String
  hour24MinuteSecond : String
  minuteSecond : String
  monthAbbrev : String
  monthAbbrevDay : String
  monthFull : String
  monthFullDay : String
  monthFullWeekdayDay : String
  monthNumDay : String
  year : String
  yearMonthAbbrev : String
  yearMonthAbbrevDay : String
  yearMonthFull : String
  yearMonthFullDay : String
  yearMonthNum : String
  yearMonthNumDay : String
  yearMonthWeekdayDay : String
  yearQuarterFull : String
  yearQuarterShort : String
deriving DecidableEq

/-- All that is needed to write dates and times in one locale. The days are counted from Sunday. -/
structure Formats where
  /-- The most specific locale whose data was used. -/
  locale : Locale
  datePatterns : Patterns
  timePatterns : Patterns
  /-- Patterns for a date with a time: slot 1 is for the date and slot 0 for the time. -/
  gluePatterns : Patterns
  skeletons : Skeletons
  ampms : Vector String 2
  erasFull : Vector String 2
  erasShort : Vector String 2
  monthsFull : Vector String 12
  monthsNarrow : Vector String 12
  monthsShort : Vector String 12
  quartersFull : Vector String 4
  quartersShort : Vector String 4
  weekdaysFull : Vector String 7
  weekdaysNarrow : Vector String 7
  weekdaysShort : Vector String 7
  firstDayOfTheWeek : Fin 7
  weekendStart : Fin 7
  weekendEnd : Fin 7
deriving DecidableEq

/-- A pattern for each width, under the keys `stem` and the width. -/
def patternsOf (r : Resolution) (stem : String) : Except Error Patterns := do
  return {
    full := ← patternOf r (stem ++ "Full")
    long := ← patternOf r (stem ++ "Long")
    medium := ← patternOf r (stem ++ "Medium")
    short := ← patternOf r (stem ++ "Short") }

/-- The skeleton patterns, each under a key of its own. -/
def skeletonsOf (r : Resolution) : Except Error Skeletons := do
  return {
    day := ← patternOf r "formatDay"
    hour12Minute := ← patternOf r "formatHour12Minute"
    hour12MinuteSecond := ← patternOf r "formatHour12MinuteSecond"
    hour24Minute := ← patternOf r "formatHour24Minute"
    hour24MinuteSecond := ← patternOf r "formatHour24MinuteSecond"
    minuteSecond := ← patternOf r "formatMinuteSecond"
    monthAbbrev := ← patternOf r "formatMonthAbbrev"
    monthAbbrevDay := ← patternOf r "formatMonthAbbrevDay"
    monthFull := ← patternOf r "formatMonthFull"
    monthFullDay := ← patternOf r "formatMonthFullDay"
    monthFullWeekdayDay := ← patternOf r "formatMonthFullWeekdayDay"
    monthNumDay := ← patternOf r "formatMonthNumDay"
    year := ← patternOf r "formatYear"
    yearMonthAbbrev := ← patternOf r "formatYearMonthAbbrev"
    yearMonthAbbrevDay := ← patternOf r "formatYearMonthAbbrevDay"
    yearMonthFull := ← patternOf r "formatYearMonthFull"
    yearMonthFullDay := ← patternOf r "formatYearMonthFullDay"
    yearMonthNum := ← patternOf r "formatYearMonthNum"
    yearMonthNumDay := ← patternOf r "formatYearMonthNumDay"
    yearMonthWeekdayDay := ← patternOf r "formatYearMonthWeekdayDay"
    yearQuarterFull := ← patternOf r "formatYearQuarterFull"
    yearQuarterShort := ← patternOf r "formatYearQuarterShort" }

/-- Reads everything, in the order of the fields; the first key that is missing or has the wrong
shape is the error. -/
def Formats.ofResolution (r : Resolution) : Except Error Formats := do
  return {
    locale := r.effective
    datePatterns := ← patternsOf r "dateFormat"
    timePatterns := ← patternsOf r "timeFormat"
    gluePatterns := ← patternsOf r "dateTime"
    skeletons := ← skeletonsOf r
    ampms := ← namesOf r "ampms"
    erasFull := ← namesOf r "erasFull"
    erasShort := ← namesOf r "erasShort"
    monthsFull := ← namesOf r "monthsFull"
    monthsNarrow := ← namesOf r "monthsNarrow"
    monthsShort := ← namesOf r "monthsShort"
    quartersFull := ← namesOf r "quartersFull"
    quartersShort := ← namesOf r "quartersShort"
    weekdaysFull := ← namesOf r "weekdaysFull"
    weekdaysNarrow := ← namesOf r "weekdaysNarrow"
    weekdaysShort := ← namesOf r "weekdaysShort"
    firstDayOfTheWeek := ← dayOf r "firstDayOfTheWeek"
    weekendStart := ← dayOf r "weekendStart"
    weekendEnd := ← dayOf r "weekendEnd" }

/-- The formats of a locale, through a cache of resolutions. -/
def Formats.resolve (cache : Cache) (catalog : Catalog) (locale : Locale) :
    Except Error Formats × Cache :=
  let (stored, cache) := cache.resolve catalog locale
  (Formats.ofResolution stored.resolution, cache)

namespace Formats

def datePattern (f : Formats) (width : Width) : String :=
  f.datePatterns.get width

def timePattern (f : Formats) (width : Width) : String :=
  f.timePatterns.get width

/-- A date and a time put together: first the date is put into slot 1 of the width's pattern for
both, then the time into every slot 0 of what came out. -/
def glue (f : Formats) (width : Width) (date time : String) : String :=
  let withDate := fillSlot '1' date.toList (f.gluePatterns.get width).toList
  String.ofList (fillSlot '0' time.toList withDate)

/-- The date and the time pattern of one width put together. -/
def dateTimePattern (f : Formats) (width : Width) : String :=
  f.glue width (f.datePattern width) (f.timePattern width)

end Formats

end Localization.DateTime
