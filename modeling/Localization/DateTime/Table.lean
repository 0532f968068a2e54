import Localization.Value

namespace Localization.DateTime

/-- The date and time data of one locale. A table holds only what differs from its parent in the
fallback chain; the table of root holds every key. -/
structure Table where
  /-- The locale's written form, empty for root. -/
  locale : String
  cells : List (String × Value)
deriving DecidableEq

/-- The name of the locale in the table's source. -/
def Table.name (t : Table) : String :=
  if t.locale = "" then "root" else t.locale

/-- Quarters known by their number. -/
def numberedQuarters : List String :=
  ["Q1", "Q2", "Q3", "Q4"]

/-- The months in Azerbaijani, Cyrillic script. -/
def azCyrlMonths : List String :=
  ["јанвар", "феврал", "март", "апрел", "май", "ијун", "ијул", "август", "сентјабр", "октјабр",
   "нојабр", "декабр"]

/-- The weekdays in Azerbaijani, Cyrillic script, Sunday first. -/
def azCyrlWeekdays : List String :=
  ["базар", "базар ертәси", "чәршәнбә ахшамы", "чәршәнбә", "ҹүмә ахшамы", "ҹүмә", "шәнбә"]

/-- The data that every locale falls back to. -/
def rootTable : Table where
  locale := ""
  cells := [
    ("ampms", .list ["AM", "PM"]),
    ("dateFormatFull", .text "EEEE, MMMM d, y"),
    ("dateFormatLong", .text "MMMM d, y"),
    ("dateFormatMedium", .text "MMM d, y"),
    ("dateFormatShort", .text "M/d/yy"),
    ("dateTimeFull", .text "\x7b1\x7d 'at' \x7b0\x7d"),
    ("dateTimeLong", .text "\x7b1\x7d 'at' \x7b0\x7d"),
    ("dateTimeMedium", .text "\x7b1\x7d, \x7b0\x7d"),
    ("dateTimeShort", .text "\x7b1\x7d, \x7b0\x7d"),
    ("erasFull", .list ["Before Christ", "Anno Domini"]),
    ("erasShort", .list ["BC", "AD"]),
    ("firstDayOfTheWeek", .text "0"),
    ("formatDay", .text "d"),
    ("formatHour12Minute", .text "h:mm a"),
    ("formatHour12MinuteSecond", .text "h:mm:ss a"),
    ("formatHour24Minute", .text "HH:mm"),
    ("formatHour24MinuteSecond", .text "HH:mm:ss"),
    ("formatMinuteSecond", .text "mm:ss"),
    ("formatMonthAbbrev", .text "LLL"),
    ("formatMonthAbbrevDay", .text "MMM d"),
    ("formatMonthFull", .text "LLLL"),
    ("formatMonthFullDay", .text "MMMM d"),
    ("formatMonthFullWeekdayDay", .text "EEEE, MMMM d"),
    ("formatMonthNumDay", .text "M/d"),
    ("formatYear", .text "y"),
    ("formatYearMonthAbbrev", .text "MMM y"),
    ("formatYearMonthAbbrevDay", .text "MMM d, y"),
    ("formatYearMonthFull", .text "MMMM y"),
    ("formatYearMonthFullDay", .text "MMMM d, y"),
    ("formatYearMonthNum", .text "M/y"),
    ("formatYearMonthNumDay", .text "M/d/y"),
    ("formatYearMonthWeekdayDay", .text "EEE, MMM d, y"),
    ("formatYearQuarterFull", .text "QQQQ y"),
    ("formatYearQuarterShort", .text "Q y"),
    ("monthsFull", .list
      ["January", "February", "March", "April", "May", "June", "July", "August", "September",
       "October", "November", "December"]),
    ("monthsNarrow", .list ["J", "F", "M", "A", "M", "J", "J", "A", "S", "O", "N", "D"]),
    ("monthsShort", .list
      ["Jan", "Feb", "Mar", "Apr", "May", "Jun", "Jul", "Aug", "Sep", "Oct", "Nov", "Dec"]),
    ("quartersFull", .list ["1st quarter", "2nd quarter", "3rd quarter", "4th quarter"]),
    ("quartersShort", .list numberedQuarters),
    ("timeFormatFull", .text "h:mm:ss a zzzz"),
    ("timeFormatLong", .text "h:mm:ss a z"),
    ("timeFormatMedium", .text "h:mm:ss a"),
    ("timeFormatShort", .text "h:mm a"),
    ("weekdaysFull", .list
      ["Sunday", "Monday", "Tuesday", "Wednesday", "Thursday", "Friday", "Saturday"]),
    ("weekdaysNarrow", .list ["S", "M", "T", "W", "T", "F", "S"]),
    ("weekdaysShort", .list ["Sun", "Mon", "Tue", "Wed", "Thu", "Fri", "Sat"]),
    ("weekendEnd", .text "0"),
    ("weekendStart", .text "6")]

def azTable : Table where
  locale := "az"
  cells := [
    ("dateFormatFull", .text "d MMMM y, EEEE"),
    ("dateFormatLong", .text "d MMMM y"),
    ("dateFormatMedium", .text "d MMM y"),
    ("dateFormatShort", .text "dd.MM.yy"),
    ("dateTimeFull", .text "\x7b1\x7d \x7b0\x7d"),
    ("dateTimeLong", .text "\x7b1\x7d \x7b0\x7d"),
    ("dateTimeMedium", .text "\x7b1\x7d \x7b0\x7d"),
    ("dateTimeShort", .text "\x7b1\x7d \x7b0\x7d"),
    ("erasFull", .list ["eramızdan əvvəl", "yeni era"]),
    ("erasShort", .list ["e.ə.", "y.e."]),
    ("firstDayOfTheWeek", .text "1"),
    ("formatMonthAbbrevDay", .text "d MMM"),
    ("formatMonthFullDay", .text "d MMMM"),
    ("formatMonthFullWeekdayDay", .text "d MMMM, EEEE"),
    ("formatMonthNumDay", .text "dd.MM"),
    ("formatYearMonthAbbrev", .text "MMM y"),
    ("formatYearMonthAbbrevDay", .text "d MMM y"),
    ("formatYearMonthFull", .text "MMMM y"),
    ("formatYearMonthFullDay", .text "d MMMM y"),
    ("formatYearMonthNum", .text "MM.y"),
    ("formatYearMonthNumDay", .text "dd.MM.y"),
    ("formatYearMonthWeekdayDay", .text "d MMM y, EEE"),
    ("formatYearQuarterFull", .text "y QQQQ"),
    ("formatYearQuarterShort", .text "y Q"),
    ("monthsFull", .list
      ["yanvar", "fevral", "mart", "aprel", "may", "iyun", "iyul", "avqust", "sentyabr",
       "oktyabr", "noyabr", "dekabr"]),
    ("monthsShort", .list
      ["yan", "fev", "mar", "apr", "may", "iyn", "iyl", "avq", "sen", "okt", "noy", "dek"]),
    ("quartersFull", .list ["1-ci kvartal", "2-ci kvartal", "3-cü kvartal", "4-cü kvartal"]),
    ("quartersShort", .list ["1-ci kv.", "2-ci kv.", "3-cü kv.", "4-cü kv."]),
    ("timeFormatFull", .text "HH:mm:ss zzzz"),
    ("timeFormatLong", .text "HH:mm:ss z"),
    ("timeFormatMedium", .text "HH:mm:ss"),
    ("timeFormatShort", .text "HH:mm"),
    ("weekdaysFull", .list
      ["bazar", "bazar ertəsi", "çərşənbə axşamı", "çərşənbə", "cümə axşamı", "cümə", "şənbə"]),
    ("weekdaysShort", .list ["B.", "B.E.", "Ç.A.", "Ç.", "C.A.", "C.", "Ş."])]

def azCyrlTable : Table where
  locale := "az_Cyrl"
  cells := [
    ("dateFormatFull", .text "EEEE, d, MMMM, y"),
    ("dateFormatLong", .text "d MMMM, y"),
    ("dateFormatMedium", .text "d MMM, y"),
    ("erasFull", .list ["BCE", "CE"]),
    ("erasShort", .list ["BCE", "CE"]),
    ("formatMonthFullWeekdayDay", .text "EEEE, d, MMMM"),
    ("formatYearMonthAbbrev", .text "MMM, y"),
    ("formatYearMonthAbbrevDay", .text "d MMM, y"),
    ("formatYearMonthFull", .text "MMMM, y"),
    ("formatYearMonthFullDay", .text "d MMMM, y"),
    ("formatYearMonthWeekdayDay", .text "EEE, d, MMM, y"),
    ("monthsFull", .list azCyrlMonths),
    ("monthsShort", .list azCyrlMonths),
    ("quartersFull", .list numberedQuarters),
    ("quartersShort", .list numberedQuarters),
    ("weekdaysFull", .list azCyrlWeekdays),
    ("weekdaysShort", .list azCyrlWeekdays)]

/-- The bundled tables, root first. -/
def tables : List Table :=
  [rootTable, azTable, azCyrlTable]

end Localization.DateTime
