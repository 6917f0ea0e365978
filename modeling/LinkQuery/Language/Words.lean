/-!
# Keywords of the language

The words that the grammars reserve in their places. Where several begin alike, the order is the
one in which they are tried.
-/
namespace LinkQuery.Language

/-- The quantifiers in front of a path or a condition. -/
def quantifierWords : List String :=
  ["ANY", "ALL", "NONE"]

/-- The operators that compare two paths. -/
def pathOperatorWords : List String :=
  ["EQUALS", "DIFFERS", "INTERSECTS", "CONTAINS", "DISJOINT"]

/-- The units of time. -/
def timeUnitWords : List String :=
  ["SECONDS", "SECOND", "MINUTES", "MINUTE", "HOURS", "HOUR", "DAYS", "DAY", "WEEKS", "WEEK",
   "MONTHS", "MONTH", "QUARTERS", "QUARTER", "YEARS", "YEAR"]

/-- The named periods. -/
def periodWords : List String :=
  ["TODAY", "YESTERDAY", "THISMINUTE", "THISHOUR", "THISWEEK", "THISMONTH", "THISYEAR",
   "LASTMINUTE", "LASTHOUR", "LASTDAY", "LASTWEEK", "LASTMONTH", "LASTYEAR"]

/-- The selections around a grouping item. -/
def selectionWords : List String :=
  ["TOP", "BOTTOM", "FIRST", "LAST"]

/-- The modifiers behind a grouping path. -/
def modifierWords : List String :=
  ["BATCH", "SETS", "EXCLUDE", "INCLUDE", "UPPER", "LOWER"]

/-- The functions of metrics. -/
def metricWords : List String :=
  ["COUNT", "SUM", "AVERAGE", "MINCOUNT", "MAXCOUNT", "MIN", "MAX", "DISTINCT", "ROUNDUP"]

end LinkQuery.Language
