import LinkQuery.Text.Lowercase
/-!
# The manual

The pages that explain the language, and the names under which they are found.
-/
namespace LinkQuery.Manual

/-- Lines as one text. -/
def page (lines : List String) : String :=
  String.join (lines.map (· ++ "\n"))

/-- The list of topics with a short reference. -/
def overview : String :=
  page [
    "TABULA QUERY DOCUMENTATION",
    "",
    "Tabula expressions select, group and measure objects stored in tables that",
    "link to each other. Every expression is compiled against a schema.",
    "",
    "DOCUMENTATION TOPICS",
    "",
    "  filters           Comparisons, ranges, AND/OR/NOT, NULL tests and counts",
    "  links             Paths through links, quantifiers, WHERE and transitive links",
    "  time              NOW(), named periods and time zones",
    "  groups            GROUP(...), TRUNCATE, TERMS, BATCH/SETS and TOP/BOTTOM",
    "  metrics           SUM/AVERAGE/COUNT..., arithmetic and DATEDIFF",
    "  field-sets        Field sets and sort orders",
    "",
    "QUICK REFERENCE",
    "",
    "  Name = 'Bob'                   Comparison",
    "  Size = [1 TO 10\x7d               Range (bracket inclusive, brace exclusive)",
    "  Owner.Department = 'R&D'       Path through a link",
    "  Owner.ALL(Active = true)       Quantified condition",
    "  Manager IS NULL                Missing value or link",
    "  COUNT(Links) > 3               Link count",
    "",
    "Run 'tabula doc <topic>' for detailed documentation."]

/-- Selecting objects. -/
def filters : String :=
  page [
    "FILTERS - Selecting Objects",
    "",
    "COMPARISONS",
    "",
    "  Name = 'Bob'          Equality",
    "  Tags : priority       Contains (text fields: case-insensitive substring)",
    "  Size < 10             Also <=, >, >=",
    "  Size = [1 TO 10]      Inclusive range",
    "  Size = \x7b1 TO 10\x7d      Exclusive range",
    "  Size = [1 TO *]       Open upper bound",
    "",
    "  Values are converted to the field's type, so Size = '10' and Size = 10",
    "  are the same comparison on an integer field.",
    "",
    "COMBINING",
    "",
    "  A = 1 AND B = 2       Both",
    "  A = 1 B = 2           Adjacent terms are ANDed",
    "  A = 1 OR B = 2        Either",
    "  A = 1, B = 2          A comma outside function parentheses is OR",
    "  NOT A = 1             Negation",
    "  (A = 1 OR B = 2) C=3  Parentheses group",
    "  *                     Every object",
    "",
    "NULL TESTS",
    "",
    "  Manager IS NULL       No value (or no linked object)",
    "  Manager = NULL        Same as IS NULL",
    "  Manager IS NOT NULL   Has a value",
    "",
    "COUNTS",
    "",
    "  COUNT(Links) > 3                           Linked objects",
    "  COUNT(Links WHERE(Status = 'Open')) = 2    Filtered linked objects",
    "  COUNT(Tags) = [1 TO 3]                     Values of a multi-valued field",
    "  DCOUNT(Owner.Reports) >= 5                 Distinct objects along a path",
    "",
    "PATH OPERATORS",
    "",
    "  EQUALS(A.X, B.X)      Same value sets",
    "  DIFFERS(A.X, B.X)     Different value sets",
    "  INTERSECTS(A.X, B.X)  At least one shared value",
    "  CONTAINS(A.X, B.X)    Left includes every value of the right",
    "  DISJOINT(A.X, B.X)    No shared value"]

/-- Paths through links. -/
def links : String :=
  page [
    "LINKS - Paths, Quantifiers and WHERE",
    "",
    "PATHS",
    "",
    "  Owner = 'p1'                      Link to the object with id p1",
    "  Owner.Department = 'R&D'          Some owner is in R&D",
    "  Owner.Manager.Name = 'Ann'        Paths may cross several links",
    "  _ID = 't1'                        The object itself",
    "",
    "QUANTIFIERS",
    "",
    "  ALL(Owner).Active = true          Every owner is active",
    "  NONE(Owner).Active = true         No owner is active",
    "  Owner.ANY(Active = true)          Condition block on a link",
    "  ALL(Owner.Reports).Name = 'x'     A quantifier covers every link inside it",
    "",
    "WHERE",
    "",
    "  Owner WHERE(Active = true)               Some active owner exists",
    "  Owner.WHERE(Active = true).ALL(X = 1)    Every active owner has X = 1",
    "  Reports WHERE(A = 1) WHERE(B = 2)        Several WHERE blocks are ANDed",
    "",
    "TRANSITIVE LINKS",
    "",
    "  Parent^.Name = 'root'             Some ancestor is named root",
    "  Parent^(3).Name = 'root'          Within three hops",
    "",
    "  A transitive link must point back to its own table.",
    "",
    "GROUP FIELDS",
    "",
    "  People = 'p1'                     Any link of the group points to p1",
    "  ALL(People).Active = true         Every link of the group qualifies"]

/-- Relative time. -/
def time : String :=
  page [
    "TIME - NOW(), Periods and Zones",
    "",
    "NOW",
    "",
    "  Created > NOW()                   Current instant",
    "  Created > NOW(-1 DAY)             One day ago",
    "  Created > NOW('Europe/Paris', -1 MONTH)",
    "                                    Offsets move local wall-clock time",
    "",
    "PERIODS",
    "",
    "  Created = TODAY                   Also YESTERDAY",
    "  Created = THISWEEK                Also THISMINUTE, THISHOUR, THISMONTH, THISYEAR",
    "  Created = LASTMONTH               The whole previous month",
    "  Created = LASTMONTH(3)            The three whole months before this one",
    "  Created = LASTDAY(2, 'UTC+02:00') With an explicit zone",
    "",
    "  Periods are half-open: they include their start and exclude their end.",
    "  Weeks start on Monday.",
    "",
    "ZONES",
    "",
    "  IANA names (Europe/Paris) and fixed offsets (UTC+02:00, GMT-5) are",
    "  accepted. Without a zone the caller's configured zone applies."]

/-- Groupings. -/
def groups : String :=
  page [
    "GROUPS - Aggregation Grouping",
    "",
    "  GROUP(Status)                          One level",
    "  GROUP(Owner.Department, Status)        Nested levels",
    "  GROUP(Status), GROUP(Priority)         Independent grouping sets",
    "  Status, Priority                       A bare list is one grouping set",
    "",
    "OPTIONS",
    "",
    "  TRUNCATE(Created, MONTH)               Bucket timestamps (optional zone)",
    "  TERMS(Description, (a the of))         Group on terms, minus stop words",
    "  TOP(5, Owner.Name)                     Also BOTTOM, FIRST, LAST",
    "  Size.BATCH(1, 5, 10)                   Ascending boundaries",
    "  Status.SETS(Open, Closed)              Named buckets, no duplicates",
    "  Status.EXCLUDE(Archived)               Also INCLUDE(...)",
    "  Owner.Name.UPPER()                     Also LOWER(); text fields only",
    "",
    "  BATCH and SETS cannot be applied to links."]

/-- Metrics. -/
def metrics : String :=
  page [
    "METRICS - Measuring Groups",
    "",
    "FUNCTIONS",
    "",
    "  COUNT(*)                               Objects",
    "  COUNT(Links)                           Linked objects",
    "  SUM(Amount)  AVERAGE(Amount)           Numeric fields",
    "  MIN(Created)  MAX(Created)             Numeric or timestamp fields",
    "  DISTINCT(Owner)                        Distinct values",
    "  MINCOUNT(Links)  MAXCOUNT(Links)       Smallest/largest count per object",
    "  ROUNDUP(Amount, 10)                    Rounded up to a step",
    "",
    "  SUM(Amount WHERE(Status = 'Open'))     Only matching objects",
    "",
    "ARITHMETIC",
    "",
    "  SUM(A) + SUM(B) * 2                    Usual precedence",
    "  (SUM(A) - 5) / COUNT(*)                Parentheses",
    "",
    "DATES",
    "",
    "  DATEDIFF(DAY, Created, NOW())          Whole units between two instants",
    "  DATEDIFF(DAY, '2024-01-01', '2024-01-10')",
    "                                         Literal instants fold to 9"]

/-- Field sets and sort orders. -/
def fieldSets : String :=
  page [
    "FIELD-SETS - Choosing Fields and Order",
    "",
    "FIELD SETS",
    "",
    "  *                                      Every scalar field",
    "  Name, Status                           Named fields",
    "  Owner(Name, Email)                     Fields of the linked objects",
    "  Owner.Name                             Same, for a single field",
    "  Reports[5](Name)                       At most five linked objects",
    "  Reports.WHERE(Active = true)(Name)     Only matching linked objects",
    "",
    "SORT ORDERS",
    "",
    "  Name                                   Ascending",
    "  Created DESC, Name ASC                 Several keys",
    "  Owner.Name                             Through a link"]

/-- The topics of the manual. -/
inductive Topic where
  | filters | links | time | groups | metrics | fieldSets
deriving Repr, DecidableEq

namespace Topic

/-- The names of a topic. -/
def names : Topic → List String
  | .filters => ["filters", "filter"]
  | .links => ["links", "link", "paths"]
  | .time => ["time", "dates", "periods"]
  | .groups => ["groups", "group", "aggregation"]
  | .metrics => ["metrics", "metric", "statistics"]
  | .fieldSets => ["field-sets", "fields", "sort"]

/-- The page of a topic. -/
def text : Topic → String
  | .filters => Manual.filters
  | .links => Manual.links
  | .time => Manual.time
  | .groups => Manual.groups
  | .metrics => Manual.metrics
  | .fieldSets => Manual.fieldSets

end Topic

/-- A name in lower case with hyphens for underscores. -/
def normalName (name : String) : String :=
  String.ofList ((Text.lowercase name).toList.map fun c => if c == '_' then '-' else c)

/-- The topic with a name, in any letter case. -/
def topic? (name : String) : Option Topic :=
  [.filters, .links, .time, .groups, .metrics, .fieldSets].find? fun topic =>
    topic.names.contains (normalName name)

end LinkQuery.Manual
