import LinkQuery.Text.Ranges
/-!
# White space

The Unicode property White_Space, and cutting it off both ends of a text.
-/
namespace LinkQuery.Text

/-- The ranges of the property White_Space. -/
def blankRanges : Ranges :=
  [(0x9, 0xd), (0x20, 0x20), (0x85, 0x85), (0xa0, 0xa0), (0x1680, 0x1680), (0x2000, 0x200a),
   (0x2028, 0x2029), (0x202f, 0x202f), (0x205f, 0x205f), (0x3000, 0x3000)]

/-- A white space character. -/
def isBlank (c : Char) : Bool :=
  blankRanges.has c

/-- The characters without the white space in front of them. -/
def dropBlanks (cs : List Char) : List Char :=
  cs.dropWhile isBlank

/-- The text without white space at either end. -/
def trim (text : String) : String :=
  String.ofList (dropBlanks (dropBlanks text.toList).reverse).reverse

/-- The text holds nothing but white space. -/
def isBlankText (text : String) : Bool :=
  text.toList.all isBlank

end LinkQuery.Text
