import LinkQuery.Text.Alphabetic
import LinkQuery.Text.Numeric
/-!
# Identifier characters

A name begins with a letter or an underscore and goes on with letters, numerals and underscores.
-/
namespace LinkQuery.Text

/-- A character that may begin a name. -/
def isNameStart (c : Char) : Bool :=
  isLetter c || c == '_'

/-- A character that may stand inside a name. -/
def isNameChar (c : Char) : Bool :=
  isLetter c || isNumeral c || c == '_'

theorem isNameChar_of_isNameStart {c : Char} (h : isNameStart c) : isNameChar c := by
  simp only [isNameStart, isNameChar, Bool.or_eq_true] at h ⊢
  exact h.elim (fun h => Or.inl (Or.inl h)) Or.inr

end LinkQuery.Text
