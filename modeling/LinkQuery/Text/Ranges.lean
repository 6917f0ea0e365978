/-!
# Ranges of code points

A Unicode property is kept as a list of inclusive ranges of code points. `Ranges.has` asks whether
a character lies in one of them.
-/
namespace LinkQuery.Text

/-- Inclusive ranges of code points. -/
abbrev Ranges := List (Nat × Nat)

/-- The character lies in one of the ranges. -/
def Ranges.has (table : Ranges) (c : Char) : Bool :=
  table.any fun range => range.1 ≤ c.toNat && c.toNat ≤ range.2

end LinkQuery.Text
