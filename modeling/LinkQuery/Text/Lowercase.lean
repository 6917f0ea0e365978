import LinkQuery.Text.CaseTables
/-!
# Lower case

The full lower case of a text. A capital becomes its small letter, a capital I with a dot becomes
two characters, and a capital sigma becomes a final sigma at the end of a word: after a cased
letter and not before one, characters without influence on case being skipped on both sides.
-/
namespace LinkQuery.Text

/-- A letter that has case. -/
def isCased (c : Char) : Bool :=
  casedRanges.has c

/-- A character that is skipped when the letters around a sigma are looked at. -/
def isCaseIgnorable (c : Char) : Bool :=
  caseIgnorableRanges.has c

/-- The first character that is not skipped is a cased letter. -/
def meetsCased (cs : List Char) : Bool :=
  match cs.dropWhile isCaseIgnorable with
  | [] => false
  | c :: _ => isCased c

/-- The small form of a capital sigma that stands between the two texts, `before` reversed. -/
def lowerSigma (before after : List Char) : Char :=
  if meetsCased before && !meetsCased after then 'ς' else 'σ'

/-- The run of capitals that holds the code point gives its small letter. -/
def smallLetter? (n : Nat) : Option Nat :=
  (capitalRuns.find? fun (first, last, step, _) =>
    first ≤ n && n ≤ last && (n - first) % step == 0).map fun (first, _, _, small) =>
      small + (n - first)

/-- The small form of a character without regard to its neighbours. -/
def lowerChar (c : Char) : List Char :=
  if c.toNat < 128 then [c.toLower]
  else if c == 'İ' then ['i', '\u0307']
  else match smallLetter? c.toNat with
    | some n => [Char.ofNat n]
    | none => [c]

/-- Lower case of the characters after `before`, which is reversed. -/
def lowerFrom (before : List Char) : List Char → List Char
  | [] => []
  | 'Σ' :: rest => lowerSigma before rest :: lowerFrom ('Σ' :: before) rest
  | c :: rest => lowerChar c ++ lowerFrom (c :: before) rest

/-- The text in lower case. -/
def lowercase (text : String) : String :=
  String.ofList (lowerFrom [] text.toList)

end LinkQuery.Text
