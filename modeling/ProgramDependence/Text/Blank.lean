/-!
# Blanks

The characters that count as blank: the Unicode white space together with the information separators
U+001C to U+001F.  `strip` removes them from both ends of a text.
-/

namespace ProgramDependence.Text

def blankRanges : List (Nat × Nat) :=
  [(0x09, 0x0d), (0x1c, 0x20), (0x85, 0x85), (0xa0, 0xa0), (0x1680, 0x1680), (0x2000, 0x200a),
    (0x2028, 0x2029), (0x202f, 0x202f), (0x205f, 0x205f), (0x3000, 0x3000)]

def isBlank (c : Char) : Bool :=
  blankRanges.any fun r => r.1 ≤ c.toNat && c.toNat ≤ r.2

def stripFront (cs : List Char) : List Char :=
  cs.dropWhile isBlank

def stripBack (cs : List Char) : List Char :=
  (cs.reverse.dropWhile isBlank).reverse

def strip (s : String) : String :=
  String.ofList (stripBack (stripFront s.toList))

end ProgramDependence.Text
