/-!
# Aligned text

Numbers are set to the right and words to the left of a column; a text wider than the column is
written in full.
-/

namespace ProgramDependence.Text

def blanks (n : Nat) : String :=
  String.ofList (List.replicate n ' ')

def alignRight (width : Nat) (s : String) : String :=
  blanks (width - s.length) ++ s

def alignLeft (width : Nat) (s : String) : String :=
  s ++ blanks (width - s.length)

/-- The decimal digits of an integer, with a minus sign if it is negative. -/
def decimal (n : Int) : String :=
  match n with
  | .ofNat k => Nat.repr k
  | .negSucc k => "-" ++ Nat.repr (k + 1)

/-- A number at the right of a column. -/
def column (width : Nat) (n : Int) : String :=
  alignRight width (decimal n)

def join (separator : String) : List String → String
  | [] => ""
  | [s] => s
  | s :: t :: rest => s ++ separator ++ join separator (t :: rest)

/-- Numbers in square brackets, separated by a comma and a blank. -/
def bracketed (ns : List Int) : String :=
  "[" ++ join ", " (ns.map decimal) ++ "]"

def rule (n : Nat) : String :=
  String.ofList (List.replicate n '-')

end ProgramDependence.Text
