import ProgramDependence.Text.Align

/-!
# Dot documents

A document is a list of statements between braces, some of them grouped into clusters.  Values are
written bare if they are identifiers, numbers or HTML texts, and in quotes otherwise.
-/

namespace ProgramDependence.Dot

/-! ## Quoting -/

def isWordChar (c : Char) : Bool :=
  c.isAlphanum || c = '_'

/-- A text without a line feed at its end. -/
def withoutFinalFeed (cs : List Char) : List Char :=
  match cs.reverse with
  | '\n' :: rest => rest.reverse
  | _ => cs

/-- An identifier: word characters, the first of them no digit. -/
def isWord : List Char → Bool
  | [] => false
  | c :: cs => !c.isDigit && (c :: cs).all isWordChar

/-- Digits with at most one point among them, and at least one digit. -/
def isUnsigned (cs : List Char) : Bool :=
  cs.any Char.isDigit &&
    match cs.dropWhile Char.isDigit with
    | [] => true
    | '.' :: fraction => fraction.all Char.isDigit
    | _ => false

/-- A number: digits with an optional point and an optional minus sign in front. -/
def isNumber : List Char → Bool
  | '-' :: cs => isUnsigned cs
  | cs => isUnsigned cs

/-- An HTML text: it starts with an opening and ends with a closing angle bracket. -/
def isHtml (cs : List Char) : Bool :=
  match withoutFinalFeed cs with
  | '<' :: rest => rest.getLast? = some '>'
  | _ => false

def keywords : List String :=
  ["node", "edge", "graph", "digraph", "subgraph", "strict"]

/-- Whether a value is written as it is. -/
def isBare (s : String) : Bool :=
  let cs := s.toList
  let bare := withoutFinalFeed cs
  isHtml cs ||
    ((isWord bare || isNumber bare) && !keywords.contains (String.ofList (cs.map Char.toLower)))

/-- Put a backslash before every quote that has none; `odd` tells whether an odd number of
backslashes stands in front. -/
def escapeQuotes (odd : Bool) : List Char → List Char
  | [] => []
  | '\\' :: cs => '\\' :: escapeQuotes (!odd) cs
  | '\x22' :: cs => (if odd then ['\x22'] else ['\\', '\x22']) ++ escapeQuotes false cs
  | c :: cs => c :: escapeQuotes false cs

def quote (s : String) : String :=
  if isBare s then s else "\x22" ++ String.ofList (escapeQuotes false s.toList) ++ "\x22"

def escapeHtmlChar : Char → String
  | '&' => "&amp;"
  | '<' => "&lt;"
  | '>' => "&gt;"
  | '\x22' => "&quot;"
  | '\x27' => "&#x27;"
  | c => c.toString

def escapeHtml (s : String) : String :=
  String.join (s.toList.map escapeHtmlChar)

/-! ## Documents -/

abbrev Attributes := List (String × String)

inductive Statement where
  | settings (attributes : Attributes)
  | defaults (scope : String) (attributes : Attributes)
  | node (name : String) (attributes : Attributes)
  | edge (tail head : String) (attributes : Attributes)
  deriving Repr, Inhabited

inductive Entry where
  | single (s : Statement)
  | cluster (name : String) (body : List Statement)
  deriving Repr, Inhabited

structure Document where
  title : String
  entries : List Entry
  deriving Repr, Inhabited

def renderAttributes (attributes : Attributes) : String :=
  Text.join " " (attributes.map fun a => quote a.1 ++ "=" ++ quote a.2)

def bracketAttributes (attributes : Attributes) : String :=
  if attributes.isEmpty then "" else " [" ++ renderAttributes attributes ++ "]"

def Statement.render : Statement → String
  | settings attributes => renderAttributes attributes
  | defaults scope attributes => scope ++ bracketAttributes attributes
  | node name attributes => quote name ++ bracketAttributes attributes
  | edge tail head attributes => quote tail ++ " -> " ++ quote head ++ bracketAttributes attributes

def Entry.lines : Entry → List String
  | single s => ["\t" ++ s.render]
  | cluster name body =>
    ["\tsubgraph " ++ quote name ++ " \x7b"] ++ body.map (fun s => "\t\t" ++ s.render) ++ ["\t\x7d"]

/-- The text of a document.  An empty title is left out. -/
def Document.render (d : Document) : String :=
  let title := if d.title = "" then [] else ["// " ++ d.title]
  String.join <|
    (title ++ ["strict digraph \x7b"] ++ d.entries.flatMap Entry.lines ++ ["\x7d"]).map (· ++ "\n")

end ProgramDependence.Dot
