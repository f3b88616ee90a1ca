import ProgramDependence.Error
import ProgramDependence.Settings.Reference
import ProgramDependence.Table

/-!
# Files of environment variables

A file sets variables by lines of the form `NAME=value`.  Blank lines and lines that start with `#`
say nothing, `export` may stand in front, and blanks around the name, the equals sign and the value
are dropped.  A quoted value is the text between the quotes; in an unquoted value a `#` after a
blank starts a comment.  A line of another form is passed over.

A name without an equals sign has no value: it sets nothing and undoes the lines before it.  In a
value, references to variables are replaced by their values, first those of the lines before and
then those of the environment.
-/

namespace ProgramDependence.EnvironmentFile

def isLineEnd (c : Char) : Bool :=
  c = '\n' || c = '\r'

def isInnerBlank (c : Char) : Bool :=
  Text.isBlank c && !isLineEnd c

def skipBlanks (cs : List Char) : List Char :=
  cs.dropWhile isInnerBlank

def skipLine (cs : List Char) : List Char :=
  match cs.dropWhile fun c => !isLineEnd c with
  | '\r' :: rest => rest
  | '\n' :: rest => rest
  | rest => rest

def skipExport (cs : List Char) : List Char :=
  match cs with
  | 'e' :: 'x' :: 'p' :: 'o' :: 'r' :: 't' :: c :: rest =>
    if isInnerBlank c then skipBlanks rest else cs
  | _ => cs

def isNameChar (c : Char) : Bool :=
  c ≠ '=' && c ≠ '#' && !Text.isBlank c

/-- Read a name: quoted, or a run of name characters; a comment has none. -/
def readName (cs : List Char) : Option (Option String × List Char) :=
  match cs with
  | '#' :: _ => some (none, cs)
  | '\x27' :: rest =>
    let name := rest.takeWhile (· ≠ '\x27')
    match rest.drop name.length with
    | '\x27' :: rest => if name.isEmpty then none else some (some (String.ofList name), rest)
    | _ => none
  | _ =>
    let name := cs.takeWhile isNameChar
    if name.isEmpty then none else some (some (String.ofList name), cs.drop name.length)

/-- Read a quoted value up to its closing quote.  A backslash and the character after it belong
together, so a quote after a backslash does not close the value. -/
def readQuoted (quote : Char) : List Char → List Char → Option (List Char × List Char)
  | [], _ => none
  | ['\\'], _ => none
  | '\\' :: c :: rest, done => readQuoted quote rest (c :: '\\' :: done)
  | c :: rest, done =>
    if c = quote then some (done.reverse, rest) else readQuoted quote rest (c :: done)

def escape? : Char → Option Char
  | '\\' => some '\\'
  | '\x27' => some '\x27'
  | '\x22' => some '\x22'
  | 'a' => some '\x07'
  | 'b' => some '\x08'
  | 'f' => some '\x0c'
  | 'n' => some '\n'
  | 'r' => some '\r'
  | 't' => some '\t'
  | 'v' => some '\x0b'
  | _ => none

/-- Resolve the escapes of a quoted value; between single quotes only those of the backslash and the
quote count. -/
def unescape (quote : Char) : List Char → List Char
  | '\\' :: c :: rest =>
    let known := if quote = '\x22' then escape? c else if c = '\\' || c = '\x27' then some c else none
    match known with
    | some d => d :: unescape quote rest
    | none => '\\' :: unescape quote (c :: rest)
  | c :: rest => c :: unescape quote rest
  | [] => []

/-- Cut an unquoted value at the first blanks that a `#` follows. -/
def cutComment : List Char → List Char
  | [] => []
  | c :: rest =>
    if Text.isBlank c && ((c :: rest).dropWhile Text.isBlank).head? = some '#' then []
    else c :: cutComment rest

/-- Read a value behind its equals sign.  A `#` that only blanks separate from the sign starts a
comment, so the value is empty then. -/
def readAssigned (cs : List Char) : Option (String × List Char) :=
  match skipBlanks cs with
  | [] => some ("", [])
  | c :: rest =>
    if c = '\x27' || c = '\x22' then
      (readQuoted c rest []).map fun r => (String.ofList (unescape c r.1), r.2)
    else
      let line := cs.takeWhile fun c => !isLineEnd c
      some (Text.strip (String.ofList (cutComment line)), cs.drop line.length)

/-- Read what may follow a value: a comment, and then the end of the line. -/
def readEnd (cs : List Char) : Option (List Char) :=
  let cs := skipBlanks cs
  let cs := match cs with
    | '#' :: rest => rest.dropWhile fun c => !isLineEnd c
    | _ => cs
  match skipBlanks cs with
  | [] => some []
  | '\r' :: '\n' :: rest => some rest
  | c :: rest => if isLineEnd c then some rest else none

/-- A line that names a variable, with its value if it has one. -/
structure Line where
  name : String
  value : Option String
  deriving DecidableEq, Repr, Inhabited

/-- Read one line: what it says about a variable, if anything, and the rest of the file. -/
def readLine (cs : List Char) : Option Line × List Char :=
  let cs := skipExport cs
  match readName cs with
  | none => (none, skipLine cs)
  | some (name, rest) =>
    match skipBlanks rest with
    | '=' :: rest =>
      match readAssigned rest with
      | none => (none, skipLine rest)
      | some (v, rest) =>
        match readEnd rest with
        | none => (none, skipLine rest)
        | some rest => (name.map fun n => ⟨n, some v⟩, rest)
    | rest =>
      match readEnd rest with
      | none => (none, skipLine rest)
      | some rest => (name.map fun n => ⟨n, none⟩, rest)

def readLines : Nat → List Char → List Line
  | 0, _ => []
  | fuel + 1, cs =>
    match cs.dropWhile Text.isBlank with
    | [] => []
    | cs =>
      match readLine cs with
      | (some l, rest) => l :: readLines fuel rest
      | (none, rest) => readLines fuel rest

/-- Drop the mark that may stand at the start of a text file. -/
def dropMark (cs : List Char) : List Char :=
  match cs with
  | '\ufeff' :: rest => rest
  | _ => cs

def lines (text : String) : List Line :=
  readLines (text.length + 1) (dropMark text.toList)

/-! ## Loading -/

/-- The value that a reference stands for: what the lines before say, where a name without a value
counts as empty, or else the environment, or else the default. -/
def valueOf (environment : Table String String) (before : Table String (Option String))
    (r : Reference) : String :=
  match before.find? r.name with
  | some value => value.getD ""
  | none => (environment.find? r.name).getD (r.default.getD "")

/-- The variables that some lines name, with the values the last line of each gives. -/
def resolve (environment : Table String String) (ls : List Line) : Table String (Option String) :=
  ls.foldl
    (fun before l =>
      before.insert l.name (l.value.map (Reference.replaceAll (valueOf environment before))))
    {}

/-- Set a variable.  Neither its name nor its value may hold the null character, and its name no
equals sign. -/
def setVariable (environment : Table String String) (name value : String) :
    Except Error (Table String String) :=
  if name.contains '\x00' || value.contains '\x00' then .error .nullCharacter
  else if name.contains '=' then .error .illegalVariable
  else .ok (environment.insert name value)

/-- Set variables one after the other up to the first that cannot be set. -/
def setAll (environment : Table String String) : List (String × Option String) →
    Table String String × Option Error
  | [] => (environment, none)
  | (_, none) :: rest => setAll environment rest
  | (name, some value) :: rest =>
    match setVariable environment name value with
    | .ok environment => setAll environment rest
    | .error e => (environment, some e)

def load (text : String) (environment : Table String String) : Table String String × Option Error :=
  setAll environment (resolve environment (lines text)).entries

end ProgramDependence.EnvironmentFile
