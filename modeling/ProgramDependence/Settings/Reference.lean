/-!
# References to variables

A text may refer to a variable by its name between `${` and `}`.  After the name `:-` and a default
may follow.  Neither name nor default holds a closing brace, and the name holds no colon.  What is
not of this form stands for itself.
-/

namespace ProgramDependence

structure Reference where
  name : String
  default : Option String := none
  deriving DecidableEq, Repr, Inhabited

namespace Reference

def read? (cs : List Char) : Option (Reference × List Char) :=
  let name := cs.takeWhile fun c => c ≠ '\x7d' && c ≠ ':'
  match cs.drop name.length with
  | '\x7d' :: rest => some (⟨String.ofList name, none⟩, rest)
  | ':' :: '-' :: rest =>
    let default := rest.takeWhile (· ≠ '\x7d')
    match rest.drop default.length with
    | '\x7d' :: rest => some (⟨String.ofList name, some (String.ofList default)⟩, rest)
    | _ => none
  | _ => none

/-- Replace the references in a text.  Each step takes at least one character. -/
def replaceIn (value : Reference → String) : Nat → List Char → List Char
  | 0, _ => []
  | _ + 1, [] => []
  | fuel + 1, '$' :: '\x7b' :: rest =>
    match read? rest with
    | some (r, rest) => (value r).toList ++ replaceIn value fuel rest
    | none => '$' :: replaceIn value fuel ('\x7b' :: rest)
  | fuel + 1, c :: rest => c :: replaceIn value fuel rest

/-- Replace the references in a text by what they stand for. -/
def replaceAll (value : Reference → String) (text : String) : String :=
  String.ofList (replaceIn value text.length text.toList)

end Reference

end ProgramDependence
