/-!
# Variables

A variable is what an expression reads or writes.  Two variables are the same iff name, owner and
index agree (`Variable.identity`); type, kind and the field behind it are information only.
-/

namespace ProgramDependence

structure FieldRef where
  index : Nat
  deriving DecidableEq, Repr, Inhabited

structure MethodRef where
  index : Nat
  deriving DecidableEq, Repr, Inhabited

structure ClassRef where
  index : Nat
  deriving DecidableEq, Repr, Inhabited

/-- What a variable stands for; special variables are made up by the analysis. -/
inductive VariableKind where
  | localVar
  | parameter
  | field
  | special
  deriving DecidableEq, Repr, Inhabited

def VariableKind.word : VariableKind → String
  | .localVar => "local"
  | .parameter => "parameter"
  | .field => "field"
  | .special => "special"

/-- A variable: `owner` is the qualified name of the declaring method or class, `index` tells apart
shadowed locals of one name. -/
structure Variable where
  name : String
  type : String := ""
  owner : String := ""
  kind : VariableKind := .localVar
  index : Int := 0
  field : Option FieldRef := none
  deriving DecidableEq, Repr, Inhabited

/-- The part of a variable that decides whether two variables are the same. -/
structure VariableIdentity where
  name : String
  owner : String
  index : Int
  deriving DecidableEq, Repr, Inhabited

namespace Variable

def identity (v : Variable) : VariableIdentity :=
  ⟨v.name, v.owner, v.index⟩

def same (v w : Variable) : Bool :=
  v.identity = w.identity

/-- Whether the variable is, up to identity, in a list. -/
def isIn (v : Variable) (vs : List Variable) : Bool :=
  vs.any v.same

def primitiveTypes : List String :=
  ["boolean", "byte", "char", "short", "int", "long", "float", "double"]

/-- Whether the variable holds a primitive value, not an object. -/
def isPrimitive (v : Variable) : Bool :=
  primitiveTypes.contains v.type

/-- Owner and name, or the name alone where there is no owner. -/
def qualifiedName (v : Variable) : String :=
  if v.owner = "" then v.name else v.owner ++ "." ++ v.name

theorem same_iff {v w : Variable} : v.same w = true ↔ v.identity = w.identity := by
  simp [same]

theorem isIn_iff {v : Variable} {vs : List Variable} : v.isIn vs = true ↔
    ∃ w ∈ vs, v.identity = w.identity := by
  simp [isIn, same]

end Variable

end ProgramDependence
