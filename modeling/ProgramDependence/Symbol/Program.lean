import ProgramDependence.Source.Tree

/-!
# Programs

A `Program` lists fields, methods and classes; references are positions in these lists.  A unit (a
field or a method) knows the class that declares it, and its qualified name is read off the program
at the moment it is asked for, so moving a unit to another class renames it everywhere.
-/

namespace ProgramDependence

inductive ClassKind where
  | classType
  | interface
  | enum
  deriving DecidableEq, Repr, Inhabited

inductive MethodKind where
  | method
  | constructor
  | initializer
  deriving DecidableEq, Repr, Inhabited

/-- A field or an enum constant. -/
structure Field where
  name : String
  type : String := ""
  initializer : Expr := .absent
  modifiers : List String := []
  isEnumConstant : Bool := false
  inProject : Bool := true
  line : Int := 0
  declaring : Option ClassRef := none
  deriving Inhabited

structure Method where
  name : String
  parameters : List Variable := []
  returnType : String := "void"
  kind : MethodKind := .method
  body : Stmt := .absent
  modifiers : List String := []
  inProject : Bool := true
  line : Int := 0
  declaring : Option ClassRef := none
  deriving Inhabited

structure ClassDecl where
  qualifiedName : String
  kind : ClassKind := .classType
  fields : List FieldRef := []
  methods : List MethodRef := []
  inner : List ClassRef := []
  line : Int := 0
  deriving Inhabited

inductive UnitRef where
  | method (m : MethodRef)
  | field (f : FieldRef)
  deriving DecidableEq, Repr, Inhabited

structure Program where
  fields : List Field := []
  methods : List Method := []
  classes : List ClassDecl := []
  deriving Inhabited

namespace Field

def isStatic (f : Field) : Bool :=
  f.modifiers.contains "static"

end Field

namespace Method

/-- The name with the ordered parameter types. -/
def signature (m : Method) : String :=
  m.name ++ "(" ++ Text.join "," (m.parameters.map (·.type)) ++ ")"

/-- Constructors and initializers return nothing, a method does so iff its type is `void`. -/
def isVoid (m : Method) : Bool :=
  m.kind ≠ .method || m.returnType = "void"

end Method

namespace ClassDecl

/-- The part of the qualified name after the last dot. -/
def simpleName (c : ClassDecl) : String :=
  String.ofList (c.qualifiedName.toList.reverse.takeWhile (· ≠ '.')).reverse

end ClassDecl

namespace Program

def field? (p : Program) (r : FieldRef) : Option Field :=
  p.fields[r.index]?

def method? (p : Program) (r : MethodRef) : Option Method :=
  p.methods[r.index]?

def class? (p : Program) (r : ClassRef) : Option ClassDecl :=
  p.classes[r.index]?

/-- The qualified name of a class, empty where there is none. -/
def className (p : Program) (r : Option ClassRef) : String :=
  match r.bind p.class? with
  | some c => c.qualifiedName
  | none => ""

/-- Declaring class and name of a field. -/
def nameOfField (p : Program) (f : Field) : String :=
  p.className f.declaring ++ "#" ++ f.name

/-- Declaring class and signature of a method. -/
def nameOfMethod (p : Program) (m : Method) : String :=
  p.className m.declaring ++ "#" ++ m.signature

def fieldName (p : Program) (r : FieldRef) : String :=
  match p.field? r with
  | some f => p.nameOfField f
  | none => ""

/-- The qualified name of a method, by which it is cached. -/
def methodName (p : Program) (r : MethodRef) : String :=
  match p.method? r with
  | some m => p.nameOfMethod m
  | none => ""

def unitName (p : Program) : UnitRef → String
  | .method m => p.methodName m
  | .field f => p.fieldName f

def unitInProject (p : Program) : UnitRef → Bool
  | .method m => ((p.method? m).map (·.inProject)).getD false
  | .field f => ((p.field? f).map (·.inProject)).getD false

def unitCount (p : Program) : Nat :=
  p.fields.length + p.methods.length

/-- The variable of a field, owned by its declaring class. -/
def fieldVariable (p : Program) (r : FieldRef) (f : Field) : Variable :=
  { name := f.name, type := f.type, owner := p.className f.declaring, kind := .field, field := some r }

/-- The made-up local that carries the value a method returns. -/
def returnVariable (p : Program) (m : Method) : Variable :=
  { name := "$" ++ m.name, type := m.returnType, owner := p.nameOfMethod m, kind := .special }

/-- Keep the first of several methods with one qualified name. -/
def distinctMethods (p : Program) (seen : List String) : List MethodRef → List MethodRef
  | [] => []
  | r :: rs =>
    let n := p.methodName r
    if n ∈ seen then p.distinctMethods seen rs else r :: p.distinctMethods (n :: seen) rs

/-- The methods that the calls in a body are bound to, in order of appearance, one per qualified
name. -/
def calledMethods (p : Program) (m : Method) : List MethodRef :=
  p.distinctMethods [] <|
    ((Tree.walkStmt m.body).filterMap Tree.binding?).filter fun r => (p.method? r).isSome

def distinctFields (seen : List FieldRef) : List FieldRef → List FieldRef
  | [] => []
  | r :: rs => if r ∈ seen then distinctFields seen rs else r :: distinctFields (r :: seen) rs

/-- The fields that a body accesses, in order of appearance. -/
def accessedFields (m : Method) : List FieldRef :=
  distinctFields [] <| (Tree.walkStmt m.body).filterMap fun t => t.var?.bind (·.field)

/-- Whether some method on the stack, or an in-project method it calls directly or through others,
calls a method of the given name.  Methods whose names are `seen` are not entered again. -/
def callsName (p : Program) (target : String) : Nat → List String → List MethodRef → Bool
  | 0, _, _ => false
  | _ + 1, _, [] => false
  | fuel + 1, seen, r :: stack =>
    match p.method? r with
    | none => p.callsName target fuel seen stack
    | some m =>
      let callees := p.calledMethods m
      if callees.any fun c => p.methodName c = target then true
      else
        let entered := callees.filter fun c =>
          p.unitInProject (.method c) && !seen.contains (p.methodName c)
        p.callsName target fuel (entered.map p.methodName ++ seen) (entered.reverse ++ stack)

/-- Whether a method is, calls, or calls through in-project methods, one of the given name. -/
def reachesName (p : Program) (r : MethodRef) (target : String) : Bool :=
  p.methodName r = target ||
    p.callsName target (p.methods.length + 1) [p.methodName r] [r]

/-- Fields, methods and then the members of inner classes, a class before those inside it. -/
def unitsOfClass (p : Program) : Nat → ClassRef → List UnitRef
  | 0, _ => []
  | fuel + 1, r =>
    match p.class? r with
    | none => []
    | some c =>
      c.fields.map UnitRef.field ++ c.methods.map UnitRef.method ++
        c.inner.flatMap (p.unitsOfClass fuel)

def memberUnits (p : Program) (r : ClassRef) : List UnitRef :=
  p.unitsOfClass (p.classes.length + 1) r

/-- Classes level by level: the given ones, those inside them, and so on. -/
def classLevels (p : Program) : Nat → List ClassRef → List ClassRef
  | 0, _ => []
  | fuel + 1, rs =>
    rs ++ p.classLevels fuel (rs.flatMap fun r => ((p.class? r).map (·.inner)).getD [])

/-- The units of several classes, outer classes before inner ones. -/
def unitsByLevel (p : Program) (rs : List ClassRef) : List UnitRef :=
  (p.classLevels (p.classes.length + 1) rs).flatMap fun r =>
    match p.class? r with
    | none => []
    | some c => c.fields.map UnitRef.field ++ c.methods.map UnitRef.method

def adopt (p : Program) (owner : ClassRef) : UnitRef → Program
  | .method m =>
    { p with methods := p.methods.modify m.index fun d => { d with declaring := some owner } }
  | .field f =>
    { p with fields := p.fields.modify f.index fun d => { d with declaring := some owner } }

/-- Add a unit to the members of a class, which becomes its declaring class. -/
def moveUnit (p : Program) (owner : ClassRef) (u : UnitRef) : Program :=
  let q := p.adopt owner u
  { q with classes := q.classes.modify owner.index fun c =>
      match u with
      | .method m => { c with methods := c.methods ++ [m] }
      | .field f => { c with fields := c.fields ++ [f] } }

/-- Declare a field; it becomes a member of its declaring class. -/
def addField (p : Program) (f : Field) : FieldRef × Program :=
  let r : FieldRef := ⟨p.fields.length⟩
  let q := { p with fields := p.fields ++ [f] }
  (r, match f.declaring with
    | some c => q.moveUnit c (.field r)
    | none => q)

/-- Declare a method; it becomes a member of its declaring class. -/
def addMethod (p : Program) (m : Method) : MethodRef × Program :=
  let r : MethodRef := ⟨p.methods.length⟩
  let q := { p with methods := p.methods ++ [m] }
  (r, match m.declaring with
    | some c => q.moveUnit c (.method r)
    | none => q)

def setInitializer (p : Program) (r : FieldRef) (e : Expr) : Program :=
  { p with fields := p.fields.modify r.index fun f => { f with initializer := e } }

def setBody (p : Program) (r : MethodRef) (s : Stmt) : Program :=
  { p with methods := p.methods.modify r.index fun m => { m with body := s } }

def nestClass (p : Program) (outer inner : ClassRef) : Program :=
  { p with classes := p.classes.modify outer.index fun c => { c with inner := c.inner ++ [inner] } }

/-- Add a class, which becomes the declaring class of its members. -/
def addClass (p : Program) (c : ClassDecl) : ClassRef × Program :=
  let r : ClassRef := ⟨p.classes.length⟩
  let members := c.fields.map UnitRef.field ++ c.methods.map UnitRef.method
  (r, members.foldl (fun q u => q.adopt r u) { p with classes := p.classes ++ [c] })

def methodBySignature? (p : Program) (c : ClassDecl) (signature : String) : Option MethodRef :=
  c.methods.find? fun r => ((p.method? r).map (·.signature)) = some signature

def fieldByName? (p : Program) (c : ClassDecl) (name : String) : Option FieldRef :=
  c.fields.find? fun r => ((p.field? r).map (·.name)) = some name

end Program

end ProgramDependence
