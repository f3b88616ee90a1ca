import ProgramDependence.Symbol.Variable

/-!
# Expressions

Expression trees as a front end hands them over, with variables and called methods resolved where it
could.  A variable or a method that is `none` was not resolved.  `Expr.absent` stands for an
expression that is left out: no receiver, no condition, no value.
-/

namespace ProgramDependence

/-- An expression; `line` is the source line it starts on. -/
inductive Expr where
  | absent
  | name (var : Option Variable) (identifier : String) (line : Int)
  | fieldAccess (receiver : Expr) (var : Option Variable) (identifier : String) (line : Int)
  | self (className : String) (line : Int)
  | literal (value : String) (type : String) (line : Int)
  | assignment (target value : Expr) (operator : String) (line : Int)
  | unary (operator : String) (operand : Expr) (leading : Bool) (line : Int)
  | binary (left : Expr) (operator : String) (right : Expr) (line : Int)
  | instanceOf (operand : Expr) (typeName : String) (line : Int)
  | conditional (condition positive negative : Expr) (line : Int)
  | cast (typeName : String) (operand : Expr) (line : Int)
  | arrayAccess (array index : Expr) (line : Int)
  | arrayInitializer (elements : List Expr) (line : Int)
  | arrayCreation (elementType : String) (dimensions : List Expr) (initializer : Expr) (line : Int)
  | methodCall (name : String) (arguments : List Expr) (receiver : Expr)
      (binding : Option MethodRef) (isSuper : Bool) (line : Int)
  | constructorCall (arguments : List Expr) (binding : Option MethodRef) (isSuper : Bool) (line : Int)
  | instanceCreation (typeName : String) (arguments : List Expr) (binding : Option MethodRef)
      (outer : Expr) (line : Int)
  | other (tag : String) (parts : List Expr) (line : Int)
  deriving Inhabited

namespace Expr

def isAbsent : Expr → Bool
  | absent => true
  | _ => false

def line : Expr → Int
  | absent => 0
  | name _ _ l | fieldAccess _ _ _ l | self _ l | literal _ _ l | assignment _ _ _ l
  | unary _ _ _ l | binary _ _ _ l | instanceOf _ _ l | conditional _ _ _ l | cast _ _ l
  | arrayAccess _ _ l | arrayInitializer _ l | arrayCreation _ _ _ l | methodCall _ _ _ _ _ l
  | constructorCall _ _ _ l | instanceCreation _ _ _ _ l | other _ _ l => l

def tag : Expr → String
  | absent => ""
  | name .. => "name"
  | fieldAccess .. => "field_access"
  | self .. => "this"
  | literal .. => "literal"
  | assignment .. => "assignment"
  | unary .. => "unary"
  | binary .. => "binary"
  | instanceOf .. => "instanceof"
  | conditional .. => "conditional"
  | cast .. => "cast"
  | arrayAccess .. => "array_access"
  | arrayInitializer .. => "array_initializer"
  | arrayCreation .. => "array_creation"
  | methodCall .. => "method_call"
  | constructorCall .. => "constructor_call"
  | instanceCreation .. => "instance_creation"
  | other t .. => t

/-- The identifier to show: the given one, or else the name of the variable. -/
def shownIdentifier (var : Option Variable) (identifier : String) : String :=
  match identifier, var with
  | "", some v => v.name
  | s, _ => s

/-- A simple name; without an identifier it shows as its variable. -/
def ofName (var : Option Variable) (identifier : String) (line : Int) : Expr :=
  name var (shownIdentifier var identifier) line

/-- A field access; without an identifier it shows as its variable. -/
def ofFieldAccess (receiver : Expr) (var : Option Variable) (identifier : String) (line : Int) : Expr :=
  fieldAccess receiver var (shownIdentifier var identifier) line

/-- The name a call goes by: the method, `this` or `super`, or the created type. -/
def callName : Expr → String
  | methodCall n .. => n
  | constructorCall _ _ isSuper _ => if isSuper then "super" else "this"
  | instanceCreation t .. => t
  | _ => ""

def binding? : Expr → Option MethodRef
  | methodCall _ _ _ b _ _ => b
  | constructorCall _ b _ _ => b
  | instanceCreation _ _ b _ _ => b
  | _ => none

def var? : Expr → Option Variable
  | name v _ _ => v
  | fieldAccess _ v _ _ => v
  | _ => none

/-- The operands that are present, in the order they are listed. -/
def children : Expr → List Expr
  | absent | name .. | self .. | literal .. => []
  | fieldAccess r _ _ _ => present [r]
  | assignment t v _ _ => present [t, v]
  | unary _ e _ _ => present [e]
  | binary l _ r _ => present [l, r]
  | instanceOf e _ _ => present [e]
  | conditional c p n _ => present [c, p, n]
  | cast _ e _ => present [e]
  | arrayAccess a i _ => present [a, i]
  | arrayInitializer es _ => present es
  | arrayCreation _ ds i _ => present (ds ++ [i])
  | methodCall _ as r _ _ _ => present (as ++ [r])
  | constructorCall as _ _ _ => present as
  | instanceCreation _ as _ o _ => present (as ++ [o])
  | other _ ps _ => present ps
where
  /-- Drop what is left out. -/
  present (es : List Expr) : List Expr :=
    es.filter fun e => !e.isAbsent

mutual

/-- All expressions of a tree, a parent before its operands. -/
def walk : Expr → List Expr
  | absent => []
  | e@(name ..) | e@(self ..) | e@(literal ..) => [e]
  | e@(fieldAccess r _ _ _) => e :: r.walk
  | e@(assignment t v _ _) => e :: (t.walk ++ v.walk)
  | e@(unary _ x _ _) => e :: x.walk
  | e@(binary l _ r _) => e :: (l.walk ++ r.walk)
  | e@(instanceOf x _ _) => e :: x.walk
  | e@(conditional c p n _) => e :: (c.walk ++ p.walk ++ n.walk)
  | e@(cast _ x _) => e :: x.walk
  | e@(arrayAccess a i _) => e :: (a.walk ++ i.walk)
  | e@(arrayInitializer es _) => e :: walkAll es
  | e@(arrayCreation _ ds i _) => e :: (walkAll ds ++ i.walk)
  | e@(methodCall _ as r _ _ _) => e :: (walkAll as ++ r.walk)
  | e@(constructorCall as _ _ _) => e :: walkAll as
  | e@(instanceCreation _ as _ o _) => e :: (walkAll as ++ o.walk)
  | e@(other _ ps _) => e :: walkAll ps

def walkAll : List Expr → List Expr
  | [] => []
  | e :: es => e.walk ++ walkAll es

end

end Expr

end ProgramDependence
