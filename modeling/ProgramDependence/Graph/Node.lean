import ProgramDependence.Symbol.Program
import ProgramDependence.Text.Blank

/-!
# Nodes

A node stands for an entry, an exit, a statement, a parameter position or a place where branches
meet. It carries the variables it defines and uses, each listed once, and a payload that refers to
other nodes by id.
-/

namespace ProgramDependence

abbrev Id := Int

inductive ScopeSort where
  | classType
  | interface
  | enum
  | method
  | constructor
  | initializer
  | field
  | enumConstant
  deriving DecidableEq, Repr, Inhabited

inductive StatementSort where
  | assignment
  | methodCall
  | constructorCall
  | instanceCreation
  | fieldDeclaration
  | localDeclaration
  | assertion
  | breakJump
  | continueJump
  | doLoop
  | forLoop
  | ifElse
  | returnJump
  | switchCase
  | switchDefault
  | whileLoop
  | empty
  | label
  | switch
  | synchronized
  | throwJump
  | tryCatch
  | catchClause
  | finallyPart
  deriving DecidableEq, Repr, Inhabited

/-- The kinds of parameter nodes: `formal` at the entry of a unit, `actual` at a call. -/
inductive ParameterSort where
  | formalIn
  | formalOut
  | actualIn
  | actualOut
  deriving DecidableEq, Repr, Inhabited

inductive NodeSort where
  | entry (s : ScopeSort)
  | exit (s : ScopeSort)
  | statement (s : StatementSort)
  | parameter (s : ParameterSort)
  | merge
  | dummy
  deriving DecidableEq, Repr, Inhabited

def ScopeSort.word : ScopeSort → String
  | .classType => "class"
  | .interface => "interface"
  | .enum => "enum"
  | .method => "method"
  | .constructor => "constructor"
  | .initializer => "initializer"
  | .field => "field"
  | .enumConstant => "enumConstant"

def StatementSort.word : StatementSort → String
  | .assignment => "assignment"
  | .methodCall => "methodCall"
  | .constructorCall => "constructorCall"
  | .instanceCreation => "instanceCreation"
  | .fieldDeclaration => "fieldDeclaration"
  | .localDeclaration => "localDeclaration"
  | .assertion => "assertSt"
  | .breakJump => "breakSt"
  | .continueJump => "continueSt"
  | .doLoop => "doSt"
  | .forLoop => "forSt"
  | .ifElse => "ifSt"
  | .returnJump => "returnSt"
  | .switchCase => "switchCaseSt"
  | .switchDefault => "switchDefaultSt"
  | .whileLoop => "whileSt"
  | .empty => "emptySt"
  | .label => "labelSt"
  | .switch => "switchSt"
  | .synchronized => "synchronizedSt"
  | .throwJump => "throwSt"
  | .tryCatch => "trySt"
  | .catchClause => "catchSt"
  | .finallyPart => "finallySt"

def ParameterSort.word : ParameterSort → String
  | .formalIn => "formalIn"
  | .formalOut => "formalOut"
  | .actualIn => "actualIn"
  | .actualOut => "actualOut"

namespace NodeSort

def word : NodeSort → String
  | entry s => s.word ++ "Entry"
  | exit s => s.word ++ "Exit"
  | statement s => s.word
  | parameter s => s.word
  | merge => "merge"
  | dummy => "dummy"

def scopes : List ScopeSort :=
  [.classType, .interface, .enum, .method, .constructor, .initializer, .field, .enumConstant]

def all : List NodeSort :=
  scopes.map entry ++ scopes.map exit ++
    ([.assignment, .methodCall, .constructorCall, .instanceCreation, .fieldDeclaration,
      .localDeclaration, .assertion, .breakJump, .continueJump, .doLoop, .forLoop, .ifElse,
      .returnJump, .switchCase, .switchDefault, .whileLoop, .empty, .label, .switch,
      .synchronized, .throwJump, .tryCatch, .catchClause, .finallyPart] : List StatementSort).map
        statement ++
    ([.formalIn, .formalOut, .actualIn, .actualOut] : List ParameterSort).map parameter ++
    [merge, dummy]

/-- The kind of node a word stands for. -/
def ofWord? (w : String) : Option NodeSort :=
  all.find? fun s => s.word = w

def isEntry : NodeSort → Bool
  | entry _ => true
  | _ => false

def isExit : NodeSort → Bool
  | exit _ => true
  | _ => false

def isStatement : NodeSort → Bool
  | statement _ => true
  | _ => false

def isParameter : NodeSort → Bool
  | parameter _ => true
  | _ => false

def isCall : NodeSort → Bool
  | statement .methodCall | statement .constructorCall | statement .instanceCreation => true
  | _ => false

def isLoop : NodeSort → Bool
  | statement .whileLoop | statement .doLoop | statement .forLoop => true
  | _ => false

/-- Nodes that define and use variables. -/
def hasDefUse (s : NodeSort) : Bool :=
  s.isStatement || s.isParameter

/-- Nodes that a dependence graph keeps. -/
def isDependenceNode (s : NodeSort) : Bool :=
  s.isEntry || s.isStatement || s.isParameter

def properties (s : NodeSort) : List String :=
  ([("entry", s.isEntry), ("exit", s.isExit), ("statement", s.isStatement),
    ("parameter", s.isParameter), ("formal_in", s == parameter .formalIn),
    ("formal_out", s == parameter .formalOut),
    ("actual_in", s == parameter .actualIn),
    ("actual_out", s == parameter .actualOut), ("call", s.isCall), ("loop", s.isLoop),
    ("merge", s == merge), ("pdg_node", s.isDependenceNode)].filter (·.2)).map (·.1)

end NodeSort

/-- The place of a parameter: an argument by position, or the returned value. -/
inductive Ordinal where
  | argument (n : Nat)
  | result
  deriving DecidableEq, Repr, Inhabited

/-- The number by which a place is written; the returned value is -1. -/
def Ordinal.number : Ordinal → Int
  | .argument n => n
  | .result => -1

inductive Element where
  | nothing
  | var (v : Variable)
  | tree (t : Tree)
  | method (m : MethodRef)
  | field (f : FieldRef)
  | classDecl (c : ClassRef)
  deriving Inhabited

namespace Element

def ofTree : Option Tree → Element
  | some t => tree t
  | none => nothing

/-- An expression as an element; nothing if it is left out. -/
def ofExpr (e : Expr) : Element :=
  ofTree (Tree.ofExpr e)

/-- A statement as an element; nothing if it is left out. -/
def ofStmt (s : Stmt) : Element :=
  ofTree (Tree.ofStmt s)

def ofUnit : UnitRef → Element
  | .method m => method m
  | .field f => field f

/-- The qualified name, of elements that have one. -/
def qualifiedName? (p : Program) : Element → Option String
  | nothing | tree _ => none
  | var v => some v.qualifiedName
  | method m => some (p.methodName m)
  | field f => some (p.fieldName f)
  | classDecl c => some (p.className (some c))

/-- The name of an entry or exit: the qualified name, or else the name of a call. -/
def scopeName (p : Program) : Element → String
  | tree t => t.callName
  | e => (e.qualifiedName? p).getD ""

/-- The source line, zero where there is none. -/
def line (p : Program) : Element → Int
  | nothing | var _ => 0
  | tree t => t.line
  | method m => ((p.method? m).map (·.line)).getD 0
  | field f => ((p.field? f).map (·.line)).getD 0
  | classDecl c => ((p.class? c).map (·.line)).getD 0

def text? (p : Program) : Element → Option String
  | nothing => none
  | var v => some v.name
  | tree t => some t.render
  | e => e.qualifiedName? p

end Element

inductive Payload where
  | none
  | entry (formalIns formalOuts : List Id)
  | call (callee : MethodRef) (actualIns actualOuts : List Id) (expanded : Bool)
  | parameter (ordinal : Ordinal) (owner : Id)
  | merge (branch : Id)
  | switch (default : Option Id)
  | tryCatch (catches : List Id) (finallyPart : Option Id)
  deriving DecidableEq, Repr, Inhabited

/-- A node.  `serial` tells nodes of different origin apart that happen to have one id; it is zero
until a workspace takes the node over. -/
structure Node where
  id : Id
  sort : NodeSort
  element : Element := .nothing
  payload : Payload := .none
  defs : List Variable := []
  uses : List Variable := []
  serial : Nat := 0
  deriving Inhabited

namespace Node

def defines (n : Node) (v : Variable) : Bool :=
  v.isIn n.defs

def usesVariable (n : Node) (v : Variable) : Bool :=
  v.isIn n.uses

/-- Add a defined variable, unless it is there already. -/
def addDef (n : Node) (v : Variable) : Node :=
  if n.defines v then n else { n with defs := n.defs ++ [v] }

/-- Add a used variable, unless it is there already. -/
def addUse (n : Node) (v : Variable) : Node :=
  if n.usesVariable v then n else { n with uses := n.uses ++ [v] }

/-- Whether the node knows the callee and the parameters of a call. -/
def isCallSite (n : Node) : Bool :=
  match n.payload with
  | .call .. => true
  | _ => false

/-- Whether a node is the same node, not only one of the same id. -/
def same (n m : Node) : Bool :=
  n.id = m.id && n.serial = m.serial

def line (p : Program) (n : Node) : Int :=
  n.element.line p

def names (separator : String) (vs : List Variable) : String :=
  Text.join separator (vs.map (·.name))

def text (p : Program) (n : Node) : String :=
  match n.sort with
  | .entry _ | .exit _ => Text.strip (n.sort.word ++ " " ++ n.element.scopeName p)
  | .parameter _ => n.sort.word ++ " " ++ names "," n.defs ++ " <= " ++ names "," n.uses
  | .merge => "merge"
  | .statement _ | .dummy => (n.element.text? p).getD n.sort.word

def dump (p : Program) (n : Node) : String :=
  Text.column 4 n.id ++ ": " ++ Text.alignLeft 18 n.sort.word ++ " " ++ n.text p ++
    "  D=\x7b" ++ names ", " n.defs ++ "\x7d U=\x7b" ++ names ", " n.uses ++ "\x7d"

def describe (n : Node) : String :=
  "Node(" ++ Text.decimal n.id ++ ", " ++ n.sort.word ++ ")"

end Node

end ProgramDependence
