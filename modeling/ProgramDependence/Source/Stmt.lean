import ProgramDependence.Source.Expr

/-!
# Statements

Statement trees.  `Stmt.absent` stands for a statement that is left out, such as a missing else
part, and `Stmt.bare` for an expression among the initializers of a for loop.
-/

namespace ProgramDependence

/-- One declared name of a local declaration, with its initial value. -/
structure Fragment where
  var : Option Variable
  initializer : Expr := .absent
  line : Int := 0
  deriving Inhabited

mutual

/-- A statement; `line` is the source line it starts on. -/
inductive Stmt where
  | absent
  | block (statements : List Stmt) (line : Int)
  | empty (line : Int)
  | expression (value : Expr) (line : Int)
  | declaration (fragments : List Fragment) (line : Int)
  | ifElse (condition : Expr) (positive negative : Stmt) (line : Int)
  | whileLoop (condition : Expr) (body : Stmt) (line : Int)
  | doLoop (body : Stmt) (condition : Expr) (line : Int)
  | forLoop (initializers : List Stmt) (condition : Expr) (updaters : List Expr) (body : Stmt)
      (line : Int)
  | eachLoop (var : Option Variable) (iterable : Expr) (body : Stmt) (line : Int)
  | switch (subject : Expr) (cases : List SwitchCase) (line : Int)
  | breakJump (label : Option String) (line : Int)
  | continueJump (label : Option String) (line : Int)
  | returnJump (value : Expr) (line : Int)
  | throwJump (value : Expr) (line : Int)
  | tryCatch (body : Stmt) (catches : List CatchClause) (finallyPart : Stmt) (line : Int)
  | synchronized (lock : Expr) (body : Stmt) (line : Int)
  | labeled (label : String) (body : Stmt) (line : Int)
  | assertion (condition message : Expr) (line : Int)
  | typeDeclaration (className : String) (line : Int)
  | bare (value : Expr)
  | other (tag : String) (line : Int)

/-- A case of a switch; without a guard it is the default case. -/
inductive SwitchCase where
  | mk (guard : Expr) (statements : List Stmt) (line : Int)

/-- A catch clause with the variable that receives the exception. -/
inductive CatchClause where
  | mk (exception : Option Variable) (body : Stmt) (line : Int)

end

instance : Inhabited Stmt := ⟨.absent⟩

instance : Inhabited SwitchCase := ⟨.mk .absent [] 0⟩

instance : Inhabited CatchClause := ⟨.mk none .absent 0⟩

namespace Stmt

def isAbsent : Stmt → Bool
  | absent => true
  | bare e => e.isAbsent
  | _ => false

def line : Stmt → Int
  | absent => 0
  | bare e => e.line
  | block _ l | empty l | expression _ l | declaration _ l | ifElse _ _ _ l | whileLoop _ _ l
  | doLoop _ _ l | forLoop _ _ _ _ l | eachLoop _ _ _ l | switch _ _ l | breakJump _ l
  | continueJump _ l | returnJump _ l | throwJump _ l | tryCatch _ _ _ l | synchronized _ _ l | labeled _ _ l
  | assertion _ _ l | typeDeclaration _ l | other _ l => l

def tag : Stmt → String
  | absent => ""
  | bare e => e.tag
  | block .. => "block"
  | empty .. => "empty_statement"
  | expression .. => "expression_statement"
  | declaration .. => "variable_declaration"
  | ifElse .. => "if_statement"
  | whileLoop .. => "while_statement"
  | doLoop .. => "do_statement"
  | forLoop .. => "for_statement"
  | eachLoop .. => "enhanced_for_statement"
  | switch .. => "switch_statement"
  | breakJump .. => "break_statement"
  | continueJump .. => "continue_statement"
  | returnJump .. => "return_statement"
  | throwJump .. => "throw_statement"
  | tryCatch .. => "try_statement"
  | synchronized .. => "synchronized_statement"
  | labeled .. => "labeled_statement"
  | assertion .. => "assert_statement"
  | typeDeclaration .. => "type_declaration_statement"
  | other t .. => t

def isLoop : Stmt → Bool
  | whileLoop .. | doLoop .. | forLoop .. | eachLoop .. => true
  | _ => false

def declare (var : Option Variable) (initializer : Expr) (line : Int) : Stmt :=
  declaration [⟨var, initializer, line⟩] line

end Stmt

namespace SwitchCase

/-- The guard; absent for the default case. -/
def guard : SwitchCase → Expr
  | mk g _ _ => g

def statements : SwitchCase → List Stmt
  | mk _ ss _ => ss

def line : SwitchCase → Int
  | mk _ _ l => l

/-- A case without a guard is the default case. -/
def isDefault (c : SwitchCase) : Bool :=
  c.guard.isAbsent

end SwitchCase

namespace CatchClause

def exception : CatchClause → Option Variable
  | mk v _ _ => v

def body : CatchClause → Stmt
  | mk _ b _ => b

def line : CatchClause → Int
  | mk _ _ l => l

end CatchClause

end ProgramDependence
