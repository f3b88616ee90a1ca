import ProgramDependence.Source.Printer

/-!
# Source trees

A `Tree` is any piece of source a graph node can stand for: an expression, a statement, a declared
name, a case or a catch clause.  `Tree.walk` lists a tree and everything below it, a parent before
its children and children in the order they are written down.
-/

namespace ProgramDependence

inductive Tree where
  | expr (e : Expr)
  | stmt (s : Stmt)
  | fragment (f : Fragment)
  | switchCase (c : SwitchCase)
  | catchClause (c : CatchClause)
  deriving Inhabited

namespace Tree

def ofExpr (e : Expr) : Option Tree :=
  if e.isAbsent then none else some (expr e)

def ofStmt : Stmt → Option Tree
  | .bare e => ofExpr e
  | s => if s.isAbsent then none else some (stmt s)

def render : Tree → String
  | expr e => e.render
  | stmt s => s.render
  | fragment f => f.render
  | switchCase c => c.render
  | catchClause c => c.render

def line : Tree → Int
  | expr e => e.line
  | stmt s => s.line
  | fragment f => f.line
  | switchCase c => c.line
  | catchClause c => c.line

def tag : Tree → String
  | expr e => e.tag
  | stmt s => s.tag
  | fragment _ => "fragment"
  | switchCase _ => "switch_case"
  | catchClause _ => "catch_clause"

/-- The name of a call; other trees have none. -/
def callName : Tree → String
  | expr e => e.callName
  | stmt (.bare e) => e.callName
  | _ => ""

def binding? : Tree → Option MethodRef
  | expr e => e.binding?
  | _ => none

/-- The variable that a name, a declaration or a loop is bound to. -/
def var? : Tree → Option Variable
  | expr e => e.var?
  | stmt (.eachLoop v _ _ _) => v
  | fragment f => f.var
  | _ => none

/-- The children that are present, in the order they are written down. -/
def children : Tree → List Tree
  | expr e => e.children.map expr
  | fragment f => exprs [f.initializer]
  | switchCase (.mk g ss _) => exprs [g] ++ stmts ss
  | catchClause (.mk _ b _) => stmts [b]
  | stmt s =>
    match s with
    | .absent | .empty _ | .breakJump _ _ | .continueJump _ _ | .typeDeclaration _ _
    | .other _ _ => []
    | .bare e => e.children.map expr
    | .block ss _ => stmts ss
    | .expression e _ => exprs [e]
    | .declaration fs _ => fs.map fragment
    | .ifElse c p n _ => exprs [c] ++ stmts [p, n]
    | .whileLoop c b _ => exprs [c] ++ stmts [b]
    | .doLoop b c _ => stmts [b] ++ exprs [c]
    | .forLoop is c us b _ => stmts is ++ exprs (c :: us) ++ stmts [b]
    | .eachLoop _ i b _ => exprs [i] ++ stmts [b]
    | .switch e cs _ => exprs [e] ++ cs.map switchCase
    | .returnJump e _ | .throwJump e _ => exprs [e]
    | .tryCatch b cs f _ => stmts [b] ++ cs.map catchClause ++ stmts [f]
    | .synchronized e b _ => exprs [e] ++ stmts [b]
    | .labeled _ b _ => stmts [b]
    | .assertion e m _ => exprs [e, m]
where
  exprs (es : List Expr) : List Tree :=
    es.filterMap ofExpr
  stmts (ss : List Stmt) : List Tree :=
    ss.filterMap ofStmt

def walkExpr (e : Expr) : List Tree :=
  e.walk.map expr

def walkFragment (f : Fragment) : List Tree :=
  fragment f :: walkExpr f.initializer

mutual

def walkStmt : Stmt → List Tree
  | .absent => []
  | .bare e => walkExpr e
  | s@(.empty _) | s@(.breakJump _ _) | s@(.continueJump _ _) | s@(.typeDeclaration _ _)
  | s@(.other _ _) => [stmt s]
  | s@(.block ss _) => stmt s :: walkStmts ss
  | s@(.expression e _) | s@(.returnJump e _) | s@(.throwJump e _) => stmt s :: walkExpr e
  | s@(.declaration fs _) => stmt s :: fs.flatMap walkFragment
  | s@(.ifElse c p n _) => stmt s :: (walkExpr c ++ walkStmt p ++ walkStmt n)
  | s@(.whileLoop c b _) => stmt s :: (walkExpr c ++ walkStmt b)
  | s@(.doLoop b c _) => stmt s :: (walkStmt b ++ walkExpr c)
  | s@(.forLoop is c us b _) =>
    stmt s :: (walkStmts is ++ walkExpr c ++ us.flatMap walkExpr ++ walkStmt b)
  | s@(.eachLoop _ i b _) => stmt s :: (walkExpr i ++ walkStmt b)
  | s@(.switch e cs _) => stmt s :: (walkExpr e ++ walkCases cs)
  | s@(.tryCatch b cs f _) => stmt s :: (walkStmt b ++ walkCatches cs ++ walkStmt f)
  | s@(.synchronized e b _) => stmt s :: (walkExpr e ++ walkStmt b)
  | s@(.labeled _ b _) => stmt s :: walkStmt b
  | s@(.assertion e m _) => stmt s :: (walkExpr e ++ walkExpr m)

def walkStmts : List Stmt → List Tree
  | [] => []
  | s :: ss => walkStmt s ++ walkStmts ss

def walkCases : List SwitchCase → List Tree
  | [] => []
  | c@(.mk g ss _) :: cs => switchCase c :: (walkExpr g ++ walkStmts ss) ++ walkCases cs

def walkCatches : List CatchClause → List Tree
  | [] => []
  | c@(.mk _ b _) :: cs => catchClause c :: walkStmt b ++ walkCatches cs

end

def walk : Tree → List Tree
  | expr e => walkExpr e
  | stmt s => walkStmt s
  | fragment f => walkFragment f
  | switchCase c => walkCases [c]
  | catchClause c => walkCatches [c]

end Tree

end ProgramDependence
