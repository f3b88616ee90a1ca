import ProgramDependence.Source.Stmt
import ProgramDependence.Text.Align

/-!
# One line of source text

`Expr.render` and `Stmt.render` give the short text by which dumps show a tree.  A compound
statement shows its head only, an absent part shows as nothing, and an unresolved name as a question
mark.
-/

namespace ProgramDependence

/-- The text of an identifier, a question mark if it is empty. -/
def shown (identifier : String) : String :=
  if identifier = "" then "?" else identifier

namespace Expr

mutual

def render : Expr → String
  | absent => ""
  | name _ i _ => shown i
  | fieldAccess r _ i _ => if r.isAbsent then shown i else r.render ++ "." ++ shown i
  | self _ _ => "this"
  | literal v _ _ => v
  | assignment t v op _ => t.render ++ " " ++ op ++ " " ++ v.render
  | unary op e leading _ => if leading then op ++ e.render else e.render ++ op
  | binary l op r _ => l.render ++ " " ++ op ++ " " ++ r.render
  | instanceOf e t _ => e.render ++ " instanceof " ++ t
  | conditional c p n _ => c.render ++ " ? " ++ p.render ++ " : " ++ n.render
  | cast t e _ => "(" ++ t ++ ") " ++ e.render
  | arrayAccess a i _ => a.render ++ "[" ++ i.render ++ "]"
  | arrayInitializer es _ => "\x7b" ++ renderAll es ++ "\x7d"
  | arrayCreation t ds i _ =>
    let dims := renderDimensions ds
    "new " ++ t ++ (if dims = "" then "[]" else dims) ++
      (if i.isAbsent then "" else " " ++ i.render)
  | methodCall n as r _ isSuper _ =>
    (if isSuper then "super." else if r.isAbsent then "" else r.render ++ ".") ++
      n ++ "(" ++ renderAll as ++ ")"
  | constructorCall as _ isSuper _ => (if isSuper then "super" else "this") ++ "(" ++ renderAll as ++ ")"
  | instanceCreation t as _ _ _ => "new " ++ t ++ "(" ++ renderAll as ++ ")"
  | other t _ _ => t

def renderAll : List Expr → String
  | [] => ""
  | [e] => e.render
  | e :: f :: es => e.render ++ ", " ++ renderAll (f :: es)

/-- The dimensions of an array creation, each in square brackets. -/
def renderDimensions : List Expr → String
  | [] => ""
  | e :: es => "[" ++ e.render ++ "]" ++ renderDimensions es

end

end Expr

/-- The name of a variable, a question mark if it is unresolved. -/
def shownVariable (var : Option Variable) : String :=
  match var with
  | some v => v.name
  | none => "?"

def Fragment.render (f : Fragment) : String :=
  if f.initializer.isAbsent then shownVariable f.var
  else shownVariable f.var ++ " = " ++ f.initializer.render

/-- The type written in front of a declaration: that of its first variable. -/
def declaredType : List Fragment → String
  | ⟨some v, _, _⟩ :: _ => v.type ++ " "
  | _ => ""

namespace Stmt

def renderJump (word : String) : Option String → String
  | none | some "" => word ++ ";"
  | some l => word ++ " " ++ l ++ ";"

mutual

/-- The text of a statement, of a compound one its head. -/
def render : Stmt → String
  | absent => ""
  | bare e => e.render
  | block _ _ => "\x7b...\x7d"
  | empty _ => ";"
  | expression e _ => e.render ++ ";"
  | declaration fs _ => declaredType fs ++ Text.join ", " (fs.map Fragment.render) ++ ";"
  | ifElse c _ _ _ => "if (" ++ c.render ++ ")"
  | whileLoop c _ _ => "while (" ++ c.render ++ ")"
  | doLoop _ c _ => "do ... while (" ++ c.render ++ ")"
  | forLoop is c us _ _ =>
    "for (" ++ renderAll is ++ "; " ++ c.render ++ "; " ++ Expr.renderAll us ++ ")"
  | eachLoop v i _ _ => "for (" ++ shownVariable v ++ " : " ++ i.render ++ ")"
  | switch e _ _ => "switch (" ++ e.render ++ ")"
  | breakJump l _ => renderJump "break" l
  | continueJump l _ => renderJump "continue" l
  | returnJump e _ => if e.isAbsent then "return;" else "return " ++ e.render ++ ";"
  | throwJump e _ => "throw " ++ e.render ++ ";"
  | tryCatch _ _ _ _ => "try"
  | synchronized e _ _ => "synchronized (" ++ e.render ++ ")"
  | labeled l _ _ => l ++ ":"
  | assertion e _ _ => "assert " ++ e.render ++ ";"
  | typeDeclaration n _ => "class " ++ n
  | other t _ => t

def renderAll : List Stmt → String
  | [] => ""
  | [s] => s.render
  | s :: t :: ss => s.render ++ ", " ++ renderAll (t :: ss)

end

end Stmt

def SwitchCase.render (c : SwitchCase) : String :=
  if c.isDefault then "default:" else "case " ++ c.guard.render ++ ":"

def CatchClause.render (c : CatchClause) : String :=
  "catch (" ++ shownVariable c.exception ++ ")"

end ProgramDependence
