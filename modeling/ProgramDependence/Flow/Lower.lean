import ProgramDependence.Flow.Visit

/-!
# Lowering statements

`lower` takes a statement and the edges that are open before it, and returns the edges that are open
after it.  It recurses along the statement.
-/

namespace ProgramDependence

namespace Lowering

def onward (node : Id) : Pending :=
  [leave node .true]

/-- A node that evaluates expressions and goes on. -/
def lowerSimple (scope : Scope) (sort : StatementSort) (element : Element) (es : List Expr)
    (pending : Pending) : Lower Id := do
  let node ← newNode (.statement sort) element .none
  visitNode scope node es
  chain pending
  return node

/-- An expression among the initializers or updaters of a for loop. -/
def lowerExpression (scope : Scope) (e : Expr) (pending : Pending) : Lower Pending := do
  return onward (← lowerSimple scope .assignment (.ofExpr e) [e] pending)

def lowerExpressions (scope : Scope) : List Expr → Pending → Lower Pending
  | [], pending => return pending
  | e :: es, pending => do lowerExpressions scope es (← lowerExpression scope e pending)

/-- The declared names of a declaration, each a node; a single one stands for the declaration. -/
def lowerFragments (scope : Scope) (whole : Option Stmt) : List Fragment → Pending → Lower Pending
  | [], pending => return pending
  | f :: fs, pending => do
    let element := match whole with
      | some s => Element.ofStmt s
      | none => .tree (.fragment f)
    let node ← newNode (.statement .localDeclaration) element .none
    match f.var with
    | some v => define node v
    | none => reportUnresolved scope (.fragment f)
    visitNode scope node [f.initializer]
    chain pending
    lowerFragments scope whole fs (onward node)

/-- A jump: a node that receives the open edges and leaves only a fall-through edge behind. -/
def lowerJump (scope : Scope) (sort : StatementSort) (s : Stmt) (resolve : Id → Lower Bool)
    (pending : Pending) : Lower Pending := do
  let node ← newNode (.statement sort) (.ofStmt s) .none
  connect pending node none
  if !(← resolve node) then reportUnresolved scope (.stmt s)
  return [leave node .fallThrough]

/-- Close a loop: its back edges go to `entry` and are tagged with the loop; open after it are the
false edge of the condition and the breaks. -/
def closeLoop (loop entry : Id) (back : Pending) : Lower Pending := do
  connect back entry (some loop)
  let target ← exit
  return leave loop .false :: target.breaks

def continuesSoFar : Lower Pending := do
  return ((← Tracked.state).jumps.head?.map (·.continues)).getD []

/-- The first node of the sequence in hand, where control enters the statement. -/
def entryOfSequence (node : Id) : Lower Id := do
  return (← Tracked.state).sequence.head?.getD node

/-- Enter a do body: the open edge that waits for its first node. -/
def openHead : Lower Nat := do
  let number := (← Tracked.state).heads.length
  Tracked.update fun s => { s with heads := s.heads ++ [none] }
  return number

def headOf (scope : Scope) (number : Nat) : Lower Id := do
  match (← Tracked.state).heads[number]? with
  | some (some id) => return id
  | _ => throw (.construction scope.name .openBody)

/-- The progress through the cases of a switch: the edge to the next guard, the edges that fall into
the next case, and the default node. -/
structure CaseProgress where
  guard : Pending
  fall : Pending
  default : Option Id
  deriving Inhabited

/-- The node of a default case; it is entered after the last guard. -/
def lowerDefault (switch : Id) (c : SwitchCase) : Lower Id := do
  let node ← newNode (.statement .switchDefault) (.tree (.switchCase c)) .none
  changeNode switch fun n =>
    match n.payload with
    | .switch _ => { n with payload := .switch (some node) }
    | _ => n
  return node

/-- The node of a guarded case, which defines and uses what the switch does. -/
def lowerGuard (scope : Scope) (switch : Id) (c : SwitchCase) (pending : Pending) : Lower Id := do
  let node ← newNode (.statement .switchCase) (.tree (.switchCase c)) .none
  match (← Tracked.state).graph.node? switch with
  | some s => changeNode node fun n => s.uses.foldl Node.addUse (s.defs.foldl Node.addDef n)
  | none => pure ()
  visitNode scope node [c.guard]
  chain pending
  return node

/-- The node of a catch clause, followed by the node that receives the exception. -/
def lowerCatch (scope : Scope) (tryNode : Id) (c : CatchClause) (guard : Pending) : Lower (Id × Id) := do
  let node ← newNode (.statement .catchClause) (.tree (.catchClause c)) .none
  connect guard node none
  changeNode tryNode fun n =>
    match n.payload with
    | .tryCatch cs f => { n with payload := .tryCatch (cs ++ [node]) f }
    | _ => n
  let parameter ← newNode (.parameter .formalIn) (.tree (.catchClause c))
    (.parameter (.argument 0) node)
  match c.exception with
  | some v => define parameter v
  | none => reportUnresolved scope (.catchClause c)
  use parameter (← specialVariable scope "" ((c.exception.map (·.type)).getD ""))
  addFlow node parameter .true none
  return (node, parameter)

def lowerFinally (tryNode : Id) (s : Stmt) (exits : Pending) : Lower Id := do
  let node ← newNode (.statement .finallyPart) (.ofStmt s) .none
  changeNode tryNode fun n =>
    match n.payload with
    | .tryCatch cs _ => { n with payload := .tryCatch cs (some node) }
    | _ => n
  connect exits node none
  return node

def lowerMerge (s : Stmt) (branch : Id) (pending : Pending) : Lower Pending := do
  let node ← newNode .merge (.ofStmt s) (.merge branch)
  connect pending node none
  return onward node

mutual

def lower (scope : Scope) : Stmt → Pending → Lower Pending
  | .absent, pending => return pending
  | .bare e, pending =>
    if e.isAbsent then return pending
    else throw (.construction scope.name (.unknownStatement e.tag))
  | .other tag _, _ => throw (.construction scope.name (.unknownStatement tag))
  | .typeDeclaration _ _, pending => return pending
  | .block ss _, pending => lowerAll scope ss pending
  | s@(.empty _), pending => return onward (← lowerSimple scope .empty (.ofStmt s) [] pending)
  | s@(.expression e _), pending =>
    return onward (← lowerSimple scope .assignment (.ofStmt s) [e] pending)
  | s@(.assertion e m _), pending =>
    return onward (← lowerSimple scope .assertion (.ofStmt s) [e, m] pending)
  | s@(.declaration fs _), pending =>
    lowerFragments scope (if fs.length = 1 then some s else none) fs pending
  | s@(.ifElse c p n _), pending => do
    let node ← lowerSimple scope .ifElse (.ofStmt s) [c] pending
    let positive ← lower scope p [leave node .true]
    let negative ← lower scope n [leave node .false]
    lowerMerge s node (positive ++ negative)
  | s@(.whileLoop c b _), pending => do
    let node ← lowerSimple scope .whileLoop (.ofStmt s) [c] pending
    let entry ← entryOfSequence node
    enter .loop none
    let out ← lower scope b (onward node)
    closeLoop node entry (out ++ (← continuesSoFar))
  | s@(.doLoop b c _), pending => do
    let head ← openHead
    enter .loop none
    let out ← lower scope b [⟨.head head, .true⟩]
    let back := out ++ (← continuesSoFar)
    let node ← lowerSimple scope .doLoop (.ofStmt s) [c] back
    let first ← headOf scope head
    connect pending first none
    addFlow node first .true (some node)
    let target ← exit
    return leave node .false :: target.breaks
  | s@(.forLoop is c us b _), pending => do
    let pending ← lowerInitializers scope is pending
    let node ← lowerSimple scope .forLoop (.ofStmt s) [c] pending
    let entry ← entryOfSequence node
    enter .loop none
    let out ← lower scope b (onward node)
    let back ← lowerExpressions scope us (out ++ (← continuesSoFar))
    closeLoop node entry back
  | s@(.eachLoop v i b _), pending => do
    let node ← newNode (.statement .forLoop) (.ofStmt s) .none
    match v with
    | some v => define node v
    | none => reportUnresolved scope (.stmt s)
    visitNode scope node [i]
    chain pending
    enter .loop none
    let out ← lower scope b (onward node)
    closeLoop node node (out ++ (← continuesSoFar))
  | s@(.switch e cs _), pending => do
    let node ← newNode (.statement .switch) (.ofStmt s) (.switch none)
    visitNode scope node [e]
    chain pending
    enter .switch none
    let progress ← lowerCases scope node cs ⟨onward node, [], none⟩
    let guard ← match progress.default with
      | some d => do
        connect progress.guard d none
        pure []
      | none => pure progress.guard
    let target ← exit
    lowerMerge s node (progress.fall ++ target.breaks ++ guard ++ [leave node .false])
  | s@(.breakJump l _), pending => lowerJump scope .breakJump s (jumpBreak l) pending
  | s@(.continueJump l _), pending => lowerJump scope .continueJump s (jumpContinue l) pending
  | s@(.returnJump e _), pending => do
    let node ← newNode (.statement .returnJump) (.ofStmt s) .none
    match scope.method with
    | some m => if !e.isAbsent then define node (scope.context.program.returnVariable m)
    | none => pure ()
    visitNode scope node [e]
    chain pending
    Tracked.update fun st => { st with returns := st.returns ++ onward node }
    return [leave node .fallThrough]
  | s@(.throwJump e _), pending => do
    let node ← lowerSimple scope .throwJump (.ofStmt s) [e] pending
    Tracked.update fun st => { st with throws := st.throws ++ onward node }
    return [leave node .fallThrough]
  | s@(.synchronized e b _), pending => do
    let node ← lowerSimple scope .synchronized (.ofStmt s) [e] pending
    lower scope b (onward node)
  | s@(.tryCatch b cs f _), pending => do
    let node ← newNode (.statement .tryCatch) (.ofStmt s) (.tryCatch [] none)
    connect pending node none
    let out ← lower scope b (onward node)
    let exits ← lowerCatches scope node cs [leave node .false] out
    if f.isAbsent then lowerMerge s node exits
    else do
      let finallyNode ← lowerFinally node f exits
      let exits ← lower scope f (onward finallyNode)
      lowerMerge s node exits
  | s@(.labeled l b _), pending => do
    let node ← newNode (.statement .label) (.ofStmt s) .none
    connect pending node none
    if b.isLoop then
      Tracked.update fun st => { st with pendingLabel := some l }
      lower scope b (onward node)
    else do
      enter .label (some l)
      let out ← lower scope b (onward node)
      let target ← exit
      return out ++ target.breaks

def lowerAll (scope : Scope) : List Stmt → Pending → Lower Pending
  | [], pending => return pending
  | s :: ss, pending => do lowerAll scope ss (← lower scope s pending)

/-- Lower the initializers of a for loop: statements, or expressions as nodes of their own. -/
def lowerInitializers (scope : Scope) : List Stmt → Pending → Lower Pending
  | [], pending => return pending
  | .bare e :: ss, pending => do lowerInitializers scope ss (← lowerExpression scope e pending)
  | s :: ss, pending => do lowerInitializers scope ss (← lower scope s pending)

def lowerCases (scope : Scope) (switch : Id) : List SwitchCase → CaseProgress → Lower CaseProgress
  | [], progress => return progress
  | c@(.mk g ss _) :: cs, progress => do
    if g.isAbsent then
      let node ← lowerDefault switch c
      let fall ← lowerAll scope ss (onward node ++ progress.fall)
      lowerCases scope switch cs ⟨progress.guard, fall, some node⟩
    else
      let node ← lowerGuard scope switch c progress.guard
      let fall ← lowerAll scope ss (onward node ++ progress.fall)
      lowerCases scope switch cs ⟨[leave node .false], fall, progress.default⟩

/-- Lower the catch clauses of a try statement in order; `exits` are the edges open so far. -/
def lowerCatches (scope : Scope) (tryNode : Id) : List CatchClause → Pending → Pending → Lower Pending
  | [], guard, exits => return exits ++ guard
  | c@(.mk _ b _) :: cs, guard, exits => do
    let (node, parameter) ← lowerCatch scope tryNode c guard
    let out ← lower scope b (onward parameter)
    lowerCatches scope tryNode cs [leave node .false] (exits ++ out)

end

end Lowering

end ProgramDependence
