import ProgramDependence.Flow.Lowering

/-!
# Lowering expressions

Visiting an expression on behalf of a node charges the variables it reads and writes to that node.
A call becomes a node of its own, which is put before the current node of the sequence.  An expanded
call has a node for each argument before it and a node for its result after it; a merged call takes
the variables of its arguments itself.

The argument `current` is the node that is charged, and `defining` says that the expression is
written to.
-/

namespace ProgramDependence

namespace Lowering

def insertBefore (node before : Id) : List Id → List Id
  | [] => [node]
  | x :: xs => if x = before then node :: x :: xs else x :: insertBefore node before xs

def splice (node current : Id) : Lower Unit :=
  Tracked.update fun s => { s with sequence := insertBefore node current s.sequence }

def charge (current : Id) (defining : Bool) (v : Variable) : Lower Unit :=
  if defining then define current v else use current v

/-- Charge the variable of an expression; one that is not resolved is reported. -/
def chargeResolved (scope : Scope) (current : Id) (defining : Bool) (e : Expr) (var : Option Variable) :
    Lower Unit :=
  match var with
  | some v => charge current defining v
  | none => reportUnresolved scope (.expr e)

def thisVariable (className : String) : Variable :=
  { name := "$this", type := className, owner := className, kind := .special }

/-- Whether calling a method can lead back to the method that is lowered.  A name is judged once, so
callees of one name are taken for one method. -/
def leadsBack (scope : Scope) (callee : MethodRef) : Lower Bool := do
  match scope.method with
  | none => return false
  | some m =>
    let own := scope.context.program.nameOfMethod m
    let name := scope.context.program.methodName callee
    if name = own then return true
    match (← Tracked.state).verdicts.find? name with
    | some verdict => return verdict
    | none =>
      let verdict := scope.context.program.reachesName callee own
      Tracked.update fun s => { s with verdicts := s.verdicts.insert name verdict }
      return verdict

/-- Whether a call is expanded: the settings ask for it, the callee is in the project, and calling
it cannot lead back to the method that is lowered. -/
def shouldExpand (scope : Scope) (callee : MethodRef) : Lower Bool := do
  if scope.context.settings.createActualNodes.truthy &&
      scope.context.program.unitInProject (.method callee) then
    return !(← leadsBack scope callee)
  return false

/-- The type of the parameter at a position; a position after the last takes the last one's. -/
def parameterType (m : Method) (position : Nat) : String :=
  ((m.parameters[min position (m.parameters.length - 1)]?).map (·.type)).getD ""

/-- The node for an argument, put before the current node and listed with its call. -/
def newActualIn (scope : Scope) (callee : Method) (call current : Id) (position : Nat)
    (argument : Expr) : Lower Id := do
  let ain ← newNode (.parameter .actualIn) (.ofExpr argument) (.parameter (.argument position) call)
  define ain (← specialVariable scope "" (parameterType callee position))
  splice ain current
  changeNode call fun n =>
    match n.payload with
    | .call m ins outs x => { n with payload := .call m (ins ++ [ain]) outs x }
    | _ => n
  return ain

/-- A node for what a call leaves behind, put before the current node and listed with its call. -/
def newActualOut (call current : Id) (element : Element) (ordinal : Ordinal)
    (defined used : Variable) : Lower Unit := do
  let aout ← newNode (.parameter .actualOut) element (.parameter ordinal call)
  define aout defined
  use aout used
  splice aout current
  changeNode call fun n =>
    match n.payload with
    | .call m ins outs x => { n with payload := .call m ins (outs ++ [aout]) x }
    | _ => n

def actualInsOf (call : Id) : Lower (List Id) := do
  let node := (← Tracked.state).graph.node? call
  match node.map Node.payload with
  | some (.call _ ins _ _) => return ins
  | _ => return []

/-- An argument that is exactly one object may be changed by the call: it gets a node after it. -/
def newActualOuts (call current : Id) : List Id → Lower Unit
  | [] => return ()
  | ain :: rest => do
    match (← Tracked.state).graph.node? ain with
    | some n =>
      match n.uses, n.defs, n.payload with
      | [u], d :: _, .parameter ordinal _ =>
        if !u.isPrimitive then newActualOut call current n.element ordinal u d
      | _, _, _ => pure ()
    | none => pure ()
    newActualOuts call current rest

/-- The node for the value an expanded call returns, which the current node uses. -/
def newResult (scope : Scope) (e : Expr) (callee : Method) (call current : Id) : Lower Unit := do
  if callee.isVoid then return ()
  let aout ← newNode (.parameter .actualOut) (.ofExpr e) (.parameter .result call)
  let defined ← specialVariable scope "" callee.returnType
  define aout defined
  use aout (← specialVariable scope ("!" ++ e.callName) callee.returnType)
  splice aout current
  changeNode call fun n =>
    match n.payload with
    | .call m ins outs x => { n with payload := .call m ins (outs ++ [aout]) x }
    | _ => n
  use current defined

/-- The made-up variable for the value a merged call returns, which the current node uses. -/
def newMergedResult (scope : Scope) (e : Expr) (callee : Method) (call current : Id) : Lower Unit := do
  let returned ← specialVariable scope ("!" ++ e.callName) callee.returnType
  define call returned
  use current returned

/-- A call that is being lowered; `current` is the node that uses its result. -/
structure CallSite where
  call : Id
  current : Id
  callee : Method
  expanded : Bool
  deriving Inhabited

/-- Create the node of a resolved call; a call that is not resolved is reported.  A merged call is
put into the sequence at once, an expanded one after the nodes of its arguments. -/
def beginCall (scope : Scope) (current : Id) (sort : StatementSort) (e : Expr) : Lower (Option CallSite) := do
  match e.binding?.bind fun b => (scope.context.program.method? b).map (b, ·) with
  | none =>
    reportUnresolved scope (.expr e)
    return none
  | some (b, callee) =>
    let expanded ← shouldExpand scope b
    let call ← newNode (.statement sort) (.ofExpr e) (.call b [] [] expanded)
    if !expanded then splice call current
    return some ⟨call, current, callee, expanded⟩

/-- Put an expanded call into the sequence and make the nodes for what it leaves behind; a merged
call defines its result itself. -/
def endCall (scope : Scope) (site : CallSite) (e : Expr) : Lower Unit := do
  if site.expanded then
    splice site.call site.current
    newActualOuts site.call site.current (← actualInsOf site.call)
    newResult scope e site.callee site.call site.current
  else newMergedResult scope e site.callee site.call site.current

def isIncrement (operator : String) : Bool :=
  operator = "++" || operator = "--"

mutual

def visit (scope : Scope) (current : Id) (defining : Bool) : Expr → Lower Unit
  | .absent => return ()
  | e@(.name v _ _) => chargeResolved scope current defining e v
  | e@(.fieldAccess r v _ _) => do
    visit scope current false r
    chargeResolved scope current defining e v
  | .self c _ => charge current defining (thisVariable c)
  | .literal _ _ _ => return ()
  | .assignment t v op _ => do
    visit scope current true t
    if op ≠ "=" then visit scope current false t
    visit scope current false v
  | .unary op x _ _ => do
    visit scope current false x
    if isIncrement op then visit scope current true x
  | .binary l _ r _ => do
    visit scope current false l
    visit scope current false r
  | .instanceOf x _ _ => visit scope current false x
  | .conditional c p n _ => do
    visit scope current false c
    visit scope current false p
    visit scope current false n
  | .cast _ x _ => visit scope current false x
  | .arrayAccess a i _ => do
    visit scope current defining a
    visit scope current false i
  | .arrayInitializer es _ => visitAll scope current es
  | .arrayCreation _ ds i _ => do
    visitAll scope current ds
    visit scope current false i
  | e@(.methodCall _ as r _ _ _) => do
    match ← beginCall scope current .methodCall e with
    | none => return ()
    | some site =>
      visitArguments scope site 0 as
      endCall scope site e
      visit scope current false r
  | e@(.constructorCall as _ _ _) => do
    match ← beginCall scope current .constructorCall e with
    | none => return ()
    | some site =>
      visitArguments scope site 0 as
      endCall scope site e
  | e@(.instanceCreation _ as _ o _) => do
    match ← beginCall scope current .instanceCreation e with
    | none => return ()
    | some site =>
      visitArguments scope site 0 as
      endCall scope site e
      visit scope current false o
  | .other _ ps _ => visitAll scope current ps

def visitAll (scope : Scope) (current : Id) : List Expr → Lower Unit
  | [] => return ()
  | e :: es => do
    visit scope current false e
    visitAll scope current es

/-- Visit the arguments of a call: on behalf of a node of their own if the call is expanded, and of
the call itself if it is merged. -/
def visitArguments (scope : Scope) (site : CallSite) (position : Nat) : List Expr → Lower Unit
  | [] => return ()
  | e :: es => do
    let host ←
      if site.expanded then newActualIn scope site.callee site.call site.current position e
      else pure site.call
    visit scope host false e
    visitArguments scope site (position + 1) es

end

/-- Visit expressions for a new statement node, which starts the sequence. -/
def visitNode (scope : Scope) (node : Id) (es : List Expr) : Lower Unit := do
  Tracked.update fun s => { s with sequence := [node] }
  visitAll scope node es

end Lowering

end ProgramDependence
