import ProgramDependence.Flow.Lower

/-!
# Building flow graphs

The flow graph of a method runs from the entry through the parameters and the body to the exit, with
a node for the returned value before the exit unless the method is void.  That of a field runs
through its declaration.
-/

namespace ProgramDependence

namespace Cfg

open Lowering

def methodScope : MethodKind → ScopeSort
  | .method => .method
  | .constructor => .constructor
  | .initializer => .initializer

def startState (entry exit : Node) : State :=
  { graph := (ofEnds 0 entry exit "").toGraph }

/-- The parameters in order, each a node that receives its value. -/
def lowerParameters (scope : Scope) (entry : Id) : Nat → List Variable → Pending → Lower Pending
  | _, [], pending => return pending
  | ordinal, v :: vs, pending => do
    let node ← newNode (.parameter .formalIn) (.var v) (.parameter (.argument ordinal) entry)
    define node v
    use node (← specialVariable scope "" v.type)
    connect pending node none
    changeNode entry fun n =>
      match n.payload with
      | .entry ins outs => { n with payload := .entry (ins ++ [node]) outs }
      | _ => n
    lowerParameters scope entry (ordinal + 1) vs
      [leave node (if vs.isEmpty then .true else .parameter)]

def lowerResult (scope : Scope) (entry : Id) (r : MethodRef) (m : Method) (pending : Pending) :
    Lower Pending := do
  let node ← newNode (.parameter .formalOut) (.method r) (.parameter .result entry)
  define node (← specialVariable scope "" m.returnType)
  use node (scope.context.program.returnVariable m)
  connect pending node none
  changeNode entry fun n =>
    match n.payload with
    | .entry ins outs => { n with payload := .entry ins (outs ++ [node]) }
    | _ => n
  return onward node

def lowerMethod (scope : Scope) (r : MethodRef) (m : Method) (entry exit : Id) : Lower Unit := do
  let first := leave entry (if m.parameters.isEmpty then .true else .parameter)
  let pending ← lowerParameters scope entry 0 m.parameters [first]
  let pending ← lower scope m.body pending
  let returned := (← Tracked.state).returns ++ pending
  let last ← if m.isVoid then pure returned else lowerResult scope entry r m returned
  connect ((← Tracked.state).throws ++ last) exit none

def lowerField (scope : Scope) (r : FieldRef) (f : Field) (entry exit : Id) : Lower Unit := do
  let node ← newNode (.statement .fieldDeclaration) (.field r) .none
  define node (scope.context.program.fieldVariable r f)
  visitNode scope node [f.initializer]
  chain (onward entry)
  connect (onward node) exit none

def ofState (numbering : Nat) (name : String) (entry exit : Node) (s : State) : Cfg :=
  { toGraph := s.graph, name
    entry := (s.graph.node? entry.id).getD entry
    exit
    unresolved := s.unresolved, numbering }

/-- Lower a unit between a fresh entry and a fresh exit, and validate the result. -/
def build {σ : Type} (scope : Scope) (sort : ScopeSort) (element : Element)
    (body : Id → Id → Lower Unit) : Tracked σ Cfg := do
  let entry : Node := { id := ← Tracked.freshId, sort := .entry sort, element, payload := .entry [] [] }
  let exit : Node := { id := ← Tracked.freshId, sort := .exit sort, element }
  let ((), s) ← Tracked.within (startState entry exit) (body entry.id exit.id)
  let c := ofState scope.context.numbering scope.name entry exit s
  c.validate
  return c

def ofMethod {σ : Type} (context : Context) (r : MethodRef) (m : Method) : Tracked σ Cfg :=
  let scope : Scope := ⟨context, context.program.nameOfMethod m, some m⟩
  build scope (methodScope m.kind) (.method r) (lowerMethod scope r m)

def ofField {σ : Type} (context : Context) (r : FieldRef) (f : Field) : Tracked σ Cfg :=
  let scope : Scope := ⟨context, context.program.nameOfField f, none⟩
  build scope (if f.isEnumConstant then .enumConstant else .field) (.field r) (lowerField scope r f)

def ofUnit {σ : Type} (context : Context) : UnitRef → Tracked σ Cfg
  | .method r =>
    match context.program.method? r with
    | some m => ofMethod context r m
    | none => throw .undefined
  | .field r =>
    match context.program.field? r with
    | some f => ofField context r f
    | none => throw .undefined

/-- Run a construction; a flow graph that cannot be built is an answer, other errors are errors. -/
def catching {σ α : Type} (x : Tracked σ α) : Tracked σ (Except Error α) :=
  tryCatch (return .ok (← x)) fun e =>
    match e with
    | .construction .. => return .error e
    | e => throw e

def unitWord : UnitRef → String
  | .method _ => "方法"
  | .field _ => "字段"

/-- The flow graphs of some units in order; a unit that fails is reported and listed by name. -/
def ofUnits {σ : Type} (context : Context) :
    List UnitRef → List Cfg → Table String Error → Tracked σ (List Cfg × Table String Error)
  | [], built, failures => return (built, failures)
  | u :: us, built, failures => do
    match ← catching (ofUnit context u) with
    | .ok c => ofUnits context us (built ++ [c]) failures
    | .error e =>
      let name := context.program.unitName u
      Tracked.report .error (unitWord u ++ " " ++ name ++ " 的CFG构建失败: " ++ e.message)
      ofUnits context us built (failures.insert name e)

def ofClass {σ : Type} (context : Context) (r : ClassRef) : Tracked σ (List Cfg × Table String Error) :=
  ofUnits context (context.program.memberUnits r) [] {}

end Cfg

end ProgramDependence
