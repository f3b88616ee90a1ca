import ProgramDependence.Flow.Cfg

/-!
# Lowering: open edges and jump targets

Lowering a unit grows a flow graph statement by statement.  Each statement receives the edges that
are still open (`Pending`) and returns those that are open after it; the next node that is created
receives them.  Jumps leave their open edge with the loop, switch or label they leave.

The first node of a do body is not known when the body is entered.  Its place is taken by a numbered
`head`, which is settled by the first node that the open edge is connected to.
-/

namespace ProgramDependence

namespace Lowering

/-- Where an open edge starts: at a node, or at the yet unknown first node of a do body. -/
inductive Source where
  | node (id : Id)
  | head (number : Nat)
  deriving DecidableEq, Repr, Inhabited

/-- An edge that waits for its target. -/
structure OpenEdge where
  source : Source
  sort : FlowSort
  deriving DecidableEq, Repr, Inhabited

abbrev Pending := List OpenEdge

def leave (node : Id) (sort : FlowSort) : OpenEdge :=
  ⟨.node node, sort⟩

inductive JumpKind where
  | loop
  | switch
  | label
  deriving DecidableEq, Repr, Inhabited

/-- An enclosing loop, switch or labelled statement with the jumps that lead to it. -/
structure JumpTarget where
  kind : JumpKind
  label : Option String := none
  breaks : Pending := []
  continues : Pending := []
  deriving DecidableEq, Repr, Inhabited

/-- The state of lowering one unit.  `jumps` lists the enclosing targets, innermost first,
`sequence` the nodes of the statement in hand in the order they are executed, and `verdicts` whether
the callees met so far lead back to the unit, by name. -/
structure State where
  graph : Graph
  unresolved : List Tree := []
  jumps : List JumpTarget := []
  pendingLabel : Option String := none
  returns : Pending := []
  throws : Pending := []
  heads : List (Option Id) := []
  specials : Nat := 0
  sequence : List Id := []
  verdicts : Table String Bool := {}
  deriving Inhabited

/-- The unit that is lowered; a field has no method. -/
structure Scope where
  context : Context
  name : String
  method : Option Method := none
  deriving Inhabited

abbrev Lower := Tracked State

/-! ## Nodes -/

def newNode (sort : NodeSort) (element : Element) (payload : Payload) : Lower Id := do
  let id ← Tracked.freshId
  Tracked.update fun s => { s with graph := s.graph.appendNode { id, sort, element, payload } }
  return id

def changeNode (id : Id) (f : Node → Node) : Lower Unit :=
  Tracked.update fun s => { s with graph := s.graph.modifyNode id f }

def define (id : Id) (v : Variable) : Lower Unit :=
  changeNode id (·.addDef v)

def use (id : Id) (v : Variable) : Lower Unit :=
  changeNode id (·.addUse v)

def specialVariable (scope : Scope) (suffix type : String) : Lower Variable := do
  let n := (← Tracked.state).specials + 1
  Tracked.update fun s => { s with specials := n }
  return { name := "$" ++ Nat.repr n ++ suffix, type, owner := scope.name, kind := .special }

/-- Remember and report a part of the source that is not resolved. -/
def reportUnresolved (scope : Scope) (t : Tree) : Lower Unit := do
  Tracked.update fun s => { s with unresolved := s.unresolved ++ [t] }
  Tracked.report .warning
    (scope.name ++ ": 未解析的绑定 '" ++ t.render ++ "' (行 " ++ Text.decimal t.line ++ ")")

/-! ## Edges -/

def addFlow (src dst : Id) (sort : FlowSort) (loop : Option Id) : Lower Unit := do
  let id ← Tracked.freshId
  Tracked.attempt fun s => do
    let (g, _) ← s.graph.addEdge ⟨id, src, dst, .flow sort loop⟩
    return ({ s with graph := g }, ())

/-- Settle the first node of a do body, unless it is known. -/
def settleHead (number : Nat) (target : Id) : Lower Unit :=
  Tracked.update fun s => { s with heads := s.heads.modify number fun h => h.orElse fun _ => some target }

/-- Connect one open edge.  A fall-through edge is left out where an edge to the target exists. -/
def connectOne (target : Id) (loop : Option Id) (e : OpenEdge) : Lower Unit := do
  match e.source with
  | .head number => settleHead number target
  | .node src =>
    if e.sort = .fallThrough && !((← Tracked.state).graph.edgesBetween src target).isEmpty then
      return ()
    addFlow src target e.sort loop

/-- Connect open edges to a node, the fall-through edges last. -/
def connect (pending : Pending) (target : Id) (loop : Option Id) : Lower Unit := do
  for e in pending.filter (·.sort ≠ .fallThrough) do connectOne target loop e
  for e in pending.filter (·.sort = .fallThrough) do connectOne target loop e

def joinAll : List Id → Lower Unit
  | a :: b :: rest => do
    addFlow a b .true none
    joinAll (b :: rest)
  | _ => return ()

/-- Connect open edges to the statement in hand: to the first node of its sequence, whose nodes are
joined. -/
def chain (pending : Pending) : Lower Unit := do
  let sequence := (← Tracked.state).sequence
  match sequence with
  | first :: _ => connect pending first none
  | [] => pure ()
  joinAll sequence

/-! ## Jump targets -/

/-- Enter a loop, switch or labelled statement.  A loop takes over a label that waits for it. -/
def enter (kind : JumpKind) (label : Option String) : Lower Unit :=
  Tracked.update fun s =>
    let own := if kind = .loop && s.pendingLabel.isSome then s.pendingLabel else label
    { s with pendingLabel := none, jumps := { kind, label := own } :: s.jumps }

def forgetLabel (label : Option String) (t : JumpTarget) : JumpTarget :=
  if label.isSome && t.label = label then { t with label := none } else t

/-- Leave the innermost target.  Its label is no longer known, not even for an outer statement that
carries the same one. -/
def exit : Lower JumpTarget := do
  match (← Tracked.state).jumps with
  | t :: rest =>
    Tracked.update fun s => { s with jumps := rest.map (forgetLabel t.label) }
    return t
  | [] => return { kind := .label }

def changeFirst (ok : JumpTarget → Bool) (f : JumpTarget → JumpTarget) : List JumpTarget → List JumpTarget
  | [] => []
  | t :: ts => if ok t then f t :: ts else t :: changeFirst ok f ts

/-- Whether a target is the one a break leaves: the labelled one, or the innermost loop or switch. -/
def takesBreak (label : Option String) (t : JumpTarget) : Bool :=
  match label with
  | some l => t.label = some l
  | none => t.kind ≠ .label

/-- Whether a target is the one a continue resumes: the labelled one, or the innermost loop. -/
def takesContinue (label : Option String) (t : JumpTarget) : Bool :=
  match label with
  | some l => t.label = some l
  | none => t.kind = .loop

def addBreak (node : Id) (t : JumpTarget) : JumpTarget :=
  { t with breaks := t.breaks ++ [leave node .true] }

def addContinue (node : Id) (t : JumpTarget) : JumpTarget :=
  { t with continues := t.continues ++ [leave node .true] }

/-- Leave a break with its target; answers whether there is one. -/
def jumpBreak (label : Option String) (node : Id) : Lower Bool := do
  let jumps := (← Tracked.state).jumps
  let found := jumps.any (takesBreak label)
  if found then
    let changed := changeFirst (takesBreak label) (addBreak node) jumps
    Tracked.update fun s => { s with jumps := changed }
  return found

/-- Leave a continue with its target, which has to be a loop; answers whether there is one. -/
def jumpContinue (label : Option String) (node : Id) : Lower Bool := do
  let jumps := (← Tracked.state).jumps
  let found := (jumps.find? (takesContinue label)).any (·.kind = .loop)
  if found then
    let changed := changeFirst (takesContinue label) (addContinue node) jumps
    Tracked.update fun s => { s with jumps := changed }
  return found

end Lowering

end ProgramDependence
