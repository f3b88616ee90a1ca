import ProgramDependence.Workspace.Basic

/-!
# Changing graphs by hand

Every change of a named graph or of a node is made wherever the graph or the node occurs.
-/

namespace ProgramDependence

namespace Session

variable {α : Type}

/-- Change the nodes and edges of a named graph by an operation that may be refused. -/
def edit (name : String) (f : Graph → Except Error (Graph × α)) : Session α := do
  let i ← item name
  let (g, a) ← lift (f i.graph)
  replace (i.withGraph g)
  return a

/-- Change the nodes and edges of a named graph by a construction; what it did before it failed
stays. -/
def extend (name : String) (x : Tracked Graph α) : Session α := do
  let i ← item name
  let (answer, g) ← attempt (← get).current i.graph x
  replace (i.withGraph g)
  lift answer

def addNode (name : String) (n : Node) : Session Bool :=
  edit name (·.addNode n)

/-- A dependence; one that a loop carries has to name the loop. -/
def dependenceEdge (id src dst : Id) (sort : DependenceSort) (v : Option Variable)
    (carrier : Option Id) : Except Error Edge :=
  if sort = .loopCarried && carrier.isNone then .error (.noCarrier src dst)
  else .ok ⟨id, src, dst, .dependence sort v carrier⟩

def addEdge (name : String) (e : Edge) : Session Bool :=
  edit name (·.addEdge e)

def removeNode (name : String) (id : Id) : Session Bool :=
  edit name (·.removeNode id)

def removeEdge (name : String) (id : Id) : Session Bool :=
  edit name (·.removeEdge id)

def freeze (name : String) : Session Unit :=
  edit name fun g => .ok (g.freeze, ())

def merge (name other : String) : Session Graph := do
  let i ← item name
  let o ← item other
  edit name fun _ => do
    let g ← i.graph.merge o.graph
    return (g, g)

/-- Add a control-flow edge to a named flow graph, under a fresh id of its own numbering. -/
def addFlow (name : String) (src dst : Id) (sort : FlowSort) (loop : Option Id) : Session Edge := do
  let c ← flowGraph name
  let _ ← lift (c.getNode src)
  let _ ← lift (c.getNode dst)
  let (answer, c) ← attempt c.numbering c (Cfg.addFlow src dst sort loop)
  replace (.flow c)
  lift answer

def changeNode (n : Node) (f : Node → Node) : Session Unit :=
  modify (Update.onWorkspace { node := fun m => if m.same n then f m else m })

def addDef (name : String) (id : Id) (v : Variable) : Session (Bool × List Variable) := do
  let n ← node name id
  if n.sort.hasDefUse then
    changeNode n (·.addDef v)
    return (!n.defines v, (n.addDef v).defs)
  else
    report .warning
      ("节点 " ++ Text.decimal n.id ++ "(" ++ n.sort.word ++ ") 不能定义变量 " ++ v.name)
    return (false, n.defs)

def addUse (name : String) (id : Id) (v : Variable) : Session (Bool × List Variable) := do
  let n ← node name id
  if n.sort.hasDefUse then
    changeNode n (·.addUse v)
    return (!n.usesVariable v, (n.addUse v).uses)
  else
    report .warning
      ("节点 " ++ Text.decimal n.id ++ "(" ++ n.sort.word ++ ") 不能使用变量 " ++ v.name)
    return (false, n.uses)

end Session

end ProgramDependence
