import ProgramDependence.Error
import ProgramDependence.Table

/-!
# The graph kernel

A `Graph` keeps its nodes and edges in the order they came in, ids being unique within each list,
and beside them an index of the edges that enter and leave each node.  Edges refer to nodes by id.
A frozen graph refuses every change.

Operations that may be refused return the changed graph together with their answer, so a refused
operation has no effect.
-/

namespace ProgramDependence

/-- A graph.  `serial` tells graphs of different origin apart; it is zero until a workspace takes
the graph over. -/
structure Graph where
  kind : GraphKind := .plain
  nodes : List Node := []
  edges : List Edge := []
  incoming : Table Id (List Edge) := {}
  outgoing : Table Id (List Edge) := {}
  frozen : Bool := false
  serial : Nat := 0
  deriving Inhabited

namespace Graph

def empty (kind : GraphKind) : Graph :=
  { kind }

def node? (g : Graph) (id : Id) : Option Node :=
  g.nodes.find? fun n => n.id = id

def edge? (g : Graph) (id : Id) : Option Edge :=
  g.edges.find? fun e => e.id = id

def hasNode (g : Graph) (id : Id) : Bool :=
  g.nodes.any fun n => n.id = id

def hasEdge (g : Graph) (id : Id) : Bool :=
  g.edges.any fun e => e.id = id

/-- The node of an id, which has to be there. -/
def getNode (g : Graph) (id : Id) : Except Error Node :=
  match g.node? id with
  | some n => .ok n
  | none => .error (.noNode id)

def nodeIds (g : Graph) : List Id :=
  g.nodes.map (·.id)

def edgesInto (g : Graph) (id : Id) : List Edge :=
  (g.incoming.find? id).getD []

def edgesOutOf (g : Graph) (id : Id) : List Edge :=
  (g.outgoing.find? id).getD []

/-! ## Changing a graph -/

def freeze (g : Graph) : Graph :=
  { g with frozen := true }

/-- Put a node at the end, with an empty index. -/
def appendNode (g : Graph) (n : Node) : Graph :=
  { g with
    nodes := g.nodes ++ [n]
    incoming := g.incoming.insert n.id []
    outgoing := g.outgoing.insert n.id [] }

/-- Put an edge at the end, and into the indices of its ends. -/
def appendEdge (g : Graph) (e : Edge) : Graph :=
  { g with
    edges := g.edges ++ [e]
    outgoing := g.outgoing.modify e.src (· ++ [e])
    incoming := g.incoming.modify e.dst (· ++ [e]) }

/-- Take an edge out, also of the indices of its ends. -/
def dropEdge (g : Graph) (e : Edge) : Graph :=
  { g with
    edges := g.edges.filter (·.id ≠ e.id)
    outgoing := g.outgoing.modify e.src (·.filter (·.id ≠ e.id))
    incoming := g.incoming.modify e.dst (·.filter (·.id ≠ e.id)) }

def checkMutable (g : Graph) : Except Error Unit :=
  if g.frozen then .error (.frozen g.kind) else .ok ()

/-- Add a node; a node whose id is present changes nothing and answers no. -/
def addNode (g : Graph) (n : Node) : Except Error (Graph × Bool) := do
  g.checkMutable
  if g.hasNode n.id then return (g, false)
  return (g.appendNode n, true)

/-- Add an edge between present nodes; an edge whose id is present changes nothing and answers no. -/
def addEdge (g : Graph) (e : Edge) : Except Error (Graph × Bool) := do
  g.checkMutable
  if g.hasEdge e.id then return (g, false)
  if g.hasNode e.src && g.hasNode e.dst then return (g.appendEdge e, true)
  throw (.danglingEdge e)

/-- Remove the edge of an id; answers whether there was one. -/
def removeEdge (g : Graph) (id : Id) : Except Error (Graph × Bool) := do
  g.checkMutable
  match g.edge? id with
  | none => return (g, false)
  | some e => return (g.dropEdge e, true)

/-- Remove a node and every edge at it; answers whether there was one. -/
def removeNode (g : Graph) (id : Id) : Except Error (Graph × Bool) := do
  g.checkMutable
  if !g.hasNode id then return (g, false)
  let bare := (g.edgesInto id ++ g.edgesOutOf id).foldl
    (fun h e => if h.hasEdge e.id then h.dropEdge e else h) g
  return ({ bare with
    nodes := bare.nodes.filter (·.id ≠ id)
    incoming := bare.incoming.erase id
    outgoing := bare.outgoing.erase id }, true)

def merge (g other : Graph) : Except Error Graph := do
  let withNodes ← other.nodes.foldlM (fun h n => return (← h.addNode n).1) g
  other.edges.foldlM (fun h e => return (← h.addEdge e).1) withNodes

def modifyNode (g : Graph) (id : Id) (f : Node → Node) : Graph :=
  { g with nodes := g.nodes.map fun n => if n.id = id then f n else n }

def reverse (g : Graph) : Graph :=
  let bare := g.nodes.foldl appendNode (empty .plain)
  g.edges.foldl (fun h e => h.appendEdge e.reverse) bare

/-! ## Local queries -/

def distinct : List Id → List Id
  | [] => []
  | x :: xs => x :: (distinct xs).filter (· ≠ x)

def predecessors (g : Graph) (id : Id) : List Id :=
  distinct ((g.edgesInto id).map (·.src))

def successors (g : Graph) (id : Id) : List Id :=
  distinct ((g.edgesOutOf id).map (·.dst))

def inDegree (g : Graph) (id : Id) : Nat :=
  (g.edgesInto id).length

def outDegree (g : Graph) (id : Id) : Nat :=
  (g.edgesOutOf id).length

/-- More than one edge leaves the node. -/
def isBranch (g : Graph) (id : Id) : Bool :=
  1 < g.outDegree id

/-- More than one edge enters the node. -/
def isJoin (g : Graph) (id : Id) : Bool :=
  1 < g.inDegree id

def edgesBetween (g : Graph) (src dst : Id) : List Edge :=
  (g.edgesOutOf src).filter (·.dst = dst)

def edgesOfFlow (g : Graph) (sorts : List FlowSort) : List Edge :=
  g.edges.filter fun e => e.flowSort?.any sorts.contains

def edgesOfDependence (g : Graph) (sorts : List DependenceSort) : List Edge :=
  g.edges.filter fun e => e.dependenceSort?.any sorts.contains

def callNodes (g : Graph) : List Node :=
  g.nodes.filter (·.sort.isCall)

end Graph

end ProgramDependence
