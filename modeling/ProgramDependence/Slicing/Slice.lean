import ProgramDependence.Context
import ProgramDependence.Graph.Path
import ProgramDependence.Slicing.Criterion

/-!
# Slices

The slice of a graph on a criterion is the part that may influence the variable at the node.  If the
node defines the variable, the slice is everything from which the node is reached along control and
data dependences.  If it only uses the variable, the slice starts from the definitions that reach
it.  A data closure follows only the dependences along which values flow.  Slices and closures are
frozen.
-/

namespace ProgramDependence

/-- A slice or a closure with its criterion. -/
structure Slice extends Graph where
  criterion : Criterion
  deriving Inhabited

namespace Slice

/-- Dependences that a slice follows: control and data. -/
def isFollowed (e : Edge) : Bool :=
  e.dependenceSort?.any fun s => s.isControl || s.isData

/-- Dependences that a data closure follows: those along which values flow. -/
def isValueFlow (e : Edge) : Bool :=
  e.dependenceSort?.any fun s => s.isDefUse || s.isParameter || s = .summary

/-- The sources of the followed edges that enter a node. -/
def sources (source : Graph) (ok : Edge → Bool) (n : Id) : List Id :=
  source.neighbours false ok n

/-- Add a node of the source graph to a part of it. -/
def takeNode (source : Graph) (part : Graph) (id : Id) : Except Error Graph := do
  return (← part.addNode (← source.getNode id)).1

def takeEdge (part : Graph) (e : Edge) : Except Error Graph := do
  return (← part.addEdge e).1

/-- Extend a part of a graph by `start`, everything from which it is reached along accepted edges,
and these edges.  The search does not go on from what is in the part already. -/
def extendBackward (source : Graph) (ok : Edge → Bool) (part : Graph) (start : Node) :
    Except Error Graph := do
  let (part, _) ← part.addNode start
  let trace := Search.run .stack (sources source ok) (source.edges.length + 1)
    [start.id] part.nodeIds []
  let part ← (trace.found.drop part.nodes.length).foldlM (takeNode source) part
  (trace.visited.flatMap fun n => (source.edgesInto n).filter ok).foldlM takeEdge part

/-- Extend a part by the definitions that reach a use: one incoming edge of the criterion after the
other, each with the closure of its source. -/
def extendUses (source : Graph) (c : Criterion) : List Edge → Graph → Except Error Graph
  | [], part => .ok part
  | e :: es, part =>
    match e.dependenceSort? with
    | none => .error .undefined
    | some s =>
      if (s.isDefUse || s.isParameter) && c.accepts e.var? then do
        let part ← extendBackward source isFollowed part (← source.getNode e.src)
        extendUses source c es (← takeEdge part e)
      else extendUses source c es part

/-- A slice with the notices it gives rise to. -/
def build (source : Graph) (c : Criterion) : Except Error Graph × List Notice :=
  let start := Graph.empty .slice
  if !source.hasNode c.node.id then
    (.ok start, [⟨.warning, "切片准则节点 " ++ Text.decimal c.node.id ++ " 不在图中"⟩])
  else if c.isDefined then (extendBackward source isFollowed start c.node, [])
  else if c.isUsed then
    (do extendUses source c (source.edgesInto c.node.id) (← start.addNode c.node).1, [])
  else
    (.ok start, [⟨.info, "节点 " ++ Text.decimal c.node.id ++ " 既未定义也未使用变量 " ++
      c.subject.name ++ "，切片为空"⟩])

def of {σ : Type} (source : Graph) (c : Criterion) : Tracked σ Slice := do
  let (result, notices) := build source c
  for n in notices do Tracked.report n.level n.text
  match result with
  | .ok g => return { toGraph := g.freeze, criterion := c }
  | .error e => throw e

def closure {σ : Type} (source : Graph) (node : Node) : Tracked σ Slice := do
  let start := Graph.empty .closure
  let result :=
    if source.hasNode node.id then extendBackward source isValueFlow start node else .ok start
  match result with
  | .ok g => return { toGraph := g.freeze, criterion := ⟨node, .named ""⟩ }
  | .error e => throw e

end Slice

/-- Slices of one graph that were asked for, by criterion. -/
structure Slicer where
  slices : Table (Id × (String ⊕ VariableIdentity)) Slice := {}
  deriving Inhabited

namespace Slicer

/-- The slice of the graph on a criterion, computed on first request only. -/
def slice (source : Graph) (c : Criterion) : Tracked Slicer Slice := do
  match (← Tracked.state).slices.find? c.key with
  | some s => return s
  | none =>
    let s ← Slice.of source c
    Tracked.update fun t => { t with slices := t.slices.insert c.key s }
    return s

end Slicer

end ProgramDependence
