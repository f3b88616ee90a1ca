import ProgramDependence.Graph.Basic
import ProgramDependence.Search

/-!
# Paths and reachability

Searches over the edges of a graph that satisfy a filter, and the bare digraph that such edges make up.
-/

namespace ProgramDependence

/-- Nodes and arcs between them; parallel edges are one arc. -/
structure Digraph where
  nodes : List Id
  arcs : List (Id × Id)

namespace Graph

/-- The far ends of the accepted edges at a node, forwards or backwards. -/
def neighbours (g : Graph) (forward : Bool) (ok : Edge → Bool) (id : Id) : List Id :=
  if forward then ((g.edgesOutOf id).filter ok).map (·.dst)
  else ((g.edgesInto id).filter ok).map (·.src)

/-- What can be reached from a node, itself first, in order of breadth-first discovery. -/
def reachableFrom (g : Graph) (start : Id) (forward : Bool) (ok : Edge → Bool) : List Id :=
  Search.reach (g.neighbours forward ok) g.edges.length [start]

/-- Whether some path leads from one node to another without meeting an avoided node.  A node has a
path to itself even if it is avoided. -/
def hasPathAvoiding (g : Graph) (start finish : Id) (avoid : List Id) (ok : Edge → Bool) : Bool :=
  if start = finish then true
  else if start ∈ avoid || finish ∈ avoid then false
  else Search.meets (g.neighbours true fun e => ok e && !avoid.contains e.dst) finish
    (1 + g.edges.length) [start] [start]

/-- The digraph of the accepted edges, turned round on request.  The ends of an arc are nodes of it. -/
def toDigraph (g : Graph) (turned : Bool) (ok : Edge → Bool) : Digraph :=
  let arcs := Search.fresh []
    ((g.edges.filter ok).map fun e => if turned then (e.dst, e.src) else (e.src, e.dst))
  { nodes := Search.fresh [] (g.nodeIds ++ arcs.flatMap fun a => [a.1, a.2]), arcs }

end Graph

end ProgramDependence
