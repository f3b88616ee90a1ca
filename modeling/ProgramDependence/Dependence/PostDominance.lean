import ProgramDependence.Flow.Cfg

/-!
# Post-dominance

A node `d` dominates a node `n` when every path from the start to `n` meets `d`.  Taking `d` out of
the graph then cuts `n` off from the start, and this is how dominators are found: one search from
the start per node.  The immediate dominator of `n` is the nearest other one: all others dominate
it.

Post-dominators are the dominators of the graph with its edges turned round, from its exit.
-/

namespace ProgramDependence

namespace Digraph

def successors (g : Digraph) (n : Id) : List Id :=
  (g.arcs.filter (·.1 = n)).map (·.2)

def reach (g : Digraph) (start : Id) : List Id :=
  Search.reach g.successors g.arcs.length [start]

/-- The nodes that can be reached without meeting `avoid`. -/
def reachAvoiding (g : Digraph) (start avoid : Id) : List Id :=
  if start = avoid then []
  else Search.reach (fun n => (g.successors n).filter (· ≠ avoid)) g.arcs.length [start]

/-- For every node that can be reached: the nodes that still can without it. -/
def cuts (g : Digraph) (start : Id) : List (Id × List Id) :=
  (g.reach start).map fun d => (d, g.reachAvoiding start d)

/-- The other nodes that every path to `n` meets. -/
def strictDominators (cuts : List (Id × List Id)) (n : Id) : List (Id × List Id) :=
  cuts.filter fun d => d.1 ≠ n && !d.2.contains n

/-- The dominator of `n` that all its other ones dominate. -/
def immediate? (cuts : List (Id × List Id)) (n : Id) : Option Id :=
  let strict := strictDominators cuts n
  (strict.find? fun d => strict.all fun e => e.1 = d.1 || !e.2.contains d.1).map (·.1)

/-- The immediate dominator of every node that can be reached; the start stands for itself. -/
def immediateDominators (g : Digraph) (start : Id) : Table Id Id :=
  let cuts := g.cuts start
  ⟨(start, start) :: ((g.reach start).filter (· ≠ start)).filterMap fun n => (immediate? cuts n).map (n, ·)⟩

end Digraph

namespace Cfg

/-- The immediate post-dominators, as some search for immediate dominators finds them: those of the
turned graph from the exit, except that of the exit. -/
def postDominatorTreeBy (idom : Digraph → Id → Table Id Id) (c : Cfg) : Table Id Id :=
  (idom (c.toDigraph true fun _ => true) c.exit.id).erase c.exit.id

/-- The immediate post-dominator of every node that reaches the exit, except the exit. -/
def postDominatorTree (c : Cfg) : Table Id Id :=
  c.postDominatorTreeBy Digraph.immediateDominators

end Cfg

end ProgramDependence
