import ProgramDependence.Flow.Block
import ProgramDependence.Workspace.Basic

/-!
# Questions about named graphs

A question about a flow graph that tells kinds of control flow apart is undefined where it meets an
edge that is no control flow, and likewise for dependence graphs.
-/

namespace ProgramDependence

namespace Session

def requireFlow (es : List Edge) : Session Unit :=
  if es.all (·.isFlow) then return () else throw .undefined

def pureFlow (name : String) : Session Cfg := do
  let c ← flowGraph name
  requireFlow c.edges
  return c

def pureDependence (name : String) : Session Pdg := do
  let d ← dependenceGraph name
  if d.isPure then return d else throw .undefined

/-- The basic blocks of a named flow graph, which remembers them. -/
def blocks (name : String) : Session (List Block) := do
  let c ← flowGraph name
  let (c, bs) ← lift c.getBlocks
  replace (.flow c)
  return bs

/-- The successors of a node straight on, on the false branch, and by falling through. -/
def flowSuccessors (name : String) (node : Id) : Session (List (Option Id)) := do
  let c ← flowGraph name
  let n ← lift (c.getNode node)
  let straight ← lift (c.straightSuccessor n.id)
  return [straight, c.successorBy? n.id .false, c.successorBy? n.id .fallThrough]

def flowBetween (name : String) (src dst : Id) : Session (Option Edge) := do
  let c ← flowGraph name
  let m ← lift (c.getNode src)
  let n ← lift (c.getNode dst)
  return c.flow? m.id n.id

/-- What can be reached from a node of a flow graph, not beyond `stop`. -/
def flowReach (name : String) (node : Id) (forward loopBack : Bool) (stop : Option Id) :
    Session (List Id) := do
  let c ← flowGraph name
  let n ← lift (c.getNode node)
  match stop with
  | some s => let _ ← lift (c.getNode s)
  | none => pure ()
  let reached := c.reachable n.id forward loopBack stop
  if !loopBack then
    requireFlow ((reached.filter (Cfg.passes n.id stop)).flatMap fun m =>
      if forward then c.edgesOutOf m else c.edgesInto m)
  return reached

def actualsOf (name : String) (node : Id) : Session (List Node × Option Node) := do
  let d ← dependenceGraph name
  let n ← lift (d.getNode node)
  return (← lift (d.actualIns n), ← lift (d.returnActualOut n))

def unitOf (name key : String) : Session (Option Pdg) := do
  match ← item name with
  | .classGraph g => return g.pdg? (← program) key
  | .system g => return g.pdgs.find? key
  | _ => throw .undefined

def callsOf (name : String) : Session (List Node) := do
  match ← item name with
  | .flow c => return c.callNodes
  | .dependence d => return d.callNodes
  | .system g => return g.callNodes
  | _ => throw .undefined

end Session

end ProgramDependence
