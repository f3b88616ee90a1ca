import ProgramDependence.Dependence.Findings
import ProgramDependence.Dependence.PostDominance

/-!
# Control dependence

A node depends on a branch when one of the edges that leave the branch makes it certain that the
node is reached, and the branch alone does not: it is met on the way up the post-dominator tree from
the target of the edge, below the post-dominator of the branch.  Calls control their arguments and
results, the entry controls what is always executed, and a node that no true or false branch
controls depends on the entry.
-/

namespace ProgramDependence

namespace ControlDependence

/-- A control dependence before it has an id. -/
structure Link where
  src : Id
  dst : Id
  sort : DependenceSort
  deriving DecidableEq, Repr, Inhabited

/-- The kind of control dependence that an edge of control flow gives rise to. -/
def sortOf : FlowSort → DependenceSort
  | .true | .parameter => .controlTrue
  | .false => .controlFalse
  | .fallThrough => .controlFall

/-- The nodes on the way up the post-dominator tree from a node, up to `stop` or the exit. -/
def climb (tree : Table Id Id) (exit : Id) (stop : Option Id) : Nat → Option Id → List Id
  | 0, _ => []
  | _ + 1, none => []
  | fuel + 1, some n =>
    if some n = stop || n = exit then [] else n :: climb tree exit stop fuel (tree.find? n)

def wayUp (c : Cfg) (tree : Table Id Id) (stop : Option Id) (n : Id) : List Id :=
  climb tree c.exit.id stop (tree.size + 2) (some n)

/-- What a branch controls through one of its edges.  Only an edge that is labelled with a kind of
control flow can do so. -/
def ofBranchEdge (c : Cfg) (tree : Table Id Id) (n : Id) (e : Edge) : Findings Link :=
  let way := wayUp c tree (tree.find? n) e.dst
  match e.label with
  | .plain s | .flow s _ => .ofList (way.map fun m => ⟨n, m, sortOf s⟩)
  | .dependence s _ _ => if way.isEmpty then {} else .breakOff (.noFlowKind s)

def ofBranches (c : Cfg) (tree : Table Id Id) : Findings Link :=
  .overAll (fun n => .overAll (ofBranchEdge c tree n) (c.edgesOutOf n))
    (c.nodeIds.filter fun n => n ≠ c.entry.id && c.isBranch n)

/-- What a call controls: its arguments and results. -/
def ofCall (call : Node) : Findings Link :=
  match call.payload with
  | .call _ ins outs _ => .ofList ((ins ++ outs).map fun m => ⟨call.id, m, .controlTrue⟩)
  | _ => .breakOff .undefined

/-- What is always executed after the entry. -/
def ofEntry (c : Cfg) (tree : Table Id Id) : List Link :=
  (c.edgesOutOf c.entry.id).flatMap fun e =>
    (wayUp c tree none e.dst).map fun m => ⟨c.entry.id, m, .controlTrue⟩

/-- Whether a dependence is kept: between two different nodes of the dependence graph, and not a
fall-through one that the settings exclude. -/
def isKept (settings : Settings) (g : Graph) (l : Link) : Bool :=
  l.src ≠ l.dst && g.hasNode l.dst && g.hasNode l.src &&
    !(l.sort = .controlFall && settings.excludeFallThroughCd.truthy)

/-- The control dependences of branches, calls and the entry, each once. -/
def structural (settings : Settings) (g : Graph) (c : Cfg) : Findings Link :=
  let tree := c.postDominatorTree
  (ofBranches c tree ++ .overAll ofCall c.callNodes ++ .ofList (ofEntry c tree)).select fun ls =>
    Search.fresh [] (ls.filter (isKept settings g))

def isControlled (g : Graph) (n : Id) : Bool :=
  (g.edgesInto n).any fun e => e.isSort .controlTrue || e.isSort .controlFalse

/-- The dependences on the entry of the nodes that nothing controls; `known` are the dependences
that were found before. -/
def orphans (settings : Settings) (g : Graph) (c : Cfg) (known : List Link) : List Link :=
  ((g.nodeIds.filter fun n => n ≠ c.entry.id && !isControlled g n).map fun n =>
    ⟨c.entry.id, n, .controlTrue⟩).filter fun l => isKept settings g l && l ∉ known

def addLinks : List Link → Tracked Graph Unit
  | [] => return ()
  | l :: ls => do
    let id ← Tracked.freshId
    Tracked.attempt fun g => do
      let (g, _) ← g.addEdge ⟨id, l.src, l.dst, .dependence l.sort none none⟩
      return (g, ())
    addLinks ls

/-- Add the control dependences of a flow graph; answers how many there are.  Which nodes are left
for the entry shows in the graph once the other dependences are added. -/
def construct (settings : Settings) (c : Cfg) : Tracked Graph Nat := do
  let found ← (structural settings (← Tracked.state) c).commit addLinks
  let rest := orphans settings (← Tracked.state) c found
  addLinks rest
  return found.length + rest.length

end ControlDependence

end ProgramDependence
