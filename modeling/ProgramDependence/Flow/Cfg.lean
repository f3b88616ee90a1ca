import ProgramDependence.Context
import ProgramDependence.Graph.Path
import ProgramDependence.Sorted

/-!
# Control-flow graphs

A `Cfg` has one entry and one exit.  Its edges are control-flow edges; those that close a loop name
the loop.  The graph remembers the parts of the source that could not be resolved, the numbering its
ids come from, and the basic blocks once they were asked for.
-/

namespace ProgramDependence

/-- A basic block: a leader and the nodes that follow it in a straight line, the leader first. -/
structure Block where
  number : Nat
  leader : Id
  nodes : List Id
  deriving DecidableEq, Repr, Inhabited

namespace Block

def dump (b : Block) : String :=
  "Block " ++ Nat.repr b.number ++ ": " ++ Text.join " " (b.nodes.map Text.decimal)

def describe (b : Block) : String :=
  "BasicBlock(" ++ Nat.repr b.number ++ ", " ++ Text.bracketed b.nodes ++ ")"

end Block

structure Cfg extends Graph where
  name : String := ""
  entry : Node
  exit : Node
  unresolved : List Tree := []
  numbering : Nat := 0
  blocks : Option (List Block) := none
  deriving Inhabited

namespace Cfg

def ofEnds (numbering : Nat) (entry exit : Node) (name : String) : Cfg :=
  let g := (Graph.empty .flow).appendNode entry
  { toGraph := if g.hasNode exit.id then g else g.appendNode exit
    name, entry, exit, numbering }

def bindingOk (c : Cfg) : Bool :=
  c.unresolved.isEmpty

/-- Add a control-flow edge under a fresh id.  The basic blocks are forgotten. -/
def addFlow (src dst : Id) (sort : FlowSort) (loop : Option Id) : Tracked Cfg Edge := do
  let id ← Tracked.freshId
  let e : Edge := ⟨id, src, dst, .flow sort loop⟩
  Tracked.attempt fun c => do
    let (g, _) ← c.toGraph.addEdge e
    return ({ c with toGraph := g, blocks := none }, ())
  return e

/-! ## Queries -/

def flow? (c : Cfg) (src dst : Id) : Option Edge :=
  (c.edgesOutOf src).find? (·.dst = dst)

/-- The end of the first edge of a kind that leaves a node. -/
def successorBy? (c : Cfg) (node : Id) (sort : FlowSort) : Option Id :=
  ((c.edgesOutOf node).find? fun e => e.flowSort? = some sort).map (·.dst)

/-- The first of some edges that leads straight on.  The edges before it, and itself, have to be
control-flow edges. -/
def firstStraight : List Edge → Except Error (Option Edge)
  | [] => .ok none
  | e :: es =>
    if !e.isFlow then .error .undefined
    else if e.isStraight then .ok (some e)
    else firstStraight es

/-- The end of the first edge that leads straight on from a node. -/
def straightSuccessor (c : Cfg) (node : Id) : Except Error (Option Id) := do
  return (← firstStraight (c.edgesOutOf node)).map (·.dst)

def loopBackEdges (c : Cfg) : List Edge :=
  c.edges.filter (·.isLoopBack)

def hasTry (c : Cfg) : Bool :=
  c.nodes.any fun n => n.sort = .statement .tryCatch

/-- Whether a search that must not pass `stop` goes on from a node. -/
def passes (start : Id) (stop : Option Id) (node : Id) : Bool :=
  node = start || stop ≠ some node

/-- What can be reached from a node, itself first, in order of discovery.  Edges that close a loop
are followed on request only, and the search does not go on from `stop`. -/
def reachable (c : Cfg) (start : Id) (forward loopBack : Bool) (stop : Option Id) : List Id :=
  let next (id : Id) : List Id :=
    if passes start stop id then c.neighbours forward (fun e => loopBack || !e.isLoopBack) id
    else []
  (Search.run .stack next (c.edges.length + 1) [start] [start] []).found

def isPureFlow (c : Cfg) : Bool :=
  c.edges.all (·.isFlow)

/-- Require that the exit can be reached from the entry, and report the nodes that cannot. -/
def validate {σ : Type} (c : Cfg) : Tracked σ Unit := do
  let reached := c.reachable c.entry.id true true none
  if !reached.contains c.exit.id then throw (.construction c.name .exitUnreachable)
  let lost := c.nodeIds.filter fun id => !reached.contains id
  if !lost.isEmpty then
    Tracked.report .warning
      (c.name ++ ": " ++ Nat.repr lost.length ++ " 个节点从入口不可达: " ++ Text.bracketed lost)

/-! ## Copies -/

def mapped (ids : Table Id Id) (old : Id) : Except Error Id :=
  match ids.find? old with
  | some new => .ok new
  | none => .error (.unmapped old)

def mappedOption (ids : Table Id Id) : Option Id → Except Error (Option Id)
  | some old => return some (← mapped ids old)
  | none => return none

def renumberPayload (ids : Table Id Id) : Payload → Except Error Payload
  | .none => return .none
  | .entry ins outs => return .entry (← ins.mapM (mapped ids)) (← outs.mapM (mapped ids))
  | .call m ins outs x => return .call m (← ins.mapM (mapped ids)) (← outs.mapM (mapped ids)) x
  | .parameter o owner => return .parameter o (← mapped ids owner)
  | .merge b => return .merge (← mapped ids b)
  | .switch d => return .switch (← mappedOption ids d)
  | .tryCatch cs f => return .tryCatch (← cs.mapM (mapped ids)) (← mappedOption ids f)

def renumberNode (ids : Table Id Id) (n : Node) : Except Error Node := do
  let id ← mapped ids n.id
  return { n with id, payload := ← renumberPayload ids n.payload, serial := 0 }

def renumberEdge (ids : Table Id Id) (e : Edge) : Except Error Edge := do
  match e.label with
  | .flow sort loop =>
    let loop ← mappedOption ids loop
    return ⟨← mapped ids e.id, ← mapped ids e.src, ← mapped ids e.dst, .flow sort loop⟩
  | _ => throw .undefined

/-- The graph with all references renumbered, entry and exit first. -/
def renumber (ids : Table Id Id) (c : Cfg) : Except Error Cfg := do
  let entry ← renumberNode ids c.entry
  let exit ← renumberNode ids c.exit
  let ends := ofEnds c.numbering entry exit c.name
  let others := c.nodes.filter fun n => n.id ≠ c.entry.id && n.id ≠ c.exit.id
  let g ← others.foldlM (fun g n => return (← g.addNode (← renumberNode ids n)).1) ends.toGraph
  let g ← c.edges.foldlM (fun g e => return (← g.addEdge (← renumberEdge ids e)).1) g
  return { ends with toGraph := g, unresolved := c.unresolved }

def drawIds {σ : Type} (olds : List Id) (ids : Table Id Id) : Tracked σ (Table Id Id) :=
  olds.foldlM (fun ids old => return ids.insert old (← Tracked.freshId)) ids

/-- A copy under fresh ids, with the map from old ids to new ones: first the nodes are numbered,
then the edges. -/
def copy {σ : Type} (c : Cfg) : Tracked σ (Cfg × Table Id Id) := do
  let ids ← drawIds c.nodeIds {}
  let ids ← drawIds (c.edges.map (·.id)) ids
  match c.renumber ids with
  | .ok d => return (d, ids)
  | .error e => throw e

/-! ## Text -/

def sortedEdges (es : List Edge) : List Edge :=
  sortBy (·.src) (sortByTwo (·.dst) (·.id) es)

def arrow (e : Edge) : String :=
  Text.column 4 e.src ++ " -> " ++ Text.column 4 e.dst ++ " [" ++ e.word ++ "]"

def dump (p : Program) (c : Cfg) : String :=
  let edgeLine (e : Edge) : String :=
    arrow e ++ match e.loopBack? with
      | some l => " loop-back(" ++ Text.decimal l ++ ")"
      | none => ""
  Text.join "\n" <|
    ["----- CFG (" ++ c.name ++ ") -----"] ++
    (sortBy (·.id) c.nodes).map (Node.dump p) ++
    (sortedEdges c.edges).map edgeLine ++ [Text.rule 30]

end Cfg

end ProgramDependence
