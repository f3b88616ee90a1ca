import ProgramDependence.Dependence.Data
import ProgramDependence.Flow.Build

/-!
# Program dependence graphs

The dependence graph of a unit has the entry, statement and parameter nodes of its flow graph,
joined by control and data dependence.
-/

namespace ProgramDependence

/-- The dependence graph of a unit, with the flow graph it was derived from. -/
structure Pdg extends Graph where
  entry : Node
  cfg : Option Cfg := none
  name : String := ""
  deriving Inhabited

namespace Pdg

/-- The graph that has only an entry.  Without a name it is called like the flow graph. -/
def ofEntry (entry : Node) (cfg : Option Cfg) (name : String) : Pdg :=
  { toGraph := (Graph.empty .dependence).appendNode entry
    entry, cfg
    name := if name = "" then (cfg.map (·.name)).getD "" else name }

def bindingOk (d : Pdg) : Bool :=
  d.cfg.all (·.bindingOk)

/-- The qualified name of the unit, by which the graph is cached. -/
def key (p : Program) (d : Pdg) : String :=
  (d.entry.element.qualifiedName? p).getD d.name

def isPure (d : Pdg) : Bool :=
  d.edges.all (·.isDependence)

def controlEdges (d : Pdg) : List Edge :=
  d.edges.filter fun e => e.dependenceSort?.any (·.isControl)

def dataEdges (d : Pdg) : List Edge :=
  d.edges.filter fun e => e.dependenceSort?.any (·.isData)

def formalIns (d : Pdg) : Except Error (List Node) :=
  match d.entry.payload with
  | .entry ins _ => ins.mapM d.getNode
  | _ => .error .undefined

def formalOuts (d : Pdg) : Except Error (List Node) :=
  match d.entry.payload with
  | .entry _ outs => outs.mapM d.getNode
  | _ => .error .undefined

def actualIns (d : Pdg) (call : Node) : Except Error (List Node) :=
  match call.payload with
  | .call _ ins _ _ => ins.mapM d.getNode
  | _ => .error .undefined

/-- The first of some nodes that stands for a returned value. -/
def findResult (d : Pdg) : List Id → Except Error (Option Node)
  | [] => .ok none
  | id :: ids => do
    let n ← d.getNode id
    match n.payload with
    | .parameter .result _ => return some n
    | .parameter _ _ => d.findResult ids
    | _ => throw .undefined

def returnActualOut (d : Pdg) (call : Node) : Except Error (Option Node) :=
  match call.payload with
  | .call _ _ outs _ => d.findResult outs
  | _ => .error .undefined

def addDependences (context : Context) (c : Cfg) : Tracked Graph Unit := do
  let _ ← ControlDependence.construct context.settings c
  let _ ← DataDependence.construct context.program c

/-- The nodes of the dependence graph of a flow graph: the entry, and then the others in order. -/
def nodesOf (c : Cfg) : Graph :=
  (c.nodes.filter (·.sort.isDependenceNode)).foldl
    (fun g n => if g.hasNode n.id then g else g.appendNode n)
    ((Graph.empty .dependence).appendNode c.entry)

def ofCfg {σ : Type} (context : Context) (c : Cfg) : Tracked σ Pdg := do
  let ((), g) ← Tracked.within (nodesOf c) (addDependences context c)
  return { toGraph := g, entry := c.entry, cfg := some c, name := c.name }

def ofUnit {σ : Type} (context : Context) (u : UnitRef) : Tracked σ Pdg := do
  ofCfg context (← Cfg.ofUnit context u)

def ofCfgs {σ : Type} (context : Context) : List Cfg → Tracked σ (List Pdg)
  | [] => return []
  | c :: cs => do
    let d ← ofCfg context c
    return d :: (← ofCfgs context cs)

/-- The dependence graphs of all members of a class and of the classes inside it. -/
def ofClass {σ : Type} (context : Context) (r : ClassRef) : Tracked σ (List Pdg × Table String Error) := do
  let (cfgs, failures) ← Cfg.ofClass context r
  return (← ofCfgs context cfgs, failures)

/-- A copy under fresh ids: the flow graph is copied and the dependences are derived anew. -/
def copy {σ : Type} (context : Context) (d : Pdg) : Tracked σ (Pdg × Table Id Id) := do
  match d.cfg with
  | none => throw .undefined
  | some c =>
    let (c', ids) ← c.copy
    return (← ofCfg context c', ids)

/-! ## Conservative summaries -/

def summarize (result : Id) : List Node → Tracked Pdg Unit
  | [] => return ()
  | ain :: rest => do
    let id ← Tracked.freshId
    Tracked.attempt fun d => do
      let (g, _) ← d.toGraph.addEdge ⟨id, ain.id, result, .dependence .summary ain.defs.head? none⟩
      return ({ d with toGraph := g }, ())
    summarize result rest

/-- The arguments and the result of an expanded call that returns a value. -/
def summaryEnds (d : Pdg) (call : Node) : Except Error (Option (Id × List Node)) :=
  match call.payload with
  | .call _ _ _ false => .ok none
  | .call _ _ _ true => do
    match ← d.returnActualOut call with
    | none => return none
    | some out => return some (out.id, ← d.actualIns call)
  | _ => .error .undefined

/-- Add summary edges for some calls; answers how many. -/
def summarizeCalls : List Node → Tracked Pdg Nat
  | [] => return 0
  | call :: rest => do
    match (← Tracked.state).summaryEnds call with
    | .error e => throw e
    | .ok none => summarizeCalls rest
    | .ok (some (result, ains)) =>
      summarize result ains
      return ains.length + (← summarizeCalls rest)

/-- Add a summary edge from every argument to the result of each expanded call, whatever the callee
does; answers how many. -/
def addConservativeSummaries : Tracked Pdg Nat := do
  summarizeCalls (← Tracked.state).callNodes

/-! ## Text -/

def edgeLine (e : Edge) : String :=
  Cfg.arrow e ++
    (match e.var? with
      | some v => " " ++ v.name
      | none => "") ++
    (match e.carrier? with
      | some l => " loop(" ++ Text.decimal l ++ ")"
      | none => "")

def dump (p : Program) (d : Pdg) : String :=
  Text.join "\n" <|
    ["----- PDG (" ++ d.name ++ ") -----"] ++
    (sortBy (·.id) d.nodes).map (Node.dump p) ++
    (Cfg.sortedEdges d.edges).map edgeLine ++ [Text.rule 30]

end Pdg

end ProgramDependence
