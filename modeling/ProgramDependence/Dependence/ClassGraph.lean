import ProgramDependence.Dependence.Pdg

/-!
# Class dependence graphs

A class graph has an entry for the class and the union of the dependence graphs of its members.  An
edge leads from the class entry to the entry of each member.
-/

namespace ProgramDependence

/-- The dependence graph of a class.  `failures` lists the members that could not be built. -/
structure ClassGraph extends Graph where
  entry : Node
  name : String := ""
  pdgs : List Pdg := []
  failures : Table String Error := {}
  deriving Inhabited

namespace ClassGraph

def ofEntry (entry : Node) (name : String) : ClassGraph :=
  { toGraph := (Graph.empty .classDependence).appendNode entry, entry, name }

def bindingOk (g : ClassGraph) : Bool :=
  g.pdgs.all (·.bindingOk)

def pdg? (p : Program) (g : ClassGraph) (key : String) : Option Pdg :=
  g.pdgs.find? fun d => d.key p = key

/-- Take in a member, and join the class entry to its entry by an edge of the given id. -/
def addPdg (d : Pdg) (edge : Id) : Tracked ClassGraph Unit := do
  Tracked.update fun g => { g with pdgs := g.pdgs ++ [d] }
  Tracked.attempt fun g => do
    return ({ g with toGraph := ← g.toGraph.merge d.toGraph }, ())
  Tracked.attempt fun g => do
    let link : Edge := ⟨edge, g.entry.id, d.entry.id, .dependence .classMember none none⟩
    let (h, _) ← g.toGraph.addEdge link
    return ({ g with toGraph := h }, ())

def classScope : ClassKind → ScopeSort
  | .classType => .classType
  | .interface => .interface
  | .enum => .enum

/-- Take in members, with conservative summaries if the settings ask for them. -/
def addPdgs (context : Context) : List Pdg → Tracked ClassGraph Unit
  | [] => return ()
  | d :: ds => do
    let ((), d) ← Tracked.within d do
      if context.settings.conservativeSummaries.truthy then
        let _ ← Pdg.addConservativeSummaries
    addPdg d (← Tracked.freshId)
    addPdgs context ds

def ofClass {σ : Type} (context : Context) (r : ClassRef) (c : ClassDecl) : Tracked σ ClassGraph := do
  let entry : Node :=
    { id := ← Tracked.freshId, sort := .entry (classScope c.kind), element := .classDecl r }
  let (pdgs, failures) ← Pdg.ofClass context r
  let start := { ofEntry entry c.qualifiedName with failures }
  let ((), g) ← Tracked.within start (addPdgs context pdgs)
  if !g.bindingOk then Tracked.report .warning (c.qualifiedName ++ ": 存在未解析的绑定")
  return g

def dump (p : Program) (g : ClassGraph) : String :=
  Text.join "\n" (("----- ClDG (" ++ g.name ++ ") -----") :: g.pdgs.map (Pdg.dump p))

end ClassGraph

end ProgramDependence
