import ProgramDependence.System.Basic

/-!
# Building system graphs

Starting from some units, the system takes in every unit that is reached through resolved calls into
the project and, if the settings ask for it, through the fields that methods access.  Units that
cannot be built are listed and passed over.
-/

namespace ProgramDependence

namespace SystemGraph

/-- The dependence graph of a unit, from the cache if it is there. -/
def cachedPdg (context : Context) (u : UnitRef) : Tracked (BuildCache Pdg) Pdg :=
  BuildCache.getOrBuild .main id (fun f => f) (context.program.unitName u) (Pdg.ofUnit context u)

/-- The units that a unit leads to: the callees of its calls, then the fields it accesses. -/
def leadsTo (context : Context) (u : UnitRef) (d : Pdg) : List UnitRef :=
  match u with
  | .field _ => []
  | .method r =>
    let callees := d.callNodes.filterMap fun n => match n.payload with
      | .call m _ _ _ => some (UnitRef.method m)
      | _ => none
    let fields :=
      if context.settings.includeFieldPdgs.truthy then
        ((context.program.method? r).map Program.accessedFields).getD [] |>.map UnitRef.field
      else []
    (callees ++ fields).filter context.program.unitInProject

/-- Require that the calls of a method know their callees. -/
def requireCallSites {σ : Type} (u : UnitRef) (d : Pdg) : Tracked σ Unit :=
  match u with
  | .field _ => return ()
  | .method _ => if d.callNodes.all (·.isCallSite) then return () else throw .undefined

/-- Whether a unit is in the system or has failed. -/
def isSettled (p : Program) (g : SystemGraph) (u : UnitRef) : Bool :=
  g.pdgs.contains (p.unitName u) || g.failures.contains (p.unitName u)

/-- The units of a list that the system does not have. -/
def lacking (p : Program) (g : SystemGraph) (us : List UnitRef) : List UnitRef :=
  us.filter fun u => !g.pdgs.contains (p.unitName u)

/-- Take in the graph of one unit; answers the units it leads to that are not in the system.  A unit
that cannot be built is listed and leads nowhere. -/
def integrateOne (context : Context) (u : UnitRef) (g : SystemGraph) :
    Tracked (BuildCache Pdg) (SystemGraph × List UnitRef) := do
  let name := context.program.unitName u
  match ← Cfg.catching (cachedPdg context u) with
  | .error e =>
    Tracked.report .error (name ++ " 的PDG构建失败: " ++ e.message)
    return ({ g with failures := g.failures.insert name e }, [])
  | .ok d =>
    let ((), g) ← Tracked.within g (addPdg context.program d)
    requireCallSites u d
    return (g, g.lacking context.program (leadsTo context u d))

/-- Take in the units of a stack, its top first.  Units that are settled are passed over; those that
a unit leads to are put on the stack, the last one on top.  `steps` bounds how many units are taken
in. -/
def integrateStack (context : Context) : Nat → List UnitRef → SystemGraph →
    Tracked (BuildCache Pdg) SystemGraph
  | 0, _, g => return g
  | steps + 1, stack, g =>
    match stack.dropWhile (g.isSettled context.program) with
    | [] => return g
    | u :: rest => do
      let (g, next) ← integrateOne context u g
      integrateStack context steps (next.reverse ++ rest) g

/-- How many units are taken in at most.  A unit is settled when it is taken in, so no more than
there are; but where a cache holds the graph of another unit under its name it is not, and may come
up again. -/
def integrationSteps (p : Program) : Nat :=
  Nat.pow 2 64 + p.unitCount

/-- Take in a unit and everything it leads to, and join the calls to their callees. -/
def integrate (context : Context) (u : UnitRef) (g : SystemGraph) : Tracked (BuildCache Pdg) SystemGraph := do
  let g ← integrateStack context (integrationSteps context.program) [u] g
  let ((), g) ← Tracked.within g (connectCalls context.program g.callNodes)
  return g

def integrateEach (context : Context) : List UnitRef → SystemGraph → Tracked (BuildCache Pdg) SystemGraph
  | [], g => return g
  | u :: us, g => do integrateEach context us (← integrate context u g)

/-- Add the summary edges and report on the system. -/
def complete {σ : Type} (context : Context) (g : SystemGraph) : Tracked σ SystemGraph := do
  let (added, g) ← Tracked.within g (addSummaries context.program)
  if !g.failures.entries.isEmpty then
    Tracked.report .warning
      ("SDG " ++ g.name ++ ": " ++ Nat.repr g.failures.size ++ " 个单元构建失败")
  if !g.bindingOk then
    Tracked.report .warning ("SDG " ++ g.name ++ ": 存在未解析的绑定")
  Tracked.report .info
    ("SDG " ++ g.name ++ ": " ++ Nat.repr g.pdgs.size ++ " 个PDG, " ++
      Nat.repr g.nodes.length ++ " 个节点, " ++ Nat.repr g.edges.length ++ " 条边, " ++
      Nat.repr added ++ " 条summary边")
  return g

def ofUnits (context : Context) (name : String) (us : List UnitRef) :
    Tracked (BuildCache Pdg) SystemGraph := do
  complete context (← integrateEach context us (ofName name))

def ofMethod (context : Context) (r : MethodRef) : Tracked (BuildCache Pdg) SystemGraph :=
  ofUnits context (context.program.methodName r) [.method r]

def ofClasses (context : Context) (name : String) (rs : List ClassRef) :
    Tracked (BuildCache Pdg) SystemGraph :=
  ofUnits context name (context.program.unitsByLevel rs)

end SystemGraph

end ProgramDependence
