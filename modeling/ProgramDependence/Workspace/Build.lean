import ProgramDependence.System.Build
import ProgramDependence.Workspace.Edit
import ProgramDependence.Workspace.Recipe

/-!
# Building graphs

The constructions of the library, run in a workspace.
-/

namespace ProgramDependence

namespace Session

variable {α : Type}

def build (x : Context → Tracked Unit α) : Session α := do
  let c ← context
  construct c.numbering (x c)

def flowOf (u : UnitRef) : Session Cfg :=
  build fun c => Cfg.ofUnit c u

def dependenceOf (u : UnitRef) : Session Pdg :=
  build fun c => Pdg.ofUnit c u

def dependenceOfFlow (name : String) : Session Pdg := do
  let f ← flowGraph name
  build fun c => Pdg.ofCfg c f

/-- Add the control dependences of a flow graph to a dependence graph; answers how many. -/
def addControl (name cfg : String) : Session Nat := do
  let _ ← item name
  let f ← flowGraph cfg
  let c ← context
  extend name (ControlDependence.construct c.settings f)

/-- Add the data dependences of a flow graph to a dependence graph; answers how many. -/
def addData (name cfg : String) : Session Nat := do
  let _ ← item name
  let f ← flowGraph cfg
  let c ← context
  extend name (DataDependence.construct c.program f)

def flowsOfClass (r : ClassRef) : Session (List Cfg × Table String Error) :=
  build fun c => Cfg.ofClass c r

def dependencesOfClass (r : ClassRef) : Session (List Pdg × Table String Error) :=
  build fun c => Pdg.ofClass c r

def classGraphOf (r : ClassRef) : Session ClassGraph := do
  let d ← require ((← program).class? r)
  build fun c => ClassGraph.ofClass c r d

/-- Take a dependence graph into a class graph, under an edge of the given id. -/
def addToClass (name pdg : String) (edge : Id) : Session ClassGraph := do
  let g ← classGraph name
  let d ← dependenceGraph pdg
  let (answer, g) ← attempt (← get).current g (ClassGraph.addPdg d edge)
  replace (.classGraph g)
  lift answer
  return g

def addToSystem (name pdg : String) : Session SystemGraph := do
  let g ← systemGraph name
  let d ← dependenceGraph pdg
  let (answer, g) ← attempt (← get).current g (SystemGraph.addPdg (← program) d)
  replace (.system g)
  lift answer
  return g

/-- Add the missing summary edges of a system; answers how many. -/
def addSummaries (name : String) : Session Nat := do
  let g ← systemGraph name
  let (answer, g) ← attempt (← get).current g (SystemGraph.addSummaries (← program))
  replace (.system g)
  lift answer

/-- Add a summary edge for every argument of every expanded call of a dependence graph; answers how
many. -/
def addConservativeSummaries (name : String) : Session Nat := do
  let d ← dependenceGraph name
  let (answer, d) ← attempt (← get).current d Pdg.addConservativeSummaries
  replace (.dependence d)
  lift answer

/-- A copy of a flow graph or a dependence graph under fresh ids, with the map from old ids to new. -/
def copy (name : String) : Session (Item × Table Id Id) := do
  match ← item name with
  | .flow c =>
    let (c, ids) ← construct c.numbering c.copy
    return (.flow c, ids)
  | .dependence d =>
    let numbering := (← require d.cfg).numbering
    let c ← contextOf numbering
    let (d, ids) ← construct numbering (d.copy c)
    return (.dependence d, ids)
  | _ => throw .undefined

/-! ## Systems and caches -/

/-- Take the dependence graphs of a cache into a cache of all results. -/
def absorb (all : BuildCache Stored) (pdgs : BuildCache Pdg) : BuildCache Stored :=
  { states := pdgs.states
    results := pdgs.results.entries.foldl
      (fun t e => if t.contains e.1 then t else t.insert e.1 (.pdg e.2)) all.results }

/-- Build a system with the help of a named cache. -/
def buildSystem (cacheName : String) (x : Context → Tracked (BuildCache Pdg) SystemGraph) :
    Session SystemGraph := do
  let c ← context
  let all ← cache cacheName
  let (answer, pdgs) ← attempt c.numbering (all.restrict Stored.pdg?) (x c)
  keepCache cacheName (absorb all pdgs)
  lift answer

def systemOfMethod (cacheName : String) (r : MethodRef) : Session SystemGraph :=
  buildSystem cacheName fun c => SystemGraph.ofMethod c r

def systemOfClasses (cacheName name : String) (rs : List ClassRef) : Session SystemGraph :=
  buildSystem cacheName fun c => SystemGraph.ofClasses c name rs

/-- Follow a recipe in a named cache: the result or the error, and the builds that were begun. -/
def buildInCache (cacheName : String) (r : Recipe) :
    Session (Except Error Stored × List (String × BuildState)) := do
  let (answer, record) ← attempt (← get).current { cache := ← cache cacheName, begun := [] } r.follow
  keepCache cacheName record.cache
  return (answer, record.begun)

end Session

end ProgramDependence
