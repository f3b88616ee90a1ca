import ProgramDependence.Graph.ElementSet
import ProgramDependence.Settings.EnvironmentFile
import ProgramDependence.Workspace.Item

/-!
# Workspaces

A workspace keeps graphs, element sets, caches and slicers under names, beside the program they are
about, the numberings ids come from and the environment variables.  A `Session` is a piece of work
in a workspace.  Like a construction it may fail, and what it changed before stays changed.

Work is done in steps.  At the end of a step everything it made gets the number of the step as
serial, so that parts made in different steps are told apart also where ids are used again.
-/

namespace ProgramDependence

/-- The settings of an analysis with its numbering: the next id, and the one to start over with. -/
structure Numbering where
  settings : Settings
  start : Id
  next : Id
  deriving Inhabited

/-- A result in a cache: a dependence graph, or a text. -/
inductive Stored where
  | pdg (d : Pdg)
  | text (s : String)
  deriving Inhabited

def Stored.pdg? : Stored → Option Pdg
  | .pdg d => some d
  | .text _ => none

/-- The slices of a graph, with the graph. -/
structure NamedSlicer where
  source : Item
  slicer : Slicer
  deriving Inhabited

/-- Everything a session works on.  `current` is the position of the numbering in use. -/
structure Workspace where
  program : Program
  numberings : List Numbering
  current : Nat := 0
  environment : Table String String := {}
  items : Table String Item := {}
  sets : Table String ElementSet := {}
  caches : Table String (BuildCache Stored) := {}
  slicers : Table String NamedSlicer := {}
  log : List Notice := []
  steps : Nat := 0
  deriving Inhabited

abbrev Session := ExceptT Error (StateM Workspace)

namespace Update

def onStored (u : Update) : Stored → Stored
  | .pdg d => .pdg (u.onPdg d)
  | .text s => .text s

def asSlice (u : Update) (s : Slice) : Slice :=
  match u.onItem (.slice s) with
  | .slice t => t
  | _ => s

def onWorkspace (u : Update) (w : Workspace) : Workspace :=
  { w with
    items := w.items.map u.onItem
    caches := w.caches.map fun c => { c with results := c.results.map u.onStored }
    slicers := w.slicers.map fun s =>
      { source := u.onItem s.source, slicer := ⟨s.slicer.slices.map u.asSlice⟩ } }

end Update

namespace Workspace

def ofProgram (program : Program) (settings : Settings) (start : Id) : Workspace :=
  { program, numberings := [⟨settings, start, start⟩] }

def numbering (w : Workspace) : Numbering :=
  (w.numberings[w.current]?).getD default

/-- Do a step: the answer, the notices it wrote, and the workspace after it. -/
def step {α : Type} (work : Session α) (w : Workspace) : Except Error α × List Notice × Workspace :=
  let (answer, done) := (work.run { w with log := [], steps := w.steps + 1 } : Except Error α × Workspace)
  (answer, done.log, (Update.stamp done.steps).onWorkspace done)

end Workspace

namespace Session

def lift {α : Type} : Except Error α → Session α
  | .ok a => return a
  | .error e => throw e

/-- The value that is there, or the error that something does not apply. -/
def require {α : Type} : Option α → Session α
  | some a => return a
  | none => throw .undefined

def program : Session Program :=
  return (← get).program

def report (level : Level) (text : String) : Session Unit :=
  modify fun w => { w with log := w.log ++ [⟨level, text⟩] }

/-! ## Numberings -/

def contextOf (numbering : Nat) : Session Context := do
  let w ← get
  let settings := ((w.numberings[numbering]?).map (·.settings)).getD {}
  return { program := w.program, settings, numbering }

def context : Session Context := do
  contextOf (← get).current

/-- Run a construction from a state; the final state is there also if the construction fails. -/
def attempt {σ α : Type} (numbering : Nat) (s : σ) (x : Tracked σ α) : Session (Except Error α × σ) := do
  let w ← get
  let next := ((w.numberings[numbering]?).map (·.next)).getD 0
  let (answer, s, trail) := x.start s ⟨next, w.log⟩
  set { w with
    log := trail.log
    numberings := w.numberings.modify numbering fun n => { n with next := trail.next } }
  return (answer, s)

def construct {α : Type} (numbering : Nat) (x : Tracked Unit α) : Session α := do
  lift (← attempt numbering () x).1

def drawIds : Nat → Session (List Id)
  | 0 => return []
  | count + 1 => do
    let id ← construct (← get).current Tracked.freshId
    return id :: (← drawIds count)

def restartIds : Session Unit :=
  modify fun w =>
    { w with numberings := w.numberings.modify w.current fun n => { n with next := n.start } }

def settings : Session Settings :=
  return (← get).numbering.settings

def useSettings (s : Settings) : Session Unit :=
  modify fun w =>
    let start := w.numbering.start
    { w with numberings := w.numberings ++ [⟨s, start, start⟩], current := w.numberings.length }

def setVariable (name : String) (value : Option String) : Session Unit := do
  let old := (← get).environment
  let environment ← match value with
    | some v => lift (EnvironmentFile.setVariable old name v)
    | none => pure (old.erase name)
  modify fun w => { w with environment }

/-- Settings from the environment, after a file of variables is loaded into it. -/
def settingsFromEnvironment (file : Option String) : Session Settings := do
  let w ← get
  let (environment, fault) := match file with
    | some text => EnvironmentFile.load text w.environment
    | none => (w.environment, none)
  set { w with environment }
  match fault with
  | some e => throw e
  | none => return Settings.ofEnvironment environment

/-- Settings from the text of a settings file, if there is one. -/
def settingsFromJson (file : Option String) : Session Settings := do
  let (s, unknown) ← lift (Settings.ofJsonText file)
  if !unknown.isEmpty then report .warning ("忽略未知配置项: " ++ Text.join ", " unknown)
  return s

/-! ## Named things -/

def named {α : Type} (table : Table String α) (name : String) : Session α :=
  match table.find? name with
  | some a => return a
  | none => throw (.unknownName name)

def item (name : String) : Session Item := do
  named (← get).items name

def keep (name : String) (i : Item) : Session Unit :=
  modify fun w => { w with items := w.items.insert name i }

/-- Put an item in the place of its earlier version, wherever that occurs. -/
def replace (i : Item) : Session Unit :=
  modify i.replacing.onWorkspace

def flowGraph (name : String) : Session Cfg := do
  match ← item name with
  | .flow c => return c
  | _ => throw .undefined

def dependenceGraph (name : String) : Session Pdg := do
  match ← item name with
  | .dependence d => return d
  | _ => throw .undefined

def classGraph (name : String) : Session ClassGraph := do
  match ← item name with
  | .classGraph g => return g
  | _ => throw .undefined

def systemGraph (name : String) : Session SystemGraph := do
  match ← item name with
  | .system g => return g
  | _ => throw .undefined

def sliceGraph (name : String) : Session Slice := do
  match ← item name with
  | .slice s => return s
  | _ => throw .undefined

def node (name : String) (id : Id) : Session Node := do
  lift ((← item name).graph.getNode id)

def elementSet (name : String) : Session ElementSet := do
  named (← get).sets name

def keepSet (name : String) (s : ElementSet) : Session Unit :=
  modify fun w => { w with sets := w.sets.insert name s }

/-- The cache of a name, which is empty at first. -/
def cache (name : String) : Session (BuildCache Stored) :=
  return ((← get).caches.find? name).getD default

def keepCache (name : String) (c : BuildCache Stored) : Session Unit :=
  modify fun w => { w with caches := w.caches.insert name c }

end Session

end ProgramDependence
