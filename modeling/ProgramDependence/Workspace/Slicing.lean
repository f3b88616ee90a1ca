import ProgramDependence.Dot.Drawing
import ProgramDependence.Workspace.Basic

/-!
# Slicing and drawing in a workspace
-/

namespace ProgramDependence

namespace Session

def sliceOn (name : String) (c : Criterion) : Session Slice := do
  let i ← item name
  construct (← get).current (Slice.of i.graph c)

def closureOf (name : String) (n : Node) : Session Slice := do
  let i ← item name
  construct (← get).current (Slice.closure i.graph n)

/-- The names of the variables a node defines and uses, each once. -/
def variableNames (n : Node) : List String :=
  Search.fresh [] ((n.defs ++ n.uses).map (·.name))

def slicesByName (name : String) (n : Node) : List String → Session (List (String × Slice))
  | [] => return []
  | v :: vs => do
    let s ← sliceOn name ⟨n, .named v⟩
    return (v, s) :: (← slicesByName name n vs)

/-- For each of some nodes, the slices on its variables and its data closure. -/
def slicesOfNodes (name : String) : List Node → Session (List (Node × List (String × Slice) × Slice))
  | [] => return []
  | n :: ns => do
    let slices ← slicesByName name n (variableNames n)
    let closure ← closureOf name n
    return (n, slices, closure) :: (← slicesOfNodes name ns)

/-- All slices and closures of a named graph, node by node. -/
def allSlices (name : String) : Session (List (Node × List (String × Slice) × Slice)) := do
  slicesOfNodes name (← item name).graph.nodes

/-- The slicer of a name; a new one slices the named graph. -/
def slicer (slicerName graph : String) : Session NamedSlicer := do
  match (← get).slicers.find? slicerName with
  | some s => return s
  | none => return ⟨← item graph, {}⟩

/-- A slice from a slicer, with the number of slices it had before and has after. -/
def sliceWith (slicerName graph : String) (c : Criterion) : Session (Slice × Nat × Nat) := do
  let s ← slicer slicerName graph
  let (answer, slices) ← attempt (← get).current s.slicer (Slicer.slice s.source.graph c)
  modify fun w => { w with slicers := w.slicers.insert slicerName { s with slicer := slices } }
  return (← lift answer, s.slicer.slices.size, slices.slices.size)

/-! ## Drawings -/

inductive DrawingKind where
  | flow
  | dependence
  | units
  | slices
  deriving DecidableEq, Repr, Inhabited

def itemsOf : List String → Session (List Item)
  | [] => return []
  | name :: names => do
    let i ← item name
    return i :: (← itemsOf names)

def asSlice : Item → Except Error Slice
  | .slice s => .ok s
  | _ => .error .undefined

def unitsOf : Item → Except Error (List Pdg)
  | .classGraph g => .ok g.pdgs
  | .system g => .ok g.pdgs.values
  | _ => .error .undefined

def draw (kind : DrawingKind) (title : String) (names : List String) : Session Dot.Document := do
  let p ← program
  match kind, ← itemsOf names with
  | .flow, is => lift (Dot.ofFlow p title (is.map (·.graph)))
  | .dependence, is => lift (Dot.ofDependence p title (is.map (·.graph)))
  | .units, i :: _ => lift do Dot.ofUnits p title i.graph (← unitsOf i)
  | .units, [] => throw .undefined
  | .slices, is => lift do
    let _ ← Dot.ofDependence p title (is.map (·.graph))
    Dot.ofSlices p title (← is.mapM asSlice)

end Session

end ProgramDependence
