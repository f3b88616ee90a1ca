import ProgramDependence.Dependence.ClassGraph
import ProgramDependence.Dot.Document
import ProgramDependence.Slicing.Slice
import ProgramDependence.System.Basic

/-!
# Drawings of graphs

How nodes and edges look, and the documents that show flow graphs, dependence graphs, systems and
slices.
-/

namespace ProgramDependence.Dot

/-- The label of a node: its text with the source line as an index. -/
def nodeLabel (p : Program) (n : Node) : String :=
  "<" ++ escapeHtml (n.text p) ++ "<SUB>" ++ Text.decimal (n.line p) ++ "</SUB>>"

def nodeAttributes (p : Program) (g : Graph) (n : Node) : Attributes :=
  let label := ("label", nodeLabel p n)
  if n.sort.isEntry then
    [label, ("fillcolor", "lightgreen"), ("shape", "ellipse"), ("style", "filled")]
  else if n.sort.isExit then
    [label, ("fillcolor", "lightblue"), ("shape", "ellipse"), ("style", "filled")]
  else if n.sort.isParameter then [label, ("shape", "box"), ("style", "rounded,dashed")]
  else if n.sort = .merge then [("label", ""), ("shape", "point")]
  else [label, ("shape", if g.isBranch n.id then "diamond" else "rectangle")]

def drawNode (p : Program) (g : Graph) (n : Node) : Statement :=
  .node (Text.decimal n.id) (nodeAttributes p g n)

def flowAttributes (e : Edge) : Attributes :=
  let label := ("label", e.word)
  if e.isLoopBack then [label, ("style", "bold")]
  else if e.isFallThrough then [label, ("color", "grey"), ("style", "dashed")]
  else [label]

/-- How a dependence looks: control is blue or orange, parameters and summaries are green, other
data is red. -/
def dependenceAttributes (e : Edge) (s : DependenceSort) (v : Option Variable) : Attributes :=
  let name := (v.map (·.name)).getD ""
  if s.isControl then
    [("label", e.word), ("color", if s = .controlTrue then "blue" else "orange"), ("style", "solid")]
  else if s = .classMember then [("color", "grey"), ("style", "bold")]
  else if s.isParameter || s = .summary then
    [("label", name), ("color", "green"), ("style", "dashed")]
  else
    [("label", if s.isDefUse then name else name ++ " (" ++ e.word ++ ")"),
      ("color", "red"), ("style", "dotted")]

def joinEnds (e : Edge) (attributes : Attributes) : Statement :=
  .edge (Text.decimal e.src) (Text.decimal e.dst) attributes

def drawFlow (e : Edge) : Except Error Statement :=
  match e.label with
  | .flow .. => .ok (joinEnds e (flowAttributes e))
  | _ => .error .undefined

def drawDependence (e : Edge) : Except Error Statement :=
  match e.label with
  | .dependence s v _ => .ok (joinEnds e (dependenceAttributes e s v))
  | _ => .error .undefined

def document (title : String) (entries : List Entry) : Document :=
  { title
    entries := [
      .single (.settings [("rankdir", "TB")]),
      .single (.defaults "node" [("fontname", "Arial")]),
      .single (.defaults "edge" [("fontname", "Arial")])] ++ entries }

def drawGraphs (p : Program) (edge : Edge → Except Error Statement) : List Graph → Except Error (List Entry)
  | [] => .ok []
  | g :: gs => do
    let edges ← g.edges.mapM edge
    return (g.nodes.map (drawNode p g) ++ edges).map Entry.single ++ (← drawGraphs p edge gs)

def ofFlow (p : Program) (title : String) (gs : List Graph) : Except Error Document := do
  return document title (← drawGraphs p drawFlow gs)

def ofDependence (p : Program) (title : String) (gs : List Graph) : Except Error Document := do
  return document title (← drawGraphs p drawDependence gs)

def drawUnits (p : Program) (g : Graph) : Nat → List Pdg → List Entry
  | _, [] => []
  | number, d :: ds =>
    .cluster ("cluster_" ++ Nat.repr number)
        (.settings [("label", escapeHtml d.name), ("style", "dashed")] ::
          d.nodes.map (drawNode p g)) ::
      drawUnits p g (number + 1) ds

def ofUnits (p : Program) (title : String) (g : Graph) (units : List Pdg) : Except Error Document := do
  let edges ← g.edges.mapM drawDependence
  return document title (drawUnits p g 0 units ++ edges.map Entry.single)

/-- The drawing of slices, with the nodes of their criteria in yellow. -/
def ofSlices (p : Program) (title : String) (ss : List Slice) : Except Error Document := do
  let d ← ofDependence p title (ss.map (·.toGraph))
  let marks := ss.map fun s =>
    Statement.node (Text.decimal s.criterion.node.id) [("fillcolor", "yellow"), ("style", "filled")]
  return { d with entries := d.entries ++ marks.map Entry.single }

end ProgramDependence.Dot
