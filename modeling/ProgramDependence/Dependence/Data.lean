import ProgramDependence.Dependence.Control

/-!
# Data dependence

A definition reaches a use when some path of control flow joins them on which the variable is not
defined in between; fall-through edges do not count as control flow here.  The dependence is
loop-independent if such a path needs no edge that closes a loop, and loop-carried otherwise.
Besides there are dependences between two definitions with nothing between them (def-order), from a
use to a later definition (anti), and between definitions that exclude each other and reach a common
use (output).
-/

namespace ProgramDependence

namespace DataDependence

structure Link where
  src : Id
  dst : Id
  sort : DependenceSort
  var : Variable
  carrier : Option Id := none
  deriving DecidableEq, Repr, Inhabited

/-- The edges of control flow that leave a node, fall-through edges left out. -/
def flowOut (c : Cfg) (n : Id) : List Edge :=
  (c.edgesOutOf n).filter fun e => !e.isFallThrough

def definesAt (c : Cfg) (v : Variable) (n : Id) : Bool :=
  (c.node? n).any (·.defines v)

def usesAt (c : Cfg) (v : Variable) (n : Id) : Bool :=
  (c.node? n).any (·.usesVariable v)

/-- The edges along which a value goes on from a node: none where the variable is defined anew. -/
def onward (c : Cfg) (v : Variable) (n : Id) : List Edge :=
  if definesAt c v n then [] else flowOut c n

/-- Whether the control flow out of a node can be read: its edges are control-flow edges. -/
def isReadable (c : Cfg) (n : Id) : Bool :=
  (c.edgesOutOf n).all (·.isFlow)

/-- Whether the way of a value onward from a node can be read. -/
def isOnwardReadable (c : Cfg) (v : Variable) (n : Id) : Bool :=
  definesAt c v n || isReadable c n

/-- The nodes that a value reaches from `starts`, in order of breadth-first discovery.  Nodes among
`skip` are neither entered nor listed, and edges that close a loop are followed on request only. -/
def clearReach (c : Cfg) (v : Variable) (loopBack : Bool) (skip starts : List Id) : List Id :=
  let next (n : Id) : List Id :=
    ((onward c v n).filter fun e => loopBack || !e.isLoopBack).map (·.dst)
  let first := Search.fresh skip starts
  (Search.run .queue next (first.length + c.edges.length) first (skip ++ first) []).visited

/-! ## Loops -/

def backEdges (c : Cfg) (loop : Id) : List Edge :=
  c.edges.filter fun e => e.loopBack? = some loop

/-- The region of a loop: the loop node, the targets of its back edges, and every node from which a
source of one is reached without passing such a target. -/
def region (c : Cfg) (loop : Id) : List Id :=
  let back := backEdges c loop
  let targets := Search.fresh [] (back.map (·.dst))
  let next (n : Id) : List Id := c.neighbours false (fun e => !e.isFallThrough) n
  let first := Search.fresh targets (back.map (·.src) ++ [loop])
  (Search.run .queue next (first.length + c.edges.length) first (targets ++ first) []).found

def loops (c : Cfg) : List Id :=
  sortBy id (Search.fresh [] (c.edges.filterMap (·.loopBack?)))

def regions (c : Cfg) : Table Id (List Id) :=
  ⟨(loops c).map fun l => (l, region c l)⟩

def regionSize (regions : Table Id (List Id)) (loop : Option Id) : Int :=
  ((loop.bind regions.find?).map (·.length)).getD 0

/-- The innermost loop whose region holds both ends: the one of smallest region and then smallest
id. -/
def carrier? (regions : Table Id (List Id)) (src dst : Id) : Option Id :=
  let common := regions.entries.filter fun r => r.2.contains src && r.2.contains dst
  ((sortByTwo (fun r => (r.2.length : Int)) (·.1) common).head?).map (·.1)

/-! ## From definitions to uses -/

/-- The edges that close a loop and that a value could take: those at the definition, then those met
on the loop-independent paths. -/
def blockedEdges (c : Cfg) (v : Variable) (anchor : Id) (independent : List Id) : List Edge :=
  (flowOut c anchor).filter (·.isLoopBack) ++
    independent.flatMap fun n => (onward c v n).filter (·.isLoopBack)

/-- What each blocked edge newly reaches when loops may be closed, edge by edge. -/
def carriedReach (c : Cfg) (v : Variable) : List Id → List Edge → List (Edge × Id)
  | _, [] => []
  | covered, e :: es =>
    let carried := clearReach c v true covered [e.dst]
    carried.map (e, ·) ++ carriedReach c v (covered ++ carried) es

/-- The dependence of a use that only a path through a closed loop reaches. -/
def carriedLink (c : Cfg) (regions : Table Id (List Id)) (anchor : Node) (v : Variable) (e : Edge)
    (n : Id) : Link :=
  if anchor.sort = .parameter .formalIn ||
      (c.node? n).any (fun m => m.sort = .parameter .formalOut) then
    ⟨anchor.id, n, .loopIndependent, v, none⟩
  else ⟨anchor.id, n, .loopCarried, v, (carrier? regions anchor.id n).orElse fun _ => e.loopBack?⟩

/-- The dependences of the uses that a definition reaches: the loop-independent ones first, then
those through closed loops, inner loops first.  To compare loops, all edges have to be control flow. -/
def defUse (c : Cfg) (regions : Table Id (List Id)) (anchor : Node) (v : Variable) : Findings Link :=
  let starts := ((flowOut c anchor.id).filter fun e => !e.isLoopBack).map (·.dst)
  let independent := clearReach c v false [] starts
  let blocked := sortByTwo (fun e => regionSize regions e.loopBack?) (·.id)
    (blockedEdges c v anchor.id independent)
  let carried := (carriedReach c v independent blocked).filter fun r => usesAt c v r.2
  .require (isReadable c anchor.id && independent.all (isOnwardReadable c v)) ++
    .ofList ((independent.filter (usesAt c v)).map fun n =>
      ⟨anchor.id, n, .loopIndependent, v, none⟩) ++
    .require (blocked.isEmpty || c.isPureFlow) ++
    .ofList (carried.map fun r => carriedLink c regions anchor v r.1 r.2)

/-! ## The other dependences -/

/-- The next definitions after a definition, with neither a use nor a definition in between. -/
def defOrder (c : Cfg) (anchor : Id) (v : Variable) : Findings Link :=
  let ends (n : Id) : Bool := definesAt c v n || usesAt c v n
  let next (n : Id) : List Id := if ends n then [] else (flowOut c n).map (·.dst)
  let first := Search.fresh [anchor] ((flowOut c anchor).map (·.dst))
  let reached :=
    (Search.run .queue next (first.length + c.edges.length) first (anchor :: first) []).visited
  .require (isReadable c anchor) ++
    .overAll (fun n => .require (ends n || isReadable c n) ++
      .ofList (if definesAt c v n then [⟨anchor, n, .defOrder, v, none⟩] else [])) reached

/-- The definitions after a use, with no definition in between. -/
def anti (c : Cfg) (anchor : Id) (v : Variable) : Findings Link :=
  let reached := clearReach c v true [] ((flowOut c anchor).map (·.dst))
  .require (isReadable c anchor && reached.all (isOnwardReadable c v)) ++
    .ofList ((reached.filter fun n => n ≠ anchor && definesAt c v n).map fun n =>
      ⟨anchor, n, .anti, v, none⟩)

/-- The variables that some nodes define, each once, with the nodes that define it. -/
def byVariable (nodes : List Node) : List (Variable × List Node) :=
  let vars := nodes.flatMap (·.defs)
  let distinct := vars.foldl (fun vs v => if v.isIn vs then vs else vs ++ [v]) []
  distinct.map fun v => (v, nodes.filter (·.defines v))

def pairs {α : Type} : List α → List (α × α)
  | [] => []
  | x :: xs => xs.map (x, ·) ++ pairs xs

def areExclusive (c : Cfg) (m n : Id) : Bool :=
  !(c.reachable m true true none).contains n && !(c.reachable n true true none).contains m

def reachedUses (links : List Link) (src : Id) (v : Variable) : List Id :=
  (links.filter fun l => l.src = src && l.sort.isDefUse && l.var.same v).map (·.dst)

/-- Definitions of one variable that exclude each other and reach a common use, in the order of the
source. -/
def output (p : Program) (c : Cfg) (defNodes : List Node) (defUses : List Link) : List Link :=
  (byVariable defNodes).flatMap fun (v, nodes) =>
    ((pairs (sortByTwo (Node.line p) (·.id) nodes)).filter fun (m, n) =>
      areExclusive c m.id n.id &&
        (reachedUses defUses m.id v).any (reachedUses defUses n.id v).contains).map
      fun (m, n) => ⟨m.id, n.id, .output, v, none⟩

/-! ## Assembling -/

/-- What distinguishes one data dependence from another. -/
def Link.key (l : Link) : Id × Id × DependenceSort × VariableIdentity :=
  (l.src, l.dst, l.sort, l.var.identity)

/-- Keep the first of several links with one key. -/
def distinctLinks : List (Id × Id × DependenceSort × VariableIdentity) → List Link → List Link
  | _, [] => []
  | seen, l :: ls =>
    if l.key ∈ seen then distinctLinks seen ls else l :: distinctLinks (l.key :: seen) ls

/-- The data dependences that are to be added to a graph, each once. -/
def links (p : Program) (g : Graph) (c : Cfg) : Findings Link :=
  let regions := regions c
  let defNodes := g.nodes.filter fun n => !n.defs.isEmpty
  let perDef := defNodes.flatMap fun n => n.defs.map fun v => (n, v)
  let found := perDef.map fun (n, v) => (defUse c regions n v, defOrder c n.id v)
  let perUse := g.nodes.flatMap fun n => n.uses.map fun v => (n, v)
  let all : Findings Link :=
    .overAll (fun r => r.1 ++ r.2) found ++ .overAll (fun (n, v) => anti c n.id v) perUse ++
      .ofList (output p c defNodes (found.flatMap (·.1.found)))
  all.select fun ls => distinctLinks [] (ls.filter fun l => g.hasNode l.src && g.hasNode l.dst)

def addLinks : List Link → Tracked Graph Unit
  | [] => return ()
  | l :: ls => do
    let id ← Tracked.freshId
    Tracked.attempt fun g => do
      let (g, _) ← g.addEdge ⟨id, l.src, l.dst, .dependence l.sort (some l.var) l.carrier⟩
      return (g, ())
    addLinks ls

/-- Add the data dependences of a flow graph; answers how many there are. -/
def construct (p : Program) (c : Cfg) : Tracked Graph Nat := do
  let found ← (links p (← Tracked.state) c).commit addLinks
  return found.length

end DataDependence

end ProgramDependence
