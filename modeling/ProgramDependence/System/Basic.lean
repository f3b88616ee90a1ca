import ProgramDependence.Dependence.Pdg
import ProgramDependence.System.Cache

/-!
# System dependence graphs

A system graph is the union of the dependence graphs of several units, joined by parameter edges
between calls and the units they call, and by summary edges from the arguments of a call to its
result.
-/

namespace ProgramDependence

/-- The dependence graph of a system.  `owner` gives the key of the unit each node belongs to, and
`failures` lists the units that could not be built. -/
structure SystemGraph extends Graph where
  name : String := ""
  entries : List Id := []
  pdgs : Table String Pdg := {}
  owner : Table Id String := {}
  failures : Table String Error := {}
  deriving Inhabited

namespace SystemGraph

def ofName (name : String) : SystemGraph :=
  { toGraph := Graph.empty .system, name }

def bindingOk (g : SystemGraph) : Bool :=
  g.pdgs.values.all (·.bindingOk)

def pdgOf? (g : SystemGraph) (node : Id) : Option Pdg :=
  (g.owner.find? node).bind g.pdgs.find?

def parameterEdges (g : SystemGraph) : List Edge :=
  g.edgesOfDependence [.parameterIn, .parameterOut]

def summaryEdges (g : SystemGraph) : List Edge :=
  g.edgesOfDependence [.summary]

/-- List a unit with its entry and its nodes. -/
def register (g : SystemGraph) (key : String) (d : Pdg) : SystemGraph :=
  { g with
    pdgs := g.pdgs.insert key d
    entries := g.entries ++ [d.entry.id]
    owner := d.nodeIds.foldl (fun t id => t.insert id key) g.owner }

/-- Take in a unit, unless its key is present. -/
def addPdg (p : Program) (d : Pdg) : Tracked SystemGraph Unit := do
  let key := d.key p
  if (← Tracked.state).pdgs.contains key then return ()
  Tracked.update fun g => g.register key d
  Tracked.attempt fun g => do
    return ({ g with toGraph := ← g.toGraph.merge d.toGraph }, ())

def addDependence (src dst : Id) (sort : DependenceSort) (v : Option Variable) :
    Tracked SystemGraph Unit := do
  let id ← Tracked.freshId
  Tracked.attempt fun g => do
    let (h, _) ← g.toGraph.addEdge ⟨id, src, dst, .dependence sort v none⟩
    return ({ g with toGraph := h }, ())

def isLinked (g : SystemGraph) (src dst : Id) (sort : DependenceSort) : Bool :=
  (g.edgesOutOf src).any fun e => e.dst = dst && e.isSort sort

/-- Add a dependence, unless one of its kind joins the nodes already. -/
def addOnce (src dst : Id) (sort : DependenceSort) (v : Option Variable) : Tracked SystemGraph Unit := do
  if !(← Tracked.state).isLinked src dst sort then addDependence src dst sort v

/-! ## Parameter edges -/

/-- An expanded call with the units on its two sides. -/
structure Link where
  call : Node
  caller : Pdg
  callee : Pdg
  deriving Inhabited

/-- The expanded call of a node, if its callee and its own unit are in the system. -/
def link? (p : Program) (g : SystemGraph) (call : Node) : Except Error (Option Link) :=
  match call.payload with
  | .call m _ _ true =>
    match g.pdgs.find? (p.methodName m), g.pdgOf? call.id with
    | some callee, some caller => .ok (some ⟨call, caller, callee⟩)
    | _, _ => .ok none
  | .call .. => .ok none
  | _ => .error .undefined

/-- The parameter that receives the argument at a position: the one at that position, or the last. -/
def receiver? (formals : List Node) (position : Nat) : Option Node :=
  formals[min position (formals.length - 1)]?

/-- Join arguments to the parameters that receive them. -/
def connectArguments (formals : List Node) : Nat → List Node → Tracked SystemGraph Unit
  | _, [] => return ()
  | position, ain :: rest => do
    match receiver? formals position with
    | some fin => addOnce ain.id fin.id .parameterIn fin.uses.head?
    | none => pure ()
    connectArguments formals (position + 1) rest

def lift {σ α : Type} (x : Except Error α) : Tracked σ α :=
  match x with
  | .ok a => return a
  | .error e => throw e

/-- Join the value a callee returns to the result of the call. -/
def connectResult : List Node → Option Node → Tracked SystemGraph Unit
  | fout :: _, some aout => addOnce fout.id aout.id .parameterOut fout.defs.head?
  | _, _ => return ()

/-- Join the arguments of a call to the parameters of its callee, and the value the callee returns
to the result of the call. -/
def connectCall (l : Link) : Tracked SystemGraph Unit := do
  let ins ← lift l.callee.formalIns
  if !ins.isEmpty then connectArguments ins 0 (← lift (l.caller.actualIns l.call))
  connectResult (← lift l.callee.formalOuts) (← lift (l.caller.returnActualOut l.call))

/-- Join the calls of the system to the units they call. -/
def connectCalls (p : Program) : List Node → Tracked SystemGraph Unit
  | [] => return ()
  | call :: rest => do
    match ← lift ((← Tracked.state).link? p call) with
    | some l => connectCall l
    | none => pure ()
    connectCalls p rest

/-! ## Summary edges -/

/-- Dependences inside a unit along which values flow. -/
def isIntra (e : Edge) : Bool :=
  e.dependenceSort?.any fun s => s.isDefUse || s = .summary

/-- The nodes of a unit from which values reach a node inside the unit. -/
def reaching (g : SystemGraph) (inside : List Id) (target : Id) : List Id :=
  Search.reach (fun n => (g.neighbours false isIntra n).filter inside.contains) g.edges.length [target]

/-- Add the summary edges of a call, from the arguments whose parameter is among `sources`; answers
how many are new. -/
def summarizeArguments (formals : List Node) (sources : List Id) (result : Id) :
    Nat → List Node → Tracked SystemGraph Nat
  | _, [] => return 0
  | position, ain :: rest => do
    let flows := (receiver? formals position).any fun fin => sources.contains fin.id
    if flows && !(← Tracked.state).isLinked ain.id result .summary then
      addDependence ain.id result .summary ain.defs.head?
      return 1 + (← summarizeArguments formals sources result (position + 1) rest)
    else summarizeArguments formals sources result (position + 1) rest

/-- Add the summary edges of a call; answers how many are new. -/
def summarizeCall (l : Link) : Tracked SystemGraph Nat := do
  let aout ← lift (l.caller.returnActualOut l.call)
  let outs ← lift l.callee.formalOuts
  let ins ← lift l.callee.formalIns
  match aout, outs, ins with
  | some aout, fout :: _, _ :: _ =>
    let sources := (← Tracked.state).reaching l.callee.nodeIds fout.id
    summarizeArguments ins sources aout.id 0 (← lift (l.caller.actualIns l.call))
  | _, _, _ => return 0

/-- Add the summary edges of some calls once; answers how many are new. -/
def summarizeCalls (p : Program) : List Node → Tracked SystemGraph Nat
  | [] => return 0
  | call :: rest => do
    let added ← match ← lift ((← Tracked.state).link? p call) with
      | some l => summarizeCall l
      | none => pure 0
    return added + (← summarizeCalls p rest)

/-- Go over the calls until no summary edge is new; answers how many were added. -/
def summarizeRounds (p : Program) : Nat → Tracked SystemGraph Nat
  | 0 => return 0
  | fuel + 1 => do
    let added ← summarizeCalls p (← Tracked.state).callNodes
    if added = 0 then return 0
    return added + (← summarizeRounds p fuel)

/-- Number of arguments of all calls, which bounds the number of different summary edges. -/
def argumentCount (g : SystemGraph) : Nat :=
  (g.callNodes.flatMap fun n => match n.payload with
    | .call _ ins _ _ => ins
    | _ => []).length

/-- Add the summary edges of the system; answers how many times one was added.  An edge whose fresh
id another edge has already is not stored and is added again in the next round, so the rounds are
bounded by the different summary edges together with the edges whose ids may be in the way. -/
def addSummaries (p : Program) : Tracked SystemGraph Nat := do
  let g ← Tracked.state
  summarizeRounds p (g.argumentCount + g.edges.length + 1)

/-! ## Text -/

def dump (p : Program) (g : SystemGraph) : String :=
  let edgeLine (e : Edge) : String :=
    Cfg.arrow e ++ " " ++ ((e.var?.map (·.name)).getD "None")
  Text.join "\n" <|
    ["----- SDG (" ++ g.name ++ ") -----"] ++ g.pdgs.values.map (Pdg.dump p) ++
    (g.parameterEdges ++ g.summaryEdges).map edgeLine

end SystemGraph

end ProgramDependence
