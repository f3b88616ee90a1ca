import ProgramDependence.Dependence.ClassGraph
import ProgramDependence.Slicing.Report
import ProgramDependence.System.Basic

/-!
# Graphs of every kind

An `Item` is a graph of any kind.  Graphs share parts: a dependence graph holds nodes of its flow
graph and the flow graph itself, a system holds the dependence graphs of its units, and so on.  A
part that is shared has one identity: a node its id and serial, a graph its kind, serial and entry.
An `Update` changes parts wherever they occur, so a change made through one graph is seen through
all the others.
-/

namespace ProgramDependence

inductive Item where
  | plain (g : Graph)
  | flow (c : Cfg)
  | dependence (d : Pdg)
  | classGraph (g : ClassGraph)
  | system (g : SystemGraph)
  | slice (s : Slice)
  deriving Inhabited

structure GraphIdentity where
  kind : GraphKind
  serial : Nat
  entry : Option Id
  deriving DecidableEq, Repr, Inhabited

def Cfg.identity (c : Cfg) : GraphIdentity :=
  ⟨c.kind, c.serial, some c.entry.id⟩

def Pdg.identity (d : Pdg) : GraphIdentity :=
  ⟨d.kind, d.serial, some d.entry.id⟩

/-- A change of parts that may be shared: of nodes, flow graphs, dependence graphs and whole items. -/
structure Update where
  node : Node → Node := id
  graph : Graph → Graph := id
  cfg : Cfg → Cfg := id
  pdg : Pdg → Pdg := id
  item : Item → Item := id

namespace Update

def onGraph (u : Update) (g : Graph) : Graph :=
  u.graph { g with nodes := g.nodes.map u.node }

def onCfg (u : Update) (c : Cfg) : Cfg :=
  u.cfg { c with toGraph := u.onGraph c.toGraph, entry := u.node c.entry, exit := u.node c.exit }

def onPdg (u : Update) (d : Pdg) : Pdg :=
  u.pdg { d with
    toGraph := u.onGraph d.toGraph
    entry := u.node d.entry
    cfg := d.cfg.map u.onCfg }

def onSlice (u : Update) (s : Slice) : Slice :=
  { s with
    toGraph := u.onGraph s.toGraph
    criterion := { s.criterion with node := u.node s.criterion.node } }

def onItem (u : Update) (i : Item) : Item :=
  u.item <| match i with
    | .plain g => .plain (u.onGraph g)
    | .flow c => .flow (u.onCfg c)
    | .dependence d => .dependence (u.onPdg d)
    | .classGraph g =>
      .classGraph { g with
        toGraph := u.onGraph g.toGraph
        entry := u.node g.entry
        pdgs := g.pdgs.map u.onPdg }
    | .system g =>
      .system { g with toGraph := u.onGraph g.toGraph, pdgs := g.pdgs.map u.onPdg }
    | .slice s => .slice (u.onSlice s)

/-- Give parts without a serial the one of the step that made them. -/
def stamp (serial : Nat) : Update :=
  { node := fun n => if n.serial = 0 then { n with serial } else n
    graph := fun g => if g.serial = 0 then { g with serial } else g }

end Update

namespace Item

def graph : Item → Graph
  | plain g => g
  | flow c => c.toGraph
  | dependence d => d.toGraph
  | classGraph g => g.toGraph
  | system g => g.toGraph
  | slice s => s.toGraph

def withGraph (i : Item) (g : Graph) : Item :=
  match i with
  | plain _ => plain g
  | flow c => flow { c with toGraph := g }
  | dependence d => dependence { d with toGraph := g }
  | classGraph c => classGraph { c with toGraph := g }
  | system s => system { s with toGraph := g }
  | slice s => slice { s with toGraph := g }

def identity : Item → GraphIdentity
  | flow c => c.identity
  | dependence d => d.identity
  | i => ⟨i.graph.kind, i.graph.serial, none⟩

def replacing (new : Item) : Update :=
  match new with
  | flow c => { cfg := fun old => if old.identity = c.identity then c else old }
  | dependence d => { pdg := fun old => if old.identity = d.identity then d else old }
  | i => { item := fun old => if old.identity = i.identity then i else old }

/-- A text, provided that a condition holds. -/
def dumpIf (ok : Bool) (text : String) : Except Error String :=
  if ok then .ok text else .error .undefined

/-- The dump of an item.  A plain graph has none, a flow graph has one if its edges are control-flow
edges, and a dependence graph if they are dependences. -/
def dump (p : Program) : Item → Except Error String
  | plain _ => .error .undefined
  | flow c => dumpIf c.isPureFlow (c.dump p)
  | dependence d => dumpIf d.isPure (d.dump p)
  | classGraph g => dumpIf (g.pdgs.all (·.isPure)) (g.dump p)
  | system g => dumpIf (g.pdgs.values.all (·.isPure)) (g.dump p)
  | slice s => .ok (s.dump p)

end Item

end ProgramDependence
