import ProgramDependence.Graph.Node

/-!
# Slicing criteria

A criterion is a node and a variable, which is given as a variable or by its name alone.
-/

namespace ProgramDependence

inductive Subject where
  | named (name : String)
  | exactly (v : Variable)
  deriving DecidableEq, Repr, Inhabited

namespace Subject

def name : Subject → String
  | named n => n
  | exactly v => v.name

/-- Whether a variable is the one that is meant: it has the name, or it is the same variable. -/
def isMet : Subject → Variable → Bool
  | named n, w => w.name = n
  | exactly v, w => w.same v

/-- What two subjects have in common that mean the same. -/
def key : Subject → String ⊕ VariableIdentity
  | named n => .inl n
  | exactly v => .inr v.identity

end Subject

structure Criterion where
  node : Node
  subject : Subject
  deriving Inhabited

namespace Criterion

def accepts (c : Criterion) (v : Option Variable) : Bool :=
  v.any c.subject.isMet

def isDefined (c : Criterion) : Bool :=
  c.node.defs.any c.subject.isMet

def isUsed (c : Criterion) : Bool :=
  c.node.uses.any c.subject.isMet

/-- What criteria have in common that give the same slice of a graph. -/
def key (c : Criterion) : Id × (String ⊕ VariableIdentity) :=
  (c.node.id, c.subject.key)

end Criterion

end ProgramDependence
