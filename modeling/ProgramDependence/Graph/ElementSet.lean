import ProgramDependence.Graph.Basic

/-!
# Sets of graph elements

A set of elements keeps the order of insertion and counts an element by its id alone.
-/

namespace ProgramDependence

structure ElementSet where
  ids : List Id := []
  deriving DecidableEq, Repr, Inhabited

/-- Something that can be compared with the members of a set: a node or an edge, of which only the
id counts, or a bare number, which is no element. -/
inductive Member where
  | element (id : Id)
  | number (n : Int)
  deriving DecidableEq, Repr, Inhabited

namespace ElementSet

def contains (s : ElementSet) (id : Id) : Bool :=
  s.ids.contains id

/-- Add an element at the end, unless it is there. -/
def add (s : ElementSet) (id : Id) : ElementSet :=
  if s.contains id then s else ⟨s.ids ++ [id]⟩

def remove (s : ElementSet) (id : Id) : ElementSet :=
  ⟨s.ids.filter (· ≠ id)⟩

def ofList (ids : List Id) : ElementSet :=
  ids.foldl add {}

def union (s t : ElementSet) : ElementSet :=
  t.ids.foldl add s

def intersection (s t : ElementSet) : ElementSet :=
  ⟨s.ids.filter t.contains⟩

def difference (s t : ElementSet) : ElementSet :=
  ⟨s.ids.filter fun id => !t.contains id⟩

def isSubset (s t : ElementSet) : Bool :=
  s.ids.all t.contains

def isStrictSubset (s t : ElementSet) : Bool :=
  s.ids.length < t.ids.length && s.isSubset t

def sameElements (s t : ElementSet) : Bool :=
  s.isSubset t && t.isSubset s

def describe (s : ElementSet) : String :=
  "ElementSet(" ++ Text.bracketed s.ids ++ ")"

end ElementSet

end ProgramDependence
