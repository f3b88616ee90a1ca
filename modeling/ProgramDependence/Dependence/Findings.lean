import ProgramDependence.Trail

/-!
# Findings

An analysis goes over a graph and finds dependences one after the other.  It breaks off where it
meets an edge or a node that it cannot read; what was found before counts all the same.  `Findings`
keeps both the list and the reason for breaking off.
-/

namespace ProgramDependence

/-- What an analysis has found in order, and why it broke off if it did. -/
structure Findings (α : Type) where
  found : List α := []
  fault : Option Error := none
  deriving Inhabited

namespace Findings

variable {α β : Type}

def ofList (found : List α) : Findings α :=
  { found }

def breakOff (fault : Error) : Findings α :=
  { fault := some fault }

def require (ok : Bool) : Findings α :=
  if ok then {} else breakOff .undefined

/-- Go on after some findings, unless they broke off. -/
def andThen (a b : Findings α) : Findings α :=
  match a.fault with
  | some _ => a
  | none => { found := a.found ++ b.found, fault := b.fault }

instance : Append (Findings α) := ⟨andThen⟩

/-- The findings at each element of a list, up to the first that breaks off. -/
def overAll (f : β → Findings α) : List β → Findings α
  | [] => {}
  | x :: xs => f x ++ overAll f xs

/-- What is left of the findings after some are dropped. -/
def select (f : List α → List α) (a : Findings α) : Findings α :=
  { a with found := f a.found }

/-- Take in what was found, and then fail if the analysis broke off; answers what was found. -/
def commit {σ : Type} (f : Findings α) (take : List α → Tracked σ Unit) : Tracked σ (List α) := do
  take f.found
  match f.fault with
  | some e => throw e
  | none => return f.found

end Findings

end ProgramDependence
