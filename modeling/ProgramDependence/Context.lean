import ProgramDependence.Settings.Basic
import ProgramDependence.Trail

/-!
# The context of a construction
-/

namespace ProgramDependence

/-- What every construction reads: the program, the settings, and which numbering its ids come from. -/
structure Context where
  program : Program
  settings : Settings := {}
  numbering : Nat := 0
  deriving Inhabited

end ProgramDependence
