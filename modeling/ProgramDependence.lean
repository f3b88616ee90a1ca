import ProgramDependence.Proofs.Faithful
import ProgramDependence.Workspace.Build
import ProgramDependence.Workspace.Query
import ProgramDependence.Workspace.Slicing
import ProgramDependence.Proofs.ParameterEdges
import ProgramDependence.Proofs.Workshop
import ProgramDependence.Proofs.Transparency
import ProgramDependence.Proofs.BlockCache
import ProgramDependence.Proofs.Rooted
import ProgramDependence.Proofs.NamedSlices
import ProgramDependence.Proofs.Reachability
import ProgramDependence.Proofs.Precedence
import ProgramDependence.Proofs.Reversal
import ProgramDependence.Proofs.PostDominatorTree
import ProgramDependence.Proofs.Regions
import ProgramDependence.Proofs.Charging
import ProgramDependence.Proofs.Payloads
