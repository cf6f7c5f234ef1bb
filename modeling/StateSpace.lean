import StateSpace.Cache
import StateSpace.Explore.Naming
import StateSpace.Json.Writer
import StateSpace.Main
import StateSpace.Pool
import StateSpace.Table.Json
import StateSpace.Proofs.Dependency.Interpretation
import StateSpace.Proofs.Explore.Closure
import StateSpace.Proofs.Table.Clearing
import StateSpace.Proofs.Explore.Sessions
import StateSpace.Proofs.Table.LoadBound
import StateSpace.Proofs.Pool.Noninterference
import StateSpace.Proofs.Cache.Transparency
import StateSpace.Proofs.Cache.Reentry
import StateSpace.Proofs.Table.Resizing
import StateSpace.Proofs.Table.Termination
import StateSpace.Proofs.Table.Tombstones
import StateSpace.Proofs.Table.Repetition
import StateSpace.Proofs.Explore.Alignment
import StateSpace.Proofs.Table.Relocation
import StateSpace.Proofs.Table.Probing
import StateSpace.Proofs.Pool.Checkouts
import StateSpace.Proofs.Pool.Shutdown
import StateSpace.Proofs.Dependency.Monotonicity
import StateSpace.Proofs.Dependency.Pairs
import StateSpace.Proofs.Dependency.Violations
import StateSpace.Proofs.Dependency.Filling
import StateSpace.Proofs.Dependency.Totality
import StateSpace.Proofs.Dependency.Reports
import StateSpace.Proofs.Dependency.Listing
import StateSpace.Proofs.Hash
import StateSpace.Proofs.SelfTest
