import Transportation.Main
import Transportation.Network.Display
import Transportation.Network.Families
import Transportation.Network.Json
import Transportation.Tree.Spanning
import Transportation.Proofs.Instance.Writing
import Transportation.Proofs.Simplex.Artificial
import Transportation.Proofs.Simplex.ArtificialCost
import Transportation.Proofs.Simplex.Dual
import Transportation.Proofs.Simplex.Failures
import Transportation.Proofs.Simplex.Resolve
import Transportation.Proofs.Simplex.Scaled
import Transportation.Proofs.Simplex.Standing
import Transportation.Proofs.Simplex.Total
import Transportation.Proofs.Simplex.TreeFlow
import Transportation.Proofs.Simplex.Unbounded
import Transportation.Proofs.Network.Calls
import Transportation.Proofs.Simplex.Capacity
import Transportation.Proofs.Instance.Name
import Transportation.Proofs.Solution.Writing
import Transportation.Proofs.Simplex.Accounting
import Transportation.Proofs.Simplex.Rollback
import Transportation.Proofs.Simplex.Rules
import Transportation.Proofs.Tree.SoleCycle
import Transportation.Proofs.Simplex.Leaving
import Transportation.Proofs.Simplex.Bipartite
import Transportation.Proofs.Simplex.Chain
