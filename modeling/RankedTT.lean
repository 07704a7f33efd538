import RankedTT.Normal.Logged
import RankedTT.Proofs.Agreement
import RankedTT.Proofs.BoundNames
import RankedTT.Proofs.EqualPrograms
import RankedTT.Proofs.FixedPoints
import RankedTT.Proofs.FreeVariables
import RankedTT.Proofs.FreshNames
import RankedTT.Proofs.ImportCycles
import RankedTT.Proofs.ImportedTypes
import RankedTT.Proofs.Invalidation
import RankedTT.Proofs.LayeredSources
import RankedTT.Proofs.LoadedOnce
import RankedTT.Proofs.NormalTypes
import RankedTT.Proofs.OperatorAliases
import RankedTT.Proofs.Ranks
import RankedTT.Proofs.Reachability
import RankedTT.Proofs.Rechecking
import RankedTT.Proofs.ReadBack
import RankedTT.Proofs.RecordMembers
import RankedTT.Proofs.Renaming
import RankedTT.Proofs.RootCauses
import RankedTT.Proofs.Shadowing
import RankedTT.Proofs.SmallSteps
import RankedTT.Proofs.UpToDate
import RankedTT.Proofs.WellAnnotated
import RankedTT.Session.Basic
import RankedTT.Proofs.RootCauses
