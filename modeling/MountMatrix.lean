import MountMatrix.Main
import MountMatrix.Proofs.OnePass
import MountMatrix.Proofs.Turns
import MountMatrix.Proofs.TokenSurvival
import MountMatrix.Proofs.Recovery
import MountMatrix.Proofs.Interleaving
import MountMatrix.Proofs.CloudSimulation
import MountMatrix.Proofs.FirstFailure
import MountMatrix.Proofs.NewestImage
import MountMatrix.Proofs.PathReach
import MountMatrix.Proofs.GenerationRun
import MountMatrix.Proofs.GenerationFailure
import MountMatrix.Proofs.CleanUpRun
import MountMatrix.Proofs.ValidationRun
import MountMatrix.Proofs.DefaultRun
import MountMatrix.Proofs.StoreHistory
import MountMatrix.Proofs.AddressGrammar
import MountMatrix.Proofs.ReportedAddress
import MountMatrix.Proofs.CommandEffects
import MountMatrix.Proofs.UndisturbedRun
import MountMatrix.Proofs.CommutingRuns
import MountMatrix.Proofs.CleanUpStop
import MountMatrix.Proofs.AbsentToken
import MountMatrix.Proofs.ArgumentSpelling
import MountMatrix.Proofs.LineByLine
