import MicroFlow.Flow.Owned
import MicroFlow.Graph.Edit
import MicroFlow.Main
import MicroFlow.Proofs.Cache.History
import MicroFlow.Proofs.Cache.Reload
import MicroFlow.Proofs.Cache.Sessions
import MicroFlow.Proofs.Dependence.Data
import MicroFlow.Proofs.Expr.Grammar
import MicroFlow.Proofs.Files.Scan
import MicroFlow.Proofs.Flow.Arrival
import MicroFlow.Proofs.Flow.Contradiction
import MicroFlow.Proofs.Flow.DeadVariables
import MicroFlow.Proofs.Flow.SignSoundness
import MicroFlow.Proofs.Lowering.Diagnostics
import MicroFlow.Proofs.Lowering.ReadBack
import MicroFlow.Proofs.Lowering.Stats
import MicroFlow.Proofs.Run.Batch
import MicroFlow.Proofs.Run.Validated
import MicroFlow.Proofs.Run.Wording
import MicroFlow.Proofs.Sign.Exactness
