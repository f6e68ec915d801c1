import Velcrux.Session.Proofs.ResumeProofs
import Velcrux.Session.Proofs.CommittedProofs
import Velcrux.Session.Proofs.RecoveryProofs
import Velcrux.Protocol.Proofs.EncryptedProofs
import Velcrux.Transfer.Proofs.DownloadProofs
import Velcrux.Transfer.Proofs.LimiterProofs
import Velcrux.Transfer.Proofs.SchedulerProofs
import Velcrux.Chunking.Proofs.BoundariesProofs
import Velcrux.Wire.Proofs.FrameProofs
import Velcrux.Session.Proofs.ConnectionProofs
import Velcrux.Session.Proofs.FootprintProofs
import Velcrux.Session.Proofs.DenialProofs
import Velcrux.Sync.Proofs.LockSavingProofs
import Velcrux.Sync.Proofs.TransactionProofs
import Velcrux.Sync.Proofs.ManifestReceiveProofs
import Velcrux.Sync.Proofs.ManifestDiffProofs
import Velcrux.Sync.Proofs.CommitJournalProofs
import Velcrux.Session.Proofs.TenancyProofs
import Velcrux.Consensus.Proofs.ReplicaProofs
import Velcrux.Consensus.Proofs.LeaseProofs
import Velcrux.Consensus.Proofs.LogProofs
import Velcrux.TxSnapshot.Proofs.VotingProofs
import Velcrux.TxSnapshot.Proofs.ClockProofs
import Velcrux.Storage.Proofs.QuorumProofs
import Velcrux.Storage.Proofs.OwnershipProofs
import Velcrux.Server.Proofs.LimitsProofs
import Velcrux.State.Proofs.CreationProofs
import Velcrux.Storage.Proofs.CasGcProofs
import Velcrux.Chunking.Proofs.PipelineProofs
import Velcrux.Sync.Proofs.GuardrailsProofs
import Velcrux.Sync.Proofs.BatchProofs
import Velcrux.Storage.Proofs.LinkTargetProofs
import Velcrux.Storage.Proofs.RebalanceProofs
import Velcrux.Storage.Proofs.XattrProofs
import Velcrux.Session.Hint
import Velcrux.TxSnapshot.Proofs.RootProofs
import Velcrux.Audit.Proofs.MerkleTreeProofs
import Velcrux.Sync.Proofs.WatcherProofs
