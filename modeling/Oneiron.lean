import Oneiron.Overlay.Twin
import Oneiron.Overlay.Budget
import Oneiron.Overlay.LifecycleSafety
import Oneiron.Base.WorkLineTurns
import Oneiron.Base.LiveLineSafety
import Oneiron.Llm.BudgetFloors
import Oneiron.Llm.BudgetCheckpoint
import Oneiron.Authority.StructureDisorder
import Oneiron.Authority.SlipConfinement
import Oneiron.Authority.ActorBindingSafety
import Oneiron.Authority.PactFold
import Oneiron.Deletion.TopologyDeleteSafety
import Oneiron.Crypto.RecordVerify
import Oneiron.Sync.SyncQueueSafety
import Oneiron.Sync.RetainedWorkSafety
import Oneiron.Store.TextIndexSafety
import Oneiron.Store.LeaseJournalSafety
import Oneiron.Authority.HolderProofRuns
import Oneiron.Checkout.LeaseLifecycles
import Oneiron.KeyCustody.JournalSafety
import Oneiron.KeyCustody.AckJournalSafety
import Oneiron.KeyCustody.RetirementSafety
import Oneiron.KeyCustody.BodyHistorySafety
import Oneiron.Outbound.DedupeSafety
import Oneiron.Outbound.SettlementSafety
import Oneiron.Serialize.ToonSafety
import Oneiron.Base.WorkLineCrossings
import Oneiron.Sync.WindowKey
import Oneiron.Base.MsgpackShapeSafety
import Oneiron.KeyCustody.StatusCodec
import Oneiron.Overlay.MergeReference
import Oneiron.Overlay.ShortIdSafety
import Oneiron.AttemptQueue.ClaimDoors
import Oneiron.AttemptQueue.RetryChainSafety
import Oneiron.Authority.EntryTransition
import Oneiron.Authority.OwnerChoiceRuns
import Oneiron.Authority.RepoGlobs
import Oneiron.Authority.ScopeMeet
import Oneiron.Authority.WorldReading
import Oneiron.Crypto.EnvelopeWireForm
import Oneiron.MergeQueue.Pointers
import Oneiron.Store.RollingPrefilterSafety
import Oneiron.Store.RecoveryCode
import Oneiron.Sync.ChunkDownloadSafety
import Oneiron.Sync.CutoffPlane
import Oneiron.Llm.BudgetDispatch
import Oneiron.Sync.TurnsFairness
import Oneiron.EditDistance.MyersScript
import Oneiron.MergeQueue.CompositionOrder
