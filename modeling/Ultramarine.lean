import Ultramarine.Safety.CrashSafety
import Ultramarine.Agreement.ReceiveDecide
import Ultramarine.Agreement.MetadataSync
import Ultramarine.Agreement.Restream
import Ultramarine.Agreement.FullSync
import Ultramarine.Safety.SyncRejection
import Ultramarine.Safety.SlotCoherence
import Ultramarine.Safety.LatestBlock
import Ultramarine.Safety.Leftovers
import Ultramarine.Safety.Replay
import Ultramarine.Safety.SignatureBinding
import Ultramarine.Safety.SszRoots
import Ultramarine.Safety.ReceivedBlobs
import Ultramarine.Safety.HashProvenance
import Ultramarine.Safety.EngineCalls
import Ultramarine.Safety.PromotionCrash
import Ultramarine.Archiver.RetryOrder
import Ultramarine.Archiver.PrunedJobs
import Ultramarine.Safety.NoticeRace
import Ultramarine.Archiver.Duty
import Ultramarine.Safety.ValueLimits
import Ultramarine.Safety.Gauges
import Ultramarine.Safety.StaleRounds
import Ultramarine.Safety.LatestMetadata
import Ultramarine.Safety.StreamIds
import Ultramarine.Safety.ValidatorOrder
import Ultramarine.Safety.Pruning
import Ultramarine.Safety.SlotLifetime
