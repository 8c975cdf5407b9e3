import Pruner.AutoScheduler.AttachPoint
import Pruner.AutoScheduler.EvolutionarySearch
import Pruner.AutoScheduler.SketchPolicy
import Pruner.AutoScheduler.FeatureBytes
import Pruner.AutoScheduler.TaskGradient
import Pruner.AutoScheduler.FeaturePSA
import Pruner.AutoScheduler.FeaturePAM
import Pruner.Te.LoopVisits
import Pruner.Arith.IterMapInjective
import Pruner.Arith.CanonicalSound
import Pruner.AutoScheduler.DatasetLatency
import Pruner.AutoScheduler.DatasetCacheRun
import Pruner.AutoScheduler.HistoryBest
import Pruner.Relay.FusePartition
import Pruner.Relay.PlanSafe
import Pruner.Runtime.MapRoom
import Pruner.Support.RingBufferFifo
import Pruner.Runtime.CrtMemorySafe
import Pruner.Runtime.Session
import Pruner.Support.Base64RoundTrip
import Pruner.AutoScheduler.StageWalk
import Pruner.AutoScheduler.FollowSplit
import Pruner.AutoScheduler.NestedParallel
import Pruner.AutoScheduler.DisFactor
import Pruner.AutoScheduler.PamDataset
import Pruner.AutoScheduler.ReadLines
import Pruner.AutoScheduler.Layout
import Pruner.Arith.IntOperator
import Pruner.Arith.CanonicalInt64
