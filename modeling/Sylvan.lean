import Sylvan.Import.Lines
import Sylvan.Engine.CardRestriction
import Sylvan.Import.RecodeRun
import Sylvan.Engine.ShardRendezvous
import Sylvan.Engine.SiblingLimit
import Sylvan.Engine.SiblingHedgeRun
import Sylvan.Engine.EngineMovesRun
import Sylvan.Engine.PlacementNights
import Sylvan.Engine.CollectionBatchExact
import Sylvan.Engine.FanOut
import Sylvan.Import.WatchdogOverlap
import Sylvan.Engine.StoreCacheRun
import Sylvan.Parser.BalanceSound
import Sylvan.Import.PublishersRun
import Sylvan.Engine.ContainedMerge
import Sylvan.Import.BucketExact
import Sylvan.Import.ChangedOnlyRun
import Sylvan.Engine.PublishSwapRun
import Sylvan.Engine.GatherPasses
import Sylvan.Engine.GatherWidth
import Sylvan.Import.IsListAnswers
import Sylvan.Import.IsListNightRun
import Sylvan.Parser.RegexRepeats
import Sylvan.Compat.RegexAnswers
import Sylvan.Import.PurgeRun
import Sylvan.Engine.PrintedNamesCarriers
import Sylvan.Parser.TextValues
import Sylvan.Parser.RegexCharge
import Sylvan.Import.SizingExact
import Sylvan.Engine.RoutingOrder
import Sylvan.Engine.RoutingBatch
import Sylvan.Engine.KeyPacketCodec
import Sylvan.Import.DraftSpill
import Sylvan.Import.TagAncestryExact
import Sylvan.Import.NewArtStanding
import Sylvan.Import.DraftBuckets
import Sylvan.Engine.NamesBlobTotal
import Sylvan.Engine.OracleIndexExact
import Sylvan.Engine.ReferenceSets
import Sylvan.Import.ListFingerprint
import Sylvan.Engine.EngineNames
import Sylvan.Engine.AutocompleteMerge
import Sylvan.Import.WatchdogSuspicion
import Sylvan.Compat.RateLimit
import Sylvan.Engine.SiblingSplit
import Sylvan.Engine.RawElements
import Sylvan.Import.NightlyRows
import Sylvan.Import.SpillReplay
import Sylvan.Parser.RewriteMeaning
