import LokiVlProxy.Cache.DiskRuns
import LokiVlProxy.Cache.Fleet
import LokiVlProxy.Cache.Lifetime
import LokiVlProxy.Cache.ReadAhead
import LokiVlProxy.Cache.RingAgreement
import LokiVlProxy.Cache.Superseded
import LokiVlProxy.Logql.LabelFilter
import LokiVlProxy.Middleware.BreakerHistory
import LokiVlProxy.Middleware.Coalescer
import LokiVlProxy.Middleware.RateLimiter
import LokiVlProxy.Proxy.BothStores
import LokiVlProxy.Proxy.BurstBase
import LokiVlProxy.Proxy.ConstantRange
import LokiVlProxy.Proxy.DrilldownExpansion
import LokiVlProxy.Proxy.IndexPersistence
import LokiVlProxy.Proxy.LabelValuesBrowse
import LokiVlProxy.Proxy.MatchedJoin
import LokiVlProxy.Proxy.MetadataAnswer
import LokiVlProxy.Proxy.PartialAnswer
import LokiVlProxy.Proxy.PatternSnapshots
import LokiVlProxy.Proxy.PatternWindows
import LokiVlProxy.Proxy.RankedIndex
import LokiVlProxy.Proxy.ScanBudget
import LokiVlProxy.Proxy.SlidingBuckets
import LokiVlProxy.Proxy.StreamDescriptor
import LokiVlProxy.Proxy.SyntheticTail
import LokiVlProxy.Proxy.TemplatePages
import LokiVlProxy.Proxy.TenantMerge
import LokiVlProxy.Proxy.TenantScope
import LokiVlProxy.Proxy.TenantSelection
import LokiVlProxy.Proxy.TopValues
import LokiVlProxy.Proxy.WindowBody
import LokiVlProxy.Proxy.WindowCache
import LokiVlProxy.Proxy.WithoutAnswer
import LokiVlProxy.Translator.Wrappers
