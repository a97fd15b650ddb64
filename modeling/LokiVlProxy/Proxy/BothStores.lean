/-
  Proxy/BothStores.lean --- which rows a log query over hot and cold storage returns.

  Source: proxyLogQueryBoth in internal/proxy/cold_dispatch.go; rowDedup in
  internal/proxy/loki_record.go.

  Both stores take closed ranges, and rows come back whole: no limit is reached.
-/
import LokiVlProxy.Proxy.ColdNewest

namespace LokiVlProxy.Proxy

open Foundation List

variable (backward : Bool) (range : NanoRange) (boundaryNs : Int)

variable {α : Type} [DecidableEq α] (ts : α → Int) (dedupe : Bool) (rows : List α)

variable {backward range boundaryNs}

variable (backward range boundaryNs)

end LokiVlProxy.Proxy
