import Elrond.Lib.Text
import Elrond.Lib.HashMap
import Elrond.Lib.Html
import Elrond.Lib.Run
import Elrond.Http.Address
import Elrond.Http.Message
import Elrond.Request.Context
import Elrond.Request.Template
import Elrond.Lib.Interpolation
import Elrond.Request.Substitution
import Elrond.Cache.Invariant
import Elrond.Cache.Key
import Elrond.Cache.Vary
import Elrond.Config.Ast
import Elrond.Upstream.Balancer
import Elrond.Upstream.Target
import Elrond.Proxy.Forward
import Elrond.Config.Values
import Elrond.Proxy.Framing
import Elrond.Config.Build
import Elrond.App.Runtime
import Elrond.App.Build
import Elrond.App.Listeners
import Elrond.App.ListenFidelity
import Elrond.Lib.Reconcile
import Elrond.Process.Supervisor
import Elrond.Process.ReloadHttp
import Elrond.Process.Convergence
import Elrond.Process.Streams
import Elrond.Process.Startup
import Elrond.Cache.Lookup
import Elrond.Cache.Gauges
import Elrond.Limit.Conn
import Elrond.Limit.IdleKeys
import Elrond.Limit.Delivery
import Elrond.Limit.Req
import Elrond.Limit.Backlog
import Elrond.Limit.Rate
import Elrond.Upstream.Health
import Elrond.Upstream.Interleaving
import Elrond.Lib.Shares
import Elrond.Upstream.RoundRobin
import Elrond.Proxy.Retry
import Elrond.Stream.Relay
import Elrond.Upstream.Blame
import Elrond.Config.Lexer
import Elrond.Config.Lines
import Elrond.Config.Parser
import Elrond.Config.Include
import Elrond.App.Grouping
import Elrond.App.Validity
import Elrond.Lib.Rearrange
import Elrond.Config.Declarative
import Elrond.Config.Numbers
import Elrond.App.VirtualHosts
import Elrond.App.Sni
import Elrond.Static.Format
import Elrond.Static.Dates
import Elrond.Lib.Asks
import Elrond.Static.Serve
import Elrond.Static.Containment
import Elrond.Lib.Uri
import Elrond.Static.Links
import Elrond.Static.Listing
import Elrond.Server.Gates
import Elrond.Server.Access
import Elrond.Server.Respelling
import Elrond.Server.Handle
import Elrond.Server.Agreement
import Elrond.Server.Shadows
import Elrond.Server.BrokenBodies
import Elrond.Server.Accounting
import Elrond.Lib.Foremost
import Elrond.Server.Routing
import Elrond.Http.Fields
import Elrond.Cache.Cacheability
import Elrond.Proxy.ForwardedFor
import Elrond.Proxy.HopByHop
import Elrond.Cache.Eviction
import Elrond.Proxy.UpstreamUri
import Elrond.Proxy.Labels
import Elrond.Config.Quantities
import Elrond.Server.Cidr
import Elrond.Static.Ranges
import Elrond.Upstream.Stickiness
import Elrond.Upstream.TargetAgreement
import Elrond.Upstream.Sharing
import Elrond.Server.Compression
import Elrond.Server.StaticResponses
import Elrond.Server.HeadAgreement
import Elrond.Server.MapVariables
import Elrond.Server.MapOutputs
import Elrond.Lib.Escape
import Elrond.Request.Utf8
import Elrond.Request.PercentCoding
import Elrond.Lib.Publish
import Elrond.Process.Snapshots
import Elrond.Process.Drain
import Elrond.Lib.Appenders
import Elrond.Process.Logs
import Elrond.Process.Endpoints
import Elrond.Lib.Polling
import Elrond.Upstream.Probes
import Elrond.Server.Operations
import Elrond.Server.Domain
import Elrond.Server.Cascade
import Elrond.Lib.Base64
import Elrond.Lib.Quoted
import Elrond.Server.BasicAuth
import Elrond.Lib.Exposition
import Elrond.Server.Metrics
import Elrond.Lib.Revalidation
import Elrond.Static.Revalidation
import Elrond.Lib.LeastLoaded
import Elrond.Upstream.Load
