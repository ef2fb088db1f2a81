import Aprsc.Dupecheck.Exact
import Aprsc.Pipeline.Delivery
import Aprsc.Pipeline.Purge
import Aprsc.ParseAprs.Bounds
import Aprsc.Incoming.Closure
import Aprsc.Incoming.Igate
import Aprsc.Incoming.Protocol
import Aprsc.Incoming.Lengths
import Aprsc.Worker.Obuf
import Aprsc.Worker.Talk
import Aprsc.Worker.Login
import Aprsc.Outgoing.Transit
import Aprsc.Server.Unverified
import Aprsc.Server.Balance
import Aprsc.Server.Logins
import Aprsc.Server.Rules
import Aprsc.Filter.Merge
import Aprsc.Liveupgrade.Buffers
import Aprsc.Liveupgrade.HeardDump
import Aprsc.Liveupgrade.Decisions
import Aprsc.Liveupgrade.Parts
import Aprsc.Server.Quoting
import Aprsc.Server.Reload
import Aprsc.History.Map
import Aprsc.Filter.Stations
import Aprsc.Worker.Validation
import Aprsc.Server.Datagrams
import Aprsc.Filter.Queued
import Aprsc.Liveupgrade.Session
import Aprsc.Server.Location
import Aprsc.History.Keys
import Aprsc.Worker.ClientLists
import Aprsc.Server.HostRules
import Aprsc.Filter.Digis
import Aprsc.Filter.Strnstr
import Aprsc.Filter.Symbols
import Aprsc.ParseAprs.Messages
import Aprsc.ParseAprs.LeadingText
import Aprsc.Server.Multiline
import Aprsc.Filter.Records
import Aprsc.Filter.Texts
import Aprsc.Worker.HeardTables
import Aprsc.Incoming.Quirks
import Aprsc.Dupecheck.Chaining
import Aprsc.Server.Logrotate
import Aprsc.Server.Alarms
import Aprsc.Dupecheck.Statistics
import Aprsc.Server.Gauges
import Aprsc.Liveupgrade.Rxerrs
import Aprsc.Cellmalloc
import Aprsc.Worker.Memcasestr
import Aprsc.Server.Arguments
import Aprsc.Server.Escapes
import Aprsc.Worker.Xpoll
import Aprsc.Worker.Username
import Aprsc.Pipeline.Conservation
import Aprsc.Pipeline.Ledger
import Aprsc.Cjson.Upgrade
import Aprsc.Server.Rwlock
import Aprsc.Uplink.Turns
import Aprsc.Accept.Counts
import Aprsc.Accept.Kept
