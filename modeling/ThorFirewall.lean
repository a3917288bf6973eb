import ThorFirewall.Lib.Mealy
import ThorFirewall.Lib.SerialNumber
import ThorFirewall.Lib.Slice
import ThorFirewall.Lib.SortedMap
import ThorFirewall.Lib.Wire
import ThorFirewall.Lib.KeyedList
import ThorFirewall.Network.Reassembler
import ThorFirewall.Network.Positions
import ThorFirewall.Network.Emission
import ThorFirewall.Network.Stall
import ThorFirewall.Network.Cut
import ThorFirewall.Network.Arrival
import ThorFirewall.Network.Retained
import ThorFirewall.Network.Directions
import ThorFirewall.Control.Signing
import ThorFirewall.Control.PolicyCache
import ThorFirewall.Control.Resolution
import ThorFirewall.Control.Addressing
import ThorFirewall.Control.CanaryRollout
import ThorFirewall.Control.PhasedGate
import ThorFirewall.Control.Deployment
import ThorFirewall.Control.Carryover
import ThorFirewall.Control.BreakGlass
import ThorFirewall.Control.EmergencyModes
import ThorFirewall.Control.FlAggregator
import ThorFirewall.Lib.HashChain
import ThorFirewall.Lib.Sha256
import ThorFirewall.Agent.AuditLog
import ThorFirewall.Agent.AuditChain
import ThorFirewall.Agent.Tamper
import ThorFirewall.Soc.AuditChain
import ThorFirewall.Lib.Json
import ThorFirewall.Soc.Engine
import ThorFirewall.Micro.EventForwarder
import ThorFirewall.Soc.Inbox
import ThorFirewall.Soc.Delivery
import ThorFirewall.Micro.EventChannel
import ThorFirewall.Detection.Events
import ThorFirewall.Detection.SequenceDetector
import ThorFirewall.Detection.SequenceSoundness
import ThorFirewall.Detection.SequenceCompleteness
import ThorFirewall.Detection.SequenceEviction
import ThorFirewall.Detection.SigmaCompiler
import ThorFirewall.Detection.TieredSigma
import ThorFirewall.Detection.SigmaEngine
import ThorFirewall.Ids.Flow
import ThorFirewall.Ids.Handshake
import ThorFirewall.Ids.Accounting
import ThorFirewall.Ids.HalfOpen
import ThorFirewall.Lib.FixedWindow
import ThorFirewall.Soar.CircuitBreaker
import ThorFirewall.Soar.Correlator
import ThorFirewall.Ids.RuleParser
import ThorFirewall.Ids.Matcher
import ThorFirewall.Ids.Overmatch
import ThorFirewall.Lib.Scanner
import ThorFirewall.Thorql.Tokenizer
import ThorFirewall.Thorql.Parser
import ThorFirewall.Thorql.Grammar
import ThorFirewall.Thorql.Exactness
import ThorFirewall.Thorql.Printer
import ThorFirewall.Lib.HashJoin
import ThorFirewall.Thorql.Executor
import ThorFirewall.Thorql.Join
import ThorFirewall.Thorql.References
import ThorFirewall.Agent.TokenBlacklist
import ThorFirewall.Lib.TextSearch
import ThorFirewall.Ids.FileExtractor
import ThorFirewall.Ids.FileReassembler
import ThorFirewall.Ids.Segmentation
import ThorFirewall.Lib.Base64
import ThorFirewall.Ids.Attachments
import ThorFirewall.Lib.ByteReader
import ThorFirewall.Dissectors.Dns
import ThorFirewall.Dissectors.DnsSections
import ThorFirewall.Dissectors.DnsTotality
import ThorFirewall.Dissectors.DnsWire
import ThorFirewall.Dissectors.Engine
import ThorFirewall.Fingerprint.AnyPacket
import ThorFirewall.Fingerprint.ClientHello
import ThorFirewall.Fingerprint.ClientHelloWire
import ThorFirewall.Fingerprint.Grease
import ThorFirewall.Fingerprint.Ja4
import ThorFirewall.Fingerprint.Ja4h
import ThorFirewall.Fingerprint.Ja4s
import ThorFirewall.Fingerprint.ServerName
import ThorFirewall.Agent.IocDatabase
import ThorFirewall.Micro.Decisions
import ThorFirewall.Micro.Retention
import ThorFirewall.Graph.AttackGraph
import ThorFirewall.Graph.CampaignAlerts
import ThorFirewall.Bpf.XdpDrop
import ThorFirewall.Control.Quarantine
import ThorFirewall.Lib.Paths
import ThorFirewall.Fim.Engine
import ThorFirewall.Fim.Changes
import ThorFirewall.Forensics.Tar
import ThorFirewall.Forensics.Collector
import ThorFirewall.Control.OutlierDefence
import ThorFirewall.Control.Dilution
import ThorFirewall.Control.TokenLifetime
import ThorFirewall.Control.Delegation
import ThorFirewall.Lib.JsonText
import ThorFirewall.Common.AuditEntry
import ThorFirewall.Ml.CampaignCorrelator
import ThorFirewall.Ml.CampaignRuns
import ThorFirewall.Lib.Escape
import ThorFirewall.Siem.Records
import ThorFirewall.Detection.SigmaConditions
import ThorFirewall.Detection.SigmaPrinted
import ThorFirewall.Detection.SigmaPrecedence
import ThorFirewall.Detection.SigmaSelections
import ThorFirewall.Detection.SigmaTotality
import ThorFirewall.Thorql.Like
import ThorFirewall.Ids.RuleOptions
import ThorFirewall.Soar.Whitelist
import ThorFirewall.Ids.Threshold
import ThorFirewall.Ids.ThresholdCleanup
import ThorFirewall.Ids.PortSpec
import ThorFirewall.Lib.MultiSearch
import ThorFirewall.Ids.ContentStage
import ThorFirewall.Script.Parser
import ThorFirewall.Script.Roundtrip
import ThorFirewall.Script.Totality
import ThorFirewall.Script.Runtime
import ThorFirewall.Lib.OperatorChain
import ThorFirewall.Script.Grammar
import ThorFirewall.Script.Payload
import ThorFirewall.Script.Expansion
import ThorFirewall.Thorql.Compare
import ThorFirewall.Web.UrlDecode
import ThorFirewall.Web.RateLimit
import ThorFirewall.Agent.ApiRateLimit
import ThorFirewall.Lib.BitTrie
import ThorFirewall.Geo.Trie
import ThorFirewall.Events.Dedup
import ThorFirewall.Dpi.PacketEncoder
import ThorFirewall.Dpi.ProtocolClassifier
import ThorFirewall.Lib.EarliestSearch
import ThorFirewall.Lib.Lowercase
import ThorFirewall.Web.Waf
import ThorFirewall.Fingerprint.HpackNames
import ThorFirewall.Ids.FilenameOffsets
import ThorFirewall.Dissectors.HttpRequest
import ThorFirewall.Bpf.DnsMonitor
import ThorFirewall.Bpf.DnsCapture
import ThorFirewall.Lib.PerCpu
import ThorFirewall.Lib.Session
import ThorFirewall.Bpf.RateCheck
import ThorFirewall.Bpf.TcEgress
import ThorFirewall.Bpf.SyscallProfiler
import ThorFirewall.Bpf.HeapSpray
import ThorFirewall.Fingerprint.Ja4ssh
import ThorFirewall.Lib.FloatRounding
import ThorFirewall.Detection.Consensus
import ThorFirewall.Soar.StagedResponse
