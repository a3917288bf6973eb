import Mathlib
import ThorFirewall.Micro.EventChannel

/-!
# Events and alerts of the detection engines (`events/mod.rs`, `events/enrichment.rs`)

What the detection engines read of an event, and the alerts they return. An alert has a fresh id and a time of its own,
which are left out: alerts are compared by what they say.
-/

namespace ThorFirewall.Detection

/-- `str::contains`. -/
def contains (s pattern : String) : Bool := decide (pattern.toList <:+: s.toList)

inductive FimOperation
  | open
  | create
  | write
  | rename
  | unlink
  | chmod
  | chown
  deriving DecidableEq, Repr

/-- `{:?}`. -/
def FimOperation.debug : FimOperation → String
  | .open => "Open"
  | create => "Create"
  | write => "Write"
  | rename => "Rename"
  | unlink => "Unlink"
  | chmod => "Chmod"
  | chown => "Chown"

/-- A raw event, with the fields that the detection engines read. -/
inductive RawEvent
  | process (processName cmdline : String) (parentName : Option String)
  | network (dstPort : UInt16) (protocol : UInt8)
  | xdpDrop
  | dns (query recordType : String)
  | tls (sni ja4Hash issuer : Option String)
  | fim (path : String) (operation : FimOperation)
  | file
  | registry
  deriving DecidableEq, Repr

def RawEvent.source : RawEvent → String
  | process _ _ _ => "process"
  | network _ _ => "network"
  | xdpDrop => "xdp"
  | dns _ _ => "dns"
  | tls _ _ _ => "tls"
  | fim _ _ => "fim"
  | file => "file"
  | registry => "registry"

structure EnrichedEvent where
  raw : RawEvent := .xdpDrop
  hostname : Option String := none
  srcIpStr : Option String := none
  dstIpStr : Option String := none
  commandLine : Option String := none
  processName : Option String := none
  eventType : Option String := none
  userId : Option String := none
  pid : Option UInt32 := none
  deriving DecidableEq, Repr

inductive RuleType
  | sigma
  | behavioral
  deriving DecidableEq, Repr

structure Alert where
  source : String
  ruleName : String
  ruleType : RuleType
  threatLevel : ThreatLevel
  description : String
  pid : Option UInt32
  processName : Option String
  srcIp : Option String
  dstIp : Option String
  rawEventType : String
  deriving DecidableEq, Repr

end ThorFirewall.Detection
