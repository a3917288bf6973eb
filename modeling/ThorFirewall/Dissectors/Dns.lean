import ThorFirewall.Lib.ByteReader
import ThorFirewall.Lib.Utf8

/-!
# The DNS dissector

`parse_dns_packet` and what it calls: names with compression pointers, questions, and the records of three sections. A
record that cannot be read ends its section, but leaves the position where the reading stopped.
-/

namespace ThorFirewall.Dissectors

open ByteReader Utf8

structure DnsQuestion where
  name : List Char
  qtype : UInt16
  qclass : UInt16
  deriving DecidableEq

inductive DnsRdata
  | a (ip : {ip : List UInt8 // ip.length = 4})
  | aaaa (ip : {ip : List UInt8 // ip.length = 16})
  | cname (name : List Char)
  | mx (priority : UInt16) (exchange : List Char)
  | txt (parts : List (List Char))
  | ns (name : List Char)
  | ptr (name : List Char)
  | soa (mname rname : List Char) (serial refresh retry expire minimum : UInt32)
  | unknown (bytes : List UInt8)
  deriving DecidableEq

structure DnsRecord where
  name : List Char
  rtype : UInt16
  rclass : UInt16
  ttl : UInt32
  rdata : DnsRdata
  deriving DecidableEq

structure DnsPacket where
  transactionId : UInt16
  flags : UInt16
  isResponse : Bool
  opcode : UInt8
  rcode : UInt8
  questions : List DnsQuestion
  answers : List DnsRecord
  authority : List DnsRecord
  additional : List DnsRecord
  deriving DecidableEq

/-! ## Names -/

/-- The loop of `parse_name`, after some pointers and labels; `finalPos` is the position behind the first pointer. -/
def parseNameLoop (data : List UInt8) (jumps pos : ℕ) (labels : List (List Char)) (finalPos : Option ℕ) :
    Checked (List Char × ℕ) :=
  if _hjumps : 10 < jumps then reject
  else if _hpos : data.length ≤ pos then reject
  else do
    let len ← byteAt data pos
    if len = 0 then
      let finalPos := finalPos <|> some (pos + 1)
      return (['.'].intercalate labels, finalPos.getD pos)
    else if len &&& 0xc0 = 0xc0 then
      -- a pointer, to any position of the packet
      if data.length ≤ pos + 1 then reject
      else do
        let low ← byteAt data (pos + 1)
        let ptr := ((len &&& 0x3f).toNat <<< 8) ||| low.toNat
        parseNameLoop data (jumps + 1) ptr labels (finalPos <|> some (pos + 2))
    else
      let labelEnd := pos + 1 + len.toNat
      if data.length < labelEnd then reject
      else do
        let label ← slice data (pos + 1) labelEnd
        match fromUtf8 label with
        | some label => parseNameLoop data jumps labelEnd (labels ++ [label]) finalPos
        | none => reject
termination_by (11 - jumps, data.length - pos)

/-- The name at a position, and the position behind it. -/
def parseName (data : List UInt8) (pos : ℕ) : Checked (List Char × ℕ) := parseNameLoop data 0 pos [] none

/-- `parse_name(data, pos).unwrap_or_default()`, less the position. -/
def nameOrDefault (data : List UInt8) (pos : ℕ) : Checked (List Char) := do
  let name ← attempt (parseName data pos)
  return (name.getD ([], 0)).1

/-! ## Records -/

/-- The loop over the texts of a TXT record. -/
def parseTxt (rdataBytes : List UInt8) (p : ℕ) (parts : List (List Char)) : Checked (List (List Char)) :=
  if _hp : p < rdataBytes.length then do
    let len ← byteAt rdataBytes p
    let p' := p + 1
    if p' + len.toNat ≤ rdataBytes.length then do
      let part ← slice rdataBytes p' (p' + len.toNat)
      let parts := match fromUtf8 part with
        | some s => parts ++ [s]
        | none => parts
      parseTxt rdataBytes (p' + len.toNat) parts
    else return parts
  else return parts
termination_by rdataBytes.length - p

/-- `a - b` of unsigned numbers. -/
def checkedSub (a b : ℕ) : Checked ℕ := if b ≤ a then .ok (a - b) else .error .panicked

/-- The data of a record; `pos` is the position behind them. -/
def parseRdata (data : List UInt8) (rtype : UInt16) (rdataBytes : List UInt8) (pos : ℕ) : Checked DnsRdata :=
  let rdlen := rdataBytes.length
  if h : rtype = 1 ∧ rdlen = 4 then return .a ⟨rdataBytes, h.2⟩
  else if h : rtype = 28 ∧ rdlen = 16 then return .aaaa ⟨rdataBytes, h.2⟩
  else if rtype = 5 then do
    let start ← checkedSub pos rdlen
    return .cname (← nameOrDefault data start)
  else if rtype = 15 ∧ 3 ≤ rdlen then do
    let priority ← u16At rdataBytes 0
    let start ← checkedSub pos rdlen
    return .mx priority (← nameOrDefault data (start + 2))
  else if rtype = 16 then do
    return .txt (← parseTxt rdataBytes 0 [])
  else if rtype = 2 then do
    let start ← checkedSub pos rdlen
    return .ns (← nameOrDefault data start)
  else if rtype = 12 then do
    let start ← checkedSub pos rdlen
    return .ptr (← nameOrDefault data start)
  else return .unknown rdataBytes

/-- The record at a position, if there is one, and the position where its reading stopped. -/
def parseRecord (data : List UInt8) (pos : ℕ) : Checked (Option DnsRecord × ℕ) := do
  match ← attempt (parseName data pos) with
  | none => return (none, pos)
  | some (name, pos) =>
    if data.length < pos + 10 then return (none, pos)
    else do
      let rtype ← u16At data pos
      let rclass ← u16At data (pos + 2)
      let ttl ← u32At data (pos + 4)
      let rdlen ← u16At data (pos + 8)
      let pos := pos + 10
      if data.length < pos + rdlen.toNat then return (none, pos)
      else do
        let rdataBytes ← slice data pos (pos + rdlen.toNat)
        let pos := pos + rdlen.toNat
        let rdata ← parseRdata data rtype rdataBytes pos
        return (some ⟨name, rtype, rclass, ttl, rdata⟩, pos)

/-- At most `count` records from a position on, up to the first that cannot be read. -/
def parseRecords (data : List UInt8) : ℕ → ℕ → Checked (List DnsRecord × ℕ)
  | 0, pos => return ([], pos)
  | count + 1, pos => do
    match ← parseRecord data pos with
    | (some record, pos) => do
      let (records, pos) ← parseRecords data count pos
      return (record :: records, pos)
    | (none, pos) => return ([], pos)

/-! ## Packets -/

/-- The loop over the questions. -/
def parseQuestions (data : List UInt8) : ℕ → ℕ → Checked (List DnsQuestion × ℕ)
  | 0, pos => return ([], pos)
  | count + 1, pos => do
    let (name, pos) ← parseName data pos
    if data.length < pos + 4 then return ([], pos)
    else do
      let qtype ← u16At data pos
      let qclass ← u16At data (pos + 2)
      let (questions, pos) ← parseQuestions data count (pos + 4)
      return (⟨name, qtype, qclass⟩ :: questions, pos)

def parseDnsPacket (data : List UInt8) : Checked DnsPacket :=
  if data.length < 12 then reject
  else do
    let transactionId ← u16At data 0
    let flags ← u16At data 2
    let qdcount ← u16At data 4
    let ancount ← u16At data 6
    let nscount ← u16At data 8
    let arcount ← u16At data 10
    let (questions, pos) ← parseQuestions data qdcount.toNat 12
    let (answers, pos) ← parseRecords data ancount.toNat pos
    let (authority, pos) ← parseRecords data nscount.toNat pos
    let (additional, _) ← parseRecords data arcount.toNat pos
    return {
      transactionId, flags, questions, answers, authority, additional
      isResponse := (flags >>> 15) &&& 1 == 1
      opcode := ((flags >>> 11) &&& 0xf).toUInt8
      rcode := (flags &&& 0xf).toUInt8 }

end ThorFirewall.Dissectors
