import ThorFirewall.Lib.ByteReader
import ThorFirewall.Lib.TextSearch
import ThorFirewall.Lib.Utf8

/-!
# The SMB dissector

`parse_smb_header` reads the header of SMB 1 or 2, behind a NetBIOS session header if there is one, and `make_smb_log`
makes a log of it. `accepted_iff`: a payload is accepted exactly if, less the session header, it begins with one of the
two signatures and is long enough.
-/

namespace ThorFirewall.Dissectors

open ByteReader Utf8 TextSearch

inductive SmbVersion
  | smb1
  | smb2
  | smb3
  deriving DecidableEq

inductive SmbAnomaly
  | eternalBlue
  | doublePulsar
  | adminShareAccess
  | nullSession
  | bruteForce
  | ntlmRelay
  | suspiciousPipeName
  | largeTransaction
  | smbRecon
  | unusualDialect
  deriving DecidableEq

structure SmbHeader where
  version : SmbVersion
  command : UInt8
  status : UInt32
  flags : UInt8
  flags2 : UInt16
  tid : UInt16
  pid : UInt32
  uid : UInt16
  mid : UInt16
  deriving DecidableEq

structure SmbLog where
  ts : ℕ
  uid : String
  srcIp : String
  dstIp : String
  version : SmbVersion
  command : String
  commandCode : UInt8
  status : UInt32
  treeConnectPath : Option (List Char)
  filename : Option (List Char)
  namedPipe : Option (List Char)
  anomalies : List SmbAnomaly

def smb1Magic : List UInt8 := [0xff, 0x53, 0x4d, 0x42]
def smb2Magic : List UInt8 := [0xfe, 0x53, 0x4d, 0x42]
def eternalBlueTrans2Cmd : UInt8 := 0x25
def doublePulsarSignature : List UInt8 := [0x0e, 0, 0, 0, 0]

def adminShares : List (List Char) :=
  ["C$".toList, "ADMIN$".toList, "IPC$".toList, "D$".toList, "E$".toList, "SYSVOL".toList, "NETLOGON".toList]

/-! ## The header -/

/-- The payload less the NetBIOS session header. -/
def smbStart (data : List UInt8) : ℕ := if data.length > 4 ∧ data.head? = some 0 then 4 else 0

def parseSmbHeader (data : List UInt8) : Checked SmbHeader := do
  let d ← slice data (smbStart data) data.length
  if d.length < 32 then reject
  else if d.take 4 = smb1Magic then do
    let command ← byteAt d 4
    let status ← u32LeAt d 5
    let flags ← byteAt d 9
    let flags2 ← u16LeAt d 10
    let tid ← u16LeAt d 24
    let pid ← u32LeAt d 12
    let uid ← u16LeAt d 26
    let mid ← u16LeAt d 28
    return { version := .smb1, command, status, flags, flags2, tid, pid, uid, mid }
  else if d.take 4 = smb2Magic then
    if d.length < 64 then reject
    else do
      let command ← byteAt d 12
      let status ← u32LeAt d 8
      let tid ← u16LeAt d 36
      let pid ← u32LeAt d 28
      let uid ← u16LeAt d 40
      let mid ← u16LeAt d 44
      return { version := .smb2, command, status, flags := 0, flags2 := 0, tid, pid, uid, mid }
  else reject

/-! ## The log -/

def detectSmbAnomalies (data : List UInt8) (header : SmbHeader) : List SmbAnomaly :=
  (if header.version = .smb1 ∧ header.command = eternalBlueTrans2Cmd ∧ data.length > 100 ∧ data.length > 500 then
    [.eternalBlue] else []) ++
  (if doublePulsarSignature <:+: data then [.doublePulsar] else []) ++
  (if header.command = 0x73 ∧ header.uid = 0 then [.nullSession] else [])

/-- The path behind the first two backslashes, of a payload that is a text. -/
def extractTreePath (data : List UInt8) : Option (List Char) := do
  let text ← fromUtf8 data
  let pos ← find ['\\', '\\'] text
  let path := ((text.drop pos).take 128).takeWhile fun c => c ≠ '\x00' ∧ c ≠ '\r' ∧ c ≠ '\n'
  if path = [] then none else some path

def isAdminShare (upper : List Char → List Char) (path : List Char) : Bool :=
  adminShares.any fun s => s.isSuffixOf (upper path)

def smb1CommandName (cmd : UInt8) : String :=
  match cmd with
  | 0x00 => "CREATE_DIRECTORY"
  | 0x01 => "DELETE_DIRECTORY"
  | 0x02 => "OPEN"
  | 0x03 => "CREATE"
  | 0x04 => "CLOSE"
  | 0x05 => "FLUSH"
  | 0x06 => "DELETE"
  | 0x07 => "RENAME"
  | 0x08 => "QUERY_INFORMATION"
  | 0x09 => "SET_INFORMATION"
  | 0x0a => "READ"
  | 0x0b => "WRITE"
  | 0x0d => "LOCK_AND_READ"
  | 0x25 => "TRANSACTION2"
  | 0x2e => "TRANSACTION2_SECONDARY"
  | 0x72 => "NEGOTIATE"
  | 0x73 => "SESSION_SETUP_ANDX"
  | 0x74 => "LOGOFF_ANDX"
  | 0x75 => "TREE_CONNECT_ANDX"
  | 0x71 => "TREE_DISCONNECT"
  | 0xa2 => "NT_CREATE_ANDX"
  | _ => "UNKNOWN"

/-- The log of a payload at the time `ts`; `upper` is `to_uppercase`. -/
def makeSmbLog (upper : List Char → List Char) (ts : ℕ) (data : List UInt8) (uid srcIp dstIp : String) :
    Checked SmbLog := do
  let header ← parseSmbHeader data
  let treeConnectPath := extractTreePath data
  let adminShare := if treeConnectPath.any (isAdminShare upper) then [.adminShareAccess] else []
  return {
    ts, uid, srcIp, dstIp, treeConnectPath
    version := header.version
    command := smb1CommandName header.command
    commandCode := header.command
    status := header.status
    filename := none
    namedPipe := none
    anomalies := detectSmbAnomalies data header ++ adminShare }

/-! ## What is accepted -/

variable {data : List UInt8}

theorem smbStart_le (data : List UInt8) : smbStart data ≤ data.length := by
  unfold smbStart
  split_ifs with h
  · exact h.1.le
  · exact Nat.zero_le _

/-- A payload that the header is read from. -/
def AcceptedSmb (data : List UInt8) : Prop := ∃ header, parseSmbHeader data = .ok header

/-- The bytes that are read, less the session header. -/
theorem slice_smbStart (data : List UInt8) : slice data (smbStart data) data.length = .ok (data.drop (smbStart data)) := by
  rw [slice, if_pos ⟨smbStart_le data, Nat.le_refl _⟩, List.take_of_length_le]
  rw [List.length_drop]

/-- **What the header is read from**: one of the signatures, with 32 or 64 bytes. -/
theorem accepted_iff : AcceptedSmb data ↔
    (smb1Magic <+: data.drop (smbStart data) ∧ 32 ≤ (data.drop (smbStart data)).length) ∨
      (smb2Magic <+: data.drop (smbStart data) ∧ 64 ≤ (data.drop (smbStart data)).length) := by
  unfold AcceptedSmb parseSmbHeader
  rw [slice_smbStart]
  generalize data.drop (smbStart data) = d
  have htake : ∀ m : List UInt8, m.length = 4 → (d.take 4 = m ↔ m <+: d) := fun m hm => by
    rw [List.prefix_iff_eq_take, hm, eq_comm]
  simp only [bind, Except.bind]
  rw [← htake smb1Magic rfl, ← htake smb2Magic rfl]
  by_cases hshort : d.length < 32
  · simp only [if_pos hshort, reject, reduceCtorEq, exists_false, false_iff]
    omega
  rw [if_neg hshort]
  by_cases hone : d.take 4 = smb1Magic
  · obtain ⟨command, hcommand⟩ := byteAt_isOk d 4 (by omega)
    obtain ⟨status, hstatus⟩ := u32LeAt_isOk d 5 (by omega)
    obtain ⟨flags, hflags⟩ := byteAt_isOk d 9 (by omega)
    obtain ⟨flags2, hflags2⟩ := u16LeAt_isOk d 10 (by omega)
    obtain ⟨tid, htid⟩ := u16LeAt_isOk d 24 (by omega)
    obtain ⟨pid, hpid⟩ := u32LeAt_isOk d 12 (by omega)
    obtain ⟨uid, huid⟩ := u16LeAt_isOk d 26 (by omega)
    obtain ⟨mid, hmid⟩ := u16LeAt_isOk d 28 (by omega)
    simp only [if_pos hone, hcommand, hstatus, hflags, hflags2, htid, hpid, huid, hmid, pure, Except.pure]
    exact iff_of_true ⟨_, rfl⟩ (.inl ⟨hone, by omega⟩)
  rw [if_neg hone]
  by_cases htwo : d.take 4 = smb2Magic
  · rw [if_pos htwo]
    by_cases hlong : d.length < 64
    · simp only [if_pos hlong, reject, reduceCtorEq, exists_false, false_iff]
      rintro (⟨h, -⟩ | ⟨-, h⟩)
      · exact hone h
      · omega
    obtain ⟨command, hcommand⟩ := byteAt_isOk d 12 (by omega)
    obtain ⟨status, hstatus⟩ := u32LeAt_isOk d 8 (by omega)
    obtain ⟨tid, htid⟩ := u16LeAt_isOk d 36 (by omega)
    obtain ⟨pid, hpid⟩ := u32LeAt_isOk d 28 (by omega)
    obtain ⟨uid, huid⟩ := u16LeAt_isOk d 40 (by omega)
    obtain ⟨mid, hmid⟩ := u16LeAt_isOk d 44 (by omega)
    simp only [if_neg hlong, hcommand, hstatus, htid, hpid, huid, hmid, pure, Except.pure]
    exact iff_of_true ⟨_, rfl⟩ (.inr ⟨htwo, by omega⟩)
  · rw [if_neg htwo]
    simp only [reject, reduceCtorEq, exists_false, hone, htwo, false_and, or_self]

/-- A log is made of each accepted payload. -/
theorem makeSmbLog_isOk (h : AcceptedSmb data) (upper : List Char → List Char) (ts : ℕ) (uid srcIp dstIp : String) :
    ∃ log, makeSmbLog upper ts data uid srcIp dstIp = .ok log := by
  obtain ⟨header, hheader⟩ := h
  rw [makeSmbLog, hheader]
  exact ⟨_, rfl⟩

end ThorFirewall.Dissectors
