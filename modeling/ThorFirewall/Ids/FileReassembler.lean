import Mathlib
import ThorFirewall.Ids.FileExtractor
import ThorFirewall.Lib.KeyedList
import ThorFirewall.Lib.Mealy

/-!
# The file reassembler (`ids/file_reassembler.rs`)

The payloads of a stream are collected in a session until a file is complete: by the length that HTTP headers announce or
by a last chunk, or at the final call of an FTP or SMTP transfer. The size guard of HTTP removes the session from the map
while it still holds the entry of it, so that it waits for itself for ever: no state comes after such a call.

- `pushHttp`, `pushFtp`, `pushSmtp`: what a call leaves behind and returns;
- `bounded_push_iff`: from bounded buffers, which calls keep them bounded (`Fits`);
- `bounded_iff`: the buffers are bounded throughout a run exactly if each call of it fits.
-/

namespace ThorFirewall.Ids

open Text Utf8 TextSearch KeyedList

/-! ## Sessions -/

inductive SessionKind
  | httpRequest (contentLength : Option ℕ) (chunked : Bool)
  | httpResponse (contentLength : Option ℕ) (chunked : Bool)
  | ftpData (filename : Option (List Char))
  | smtpData
  | smbWrite (filename : Option (List Char))
  deriving DecidableEq

structure ReassemblySession where
  kind : SessionKind
  buffer : List UInt8
  headers : List Char
  headersDone : Bool
  expected : Option ℕ
  flow : SessionKey
  lastSeen : ℕ

/-- The first end of headers. -/
def findHeaderEnd (data : List UInt8) : Option ℕ := find (ascii "\r\n\r\n") data

namespace ReassemblySession

def new (kind : SessionKind) (flow : SessionKey) (now : ℕ) : ReassemblySession where
  kind := kind
  buffer := []
  headers := []
  headersDone := false
  expected := none
  flow := flow
  lastSeen := now

def isComplete (s : ReassemblySession) : Bool := s.expected.any (· ≤ s.buffer.length)

def isStale (s : ReassemblySession) (ttl now : ℕ) : Bool := ttl < now - s.lastSeen

/-- The last chunk `0\r\n\r\n` is among the last eight bytes. -/
def looksComplete (s : ReassemblySession) : Bool :=
  5 < s.buffer.length && (find (ascii "0\r\n\r\n") (s.buffer.drop (s.buffer.length - 8))).isSome

def append (s : ReassemblySession) (data : List UInt8) (now : ℕ) : ReassemblySession :=
  { s with buffer := s.buffer ++ data, lastSeen := now }

end ReassemblySession

section Lowercase

variable (lower : List Char → List Char)

def parseContentLength (headers : List Char) : Option ℕ :=
  (fieldLine lower "content-length:" headers).bind fun line => parseUnsigned 64 (trim (line.drop 15))

/-- What the headers tell about the body. -/
def ReassemblySession.readHeaders (s : ReassemblySession) (headers : List Char) : ReassemblySession :=
  let cl := parseContentLength lower headers
  let chunked := (find "transfer-encoding: chunked".toList (lower headers)).isSome
  let s := { s with headers := headers, headersDone := true }
  match s.kind with
  | .httpResponse _ _ => { s with kind := .httpResponse cl chunked, expected := cl }
  | .httpRequest _ _ => { s with kind := .httpRequest cl chunked, expected := cl }
  | _ => s

/-- Collect the headers, then the body. -/
def ReassemblySession.accumulate (s : ReassemblySession) (payload : List UInt8) (now : ℕ) : ReassemblySession :=
  if s.headersDone then s.append payload now
  else match findHeaderEnd (s.buffer ++ payload) with
    | some sep => { s.readHeaders lower (fromUtf8Lossy ((s.buffer ++ payload).take sep)) with
        buffer := (s.buffer ++ payload).drop (sep + 4), lastSeen := now }
    | none => s.append payload now

end Lowercase

/-! ## The reassembler -/

structure FileReassembler where
  sessions : List ReassemblySession
  extractor : FileExtractor
  sessionTtl : ℕ
  maxFileSize : ℕ

namespace FileReassembler

/-- Sessions are kept for a minute, files up to 50 MiB. -/
def new (extractor : FileExtractor) : FileReassembler where
  sessions := []
  extractor := extractor
  sessionTtl := 60 * 10 ^ 9
  maxFileSize := 50 * 1024 * 1024

def session? (r : FileReassembler) (flow : SessionKey) : Option ReassemblySession :=
  lookup ReassemblySession.flow flow r.sessions

/-- The session of a stream, or a new one. -/
def entry (r : FileReassembler) (kind : SessionKind) (flow : SessionKey) (now : ℕ) : ReassemblySession :=
  (r.session? flow).getD (.new kind flow now)

def store (r : FileReassembler) (s : ReassemblySession) : FileReassembler :=
  { r with sessions := upsert ReassemblySession.flow s r.sessions }

def remove (r : FileReassembler) (flow : SessionKey) : FileReassembler :=
  { r with sessions := r.sessions.filter (·.flow ≠ flow) }

def sweepStale (r : FileReassembler) (now : ℕ) : FileReassembler :=
  { r with sessions := r.sessions.filter fun s => !s.isStale r.sessionTtl now }

variable (lower : List Char → List Char)

def httpKind (isResponse : Bool) : SessionKind :=
  if isResponse then .httpResponse none false else .httpRequest none false

/-- What a call leaves behind, or `none` if it does not return; and the files that it returns, or `none` if it does not
return or panics. -/
def pushHttp (r : FileReassembler) (payload : List UInt8) (flow : SessionKey) (isResponse : Bool) (now : ℕ) :
    Option FileReassembler × Option (List ExtractedFile) :=
  let s := (r.entry (httpKind isResponse) flow now).accumulate lower payload now
  if !s.headersDone then (some (r.store s), some [])
  -- the guard removes the session from the map that it has locked
  else if r.maxFileSize < s.buffer.length then (none, none)
  else if s.isComplete || s.looksComplete then
    (some (r.remove flow), r.extractor.extractHttp lower (bytes s.headers ++ ascii "\r\n\r\n" ++ s.buffer) s.flow)
  else (some (r.store s), some [])

def pushFtp (r : FileReassembler) (data : List UInt8) (filename : Option (List Char)) (flow : SessionKey)
    (isFinal : Bool) (now : ℕ) : Option FileReassembler × Option (List ExtractedFile) :=
  let r := r.store ((r.entry (.ftpData filename) flow now).append data now)
  match isFinal, r.session? flow with
  | true, some s =>
    let fname := match s.kind with
      | .ftpData name => name.or filename
      | _ => filename
    (some (r.remove flow), some (r.extractor.extractFtp lower s.buffer fname s.flow).toList)
  | _, _ => (some r, some [])

def pushSmtp (r : FileReassembler) (data : List UInt8) (flow : SessionKey) (isFinal : Bool) (now : ℕ) :
    Option FileReassembler × Option (List ExtractedFile) :=
  let r := r.store ((r.entry .smtpData flow now).append data now)
  match isFinal, r.session? flow with
  | true, some s => (some (r.remove flow), r.extractor.extractSmtp lower s.buffer s.flow)
  | _, _ => (some r, some [])

end FileReassembler

/-! ## Runs -/

inductive PushCall
  | http (payload : List UInt8) (flow : SessionKey) (isResponse : Bool) (now : ℕ)
  | ftp (data : List UInt8) (filename : Option (List Char)) (flow : SessionKey) (isFinal : Bool) (now : ℕ)
  | smtp (data : List UInt8) (flow : SessionKey) (isFinal : Bool) (now : ℕ)
  | sweepStale (now : ℕ)

namespace FileReassembler

variable (lower : List Char → List Char)

def push (r : FileReassembler) : PushCall → Option FileReassembler × Option (List ExtractedFile)
  | .http payload flow isResponse now => r.pushHttp lower payload flow isResponse now
  | .ftp data filename flow isFinal now => r.pushFtp lower data filename flow isFinal now
  | .smtp data flow isFinal now => r.pushSmtp lower data flow isFinal now
  | .sweepStale now => (some (r.sweepStale now), some [])

/-- Nothing comes after a call that does not return. -/
def step (r : Option FileReassembler) (call : PushCall) : Option FileReassembler × Option (List ExtractedFile) :=
  match r with
  | some r => r.push lower call
  | none => (none, none)

variable {r : FileReassembler} {s : ReassemblySession} {flow : SessionKey} {now : ℕ} {lower}

@[simp] theorem store_maxFileSize : (r.store s).maxFileSize = r.maxFileSize := rfl

@[simp] theorem store_extractor : (r.store s).extractor = r.extractor := rfl

@[simp] theorem remove_maxFileSize : (r.remove flow).maxFileSize = r.maxFileSize := rfl

@[simp] theorem remove_extractor : (r.remove flow).extractor = r.extractor := rfl

theorem session?_store (flow : SessionKey) :
    (r.store s).session? flow = if s.flow = flow then some s else r.session? flow := lookup_upsert ..

@[simp] theorem session?_remove : (r.remove flow).session? flow = none := by
  rw [session?, lookup, List.find?_eq_none]
  intro s hs
  simpa using (List.mem_filter.1 hs).2

/-- A session is found under its own key. -/
theorem entry_flow (kind : SessionKind) : (r.entry kind flow now).flow = flow := by
  unfold entry session? lookup
  cases hfind : r.sessions.find? fun s => s.flow = flow with
  | none => rfl
  | some s => simpa using List.find?_some hfind

@[simp] theorem append_flow (data : List UInt8) : (s.append data now).flow = s.flow := rfl

theorem readHeaders_flow (headers : List Char) : (s.readHeaders lower headers).flow = s.flow := by
  unfold ReassemblySession.readHeaders
  cases s.kind <;> rfl

theorem accumulate_flow (payload : List UInt8) : (s.accumulate lower payload now).flow = s.flow := by
  unfold ReassemblySession.accumulate
  split_ifs
  · rfl
  · split
    · exact readHeaders_flow _
    · rfl

/-! ## Bounded buffers -/

/-- Every buffer is within the limit. -/
def Bounded (r : FileReassembler) : Prop := ∀ s ∈ r.sessions, s.buffer.length ≤ r.maxFileSize

/-- What is held of a stream. -/
def held (r : FileReassembler) (flow : SessionKey) : List UInt8 := ((r.session? flow).map (·.buffer)).getD []

def headersDone (r : FileReassembler) (flow : SessionKey) : Bool := (r.session? flow).any (·.headersDone)

/-- What a call adds stays within the limit, or does not stay: headers of HTTP that do not end with the payload, and data
of a transfer that is not over, have a place beside what is held. -/
def Fits (r : FileReassembler) : PushCall → Prop
  | .http payload flow _ _ => r.headersDone flow = false → findHeaderEnd (r.held flow ++ payload) = none →
      (r.held flow ++ payload).length ≤ r.maxFileSize
  | .ftp data _ flow isFinal _ => isFinal = false → (r.held flow ++ data).length ≤ r.maxFileSize
  | .smtp data flow isFinal _ => isFinal = false → (r.held flow ++ data).length ≤ r.maxFileSize
  | .sweepStale _ => True

theorem entry_buffer (kind : SessionKind) : (r.entry kind flow now).buffer = r.held flow := by
  unfold entry held
  cases r.session? flow <;> rfl

theorem entry_headersDone (kind : SessionKind) : (r.entry kind flow now).headersDone = r.headersDone flow := by
  unfold entry headersDone
  cases r.session? flow <;> rfl

theorem mem_store : s ∈ (r.store s).sessions := by
  have hlookup : (r.store s).session? s.flow = some s := by rw [session?_store, if_pos rfl]
  exact List.mem_of_find?_eq_some hlookup

theorem bounded_store_iff (h : r.Bounded) : (r.store s).Bounded ↔ s.buffer.length ≤ r.maxFileSize := by
  constructor
  · exact fun hs => hs s mem_store
  · intro hs t ht
    rcases mem_of_mem_upsert ht with rfl | ht
    · exact hs
    · exact h t ht

theorem Bounded.remove (h : r.Bounded) (flow : SessionKey) : (r.remove flow).Bounded :=
  fun s hs => h s (List.mem_filter.1 hs).1

/-- The session that a final call has appended to is removed. -/
theorem bounded_remove_store (h : r.Bounded) (hflow : s.flow = flow) : ((r.store s).remove flow).Bounded := by
  intro t ht
  obtain ⟨ht, hne⟩ := List.mem_filter.1 ht
  rcases mem_of_mem_upsert ht with rfl | ht
  · exact absurd hflow (by simpa using hne)
  · exact h t ht

theorem readHeaders_headersDone (headers : List Char) : (s.readHeaders lower headers).headersDone = true := by
  unfold ReassemblySession.readHeaders
  cases s.kind <;> rfl

theorem accumulate_append (payload : List UInt8) (hdone : s.headersDone = false)
    (hend : findHeaderEnd (s.buffer ++ payload) = none) : s.accumulate lower payload now = s.append payload now := by
  unfold ReassemblySession.accumulate
  rw [hdone, hend]
  rfl

theorem accumulate_headersDone (payload : List UInt8) :
    (s.accumulate lower payload now).headersDone = true ↔
      ¬ (s.headersDone = false ∧ findHeaderEnd (s.buffer ++ payload) = none) := by
  unfold ReassemblySession.accumulate
  cases hdone : s.headersDone with
  | true => simp [ReassemblySession.append, hdone]
  | false =>
    cases hend : findHeaderEnd (s.buffer ++ payload) with
    | none => simp [ReassemblySession.append, hdone]
    | some sep => simp [readHeaders_headersDone]

/-- A session that has its headers is removed, or is within the limit, or is the last there is. -/
theorem bounded_pushHttp_iff (h : r.Bounded) (payload : List UInt8) (flow : SessionKey) (isResponse : Bool) (now : ℕ) :
    (∀ r', (r.pushHttp lower payload flow isResponse now).1 = some r' → r'.Bounded) ↔
      (r.headersDone flow = false → findHeaderEnd (r.held flow ++ payload) = none →
        (r.held flow ++ payload).length ≤ r.maxFileSize) := by
  rw [← @entry_headersDone r flow now (httpKind isResponse), ← @entry_buffer r flow now (httpKind isResponse)]
  unfold pushHttp
  generalize r.entry (httpKind isResponse) flow now = s
  by_cases hopen : s.headersDone = false ∧ findHeaderEnd (s.buffer ++ payload) = none
  · obtain ⟨hdone, hend⟩ := hopen
    have happend : s.accumulate lower payload now = s.append payload now := accumulate_append payload hdone hend
    have hopen : (s.append payload now).headersDone = false := hdone
    simp only [happend, hopen, hdone, hend, Bool.not_false, if_true, Option.some.injEq, forall_eq', forall_const]
    exact bounded_store_iff h
  · have hdone := (@accumulate_headersDone lower _ now payload).2 hopen
    refine iff_of_true ?_ fun hdone hend => absurd ⟨hdone, hend⟩ hopen
    simp only [hdone, Bool.not_true, Bool.false_eq_true, if_false]
    split_ifs with hguard hcomplete
    · exact fun r' hr => by cases hr
    · rintro r' ⟨⟩
      exact h.remove flow
    · rintro r' ⟨⟩
      exact (bounded_store_iff h).2 (Nat.le_of_not_lt hguard)

/-- A stored session is found again. -/
theorem session?_store_append (kind : SessionKind) (data : List UInt8) :
    (r.store ((r.entry kind flow now).append data now)).session? flow =
      some ((r.entry kind flow now).append data now) := by
  rw [session?_store, append_flow, entry_flow, if_pos rfl]

theorem bounded_transfer_iff (h : r.Bounded) (kind : SessionKind) (data : List UInt8) :
    (r.store ((r.entry kind flow now).append data now)).Bounded ↔ (r.held flow ++ data).length ≤ r.maxFileSize := by
  rw [bounded_store_iff h, ReassemblySession.append, entry_buffer]

/-- **A call keeps the buffers bounded exactly if it fits.** -/
theorem bounded_push_iff (h : r.Bounded) (call : PushCall) :
    (∀ r', (r.push lower call).1 = some r' → r'.Bounded) ↔ r.Fits call := by
  cases call with
  | http payload flow isResponse now => exact bounded_pushHttp_iff h payload flow isResponse now
  | ftp data filename flow isFinal now =>
    simp only [push, pushFtp, session?_store_append]
    cases isFinal with
    | true =>
      refine iff_of_true ?_ fun hfalse => by cases hfalse
      rintro r' ⟨⟩
      exact bounded_remove_store h (entry_flow _)
    | false =>
      simp only [Option.some.injEq, forall_eq', Fits, forall_const]
      exact bounded_transfer_iff h _ data
  | smtp data flow isFinal now =>
    simp only [push, pushSmtp, session?_store_append]
    cases isFinal with
    | true =>
      refine iff_of_true ?_ fun hfalse => by cases hfalse
      rintro r' ⟨⟩
      exact bounded_remove_store h (entry_flow _)
    | false =>
      simp only [Option.some.injEq, forall_eq', Fits, forall_const]
      exact bounded_transfer_iff h _ data
  | sweepStale now =>
    refine iff_of_true ?_ trivial
    rintro r' ⟨⟩
    exact fun s hs => h s (List.mem_filter.1 hs).1

theorem bounded_new (x : FileExtractor) : (new x).Bounded := fun _ hs => by cases hs

/-- **Bounded sessions.** Throughout a run, every buffer is within the limit after each call exactly if each call fits in
the state in which it is made. -/
theorem bounded_iff (lower : List Char → List Char) (x : FileExtractor) (calls : List PushCall) :
    (∀ p, p <+: calls → ∀ r, Mealy.after (step lower) (some (new x)) p = some r → r.Bounded) ↔
      ∀ p call, p ++ [call] <+: calls → ∀ r, Mealy.after (step lower) (some (new x)) p = some r → r.Fits call := by
  refine List.forall_prefix_iff ?_ (fun p call hp => ?_) calls
  · rintro r ⟨⟩
    exact bounded_new x
  · rw [Mealy.after_concat]
    cases hr : Mealy.after (step lower) (some (new x)) p with
    | none =>
      exact iff_of_true (fun r' hr' => by cases hr') fun r hr' => by cases hr'
    | some r =>
      simp only [Option.some.injEq, forall_eq']
      exact bounded_push_iff (hp r hr) call

/-- Data of a transfer that is not over has no limit. -/
theorem transfer_unbounded : ¬ ∀ (lower : List Char → List Char) (x : FileExtractor) (calls p : List PushCall),
    p <+: calls → ∀ r, Mealy.after (step lower) (some (new x)) p = some r → r.Bounded := by
  intro h
  let flow : SessionKey := ⟨"10.0.0.1", 20, "10.0.0.2", 20001⟩
  let call : PushCall := .ftp (List.replicate (50 * 1024 * 1024 + 1) 0) none flow false 0
  have hfits := (@bounded_push_iff id _ (bounded_new .new) call).1
    (fun r hr => h id .new [call] [call] List.prefix_rfl r hr) rfl
  have hlength : (List.replicate (50 * 1024 * 1024 + 1) (0 : UInt8)).length ≤ 50 * 1024 * 1024 := hfits
  rw [List.length_replicate] at hlength
  omega

end FileReassembler

end ThorFirewall.Ids
