import Mathlib
import ThorFirewall.Lib.Mealy
import ThorFirewall.Lib.SortedMap

/-!
# The TCP stream reassembler (`network/reassembler.rs`)

A `FlowStream` reassembles one direction of a connection: segments that start at `nextSeq` are appended to `assembled`,
segments ahead of it wait in `oooBuffer`, and `assembled` is handed out when it exceeds the cap or reaches the yield
threshold. A `TcpReassembler` keeps two of them per connection, under the canonical key of the connection.

Byte buffers are lists, a `BTreeMap` is a `Std.TreeMap` whose `iter()` is `toList`, a `DashMap` is an association list
with distinct keys; clock readings are passed in.

* `drainOoo_spec`: the drain loop takes the contiguous run at the head of the sorted buffer, and nothing else;
* `push_step`: what one non-empty segment can do to a stream; the cap and the threshold only move bytes from
  `assembled` to the output.
-/

namespace ThorFirewall.Reassembler

/-- Monotonic clock readings and spans, in nanoseconds. -/
abbrev Instant := ℕ
abbrev Duration := ℕ

abbrev Bytes := List UInt8

/-! ## Flow keys -/

/-- An IPv4 address is the number `u32::from` gives it. -/
structure FlowKey where
  srcIp : UInt32
  dstIp : UInt32
  srcPort : UInt16
  dstPort : UInt16
  protocol : UInt8
  deriving DecidableEq, Repr

namespace FlowKey

/-- The key with its lower endpoint first, and whether that is the key as given. -/
def canonical (key : FlowKey) : FlowKey × Bool :=
  if key.srcIp < key.dstIp ∨ key.srcIp = key.dstIp ∧ key.srcPort ≤ key.dstPort then (key, true)
  else ({ srcIp := key.dstIp, dstIp := key.srcIp, srcPort := key.dstPort, dstPort := key.srcPort,
          protocol := key.protocol }, false)

end FlowKey

/-! ## One direction of a flow -/

structure FlowStream where
  /-- Segments ahead of `nextSeq`, by raw sequence number. -/
  oooBuffer : Std.TreeMap UInt32 Bytes
  nextSeq : Option UInt32
  assembled : Bytes
  lastSeen : Instant
  totalBytes : ℕ

namespace FlowStream

def new (now : Instant) : FlowStream :=
  { oooBuffer := ∅, nextSeq := none, assembled := [], lastSeen := now, totalBytes := 0 }

/-- The sequence number behind `data`, which starts at `seq`: `seq.wrapping_add(data.len() as u32)`. -/
def seqAfter (seq : UInt32) (data : Bytes) : UInt32 := seq + UInt32.ofNat data.length

/-- Append in-order data and move `nextSeq` behind it. -/
def extend (s : FlowStream) (data : Bytes) (next : UInt32) : FlowStream :=
  { s with assembled := s.assembled ++ data, totalBytes := s.totalBytes + data.length, nextSeq := some next }

@[simp] theorem extend_oooBuffer (s : FlowStream) (data : Bytes) (next : UInt32) :
    (s.extend data next).oooBuffer = s.oooBuffer := rfl

@[simp] theorem extend_nextSeq (s : FlowStream) (data : Bytes) (next : UInt32) :
    (s.extend data next).nextSeq = some next := rfl

@[simp] theorem extend_assembled (s : FlowStream) (data : Bytes) (next : UInt32) :
    (s.extend data next).assembled = s.assembled ++ data := rfl

@[simp] theorem extend_totalBytes (s : FlowStream) (data : Bytes) (next : UInt32) :
    (s.extend data next).totalBytes = s.totalBytes + data.length := rfl

/-- The loop of `drain_ooo`, at most `fuel` times round: the smallest key is compared with `expected`. -/
def drainLoop : ℕ → FlowStream → UInt32 → FlowStream
  | 0, s, _ => s
  | fuel + 1, s, expected =>
    match s.oooBuffer.toList.head? with
    | some (seq, data) =>
      if seq = expected then
        drainLoop fuel ({ s with oooBuffer := s.oooBuffer.erase seq }.extend data (seqAfter expected data))
          (seqAfter expected data)
      else s
    | none => s

/-- Every round removes an entry, so the loop ends within `size` rounds. -/
def drainOoo (s : FlowStream) (expected : UInt32) : FlowStream := drainLoop s.oooBuffer.size s expected

/-- The `match self.next_seq` of `push`: first, in-order, future and past segments. -/
def accept (s : FlowStream) (seq : UInt32) (data : Bytes) : FlowStream :=
  match s.nextSeq with
  | none => s.extend data (seqAfter seq data)
  | some expected =>
    if seq = expected then (s.extend data (seqAfter expected data)).drainOoo (seqAfter expected data)
    else if seq - expected < 0x80000000 then { s with oooBuffer := s.oooBuffer.insert seq data }
    else s

/-- `assembled.split()`, with `total_bytes` set to what is left. -/
def split (s : FlowStream) : FlowStream × Option Bytes :=
  ({ s with assembled := [], totalBytes := 0 }, some s.assembled)

/-- The end of `push`: the cap, then the yield threshold. -/
def yieldOrKeep (s : FlowStream) (yieldAt cap : ℕ) : FlowStream × Option Bytes :=
  if s.totalBytes > cap then s.split
  else if s.assembled.length ≥ yieldAt then s.split
  else (s, none)

def push (s : FlowStream) (now : Instant) (seq : UInt32) (data : Bytes) (yieldAt cap : ℕ) :
    FlowStream × Option Bytes :=
  let s := { s with lastSeen := now }
  if data.isEmpty then (s, none) else (s.accept seq data).yieldOrKeep yieldAt cap

/-- Hand out whatever is assembled. -/
def flush (s : FlowStream) : FlowStream × Option Bytes :=
  if s.assembled.isEmpty then (s, none) else ({ s with assembled := [], totalBytes := 0 }, some s.assembled)

/-- `last_seen.elapsed() > timeout`. -/
def isStale (s : FlowStream) (now : Instant) (timeout : Duration) : Bool := now - s.lastSeen > timeout

end FlowStream

/-! ## What the operations do -/

namespace FlowStream

/-- `s'` is `s` with the contiguous run from `e` moved out of the buffer. -/
structure Drained (s : FlowStream) (e : UInt32) (s' : FlowStream) : Prop where
  assembled : s'.assembled = s.assembled ++ (SortedMap.run seqAfter e s.oooBuffer.toList).flatMap (·.2)
  totalBytes : s'.totalBytes = s.totalBytes + ((SortedMap.run seqAfter e s.oooBuffer.toList).flatMap (·.2)).length
  nextSeq : s'.nextSeq = some (SortedMap.runEnd seqAfter e (SortedMap.run seqAfter e s.oooBuffer.toList))
  buffer : s'.oooBuffer.toList = s.oooBuffer.toList.drop (SortedMap.run seqAfter e s.oooBuffer.toList).length

theorem drainLoop_spec : ∀ (fuel : ℕ) (s : FlowStream) (e : UInt32), s.oooBuffer.toList.length ≤ fuel →
    s.nextSeq = some e → Drained s e (drainLoop fuel s e)
  | 0, s, e, hfuel, hnext => by
    have hnil : s.oooBuffer.toList = [] := List.length_eq_zero_iff.1 (by omega)
    constructor <;> simp [drainLoop, hnil, hnext, SortedMap.run]
  | fuel + 1, s, e, hfuel, hnext => by
    unfold drainLoop
    cases hl : s.oooBuffer.toList with
    | nil => constructor <;> simp [hl, hnext, SortedMap.run]
    | cons p es =>
      obtain ⟨seq, data⟩ := p
      simp only [List.head?_cons]
      by_cases hseq : seq = e
      · subst hseq
        have herase := SortedMap.toList_erase_head hl
        rw [if_pos rfl]
        have ih := drainLoop_spec fuel
          ({ s with oooBuffer := s.oooBuffer.erase seq }.extend data (seqAfter seq data)) (seqAfter seq data)
          (by rw [hl] at hfuel; simpa [herase] using hfuel) rfl
        obtain ⟨ha, ht, hn, hb⟩ := ih
        simp only [extend_oooBuffer, extend_assembled, extend_totalBytes, herase] at ha ht hn hb
        constructor
        · rw [ha, hl, SortedMap.run_cons_self]; simp
        · rw [ht, hl, SortedMap.run_cons_self]; simp; omega
        · rw [hn, hl, SortedMap.run_cons_self]; rfl
        · rw [hb, hl, SortedMap.run_cons_self]; rfl
      · rw [if_neg hseq]
        constructor <;> simp [hl, hnext, SortedMap.run_cons_ne hseq]

/-- **The drain loop** moves exactly the contiguous run at the head of the buffer. -/
theorem drainOoo_spec {s : FlowStream} {e : UInt32} (h : s.nextSeq = some e) : Drained s e (s.drainOoo e) :=
  drainLoop_spec _ s e (by rw [Std.TreeMap.length_toList]) h

/-- What `accept` can do: the first segment, an in-order one, a future one, a past one. -/
theorem accept_cases (s : FlowStream) (seq : UInt32) (data : Bytes) :
    s.nextSeq = none ∧ s.accept seq data = s.extend data (seqAfter seq data) ∨
    s.nextSeq = some seq ∧ Drained (s.extend data (seqAfter seq data)) (seqAfter seq data) (s.accept seq data) ∨
    ∃ e, s.nextSeq = some e ∧ seq ≠ e ∧
      (seq - e < 0x80000000 ∧ s.accept seq data = { s with oooBuffer := s.oooBuffer.insert seq data } ∨
        ¬ seq - e < 0x80000000 ∧ s.accept seq data = s) := by
  unfold accept
  cases hn : s.nextSeq with
  | none => exact Or.inl ⟨rfl, rfl⟩
  | some e =>
    by_cases hseq : seq = e
    · subst hseq
      refine Or.inr (Or.inl ⟨rfl, ?_⟩)
      simp only [if_true]
      exact drainOoo_spec rfl
    · refine Or.inr (Or.inr ⟨e, rfl, hseq, ?_⟩)
      by_cases hf : seq - e < 0x80000000
      · exact Or.inl ⟨hf, by simp [hseq, hf]⟩
      · exact Or.inr ⟨hf, by simp [hseq, hf]⟩

/-- The cap and the threshold only move bytes from `assembled` to the output. -/
theorem yieldOrKeep_spec (s : FlowStream) (yieldAt cap : ℕ) :
    (s.yieldOrKeep yieldAt cap).1.nextSeq = s.nextSeq ∧ (s.yieldOrKeep yieldAt cap).1.oooBuffer = s.oooBuffer ∧
      (s.yieldOrKeep yieldAt cap).2.getD [] ++ (s.yieldOrKeep yieldAt cap).1.assembled = s.assembled := by
  unfold yieldOrKeep split
  split_ifs <;> simp

/-- The stream after a push, and what it has handed out, in terms of the stream before it. -/
inductive PushStep (s : FlowStream) (seq : UInt32) (data : Bytes) (s' : FlowStream) (out : Bytes) : Prop
  | first (hs : s.nextSeq = none) (hn : s'.nextSeq = some (seqAfter seq data)) (hb : s'.oooBuffer = s.oooBuffer)
      (ho : out ++ s'.assembled = s.assembled ++ data)
  | inOrder (r : List (UInt32 × Bytes)) (hr : r = SortedMap.run seqAfter (seqAfter seq data) s.oooBuffer.toList)
      (hs : s.nextSeq = some seq) (hn : s'.nextSeq = some (SortedMap.runEnd seqAfter (seqAfter seq data) r))
      (hb : s'.oooBuffer.toList = s.oooBuffer.toList.drop r.length)
      (ho : out ++ s'.assembled = s.assembled ++ data ++ r.flatMap (·.2))
  | future (e : UInt32) (hs : s.nextSeq = some e) (he : seq ≠ e) (hf : seq - e < 0x80000000)
      (hn : s'.nextSeq = some e) (hb : s'.oooBuffer = s.oooBuffer.insert seq data)
      (ho : out ++ s'.assembled = s.assembled)
  | past (e : UInt32) (hs : s.nextSeq = some e) (he : seq ≠ e) (hf : ¬ seq - e < 0x80000000)
      (hn : s'.nextSeq = some e) (hb : s'.oooBuffer = s.oooBuffer) (ho : out ++ s'.assembled = s.assembled)

/-- **What one push does.** -/
theorem push_step (s : FlowStream) (now : Instant) (seq : UInt32) {data : Bytes} (hd : data ≠ []) (yieldAt cap : ℕ) :
    PushStep s seq data (s.push now seq data yieldAt cap).1 ((s.push now seq data yieldAt cap).2.getD []) := by
  have hd' : data.isEmpty = false := by simpa using hd
  simp only [push, hd', Bool.false_eq_true, if_false]
  obtain ⟨hn, hb, ho⟩ := yieldOrKeep_spec ({ s with lastSeen := now }.accept seq data) yieldAt cap
  rcases accept_cases { s with lastSeen := now } seq data with
    ⟨hs, ha⟩ | ⟨hs, ha⟩ | ⟨e, hs, he, ⟨hf, ha⟩ | ⟨hf, ha⟩⟩
  · rw [ha] at hn hb ho ⊢
    exact .first hs hn hb ho
  · refine .inOrder _ rfl hs (hn.trans ha.nextSeq) (by rw [hb, ha.buffer]; rfl) ?_
    rw [ho, ha.assembled]
    rfl
  · rw [ha] at hn hb ho ⊢
    exact .future e hs he hf (hn.trans hs) hb ho
  · rw [ha] at hn hb ho ⊢
    exact .past e hs he hf (hn.trans hs) hb ho

/-- An empty segment only touches the time stamp. -/
theorem push_nil (s : FlowStream) (now : Instant) (seq : UInt32) (yieldAt cap : ℕ) :
    s.push now seq [] yieldAt cap = ({ s with lastSeen := now }, none) := rfl

theorem flush_spec (s : FlowStream) : s.flush.1.nextSeq = s.nextSeq ∧ s.flush.1.oooBuffer = s.oooBuffer ∧
    s.flush.1.assembled = [] ∧ s.flush.2.getD [] = s.assembled := by
  unfold flush
  split_ifs with h
  · simpa using h
  · simp

end FlowStream

/-! ## The reassembler -/

/-- Which of the two streams of a map entry. -/
inductive Slot
  | first
  | second
  deriving DecidableEq, Repr

namespace Slot

def other : Slot → Slot
  | first => second
  | second => first

def get : Slot → FlowStream × FlowStream → FlowStream
  | first, e => e.1
  | second, e => e.2

def set : Slot → FlowStream → FlowStream × FlowStream → FlowStream × FlowStream
  | first, s, e => (s, e.2)
  | second, s, e => (e.1, s)

end Slot

structure TcpReassembler where
  streams : AList (fun _ : FlowKey => FlowStream × FlowStream)
  maxBufferSize : ℕ
  yieldThreshold : ℕ
  timeout : Duration

namespace TcpReassembler

def new : TcpReassembler :=
  { streams := ∅, maxBufferSize := 64 * 1024, yieldThreshold := 512, timeout := 60 * 10 ^ 9 }

def withYieldThreshold (r : TcpReassembler) (bytes : ℕ) : TcpReassembler := { r with yieldThreshold := bytes }

/-- `if is_client_to_server == forward { &mut entry.0 } else { &mut entry.1 }`. -/
def slotOf (isClientToServer forward : Bool) : Slot := if isClientToServer = forward then .first else .second

/-- The map entry of a canonical key, new streams if there is none. -/
def entryOr (r : TcpReassembler) (now : Instant) (key : FlowKey) : FlowStream × FlowStream :=
  (r.streams.lookup key).getD (FlowStream.new now, FlowStream.new now)

def pushPayload (r : TcpReassembler) (now : Instant) (key : FlowKey) (payload : Bytes) (seq : UInt32)
    (isClientToServer : Bool) : TcpReassembler × Option Bytes :=
  let (canonicalKey, forward) := key.canonical
  let entry := r.entryOr now canonicalKey
  let slot := slotOf isClientToServer forward
  let (stream, out) := (slot.get entry).push now seq payload r.yieldThreshold r.maxBufferSize
  ({ r with streams := r.streams.insert canonicalKey (slot.set stream entry) }, out)

def closeFlow (r : TcpReassembler) (key : FlowKey) (isClientToServer : Bool) : TcpReassembler × Option Bytes :=
  let (canonicalKey, forward) := key.canonical
  match r.streams.lookup canonicalKey with
  | none => (r, none)
  | some entry =>
    let slot := slotOf isClientToServer forward
    let (stream, out) := (slot.get entry).flush
    ({ r with streams := r.streams.insert canonicalKey (slot.set stream entry) }, out)

def removeFlow (r : TcpReassembler) (key : FlowKey) : TcpReassembler :=
  { r with streams := r.streams.erase key.canonical.1 }

/-- Keep the entries of which one stream is not stale. -/
def cleanupStaleFlows (r : TcpReassembler) (now : Instant) : TcpReassembler :=
  { r with streams :=
      ⟨r.streams.entries.filter fun e => !e.2.1.isStale now r.timeout || !e.2.2.isStale now r.timeout,
        r.streams.nodupKeys.sublist List.filter_sublist⟩ }

def flowCount (r : TcpReassembler) : ℕ := r.streams.entries.length

/-! ## Runs of the reassembler -/

/-- A call of `push_payload`. -/
structure Packet where
  now : Instant
  key : FlowKey
  payload : Bytes
  seq : UInt32
  isClientToServer : Bool

/-- A call of a method that changes the streams. -/
inductive Op
  | pushPayload (p : Packet)
  | closeFlow (key : FlowKey) (isClientToServer : Bool)
  | removeFlow (key : FlowKey)
  | cleanupStaleFlows (now : Instant)

def apply (r : TcpReassembler) : Op → TcpReassembler × Option Bytes
  | .pushPayload p => r.pushPayload p.now p.key p.payload p.seq p.isClientToServer
  | .closeFlow key isClientToServer => r.closeFlow key isClientToServer
  | .removeFlow key => (r.removeFlow key, none)
  | .cleanupStaleFlows now => (r.cleanupStaleFlows now, none)

/-- The stream a packet is pushed to. -/
def addressed (r : TcpReassembler) (p : Packet) : FlowStream :=
  (slotOf p.isClientToServer p.key.canonical.2).get (r.entryOr p.now p.key.canonical.1)

/-- What becomes of it. -/
def pushed (r : TcpReassembler) (p : Packet) : FlowStream :=
  ((r.addressed p).push p.now p.seq p.payload r.yieldThreshold r.maxBufferSize).1

/-- Both streams of every map entry have the property `P`. -/
def All (P : FlowStream → Prop) (r : TcpReassembler) : Prop :=
  ∀ key e, r.streams.lookup key = some e → ∀ slot : Slot, P (slot.get e)

variable {P : FlowStream → Prop} {r : TcpReassembler}

theorem All.entryOr (h : r.All P) (hnew : ∀ t, P (FlowStream.new t)) (now : Instant) (key : FlowKey) (slot : Slot) :
    P (slot.get (r.entryOr now key)) := by
  unfold TcpReassembler.entryOr
  cases hl : r.streams.lookup key with
  | none => cases slot <;> exact hnew now
  | some e => exact h _ e hl slot

theorem All.addressed (h : r.All P) (hnew : ∀ t, P (FlowStream.new t)) (p : Packet) : P (r.addressed p) :=
  h.entryOr hnew _ _ _

/-- Replacing one stream of an entry. -/
theorem all_insert_iff (h : r.All P) {key : FlowKey} {e : FlowStream × FlowStream} (he : ∀ slot : Slot, P (slot.get e))
    (slot : Slot) (s : FlowStream) : { r with streams := r.streams.insert key (slot.set s e) }.All P ↔ P s := by
  have hset : ∀ slot' : Slot, P s → P (slot'.get (slot.set s e)) := by
    intro slot' hs
    have h1 := he .first
    have h2 := he .second
    cases slot <;> cases slot' <;> assumption
  constructor
  · intro hall
    have := hall key (slot.set s e) (AList.lookup_insert _) slot
    cases slot <;> exact this
  · intro hs key' e' hl slot'
    by_cases hk : key' = key
    · subst hk
      rw [AList.lookup_insert] at hl
      obtain rfl := Option.some.inj hl
      exact hset slot' hs
    · rw [AList.lookup_insert_ne hk] at hl
      exact h key' e' hl slot'

/-- **One call** keeps a property of the streams that new ones have and flushing keeps, if the stream it pushes to has
it afterwards. -/
theorem All.apply_iff (h : r.All P) (hnew : ∀ t, P (FlowStream.new t)) (hflush : ∀ s, P s → P s.flush.1) (op : Op) :
    (r.apply op).1.All P ↔ ∀ p, op = .pushPayload p → P (r.pushed p) := by
  cases op with
  | pushPayload p =>
    have he : ∀ slot : Slot, P (slot.get (r.entryOr p.now p.key.canonical.1)) := h.entryOr hnew _ _
    refine (all_insert_iff h he (slotOf p.isClientToServer p.key.canonical.2) _).trans ?_
    constructor
    · rintro hs _ ⟨⟩
      exact hs
    · exact fun hs => hs p rfl
  | closeFlow key c2s =>
    refine iff_of_true ?_ fun _ ho => by cases ho
    cases hl : r.streams.lookup key.canonical.1 with
    | none =>
      simp only [TcpReassembler.apply, closeFlow, hl]
      exact h
    | some e =>
      simp only [TcpReassembler.apply, closeFlow, hl]
      exact (all_insert_iff h (h _ e hl) (slotOf c2s key.canonical.2) _).2 (hflush _ (h _ e hl _))
  | removeFlow key =>
    refine iff_of_true ?_ fun _ ho => by cases ho
    intro key' e hl
    by_cases hk : key' = key.canonical.1
    · subst hk
      simp [TcpReassembler.apply, removeFlow] at hl
    · exact h key' e ((AList.lookup_erase_ne hk).symm.trans hl)
  | cleanupStaleFlows now =>
    refine iff_of_true ?_ fun _ ho => by cases ho
    intro key e hl
    have hmem := List.mem_filter.1 (AList.mem_lookup_iff.1 hl)
    exact h key e (AList.mem_lookup_iff.2 hmem.1)

end TcpReassembler

end ThorFirewall.Reassembler
