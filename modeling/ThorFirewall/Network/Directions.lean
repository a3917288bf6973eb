import Mathlib
import ThorFirewall.Network.Reassembler

/-!
# The two directions of a connection

`push_payload` picks one of the two streams of a map entry from two bits: whether the key of the packet is already the
canonical one, and whether the packet comes from the client. When every packet carries the key of its own source and
destination both bits change with the direction, so both directions get the same stream: `separated_iff` says that
they are kept apart only when the two endpoints are the same or only one side sends.
-/

namespace ThorFirewall.Reassembler

open TcpReassembler

structure Endpoint where
  ip : UInt32
  port : UInt16
  deriving DecidableEq, Repr

/-- A client and a server. -/
structure Connection where
  client : Endpoint
  server : Endpoint
  protocol : UInt8

/-- A packet of a connection; it is from the client or from the server. -/
structure Sent where
  fromClient : Bool
  now : Instant
  payload : Bytes
  seq : UInt32

namespace Connection

/-- The key of packets from `src` to `dst`. -/
def keyOf (c : Connection) (src dst : Endpoint) : FlowKey :=
  { srcIp := src.ip, dstIp := dst.ip, srcPort := src.port, dstPort := dst.port, protocol := c.protocol }

/-- The call for a packet: the key of its own source and destination, and whether the client sent it. -/
def packet (c : Connection) (p : Sent) : Packet :=
  { now := p.now, key := if p.fromClient then c.keyOf c.client c.server else c.keyOf c.server c.client,
    payload := p.payload, seq := p.seq, isClientToServer := p.fromClient }

end Connection

/-- Whatever the reassembler holds, the packet is pushed to the stream `slot` of the entry `key`. -/
def SentTo (p : Packet) (key : FlowKey) (slot : Slot) : Prop :=
  ∀ r : TcpReassembler,
    let entry := r.entryOr p.now key
    let pushed := (slot.get entry).push p.now p.seq p.payload r.yieldThreshold r.maxBufferSize
    r.pushPayload p.now p.key p.payload p.seq p.isClientToServer =
      ({ r with streams := r.streams.insert key (slot.set pushed.1 entry) }, pushed.2)

/-- All packets of the client go to one stream and all packets of the server to the other one of the same entry. -/
def Separated (c : Connection) (ps : List Sent) : Prop :=
  ∃ key slot, ∀ p ∈ ps, SentTo (c.packet p) key (if p.fromClient then slot else slot.other)

theorem sentTo (p : Packet) : SentTo p p.key.canonical.1 (slotOf p.isClientToServer p.key.canonical.2) :=
  fun _ => rfl

/-- A push sets the time stamp. -/
theorem push_new_lastSeen (t now : Instant) (seq : UInt32) (data : Bytes) (yieldAt cap : ℕ) :
    ((FlowStream.new t).push now seq data yieldAt cap).1.lastSeen = now := by
  unfold FlowStream.push
  split_ifs
  · rfl
  · unfold FlowStream.yieldOrKeep
    dsimp only
    split_ifs <;> rfl

/-- A packet is pushed to one stream only. -/
theorem SentTo.unique {p : Packet} {key key' : FlowKey} {slot slot' : Slot} (h : SentTo p key slot)
    (h' : SentTo p key' slot') : key = key' ∧ slot = slot' := by
  -- the key shows on an empty map, the slot on an entry whose streams have a later time stamp
  let later := (FlowStream.new (p.now + 1), FlowStream.new (p.now + 1))
  let r : TcpReassembler := { TcpReassembler.new with streams := AList.singleton key later }
  have hkey : key = key' := by
    have he := congrArg (fun x => x.1.streams.lookup key) ((h .new).symm.trans (h' .new))
    simp only [AList.lookup_insert] at he
    by_contra hne
    rw [AList.lookup_insert_ne hne] at he
    cases he
  subst hkey
  refine ⟨rfl, ?_⟩
  have hentry : r.entryOr p.now key = later := by simp [r, TcpReassembler.entryOr, AList.singleton, AList.lookup]
  have he := congrArg (fun x => x.1.streams.lookup key) ((h r).symm.trans (h' r))
  simp only [AList.lookup_insert, Option.some.injEq, hentry] at he
  have hseen := push_new_lastSeen (p.now + 1) p.now p.seq p.payload r.yieldThreshold r.maxBufferSize
  have hne : ∀ s : FlowStream, s.lastSeen = p.now → s ≠ FlowStream.new (p.now + 1) := by
    rintro s hs rfl
    exact absurd hs (Nat.succ_ne_self _)
  cases slot <;> cases slot'
  · rfl
  · exact absurd (congrArg Prod.fst he) (hne _ hseen)
  · exact absurd (congrArg Prod.snd he) (hne _ hseen)
  · rfl

/-- A key is canonical unless its source is the higher endpoint. -/
def Endpoint.le (a b : Endpoint) : Prop := a.ip < b.ip ∨ a.ip = b.ip ∧ a.port ≤ b.port

theorem canonical_keyOf_le (c : Connection) {a b : Endpoint} (h : a.le b) :
    (c.keyOf a b).canonical = (c.keyOf a b, true) :=
  if_pos h

theorem canonical_keyOf_not_le (c : Connection) {a b : Endpoint} (h : ¬ a.le b) :
    (c.keyOf a b).canonical = (c.keyOf b a, false) :=
  if_neg h

theorem Endpoint.le_total (a b : Endpoint) : a.le b ∨ b.le a := by
  unfold Endpoint.le
  simp only [UInt32.lt_iff_toNat_lt, UInt16.le_iff_toNat_le, ← UInt32.toNat_inj]
  omega

theorem Endpoint.le_antisymm {a b : Endpoint} (h : a.le b) (h' : b.le a) : a = b := by
  obtain ⟨ip, port⟩ := a
  obtain ⟨ip', port'⟩ := b
  unfold Endpoint.le at h h'
  simp only [UInt32.lt_iff_toNat_lt, UInt16.le_iff_toNat_le, ← UInt32.toNat_inj] at h h'
  rw [Endpoint.mk.injEq, ← UInt32.toNat_inj, ← UInt16.toNat_inj]
  omega

/-- Where the packets of a connection go: to one stream of one entry if the endpoints differ. -/
theorem sentTo_packet (c : Connection) (h : c.client ≠ c.server) : ∃ key slot, ∀ p, SentTo (c.packet p) key slot := by
  rcases c.client.le_total c.server with hle | hle
  · have hnot : ¬ c.server.le c.client := fun h' => h (Endpoint.le_antisymm hle h')
    refine ⟨c.keyOf c.client c.server, .first, fun p => ?_⟩
    have hp := sentTo (c.packet p)
    cases hf : p.fromClient <;>
      simpa [Connection.packet, hf, canonical_keyOf_le c hle, canonical_keyOf_not_le c hnot, slotOf] using hp
  · have hnot : ¬ c.client.le c.server := fun h' => h (Endpoint.le_antisymm h' hle)
    refine ⟨c.keyOf c.server c.client, .second, fun p => ?_⟩
    have hp := sentTo (c.packet p)
    cases hf : p.fromClient <;>
      simpa [Connection.packet, hf, canonical_keyOf_le c hle, canonical_keyOf_not_le c hnot, slotOf] using hp

/-- If the endpoints are the same the directions are kept apart. -/
theorem sentTo_packet_self (c : Connection) (h : c.client = c.server) (p : Sent) :
    SentTo (c.packet p) (c.keyOf c.client c.client) (if p.fromClient then .first else .second) := by
  have hle : c.client.le c.client := Or.inr ⟨rfl, UInt16.le_refl _⟩
  have hp := sentTo (c.packet p)
  cases hf : p.fromClient <;> simpa [Connection.packet, hf, ← h, canonical_keyOf_le c hle, slotOf] using hp

theorem Slot.other_ne (slot : Slot) : slot.other ≠ slot := by
  cases slot <;> simp [Slot.other]

theorem Slot.other_other (slot : Slot) : slot.other.other = slot := by
  cases slot <;> rfl

/-- The directions of a connection are kept apart exactly when its endpoints are the same or only one side sends. -/
theorem separated_iff (c : Connection) (ps : List Sent) :
    Separated c ps ↔ c.client = c.server ∨ (∀ p ∈ ps, p.fromClient = true) ∨ ∀ p ∈ ps, p.fromClient = false := by
  constructor
  · rintro ⟨key, slot, hsep⟩
    by_contra hnot
    push Not at hnot
    obtain ⟨hne, ⟨q, hq, hqs⟩, ⟨p, hp, hpc⟩⟩ := hnot
    obtain ⟨key', slot', hall⟩ := sentTo_packet c hne
    -- a packet of each side, both in the same stream
    have h1 := (hsep p hp).unique (hall p)
    have h2 := (hsep q hq).unique (hall q)
    rw [if_pos (by simpa using hpc)] at h1
    rw [if_neg hqs] at h2
    exact slot.other_ne (h2.2.trans h1.2.symm)
  · intro h
    by_cases heq : c.client = c.server
    · exact ⟨_, .first, fun p _ => sentTo_packet_self c heq p⟩
    · obtain ⟨key, slot, hall⟩ := sentTo_packet c heq
      rcases h.resolve_left heq with honly | honly
      · refine ⟨key, slot, fun p hp => ?_⟩
        rw [if_pos (honly p hp)]
        exact hall p
      · refine ⟨key, slot.other, fun p hp => ?_⟩
        rw [if_neg (by simp [honly p hp]), slot.other_other]
        exact hall p

/-- A request from `10.0.0.1:12345` to `10.0.0.2:80` and the answer share a stream. -/
theorem separated_request : ¬ ∀ (c : Connection) (ps : List Sent), Separated c ps := by
  intro h
  let c : Connection := ⟨⟨0x0a000001, 12345⟩, ⟨0x0a000002, 80⟩, 6⟩
  obtain ⟨key, slot, hsep⟩ := h c [⟨true, 0, [72], 0⟩, ⟨false, 0, [79], 0⟩]
  obtain ⟨key', slot', hall⟩ := sentTo_packet c (by decide)
  have h1 := (hsep ⟨true, 0, [72], 0⟩ (by simp)).unique (hall _)
  have h2 := (hsep ⟨false, 0, [79], 0⟩ (by simp)).unique (hall _)
  exact slot.other_ne (h2.2.trans h1.2.symm)

end ThorFirewall.Reassembler
