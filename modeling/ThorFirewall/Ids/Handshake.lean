import Mathlib
import ThorFirewall.Ids.Flow

/-!
# The direction of a connection

The client of a connection is the endpoint that sends the SYN. The flow table takes the lower endpoint for it, so that a
handshake that the higher endpoint begins finds the transition table with the directions swapped: it stays in its first
state, and the packets of the client count as sent by the server (`higher_handshake`). `handshake_iff` says that a
handshake is followed exactly if the lower endpoint begins it.
-/

namespace ThorFirewall.Ids

/-- The three packets of a handshake that `a` begins. -/
structure Handshake (a b : Endpoint) where
  syn : TcpFlags
  synAck : TcpFlags
  ack : TcpFlags
  isSynOnly : syn.isSynOnly = true
  isSynAck : synAck.isSynAck = true
  isAckOnly : ack.isAckOnly = true
  synLen : UInt64
  synAckLen : UInt64
  ackLen : UInt64
  synTime : ℕ
  synAckTime : ℕ
  ackTime : ℕ

namespace Handshake

variable {a b : Endpoint}

def packets (h : Handshake a b) : List Call :=
  [.tcp a b h.syn h.synLen h.synTime, .tcp b a h.synAck h.synAckLen h.synAckTime, .tcp a b h.ack h.ackLen h.ackTime]

/-- The key of the flow. -/
def key (_ : Handshake a b) : FlowKey := (rawKey a b 6).canonical.1

/-- The packets of the flow are those of the handshake; the others are of other flows. -/
structure Interleaved (h : Handshake a b) (calls : List Call) : Prop where
  packet : ∀ c ∈ calls, c.isPacket
  own : (calls.filter fun c => c.key = some h.key) = h.packets

/-- The connection is established, and what `a` has sent, and nothing else, counts as sent by the client. -/
def Followed (h : Handshake a b) (t : FlowTable) : Prop :=
  ∃ entry, t.flows[h.key]? = some entry ∧ entry.state = .established ∧
    entry.stats.packetsC2s = 2 ∧ entry.stats.bytesC2s = h.synLen + h.ackLen

/-! ## The flags -/

theorem syn_flags (h : Handshake a b) : h.syn.isRst = false ∧ h.syn.isSynAck = false ∧ h.syn.isAckOnly = false := by
  have hflags := h.isSynOnly
  simp only [TcpFlags.isSynOnly, Bool.and_eq_true, Bool.not_eq_true'] at hflags
  simp [TcpFlags.isRst, TcpFlags.isSynAck, TcpFlags.isAckOnly, hflags]

theorem synAck_isRst (h : Handshake a b) : h.synAck.isRst = false := by
  have hflags := h.isSynAck
  simp only [TcpFlags.isSynAck, Bool.and_eq_true, Bool.not_eq_true'] at hflags
  exact hflags.2

theorem ack_flags (h : Handshake a b) : h.ack.isRst = false ∧ h.ack.isSynAck = false := by
  have hflags := h.isAckOnly
  simp only [TcpFlags.isAckOnly, Bool.and_eq_true, Bool.not_eq_true'] at hflags
  simp [TcpFlags.isRst, TcpFlags.isSynAck, hflags]

/-! ## The entry of the flow -/

/-- The lower endpoint begins: the states are those of the handshake. -/
theorem lower_handshake (h : Handshake a b) (hbelow : a.Below b) : ∃ entry, h.packets.foldl entryStep none = some entry ∧
    entry.state = .established ∧ entry.stats.packetsC2s = 2 ∧ entry.stats.bytesC2s = h.synLen + h.ackLen := by
  obtain ⟨hab, hba⟩ := canonical_of_below hbelow 6
  simp only [packets, List.foldl_cons, List.foldl_nil, entryStep_tcp hab, entryStep_tcp hba, Option.getD_none,
    Option.getD_some]
  refine ⟨_, rfl, ?_⟩
  simp [FlowEntry.applyFlags, FlowEntry.nextState, FlowEntry.new, h.syn_flags, h.synAck_isRst, h.ack_flags, h.isSynAck,
    h.isAckOnly]

/-- The higher endpoint begins: the state is still the first, and what it has sent counts as the server's. -/
theorem higher_handshake (h : Handshake a b) (hbelow : b.Below a) : ∃ entry, h.packets.foldl entryStep none = some entry ∧
    entry.state = .synSent ∧ entry.stats.packetsS2c = 2 ∧ entry.stats.bytesS2c = h.synLen + h.ackLen := by
  obtain ⟨hba, hab⟩ := canonical_of_below hbelow 6
  simp only [packets, List.foldl_cons, List.foldl_nil, entryStep_tcp hab, entryStep_tcp hba, Option.getD_none,
    Option.getD_some]
  refine ⟨_, rfl, ?_⟩
  simp [FlowEntry.applyFlags, FlowEntry.nextState, FlowEntry.new, h.syn_flags, h.synAck_isRst, h.ack_flags]

/-- **When the direction follows the connection.** On a fresh flow, and with any packets of other flows in between, a
handshake is followed exactly if the lower endpoint begins it. -/
theorem handshake_iff (hne : a ≠ b) (h : Handshake a b) {t : FlowTable} (hfresh : t.flows[h.key]? = none)
    {calls : List Call} (hcalls : h.Interleaved calls) : h.Followed (t.run calls) ↔ a.Below b := by
  have hentry : (t.run calls).flows[h.key]? = h.packets.foldl entryStep none := by
    rw [run_flows t hcalls.packet, hcalls.own, hfresh]
  rw [Followed, hentry]
  rcases Endpoint.below_or_below hne with hbelow | hbelow
  · exact iff_of_true (h.lower_handshake hbelow) hbelow
  · refine iff_of_false ?_ hbelow.not_below
    rintro ⟨entry, hsome, hstate, -⟩
    obtain ⟨entry', hsome', hstate', -⟩ := h.higher_handshake hbelow
    rw [hsome] at hsome'
    cases hsome'
    rw [hstate] at hstate'
    cases hstate'

end Handshake

/-- A handshake without data. -/
def plainHandshake (a b : Endpoint) : Handshake a b where
  syn := { syn := true }
  synAck := { syn := true, ack := true }
  ack := { ack := true }
  isSynOnly := rfl
  isSynAck := rfl
  isAckOnly := rfl
  synLen := 0
  synAckLen := 0
  ackLen := 0
  synTime := 1
  synAckTime := 2
  ackTime := 3

/-- The client has the lower address; a query of the same host comes in between. -/
theorem handshake_lower_client : (plainHandshake ⟨0x0A000001, 50000⟩ ⟨0x0A000002, 80⟩).Followed (FlowTable.new.run
    [.tcp ⟨0x0A000001, 50000⟩ ⟨0x0A000002, 80⟩ { syn := true } 0 1, .udp ⟨0x0A000001, 5353⟩ ⟨0x0A000002, 53⟩ 48 1,
      .tcp ⟨0x0A000002, 80⟩ ⟨0x0A000001, 50000⟩ { syn := true, ack := true } 0 2,
      .tcp ⟨0x0A000001, 50000⟩ ⟨0x0A000002, 80⟩ { ack := true } 0 3]) :=
  (Handshake.handshake_iff (by decide) (plainHandshake ⟨0x0A000001, 50000⟩ ⟨0x0A000002, 80⟩) rfl
    ⟨by decide, by decide +kernel⟩).2 (by decide)

/-- The client has the higher address. -/
theorem handshake_higher_client :
    ¬ ∀ (a b : Endpoint) (h : Handshake a b) (t : FlowTable) (calls : List Call), a ≠ b → t.flows[h.key]? = none →
      h.Interleaved calls → h.Followed (t.run calls) := by
  intro hall
  have hinter : (plainHandshake ⟨0x0A000002, 50000⟩ ⟨0x0A000001, 80⟩).Interleaved
      [.tcp ⟨0x0A000002, 50000⟩ ⟨0x0A000001, 80⟩ { syn := true } 0 1,
        .tcp ⟨0x0A000001, 80⟩ ⟨0x0A000002, 50000⟩ { syn := true, ack := true } 0 2,
        .tcp ⟨0x0A000002, 50000⟩ ⟨0x0A000001, 80⟩ { ack := true } 0 3] := ⟨by decide, by decide +kernel⟩
  obtain ⟨entry, hsome, hstate, -⟩ := hall _ _ _ FlowTable.new _ (by decide) rfl hinter
  obtain ⟨entry', hsome', hstate', -⟩ :=
    (plainHandshake ⟨0x0A000002, 50000⟩ ⟨0x0A000001, 80⟩).higher_handshake (by decide)
  rw [run_flows _ hinter.packet, hinter.own] at hsome
  cases hsome.symm.trans hsome'
  rw [hstate] at hstate'
  cases hstate'

end ThorFirewall.Ids
