import Mathlib
import ThorFirewall.Ids.Flow

/-!
# The statistics of a flow

The packets of a flow go to the two pairs of counters of its entry: those of the lower endpoint to one, those of the
higher one to the other. After any packets there is one entry for each pair of endpoints and protocol that sent one, and
its counters are those of its own packets (`accounting_separate`).

- `key_eq_iff`: two packets have one key exactly if they have the same endpoints, in some order, and protocol;
- `stats_own`: the counters after the packets of one flow;
- `own_client`, `own_server`: which packets of a run these are.

The one entry of a pair is under the key with the lower endpoint in front.
-/

namespace ThorFirewall.Ids

open Std

/-! ## Packets -/

namespace Call

/-- The packet goes from `a` to `b`. -/
def IsFrom (a b : Endpoint) (protocol : UInt8) : Call → Prop
  | tcp src dst _ _ _ => src = a ∧ dst = b ∧ protocol = 6
  | udp src dst _ _ => src = a ∧ dst = b ∧ protocol = 17
  | sweep _ => False

instance (a b : Endpoint) (protocol : UInt8) : DecidablePred (IsFrom a b protocol)
  | tcp _ _ _ _ _ => inferInstanceAs (Decidable (_ ∧ _ ∧ _))
  | udp _ _ _ _ => inferInstanceAs (Decidable (_ ∧ _ ∧ _))
  | sweep _ => inferInstanceAs (Decidable False)

def payloadLen : Call → UInt64
  | tcp _ _ _ n _ => n
  | udp _ _ n _ => n
  | sweep _ => 0

/-- The direction in which the packet is recorded. -/
def dir : Call → FlowDir
  | tcp src dst _ _ _ => (rawKey src dst 6).canonical.2
  | udp src dst _ _ => (rawKey src dst 17).canonical.2
  | sweep _ => .clientToServer

theorem exists_isFrom {c : Call} (h : c.isPacket) : ∃ a b protocol, c.IsFrom a b protocol := by
  cases c with
  | tcp src dst flags n now => exact ⟨src, dst, 6, rfl, rfl, rfl⟩
  | udp src dst n now => exact ⟨src, dst, 17, rfl, rfl, rfl⟩
  | sweep now => cases h

theorem IsFrom.key {c : Call} {a b : Endpoint} {protocol : UInt8} (h : c.IsFrom a b protocol) :
    c.key = some (rawKey a b protocol).canonical.1 ∧ c.dir = (rawKey a b protocol).canonical.2 := by
  cases c with
  | tcp src dst flags n now =>
    obtain ⟨rfl, rfl, rfl⟩ := h
    exact ⟨rfl, rfl⟩
  | udp src dst n now =>
    obtain ⟨rfl, rfl, rfl⟩ := h
    exact ⟨rfl, rfl⟩
  | sweep now => exact h.elim

end Call

/-! ## One key for a pair of endpoints -/

variable {a b : Endpoint} {protocol : UInt8}

theorem rawKey_inj {a' b' : Endpoint} {protocol' : UInt8} :
    rawKey a b protocol = rawKey a' b' protocol' ↔ a = a' ∧ b = b' ∧ protocol = protocol' := by
  cases a
  cases b
  cases a'
  cases b'
  simp only [rawKey, FlowKey.mk.injEq, Endpoint.mk.injEq]
  tauto

/-- The lower endpoint, or the only one. -/
theorem canonical_of_not_below (h : ¬ b.Below a) (protocol : UInt8) :
    (rawKey a b protocol).canonical = (rawKey a b protocol, .clientToServer) := by
  by_cases hab : a = b
  · subst hab
    exact if_pos (.inr ⟨rfl, UInt16.le_refl _⟩)
  · exact (canonical_of_below ((Endpoint.below_or_below hab).resolve_right h) protocol).1

theorem canonical_key (a b : Endpoint) (protocol : UInt8) : ∃ x y, ¬ y.Below x ∧ (a = x ∧ b = y ∨ a = y ∧ b = x) ∧
    (rawKey a b protocol).canonical.1 = rawKey x y protocol := by
  by_cases h : b.Below a
  · refine ⟨b, a, h.not_below, .inr ⟨rfl, rfl⟩, ?_⟩
    rw [(canonical_of_below h protocol).2]
  · refine ⟨a, b, h, .inl ⟨rfl, rfl⟩, ?_⟩
    rw [canonical_of_not_below h]

/-- The key of a packet has its endpoints, the lower one first. -/
theorem exists_of_key {c : Call} {key : FlowKey} (h : c.key = some key) : ∃ a b protocol, ¬ b.Below a ∧
    key = rawKey a b protocol ∧ (c.IsFrom a b protocol ∨ c.IsFrom b a protocol) := by
  have hpacket : c.isPacket := by
    cases c with
    | tcp | udp => rfl
    | sweep now => cases h
  obtain ⟨src, dst, protocol, hfrom⟩ := Call.exists_isFrom hpacket
  obtain ⟨x, y, hxy, hends, hcan⟩ := canonical_key src dst protocol
  rw [hfrom.key.1, hcan, Option.some.injEq] at h
  refine ⟨x, y, protocol, hxy, h.symm, ?_⟩
  rcases hends with ⟨rfl, rfl⟩ | ⟨rfl, rfl⟩
  · exact .inl hfrom
  · exact .inr hfrom

/-- A packet of the higher endpoint goes from the server to the client. -/
theorem Call.IsFrom.server {c : Call} (h : ¬ b.Below a) (hne : a ≠ b) (hfrom : c.IsFrom b a protocol) :
    c.key = some (rawKey a b protocol) ∧ c.dir = .serverToClient := by
  rw [hfrom.key.1, hfrom.key.2, (canonical_of_below ((Endpoint.below_or_below hne).resolve_right h) protocol).2]
  exact ⟨rfl, rfl⟩

theorem Call.IsFrom.client {c : Call} (h : ¬ b.Below a) (hfrom : c.IsFrom a b protocol) :
    c.key = some (rawKey a b protocol) ∧ c.dir = .clientToServer := by
  rw [hfrom.key.1, hfrom.key.2, canonical_of_not_below h]
  exact ⟨rfl, rfl⟩

/-- A packet has the key of a pair exactly if it goes from one of them to the other. -/
theorem key_eq_iff {c : Call} (h : ¬ b.Below a) :
    c.key = some (rawKey a b protocol) ↔ c.IsFrom a b protocol ∨ c.IsFrom b a protocol := by
  constructor
  · intro hkey
    obtain ⟨x, y, p, -, hxy, hfrom⟩ := exists_of_key hkey
    obtain ⟨rfl, rfl, rfl⟩ := rawKey_inj.1 hxy
    exact hfrom
  · rintro (hfrom | hfrom)
    · exact (hfrom.client h).1
    · by_cases heq : a = b
      · subst heq
        exact (hfrom.client h).1
      · exact (hfrom.server h heq).1

/-! ## The packets of one flow -/

/-- The bytes of some packets. -/
def bytesOf (calls : List Call) : ℕ := (calls.map fun c => c.payloadLen.toNat).sum

/-- The counters of a direction, of the packets of one flow. -/
structure Counts (s : FlowStats) (client server : List Call) : Prop where
  packetsC2s : s.packetsC2s = UInt64.ofNat client.length
  bytesC2s : s.bytesC2s = UInt64.ofNat (bytesOf client)
  packetsS2c : s.packetsS2c = UInt64.ofNat server.length
  bytesS2c : s.bytesS2c = UInt64.ofNat (bytesOf server)

theorem counts_new : Counts {} [] [] := ⟨rfl, rfl, rfl, rfl⟩

/-- One packet more. -/
theorem Counts.recordPacket {s : FlowStats} {client server : List Call} (h : Counts s client server) (c : Call)
    (now : ℕ) : Counts (s.recordPacket c.dir c.payloadLen now)
      (client ++ [c].filter (·.dir = .clientToServer)) (server ++ [c].filter (·.dir = .serverToClient)) := by
  obtain ⟨hp, hb, hp', hb'⟩ := h
  have hbytes : bytesOf (client ++ [c]) = bytesOf client + c.payloadLen.toNat := by simp [bytesOf]
  have hbytes' : bytesOf (server ++ [c]) = bytesOf server + c.payloadLen.toNat := by simp [bytesOf]
  cases hdir : c.dir with
  | clientToServer =>
    simp only [hdir, List.filter_cons_of_pos, List.filter_nil, decide_true, reduceCtorEq, decide_false,
      Bool.false_eq_true, not_false_eq_true, List.filter_cons_of_neg, List.append_nil]
    refine ⟨?_, ?_, ?_, ?_⟩
    · rw [FlowStats.packetsC2s_client, hp, List.length_append, List.length_singleton, UInt64.ofNat_add]
      rfl
    · rw [FlowStats.bytesC2s_client, hb, hbytes, UInt64.ofNat_add, UInt64.ofNat_toNat]
    · rw [FlowStats.packetsS2c_client, hp']
    · rw [FlowStats.bytesS2c_client, hb']
  | serverToClient =>
    simp only [hdir, List.filter_cons_of_pos, List.filter_nil, decide_true, reduceCtorEq, decide_false,
      Bool.false_eq_true, not_false_eq_true, List.filter_cons_of_neg, List.append_nil]
    refine ⟨?_, ?_, ?_, ?_⟩
    · rw [FlowStats.packetsC2s_server, hp]
    · rw [FlowStats.bytesC2s_server, hb]
    · rw [FlowStats.packetsS2c_server, hp', List.length_append, List.length_singleton, UInt64.ofNat_add]
      rfl
    · rw [FlowStats.bytesS2c_server, hb', hbytes', UInt64.ofNat_add, UInt64.ofNat_toNat]

/-- A packet records its direction and its bytes in the entry of its flow. -/
theorem entryStep_stats (e : Option FlowEntry) {c : Call} (hc : c.isPacket) : ∃ e' now, entryStep e c = some e' ∧
    e'.stats = ((e.map FlowEntry.stats).getD {}).recordPacket c.dir c.payloadLen now := by
  cases c with
  | tcp src dst flags n now => exact ⟨_, now, rfl, by cases e <;> rfl⟩
  | udp src dst n now => exact ⟨_, now, rfl, by cases e <;> rfl⟩
  | sweep now => cases hc

/-- **The counters after the packets of one flow.** -/
theorem stats_own {calls : List Call} (hcalls : ∀ c ∈ calls, c.isPacket) :
    (calls = [] ∧ calls.foldl entryStep none = none) ∨ ∃ e, calls.foldl entryStep none = some e ∧
      Counts e.stats (calls.filter (·.dir = .clientToServer)) (calls.filter (·.dir = .serverToClient)) := by
  induction calls using List.reverseRecOn with
  | nil => exact .inl ⟨rfl, rfl⟩
  | append_singleton calls c ih =>
    right
    rw [List.foldl_concat, List.filter_append, List.filter_append]
    obtain ⟨e', now, he', hstats⟩ :=
      entryStep_stats (calls.foldl entryStep none) (hcalls c (List.mem_append_right _ List.mem_cons_self))
    refine ⟨e', he', ?_⟩
    rw [hstats]
    rcases ih fun c' hc' => hcalls c' (List.mem_append_left _ hc') with ⟨rfl, hnone⟩ | ⟨e, he, hcounts⟩
    · exact counts_new.recordPacket c now
    · rw [he]
      exact hcounts.recordPacket c now

/-! ## The packets of a run -/

/-- The packets from one endpoint to another. -/
def sent (a b : Endpoint) (protocol : UInt8) (calls : List Call) : List Call := calls.filter (·.IsFrom a b protocol)

theorem own_client (h : ¬ b.Below a) (calls : List Call) :
    (calls.filter fun c => c.key = some (rawKey a b protocol)).filter (·.dir = .clientToServer) =
      sent a b protocol calls := by
  rw [List.filter_filter]
  refine List.filter_congr fun c _ => ?_
  rw [← Bool.decide_and, decide_eq_decide]
  constructor
  · rintro ⟨hdir, hkey⟩
    rcases (key_eq_iff h).1 hkey with hfrom | hfrom
    · exact hfrom
    · by_cases heq : a = b
      · rwa [heq] at hfrom ⊢
      · rw [(hfrom.server h heq).2] at hdir
        cases hdir
  · intro hfrom
    exact ⟨(hfrom.client h).2, (hfrom.client h).1⟩

/-- Where both endpoints are the same, the server has sent nothing. -/
theorem own_server (h : ¬ b.Below a) (calls : List Call) :
    (calls.filter fun c => c.key = some (rawKey a b protocol)).filter (·.dir = .serverToClient) =
      if a = b then [] else sent b a protocol calls := by
  rw [List.filter_filter]
  split_ifs with heq
  · subst heq
    refine List.filter_eq_nil_iff.2 fun c _ hc => ?_
    rw [← Bool.decide_and, decide_eq_true_eq, key_eq_iff h, or_self] at hc
    rw [(hc.2.client h).2] at hc
    cases hc.1
  · refine List.filter_congr fun c _ => ?_
    rw [← Bool.decide_and, decide_eq_decide]
    constructor
    · rintro ⟨hdir, hkey⟩
      rcases (key_eq_iff h).1 hkey with hfrom | hfrom
      · rw [(hfrom.client h).2] at hdir
        cases hdir
      · exact hfrom
    · intro hfrom
      exact ⟨(hfrom.server h heq).2, (hfrom.server h heq).1⟩

/-- The flows of a run are those of its packets. -/
theorem mem_run_iff {calls : List Call} (hcalls : ∀ c ∈ calls, c.isPacket) (key : FlowKey) :
    key ∈ (FlowTable.new.run calls).flows ↔ ∃ c ∈ calls, c.key = some key := by
  rw [TreeMap.mem_iff_isSome_getElem?, run_flows _ hcalls, FlowTable.new, TreeMap.getElem?_emptyc]
  have hown : ∀ c ∈ calls.filter fun c => c.key = some key, c.isPacket := fun c hc => hcalls c (List.mem_of_mem_filter hc)
  rcases stats_own hown with ⟨hnil, hnone⟩ | ⟨e, hsome, -⟩
  · refine iff_of_false (by rw [hnone]; exact Bool.false_ne_true) ?_
    rintro ⟨c, hc, hkey⟩
    exact List.filter_eq_nil_iff.1 hnil c hc (decide_eq_true hkey)
  · refine iff_of_true (by rw [hsome]; rfl) ?_
    by_contra hno
    have hnil : (calls.filter fun c => c.key = some key) = [] :=
      List.filter_eq_nil_iff.2 fun c hc hkey => hno ⟨c, hc, of_decide_eq_true hkey⟩
    rw [hnil] at hsome
    cases hsome

/-- The counters of an entry. -/
theorem counts_run {calls : List Call} (hcalls : ∀ c ∈ calls, c.isPacket) (h : ¬ b.Below a) {e : FlowEntry}
    (he : (FlowTable.new.run calls).flows[rawKey a b protocol]? = some e) :
    Counts e.stats (sent a b protocol calls) (if a = b then [] else sent b a protocol calls) := by
  rw [run_flows _ hcalls, FlowTable.new, TreeMap.getElem?_emptyc] at he
  rw [← own_client h, ← own_server h]
  have hown : ∀ c ∈ calls.filter fun c => c.key = some (rawKey a b protocol), c.isPacket :=
    fun c hc => hcalls c (List.mem_of_mem_filter hc)
  rcases stats_own hown with ⟨-, hnone⟩ | ⟨e', hsome, hcounts⟩
  · rw [hnone] at he
    cases he
  · rw [hsome] at he
    cases he
    exact hcounts

/-- **The accounting of flows is separate.** After any packets, in any order:
each pair of endpoints with a protocol that sent a packet has one entry, and there are no other entries; the counters of
an entry are the numbers and the bytes of the packets of its lower endpoint and of its higher one (all of them of the
first kind where both are the same), as long as these are below 2^64; and a packet changes no entry but its own. -/
theorem accounting_separate (calls : List Call) (hcalls : ∀ c ∈ calls, c.isPacket) :
    (∀ c ∈ calls, ∀ a b protocol, c.IsFrom a b protocol → ∃! key : FlowKey,
      key ∈ (FlowTable.new.run calls).flows ∧ (key = rawKey a b protocol ∨ key = rawKey b a protocol)) ∧
    (∀ key ∈ (FlowTable.new.run calls).flows, ∃ c ∈ calls, ∃ a b protocol, c.IsFrom a b protocol ∧
      (key = rawKey a b protocol ∨ key = rawKey b a protocol)) ∧
    (∀ (a b : Endpoint) (protocol : UInt8) (e : FlowEntry), ¬ b.Below a →
      (FlowTable.new.run calls).flows[rawKey a b protocol]? = some e →
      let client := sent a b protocol calls
      let server := if a = b then [] else sent b a protocol calls
      (client.length < 2 ^ 64 → e.stats.packetsC2s.toNat = client.length) ∧
      (bytesOf client < 2 ^ 64 → e.stats.bytesC2s.toNat = bytesOf client) ∧
      (server.length < 2 ^ 64 → e.stats.packetsS2c.toNat = server.length) ∧
      (bytesOf server < 2 ^ 64 → e.stats.bytesS2c.toNat = bytesOf server)) ∧
    ∀ (t : FlowTable) (c : Call) (key : FlowKey), c.isPacket → c.key ≠ some key →
      (t.step c).flows[key]? = t.flows[key]? := by
  refine ⟨fun c hc a b protocol hfrom => ?_, fun key hkey => ?_, fun a b protocol e hab he => ?_, fun t c key hc hkey => ?_⟩
  · obtain ⟨x, y, hxy, hends, hcan⟩ := canonical_key a b protocol
    refine ⟨rawKey x y protocol, ⟨(mem_run_iff hcalls _).2 ⟨c, hc, by rw [hfrom.key.1, hcan]⟩, ?_⟩, ?_⟩
    · rcases hends with ⟨rfl, rfl⟩ | ⟨rfl, rfl⟩
      · exact .inl rfl
      · exact .inr rfl
    · -- the other order of two endpoints is no key of the table
      rintro key ⟨hkey, hor⟩
      obtain ⟨c', -, hc'⟩ := (mem_run_iff hcalls key).1 hkey
      obtain ⟨x', y', p, hxy', rfl, -⟩ := exists_of_key hc'
      have hcases : x' = x ∧ y' = y ∧ p = protocol ∨ x' = y ∧ y' = x ∧ p = protocol := by
        rw [rawKey_inj, rawKey_inj] at hor
        rcases hends with ⟨rfl, rfl⟩ | ⟨rfl, rfl⟩
        · exact hor
        · exact hor.symm
      rcases hcases with ⟨rfl, rfl, rfl⟩ | ⟨rfl, rfl, rfl⟩
      · rfl
      · by_cases heq : x' = y'
        · rw [heq]
        · rcases Endpoint.below_or_below heq with h | h
          · exact absurd h hxy
          · exact absurd h hxy'
  · obtain ⟨c, hc, hk⟩ := (mem_run_iff hcalls key).1 hkey
    obtain ⟨a, b, protocol, -, rfl, hfrom | hfrom⟩ := exists_of_key hk
    · exact ⟨c, hc, a, b, protocol, hfrom, .inl rfl⟩
    · exact ⟨c, hc, b, a, protocol, hfrom, .inr rfl⟩
  · obtain ⟨hp, hb, hp', hb'⟩ := counts_run hcalls hab he
    intro client server
    refine ⟨fun h => ?_, fun h => ?_, fun h => ?_, fun h => ?_⟩
    · rw [hp, UInt64.toNat_ofNat_of_lt' h]
    · rw [hb, UInt64.toNat_ofNat_of_lt' h]
    · rw [hp', UInt64.toNat_ofNat_of_lt' h]
    · rw [hb', UInt64.toNat_ofNat_of_lt' h]
  · rw [step_flows t hc, if_neg hkey]

/-- A request and its response over TCP, and a query over UDP with the same addresses and ports. -/
def exchange : List Call :=
  [.tcp ⟨0x0A000002, 50000⟩ ⟨0x0A000001, 80⟩ { ack := true } 300 1, .udp ⟨0x0A000002, 50000⟩ ⟨0x0A000001, 80⟩ 48 2,
    .tcp ⟨0x0A000001, 80⟩ ⟨0x0A000002, 50000⟩ { ack := true } 1400 3]

/-- The client has the higher address: its bytes are those of the higher endpoint. -/
theorem accounting_exchange :
    ∃ e, (FlowTable.new.run exchange).flows[rawKey ⟨0x0A000001, 80⟩ ⟨0x0A000002, 50000⟩ 6]? = some e ∧
      e.stats.bytesC2s.toNat = 1400 ∧ e.stats.bytesS2c.toNat = 300 := by
  obtain ⟨-, -, hcounts, -⟩ := accounting_separate exchange (by decide)
  have hsome : ((FlowTable.new.run exchange).flows[rawKey ⟨0x0A000001, 80⟩ ⟨0x0A000002, 50000⟩ 6]?).isSome := by
    decide +kernel
  obtain ⟨e, he⟩ := Option.isSome_iff_exists.1 hsome
  obtain ⟨-, hclient, -, hserver⟩ := hcounts _ _ 6 e (by decide) he
  exact ⟨e, he, hclient (by decide), hserver (by decide)⟩

end ThorFirewall.Ids
