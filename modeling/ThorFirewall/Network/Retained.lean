import Mathlib
import ThorFirewall.Network.Reassembler

/-!
# How many bytes the reassembler keeps

`retained` counts the payload bytes a flow stream keeps: the assembled ones and those of the out-of-order buffer. The
cap is compared with `totalBytes`, which counts the assembled ones only (`Tidy`), so a future segment is buffered
whatever is retained already.

* `FlowStream.retained_push_iff`: a push keeps the retained bytes within the cap exactly when it `Fits`;
* `retained_le_iff_fits`: in every run of the reassembler they stay within the cap exactly when every push fits.
-/

namespace ThorFirewall.Reassembler

open SortedMap

/-- The payload bytes of buffer entries. -/
def payloadBytes (es : List (UInt32 × Bytes)) : ℕ := (es.map (·.2.length)).sum

theorem payloadBytes_append (es es' : List (UInt32 × Bytes)) :
    payloadBytes (es ++ es') = payloadBytes es + payloadBytes es' := by
  simp [payloadBytes]

theorem length_flatMap_payload (es : List (UInt32 × Bytes)) : (es.flatMap (·.2)).length = payloadBytes es := by
  simp [payloadBytes, List.length_flatMap]

namespace FlowStream

/-- The payload bytes kept for one direction. -/
def retained (s : FlowStream) : ℕ := s.assembled.length + payloadBytes s.oooBuffer.toList

/-- The bytes of the buffered segments that follow one another from `e` on. -/
def contiguous (s : FlowStream) (e : UInt32) : ℕ := payloadBytes (run seqAfter e s.oooBuffer.toList)

@[simp] theorem contiguous_extend (s : FlowStream) (data : Bytes) (next e : UInt32) :
    (s.extend data next).contiguous e = s.contiguous e := rfl

/-- Draining moves the contiguous bytes from the buffer to the assembled ones. -/
theorem Drained.lengths {s s' : FlowStream} {e : UInt32} (h : Drained s e s') :
    s'.assembled.length = s.assembled.length + s.contiguous e ∧
      payloadBytes s'.oooBuffer.toList + s.contiguous e = payloadBytes s.oooBuffer.toList := by
  have hsplit := payloadBytes_append (run seqAfter e s.oooBuffer.toList)
    (s.oooBuffer.toList.drop (run seqAfter e s.oooBuffer.toList).length)
  rw [run_append_drop] at hsplit
  constructor
  · rw [h.assembled, List.length_append, length_flatMap_payload, contiguous]
  · rw [h.buffer, hsplit, contiguous, Nat.add_comm]

/-- When a push keeps the retained bytes within the cap: an in-order segment fits, or it makes the stream hand out
what is assembled; a future one fits in the place of the segment it replaces. -/
def Fits (s : FlowStream) (seq : UInt32) (data : Bytes) (yieldAt cap : ℕ) : Prop :=
  match s.nextSeq with
  | none => True
  | some e =>
    if seq = e then
      s.retained + data.length ≤ cap ∨
        min yieldAt (cap + 1) ≤ s.assembled.length + data.length + s.contiguous (seqAfter e data)
    else seq - e < 0x80000000 → s.retained + data.length ≤ cap + (s.oooBuffer[seq]?.map List.length).getD 0

/-- What holds of every stream between two calls. -/
structure Tidy (yieldAt cap : ℕ) (s : FlowStream) : Prop where
  total : s.totalBytes = s.assembled.length
  le_cap : s.assembled.length ≤ cap
  below : s.assembled = [] ∨ s.assembled.length < yieldAt
  fresh : s.nextSeq = none → s.oooBuffer.toList = []

variable {yieldAt cap : ℕ} {s : FlowStream}

theorem tidy_new (yieldAt cap : ℕ) (now : Instant) : Tidy yieldAt cap (new now) :=
  ⟨rfl, Nat.zero_le _, Or.inl rfl, fun _ => rfl⟩

/-- The end of a push hands out everything assembled, or keeps it within the cap and below the threshold. -/
theorem yieldOrKeep_cases (yieldAt cap : ℕ) (ht : s.totalBytes = s.assembled.length) :
    (min yieldAt (cap + 1) ≤ s.assembled.length ∧
        (s.yieldOrKeep yieldAt cap).1 = { s with assembled := [], totalBytes := 0 }) ∨
      (s.assembled.length < min yieldAt (cap + 1) ∧ (s.yieldOrKeep yieldAt cap).1 = s) := by
  unfold yieldOrKeep split
  split_ifs with h1 h2
  · exact Or.inl ⟨by omega, rfl⟩
  · exact Or.inl ⟨by omega, rfl⟩
  · exact Or.inr ⟨by omega, rfl⟩

theorem tidy_yieldOrKeep (ht : s.totalBytes = s.assembled.length) (hf : s.nextSeq = none → s.oooBuffer.toList = []) :
    Tidy yieldAt cap (s.yieldOrKeep yieldAt cap).1 := by
  rcases yieldOrKeep_cases yieldAt cap ht with ⟨_, he⟩ | ⟨hlt, he⟩
  · rw [he]
    exact ⟨rfl, Nat.zero_le _, Or.inl rfl, hf⟩
  · rw [he]
    exact ⟨ht, by omega, Or.inr (by omega), hf⟩

/-- A tidy stream is not handed out at the end of a push that did not append to it. -/
theorem Tidy.retained_yieldOrKeep (h : Tidy yieldAt cap s) :
    (s.yieldOrKeep yieldAt cap).1.retained = s.retained := by
  rcases yieldOrKeep_cases yieldAt cap h.total with ⟨hle, he⟩ | ⟨_, he⟩
  · have hnil : s.assembled = [] := by
      have := h.le_cap
      rcases h.below with hnil | hlt
      · exact hnil
      · omega
    rw [he, retained, retained, hnil]
  · rw [he]

theorem Tidy.accept (h : Tidy yieldAt cap s) (seq : UInt32) (data : Bytes) :
    (s.accept seq data).totalBytes = (s.accept seq data).assembled.length ∧
      ((s.accept seq data).nextSeq = none → (s.accept seq data).oooBuffer.toList = []) := by
  have ht := h.total
  rcases accept_cases s seq data with ⟨_, ha⟩ | ⟨_, ha⟩ | ⟨e, hn, _, ⟨_, ha⟩ | ⟨_, ha⟩⟩
  · rw [ha]
    exact ⟨by simp [ht], fun hn => by simp at hn⟩
  · refine ⟨?_, fun hn => by rw [ha.nextSeq] at hn; cases hn⟩
    rw [ha.totalBytes, ha.assembled]
    simp [ht, Nat.add_assoc]
  · rw [ha]
    exact ⟨ht, fun hn' => by rw [hn] at hn'; cases hn'⟩
  · rw [ha]
    exact ⟨ht, h.fresh⟩

/-- Every push leaves a tidy stream. -/
theorem Tidy.push (h : Tidy yieldAt cap s) (now : Instant) (seq : UInt32) (data : Bytes) :
    Tidy yieldAt cap (s.push now seq data yieldAt cap).1 := by
  have h' : Tidy yieldAt cap { s with lastSeen := now } := ⟨h.total, h.le_cap, h.below, h.fresh⟩
  unfold FlowStream.push
  split_ifs with hd
  · exact h'
  · obtain ⟨ht, hf⟩ := h'.accept seq data
    exact tidy_yieldOrKeep ht hf

theorem Tidy.flush (h : Tidy yieldAt cap s) : Tidy yieldAt cap s.flush.1 := by
  unfold FlowStream.flush
  split_ifs
  · exact h
  · exact ⟨rfl, Nat.zero_le _, Or.inl rfl, h.fresh⟩

theorem retained_flush_le (s : FlowStream) : s.flush.1.retained ≤ s.retained := by
  obtain ⟨-, hb, ha, -⟩ := s.flush_spec
  rw [retained, retained, hb, ha]
  simp

/-- What the four kinds of segments do to the retained bytes. -/
theorem Tidy.retained_accept_iff (h : Tidy yieldAt cap s) (hle : s.retained ≤ cap) (seq : UInt32) (data : Bytes) :
    ((s.accept seq data).yieldOrKeep yieldAt cap).1.retained ≤ cap ↔ s.Fits seq data yieldAt cap := by
  obtain ⟨ht, -⟩ := h.accept seq data
  have hcases := yieldOrKeep_cases yieldAt cap ht
  unfold Fits
  rcases accept_cases s seq data with ⟨hn, ha⟩ | ⟨hn, ha⟩ | ⟨e, hn, he, ⟨hf, ha⟩ | ⟨hf, ha⟩⟩
  · -- the first segment is the only one the stream has
    have hbuf : payloadBytes (s.accept seq data).oooBuffer.toList = 0 := by
      rw [ha, extend_oooBuffer, h.fresh hn]
      rfl
    rw [hn]
    refine iff_of_true ?_ trivial
    unfold retained
    rcases hcases with ⟨_, hc⟩ | ⟨hlt, hc⟩
    · rw [hc]
      simp [hbuf]
    · rw [hc]
      omega
  · obtain ⟨hlen, hbuf⟩ := ha.lengths
    simp only [extend_assembled, extend_oooBuffer, List.length_append, contiguous_extend] at hlen hbuf
    simp only [hn, if_true]
    unfold retained at hle ⊢
    rcases hcases with ⟨hge, hc⟩ | ⟨hlt, hc⟩
    · rw [hc]
      simp only [List.length_nil]
      omega
    · rw [hc]
      omega
  · have hfut : Tidy yieldAt cap { s with oooBuffer := s.oooBuffer.insert seq data } :=
      ⟨h.total, h.le_cap, h.below, fun hn' => by rw [hn] at hn'; cases hn'⟩
    have hsum := sum_insert (t := s.oooBuffer) List.length seq data
    rw [ha, hfut.retained_yieldOrKeep]
    simp only [hn, if_neg he, hf, true_imp_iff]
    unfold retained payloadBytes
    simp only
    omega
  · rw [ha, h.retained_yieldOrKeep]
    simp only [hn, if_neg he]
    exact iff_of_true hle fun hf' => absurd hf' hf

/-- **One push**, from a stream within the cap. -/
theorem Tidy.retained_push_iff (h : Tidy yieldAt cap s) (hle : s.retained ≤ cap) (now : Instant) (seq : UInt32)
    (data : Bytes) : (s.push now seq data yieldAt cap).1.retained ≤ cap ↔ s.Fits seq data yieldAt cap := by
  have h' : Tidy yieldAt cap { s with lastSeen := now } := ⟨h.total, h.le_cap, h.below, h.fresh⟩
  unfold FlowStream.push
  by_cases hd : data.isEmpty
  · obtain rfl : data = [] := by simpa using hd
    refine iff_of_true hle ?_
    unfold Fits
    split
    · trivial
    · split_ifs
      · exact Or.inl hle
      · exact fun _ => hle.trans (Nat.le_add_right _ _)
  · simp only [hd]
    exact h'.retained_accept_iff hle seq data

end FlowStream

/-! ## Runs of the reassembler -/

namespace TcpReassembler

/-- A packet has to fit into the stream it is pushed to; the other calls add nothing. -/
def Fits (r : TcpReassembler) : Op → Prop
  | .pushPayload p => (r.addressed p).Fits p.seq p.payload r.yieldThreshold r.maxBufferSize
  | _ => True

/-- No stream retains more than the cap. -/
def Bounded (r : TcpReassembler) : Prop := r.All fun s => s.retained ≤ r.maxBufferSize

/-- The limits do not change. -/
theorem apply_limits (r : TcpReassembler) (op : Op) :
    (r.apply op).1.maxBufferSize = r.maxBufferSize ∧ (r.apply op).1.yieldThreshold = r.yieldThreshold := by
  cases op with
  | pushPayload => exact ⟨rfl, rfl⟩
  | closeFlow key c2s =>
    cases hl : r.streams.lookup key.canonical.1 with
    | none => simp [apply, closeFlow, hl]
    | some e => simp [apply, closeFlow, hl]
  | removeFlow => exact ⟨rfl, rfl⟩
  | cleanupStaleFlows => exact ⟨rfl, rfl⟩

/-- All streams are tidy. -/
def Tidy (r : TcpReassembler) : Prop := r.All (FlowStream.Tidy r.yieldThreshold r.maxBufferSize)

theorem Tidy.apply {r : TcpReassembler} (h : r.Tidy) (op : Op) : (r.apply op).1.Tidy := by
  obtain ⟨hc, hy⟩ := r.apply_limits op
  rw [Tidy, hc, hy]
  refine (All.apply_iff h (fun t => FlowStream.tidy_new _ _ t) (fun s hs => hs.flush) op).2 ?_
  intro p _
  exact (h.addressed (fun t => FlowStream.tidy_new _ _ t) p).push p.now p.seq p.payload

/-- **One call**, from a reassembler within the cap. -/
theorem bounded_apply_iff {r : TcpReassembler} (ht : r.Tidy) (hb : r.Bounded) (op : Op) :
    (r.apply op).1.Bounded ↔ r.Fits op := by
  obtain ⟨hc, -⟩ := r.apply_limits op
  have hnew : ∀ t, (FlowStream.new t).retained ≤ r.maxBufferSize := fun t => Nat.zero_le _
  rw [Bounded, hc, All.apply_iff hb hnew fun s hs => (s.retained_flush_le).trans hs]
  cases op with
  | pushPayload p =>
    have hpush := (ht.addressed (fun t => FlowStream.tidy_new _ _ t) p).retained_push_iff (hb.addressed hnew p)
      p.now p.seq p.payload
    refine Iff.trans ⟨fun h => h p rfl, ?_⟩ hpush
    rintro h _ ⟨⟩
    exact h
  | closeFlow => exact iff_of_true (fun _ ho => by cases ho) trivial
  | removeFlow => exact iff_of_true (fun _ ho => by cases ho) trivial
  | cleanupStaleFlows => exact iff_of_true (fun _ ho => by cases ho) trivial

theorem Tidy.run {r : TcpReassembler} (h : r.Tidy) (ops : List Op) : (Mealy.after TcpReassembler.apply r ops).Tidy :=
  Mealy.after_inv h (fun _ op h => h.apply op) ops

theorem all_new (P : FlowStream → Prop) (bytes : ℕ) : (new.withYieldThreshold bytes).All P := by
  intro key e hl
  cases hl

/-- In every run from a new reassembler no stream ever retains more than `maxBufferSize` bytes exactly when every packet
fits at the moment it is pushed. -/
theorem retained_le_iff_fits (bytes : ℕ) (ops : List Op) :
    (∀ p, p <+: ops → (Mealy.after apply (new.withYieldThreshold bytes) p).Bounded) ↔
      ∀ p op, p ++ [op] <+: ops → (Mealy.after apply (new.withYieldThreshold bytes) p).Fits op := by
  refine List.forall_prefix_iff (all_new _ bytes) (fun p op hb => ?_) ops
  rw [Mealy.after_concat]
  exact bounded_apply_iff (Tidy.run (all_new _ bytes) p) hb op

/-- One byte, and then 65536 bytes that come after a gap of one byte: 65537 bytes are retained. -/
theorem retained_over_cap : ¬ ∀ (bytes : ℕ) (ps : List Packet),
    (Mealy.after apply (new.withYieldThreshold bytes) (ps.map .pushPayload)).Bounded := by
  intro h
  let p₁ : Packet := ⟨0, ⟨1, 2, 3, 4, 6⟩, [0], 0, true⟩
  let p₂ : Packet := ⟨0, ⟨1, 2, 3, 4, 6⟩, List.replicate 65536 0, 2, true⟩
  have hf := (bounded_apply_iff (Tidy.run (all_new _ 512) [.pushPayload p₁]) (h 512 [p₁]) (.pushPayload p₂)).1
    (h 512 [p₁, p₂])
  have hle : 1 + (List.replicate 65536 (0 : UInt8)).length ≤ 65536 + 0 := hf (by decide)
  rw [List.length_replicate] at hle
  omega

end TcpReassembler

end ThorFirewall.Reassembler
