import Mathlib
import ThorFirewall.Network.Positions

/-!
# No wrong byte is handed out

Feed one flow stream with pieces of a byte stream `S` at their true sequence numbers, in any order, cut and overlapping
in any way, with `flush` anywhere in between. What it hands out is a slice of `S` that starts where the first non-empty
piece starts (`emitted_slice`). The run keeps the invariant `Emission`: either nothing has been accepted yet, or the
stream follows `S` from the first accepted position.
-/

namespace ThorFirewall.Reassembler

open SerialNumber

/-- A piece of `S`, possibly empty. -/
structure Piece (S : Bytes) where
  start : ℕ
  stop : ℕ
  le : start ≤ stop
  inside : stop ≤ S.length

/-- The calls on one flow stream. -/
inductive Call (S : Bytes)
  | push (p : Piece S) (now : Instant) (yieldAt cap : ℕ)
  | flush

section Emission

variable {S : Bytes}

/-- One call, with the bytes it returns. -/
def callStep (isn : UInt32) (s : FlowStream) : Call S → FlowStream × Bytes
  | .push p now yieldAt cap =>
    let r := s.push now (seqAt isn p.start) (S.slice p.start p.stop) yieldAt cap
    (r.1, r.2.getD [])
  | .flush => (s.flush.1, s.flush.2.getD [])

/-- Everything a new stream hands out, concatenated. -/
def emitted (isn : UInt32) (t₀ : Instant) (calls : List (Call S)) : Bytes :=
  (Mealy.outputs (callStep isn) (FlowStream.new t₀) calls).flatten

/-- Where the first accepted piece starts. -/
def firstStart : List (Call S) → Option ℕ
  | [] => none
  | .push p _ _ _ :: cs => if p.start < p.stop then some p.start else firstStart cs
  | .flush :: cs => firstStart cs

theorem firstStart_append : ∀ cs ds : List (Call S), firstStart (cs ++ ds) = (firstStart cs).or (firstStart ds)
  | [], _ => rfl
  | .push p _ _ _ :: cs, ds => by
    simp only [List.cons_append, firstStart]
    split_ifs
    · rfl
    · exact firstStart_append cs ds
  | .flush :: cs, ds => firstStart_append cs ds

/-- Nothing accepted yet, or the stream follows `S` from the first accepted position on. -/
def Emission (isn : UInt32) (calls : List (Call S)) (outs : List Bytes) (s : FlowStream) : Prop :=
  firstStart calls = none ∧ s.nextSeq = none ∧ s.oooBuffer.toList = [] ∧ s.assembled = [] ∧ outs.flatten = [] ∨
  ∃ (base pos : ℕ) (gs : List (Segment S)), firstStart calls = some base ∧ Follows isn base s outs.flatten pos gs

theorem Follows.flush {isn : UInt32} {base : ℕ} {s : FlowStream} {out : Bytes} {pos : ℕ} {gs : List (Segment S)}
    (h : Follows isn base s out pos gs) : Follows isn base s.flush.1 (out ++ s.flush.2.getD []) pos gs := by
  obtain ⟨hn, hb, ha, ho⟩ := s.flush_spec
  refine ⟨hn.trans h.next, h.base_le, h.inside, ?_, by rw [hb, h.buffer]⟩
  rw [ha, ho, List.append_nil, h.emitted]

/-- Moving the time stamp changes nothing else. -/
theorem Follows.touch {isn : UInt32} {base : ℕ} {s : FlowStream} {out : Bytes} {pos : ℕ} {gs : List (Segment S)}
    (h : Follows isn base s out pos gs) (now : Instant) : Follows isn base { s with lastSeen := now } out pos gs :=
  ⟨h.next, h.base_le, h.inside, h.emitted, h.buffer⟩

/-- Whatever a push does, the stream still follows `S` from the same base. -/
theorem Moves.follows {isn : UInt32} {base pos : ℕ} {gs : List (Segment S)} {g : Segment S} {s' : FlowStream}
    {out' : Bytes} (h : Moves isn base pos gs g s' out') : ∃ pos' gs', Follows (S := S) isn base s' out' pos' gs' := by
  cases h with
  | inOrder _ h => exact ⟨_, _, h⟩
  | future gs' _ _ h _ => exact ⟨_, gs', h⟩
  | past _ _ h => exact ⟨_, _, h⟩

/-- One call keeps the invariant. -/
theorem callStep_emission (hS : S.length < 2 ^ 32) {isn : UInt32} (calls : List (Call S)) (outs : List Bytes)
    (s : FlowStream) (c : Call S) (h : Emission isn calls outs s) :
    Emission isn (calls ++ [c]) (outs ++ [(callStep isn s c).2]) (callStep isn s c).1 := by
  unfold Emission
  rw [firstStart_append, List.flatten_append, List.flatten_singleton]
  cases c with
  | flush =>
    simp only [callStep, firstStart, Option.or_none]
    rcases h with ⟨hf, hn, hb, ha, ho⟩ | ⟨base, pos, gs, hf, h⟩
    · obtain ⟨hn', hb', ha', ho'⟩ := s.flush_spec
      exact Or.inl ⟨hf, hn'.trans hn, by rw [hb', hb], ha', by rw [ho, ho', ha]; rfl⟩
    · exact Or.inr ⟨base, pos, gs, hf, h.flush⟩
  | push p now yieldAt cap =>
    obtain ⟨a, b, hab, hb⟩ := p
    simp only [callStep, firstStart]
    by_cases hlt : a < b
    · -- a non-empty piece is a segment: the first one is the baseline, the others move the stream
      let g : Segment S := ⟨a, b, hlt, hb⟩
      rw [if_pos hlt]
      rcases h with ⟨hf, hn, hbuf, ha, ho⟩ | ⟨base, pos, gs, hf, h⟩
      · refine Or.inr ⟨a, b, [], by rw [hf]; rfl, ?_⟩
        rw [ho]
        exact follows_first hn hbuf ha g now yieldAt cap
      · obtain ⟨pos', gs', h'⟩ := (h.push hS g now yieldAt cap).follows
        exact Or.inr ⟨base, pos', gs', by rw [hf]; rfl, h'⟩
    · obtain rfl : a = b := by omega
      rw [if_neg hlt, List.slice_self, FlowStream.push_nil, Option.or_none, Option.getD_none, List.append_nil]
      rcases h with ⟨hf, hn, hbuf, ha, ho⟩ | ⟨base, pos, gs, hf, h⟩
      · exact Or.inl ⟨hf, hn, hbuf, ha, ho⟩
      · exact Or.inr ⟨base, pos, gs, hf, h.touch now⟩

/-- Every run keeps the invariant. -/
theorem emission_run (hS : S.length < 2 ^ 32) (isn : UInt32) (t₀ : Instant) (calls : List (Call S)) :
    Emission isn calls (Mealy.outputs (callStep isn) (FlowStream.new t₀) calls)
      (Mealy.after (callStep isn) (FlowStream.new t₀) calls) :=
  Mealy.history_inv (Or.inl ⟨rfl, rfl, rfl, rfl, rfl⟩) (callStep_emission hS) calls

/-- **No gap, no duplicated byte, no reordering**: the bytes handed out are a slice of the stream that starts at the
first accepted piece. -/
theorem emitted_slice (hS : S.length < 2 ^ 31) (isn : UInt32) (t₀ : Instant) (calls : List (Call S)) :
    (firstStart calls = none → emitted isn t₀ calls = []) ∧
      ∀ base, firstStart calls = some base →
        ∃ stop, base ≤ stop ∧ stop ≤ S.length ∧ emitted isn t₀ calls = S.slice base stop := by
  rcases emission_run (by omega) isn t₀ calls with ⟨hf, _, _, _, ho⟩ | ⟨base, pos, gs, hf, h⟩
  · refine ⟨fun _ => ho, fun base hbase => ?_⟩
    rw [hf] at hbase
    cases hbase
  · refine ⟨fun hnone => ?_, fun base' hbase => ?_⟩
    · rw [hf] at hnone
      cases hnone
    · obtain rfl : base = base' := Option.some.inj (hf.symm.trans hbase)
      have hlen := congrArg List.length h.emitted
      rw [List.length_append, List.length_slice h.inside] at hlen
      have hle := h.base_le
      have hin := h.inside
      exact ⟨base + (emitted isn t₀ calls).length, by omega, by unfold emitted; omega,
        List.eq_slice_of_append_eq h.inside h.emitted⟩

/-- Pieces that overlap across the wrap-around, the middle one first. -/
def overlapCalls : List (Call [1, 2, 3, 4]) :=
  [.push ⟨1, 3, by decide, by decide⟩ 0 512 65536, .push ⟨0, 2, by decide, by decide⟩ 1 512 65536,
    .push ⟨3, 4, by decide, by decide⟩ 2 512 65536, .flush]

/-- The bytes before the first accepted piece are not handed out. -/
theorem emitted_slice_overlap : emitted 0xFFFFFFFE 0 overlapCalls = [2, 3, 4] ∧
    ∃ stop, 1 ≤ stop ∧ stop ≤ [1, 2, 3, 4].length ∧
      emitted 0xFFFFFFFE 0 overlapCalls = [1, 2, 3, 4].slice 1 stop :=
  ⟨by decide +kernel, (emitted_slice (by decide) 0xFFFFFFFE 0 overlapCalls).2 1 rfl⟩

end Emission

end ThorFirewall.Reassembler
