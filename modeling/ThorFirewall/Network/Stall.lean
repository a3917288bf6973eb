import Mathlib
import ThorFirewall.Network.Positions

/-!
# When overlapping segments stall a flow

Segments of one stream `S` arrive in any order and overlap in any way; the sequence numbers do not wrap around. Once
the segments behind the first one cover a range, and every position `nextSeq` takes in it is the start of a delivered
segment, the range should be handed out or assembled, and nothing that starts at `nextSeq` should wait in the buffer
(`Complete`).

The drain loop compares the smallest buffered key with `nextSeq`, so a buffered segment that an in-order segment has
run over blocks everything behind it. `complete_iff_unblocked` says exactly which runs this spares: those in which, at
every in-order segment, a delivered position that the buffered segments lead to from its end is itself buffered, and
so is led to every smaller buffered key (`Unblocked`).
-/

namespace ThorFirewall.Reassembler

open SerialNumber SortedMap

/-! ## The positions `nextSeq` takes -/

namespace FlowStream

/-- The values the drain loop assigns to `next_seq`, in order. -/
def drainSeqs : ℕ → Std.TreeMap UInt32 Bytes → UInt32 → List UInt32
  | 0, _, _ => []
  | fuel + 1, buffer, expected =>
    match buffer.toList.head? with
    | some (seq, data) =>
      if seq = expected then seqAfter expected data :: drainSeqs fuel (buffer.erase seq) (seqAfter expected data)
      else []
    | none => []

/-- The values one push assigns to `next_seq`, in order. -/
def pushSeqs (s : FlowStream) (seq : UInt32) (data : Bytes) : List UInt32 :=
  if data.isEmpty then []
  else match s.nextSeq with
    | none => [seqAfter seq data]
    | some expected =>
      if seq = expected then seqAfter expected data :: drainSeqs s.oooBuffer.size s.oooBuffer (seqAfter expected data)
      else []

/-- From `e` on the loop assigns the keys of the run it takes, and the end of the run. -/
theorem mem_drainSeqs : ∀ (fuel : ℕ) (buffer : Std.TreeMap UInt32 Bytes) (e x : UInt32), buffer.toList.length ≤ fuel →
    (x = e ∨ x ∈ drainSeqs fuel buffer e ↔
      (∃ p ∈ run seqAfter e buffer.toList, p.1 = x) ∨ x = runEnd seqAfter e (run seqAfter e buffer.toList))
  | 0, buffer, e, x, hfuel => by
    have hnil : buffer.toList = [] := List.length_eq_zero_iff.1 (by omega)
    simp [drainSeqs, hnil, run]
  | fuel + 1, buffer, e, x, hfuel => by
    unfold drainSeqs
    cases hl : buffer.toList with
    | nil => simp [run]
    | cons p es =>
      obtain ⟨seq, data⟩ := p
      simp only [List.head?_cons]
      by_cases hseq : seq = e
      · subst hseq
        have ih := mem_drainSeqs fuel (buffer.erase seq) (seqAfter seq data) x
          (by rw [toList_erase_head hl]; rw [hl] at hfuel; simpa using hfuel)
        rw [toList_erase_head hl] at ih
        rw [if_pos rfl, run_cons_self, runEnd_cons, List.mem_cons, ih]
        simp only [List.exists_mem_cons_iff, eq_comm (a := x), or_assoc]
      · rw [if_neg hseq, run_cons_ne hseq]
        simp

/-- An in-order segment moves `next_seq` along the run behind it. -/
theorem mem_pushSeqs {s : FlowStream} {seq : UInt32} {data : Bytes} (hd : data ≠ []) (hs : s.nextSeq = some seq)
    (x : UInt32) : x ∈ s.pushSeqs seq data ↔
      (∃ p ∈ run seqAfter (seqAfter seq data) s.oooBuffer.toList, p.1 = x) ∨
        x = runEnd seqAfter (seqAfter seq data) (run seqAfter (seqAfter seq data) s.oooBuffer.toList) := by
  have hd' : data.isEmpty = false := by simpa using hd
  rw [← mem_drainSeqs s.oooBuffer.size _ _ _ (by rw [Std.TreeMap.length_toList])]
  simp [pushSeqs, hd', hs]

end FlowStream

/-! ## Runs -/

/-- A segment with the circumstances of its push. -/
structure Delivery (S : Bytes) where
  seg : Segment S
  now : Instant
  yieldAt : ℕ
  cap : ℕ

section Runs

variable {S : Bytes}

/-- One delivery, with the bytes it returns and the values it assigns to `next_seq`. -/
def deliver (isn : UInt32) (s : FlowStream) (d : Delivery S) : FlowStream × (Bytes × List UInt32) :=
  let r := s.push d.now (seqAt isn d.seg.start) d.seg.bytes d.yieldAt d.cap
  (r.1, (r.2.getD [], s.pushSeqs (seqAt isn d.seg.start) d.seg.bytes))

/-- A new stream after the deliveries. -/
def streamAfter (isn : UInt32) (t₀ : Instant) (ds : List (Delivery S)) : FlowStream :=
  Mealy.after (deliver isn) (FlowStream.new t₀) ds

/-- The bytes it has handed out. -/
def bytesOut (isn : UInt32) (t₀ : Instant) (ds : List (Delivery S)) : Bytes :=
  ((Mealy.outputs (deliver isn) (FlowStream.new t₀) ds).map (·.1)).flatten

/-- The values its `next_seq` has taken. -/
def nextSeqs (isn : UInt32) (t₀ : Instant) (ds : List (Delivery S)) : List UInt32 :=
  ((Mealy.outputs (deliver isn) (FlowStream.new t₀) ds).map (·.2)).flatten

/-- What the segments behind the first one cover, with a segment starting wherever `next_seq` has been, is handed out or
assembled; nothing that starts at `next_seq` waits. -/
structure Complete (isn : UInt32) (t₀ : Instant) (first : Delivery S) (rest : List (Delivery S)) : Prop where
  delivered : ∀ n,
    (∀ x, first.seg.stop ≤ x → x < first.seg.stop + n → ∃ d ∈ rest, d.seg.start ≤ x ∧ x < d.seg.stop) →
    (∀ q, q < first.seg.stop + n → seqAt isn q ∈ nextSeqs isn t₀ (first :: rest) → ∃ d ∈ rest, d.seg.start = q) →
    S.slice first.seg.start (first.seg.stop + n) <+:
      bytesOut isn t₀ (first :: rest) ++ (streamAfter isn t₀ (first :: rest)).assembled
  drained : ∀ e, (streamAfter isn t₀ (first :: rest)).nextSeq = some e →
    e ∉ (streamAfter isn t₀ (first :: rest)).oooBuffer

/-- If the segment is in order, every earlier start that buffered segments lead to from its end is buffered, and they
lead to every smaller buffered key as well. -/
def Unblocked (s : FlowStream) (seen : List UInt32) (seq : UInt32) (data : Bytes) : Prop :=
  s.nextSeq = some seq →
    ∀ x ∈ seen, Reach FlowStream.seqAfter s.oooBuffer.toList (FlowStream.seqAfter seq data) x →
      x ∈ s.oooBuffer ∧ ∀ y ∈ s.oooBuffer, y < x →
        Reach FlowStream.seqAfter s.oooBuffer.toList (FlowStream.seqAfter seq data) y

/-! ## The invariant -/

/-- `segs` are the segments delivered behind the first one, `seqs` the values `next_seq` has taken. -/
structure Tracked (isn : UInt32) (first : Segment S) (segs : List (Segment S)) (s : FlowStream) (out : Bytes)
    (seqs : List UInt32) (pos : ℕ) (gs : List (Segment S)) : Prop where
  follows : Follows isn first.start s out pos gs
  first_le : first.stop ≤ pos
  waiting : gs ⊆ segs
  covered : ∀ x, first.stop ≤ x → x < pos → ∃ g ∈ segs, g.start ≤ x ∧ x < g.stop
  taken : seqAt isn pos ∈ seqs
  started : ∀ q ≤ S.length, seqAt isn q ∈ seqs → q = pos ∨ ∃ g ∈ segs, g.start = q

/-- The waiting segments of the run cover what it moves over. -/
theorem run_covers (p : ℕ) (es : List (ℕ × Segment S)) (h : ∀ q ∈ es, q.1 = q.2.start) (x : ℕ) (hx : p ≤ x)
    (hlt : x < runEnd (fun _ g => g.stop) p (run (fun _ g => g.stop) p es)) :
    ∃ q ∈ run (fun _ g => g.stop) p es, q.2.start ≤ x ∧ x < q.2.stop := by
  induction es generalizing p with
  | nil =>
    rw [run, runEnd_nil] at hlt
    omega
  | cons q es ih =>
    obtain ⟨k, g⟩ := q
    have hk : k = g.start := h (k, g) List.mem_cons_self
    by_cases hkp : k = p
    · subst hkp
      rw [run_cons_self, runEnd_cons] at hlt
      rw [run_cons_self]
      by_cases hg : x < g.stop
      · exact ⟨(k, g), List.mem_cons_self, by show g.start ≤ x; omega, hg⟩
      · obtain ⟨q, hq, hqx⟩ := ih g.stop (fun q hq => h q (List.mem_cons_of_mem _ hq)) (by omega) hlt
        exact ⟨q, List.mem_cons_of_mem _ hq, hqx⟩
    · rw [run_cons_ne hkp] at hlt
      simp at hlt
      omega

theorem posRun_mem {p : ℕ} {gs : List (Segment S)} {q : ℕ × Segment S} (hq : q ∈ posRun p gs) :
    q.2 ∈ gs ∧ q.1 = q.2.start := by
  have hk := run_subset p (keyed gs) hq
  refine ⟨?_, keyed_start hk⟩
  obtain ⟨g, hg, rfl⟩ := List.mem_map.1 hk
  exact hg

variable {isn : UInt32} {first : Segment S} {segs : List (Segment S)} {s : FlowStream} {out : Bytes}
  {seqs : List UInt32} {pos : ℕ} {gs : List (Segment S)}

theorem exists_mem_concat {P : Segment S → Prop} {g : Segment S} (h : ∃ g ∈ segs, P g) : ∃ g' ∈ segs ++ [g], P g' := by
  obtain ⟨g', hg', hP⟩ := h
  exact ⟨g', List.mem_append_left _ hg', hP⟩

/-- A delivery that is not in order leaves the position and only adds a segment. -/
theorem Tracked.stay (hS : S.length < 2 ^ 32) (h : Tracked isn first segs s out seqs pos gs) {d : Delivery S}
    {gs' : List (Segment S)} (hne : d.seg.start ≠ pos) (hw : gs' ⊆ segs ++ [d.seg])
    (hf : Follows isn first.start (deliver isn s d).1 (out ++ (deliver isn s d).2.1) pos gs') :
    Tracked isn first (segs ++ [d.seg]) (deliver isn s d).1 (out ++ (deliver isn s d).2.1)
      (seqs ++ (deliver isn s d).2.2) pos gs' := by
  have hg := d.seg.nonempty
  have hgS := d.seg.inside
  have hpos := h.follows.inside
  have hnil : s.pushSeqs (seqAt isn d.seg.start) d.seg.bytes = [] := by
    have hd : d.seg.bytes.isEmpty = false := by simpa using d.seg.bytes_ne_nil
    have hseq : seqAt isn d.seg.start ≠ seqAt isn pos := fun he => hne ((seqAt_inj (by omega) (by omega)).1 he)
    simp [FlowStream.pushSeqs, hd, h.follows.next, hseq]
  refine ⟨hf, h.first_le, hw, fun x h1 h2 => exists_mem_concat (h.covered x h1 h2), ?_, ?_⟩
  · exact List.mem_append_left _ h.taken
  · intro q hq hm
    simp only [deliver, hnil, List.append_nil] at hm
    exact (h.started q hq hm).imp id exists_mem_concat

/-- A delivery in order moves the position along the run behind it. -/
theorem Tracked.inOrder (hS : S.length < 2 ^ 32) (h : Tracked isn first segs s out seqs pos gs) {d : Delivery S}
    (hgp : d.seg.start = pos)
    (hf : Follows isn first.start (deliver isn s d).1 (out ++ (deliver isn s d).2.1) (posEnd d.seg.stop gs)
      (gs.drop (posRun d.seg.stop gs).length)) :
    Tracked isn first (segs ++ [d.seg]) (deliver isn s d).1 (out ++ (deliver isn s d).2.1)
      (seqs ++ (deliver isn s d).2.2) (posEnd d.seg.stop gs) (gs.drop (posRun d.seg.stop gs).length) := by
  have hg := d.seg.nonempty
  have hgS := d.seg.inside
  have hlast : d.seg ∈ segs ++ [d.seg] := by simp
  obtain ⟨hrun, hend, hle⟩ := run_entries isn hS hgS gs
  have hmem := FlowStream.mem_pushSeqs d.seg.bytes_ne_nil (hgp ▸ h.follows.next)
  rw [h.follows.buffer, d.seg.seqAfter_bytes, hrun, hend] at hmem
  refine ⟨hf, ?_, ?_, ?_, ?_, ?_⟩
  · have := h.first_le
    have := le_posEnd d.seg.stop gs
    omega
  · intro g hgd
    exact List.mem_append_left _ (h.waiting (List.mem_of_mem_drop hgd))
  · intro x hx hlt
    by_cases h1 : x < pos
    · exact exists_mem_concat (h.covered x hx h1)
    · by_cases h2 : x < d.seg.stop
      · exact ⟨d.seg, hlast, by omega, h2⟩
      · obtain ⟨q, hq, hqx⟩ := run_covers d.seg.stop (keyed gs) (fun _ => keyed_start) x (by omega) hlt
        exact ⟨q.2, List.mem_append_left _ (h.waiting (posRun_mem hq).1), hqx⟩
  · exact List.mem_append_right _ ((hmem _).2 (Or.inr rfl))
  · intro q hq hm
    rcases List.mem_append.1 hm with hm | hm
    · rcases h.started q hq hm with rfl | hg'
      · exact Or.inr ⟨d.seg, hlast, hgp⟩
      · exact Or.inr (exists_mem_concat hg')
    · rcases (hmem _).1 hm with ⟨p, hp, hpq⟩ | hqe
      · obtain ⟨⟨k, g⟩, hkg, rfl⟩ := List.mem_map.1 hp
        obtain ⟨hg', hk⟩ := posRun_mem hkg
        have := g.nonempty
        have := g.inside
        have hkq : k = q := (seqAt_inj (by simp only at hk; omega) (by omega)).1 hpq
        exact Or.inr ⟨g, List.mem_append_left _ (h.waiting hg'), by rw [← hkq]; exact hk.symm⟩
      · exact Or.inl ((seqAt_inj (by omega) (by omega)).1 hqe)

/-- One delivery keeps the invariant and moves the position along the run, if it is in order. -/
theorem Tracked.deliver (hS : S.length < 2 ^ 32) (h : Tracked isn first segs s out seqs pos gs) (d : Delivery S) :
    ∃ pos' gs', Tracked isn first (segs ++ [d.seg]) (deliver isn s d).1 (out ++ (deliver isn s d).2.1)
        (seqs ++ (deliver isn s d).2.2) pos' gs' ∧
      pos' = if d.seg.start = pos then posEnd d.seg.stop gs else pos := by
  cases h.follows.push hS d.seg d.now d.yieldAt d.cap with
  | inOrder hgp hf => exact ⟨_, _, h.inOrder hS hgp hf, by rw [if_pos hgp]⟩
  | future gs' hne _ hf hgs =>
    refine ⟨pos, gs', h.stay hS hne (fun g hg' => ?_) hf, by rw [if_neg hne]⟩
    rcases (hgs g).1 hg' with rfl | ⟨hm, _⟩
    · simp
    · exact List.mem_append_left _ (h.waiting hm)
  | past hne _ hf =>
    have hw : gs ⊆ segs ++ [d.seg] := fun g hg' => List.mem_append_left _ (h.waiting hg')
    exact ⟨pos, gs, h.stay hS hne hw hf, by rw [if_neg hne]⟩

/-- The first segment sets up the invariant. -/
theorem tracked_first (hS : S.length < 2 ^ 32) (isn : UInt32) (t₀ : Instant) (d : Delivery S) :
    Tracked isn d.seg [] (deliver isn (FlowStream.new t₀) d).1 (deliver isn (FlowStream.new t₀) d).2.1
      (deliver isn (FlowStream.new t₀) d).2.2 d.seg.stop [] := by
  have hf : Follows isn d.seg.start (deliver isn (FlowStream.new t₀) d).1 (deliver isn (FlowStream.new t₀) d).2.1
      d.seg.stop ([] : List (Segment S)) :=
    follows_first rfl rfl rfl d.seg d.now d.yieldAt d.cap
  have hseqs : (deliver isn (FlowStream.new t₀) d).2.2 = [seqAt isn d.seg.stop] := by
    have hd : d.seg.bytes.isEmpty = false := by simpa using d.seg.bytes_ne_nil
    simp [deliver, FlowStream.pushSeqs, FlowStream.new, hd, d.seg.seqAfter_bytes]
  rw [hseqs]
  refine ⟨hf, le_rfl, by simp, fun x h1 h2 => by omega, by simp, fun q hq hm => Or.inl ?_⟩
  have := d.seg.inside
  exact (seqAt_inj (by omega) (by omega)).1 (List.mem_singleton.1 hm)

/-- Every run keeps the invariant. -/
theorem tracked_run (hS : S.length < 2 ^ 32) (isn : UInt32) (t₀ : Instant) (d : Delivery S) (rest : List (Delivery S)) :
    ∃ pos gs, Tracked isn d.seg (rest.map (·.seg)) (streamAfter isn t₀ (d :: rest)) (bytesOut isn t₀ (d :: rest))
      (nextSeqs isn t₀ (d :: rest)) pos gs := by
  refine Mealy.history_inv (P := fun (p : List (Delivery S)) (os : List (Bytes × List UInt32)) s =>
      ∃ pos gs, Tracked isn d.seg (p.map (·.seg)) s
        ((deliver isn (FlowStream.new t₀) d).2.1 ++ (os.map (·.1)).flatten)
        ((deliver isn (FlowStream.new t₀) d).2.2 ++ (os.map (·.2)).flatten) pos gs)
    (s := (deliver isn (FlowStream.new t₀) d).1) ⟨_, _, by simpa using tracked_first hS isn t₀ d⟩ ?_ rest
  rintro p os s d' ⟨pos, gs, h⟩
  obtain ⟨pos', gs', h', -⟩ := h.deliver hS d'
  exact ⟨pos', gs', by simpa using h'⟩

/-! ## What is complete -/

/-- A run is complete exactly if no delivered segment starts at the position it has reached. -/
theorem complete_iff (hS : S.length < 2 ^ 32) {t₀ : Instant} {d : Delivery S} {rest : List (Delivery S)}
    (h : Tracked isn d.seg (rest.map (·.seg)) (streamAfter isn t₀ (d :: rest)) (bytesOut isn t₀ (d :: rest))
      (nextSeqs isn t₀ (d :: rest)) pos gs) :
    Complete isn t₀ d rest ↔ ∀ d' ∈ rest, d'.seg.start ≠ pos := by
  have hfl := h.first_le
  have hg := d.seg.nonempty
  constructor
  · intro hc d' hd' hpos
    -- the covered range ends with the first byte of `d'`, which has not been assembled
    have hpre := hc.delivered (pos + 1 - d.seg.stop) ?_ ?_
    · have hlen := hpre.length_le
      rw [h.follows.emitted, List.length_slice, List.length_slice h.follows.inside] at hlen <;>
        have := d'.seg.nonempty <;> have := d'.seg.inside <;> omega
    · intro x hx hlt
      by_cases hxp : x < pos
      · obtain ⟨g, hgm, hgx⟩ := h.covered x hx hxp
        obtain ⟨d'', hd'', rfl⟩ := List.mem_map.1 hgm
        exact ⟨d'', hd'', hgx⟩
      · have := d'.seg.nonempty
        exact ⟨d', hd', by omega, by omega⟩
    · intro q hq hm
      have := h.follows.inside
      rcases h.started q (by omega) hm with rfl | ⟨g, hgm, hgq⟩
      · exact ⟨d', hd', hpos⟩
      · obtain ⟨d'', hd'', rfl⟩ := List.mem_map.1 hgm
        exact ⟨d'', hd'', hgq⟩
  · intro hno
    constructor
    · intro n _ hstart
      have hle : d.seg.stop + n ≤ pos := by
        by_contra hlt
        obtain ⟨d', hd', hpos⟩ := hstart pos (by omega) h.taken
        exact hno d' hd' hpos
      rw [h.follows.emitted]
      exact List.slice_prefix_slice S (by omega) hle
    · intro e he hmem
      obtain rfl : seqAt isn pos = e := Option.some.inj (h.follows.next.symm.trans he)
      obtain ⟨v, hv⟩ := mem_iff_mem_toList.1 hmem
      rw [h.follows.buffer] at hv
      obtain ⟨g, hgm, hgv⟩ := List.mem_map.1 hv
      obtain ⟨d', hd', rfl⟩ := List.mem_map.1 (h.waiting hgm)
      have := d'.seg.nonempty
      have := d'.seg.inside
      have := h.follows.inside
      exact hno d' hd' ((seqAt_inj (by omega) (by omega)).1 (congrArg Prod.fst hgv))

/-- Without wrap-around the buffer is in the order of the positions. -/
theorem Follows.ascending {base : ℕ} (hS : isn.toNat + S.length < 2 ^ 32) (h : Follows isn base s out pos gs) :
    Ascending FlowStream.seqAfter s.oooBuffer.toList := by
  constructor
  · exact Std.TreeMap.ordered_keys_toList.imp fun hab => Std.compare_eq_lt.1 hab
  · intro p hp
    rw [h.buffer] at hp
    obtain ⟨g, -, rfl⟩ := List.mem_map.1 hp
    have hlt := g.nonempty
    have hin := g.inside
    show seqAt isn g.start < FlowStream.seqAfter (seqAt isn g.start) g.bytes
    rw [g.seqAfter_bytes, seqAt_lt_iff (by omega) (by omega) (by omega)]
    exact hlt

/-- The position behind an in-order delivery starts no delivered segment exactly if the delivery is unblocked: what the
library says about the end of a run, for the positions. -/
theorem unblocked_iff (hS : isn.toNat + S.length < 2 ^ 32) {p : List (Delivery S)}
    (h : Tracked isn first (p.map (·.seg)) s out seqs pos gs) {d : Delivery S} (hgp : d.seg.start = pos) :
    Unblocked s (p.map (seqAt isn ·.seg.start)) (seqAt isn d.seg.start) d.seg.bytes ↔
      ∀ d' ∈ p, d'.seg.start ≠ posEnd d.seg.stop gs := by
  obtain ⟨hrun, hend, hle⟩ := run_entries isn (by omega) d.seg.inside gs
  have hstored : ∀ q ∈ s.oooBuffer.toList, q.1 ∈ p.map (seqAt isn ·.seg.start) := by
    intro q hq
    rw [h.follows.buffer] at hq
    obtain ⟨g, hgm, rfl⟩ := List.mem_map.1 hq
    obtain ⟨d', hd', rfl⟩ := List.mem_map.1 (h.waiting hgm)
    exact List.mem_map.2 ⟨d', hd', rfl⟩
  have hiff := (h.follows.ascending hS).runEnd_not_iff (e := seqAt isn d.seg.stop) hstored
  rw [h.follows.buffer, hrun, hend, ← h.follows.buffer] at hiff
  have hnext : s.nextSeq = some (seqAt isn d.seg.start) := by rw [h.follows.next, hgp]
  simp only [Unblocked, hnext, forall_const, d.seg.seqAfter_bytes, mem_iff_mem_toList]
  refine Iff.trans ?_ (hiff.symm.trans ?_)
  · constructor
    · intro hall x hx hr
      obtain ⟨h1, h2⟩ := hall x hx hr
      exact ⟨h1, fun q hq hlt => h2 q.1 ⟨q.2, hq⟩ hlt⟩
    · intro hall x hx hr
      obtain ⟨h1, h2⟩ := hall x hx hr
      exact ⟨h1, fun y ⟨v, hv⟩ hlt => h2 (y, v) hv hlt⟩
  · constructor
    · intro hm d' hd' he
      exact hm (List.mem_map.2 ⟨d', hd', by rw [he]⟩)
    · intro hall hm
      obtain ⟨d', hd', he⟩ := List.mem_map.1 hm
      have := d'.seg.nonempty
      have := d'.seg.inside
      exact hall d' hd' ((seqAt_inj (by omega) (by omega)).1 he)

/-- From a complete run, one more delivery gives a complete run exactly if it is unblocked. -/
theorem complete_concat_iff (hS : isn.toNat + S.length < 2 ^ 32) (t₀ : Instant) (first : Delivery S)
    (p : List (Delivery S)) (d : Delivery S) (hp : Complete isn t₀ first p) :
    Complete isn t₀ first (p ++ [d]) ↔
      Unblocked (streamAfter isn t₀ (first :: p)) (p.map (seqAt isn ·.seg.start)) (seqAt isn d.seg.start)
        d.seg.bytes := by
  have hS' : S.length < 2 ^ 32 := by omega
  obtain ⟨pos, gs, h⟩ := tracked_run hS' isn t₀ first p
  obtain ⟨pos', gs', h', hpos'⟩ := h.deliver hS' d
  have hno := (complete_iff hS' h).1 hp
  have hconcat : Tracked isn first.seg ((p ++ [d]).map (·.seg)) (streamAfter isn t₀ (first :: (p ++ [d])))
      (bytesOut isn t₀ (first :: (p ++ [d]))) (nextSeqs isn t₀ (first :: (p ++ [d]))) pos' gs' := by
    unfold streamAfter bytesOut nextSeqs
    rw [← List.cons_append, Mealy.after_concat, Mealy.outputs_concat]
    simpa [streamAfter, bytesOut, nextSeqs] using h'
  have hg := d.seg.nonempty
  have hgS := d.seg.inside
  have hin := h.follows.inside
  rw [complete_iff hS' hconcat, hpos', List.forall_mem_append, List.forall_mem_singleton]
  by_cases hgp : d.seg.start = pos
  · have hlt := le_posEnd d.seg.stop gs
    rw [if_pos hgp, unblocked_iff hS h hgp]
    exact and_iff_left (by omega)
  · have hnext : (streamAfter isn t₀ (first :: p)).nextSeq ≠ some (seqAt isn d.seg.start) := by
      rw [h.follows.next]
      exact fun he => hgp ((seqAt_inj (by omega) (by omega)).1 (Option.some.inj he).symm)
    rw [if_neg hgp]
    exact iff_of_true ⟨hno, hgp⟩ fun hs => absurd hs hnext

/-- **Which runs overlapping segments do not stall.** -/
theorem complete_iff_unblocked (hS : isn.toNat + S.length < 2 ^ 32) (t₀ : Instant) (first : Delivery S)
    (rest : List (Delivery S)) :
    (∀ p, p <+: rest → Complete isn t₀ first p) ↔
      ∀ p d, p ++ [d] <+: rest → Unblocked (streamAfter isn t₀ (first :: p)) (p.map (seqAt isn ·.seg.start))
        (seqAt isn d.seg.start) d.seg.bytes := by
  refine List.forall_prefix_iff ?_ (fun p d hp => complete_concat_iff hS t₀ first p d hp) rest
  obtain ⟨pos, gs, h⟩ := tracked_run (by omega) isn t₀ first []
  exact (complete_iff (by omega) h).2 (by simp)

/-- Five bytes, a first segment of one byte, and an out-of-order pair that the drain loop joins. -/
def joinedFirst : Delivery [10, 11, 12, 13, 14] := ⟨⟨0, 1, by decide, by decide⟩, 0, 512, 65536⟩

def joinedAhead : Delivery [10, 11, 12, 13, 14] := ⟨⟨3, 5, by decide, by decide⟩, 1, 512, 65536⟩

def joinedFill : Delivery [10, 11, 12, 13, 14] := ⟨⟨1, 3, by decide, by decide⟩, 3, 512, 65536⟩

theorem complete_iff_unblocked_joined :
    (0 : UInt32).toNat + [10, 11, 12, 13, 14].length < 2 ^ 32 ∧
      ∀ p, p <+: [joinedAhead, joinedFill] → Complete 0 0 joinedFirst p := by
  refine ⟨by decide, (complete_iff_unblocked (by decide) 0 joinedFirst [joinedAhead, joinedFill]).2 ?_⟩
  intro p d hp
  match p, hp with
  | [], hp =>
    obtain rfl : d = joinedAhead := by simpa using hp
    intro hs
    exact absurd hs (by decide +kernel)
  | [d'], hp =>
    obtain ⟨rfl, rfl⟩ : d' = joinedAhead ∧ d = joinedFill := by simpa using hp
    intro _ x hx _
    have hbuf : (streamAfter 0 0 [joinedFirst, joinedAhead]).oooBuffer.toList = [(3, [13, 14])] := by decide +kernel
    obtain rfl : x = 3 := by simpa [joinedAhead, seqAt] using hx
    refine ⟨mem_iff_mem_toList.2 ⟨[13, 14], by rw [hbuf]; simp⟩, fun y hy hlt => ?_⟩
    obtain ⟨v, hv⟩ := mem_iff_mem_toList.1 hy
    rw [hbuf] at hv
    have hy3 : y = 3 := by simpa using congrArg Prod.fst (List.mem_singleton.1 hv)
    exact absurd (hy3 ▸ hlt) (by decide)
  | _ :: _ :: _, hp => simp at hp

/-- The third byte arrives out of order before a segment that runs over it. -/
def stalledInside : Delivery [10, 11, 12, 13, 14] := ⟨⟨2, 3, by decide, by decide⟩, 2, 512, 65536⟩

/-- **A stalled run**: the bytes 1 to 4 have all arrived and every position of `next_seq` starts a segment, but the
buffered third byte keeps the fourth and fifth from being drained. -/
theorem complete_stalled : ¬ ∀ (S : Bytes) (isn : UInt32), isn.toNat + S.length < 2 ^ 32 →
    ∀ (t₀ : Instant) (first : Delivery S) (rest : List (Delivery S)), Complete isn t₀ first rest := by
  intro h
  have hc := (h [10, 11, 12, 13, 14] 0 (by decide) 0 joinedFirst [joinedAhead, stalledInside, joinedFill]).delivered 4
    ?_ ?_
  · exact absurd hc (by decide +kernel)
  · intro x h1 h2
    have hall : ∀ x < 5, 1 ≤ x → ∃ d ∈ [joinedAhead, stalledInside, joinedFill],
        d.seg.start ≤ x ∧ x < d.seg.stop := by decide
    exact hall x h2 h1
  · intro q hq hm
    have hseqs : nextSeqs 0 0 [joinedFirst, joinedAhead, stalledInside, joinedFill] = [1, 3] := by decide +kernel
    rw [hseqs] at hm
    have hall : ∀ q < 5, seqAt 0 q ∈ ([1, 3] : List UInt32) →
        ∃ d ∈ [joinedAhead, stalledInside, joinedFill], d.seg.start = q := by decide
    exact hall q hq hm

end Runs

end ThorFirewall.Reassembler
