import Mathlib
import ThorFirewall.Lib.SerialNumber
import ThorFirewall.Lib.Slice
import ThorFirewall.Network.Reassembler

/-!
# Flow streams as positions in one byte stream

Fix a byte stream `S` shorter than `2 ^ 32` whose first byte has the sequence number `isn`. A flow stream fed with
segments of `S` is seen through a position and a list of waiting segments: `Follows` says that everything handed out
or assembled is the slice of `S` from `base` up to `pos`, that `nextSeq` is the number of `pos`, and that the buffer
holds exactly the waiting segments, each under the number of its first byte.

One push keeps this (`follows_first`, `Follows.push`): a segment that starts at `pos` moves the position to the end of
the contiguous run of waiting segments behind it, a future one joins the waiting segments, a past one changes nothing.
-/

namespace ThorFirewall.Reassembler

open SerialNumber SortedMap

/-- A non-empty piece of the stream `S`, at its true position. -/
structure Segment (S : Bytes) where
  start : ℕ
  stop : ℕ
  nonempty : start < stop
  inside : stop ≤ S.length
  deriving DecidableEq

namespace Segment

variable {S : Bytes}

def bytes (g : Segment S) : Bytes := S.slice g.start g.stop

theorem length_bytes (g : Segment S) : g.bytes.length = g.stop - g.start := List.length_slice g.inside

theorem bytes_ne_nil (g : Segment S) : g.bytes ≠ [] := by
  intro h
  have hl := g.length_bytes
  rw [h] at hl
  have := g.nonempty
  simp at hl
  omega

/-- The buffer entry of a segment: its bytes under the number of its first byte. -/
def entry (isn : UInt32) (g : Segment S) : UInt32 × Bytes := (seqAt isn g.start, g.bytes)

/-- The number behind a segment is the number of its end. -/
theorem seqAfter_bytes (isn : UInt32) (g : Segment S) :
    FlowStream.seqAfter (seqAt isn g.start) g.bytes = seqAt isn g.stop := by
  have := g.nonempty
  rw [FlowStream.seqAfter, g.length_bytes, seqAt_add]
  congr 1
  omega

/-- Segments of a stream shorter than `2 ^ 32` are told apart by their entries. -/
theorem entry_injective (isn : UInt32) (hS : S.length < 2 ^ 32) :
    Function.Injective (entry isn : Segment S → UInt32 × Bytes) := by
  intro g g' h
  obtain ⟨a, b, hab, hb⟩ := g
  obtain ⟨a', b', hab', hb'⟩ := g'
  simp only [entry, bytes, Prod.mk.injEq] at h
  have ha : a = a' := (seqAt_inj (by omega) (by omega)).1 h.1
  have hl := congrArg List.length h.2
  rw [List.length_slice hb, List.length_slice hb'] at hl
  have hb : b = b' := by omega
  subst ha hb
  rfl

end Segment

/-! ## The contiguous run of waiting segments -/

section Run

variable {S : Bytes}

/-- Waiting segments keyed by where they start. -/
def keyed (gs : List (Segment S)) : List (ℕ × Segment S) := gs.map fun g => (g.start, g)

/-- The waiting segments that follow one another from position `p` on. -/
def posRun (p : ℕ) (gs : List (Segment S)) : List (ℕ × Segment S) := run (fun _ g => g.stop) p (keyed gs)

/-- The position behind them. -/
def posEnd (p : ℕ) (gs : List (Segment S)) : ℕ := runEnd (fun _ g => g.stop) p (posRun p gs)

theorem map_entry_eq (isn : UInt32) (gs : List (Segment S)) :
    gs.map (Segment.entry isn) = (keyed gs).map (Prod.map (seqAt isn) Segment.bytes) := by
  simp [keyed, Segment.entry]

/-- The run the drain loop takes is the run of the positions. -/
theorem run_entries (isn : UInt32) (hS : S.length < 2 ^ 32) {p : ℕ} (hp : p ≤ S.length) (gs : List (Segment S)) :
    run FlowStream.seqAfter (seqAt isn p) (gs.map (Segment.entry isn)) =
        (posRun p gs).map (Prod.map (seqAt isn) Segment.bytes) ∧
      runEnd FlowStream.seqAfter (seqAt isn p) ((posRun p gs).map (Prod.map (seqAt isn) Segment.bytes)) =
        seqAt isn (posEnd p gs) ∧
      posEnd p gs ≤ S.length := by
  rw [map_entry_eq]
  refine run_map _ _ (P := fun q => q ≤ S.length) ?_ p (keyed gs) hp ?_
  · intro a b ha hb h
    exact (seqAt_inj (by omega) (by omega)).1 h
  · intro q hq
    obtain ⟨g, _, rfl⟩ := List.mem_map.1 hq
    exact ⟨g.nonempty.le.trans g.inside, g.inside, g.seqAfter_bytes isn⟩

/-- The bytes of the run are the slice it covers. -/
theorem run_bytes (p : ℕ) (es : List (ℕ × Segment S)) (h : ∀ q ∈ es, q.1 = q.2.start) :
    p ≤ runEnd (fun _ g => g.stop) p (run (fun _ g => g.stop) p es) ∧
      (run (fun _ g => g.stop) p es).flatMap (·.2.bytes) =
        S.slice p (runEnd (fun _ g => g.stop) p (run (fun _ g => g.stop) p es)) := by
  induction es generalizing p with
  | nil => simp [run]
  | cons q es ih =>
    obtain ⟨k, g⟩ := q
    have hk : k = g.start := h (k, g) List.mem_cons_self
    by_cases hkp : k = p
    · subst hkp
      obtain ⟨hle, hb⟩ := ih g.stop fun q hq => h q (List.mem_cons_of_mem _ hq)
      have hlt := g.nonempty
      rw [run_cons_self, List.flatMap_cons, hb, runEnd_cons]
      refine ⟨hk.le.trans (hlt.le.trans hle), ?_⟩
      rw [hk, Segment.bytes, List.slice_append_slice S hlt.le hle]
    · rw [run_cons_ne hkp]
      simp

theorem keyed_start {gs : List (Segment S)} {q : ℕ × Segment S} (h : q ∈ keyed gs) : q.1 = q.2.start := by
  obtain ⟨g, _, rfl⟩ := List.mem_map.1 h
  rfl

theorem le_posEnd (p : ℕ) (gs : List (Segment S)) : p ≤ posEnd p gs := (run_bytes p _ fun _ => keyed_start).1

theorem posRun_bytes (p : ℕ) (gs : List (Segment S)) :
    (posRun p gs).flatMap (·.2.bytes) = S.slice p (posEnd p gs) := (run_bytes p _ fun _ => keyed_start).2

end Run

/-! ## Streams that follow `S` -/

section Follows

variable {S : Bytes} {isn : UInt32}

/-- Everything handed out (`out`) or assembled is the slice from `base` to `pos`, and `gs` are the waiting segments in
the order of the buffer. -/
structure Follows (isn : UInt32) (base : ℕ) (s : FlowStream) (out : Bytes) (pos : ℕ) (gs : List (Segment S)) :
    Prop where
  next : s.nextSeq = some (seqAt isn pos)
  base_le : base ≤ pos
  inside : pos ≤ S.length
  emitted : out ++ s.assembled = S.slice base pos
  buffer : s.oooBuffer.toList = gs.map (Segment.entry isn)

/-- The waiting segments are in the order of their sequence numbers. -/
theorem Follows.sorted {base : ℕ} {s : FlowStream} {out : Bytes} {pos : ℕ} {gs : List (Segment S)}
    (h : Follows isn base s out pos gs) : gs.Pairwise fun a b => seqAt isn a.start < seqAt isn b.start := by
  have hs := Std.TreeMap.ordered_keys_toList (t := s.oooBuffer)
  rw [h.buffer, List.pairwise_map] at hs
  exact hs.imp fun hab => Std.compare_eq_lt.1 hab

/-- The first segment is taken as the baseline. -/
theorem follows_first {s : FlowStream} (hn : s.nextSeq = none) (hb : s.oooBuffer.toList = []) (ha : s.assembled = [])
    (g : Segment S) (now : Instant) (yieldAt cap : ℕ) :
    Follows isn g.start (s.push now (seqAt isn g.start) g.bytes yieldAt cap).1
      ((s.push now (seqAt isn g.start) g.bytes yieldAt cap).2.getD []) g.stop ([] : List (Segment S)) := by
  have hg := g.nonempty
  cases FlowStream.push_step s now (seqAt isn g.start) g.bytes_ne_nil yieldAt cap with
  | first _ hn' hb' ho =>
    refine ⟨hn'.trans (by rw [g.seqAfter_bytes]), hg.le, g.inside, ?_, by rw [hb', hb]; rfl⟩
    rw [ho, ha]
    rfl
  | inOrder _ _ hs => rw [hn] at hs; cases hs
  | future _ hs => rw [hn] at hs; cases hs
  | past _ hs => rw [hn] at hs; cases hs

/-- What a push does to a stream that follows `S`. -/
inductive Moves (isn : UInt32) (base pos : ℕ) (gs : List (Segment S)) (g : Segment S) (s' : FlowStream) (out' : Bytes) :
    Prop
  | inOrder (hg : g.start = pos)
      (h : Follows isn base s' out' (posEnd g.stop gs) (gs.drop (posRun g.stop gs).length))
  | future (gs' : List (Segment S)) (hg : g.start ≠ pos) (hf : seqAt isn g.start - seqAt isn pos < 0x80000000)
      (h : Follows isn base s' out' pos gs') (hgs : ∀ g', g' ∈ gs' ↔ g' = g ∨ g' ∈ gs ∧ g'.start ≠ g.start)
  | past (hg : g.start ≠ pos) (hf : ¬ seqAt isn g.start - seqAt isn pos < 0x80000000)
      (h : Follows isn base s' out' pos gs)

/-- Buffering a segment adds it to the waiting ones, in the place of one that starts where it does. -/
theorem Follows.buffer_insert (hS : S.length < 2 ^ 32) {base : ℕ} {s : FlowStream} {out : Bytes} {pos : ℕ}
    {gs : List (Segment S)} (h : Follows isn base s out pos gs) (g : Segment S) :
    ∃ gs' : List (Segment S), (s.oooBuffer.insert (seqAt isn g.start) g.bytes).toList = gs'.map (Segment.entry isn) ∧
      ∀ g', g' ∈ gs' ↔ g' = g ∨ g' ∈ gs ∧ g'.start ≠ g.start := by
  have hgen : ∀ p ∈ (s.oooBuffer.insert (seqAt isn g.start) g.bytes).toList, ∃ g' : Segment S, g'.entry isn = p := by
    rintro ⟨k, d⟩ hp
    rcases mem_toList_insert.1 hp with ⟨rfl, rfl⟩ | ⟨_, hp⟩
    · exact ⟨g, rfl⟩
    · rw [h.buffer] at hp
      obtain ⟨g', _, hg'⟩ := List.mem_map.1 hp
      exact ⟨g', hg'⟩
  obtain ⟨gs', hgs'⟩ : (s.oooBuffer.insert (seqAt isn g.start) g.bytes).toList ∈
      Set.range (List.map (Segment.entry (S := S) isn)) := by
    rw [Set.range_list_map]
    exact hgen
  refine ⟨gs', hgs'.symm, fun g' => ?_⟩
  have hentry := Segment.entry_injective isn hS
  have hg := g.nonempty
  have hgS := g.inside
  have hg' := g'.nonempty
  have hgS' := g'.inside
  have hstart : seqAt isn g.start = seqAt isn g'.start ↔ g.start = g'.start := seqAt_inj (by omega) (by omega)
  rw [← List.mem_map_of_injective hentry, hgs', Segment.entry, mem_toList_insert, h.buffer, ← Segment.entry,
    List.mem_map_of_injective hentry]
  constructor
  · rintro (⟨hk, hd⟩ | ⟨hk, hm⟩)
    · exact Or.inl (hentry (Prod.ext hk.symm hd.symm))
    · exact Or.inr ⟨hm, fun he' => hk (hstart.2 he'.symm)⟩
  · rintro (rfl | ⟨hm, hk⟩)
    · exact Or.inl ⟨rfl, rfl⟩
    · exact Or.inr ⟨fun he' => hk (hstart.1 he').symm, hm⟩

/-- **One push of a segment of `S`.** -/
theorem Follows.push (hS : S.length < 2 ^ 32) {base : ℕ} {s : FlowStream} {out : Bytes} {pos : ℕ}
    {gs : List (Segment S)} (h : Follows isn base s out pos gs) (g : Segment S) (now : Instant) (yieldAt cap : ℕ) :
    Moves isn base pos gs g (s.push now (seqAt isn g.start) g.bytes yieldAt cap).1
      (out ++ (s.push now (seqAt isn g.start) g.bytes yieldAt cap).2.getD []) := by
  have hg := g.nonempty
  have hgS := g.inside
  have hpos := h.inside
  have hinj : seqAt isn g.start = seqAt isn pos ↔ g.start = pos := seqAt_inj (by omega) (by omega)
  cases FlowStream.push_step s now (seqAt isn g.start) g.bytes_ne_nil yieldAt cap with
  | first hs => rw [h.next] at hs; cases hs
  | inOrder r hr hs hn hb ho =>
    have hgp : g.start = pos := hinj.1 (by rw [h.next] at hs; exact (Option.some.inj hs).symm)
    obtain ⟨hrun, hend, hle⟩ := run_entries isn hS hgS gs
    rw [h.buffer, g.seqAfter_bytes, hrun] at hr
    subst hr
    refine .inOrder hgp ⟨?_, ?_, hle, ?_, ?_⟩
    · rw [hn, g.seqAfter_bytes, hend]
    · have := h.base_le
      have := le_posEnd g.stop gs
      omega
    · rw [List.append_assoc, ho, ← List.append_assoc, ← List.append_assoc, h.emitted, ← hgp, Segment.bytes,
        List.slice_append_slice S (by have := h.base_le; omega) hg.le, List.flatMap_map]
      simp only [Prod.map_snd]
      rw [posRun_bytes, List.slice_append_slice S (by have := h.base_le; omega) (le_posEnd _ _)]
    · rw [hb, h.buffer, List.length_map, List.map_drop]
  | future e hs he hf hn hb ho =>
    obtain rfl : seqAt isn pos = e := Option.some.inj (h.next.symm.trans hs)
    obtain ⟨gs', hgs', hmem⟩ := h.buffer_insert hS g
    refine .future gs' (fun hgp => he (hinj.2 hgp)) hf ⟨hn, h.base_le, hpos, ?_, by rw [hb, hgs']⟩ hmem
    rw [List.append_assoc, ho, h.emitted]
  | past e hs he hf hn hb ho =>
    obtain rfl : seqAt isn pos = e := Option.some.inj (h.next.symm.trans hs)
    refine .past (fun hgp => he (hinj.2 hgp)) hf ⟨hn, h.base_le, hpos, ?_, by rw [hb, h.buffer]⟩
    rw [List.append_assoc, ho, h.emitted]

end Follows

end ThorFirewall.Reassembler
