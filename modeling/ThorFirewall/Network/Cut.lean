import Mathlib
import ThorFirewall.Network.Positions

/-!
# A stream cut into segments

A `Cut` is a byte stream shorter than `2 ^ 31` cut into non-empty segments. A flow stream that is fed with its
segments is seen through indices: `Rep` says that the first `k` segments have been handed out or assembled and that
the buffer holds the segments `is`, in the order of their raw sequence numbers. One arrival is an `IdxMoves`
(`Rep.push`): the expected segment moves `k` behind the consecutive indices at the head of `is`, a later one joins
`is`, an earlier one changes nothing.
-/

namespace ThorFirewall.Reassembler

open SerialNumber SortedMap

/-- A byte stream cut into non-empty segments. -/
structure Cut where
  segs : List Bytes
  nonempty : ∀ s ∈ segs, s ≠ []
  short : segs.flatten.length < 2 ^ 31

namespace Cut

variable (c : Cut)

def stream : Bytes := c.segs.flatten

/-- The number of segments. -/
abbrev count : ℕ := c.segs.length

/-- Where segment `i` starts. -/
def offset (i : ℕ) : ℕ := (c.segs.take i).flatten.length

theorem offset_succ (i : Fin c.count) : c.offset (i + 1) = c.offset i + (c.segs[i.val]).length := by
  rw [offset, offset, List.take_add_one, List.flatten_append, List.length_append]
  simp

theorem offset_count : c.offset c.count = c.stream.length := by simp [offset, count, stream]

theorem offset_lt_succ (i : Fin c.count) : c.offset i < c.offset (i + 1) := by
  have hne := c.nonempty _ (List.getElem_mem i.isLt)
  have hpos := List.length_pos_iff.2 hne
  rw [offset_succ]
  omega

theorem offset_le {i j : ℕ} (hij : i ≤ j) : c.offset i ≤ c.offset j := by
  have hp : c.segs.take i <+: c.segs.take j := List.take_prefix_take_left hij
  exact (hp.sublist.flatten).length_le

theorem offset_lt_iff {i j : ℕ} (hi : i ≤ c.count) (hj : j ≤ c.count) : c.offset i < c.offset j ↔ i < j := by
  constructor
  · intro h
    by_contra hle
    have := c.offset_le (not_lt.1 hle)
    omega
  · intro h
    exact (c.offset_lt_succ ⟨i, by omega⟩).trans_le (c.offset_le h)

theorem offset_inj {i j : ℕ} (hi : i ≤ c.count) (hj : j ≤ c.count) : c.offset i = c.offset j ↔ i = j := by
  have h1 := c.offset_lt_iff hi hj
  have h2 := c.offset_lt_iff hj hi
  omega

theorem offset_le_length (i : ℕ) : c.offset i ≤ c.stream.length :=
  ((List.take_sublist i c.segs).flatten).length_le

theorem offset_lt_two_pow (i : ℕ) : c.offset i < 2 ^ 31 := (c.offset_le_length i).trans_lt c.short

/-- Segment `i` as a segment of the stream. -/
def segment (i : Fin c.count) : Segment c.stream :=
  ⟨c.offset i, c.offset (i + 1), c.offset_lt_succ i, c.offset_le_length _⟩

theorem segment_injective : Function.Injective c.segment := by
  intro i j h
  exact Fin.ext ((c.offset_inj i.isLt.le j.isLt.le).1 (congrArg Segment.start h))

/-- Its bytes are the bytes it was cut into. -/
theorem segment_bytes (i : Fin c.count) : (c.segment i).bytes = c.segs[i.val] := by
  have hsplit : c.segs = c.segs.take i ++ c.segs[i.val] :: c.segs.drop (i + 1) := by
    rw [List.cons_getElem_drop_succ, List.take_append_drop]
  have hstream : c.stream = (c.segs.take i).flatten ++ (c.segs[i.val] ++ (c.segs.drop (i + 1)).flatten) := by
    conv_lhs => rw [stream, hsplit]
    rw [List.flatten_append, List.flatten_cons]
  rw [Segment.bytes, List.slice]
  simp only [segment]
  rw [offset_succ, hstream, Nat.add_sub_cancel_left, offset, List.drop_left, List.take_left]

end Cut

/-! ## Waiting segments by index -/

section Indices

variable {c : Cut} {isn : UInt32}

/-- The waiting segments that follow one another from index `j` on. -/
def idxRun (j : ℕ) (is : List (Fin c.count)) : List (ℕ × Fin c.count) :=
  run (fun i _ => i + 1) j (is.map fun i => (i.val, i))

/-- The index behind them. -/
def idxEnd (j : ℕ) (is : List (Fin c.count)) : ℕ := runEnd (fun i _ => i + 1) j (idxRun j is)

/-- The run of the positions is the run of the indices. -/
theorem posRun_segments {j : ℕ} (hj : j ≤ c.count) (is : List (Fin c.count)) :
    (posRun (c.offset j) (is.map c.segment)).length = (idxRun j is).length ∧
      posEnd (c.offset j) (is.map c.segment) = c.offset (idxEnd j is) ∧ idxEnd j is ≤ c.count := by
  have hkeyed : keyed (is.map c.segment) = (is.map fun i => (i.val, i)).map (Prod.map c.offset c.segment) := by
    simp [keyed, Cut.segment]
  have hstep : ∀ p ∈ is.map fun i => (i.val, i), p.1 ≤ c.count ∧ p.1 + 1 ≤ c.count ∧
      (c.segment p.2).stop = c.offset (p.1 + 1) := by
    intro p hp
    obtain ⟨i, _, rfl⟩ := List.mem_map.1 hp
    exact ⟨i.isLt.le, i.isLt, rfl⟩
  obtain ⟨h1, h2, h3⟩ := run_map (fun i (_ : Fin c.count) => i + 1) (fun _ (g : Segment c.stream) => g.stop)
    (P := fun i => i ≤ c.count) (fun a b ha hb h => (c.offset_inj ha hb).1 h) j
    (is.map fun i => (i.val, i)) hj hstep
  unfold posEnd posRun
  rw [hkeyed, h1, h2, List.length_map]
  exact ⟨rfl, rfl, h3⟩

/-- The run takes consecutive indices. -/
theorem run_succ {ν : Type*} (j : ℕ) (es : List (ℕ × ν)) :
    (run (fun i _ => i + 1) j es).map (·.1) = List.range' j (run (fun i _ => i + 1) j es).length ∧
      runEnd (fun i _ => i + 1) j (run (fun i _ => i + 1) j es) = j + (run (fun i _ => i + 1) j es).length := by
  induction es generalizing j with
  | nil => simp [run]
  | cons p es ih =>
    obtain ⟨i, v⟩ := p
    by_cases hij : i = j
    · subst hij
      obtain ⟨h1, h2⟩ := ih (i + 1)
      rw [run_cons_self, runEnd_cons, List.map_cons, List.length_cons, h1, h2, List.range'_succ]
      exact ⟨rfl, by omega⟩
    · rw [run_cons_ne hij]
      simp

/-- What the run takes out of a list without repetitions: exactly the indices from its start to its end. -/
theorem idxRun_spec {j : ℕ} {is : List (Fin c.count)} (hnd : is.Nodup) :
    j ≤ idxEnd j is ∧ (∀ i : Fin c.count, i ∈ is.drop (idxRun j is).length ↔ i ∈ is ∧ ¬ (j ≤ i ∧ i < idxEnd j is)) ∧
      ∀ i, j ≤ i → i < idxEnd j is → ∃ i' ∈ is, i'.val = i := by
  have hsplit : idxRun j is ++ (is.map fun i => (i.val, i)).drop (idxRun j is).length = is.map fun i => (i.val, i) :=
    run_append_drop j _
  obtain ⟨hkeys, hend⟩ := run_succ j (is.map fun i => (i.val, i))
  have hmem : ∀ i : Fin c.count, (i.val, i) ∈ idxRun j is ↔ j ≤ i ∧ i < idxEnd j is := by
    intro i
    have hrange : i.val ∈ (idxRun j is).map (·.1) ↔ j ≤ i ∧ i.val < idxEnd j is := by
      rw [idxRun, hkeys, List.mem_range'_1, idxEnd, idxRun, hend]
    rw [← hrange, List.mem_map]
    constructor
    · exact fun h => ⟨_, h, rfl⟩
    · rintro ⟨⟨k, i'⟩, hp, hk⟩
      obtain ⟨i'', _, he⟩ := List.mem_map.1 (run_subset j _ hp)
      simp only [Prod.mk.injEq] at he hk
      obtain ⟨rfl, rfl⟩ := he
      rwa [show i = i'' from Fin.ext hk.symm]
  refine ⟨by rw [idxEnd, idxRun, hend]; omega, fun i => ?_, fun i h1 h2 => ?_⟩
  · have hnd' : (idxRun j is ++ (is.map fun i => (i.val, i)).drop (idxRun j is).length).Nodup := by
      rw [hsplit]
      exact hnd.map fun a b h => (Prod.mk.inj h).2
    have hdrop : i ∈ is.drop (idxRun j is).length ↔
        (i.val, i) ∈ (is.map fun i => (i.val, i)).drop (idxRun j is).length := by
      rw [← List.map_drop, List.mem_map]
      exact ⟨fun h => ⟨i, h, rfl⟩, fun ⟨i', h, he⟩ => (Prod.mk.inj he).2 ▸ h⟩
    have hin : i ∈ is ↔ (i.val, i) ∈ idxRun j is ++ (is.map fun i => (i.val, i)).drop (idxRun j is).length := by
      rw [hsplit, List.mem_map]
      exact ⟨fun h => ⟨i, h, rfl⟩, fun ⟨i', h, he⟩ => (Prod.mk.inj he).2 ▸ h⟩
    rw [hdrop, hin, List.mem_append, ← hmem]
    have hdisj := List.disjoint_of_nodup_append hnd'
    constructor
    · exact fun h => ⟨Or.inr h, fun h' => hdisj h' h⟩
    · exact fun h => h.1.resolve_left h.2
  · have hr : i ∈ (idxRun j is).map (·.1) := by
      rw [idxRun, hkeys, List.mem_range'_1]
      rw [idxEnd, idxRun, hend] at h2
      exact ⟨h1, h2⟩
    obtain ⟨p, hp, rfl⟩ := List.mem_map.1 hr
    obtain ⟨i', hi', rfl⟩ := List.mem_map.1 (run_subset j _ hp)
    exact ⟨i', hi', rfl⟩

/-- The order of the buffer: the order of the raw sequence numbers. -/
def Sorted (isn : UInt32) (is : List (Fin c.count)) : Prop :=
  is.Pairwise fun a b : Fin c.count => seqAt isn (c.offset a) < seqAt isn (c.offset b)

theorem Sorted.nodup {is : List (Fin c.count)} (h : Sorted isn is) : is.Nodup := by
  refine List.Pairwise.imp (fun {a b} hab he => ?_) h
  rw [he] at hab
  exact lt_irrefl _ hab

/-! ## Streams that follow the cut -/

/-- The first `k` segments have been handed out or assembled, and the buffer holds the segments `is`. -/
structure Rep (c : Cut) (isn : UInt32) (s : FlowStream) (out : Bytes) (k : ℕ) (is : List (Fin c.count)) : Prop where
  le : k ≤ c.count
  follows : Follows isn 0 s out (c.offset k) (is.map c.segment)

/-- What one arrival does to the indices. -/
inductive IdxMoves (k : ℕ) (is : List (Fin c.count)) (i : Fin c.count) : ℕ → List (Fin c.count) → Prop
  | inOrder (hi : i = k) : IdxMoves k is i (idxEnd (k + 1) is) (is.drop (idxRun (k + 1) is).length)
  | future (hi : k < i) (is' : List (Fin c.count)) (h : ∀ j, j ∈ is' ↔ j = i ∨ j ∈ is) : IdxMoves k is i k is'
  | past (hi : i < k) : IdxMoves k is i k is

variable {s : FlowStream} {out : Bytes} {k : ℕ} {is : List (Fin c.count)}

theorem Rep.sorted (h : Rep c isn s out k is) : Sorted isn is := by
  have hs := h.follows.sorted
  rwa [List.pairwise_map] at hs

/-- **One arrival.** -/
theorem Rep.push (h : Rep c isn s out k is) (i : Fin c.count) (now : Instant) (yieldAt cap : ℕ) :
    ∃ k' is', IdxMoves k is i k' is' ∧
      Rep c isn (s.push now (seqAt isn (c.offset i)) c.segs[i.val] yieldAt cap).1
        (out ++ (s.push now (seqAt isn (c.offset i)) c.segs[i.val] yieldAt cap).2.getD []) k' is' := by
  have hshort := c.short
  have hk := h.le
  have hoff : (c.segment i).start = c.offset k ↔ i = k := c.offset_inj i.isLt.le h.le
  have hfut : seqAt isn (c.offset i) - seqAt isn (c.offset k) < 0x80000000 ↔ c.offset k ≤ c.offset i :=
    seqAt_sub_lt_iff (c.offset_lt_two_pow _) (c.offset_lt_two_pow _)
  have hlt := c.offset_lt_iff i.isLt.le h.le
  rw [← c.segment_bytes i]
  cases h.follows.push (by unfold Cut.stream; omega) (c.segment i) now yieldAt cap with
  | inOrder hg hf =>
    have hi := hoff.1 hg
    obtain ⟨hlen, hend, hle⟩ := posRun_segments (c := c) (j := k + 1) (by have := i.isLt; omega) is
    have hstop : (c.segment i).stop = c.offset (k + 1) := by rw [← hi]; rfl
    rw [hstop, hend, hlen, ← List.map_drop] at hf
    exact ⟨_, _, .inOrder hi, hle, hf⟩
  | future gs' hg hf hfo hgs =>
    have hki : k < i := by
      have := hfut.1 hf
      have : ¬ (i : ℕ) = k := fun he => hg (hoff.2 he)
      omega
    have hrange : gs' ∈ Set.range (List.map c.segment) := by
      rw [Set.range_list_map]
      intro g hg'
      rcases (hgs g).1 hg' with rfl | ⟨hm, _⟩
      · exact ⟨i, rfl⟩
      · obtain ⟨j, _, rfl⟩ := List.mem_map.1 hm
        exact ⟨j, rfl⟩
    obtain ⟨is', rfl⟩ := hrange
    refine ⟨k, is', .future hki is' fun j => ?_, h.le, hfo⟩
    have hinj := c.segment_injective
    rw [← List.mem_map_of_injective hinj, hgs, List.mem_map_of_injective hinj, hinj.eq_iff]
    constructor
    · exact Or.imp id And.left
    · rintro (rfl | hj)
      · exact Or.inl rfl
      · by_cases hji : j = i
        · exact Or.inl hji
        · exact Or.inr ⟨hj, fun he => hji (Fin.ext ((c.offset_inj j.isLt.le i.isLt.le).1 he))⟩
  | past hg hf hfo =>
    have hik : i < k := by
      have := mt hfut.2 hf
      omega
    exact ⟨k, is, .past hik, h.le, hfo⟩

end Indices

end ThorFirewall.Reassembler
