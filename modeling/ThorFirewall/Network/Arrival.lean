import Mathlib
import ThorFirewall.Network.Cut

/-!
# Which arrival orders are reassembled completely

The segments of a cut arrive at one flow stream, the first one first, the others in any order and as often as they
like, each at least once. `received_iff` says exactly when everything handed out, with the final flush, is the whole
stream.

The buffer is sorted by raw sequence number, so the segments behind the wrap-around come before the others. Let `U` be
the index of the first segment behind the wrap-around (`wrapIndex`). As long as no segment behind it has arrived too
early the stream is `Live`: it waits for the first segment that has not arrived. A segment behind the wrap-around that
arrives while a segment before it is missing leaves the stream `Blocked`: the drain loop finds nothing until `k` has
reached `U`, so every missing segment before the wrap-around has to arrive again, in order (`Resumes`).
-/

namespace ThorFirewall.Reassembler

open SerialNumber SortedMap

/-- A segment of the cut with the circumstances of its push. -/
structure Arrival (c : Cut) where
  idx : Fin c.count
  now : Instant
  yieldAt : ℕ
  cap : ℕ

/-- Arrivals of all segments, the first one first. -/
structure Arrivals (c : Cut) where
  list : List (Arrival c)
  first : ∀ a ∈ list.head?, a.idx.val = 0
  all : ∀ i : Fin c.count, i ∈ list.map (·.idx)

section Arrivals

variable {c : Cut}

/-- One arrival, with the bytes it returns. -/
def arrive (isn : UInt32) (s : FlowStream) (a : Arrival c) : FlowStream × Bytes :=
  let r := s.push a.now (seqAt isn (c.offset a.idx)) c.segs[a.idx.val] a.yieldAt a.cap
  (r.1, r.2.getD [])

/-- Everything the pushes and the final flush return. -/
def received (isn : UInt32) (t₀ : Instant) (as : List (Arrival c)) : Bytes :=
  (Mealy.outputs (arrive isn) (FlowStream.new t₀) as).flatten ++
    (Mealy.after (arrive isn) (FlowStream.new t₀) as).flush.2.getD []

/-- The first segment whose sequence number has wrapped around, or the number of segments. -/
def wrapIndex (c : Cut) (isn : UInt32) : ℕ := (List.range c.count).findIdx fun i => 2 ^ 32 ≤ isn.toNat + c.offset i

/-- The first segment that is not among `pre`. -/
def firstMissing (pre : List (Fin c.count)) : ℕ := (List.range c.count).findIdx fun i => i ∉ pre.map (·.val)

/-- If a segment behind the wrap-around arrives while one before it is missing, the segments from the first missing
one to the wrap-around arrive afterwards, in order. -/
def Resumes (c : Cut) (isn : UInt32) (order : List (Fin c.count)) : Prop :=
  ∀ (pre : List (Fin c.count)) (w : Fin c.count) (post : List (Fin c.count)), order = pre ++ w :: post →
    (∀ i ∈ pre, i.val < wrapIndex c isn) → wrapIndex c isn ≤ w →
      (List.range' (firstMissing pre) (wrapIndex c isn - firstMissing pre)).Sublist (post.map (·.val))

/-! ## The wrap-around -/

/-- The first number below `n` with a property, or `n`. -/
theorem findIdx_range (n : ℕ) (P : ℕ → Prop) [DecidablePred P] : (List.range n).findIdx (P ·) ≤ n ∧
    (∀ i < (List.range n).findIdx (P ·), ¬ P i) ∧
      ((List.range n).findIdx (P ·) < n → P ((List.range n).findIdx (P ·))) := by
  refine ⟨List.findIdx_le_length.trans List.length_range.le, fun i hi => ?_, fun hlt => ?_⟩
  · simpa using List.not_of_lt_findIdx hi
  · have hlen : (List.range n).findIdx (P ·) < (List.range n).length := hlt.trans_eq List.length_range.symm
    have hp := List.findIdx_getElem (w := hlen)
    rw [List.getElem_range] at hp
    exact of_decide_eq_true hp

/-- The segments before `wrapIndex` are those whose sequence number has not wrapped around. -/
theorem lt_wrapIndex_iff (isn : UInt32) (i : Fin c.count) :
    i.val < wrapIndex c isn ↔ isn.toNat + c.offset i < 2 ^ 32 := by
  obtain ⟨-, hlt, hat⟩ := findIdx_range c.count fun i => 2 ^ 32 ≤ isn.toNat + c.offset i
  constructor
  · intro h
    exact not_le.1 (hlt i h)
  · intro h
    by_contra hge
    have hw : wrapIndex c isn ≤ i := not_lt.1 hge
    have hle := c.offset_le hw
    have hwrap := hat (hw.trans_lt i.isLt)
    exact absurd (hwrap.trans (Nat.add_le_add_left hle _)) (not_le.2 h)

/-- In the raw order nothing before the wrap-around comes before something behind it; on one side it is the order of the
indices. -/
theorem raw_lt {isn : UInt32} {a b : Fin c.count} (h : seqAt isn (c.offset a) < seqAt isn (c.offset b)) :
    (a.val < wrapIndex c isn → b.val < wrapIndex c isn) ∧
      ((a.val < wrapIndex c isn ↔ b.val < wrapIndex c isn) → a.val < b.val) := by
  have ha := c.offset_lt_two_pow a
  have hb := c.offset_lt_two_pow b
  rw [lt_wrapIndex_iff, lt_wrapIndex_iff]
  constructor
  · intro h1
    by_contra h2
    exact lt_irrefl _ (h.trans (seqAt_lt_of_wrap hb (not_lt.1 h2) h1))
  · intro hside
    rw [seqAt_lt_iff (by omega) (by omega) hside] at h
    exact (c.offset_lt_iff a.isLt.le b.isLt.le).1 h

end Arrivals

/-! ## Waiting for the first missing segment -/

section Runs

variable {c : Cut} {isn : UInt32} {k : ℕ} {pre is : List (Fin c.count)}

/-- The stream waits for the first segment that has not arrived. -/
structure Live (isn : UInt32) (pre : List (Fin c.count)) (k : ℕ) (is : List (Fin c.count)) : Prop where
  before : ∀ i : Fin c.count, i < k → i ∈ pre
  missing : ∀ i ∈ pre, i.val ≠ k
  sub : is ⊆ pre
  waits : ∀ i : Fin c.count, (i.val < wrapIndex c isn ↔ k < wrapIndex c isn) → (i ∈ is ↔ i ∈ pre ∧ k < i)
  calm : k < wrapIndex c isn → ∀ i ∈ pre, i.val < wrapIndex c isn

/-- A segment behind the wrap-around waits at the head of the buffer, before segments that are still missing. -/
structure Blocked (isn : UInt32) (pre : List (Fin c.count)) (k : ℕ) (is : List (Fin c.count)) : Prop where
  lt_wrap : k < wrapIndex c isn
  before : ∀ i : Fin c.count, i < k → i ∈ pre
  sub : is ⊆ pre
  wrapped : ∀ i : Fin c.count, wrapIndex c isn ≤ i → (i ∈ is ↔ i ∈ pre)
  early : ∃ w ∈ is, wrapIndex c isn ≤ w.val

/-- If the waiting segments on the side where the run ends come after its start, no waiting segment starts at its end.
-/
theorem idxEnd_not_mem (hs : Sorted isn is) {j : ℕ}
    (hge : ∀ h ∈ is, (h.val < wrapIndex c isn ↔ idxEnd j is < wrapIndex c isn) → j ≤ h)
    (hside : idxEnd j is < wrapIndex c isn → ∀ h ∈ is, h.val < wrapIndex c isn) : ∀ i ∈ is, i.val ≠ idxEnd j is := by
  intro i hi he
  obtain ⟨-, hdrop, -⟩ := idxRun_spec (j := j) hs.nodup
  have hrest : i ∈ is.drop (idxRun j is).length := (hdrop i).2 ⟨hi, by omega⟩
  cases hd : is.drop (idxRun j is).length with
  | nil => rw [hd] at hrest; cases hrest
  | cons h rest =>
    have hhead : h.val ≠ idxEnd j is :=
      head_ne_runEnd j (is.map fun i : Fin c.count => (i.val, i)) (h.val, h) (rest.map fun i => (i.val, i))
        (by rw [← List.map_drop]; exact (congrArg _ hd).trans rfl)
    rw [hd] at hrest
    -- the head of the rest has a smaller number than `i`, so it lies on the same side, between the start and `i`
    have hlt : seqAt isn (c.offset h) < seqAt isn (c.offset i) := by
      have hsd := List.Pairwise.sublist (List.drop_sublist (idxRun j is).length is) hs
      rw [hd] at hsd
      rcases List.mem_cons.1 hrest with rfl | hm
      · exact absurd he hhead
      · exact (List.pairwise_cons.1 hsd).1 i hm
    obtain ⟨hraw, hidx⟩ := raw_lt hlt
    have hmem : h ∈ is.drop (idxRun j is).length := by rw [hd]; exact List.mem_cons_self
    obtain ⟨hm, hout⟩ := (hdrop h).1 hmem
    have hsame : h.val < wrapIndex c isn ↔ i.val < wrapIndex c isn :=
      ⟨hraw, fun hi' => hside (he ▸ hi') h hm⟩
    exact hout ⟨hge h hm (he ▸ hsame), he ▸ hidx hsame⟩

/-- Behind the wrap-around nothing is drained from before it. -/
theorem Blocked.idxRun_eq_nil (h : Blocked isn pre k is) (hs : Sorted isn is) {j : ℕ} (hj : j < wrapIndex c isn) :
    idxRun j is = [] := by
  obtain ⟨w, hw, hU⟩ := h.early
  cases is with
  | nil => cases hw
  | cons i rest =>
    have hi : wrapIndex c isn ≤ i := by
      rcases List.mem_cons.1 hw with rfl | hm
      · exact hU
      · by_contra hlt
        exact absurd ((raw_lt ((List.pairwise_cons.1 hs).1 w hm)).1 (not_le.1 hlt)) (not_lt.2 hU)
    exact run_cons_ne (by omega) _ _

/-! ## One arrival -/

variable {k' : ℕ} {is' : List (Fin c.count)} {i : Fin c.count}

/-- When the expected segment arrives, everything before the end of the run has arrived. -/
theorem arrived_before (hb : ∀ j : Fin c.count, j < k → j ∈ pre) (hsub : is ⊆ pre) (hs : Sorted isn is)
    (hik : i.val = k) : ∀ j : Fin c.count, j < idxEnd (k + 1) is → j ∈ pre ++ [i] := by
  intro j hj
  obtain ⟨-, -, htaken⟩ := idxRun_spec (j := k + 1) hs.nodup
  rw [List.mem_append, List.mem_singleton]
  rcases lt_trichotomy j.val k with hjk | hjk | hjk
  · exact Or.inl (hb j hjk)
  · exact Or.inr (Fin.ext (hjk.trans hik.symm))
  · obtain ⟨j', hj', he⟩ := htaken j hjk hj
    exact Or.inl (hsub (Fin.ext he ▸ hj'))

/-- The expected segment: the stream waits for the end of the run behind it. -/
theorem Live.inOrder (h : Live isn pre k is) (hs : Sorted isn is) (hik : i.val = k) :
    Live isn (pre ++ [i]) (idxEnd (k + 1) is) (is.drop (idxRun (k + 1) is).length) ∧ k ≤ idxEnd (k + 1) is := by
  have hmem : ∀ j, j ∈ pre ++ [i] ↔ j ∈ pre ∨ j = i := by simp
  obtain ⟨hle, hdrop, -⟩ := idxRun_spec (j := k + 1) hs.nodup
  have hge : ∀ h ∈ is, (h.val < wrapIndex c isn ↔ idxEnd (k + 1) is < wrapIndex c isn) → k + 1 ≤ h.val := by
    intro j hj hside
    by_cases hk : k < wrapIndex c isn
    · exact ((h.waits j ⟨fun _ => hk, fun _ => h.calm hk j (h.sub hj)⟩).1 hj).2
    · exact ((h.waits j (by omega)).1 hj).2
  have hend := idxEnd_not_mem hs hge fun hlt j hj => h.calm (by omega) j (h.sub hj)
  have hsame : ∀ j ∈ pre, k < j.val → j ∈ is := by
    intro j hj hkj
    by_cases hk : k < wrapIndex c isn
    · exact (h.waits j ⟨fun _ => hk, fun _ => h.calm hk j hj⟩).2 ⟨hj, hkj⟩
    · exact (h.waits j (by omega)).2 ⟨hj, hkj⟩
  refine ⟨⟨arrived_before h.before h.sub hs hik, fun j hj hje => ?_, fun j hj => ?_, fun j hside => ?_,
    fun hlt j hj => ?_⟩, by omega⟩
  · rcases (hmem j).1 hj with hj | rfl
    · exact hend j (hsame j hj (by omega)) hje
    · omega
  · exact List.mem_append_left _ (h.sub ((hdrop j).1 hj).1)
  · rw [hdrop, hmem]
    constructor
    · rintro ⟨hj, hout⟩
      have h1 := hge j hj hside
      have h2 := hend j hj
      exact ⟨Or.inl (h.sub hj), by omega⟩
    · rintro ⟨hj | rfl, hlt⟩
      · exact ⟨hsame j hj (by omega), by omega⟩
      · omega
  · rcases (hmem j).1 hj with hj | rfl
    · exact h.calm (by omega) j hj
    · omega

/-- A later segment joins the waiting ones, unless it is behind the wrap-around and too early. -/
theorem Live.future (h : Live isn pre k is) (hi : k < wrapIndex c isn → i.val < wrapIndex c isn) (hki : k < i.val)
    (hins : ∀ j, j ∈ is' ↔ j = i ∨ j ∈ is) : Live isn (pre ++ [i]) k is' := by
  have hmem : ∀ j, j ∈ pre ++ [i] ↔ j ∈ pre ∨ j = i := by simp
  refine ⟨fun j hj => List.mem_append_left _ (h.before j hj), fun j hj => ?_, fun j hj => ?_, fun j hside => ?_,
    fun hlt j hj => ?_⟩
  · rcases (hmem j).1 hj with hj | rfl
    · exact h.missing j hj
    · exact hki.ne'
  · rcases (hins j).1 hj with rfl | hj
    · simp
    · exact List.mem_append_left _ (h.sub hj)
  · rw [hins, hmem, h.waits j hside]
    constructor
    · rintro (rfl | ⟨hj, hlt⟩)
      · exact ⟨Or.inr rfl, hki⟩
      · exact ⟨Or.inl hj, hlt⟩
    · rintro ⟨hj | rfl, hlt⟩
      · exact Or.inr ⟨hj, hlt⟩
      · exact Or.inl rfl
  · rcases (hmem j).1 hj with hj | rfl
    · exact h.calm hlt j hj
    · exact hi hlt

/-- An earlier segment has arrived before. -/
theorem Live.past (h : Live isn pre k is) (hik : i.val < k) : Live isn (pre ++ [i]) k is := by
  have hpre : ∀ j, j ∈ pre ++ [i] ↔ j ∈ pre := by
    intro j
    rw [List.mem_append, List.mem_singleton]
    constructor
    · rintro (hj | rfl)
      · exact hj
      · exact h.before _ hik
    · exact Or.inl
  refine ⟨fun j hj => (hpre j).2 (h.before j hj), fun j hj => h.missing j ((hpre j).1 hj),
    fun j hj => (hpre j).2 (h.sub hj), fun j hside => ?_, fun hlt j hj => h.calm hlt j ((hpre j).1 hj)⟩
  rw [hpre]
  exact h.waits j hside

/-- A live stream stays live unless a segment behind the wrap-around arrives too early. -/
theorem Live.step (h : Live isn pre k is) (hs : Sorted isn is) (hi : k < wrapIndex c isn → i.val < wrapIndex c isn)
    (hm : IdxMoves k is i k' is') : Live isn (pre ++ [i]) k' is' ∧ k ≤ k' := by
  cases hm with
  | inOrder hik => exact h.inOrder hs hik
  | future hki is' hins => exact ⟨h.future hi hki hins, le_rfl⟩
  | past hik => exact ⟨h.past hik, le_rfl⟩

/-- A segment behind the wrap-around that arrives too early blocks the stream. -/
theorem Live.block (h : Live isn pre k is) (hk : k < wrapIndex c isn) (hi : wrapIndex c isn ≤ i)
    (hm : IdxMoves k is i k' is') : Blocked isn (pre ++ [i]) k is' ∧ k' = k := by
  cases hm with
  | inOrder hik => omega
  | future hki is' hins =>
    refine ⟨⟨hk, fun j hj => List.mem_append_left _ (h.before j hj), fun j hj => ?_, fun j hj => ?_,
      ⟨i, (hins i).2 (Or.inl rfl), hi⟩⟩, rfl⟩
    · rcases (hins j).1 hj with rfl | hj
      · simp
      · exact List.mem_append_left _ (h.sub hj)
    · have hnot : j ∉ pre := fun hp => by
        have := h.calm hk j hp
        omega
      have hnot' : j ∉ is := fun hp => hnot (h.sub hp)
      rw [hins]
      simp [hnot, hnot']
  | past hik => omega

/-- A blocked stream only moves when the next segment arrives, and then by one. -/
theorem Blocked.step (h : Blocked isn pre k is) (hs : Sorted isn is) (hm : IdxMoves k is i k' is')
    (hi : ¬ (i.val = k ∧ k + 1 = wrapIndex c isn)) :
    Blocked isn (pre ++ [i]) k' is' ∧ k' = if i.val = k then k + 1 else k := by
  cases hm with
  | inOrder hik =>
    have hk := h.lt_wrap
    have hrun := h.idxRun_eq_nil hs (j := k + 1) (by omega)
    have hend : idxEnd (k + 1) is = k + 1 := by rw [idxEnd, hrun]; rfl
    rw [hrun, hend, if_pos hik]
    refine ⟨⟨by omega, fun j hj => ?_, fun j hj => List.mem_append_left _ (h.sub hj), fun j hj => ?_, h.early⟩, rfl⟩
    · rcases Nat.lt_succ_iff_lt_or_eq.1 hj with hj | hj
      · exact List.mem_append_left _ (h.before j hj)
      · rw [show j = i from Fin.ext (hj.trans hik.symm)]
        simp
    · have hji : j ≠ i := fun he => by rw [he] at hj; omega
      simp [h.wrapped j hj, hji]
  | future hki is' hins =>
    rw [if_neg (by omega)]
    obtain ⟨w, hw, hU⟩ := h.early
    refine ⟨⟨h.lt_wrap, fun j hj => List.mem_append_left _ (h.before j hj), fun j hj => ?_, fun j hj => ?_,
      ⟨w, (hins w).2 (Or.inr hw), hU⟩⟩, rfl⟩
    · rcases (hins j).1 hj with rfl | hj
      · simp
      · exact List.mem_append_left _ (h.sub hj)
    · rw [hins, h.wrapped j hj, List.mem_append, List.mem_singleton, or_comm]
  | past hik =>
    rw [if_neg (by omega)]
    have hk := h.lt_wrap
    refine ⟨⟨hk, fun j hj => List.mem_append_left _ (h.before j hj), fun j hj => List.mem_append_left _ (h.sub hj),
      fun j hj => ?_, h.early⟩, rfl⟩
    have hji : j ≠ i := fun he => by rw [he] at hj; omega
    simp [h.wrapped j hj, hji]

/-- The last segment before the wrap-around sets a blocked stream free. -/
theorem Blocked.resume (h : Blocked isn pre k is) (hs : Sorted isn is) (hm : IdxMoves k is i k' is') (hik : i.val = k)
    (hk : k + 1 = wrapIndex c isn) : Live isn (pre ++ [i]) k' is' ∧ wrapIndex c isn ≤ k' := by
  have hmem : ∀ j, j ∈ pre ++ [i] ↔ j ∈ pre ∨ j = i := by simp
  cases hm with
  | inOrder _ =>
    obtain ⟨hle, hdrop, -⟩ := idxRun_spec (j := k + 1) hs.nodup
    have hend := idxEnd_not_mem hs (j := k + 1) (fun j _ hside => by omega) fun hlt => by omega
    refine ⟨⟨arrived_before h.before h.sub hs hik, fun j hj hje => ?_, fun j hj => ?_, fun j hside => ?_,
      fun hlt => by omega⟩, by omega⟩
    · rcases (hmem j).1 hj with hj | rfl
      · exact hend j ((h.wrapped j (by omega)).2 hj) hje
      · omega
    · exact List.mem_append_left _ (h.sub ((hdrop j).1 hj).1)
    · rw [hdrop, hmem]
      constructor
      · rintro ⟨hj, hout⟩
        have h2 := hend j hj
        exact ⟨Or.inl (h.sub hj), by omega⟩
      · rintro ⟨hj | rfl, hlt⟩
        · exact ⟨(h.wrapped j (by omega)).2 hj, by omega⟩
        · omega
  | future hki => omega
  | past hik' => omega

/-! ## Whole runs -/

variable {s : FlowStream} {out : Bytes}

/-- After the arrivals `as` the stream is live if `P` and blocked if not. -/
def Settles (isn : UInt32) (pre : List (Fin c.count)) (s : FlowStream) (out : Bytes) (as : List (Arrival c))
    (P : Prop) : Prop :=
  ∃ k is, Rep c isn (Mealy.after (arrive isn) s as) (out ++ (Mealy.outputs (arrive isn) s as).flatten) k is ∧
    (P ∧ Live isn (pre ++ as.map (·.idx)) k is ∨ ¬ P ∧ Blocked isn (pre ++ as.map (·.idx)) k is)

theorem settles_nil {P : Prop} (hr : Rep c isn s out k is) (h : P ∧ Live isn pre k is ∨ ¬ P ∧ Blocked isn pre k is) :
    Settles isn pre s out [] P :=
  ⟨k, is, by simpa [Mealy.after, Mealy.outputs] using hr, by simpa using h⟩

theorem settles_cons {a : Arrival c} {as : List (Arrival c)} {P : Prop}
    (h : Settles isn (pre ++ [a.idx]) (arrive isn s a).1 (out ++ (arrive isn s a).2) as P) :
    Settles isn pre s out (a :: as) P := by
  simpa [Settles, Mealy.after, Mealy.outputs] using h

/-- Behind the wrap-around a live stream stays live. -/
theorem Live.run (as : List (Arrival c)) (h : Live isn pre k is) (hr : Rep c isn s out k is)
    (hk : wrapIndex c isn ≤ k) : Settles isn pre s out as True := by
  induction as generalizing pre s out k is with
  | nil => exact settles_nil hr (Or.inl ⟨trivial, h⟩)
  | cons a as ih =>
    obtain ⟨k₁, is₁, hm, hr₁⟩ := hr.push a.idx a.now a.yieldAt a.cap
    obtain ⟨h₁, hle⟩ := h.step hr.sorted (fun hlt => by omega) hm
    exact settles_cons (ih h₁ hr₁ (hk.trans hle))

/-- A blocked stream comes free exactly when the missing segments before the wrap-around arrive in order. -/
theorem Blocked.run (as : List (Arrival c)) (h : Blocked isn pre k is) (hr : Rep c isn s out k is) :
    Settles isn pre s out as ((List.range' k (wrapIndex c isn - k)).Sublist (as.map (·.idx.val))) := by
  induction as generalizing pre s out k is with
  | nil =>
    have hk := h.lt_wrap
    refine settles_nil hr (Or.inr ⟨?_, h⟩)
    rw [List.map_nil, List.sublist_nil, List.range'_eq_nil_iff]
    omega
  | cons a as ih =>
    have hk := h.lt_wrap
    obtain ⟨k₁, is₁, hm, hr₁⟩ := hr.push a.idx a.now a.yieldAt a.cap
    obtain ⟨n, hn⟩ : ∃ n, wrapIndex c isn - k = n + 1 := ⟨wrapIndex c isn - k - 1, by omega⟩
    rw [hn, List.range'_succ, List.map_cons]
    by_cases hik : a.idx.val = k
    · rw [hik, List.cons_sublist_cons]
      by_cases hlast : k + 1 = wrapIndex c isn
      · obtain ⟨h₁, hU⟩ := h.resume hr.sorted hm hik hlast
        have hfree : (List.range' (k + 1) n).Sublist (as.map (·.idx.val)) := by
          rw [show n = 0 by omega, List.range'_zero]
          exact List.nil_sublist _
        rw [eq_true hfree]
        exact settles_cons (h₁.run as hr₁ hU)
      · obtain ⟨h₁, hk₁⟩ := h.step hr.sorted hm fun hc => hlast hc.2
        rw [if_pos hik] at hk₁
        subst hk₁
        rw [show n = wrapIndex c isn - (k + 1) by omega]
        exact settles_cons (ih h₁ hr₁)
    · obtain ⟨h₁, hk₁⟩ := h.step hr.sorted hm fun hc => hik hc.1
      rw [if_neg hik] at hk₁
      subst hk₁
      have hskip : (k₁ :: List.range' (k₁ + 1) n).Sublist (a.idx.val :: as.map (·.idx.val)) ↔
          (k₁ :: List.range' (k₁ + 1) n).Sublist (as.map (·.idx.val)) :=
        ⟨fun hsub => (List.sublist_cons_iff.1 hsub).resolve_right fun ⟨r, hr, _⟩ => hik (List.cons.inj hr).1.symm,
          fun hsub => hsub.cons _⟩
      rw [hskip, ← List.range'_succ, ← hn]
      exact settles_cons (ih h₁ hr₁)

theorem firstMissing_spec (pre : List (Fin c.count)) : firstMissing pre ≤ c.count ∧
    (∀ i : Fin c.count, i < firstMissing pre → i ∈ pre) ∧ ∀ i ∈ pre, i.val ≠ firstMissing pre := by
  obtain ⟨hle, hlt, hat⟩ := findIdx_range c.count fun i => i ∉ pre.map (·.val)
  refine ⟨hle, fun i hi => ?_, fun i hi he => ?_⟩
  · obtain ⟨j, hj, hji⟩ := List.mem_map.1 (not_not.1 (hlt i hi))
    exact Fin.ext hji ▸ hj
  · have hf : firstMissing pre < c.count := he ▸ i.isLt
    exact hat hf (List.mem_map.2 ⟨i, hi, he⟩)

theorem Live.firstMissing_eq (h : Live isn pre k is) (hk : k ≤ c.count) : firstMissing pre = k := by
  obtain ⟨hle, hlt, hat⟩ := firstMissing_spec pre
  rcases lt_trichotomy (firstMissing pre) k with hf | hf | hf
  · exact absurd rfl (hat _ (h.before ⟨firstMissing pre, hf.trans_le hk⟩ hf))
  · exact hf
  · exact absurd rfl (h.missing _ (hlt ⟨k, hf.trans_le hle⟩ hf))

/-- `Resumes` for the arrivals `order` after the arrivals `pre`. -/
def ResumesFrom (isn : UInt32) (pre order : List (Fin c.count)) : Prop :=
  ∀ (p : List (Fin c.count)) (w : Fin c.count) (q : List (Fin c.count)), order = p ++ w :: q →
    (∀ i ∈ pre ++ p, i.val < wrapIndex c isn) → wrapIndex c isn ≤ w →
      (List.range' (firstMissing (pre ++ p)) (wrapIndex c isn - firstMissing (pre ++ p))).Sublist (q.map (·.val))

/-- The first arrival of `order`, and those after it. -/
theorem resumesFrom_cons {i : Fin c.count} {order : List (Fin c.count)} :
    ResumesFrom isn pre (i :: order) ↔
      ((∀ j ∈ pre, j.val < wrapIndex c isn) → wrapIndex c isn ≤ i →
        (List.range' (firstMissing pre) (wrapIndex c isn - firstMissing pre)).Sublist (order.map (·.val))) ∧
      ResumesFrom isn (pre ++ [i]) order := by
  constructor
  · intro h
    refine ⟨fun hpre hi => by simpa using h [] i order rfl (by simpa using hpre) hi, fun p w q he hp hw => ?_⟩
    have := h (i :: p) w q (by rw [he]; rfl) (by simpa using hp) hw
    simpa using this
  · rintro ⟨h0, hrest⟩ p w q he hp hw
    cases p with
    | nil =>
      obtain ⟨rfl, rfl⟩ := List.cons.inj he
      simpa using h0 (by simpa using hp) hw
    | cons i' p =>
      obtain ⟨rfl, rfl⟩ := List.cons.inj he
      have := hrest p w q rfl (by simpa using hp) hw
      simpa using this

/-- A live stream ends up live exactly when the arrivals resume after the wrap-around. -/
theorem Live.run_iff (as : List (Arrival c)) (h : Live isn pre k is) (hr : Rep c isn s out k is) :
    Settles isn pre s out as (ResumesFrom isn pre (as.map (·.idx))) := by
  induction as generalizing pre s out k is with
  | nil => exact settles_nil hr (Or.inl ⟨fun p w q he => by simp at he, h⟩)
  | cons a as ih =>
    obtain ⟨k₁, is₁, hm, hr₁⟩ := hr.push a.idx a.now a.yieldAt a.cap
    rw [List.map_cons, resumesFrom_cons, h.firstMissing_eq hr.le]
    by_cases hi : k < wrapIndex c isn → a.idx.val < wrapIndex c isn
    · obtain ⟨h₁, -⟩ := h.step hr.sorted hi hm
      rw [and_iff_right]
      · exact settles_cons (ih h₁ hr₁)
      · -- nothing before the wrap-around is missing any more
        intro _ hU
        rw [show wrapIndex c isn - k = 0 by omega]
        exact List.nil_sublist _
    · push Not at hi
      obtain ⟨h₁, rfl⟩ := h.block hi.1 hi.2 hm
      have hlater : ResumesFrom isn (pre ++ [a.idx]) (as.map (·.idx)) := fun p w q _ hp =>
        absurd (hp a.idx (by simp)) (not_lt.2 hi.2)
      have hnow : ((∀ j ∈ pre, j.val < wrapIndex c isn) → wrapIndex c isn ≤ a.idx.val →
          (List.range' k₁ (wrapIndex c isn - k₁)).Sublist ((as.map (·.idx)).map (·.val))) ↔
          (List.range' k₁ (wrapIndex c isn - k₁)).Sublist (as.map (·.idx.val)) := by
        rw [List.map_map]
        exact ⟨fun hsub => hsub (h.calm hi.1) hi.2, fun hsub _ _ => hsub⟩
      rw [and_iff_left hlater, hnow]
      exact settles_cons (h₁.run as hr₁)

end Runs

/-! ## Completeness -/

section Completeness

variable {c : Cut} {isn : UInt32}

/-- The first segment is never behind the wrap-around. -/
theorem wrapIndex_pos (isn : UInt32) (i : Fin c.count) : 0 < wrapIndex c isn := by
  have h := (lt_wrapIndex_iff (c := c) isn ⟨0, i.pos⟩).2 (by
    have := isn.toNat_lt
    simpa [Cut.offset] using this)
  exact h

/-- The first arrival is taken as the baseline. -/
theorem live_first (isn : UInt32) (t₀ : Instant) (a : Arrival c) (ha : a.idx.val = 0) :
    Live isn [a.idx] 1 [] ∧
      Rep c isn (arrive isn (FlowStream.new t₀) a).1 (arrive isn (FlowStream.new t₀) a).2 1 [] := by
  have hU := wrapIndex_pos isn a.idx
  have hpos := a.idx.isLt
  have hf : Follows isn (c.segment a.idx).start _ _ _ [] :=
    follows_first (s := FlowStream.new t₀) rfl rfl rfl (c.segment a.idx) a.now a.yieldAt a.cap
  rw [c.segment_bytes] at hf
  have hstart : (c.segment a.idx).start = 0 := by simp [Cut.segment, ha, Cut.offset]
  have hstop : (c.segment a.idx).stop = c.offset 1 := by simp [Cut.segment, ha]
  refine ⟨⟨fun i hi => ?_, fun i hi => ?_, by simp, fun i _ => ?_, fun _ i hi => ?_⟩, by omega, ?_⟩
  · rw [show i = a.idx from Fin.ext (by omega)]
    simp
  · rw [List.mem_singleton.1 hi]
    omega
  · rw [List.mem_singleton]
    constructor
    · intro h; cases h
    · rintro ⟨rfl, hlt⟩
      omega
  · rw [List.mem_singleton.1 hi]
    omega
  · rw [hstart, hstop] at hf
    simpa [arrive, ha, Cut.offset] using hf

/-- A live stream that has got every segment has handed out or assembled everything. -/
theorem Live.complete {order is : List (Fin c.count)} {k : ℕ} (h : Live isn order k is) (hk : k ≤ c.count)
    (hall : ∀ i, i ∈ order) : k = c.count := by
  by_contra hne
  exact h.missing ⟨k, lt_of_le_of_ne hk hne⟩ (hall _) rfl

/-- What has been received is the part of the stream before the expected segment. -/
theorem Rep.received {s : FlowStream} {out : Bytes} {k : ℕ} {is : List (Fin c.count)} (h : Rep c isn s out k is) :
    out ++ s.flush.2.getD [] = c.stream ↔ k = c.count := by
  obtain ⟨-, -, -, hflush⟩ := s.flush_spec
  rw [hflush, h.follows.emitted]
  constructor
  · intro he
    have hlen := congrArg List.length he
    rw [List.length_slice (c.offset_le_length k), Nat.sub_zero, ← c.offset_count] at hlen
    exact (c.offset_inj h.le le_rfl).1 hlen
  · rintro rfl
    rw [c.offset_count, List.slice_zero_length]

/-- The segments of a stream, the first one first and the others in any order and number, are reassembled to the whole
stream exactly when the arrivals resume after the wrap-around. -/
theorem received_iff (c : Cut) (isn : UInt32) (t₀ : Instant) (a : Arrivals c) :
    received isn t₀ a.list = c.stream ↔ Resumes c isn (a.list.map (·.idx)) := by
  obtain ⟨as, hfirst, hall⟩ := a
  cases as with
  | nil =>
    have hnil : c.segs = [] := by
      by_contra hne
      exact absurd (hall ⟨0, List.length_pos_iff.2 hne⟩) (by simp)
    have hres : Resumes c isn [] := fun pre w post he => by simp at he
    simp [received, Mealy.after, Mealy.outputs, FlowStream.new, FlowStream.flush, Cut.stream, hnil, hres]
  | cons a as =>
    have ha : a.idx.val = 0 := hfirst a rfl
    have hU := wrapIndex_pos isn a.idx
    obtain ⟨hlive, hrep⟩ := live_first isn t₀ a ha
    have hiff : Resumes c isn ((a :: as).map (·.idx)) ↔ ResumesFrom isn [a.idx] (as.map (·.idx)) := by
      change ResumesFrom isn [] (a.idx :: as.map (·.idx)) ↔ _
      rw [resumesFrom_cons, List.nil_append, and_iff_right]
      exact fun _ hw => absurd hw (by omega)
    obtain ⟨k, is, hr, h⟩ := hlive.run_iff as hrep
    have hrec : received isn t₀ (a :: as) = c.stream ↔ k = c.count := by
      rw [← hr.received, received, Mealy.outputs, Mealy.after, List.flatten_cons]
    have hall' : ∀ i, i ∈ [a.idx] ++ as.map (·.idx) := by simpa using hall
    rw [hrec, hiff]
    rcases h with ⟨hP, hl⟩ | ⟨hP, hb⟩
    · exact iff_of_true (hl.complete hr.le hall') hP
    · have hlt := hb.lt_wrap
      have hle := (findIdx_range c.count fun i => 2 ^ 32 ≤ isn.toNat + c.offset i).1
      exact iff_of_false (hlt.trans_le hle).ne hP

/-- Four segments of two bytes, the last of them behind the wrap-around: it arrives before the second one, and the bytes
from the third segment on never come out. -/
theorem received_wrapped : ¬ ∀ (c : Cut) (isn : UInt32) (t₀ : Instant) (a : Arrivals c),
    received isn t₀ a.list = c.stream := by
  intro h
  let c : Cut := ⟨[[1, 2], [3, 4], [5, 6], [7, 8]], by decide, by decide⟩
  let order : List (Fin c.count) := [(0 : Fin 4), (2 : Fin 4), (3 : Fin 4), (1 : Fin 4)]
  have hrec := h c 4294967290 0 ⟨order.map fun i => ⟨i, 0, 512, 65536⟩, by decide, by decide⟩
  revert hrec
  decide +kernel

end Completeness

end ThorFirewall.Reassembler
