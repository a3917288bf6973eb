import Mathlib
import ThorFirewall.Soc.Engine

/-!
# The inbox of the SOC engine

Three handlers write an inbox entry: ingestion of an escalated event puts a pending entry under its id, whatever is
there; an approval looks at the status first; a rejection does not.

- `settled_decided`: a reviewed entry has a review in the audit log, in every reachable state;
- `decision_final_iff`: decisions are final exactly if no reviewed entry is reviewed or escalated again;
- `pending_count_iff`: the counter of pending decisions is exact exactly if no pending entry is escalated again, no
  reviewed entry is reviewed again, and the counter does not go round.
-/

namespace ThorFirewall.Soc

open Std Json

variable {F64 F32 : Type} {fl : Floats F64 F32} {digest : String → String} {s s' : SocState F64 F32}
  {r : Request F64}

/-! ## Decisions -/

/-- The entry under this id has been reviewed. -/
def Settled (s : SocState F64 F32) (id : String) : Prop := ∃ e, s.inbox[id]? = some e ∧ e.status ≠ .pending

/-- The entry under this id is waiting for a review. -/
def Waiting (s : SocState F64 F32) (id : String) : Prop := ∃ e, s.inbox[id]? = some e ∧ e.status = .pending

/-- What is reviewed in `s` is reviewed in `s'`, by the same analyst and to the same result. -/
def Final (s s' : SocState F64 F32) : Prop :=
  ∀ (id : String) (e : PendingDecision F64 F32), s.inbox[id]? = some e → e.status ≠ .pending →
    ∃ e', s'.inbox[id]? = some e' ∧ e'.status = e.status ∧ e'.reviewedBy = e.reviewedBy

theorem Final.refl (s : SocState F64 F32) : Final s s := fun _ e he _ => ⟨e, he, rfl, rfl⟩

theorem Final.trans {s'' : SocState F64 F32} (h : Final s s') (h' : Final s' s'') : Final s s'' := by
  intro id e he hp
  obtain ⟨e₁, he₁, hs₁, hr₁⟩ := h id e he hp
  obtain ⟨e₂, he₂, hs₂, hr₂⟩ := h' id e₁ he₁ (hs₁ ▸ hp)
  exact ⟨e₂, he₂, hs₂.trans hs₁, hr₂.trans hr₁⟩

/-- The request leaves reviewed entries alone. -/
def RespectsReviews (s : SocState F64 F32) (r : Request F64) : Prop :=
  ∀ id, r.Escalates id ∨ r.Reviews s id → ¬ Settled s id

theorem getElem?_insert_of (t : TreeMap String (PendingDecision F64 F32)) (id i : String)
    (e : PendingDecision F64 F32) : (t.insert id e)[i]? = if id = i then some e else t[i]? := by
  rw [TreeMap.getElem?_insert]
  simp only [Std.compare_eq_iff_eq]

/-- An entry that is overwritten takes away what was reviewed under its id only. -/
theorem final_of_insert {id : String} {e : PendingDecision F64 F32} (hinbox : s'.inbox = s.inbox.insert id e)
    (hid : ¬ Settled s id) : Final s s' := by
  intro i e₀ he₀ hp
  have hne : id ≠ i := by
    rintro rfl
    exact hid ⟨e₀, he₀, hp⟩
  refine ⟨e₀, ?_, rfl, rfl⟩
  rw [hinbox, getElem?_insert_of, if_neg hne, he₀]

theorem Final.step (h : RespectsReviews s r) (he : Effect s r s') : Final s s' := by
  cases he with
  | escalated id e hr _ hinbox => exact final_of_insert hinbox (h id (.inl hr))
  | reviewed id e e' hr _ _ hinbox => exact final_of_insert hinbox (h id (.inr hr))
  | quiet _ _ hinbox =>
    intro id e he _
    exact ⟨e, hinbox ▸ he, rfl, rfl⟩

/-! ## Reviews in the audit log -/

theorem settled_insert {id i : String} {e : PendingDecision F64 F32} (hinbox : s'.inbox = s.inbox.insert id e) :
    Settled s' i ↔ if id = i then e.status ≠ .pending else Settled s i := by
  unfold Settled
  rw [hinbox, getElem?_insert_of]
  split_ifs
  · simp
  · rfl

/-- A reviewed entry has a review in the log. -/
def Decided (s : SocState F64 F32) : Prop := ∀ id, Settled s id → 1 ≤ s.humanDecisions id

theorem Decided.step (h : Decided s) (he : Effect s r s') : Decided s' := by
  intro i hi
  cases he with
  | escalated id e _ he hinbox _ hlog =>
    rw [settled_insert hinbox] at hi
    split_ifs at hi
    · exact absurd he hi
    · exact (h i hi).trans_eq (hlog i).symm
  | reviewed id e e' _ _ _ hinbox _ hlog =>
    rw [settled_insert hinbox] at hi
    rw [hlog]
    split_ifs at hi ⊢
    · omega
    · exact h i hi
  | quiet _ _ hinbox _ hlog =>
    rw [hlog]
    exact h i (by rwa [Settled, hinbox] at hi)

theorem settled_decided (reqs : List (Request F64)) : Decided (after fl digest reqs) := by
  refine Mealy.after_inv ?_ (fun s r h => h.step (step_cases s r)) reqs
  rintro id ⟨e, he, -⟩
  simp [SocState.new] at he

/-- Reviewed entries have one review in the log, the others none. -/
def ReviewedOnce (s : SocState F64 F32) : Prop :=
  ∀ id, (Settled s id → s.humanDecisions id = 1) ∧ (¬ Settled s id → s.humanDecisions id = 0)

theorem ReviewedOnce.step (h : ReviewedOnce s) (hr : RespectsReviews s r) (he : Effect s r s') : ReviewedOnce s' := by
  intro i
  cases he with
  | escalated id e hesc he hinbox _ hlog =>
    rw [settled_insert hinbox, hlog]
    split_ifs with hi
    · refine ⟨fun hp => absurd he hp, fun _ => ?_⟩
      exact (h i).2 (hi ▸ hr id (.inl hesc))
    · exact h i
  | reviewed id e e' hrev _ he' hinbox _ hlog =>
    rw [settled_insert hinbox, hlog]
    split_ifs with hi
    · have hzero := (h i).2 (hi ▸ hr id (.inr hrev))
      exact ⟨fun _ => by omega, fun hp => absurd he' hp⟩
    · exact h i
  | quiet _ _ hinbox _ hlog =>
    rw [hlog, Settled, hinbox]
    exact h i

/-! ## Final decisions -/

/-- **A decision is final**, over a run: what is reviewed stays as it is, and no event has two reviews in the log. -/
def DecisionsFinal (fl : Floats F64 F32) (digest : String → String) (reqs : List (Request F64)) : Prop :=
  (∀ p q, p <+: q → q <+: reqs → Final (after fl digest p) (after fl digest q)) ∧
  ∀ p id, p <+: reqs → (after fl digest p).humanDecisions id ≤ 1

theorem final_of_respects {reqs : List (Request F64)}
    (h : ∀ p r, p ++ [r] <+: reqs → RespectsReviews (after fl digest p) r) (p q : List (Request F64)) (hpq : p <+: q)
    (hq : q <+: reqs) : Final (after fl digest p) (after fl digest q) := by
  induction q using List.reverseRecOn with
  | nil =>
    rw [List.prefix_nil.1 hpq]
    exact Final.refl _
  | append_singleton q r ih =>
    rcases List.prefix_concat_iff.1 hpq with rfl | hpq
    · exact Final.refl _
    · exact (ih hpq ((List.prefix_append q [r]).trans hq)).trans (Final.step (h q r hq) (effect_after q r))

theorem reviewedOnce_of_respects {reqs : List (Request F64)}
    (h : ∀ p r, p ++ [r] <+: reqs → RespectsReviews (after fl digest p) r) (p : List (Request F64)) (hp : p <+: reqs) :
    ReviewedOnce (after fl digest p) := by
  induction p using List.reverseRecOn with
  | nil =>
    intro id
    simp [SocState.new, Settled, SocState.humanDecisions]
  | append_singleton p r ih =>
    exact (ih ((List.prefix_append p [r]).trans hp)).step (h p r hp) (effect_after p r)

/-- A request that does not leave reviewed entries alone undoes a review, or adds a second one. -/
theorem respects_of_final (hdec : Decided s) (he : Effect s r s') (hfin : Final s s')
    (hlog : ∀ id, s'.humanDecisions id ≤ 1) : RespectsReviews s r := by
  rintro i hi hset
  cases he with
  | escalated id e hr hp hinbox =>
    obtain rfl : id = i := hr.unique (hi.resolve_right hr.not_reviews)
    obtain ⟨e₀, he₀, hp₀⟩ := hset
    obtain ⟨e₁, he₁, hs₁, -⟩ := hfin id e₀ he₀ hp₀
    rw [hinbox, getElem?_insert_of, if_pos rfl] at he₁
    rw [← hs₁, ← Option.some.inj he₁] at hp₀
    exact hp₀ hp
  | reviewed id e e' hr _ _ _ _ hlog' =>
    obtain rfl : id = i := hr.unique (hi.resolve_left fun h => h.not_reviews hr)
    have hone := hdec id hset
    have htwo := hlog id
    rw [hlog' id, if_pos rfl] at htwo
    omega
  | quiet hesc hrev =>
    rcases hi with hi | hi
    · exact hesc i hi
    · exact hrev i hi

/-- **When decisions are final.** In every run: exactly if no request reviews an entry that has been reviewed, or
escalates an event that has. -/
theorem decision_final_iff (fl : Floats F64 F32) (digest : String → String) (reqs : List (Request F64)) :
    DecisionsFinal fl digest reqs ↔ ∀ p r, p ++ [r] <+: reqs → RespectsReviews (after fl digest p) r := by
  constructor
  · rintro ⟨hfin, hlog⟩ p r hp
    exact respects_of_final (settled_decided p) (effect_after p r) (hfin p _ (List.prefix_append p [r]) hp) fun id => hlog _ id hp
  · intro h
    refine ⟨final_of_respects h, fun p id hp => ?_⟩
    have hone := reviewedOnce_of_respects h p hp id
    by_cases hs : Settled (after fl digest p) id
    · exact (hone.1 hs).le
    · exact (hone.2 hs).le.trans zero_le_one

/-- An agent escalates an event. -/
def escalate : Request ℚ :=
  .ingest (.object [("event_id", .string "ev-1"), ("agent_id", .string "net-a"), ("action", .string "PENDING_REVIEW"),
    ("decision", .string "escalated")]) "network" 1735689600

/-- An analyst approves it. -/
def approval : Request ℚ := .approve "ev-1" { analyst := "ana", note := none } 1735689660

/-- Another one rejects it. -/
def rejection : Request ℚ := .reject "ev-1" { analyst := "bob", note := none } 1735689720

/-- What the inbox says of the event. -/
def verdict (reqs : List (Request ℚ)) : Option (Status × Option String) :=
  (after exactFloats Sha256.hexDigest reqs).inbox["ev-1"]?.map fun e => (e.status, e.reviewedBy)

/-- A rejection undoes an approval and a second delivery undoes both, and there are two reviews in the audit log. -/
theorem decision_reversed : verdict [escalate, approval] = some (.approved, some "ana") ∧
    verdict [escalate, approval, rejection] = some (.rejected, some "bob") ∧
    verdict [escalate, approval, rejection, escalate] = some (.pending, none) ∧
    (after exactFloats Sha256.hexDigest [escalate, approval, rejection]).humanDecisions "ev-1" = 2 ∧
    ¬ DecisionsFinal exactFloats Sha256.hexDigest [escalate, approval, rejection] := by
  have htwo : (after exactFloats Sha256.hexDigest [escalate, approval, rejection]).humanDecisions "ev-1" = 2 := rfl
  refine ⟨rfl, rfl, rfl, htwo, fun h => ?_⟩
  have hone := h.2 _ "ev-1" (List.prefix_refl _)
  rw [htwo] at hone
  omega

/-! ## The counter of pending decisions -/

/-- The number of entries that wait for a review, as the dashboard counts it. -/
def SocState.pending (s : SocState F64 F32) : ℕ := (s.inbox.toList.map fun p => p.2).countP (·.status = .pending)

open Classical in
/-- Inserting an entry adds it if it is pending, and takes out the one it overwrites. -/
theorem pending_insert {id : String} {e : PendingDecision F64 F32} (hinbox : s'.inbox = s.inbox.insert id e) :
    s'.pending + (if Waiting s id then 1 else 0) = s.pending + if e.status = .pending then 1 else 0 := by
  have hcount := SortedMap.countP_insert (t := s.inbox) (p := fun q => decide (q.2.status = .pending)) (k := id)
    (fun _ _ => rfl) e
  have hold : (s.inbox[id]?.any fun e => decide (e.status = .pending)) = decide (Waiting s id) := by
    unfold Waiting
    cases s.inbox[id]? <;> simp
  unfold SocState.pending
  rw [List.countP_map, List.countP_map, hinbox]
  simpa [hold, Function.comp_def] using hcount

/-- The counter goes below zero. -/
def Wraps (s : SocState F64 F32) (r : Request F64) : Prop := (∃ id, r.Reviews s id) ∧ s.pendingCount = 0

/-- The request escalates nothing that is pending already, reviews nothing that is reviewed already, and the counter
does not go round. -/
def Counts (s : SocState F64 F32) (r : Request F64) : Prop :=
  ∀ id, (r.Escalates id → ¬ Waiting s id ∧ s.pendingCount.toNat + 1 < 2 ^ 64) ∧ (r.Reviews s id → ¬ Settled s id)

/-- **The counter is exact**, over a run. -/
def PendingExact (fl : Floats F64 F32) (digest : String → String) (reqs : List (Request F64)) : Prop :=
  (after fl digest reqs).pendingCount.toNat = (after fl digest reqs).pending ∧
  ∀ p r, p ++ [r] <+: reqs → ¬ Wraps (after fl digest p) r

theorem not_settled_iff {id : String} {e : PendingDecision F64 F32} (he : s.inbox[id]? = some e) :
    ¬ Settled s id ↔ Waiting s id := by
  simp [Settled, Waiting, he]

/-- One request. -/
theorem counts_iff (hs : s.pendingCount.toNat = s.pending) (he : Effect s r s') :
    s'.pendingCount.toNat = s'.pending ∧ ¬ Wraps s r ↔ Counts s r := by
  have hlt := s.pendingCount.toNat_lt
  cases he with
  | escalated id e hr hp hinbox hcount =>
    have hpend := pending_insert hinbox
    have hwrap : ¬ Wraps s r := fun h => h.1.elim fun i hi => hr.not_reviews hi
    have hcounts : Counts s r ↔ ¬ Waiting s id ∧ s.pendingCount.toNat + 1 < 2 ^ 64 :=
      ⟨fun h => (h id).1 hr, fun h i => ⟨fun hi => hr.unique hi ▸ h, fun hi => absurd hi hr.not_reviews⟩⟩
    rw [hcounts, and_iff_left hwrap, hcount, UInt64.toNat_add]
    rw [if_pos hp] at hpend
    show (s.pendingCount.toNat + 1) % 2 ^ 64 = _ ↔ _
    split_ifs at hpend with hw
    · simp only [hw, not_true_eq_false, false_and, iff_false]
      omega
    · simp only [hw, not_false_eq_true, true_and]
      omega
  | reviewed id e e' hr he hp hinbox hcount =>
    have hpend := pending_insert hinbox
    have hcounts : Counts s r ↔ Waiting s id := by
      rw [← not_settled_iff he]
      exact ⟨fun h => (h id).2 hr, fun h i => ⟨fun hi => absurd hr hi.not_reviews, fun hi => hr.unique hi ▸ h⟩⟩
    have hwrap : Wraps s r ↔ s.pendingCount.toNat = 0 :=
      ⟨fun h => by rw [h.2]; rfl, fun h => ⟨⟨id, hr⟩, UInt64.toNat_inj.1 h⟩⟩
    rw [hcounts, hwrap, hcount, UInt64.toNat_sub]
    rw [if_neg hp] at hpend
    show (2 ^ 64 - 1 + s.pendingCount.toNat) % 2 ^ 64 = _ ∧ _ ↔ _
    split_ifs at hpend with hw
    · simp only [hw, iff_true]
      omega
    · simp only [hw, iff_false]
      omega
  | quiet hesc hrev hinbox hcount =>
    have hpend : s'.pending = s.pending := by rw [SocState.pending, hinbox, SocState.pending]
    rw [hcount, hpend]
    have hwrap : ¬ Wraps s r := fun h => h.1.elim hrev
    have hcounts : Counts s r := fun id => ⟨fun h => absurd h (hesc id), fun h => absurd h (hrev id)⟩
    exact iff_of_true ⟨hs, hwrap⟩ hcounts

/-- **When the counter is exact.** In every state of a run: exactly if no request escalates an event whose entry is
pending, or reviews one that has been reviewed, and the counter does not go round. -/
theorem pending_count_iff (fl : Floats F64 F32) (digest : String → String) (reqs : List (Request F64)) :
    (∀ p, p <+: reqs → PendingExact fl digest p) ↔ ∀ p r, p ++ [r] <+: reqs → Counts (after fl digest p) r := by
  have h0 : PendingExact fl digest [] := by
    refine ⟨rfl, fun p r hp => ?_⟩
    simp at hp
  refine List.forall_prefix_iff h0 ?_ reqs
  rintro p r ⟨hexact, hwraps⟩
  rw [← counts_iff hexact (effect_after p r), PendingExact, and_congr_right_iff]
  intro _
  constructor
  · exact fun h => h p r (List.prefix_refl _)
  · intro h q r' hq
    rcases List.prefix_concat_iff.1 hq with hq | hq
    · obtain ⟨rfl, hr⟩ := List.append_inj' hq rfl
      rw [List.singleton_inj] at hr
      rwa [hr]
    · exact hwraps q r' hq

/-- An event that is delivered twice is counted twice, and a second rejection takes the counter below zero. -/
theorem pending_count_off :
    (after exactFloats Sha256.hexDigest [escalate, escalate]).pendingCount = 2 ∧
    (after exactFloats Sha256.hexDigest [escalate, escalate]).pending = 1 ∧
    (after exactFloats Sha256.hexDigest [escalate, rejection, rejection]).pendingCount = 18446744073709551615 ∧
    ¬ PendingExact exactFloats Sha256.hexDigest [escalate, escalate] ∧
    ¬ PendingExact exactFloats Sha256.hexDigest [escalate, rejection, rejection] := by
  refine ⟨rfl, rfl, rfl, fun h => absurd h.1 (by decide), fun h => ?_⟩
  refine h.2 [escalate, rejection] rejection (List.prefix_refl _) ⟨⟨"ev-1", rfl, ?_⟩, rfl⟩
  exact ⟨_, rfl⟩

end ThorFirewall.Soc
