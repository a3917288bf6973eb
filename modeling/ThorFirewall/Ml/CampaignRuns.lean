import Mathlib
import ThorFirewall.Ml.CampaignCorrelator

/-!
# Runs of the campaign correlator (`ml/campaign_correlator.rs`)

Which alert went into which campaign is read off the calls and what they return (`assignments`). Over every run whose
alerts have distinct ids and ASCII technique ids, and whose generated campaign ids are fresh:

- `Conserved.merged`, `Conserved.seeded`, `Conserved.evicted`: what one call keeps;
- `correlator_conserves`: no call panics, every alert is in the campaign that `ingest` returned and in no other until
  that campaign is evicted, and every campaign says of its alerts what is so.
-/

namespace ThorFirewall.Ml

open Std KillChainStage

variable {F : Type*} [Add F] [Mul F] [Div F] [Min F] [OfScientific F]

/-! ## What the calls say -/

/-- The alerts of a run. -/
def alertsOf (inputs : List (Input F)) : List CorrelatedAlert :=
  inputs.filterMap fun
    | .ingest _ _ alert => some alert
    | .evictStale _ => none

/-- The ids that are generated if a call founds a campaign. -/
def uuidsOf (inputs : List (Input F)) : List String :=
  inputs.filterMap fun
    | .ingest _ uuid _ => some uuid
    | .evictStale _ => none

/-- The alert of a call, with the campaign id that the call returns. -/
def assignment : Input F × Outcome → Option (CorrelatedAlert × String)
  | (.ingest _ _ alert, .assigned id) => some (alert, id)
  | _ => none

def assignments (inputs : List (Input F)) (outs : List Outcome) : List (CorrelatedAlert × String) :=
  (inputs.zip outs).filterMap assignment

/-- The campaigns that were evicted. -/
def evictedIds (outs : List Outcome) : List String :=
  outs.flatMap fun
    | .evicted ids => ids
    | _ => []

/-- The alerts of one campaign, in the order of the calls. -/
def membersOf (assigned : List (CorrelatedAlert × String)) (id : String) : List CorrelatedAlert :=
  assigned.filterMap fun p => if p.2 = id then some p.1 else none

variable {assigned : List (CorrelatedAlert × String)} {gone used : List String} {campaigns : Campaigns F}
  {id : String} {alert : CorrelatedAlert}

theorem mem_membersOf : alert ∈ membersOf assigned id ↔ (alert, id) ∈ assigned := by
  simp only [membersOf, List.mem_filterMap]
  constructor
  · rintro ⟨⟨a, k⟩, hp, h⟩
    split_ifs at h with hk
    cases h
    exact hk ▸ hp
  · intro h
    exact ⟨_, h, if_pos rfl⟩

theorem membersOf_concat_self (assigned : List (CorrelatedAlert × String)) (alert : CorrelatedAlert) (id : String) :
    membersOf (assigned ++ [(alert, id)]) id = membersOf assigned id ++ [alert] := by
  simp [membersOf]

theorem membersOf_concat_ne {id' : String} (h : id' ≠ id) :
    membersOf (assigned ++ [(alert, id')]) id = membersOf assigned id := by
  simp [membersOf, h]

/-! ## What a call keeps -/

/-- **The invariant.** Every campaign aggregates the alerts that were assigned to it; the campaigns of the assigned
alerts are there or evicted; and all of their ids are among the generated ones. -/
structure Conserved (assigned : List (CorrelatedAlert × String)) (gone used : List String)
    (campaigns : Campaigns F) : Prop where
  aggregates : ∀ id c, campaigns[id]? = some c → Aggregates c (membersOf assigned id)
  placed : ∀ p ∈ assigned, p.2 ∈ campaigns ↔ p.2 ∉ gone
  founded : ∀ id, id ∈ campaigns ∨ id ∈ gone → ∃ p ∈ assigned, p.2 = id
  fresh : ∀ p ∈ assigned, p.2 ∈ used

omit [Add F] [Mul F] [Div F] [Min F] [OfScientific F] in
theorem Conserved.notMem_gone (h : Conserved assigned gone used campaigns) (hid : id ∈ campaigns) : id ∉ gone := by
  obtain ⟨p, hp, rfl⟩ := h.founded id (Or.inl hid)
  exact (h.placed p hp).1 hid

/-- A merged alert. -/
theorem Conserved.merged (h : Conserved assigned gone used campaigns) (uuid : String) {c c' : Campaign F}
    (hc : campaigns[id]? = some c) (hc' : c.merge alert = some c') :
    Conserved (assigned ++ [(alert, id)]) gone (used ++ [uuid]) (campaigns.insert id c') := by
  have hid : id ∈ campaigns := TreeMap.isSome_getElem?_iff_mem.1 (by rw [hc]; rfl)
  refine ⟨fun k d hd => ?_, fun p hp => ?_, fun k hk => ?_, fun p hp => ?_⟩
  · rw [TreeMap.getElem?_insert] at hd
    by_cases hk : id = k
    · subst hk
      rw [if_pos compare_self] at hd
      cases hd
      rw [membersOf_concat_self]
      exact (h.aggregates id c hc).merge hc'
    · rw [if_neg (by simpa using hk)] at hd
      rw [membersOf_concat_ne hk]
      exact h.aggregates k d hd
  · rw [TreeMap.mem_insert]
    rcases List.mem_append.1 hp with hp | hp
    · rw [← h.placed p hp]
      constructor
      · rintro (heq | hmem)
        · rwa [← LawfulEqCmp.eq_of_compare heq]
        · exact hmem
      · exact Or.inr
    · obtain rfl := List.mem_singleton.1 hp
      exact iff_of_true (Or.inr hid) (h.notMem_gone hid)
  · have hold : k ∈ campaigns ∨ k ∈ gone := by
      rcases hk with hk | hk
      · rcases TreeMap.mem_insert.1 hk with heq | hk
        · exact Or.inl (LawfulEqCmp.eq_of_compare heq ▸ hid)
        · exact Or.inl hk
      · exact Or.inr hk
    obtain ⟨p, hp, rfl⟩ := h.founded k hold
    exact ⟨p, List.mem_append_left _ hp, rfl⟩
  · rcases List.mem_append.1 hp with hp | hp
    · exact List.mem_append_left _ (h.fresh p hp)
    · obtain rfl := List.mem_singleton.1 hp
      obtain ⟨q, hq, heq⟩ := h.founded id (Or.inl hid)
      exact List.mem_append_left _ (heq ▸ h.fresh q hq)

omit [Add F] [Mul F] [Min F] in
/-- A new campaign under a fresh id. -/
theorem Conserved.seeded (h : Conserved assigned gone used campaigns) {uuid : String} {c : Campaign F}
    (hfresh : uuid ∉ used) (hc : Campaign.new uuid alert = some c) :
    Conserved (assigned ++ [(alert, uuid)]) gone (used ++ [uuid]) (campaigns.insert uuid c) := by
  have hnone : ∀ p ∈ assigned, p.2 ≠ uuid := fun p hp heq => hfresh (heq ▸ h.fresh p hp)
  have hgone : uuid ∉ gone := by
    intro hmem
    obtain ⟨p, hp, heq⟩ := h.founded uuid (Or.inr hmem)
    exact hnone p hp heq
  refine ⟨fun k d hd => ?_, fun p hp => ?_, fun k hk => ?_, fun p hp => ?_⟩
  · rw [TreeMap.getElem?_insert] at hd
    by_cases hk : uuid = k
    · subst hk
      rw [if_pos compare_self] at hd
      cases hd
      have hempty : membersOf assigned uuid = [] := by
        rw [List.eq_nil_iff_forall_not_mem]
        exact fun a ha => hnone _ (mem_membersOf.1 ha) rfl
      rw [membersOf_concat_self, hempty]
      exact (aggregates_new hc).2
    · rw [if_neg (by simpa using hk)] at hd
      rw [membersOf_concat_ne hk]
      exact h.aggregates k d hd
  · rw [TreeMap.mem_insert]
    rcases List.mem_append.1 hp with hp | hp
    · rw [← h.placed p hp]
      exact or_iff_right fun heq => hnone p hp (LawfulEqCmp.eq_of_compare heq).symm
    · obtain rfl := List.mem_singleton.1 hp
      exact iff_of_true (Or.inl compare_self) hgone
  · rcases hk with hk | hk
    · rcases TreeMap.mem_insert.1 hk with heq | hk
      · exact ⟨(alert, uuid), by simp, LawfulEqCmp.eq_of_compare heq⟩
      · obtain ⟨p, hp, rfl⟩ := h.founded k (Or.inl hk)
        exact ⟨p, List.mem_append_left _ hp, rfl⟩
    · obtain ⟨p, hp, rfl⟩ := h.founded k (Or.inr hk)
      exact ⟨p, List.mem_append_left _ hp, rfl⟩
  · rcases List.mem_append.1 hp with hp | hp
    · exact List.mem_append_left _ (h.fresh p hp)
    · obtain rfl := List.mem_singleton.1 hp
      simp

omit [Add F] [Mul F] [Div F] [Min F] [OfScientific F] in
theorem mem_of_mem_evictStale {cutoff : ℤ} (h : id ∈ evictStale campaigns cutoff) : id ∈ campaigns := by
  obtain ⟨c, hc⟩ := Option.isSome_iff_exists.1 (TreeMap.isSome_getElem?_iff_mem.2 h)
  rw [getElem?_evictStale] at hc
  exact TreeMap.isSome_getElem?_iff_mem.1 (by rw [(Option.filter_eq_some_iff.1 hc).1]; rfl)

omit [Add F] [Mul F] [Div F] [Min F] [OfScientific F] in
/-- An eviction. -/
theorem Conserved.evicted (h : Conserved assigned gone used campaigns) (cutoff : ℤ) :
    Conserved assigned
      (gone ++ campaigns.keys.filter fun id => decide (id ∉ evictStale campaigns cutoff)) used
      (evictStale campaigns cutoff) := by
  refine ⟨fun k c hc => ?_, fun p hp => ?_, fun k hk => ?_, h.fresh⟩
  · rw [getElem?_evictStale] at hc
    exact h.aggregates k c (Option.filter_eq_some_iff.1 hc).1
  · simp only [List.mem_append, List.mem_filter, TreeMap.mem_keys, decide_eq_true_eq, not_or, ← h.placed p hp]
    constructor
    · intro hmem
      exact ⟨mem_of_mem_evictStale hmem, fun hout => hout.2 hmem⟩
    · rintro ⟨hmem, hin⟩
      by_contra hout
      exact hin ⟨hmem, hout⟩
  · rcases hk with hk | hk
    · exact h.founded k (Or.inl (mem_of_mem_evictStale hk))
    · rcases List.mem_append.1 hk with hk | hk
      · exact h.founded k (Or.inr hk)
      · exact h.founded k (Or.inl (TreeMap.mem_keys.1 (List.mem_filter.1 hk).1))

/-! ## Runs -/

/-- What the runs take for granted: generated campaign ids are fresh, and technique ids are ASCII. -/
structure Regular (inputs : List (Input F)) : Prop where
  uuids : (uuidsOf inputs).Nodup
  ascii : ∀ alert ∈ alertsOf inputs, ∀ t ∈ alert.mitreTechniques, Utf8.IsAscii t.toList

variable {cmp : F → F → Ordering} {inputs pre : List (Input F)} {outs : List Outcome} {i : Input F} {o : Outcome}

omit [Add F] [Mul F] [Div F] [Min F] [OfScientific F] in
theorem Regular.of_append {post : List (Input F)} (h : Regular (pre ++ post)) : Regular pre := by
  constructor
  · have hnodup := h.uuids
    rw [uuidsOf, List.filterMap_append] at hnodup
    exact (List.nodup_append.1 hnodup).1
  · intro alert halert
    exact h.ascii alert (by rw [alertsOf, List.filterMap_append]; exact List.mem_append_left _ halert)

omit [Add F] [Mul F] [Div F] [Min F] [OfScientific F] in
theorem assignments_concat (h : inputs.length = outs.length) :
    assignments (inputs ++ [i]) (outs ++ [o]) = assignments inputs outs ++ (assignment (i, o)).toList := by
  rw [assignments, List.zip_append h, List.filterMap_append, ← assignments]
  cases hassigned : assignment (i, o) <;> simp [hassigned]

/-- What is known after some calls. -/
structure Known (inputs : List (Input F)) (outs : List Outcome) (s : Option (Campaigns F)) : Prop where
  length_eq : inputs.length = outs.length
  alerts : (assignments inputs outs).map (fun p => p.1) = alertsOf inputs
  conserved : ∃ campaigns, s = some campaigns ∧
    Conserved (assignments inputs outs) (evictedIds outs) (uuidsOf inputs) campaigns

@[simp] theorem evictedIds_evicted (outs : List Outcome) (ids : List String) :
    evictedIds (outs ++ [.evicted ids]) = evictedIds outs ++ ids := by
  simp [evictedIds]

omit [Add F] [Mul F] [Div F] [Min F] [OfScientific F] in
/-- A call that returns the campaign of its alert. -/
theorem Known.assign (h : Known inputs outs (some campaigns)) (order : HashOrder F) (uuid : String)
    (alert : CorrelatedAlert) (id : String) {campaigns' : Campaigns F}
    (hc : Conserved (assignments inputs outs ++ [(alert, id)]) (evictedIds outs) (uuidsOf inputs ++ [uuid])
      campaigns') :
    Known (inputs ++ [.ingest order uuid alert]) (outs ++ [.assigned id]) (some campaigns') := by
  have hassigned : assignments (inputs ++ [.ingest order uuid alert]) (outs ++ [.assigned id]) =
      assignments inputs outs ++ [(alert, id)] := assignments_concat h.length_eq
  refine ⟨by simp [h.length_eq], ?_, campaigns', rfl, ?_⟩
  · rw [hassigned, List.map_append, h.alerts]
    simp [alertsOf]
  · rw [hassigned]
    simpa [evictedIds, uuidsOf] using hc

omit [Add F] [Mul F] [Div F] [Min F] [OfScientific F] in
/-- A call of `evict_stale`. -/
theorem Known.evict (h : Known inputs outs (some campaigns)) (cutoff : Option ℤ) (o : Outcome)
    {campaigns' : Campaigns F}
    (hc : Conserved (assignments inputs outs) (evictedIds (outs ++ [o])) (uuidsOf inputs) campaigns') :
    Known (inputs ++ [.evictStale cutoff]) (outs ++ [o]) (some campaigns') := by
  have hassigned : assignments (inputs ++ [.evictStale cutoff]) (outs ++ [o]) = assignments inputs outs := by
    rw [assignments_concat h.length_eq]
    simp [assignment]
  refine ⟨by simp [h.length_eq], ?_, campaigns', rfl, ?_⟩
  · rw [hassigned, h.alerts]
    simp [alertsOf]
  · rw [hassigned]
    simpa [uuidsOf] using hc

/-- **One call.** -/
theorem Known.step {s : Option (Campaigns F)} (h : Known inputs outs s) (hreg : Regular (inputs ++ [i])) :
    Known (inputs ++ [i]) (outs ++ [(Ml.step cmp s i).2]) (Ml.step cmp s i).1 := by
  obtain ⟨campaigns, rfl, hc⟩ := h.conserved
  cases i with
  | ingest order uuid alert =>
    have hstages : ∀ t ∈ alert.mitreTechniques, (techniqueToStage t).isSome := fun t ht =>
      isSome_of_ascii (hreg.ascii alert (by simp [alertsOf]) t ht)
    have hfresh : uuid ∉ uuidsOf inputs := by
      have hnodup := hreg.uuids
      rw [uuidsOf, List.filterMap_append, ← uuidsOf] at hnodup
      exact fun hmem => (List.nodup_append.1 hnodup).2.2 uuid hmem uuid (by simp) rfl
    rcases ingest_cases cmp campaigns order uuid alert with ⟨id, c, hget, hingest⟩ | hingest
    · obtain ⟨c', hmerge⟩ := exists_merge (hc.aggregates id c hget) hstages
      rw [hmerge, Option.map_some] at hingest
      simp only [Ml.step, hingest]
      exact h.assign order uuid alert id (hc.merged uuid hget hmerge)
    · obtain ⟨stage, hstage⟩ := exists_fromTechniques hstages
      obtain ⟨c, hnew⟩ : ∃ c, Campaign.new uuid alert = some (c : Campaign F) :=
        ⟨_, Option.map_eq_some_iff.2 ⟨stage, hstage, rfl⟩⟩
      rw [hnew, Option.map_some] at hingest
      simp only [Ml.step, hingest]
      exact h.assign order uuid alert uuid (hc.seeded hfresh hnew)
  | evictStale cutoff =>
    cases cutoff with
    | none => exact h.evict none .panicked (by simpa [evictedIds] using hc)
    | some cutoff =>
      simp only [Ml.step]
      exact h.evict (some cutoff) _ (by rw [evictedIds_evicted]; exact hc.evicted cutoff)

theorem known_run (cmp : F → F → Ordering) (hreg : Regular inputs) :
    Known inputs (outcomes cmp inputs) (after cmp inputs) := by
  refine Mealy.history_inv (P := fun is os s => Regular is → Known is os s) (fun _ => ?_)
    (fun is os s i ih hreg => (ih hreg.of_append).step hreg) inputs hreg
  refine ⟨rfl, rfl, ∅, rfl, fun id c hc => ?_, by simp [assignments], fun id hid => ?_, by simp [assignments]⟩
  · simp at hc
  · simp [evictedIds] at hid

theorem assignments_mono (cmp : F → F → Ordering) (pre post : List (Input F)) :
    assignments pre (outcomes cmp pre) <+: assignments (pre ++ post) (outcomes cmp (pre ++ post)) := by
  rw [assignments, assignments, outcomes, outcomes, Mealy.outputs_append, List.zip_append (by simp),
    List.filterMap_append]
  exact List.prefix_append _ _

/-- **The correlator conserves alerts and aggregates.** In every run whose alerts have distinct ids and ASCII technique
ids and whose generated campaign ids are fresh: each call of `ingest` returns a campaign; among the campaigns, the alert
is in this one and no other; this one is there until it is evicted; every campaign says of its alerts what is so; and
the stage of a campaign has never gone down. -/
theorem correlator_conserves (cmp : F → F → Ordering) (inputs : List (Input F))
    (hids : ((alertsOf inputs).map fun a => a.id).Nodup) (hreg : Regular inputs) :
    ∃ campaigns, after cmp inputs = some campaigns ∧
      (assignments inputs (outcomes cmp inputs)).map (fun p => p.1) = alertsOf inputs ∧
      (∀ alert id, (alert, id) ∈ assignments inputs (outcomes cmp inputs) →
        (id ∈ campaigns ↔ id ∉ evictedIds (outcomes cmp inputs)) ∧
        ∀ k c, campaigns[k]? = some c → (alert.id ∈ c.alertIds ↔ k = id)) ∧
      (∀ id c, campaigns[id]? = some c →
        Aggregates c (membersOf (assignments inputs (outcomes cmp inputs)) id)) ∧
      ∀ pre post before, inputs = pre ++ post → after cmp pre = some before →
        ∀ (id : String) (c c' : Campaign F), before[id]? = some c → campaigns[id]? = some c' →
          c.killChainStage ≤ c'.killChainStage := by
  obtain ⟨-, halerts, campaigns, hafter, hc⟩ := known_run cmp hreg
  refine ⟨campaigns, hafter, halerts, fun alert id hmem => ⟨hc.placed _ hmem, fun k c hk => ?_⟩, hc.aggregates, ?_⟩
  · rw [(hc.aggregates k c hk).alertIds, List.mem_map]
    constructor
    · rintro ⟨a, ha, haid⟩
      -- the assigned alerts have distinct ids
      have hnodup : ((assignments inputs (outcomes cmp inputs)).map fun p => p.1.id).Nodup := by
        rw [← halerts, List.map_map] at hids
        exact hids
      have heq := List.inj_on_of_nodup_map hnodup (mem_membersOf.1 ha) hmem haid
      exact congrArg Prod.snd heq
    · rintro rfl
      exact ⟨alert, mem_membersOf.2 hmem, rfl⟩
  · rintro pre post before rfl hbefore id c c' hid hid'
    obtain ⟨-, -, campaigns', hafter', hc'⟩ := known_run cmp hreg.of_append
    obtain rfl : before = campaigns' := Option.some.inj (hbefore.symm.trans hafter')
    have hold := hc'.aggregates id c hid
    have hnew := hc.aggregates id c' hid'
    refine fromTechniques_mono (fun t ht => ?_)
      (hold.killChainStage ((membersOf _ id).flatMap fun a => a.mitreTechniques) hold.mitreTechniques.symm)
      (hnew.killChainStage ((membersOf _ id).flatMap fun a => a.mitreTechniques) hnew.mitreTechniques.symm)
    obtain ⟨a, ha, hta⟩ := List.mem_flatMap.1 ht
    exact List.mem_flatMap.2
      ⟨a, mem_membersOf.2 ((assignments_mono cmp pre post).subset (mem_membersOf.1 ha)), hta⟩

/-- An alert with one technique. -/
def sampleAlert (id technique : String) (timestamp : ℤ) : CorrelatedAlert :=
  { id, timestamp, severity := 3, srcIp := some "1.2.3.4", dstIp := none, pid := none, entityId := none,
    mitreTechniques := [technique], iocHashes := [], sourceEngine := "sigma" }

/-- Two alerts of one source, and an eviction. -/
def sampleRun : List (Input ℚ) :=
  [.ingest ⟨fun l => l, .refl⟩ "c1" (sampleAlert "a1" "T1190" 5),
    .ingest ⟨fun l => l, .refl⟩ "c2" (sampleAlert "a2" "T1059" 7), .evictStale (some 6)]

theorem correlator_conserves_sample : ((alertsOf sampleRun).map fun a => a.id).Nodup ∧ Regular sampleRun ∧
    ∃ campaigns, after compare sampleRun = some campaigns ∧
      (assignments sampleRun (outcomes compare sampleRun)).map (fun p => p.1) = alertsOf sampleRun := by
  have hids : ((alertsOf sampleRun).map fun a => a.id).Nodup := by decide
  have hreg : Regular sampleRun := ⟨by decide, by decide +kernel⟩
  obtain ⟨campaigns, hafter, halerts, -⟩ := correlator_conserves compare sampleRun hids hreg
  exact ⟨hids, hreg, campaigns, hafter, halerts⟩

end ThorFirewall.Ml
