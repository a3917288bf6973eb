import ThorFirewall.Graph.AttackGraph

/-!
# The alerts of a campaign

`ingest` returns the campaign of an alert. The alert should be found there until the campaign is evicted; but the id of
a campaign is a part of the id of the alert that founds it, and a campaign under the same id is replaced.

- `kept_step_iff`: a step loses no alert exactly if a campaign that it founds has an id of its own;
- `kept_iff`: neither does a run whose alerts have distinct ids.
-/

namespace ThorFirewall.Graph

open Std AttackGraph

/-! ## Alerts and their campaigns -/

/-- Alerts with the campaigns that `ingest` has returned for them, as long as no eviction removes the campaign. -/
abbrev Ledger := List (String × String)

/-- An eviction removes the campaign. -/
def Removes (g : AttackGraph) (now : UInt64) (cid : String) : Prop :=
  cid ∈ g.campaigns ∧ cid ∉ (g.evictExpired now).campaigns

instance (g : AttackGraph) (now : UInt64) (cid : String) : Decidable (Removes g now cid) :=
  inferInstanceAs (Decidable (_ ∧ _))

def Ledger.record (l : Ledger) (g : AttackGraph) : Input → Ledger
  | .ingest alert tag now later => l ++ ((g.ingest alert tag now later).2.cid.map (alert.id, ·)).toList
  | .evictExpired now => l.filter fun entry => ¬ Removes g now entry.2

/-- The graph with its ledger. -/
def stepLedger (x : AttackGraph × Ledger) (i : Input) : AttackGraph × Ledger := ((step x.1 i).1, x.2.record x.1 i)

def ledger (window : UInt64) (inputs : List Input) : Ledger := (inputs.foldl stepLedger (.new window, [])).2

/-- **No alert is lost**: the alerts of the ledger are in their campaigns. -/
def Kept (window : UInt64) (inputs : List Input) : Prop :=
  ∀ id cid, (id, cid) ∈ ledger window inputs →
    ∃ c : Campaign, (after window inputs).campaigns[cid]? = some c ∧ id ∈ c.alertIds

/-- A campaign that the call founds has an id of its own. -/
def FoundsFresh (g : AttackGraph) : Input → Prop
  | .ingest alert tag now _ => ∀ cid, g.Founds alert tag now cid → cid ∉ g.campaigns
  | .evictExpired _ => True

/-- The ids of the alerts of a run. -/
def alertIds (inputs : List Input) : List String :=
  inputs.filterMap fun
    | .ingest alert _ _ _ => some alert.id
    | .evictExpired _ => none

variable {window : UInt64} {inputs : List Input} {g : AttackGraph} {l : Ledger}

theorem foldl_stepLedger (inputs : List Input) (x : AttackGraph × Ledger) :
    (inputs.foldl stepLedger x).1 = Mealy.after step x.1 inputs := by
  induction inputs generalizing x with
  | nil => rfl
  | cons i inputs ih => exact ih (stepLedger x i)

theorem ledger_concat (i : Input) :
    ledger window (inputs ++ [i]) = (ledger window inputs).record (after window inputs) i := by
  rw [ledger, List.foldl_concat, stepLedger, foldl_stepLedger]
  rfl

/-! ## What holds in every run -/

/-- Every alert of the ledger was ingested. -/
theorem mem_alertIds_of_ledger {id cid : String} (h : (id, cid) ∈ ledger window inputs) : id ∈ alertIds inputs := by
  induction inputs using List.reverseRecOn with
  | nil => cases h
  | append_singleton inputs i ih =>
    have hold (h : (id, cid) ∈ ledger window inputs) : id ∈ alertIds (inputs ++ [i]) := by
      rw [alertIds, List.filterMap_append]
      exact List.mem_append_left _ (ih h)
    rw [ledger_concat] at h
    cases i with
    | evictExpired now => exact hold (List.mem_of_mem_filter h)
    | ingest alert tag now later =>
      rcases List.mem_append.1 h with h | h
      · exact hold h
      · obtain ⟨cid', -, heq⟩ := Option.map_eq_some_iff.1 (Option.mem_toList.1 h)
        cases heq
        simp [alertIds]

/-- Every campaign has an alert in the ledger. -/
def Backed (g : AttackGraph) (l : Ledger) : Prop := ∀ cid, cid ∈ g.campaigns → ∃ id, (id, cid) ∈ l

/-- An insertion of a campaign that the ledger records. -/
theorem Backed.insert (h : Backed g l) {g' : AttackGraph} {alert : GraphAlert} {cid : String} {c : Campaign}
    (hg : g'.campaigns = g.campaigns.insert cid c) : Backed g' (l ++ [(alert.id, cid)]) := by
  intro k hk
  rw [hg, TreeMap.mem_insert] at hk
  rcases hk with hk | hk
  · rw [← Std.compare_eq_iff_eq.1 hk]
    exact ⟨alert.id, by simp⟩
  · obtain ⟨id, hid⟩ := h k hk
    exact ⟨id, List.mem_append_left _ hid⟩

theorem backed_step (h : Backed g l) (i : Input) : Backed (step g i).1 (l.record g i) := by
  cases i with
  | evictExpired now =>
    intro cid hcid
    have hbefore : cid ∈ g.campaigns := by
      rw [← TreeMap.isSome_getElem?_iff_mem, Option.isSome_iff_exists] at hcid ⊢
      obtain ⟨c, hc⟩ := hcid
      exact ⟨c, campaigns_evictExpired hc⟩
    obtain ⟨id, hid⟩ := h cid hbefore
    refine ⟨id, List.mem_filter.2 ⟨hid, ?_⟩⟩
    simp only [decide_eq_true_eq]
    exact fun hremoves => hremoves.2 hcid
  | ingest alert tag now later =>
    simp only [step, Ledger.record]
    rcases ingest_cases g alert tag now later with
      ⟨cid, c, -, hout, hcampaigns⟩ | ⟨cid, -, hout, hcampaigns⟩ | ⟨-, hout, hcampaigns⟩
    · rw [hout]
      exact h.insert hcampaigns
    · rw [hout]
      exact h.insert hcampaigns
    · rw [hout]
      intro cid hcid
      rw [hcampaigns] at hcid
      simpa using h cid hcid

theorem backed_run (window : UInt64) (inputs : List Input) :
    Backed (after window inputs) (ledger window inputs) := by
  induction inputs using List.reverseRecOn with
  | nil => exact fun cid h => absurd h TreeMap.not_mem_emptyc
  | append_singleton inputs i ih =>
    rw [after_concat, ledger_concat]
    exact backed_step ih i

/-! ## One step -/

theorem kept_nil : Kept window [] := fun _ _ h => by cases h

/-- An insertion keeps what the ledger says if the campaign has the new alert and, replacing another, those of it. -/
theorem kept_insert {g' : AttackGraph} {alert : GraphAlert} {cid : String} {c : Campaign}
    (h : ∀ id cid, (id, cid) ∈ l → ∃ c : Campaign, g.campaigns[cid]? = some c ∧ id ∈ c.alertIds)
    (hg : g'.campaigns = g.campaigns.insert cid c) (hnew : alert.id ∈ c.alertIds)
    (hold : ∀ d, g.campaigns[cid]? = some d → ∀ id ∈ d.alertIds, id ∈ c.alertIds) :
    ∀ id k, (id, k) ∈ l ++ [(alert.id, cid)] → ∃ c : Campaign, g'.campaigns[k]? = some c ∧ id ∈ c.alertIds := by
  intro id k hmem
  rw [hg, TreeMap.getElem?_insert]
  rcases List.mem_append.1 hmem with hmem | hmem
  · obtain ⟨d, hd, hid⟩ := h id k hmem
    split_ifs with hk
    · obtain rfl := Std.compare_eq_iff_eq.1 hk
      exact ⟨c, rfl, hold d hd id hid⟩
    · exact ⟨d, hd, hid⟩
  · cases List.mem_singleton.1 hmem
    rw [if_pos (Std.compare_eq_iff_eq.2 rfl)]
    exact ⟨c, rfl, hnew⟩

theorem kept_step_iff (i : Input) (h : Kept window inputs) (hdistinct : (alertIds (inputs ++ [i])).Nodup) :
    Kept window (inputs ++ [i]) ↔ FoundsFresh (after window inputs) i := by
  unfold Kept
  rw [after_concat, ledger_concat]
  cases i with
  | evictExpired now =>
    refine iff_of_true (fun id cid hmem => ?_) trivial
    obtain ⟨hmem, hstays⟩ := List.mem_filter.1 hmem
    obtain ⟨c, hc, hid⟩ := h id cid hmem
    have hafter : cid ∈ ((after window inputs).evictExpired now).campaigns := by
      by_contra hgone
      have hbefore : cid ∈ (after window inputs).campaigns := by
        rw [← TreeMap.isSome_getElem?_iff_mem, hc, Option.isSome_some]
      exact of_decide_eq_true hstays ⟨hbefore, hgone⟩
    rw [← TreeMap.isSome_getElem?_iff_mem, Option.isSome_iff_exists] at hafter
    obtain ⟨d, hd⟩ := hafter
    obtain rfl : c = d := by simpa [hc] using campaigns_evictExpired hd
    exact ⟨c, hd, hid⟩
  | ingest alert tag now later =>
    simp only [step, Ledger.record]
    rcases ingest_cases (after window inputs) alert tag now later with
      ⟨cid, c, hjoins, hout, hcampaigns⟩ | ⟨cid, hfounds, hout, hcampaigns⟩ | ⟨hnot, hout, hcampaigns⟩
    · rw [hout]
      refine iff_of_true (kept_insert h hcampaigns ?_ fun d hd id hid => ?_) fun k hk => by simp [hk.1] at hjoins
      · rw [Campaign.alertIds_absorb]
        simp
      · rw [campaigns_of_joins hjoins] at hd
        cases hd
        rw [Campaign.alertIds_absorb]
        exact List.mem_append_left _ hid
    · rw [hout]
      constructor
      · -- a campaign that was replaced had another alert
        intro hkept k hk hmem
        obtain rfl : cid = k := Option.some.inj (hfounds.2.2.symm.trans hk.2.2)
        obtain ⟨id, hid⟩ := backed_run window inputs cid hmem
        obtain ⟨d, hd, hidd⟩ := hkept id cid (List.mem_append_left _ hid)
        rw [hcampaigns, TreeMap.getElem?_insert_self] at hd
        cases hd
        have hsame : id = alert.id := List.mem_singleton.1 hidd
        have hids : alertIds (inputs ++ [.ingest alert tag now later]) = alertIds inputs ++ [alert.id] := by
          simp [alertIds]
        rw [hids, List.nodup_append] at hdistinct
        exact hdistinct.2.2 id (mem_alertIds_of_ledger hid) alert.id (by simp) hsame
      · intro hfresh
        refine kept_insert h hcampaigns (by simp [Campaign.new]) fun d hd => ?_
        rw [TreeMap.getElem?_eq_none (hfresh cid hfounds)] at hd
        cases hd
    · refine iff_of_true (fun id cid hmem => ?_) fun k hk => absurd hk (hnot k)
      rw [hcampaigns]
      exact h id cid (by simpa [hout] using hmem)

/-- **Alerts and campaigns.** In a run whose alerts have distinct ids, no alert is ever lost exactly if every campaign
is founded under an id that no campaign of the graph has. -/
theorem kept_iff (window : UInt64) (inputs : List Input) (hdistinct : (alertIds inputs).Nodup) :
    (∀ p, p <+: inputs → Kept window p) ↔ ∀ p i, p ++ [i] <+: inputs → FoundsFresh (after window p) i := by
  have hstep : ∀ is i, (is <+: inputs → Kept window is) →
      ((is ++ [i] <+: inputs → Kept window (is ++ [i])) ↔
        (is ++ [i] <+: inputs → FoundsFresh (after window is) i)) := by
    intro is i his
    refine imp_congr_right fun hp => kept_step_iff i (his ((List.prefix_append _ _).trans hp)) ?_
    obtain ⟨rest, rfl⟩ := hp
    rw [alertIds, List.filterMap_append] at hdistinct
    exact (List.nodup_append.1 hdistinct).1
  have hrun : (∀ p, p <+: inputs → p <+: inputs → Kept window p) ↔
      ∀ p i, p ++ [i] <+: inputs → p ++ [i] <+: inputs → FoundsFresh (after window p) i :=
    List.forall_prefix_iff (fun _ => kept_nil) hstep inputs
  constructor
  · intro h p i hp
    exact hrun.1 (fun p hp _ => h p hp) p i hp hp
  · intro h p hp
    exact hrun.2 (fun p i hp _ => h p i hp) p hp hp

/-- A scan from an address. -/
def scanFrom (id ip : String) (now : UInt64) : Input :=
  .ingest ⟨id, 0, "scan", some ip, none⟩ ⟨[⟨"T1595", .reconnaissance⟩], some 1⟩ now now

/-- Two scans from one address, and an eviction long after them. -/
def twoScans : List Input := [scanFrom "a1" "10.0.0.5" 0, scanFrom "a2" "10.0.0.5" 60, .evictExpired 100000]

/-- The second scan joins the campaign of the first one. -/
theorem kept_joined : (alertIds twoScans).Nodup ∧ ∀ p, p <+: twoScans → Kept 3600 p := by
  have hjoins : ((after 3600 [scanFrom "a1" "10.0.0.5" 0]).joins ⟨"a2", 0, "scan", some "10.0.0.5", none⟩
      60).isSome := by
    decide +kernel
  refine ⟨by decide, (kept_iff 3600 _ (by decide)).2 fun p i hp => ?_⟩
  rcases p with _ | ⟨first, _ | ⟨second, _ | ⟨third, p⟩⟩⟩
  · cases (List.cons_prefix_cons.1 hp).1
    exact fun cid _ => TreeMap.not_mem_emptyc
  · obtain ⟨hfirst, hrest⟩ := List.cons_prefix_cons.1 hp
    cases hfirst
    cases (List.cons_prefix_cons.1 hrest).1
    intro cid hfounds
    rw [hfounds.1] at hjoins
    cases hjoins
  · cases (List.cons_prefix_cons.1 (List.cons_prefix_cons.1 (List.cons_prefix_cons.1 hp).2).2).1
    exact trivial
  · have hle := hp.length_le
    exact absurd hle (by simp [twoScans])

/-- Two campaigns whose first alerts have the first eight bytes of their ids in common: the second replaces the
first. -/
theorem campaign_replaced : ¬ ∀ (window : UInt64) (inputs : List Input), (alertIds inputs).Nodup →
    ∀ p, p <+: inputs → Kept window p := by
  intro h
  obtain ⟨c, hc, hid⟩ := h 3600 [scanFrom "c0ffee00-1" "10.0.0.5" 0, scanFrom "c0ffee00-2" "10.0.0.6" 1] (by decide) _
    List.prefix_rfl "c0ffee00-1" "CAM-c0ffee00" (by decide +kernel)
  have hsecond : (after 3600 [scanFrom "c0ffee00-1" "10.0.0.5" 0, scanFrom "c0ffee00-2" "10.0.0.6" 1]).campaigns[
      "CAM-c0ffee00"]?.map (·.alertIds) = some ["c0ffee00-2"] := by decide +kernel
  rw [hc, Option.map_some, Option.some.injEq] at hsecond
  rw [hsecond] at hid
  exact absurd hid (by decide)

end ThorFirewall.Graph
