import Mathlib
import ThorFirewall.Lib.Mealy
import ThorFirewall.Lib.SortedMap
import ThorFirewall.Lib.Utf8

/-!
# The campaign correlator (`ml/campaign_correlator.rs`)

Alerts are merged into campaigns. An alert goes into the matching campaign with the highest threat score, the last one
of them in the order in which the hash map is walked, or else into a new campaign. Threat scores are numbers of some
type with the operations of the source, times are in nanoseconds. A technique id that has no character boundary behind
its sixth byte makes a call panic, and the panic poisons the lock: `none` is the poisoned correlator.

- `fromTechniques_eq_some`: the stage of a list of techniques is that of its members, the highest;
- `ingest_cases`, `getElem?_evictStale`: what a call can do;
- `Aggregates`: what a campaign says about its alerts, kept by `merge` (`Aggregates.merge`).
-/

namespace ThorFirewall.Ml

open Std

/-! ## Alerts and stages -/

structure CorrelatedAlert where
  id : String
  timestamp : ℤ
  severity : UInt8
  srcIp : Option String
  dstIp : Option String
  pid : Option UInt32
  entityId : Option String
  mitreTechniques : List String
  iocHashes : List String
  sourceEngine : String

inductive KillChainStage
  | unknown
  | reconnaissance
  | weaponization
  | delivery
  | exploitation
  | installation
  | commandControl
  | actionsOnObj
  deriving DecidableEq, Repr

namespace KillChainStage

def toNat : KillChainStage → ℕ
  | unknown => 0
  | reconnaissance => 1
  | weaponization => 2
  | delivery => 3
  | exploitation => 4
  | installation => 5
  | commandControl => 6
  | actionsOnObj => 7

theorem toNat_injective : Function.Injective toNat := by
  intro s s' h
  cases s <;> cases s' <;> first | rfl | cases h

instance : LinearOrder KillChainStage := .lift' toNat toNat_injective

theorem unknown_le (s : KillChainStage) : unknown ≤ s := Nat.zero_le s.toNat

/-- The rows of the table, in order: the first row with a matching prefix counts. -/
def table : List (List String × KillChainStage) :=
  [(["T1595", "T1590", "T1589"], reconnaissance), (["T1587", "T1588", "T1583"], weaponization),
    (["T1566", "T1190", "T1133"], delivery), (["T1059", "T1203", "T1068"], exploitation),
    (["T1053", "T1543", "T1547", "T1215", "T1014"], installation),
    (["T1071", "T1572", "T1095", "T1008"], commandControl), (["T1485", "T1486", "T1048", "T1041"], actionsOnObj),
    (["T1548", "T1055", "T1611"], exploitation)]

/-- `none` if the slice panics. -/
def techniqueToStage (technique : String) : Option KillChainStage :=
  (Text.takeBytes technique.toList (min (Text.byteLength technique.toList) 6)).map fun t =>
    ((table.find? fun row => row.1.any fun p => p.toList.isPrefixOf t).map fun row => row.2).getD unknown

def fromTechniques (techniques : List String) : Option KillChainStage :=
  techniques.foldlM (fun maxStage t =>
    (techniqueToStage t).map fun stage => if maxStage < stage then stage else maxStage) unknown

end KillChainStage

open KillChainStage

/-! ## Campaigns -/

structure Campaign (F : Type*) where
  id : String
  firstSeen : ℤ
  lastSeen : ℤ
  threatScore : F
  alertIds : List String
  alertCount : ℕ
  srcIps : Finset String
  dstIps : Finset String
  mitreTechniques : Finset String
  killChainStage : KillChainStage
  sourceEngines : Finset String
  iocHashes : Finset String

/-- Half an hour. -/
def thirtyMinutes : ℤ := 30 * 60 * 10 ^ 9

variable {F : Type*} [Add F] [Mul F] [Div F] [Min F] [OfScientific F]

/-- A whole number as one of these. -/
def ofNat {F : Type*} [OfScientific F] (n : ℕ) : F := OfScientific.ofScientific n false 0

namespace Campaign

def new (uuid : String) (seed : CorrelatedAlert) : Option (Campaign F) :=
  (fromTechniques seed.mitreTechniques).map fun stage =>
    { id := uuid
      firstSeen := seed.timestamp
      lastSeen := seed.timestamp
      threatScore := ofNat seed.severity.toNat / 4.0
      alertIds := [seed.id]
      alertCount := 1
      srcIps := seed.srcIp.toFinset
      dstIps := seed.dstIp.toFinset
      mitreTechniques := seed.mitreTechniques.toFinset
      killChainStage := stage
      sourceEngines := {seed.sourceEngine}
      iocHashes := seed.iocHashes.toFinset }

/-- The first part of `merge`: everything that is collected. -/
def collect (c : Campaign F) (alert : CorrelatedAlert) : Campaign F :=
  { c with
    lastSeen := max alert.timestamp c.lastSeen
    alertCount := c.alertCount + 1
    alertIds := c.alertIds ++ [alert.id]
    srcIps := c.srcIps ∪ alert.srcIp.toFinset
    dstIps := c.dstIps ∪ alert.dstIp.toFinset
    mitreTechniques := c.mitreTechniques ∪ alert.mitreTechniques.toFinset
    iocHashes := c.iocHashes ∪ alert.iocHashes.toFinset
    sourceEngines := insert alert.sourceEngine c.sourceEngines }

def score (c : Campaign F) (severity : UInt8) : F :=
  let severityContrib : F := ofNat severity.toNat / 4.0
  let killChainContribution : F := ofNat c.killChainStage.toNat / 7.0 * 0.30
  let multiEngineBonus : F := if 1 < c.sourceEngines.card then 0.10 else 0.0
  min (0.60 * severityContrib + killChainContribution + multiEngineBonus +
    0.05 * min (ofNat c.alertCount / 100.0) 1.0) 1.0

/-- The techniques are walked in some order; the stage does not depend on it (`fromTechniques_eq_some`). -/
def merge (c : Campaign F) (alert : CorrelatedAlert) : Option (Campaign F) :=
  let c := c.collect alert
  (fromTechniques (c.mitreTechniques.sort (· ≤ ·))).map fun newStage =>
    let c := if c.killChainStage < newStage then { c with killChainStage := newStage } else c
    { c with threatScore := c.score alert.severity }

/-- `matches`. -/
def matchesAlert (c : Campaign F) (alert : CorrelatedAlert) : Bool :=
  (alert.srcIp.map fun src => decide (src ∈ c.srcIps)).getD false ||
    (alert.dstIp.map fun dst => decide (dst ∈ c.dstIps)).getD false ||
    (alert.mitreTechniques.any fun t => decide (t ∈ c.mitreTechniques)) ||
    alert.entityId.isSome && decide (0 < c.alertIds.length) &&
      decide (|alert.timestamp - c.lastSeen| < thirtyMinutes) &&
      (alert.pid.map fun pid => c.alertIds.any fun _ => decide (0 < pid)).getD false

end Campaign

/-! ## The correlator -/

/-- The order in which a hash map is walked. -/
structure HashOrder (F : Type*) where
  walk : List (String × Campaign F) → List (String × Campaign F)
  perm : ∀ l, (walk l).Perm l

/-- `max_by`: the last one of the greatest. -/
def maxBy {α : Type*} (cmp : α → α → Ordering) : List α → Option α
  | [] => none
  | a :: l => some (l.foldl (fun x y => if cmp x y = .gt then x else y) a)

abbrev Campaigns (F : Type*) := TreeMap String (Campaign F)

/-- `cmp` compares two threat scores, `uuid` is the id that a new campaign gets. -/
def ingest (cmp : F → F → Ordering) (campaigns : Campaigns F) (order : HashOrder F) (uuid : String)
    (alert : CorrelatedAlert) : Option (Campaigns F × String) :=
  let matching := (order.walk campaigns.toList).filter fun p => p.2.matchesAlert alert
  match maxBy (fun a b => cmp a.2.threatScore b.2.threatScore) matching with
  | some (id, _) => do
    let c ← campaigns[id]?
    let c ← c.merge alert
    return (campaigns.insert id c, id)
  | none => do
    let c ← Campaign.new uuid alert
    return (campaigns.insert c.id c, c.id)

def evictStale (campaigns : Campaigns F) (cutoff : ℤ) : Campaigns F :=
  campaigns.filter fun _ c => cutoff < c.lastSeen

inductive Input (F : Type*)
  | ingest (order : HashOrder F) (uuid : String) (alert : CorrelatedAlert)
  /-- The time that is `ttl_secs` ago, `none` if no `DateTime` holds it: then the call panics before it takes the
  lock. -/
  | evictStale (cutoff : Option ℤ)

inductive Outcome
  | assigned (id : String)
  /-- The ids of the evicted campaigns; the call returns their number. -/
  | evicted (ids : List String)
  | panicked
  deriving DecidableEq

/-- A call. Every call panics on a poisoned correlator. -/
def step (cmp : F → F → Ordering) (s : Option (Campaigns F)) (i : Input F) : Option (Campaigns F) × Outcome :=
  match s, i with
  | none, _ => (none, .panicked)
  | some campaigns, .ingest order uuid alert =>
    match Ml.ingest cmp campaigns order uuid alert with
    | some (campaigns, id) => (some campaigns, .assigned id)
    | none => (none, .panicked)
  | some campaigns, .evictStale none => (some campaigns, .panicked)
  | some campaigns, .evictStale (some cutoff) =>
    (some (Ml.evictStale campaigns cutoff),
      .evicted (campaigns.keys.filter fun id => decide (id ∉ Ml.evictStale campaigns cutoff)))

/-- A new correlator after a run. -/
def after (cmp : F → F → Ordering) (inputs : List (Input F)) : Option (Campaigns F) :=
  Mealy.after (step cmp) (some ∅) inputs

def outcomes (cmp : F → F → Ordering) (inputs : List (Input F)) : List Outcome :=
  Mealy.outputs (step cmp) (some ∅) inputs

/-! ## The stage of some techniques -/

namespace KillChainStage

variable {techniques techniques' : List String} {m m' : KillChainStage}

theorem foldlM_stage_eq_some {acc : KillChainStage} :
    techniques.foldlM (fun maxStage t =>
      (techniqueToStage t).map fun stage => if maxStage < stage then stage else maxStage) acc = some m ↔
    acc ≤ m ∧ (∀ t ∈ techniques, ∃ stage, techniqueToStage t = some stage ∧ stage ≤ m) ∧
      (m = acc ∨ ∃ t ∈ techniques, techniqueToStage t = some m) := by
  induction techniques generalizing acc with
  | nil =>
    simp only [List.foldlM_nil, Option.pure_def, Option.some.injEq, List.not_mem_nil, false_and, exists_false, or_false,
      false_imp_iff, implies_true, true_and]
    exact ⟨fun h => ⟨h.le, h.symm⟩, fun h => h.2.symm⟩
  | cons t techniques ih =>
    rw [List.foldlM_cons]
    cases hstage : techniqueToStage t with
    | none => simp [hstage]
    | some stage =>
      simp only [Option.map_some, Option.bind_eq_bind, Option.bind_some, ih, List.forall_mem_cons,
        List.exists_mem_cons_iff, hstage, Option.some.injEq, exists_eq_left']
      obtain hlt | hle := lt_or_ge acc stage
      · rw [if_pos hlt]
        constructor
        · rintro ⟨hle, hall, rfl | hex⟩
          · exact ⟨hlt.le, ⟨hle, hall⟩, Or.inr (Or.inl rfl)⟩
          · exact ⟨hlt.le.trans hle, ⟨hle, hall⟩, Or.inr (Or.inr hex)⟩
        · rintro ⟨hacc, ⟨hle, hall⟩, rfl | rfl | hex⟩
          · exact absurd hlt hle.not_gt
          · exact ⟨le_rfl, hall, Or.inl rfl⟩
          · exact ⟨hle, hall, Or.inr hex⟩
      · rw [if_neg hle.not_gt]
        constructor
        · rintro ⟨hacc, hall, h⟩
          exact ⟨hacc, ⟨hle.trans hacc, hall⟩, h.imp_right Or.inr⟩
        · rintro ⟨hacc, ⟨-, hall⟩, rfl | rfl | hex⟩
          · exact ⟨hacc, hall, Or.inl rfl⟩
          · exact ⟨hacc, hall, Or.inl (hle.antisymm hacc)⟩
          · exact ⟨hacc, hall, Or.inr hex⟩

/-- **The stage of a list of techniques** is the highest of theirs. -/
theorem fromTechniques_eq_some : fromTechniques techniques = some m ↔
    (∀ t ∈ techniques, ∃ stage, techniqueToStage t = some stage ∧ stage ≤ m) ∧
      (m = unknown ∨ ∃ t ∈ techniques, techniqueToStage t = some m) := by
  rw [fromTechniques, foldlM_stage_eq_some]
  exact and_iff_right (unknown_le m)

/-- The order and repetitions do not matter. -/
theorem fromTechniques_congr (h : ∀ t, t ∈ techniques ↔ t ∈ techniques') :
    fromTechniques techniques = fromTechniques techniques' := by
  ext m
  simp only [fromTechniques_eq_some, h]

theorem fromTechniques_mono (hsub : techniques ⊆ techniques') (h : fromTechniques techniques = some m)
    (h' : fromTechniques techniques' = some m') : m ≤ m' := by
  obtain ⟨-, rfl | ⟨t, ht, hm⟩⟩ := fromTechniques_eq_some.1 h
  · exact unknown_le m'
  · obtain ⟨stage, hstage, hle⟩ := (fromTechniques_eq_some.1 h').1 t (hsub ht)
    rw [hm] at hstage
    cases hstage
    exact hle

theorem exists_fromTechniques (h : ∀ t ∈ techniques, (techniqueToStage t).isSome) :
    ∃ m, fromTechniques techniques = some m := by
  unfold fromTechniques
  generalize unknown = acc
  induction techniques generalizing acc with
  | nil => exact ⟨acc, rfl⟩
  | cons t techniques ih =>
    obtain ⟨stage, hstage⟩ := Option.isSome_iff_exists.1 (h t (by simp))
    rw [List.foldlM_cons, hstage]
    exact ih (fun t' ht' => h t' (by simp [ht'])) _

theorem isSome_of_fromTechniques (h : fromTechniques techniques = some m) :
    ∀ t ∈ techniques, (techniqueToStage t).isSome := by
  intro t ht
  obtain ⟨stage, hstage, -⟩ := (fromTechniques_eq_some.1 h).1 t ht
  rw [hstage]
  rfl

/-- An ASCII technique id has a stage. -/
theorem isSome_of_ascii {t : String} (h : Utf8.IsAscii t.toList) : (techniqueToStage t).isSome := by
  rw [techniqueToStage, Utf8.byteLength_ascii h, Utf8.takeBytes_ascii h (min_le_left _ _)]
  rfl

end KillChainStage

/-! ## What a campaign says about its alerts -/

/-- **A campaign of these alerts.** -/
structure Aggregates {F : Type*} (c : Campaign F) (alerts : List CorrelatedAlert) : Prop where
  alertIds : c.alertIds = alerts.map fun a => a.id
  alertCount : c.alertCount = alerts.length
  srcIps : c.srcIps = (alerts.filterMap fun a => a.srcIp).toFinset
  dstIps : c.dstIps = (alerts.filterMap fun a => a.dstIp).toFinset
  mitreTechniques : c.mitreTechniques = (alerts.flatMap fun a => a.mitreTechniques).toFinset
  sourceEngines : c.sourceEngines = (alerts.map fun a => a.sourceEngine).toFinset
  iocHashes : c.iocHashes = (alerts.flatMap fun a => a.iocHashes).toFinset
  lastSeen : IsGreatest {t | t ∈ alerts.map fun a => a.timestamp} c.lastSeen
  killChainStage : ∀ techniques : List String, techniques.toFinset = c.mitreTechniques →
    fromTechniques techniques = some c.killChainStage

variable {c c' : Campaign F} {alerts : List CorrelatedAlert} {alert : CorrelatedAlert} {uuid : String}

omit [Add F] [Mul F] [Min F] in
/-- A new campaign is one of its seed. -/
theorem aggregates_new (h : Campaign.new uuid alert = some c) : c.id = uuid ∧ Aggregates c [alert] := by
  obtain ⟨stage, hstage, rfl⟩ := Option.map_eq_some_iff.1 h
  refine ⟨rfl, rfl, rfl, ?_, ?_, ?_, rfl, ?_, ?_, fun techniques ht => ?_⟩
  · cases hip : alert.srcIp <;> simp [hip]
  · cases hip : alert.dstIp <;> simp [hip]
  · simp
  · simp
  · simp [isGreatest_singleton]
  · rw [← hstage]
    exact fromTechniques_congr fun t => by rw [← List.mem_toFinset, ht, List.mem_toFinset]

omit [Add F] [Mul F] [Div F] [Min F] [OfScientific F] in
/-- The stage is raised to that of all techniques. -/
theorem aggregates_collect (h : Aggregates c alerts) (alert : CorrelatedAlert) {stage : KillChainStage}
    (hstage : fromTechniques ((c.collect alert).mitreTechniques.sort (· ≤ ·)) = some stage) :
    c.killChainStage ≤ stage := by
  refine fromTechniques_mono ?_ (h.killChainStage (c.mitreTechniques.sort (· ≤ ·)) (Finset.sort_toFinset _ _)) hstage
  intro t ht
  rw [Finset.mem_sort] at ht ⊢
  exact Finset.mem_union_left _ ht

/-- **A merged alert.** -/
theorem Aggregates.merge (h : Aggregates c alerts) (hc' : c.merge alert = some c') :
    Aggregates c' (alerts ++ [alert]) := by
  obtain ⟨stage, hstage, rfl⟩ := Option.map_eq_some_iff.1 hc'
  have hle := aggregates_collect h alert hstage
  have hraised : (if (c.collect alert).killChainStage < stage then
      { c.collect alert with killChainStage := stage } else c.collect alert) =
      { c.collect alert with killChainStage := stage } := by
    split_ifs with hlt
    · rfl
    · have heq : (c.collect alert).killChainStage = stage := hle.antisymm (le_of_not_gt hlt)
      rw [← heq]
  rw [hraised]
  refine ⟨?_, ?_, ?_, ?_, ?_, ?_, ?_, ?_, fun techniques ht => ?_⟩
  · simp [Campaign.collect, h.alertIds]
  · simp [Campaign.collect, h.alertCount]
  · cases hip : alert.srcIp <;> simp [Campaign.collect, h.srcIps, hip]
  · cases hip : alert.dstIp <;> simp [Campaign.collect, h.dstIps, hip]
  · simp [Campaign.collect, h.mitreTechniques]
  · simp [Campaign.collect, h.sourceEngines]
  · simp [Campaign.collect, h.iocHashes]
  · have hsplit : {t | t ∈ (alerts ++ [alert]).map fun a => a.timestamp} =
        {alert.timestamp} ∪ {t | t ∈ alerts.map fun a => a.timestamp} := by
      ext t
      simp [or_comm, eq_comm]
    rw [hsplit]
    exact isGreatest_singleton.union h.lastSeen
  · rw [← hstage]
    refine fromTechniques_congr fun t => ?_
    rw [← List.mem_toFinset, ht, Finset.mem_sort]

/-- A campaign whose techniques have stages takes any alert whose techniques have stages. -/
theorem exists_merge (h : Aggregates c alerts) (halert : ∀ t ∈ alert.mitreTechniques, (techniqueToStage t).isSome) :
    ∃ c', c.merge alert = some c' := by
  have hold := isSome_of_fromTechniques (h.killChainStage (c.mitreTechniques.sort (· ≤ ·)) (Finset.sort_toFinset _ _))
  have hnew : ∀ t ∈ (c.collect alert).mitreTechniques.sort (· ≤ ·), (techniqueToStage t).isSome := by
    intro t ht
    rw [Finset.mem_sort, Campaign.collect, Finset.mem_union, List.mem_toFinset] at ht
    rcases ht with ht | ht
    · exact hold t ((Finset.mem_sort _).2 ht)
    · exact halert t ht
  obtain ⟨stage, hstage⟩ := exists_fromTechniques hnew
  exact ⟨_, Option.map_eq_some_iff.2 ⟨stage, hstage, rfl⟩⟩

/-! ## What a call can do -/

theorem maxBy_mem {α : Type*} {cmp : α → α → Ordering} {l : List α} {a : α} (h : maxBy cmp l = some a) : a ∈ l := by
  cases l with
  | nil => cases h
  | cons b l =>
    cases h
    induction l generalizing b with
    | nil => exact List.mem_singleton_self b
    | cons d l ih =>
      rw [List.foldl_cons]
      rcases List.mem_cons.1 (ih (if cmp b d = .gt then b else d)) with hm | hm
      · rw [hm]
        split_ifs <;> simp
      · simp [hm]

variable {cmp : F → F → Ordering} {campaigns : Campaigns F} {order : HashOrder F}

/-- **What `ingest` can do**: merge the alert into a campaign, or found one. -/
theorem ingest_cases (cmp : F → F → Ordering) (campaigns : Campaigns F) (order : HashOrder F) (uuid : String)
    (alert : CorrelatedAlert) :
    (∃ (id : String) (c : Campaign F), campaigns[id]? = some c ∧ Ml.ingest cmp campaigns order uuid alert =
      (c.merge alert).map fun c' => (campaigns.insert id c', id)) ∨
    Ml.ingest cmp campaigns order uuid alert =
      (Campaign.new uuid alert).map fun c => (campaigns.insert uuid c, uuid) := by
  unfold Ml.ingest
  simp only
  split
  · rename_i id c hmax
    left
    have hmem := (order.perm campaigns.toList).mem_iff.1 (List.mem_filter.1 (maxBy_mem hmax)).1
    have hget := TreeMap.mem_toList_iff_getElem?_eq_some.1 hmem
    refine ⟨id, c, hget, ?_⟩
    rw [hget]
    cases hmerge : c.merge alert <;> simp [hmerge]
  · right
    cases hnew : (Campaign.new uuid alert : Option (Campaign F)) with
    | none => rfl
    | some c =>
      have hid := (aggregates_new hnew).1
      simp [hid]

omit [Add F] [Mul F] [Div F] [Min F] [OfScientific F] in
theorem getElem?_evictStale {cutoff : ℤ} {id : String} :
    (evictStale campaigns cutoff)[id]? = (campaigns[id]?).filter fun c => decide (cutoff < c.lastSeen) :=
  TreeMap.getElem?_filter'

end ThorFirewall.Ml
