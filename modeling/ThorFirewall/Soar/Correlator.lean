import Mathlib
import ThorFirewall.Detection.Events
import ThorFirewall.Lib.Mealy
import ThorFirewall.Lib.SortedMap

/-!
# The alert correlator (`soar/mod.rs`)

An alert goes to the bucket of its process and to that of its source address, or to one of its rule. A flush seals the
buckets whose oldest entry is a minute old: those of two or more entries become aggregated alerts. The clock counts
nanoseconds.

- `sealed_sublist`: an alert is counted once at most under each of its keys;
- `window_iff`: at any flush, the alerts counted together are a minute apart at most, exactly if no alert ever comes to a
  bucket with an entry more than a minute older.
-/

namespace ThorFirewall.Soar

open Std

/-! ## Keys and buckets -/

/-- An alert with the fields that the correlator reads. -/
structure TimedAlert extends Detection.Alert where
  timestamp : ℤ
  deriving DecidableEq

inductive CorrelationKey
  | pid (pid : UInt32)
  | srcIp (ip : String)
  deriving DecidableEq

namespace CorrelationKey

/-- An order of keys. -/
def cmp : CorrelationKey → CorrelationKey → Ordering :=
  compareLex (compareOn fun | pid p => some p | srcIp _ => none) (compareOn fun | pid _ => "" | srcIp ip => ip)

instance : TransCmp cmp :=
  inferInstanceAs (TransCmp (compareLex (compareOn fun | pid p => some p | srcIp _ => none)
    (compareOn fun | pid _ => "" | srcIp ip => ip)))

theorem cmp_eq_iff {a b : CorrelationKey} : cmp a b = .eq ↔ a = b := by
  simp only [cmp, compareLex_eq_eq, compareOn, Std.compare_eq_iff_eq]
  cases a <;> cases b <;> simp

instance : LawfulEqCmp cmp where
  eq_of_compare := cmp_eq_iff.1
  compare_self := cmp_eq_iff.2 rfl

end CorrelationKey

structure BucketEntry where
  receivedAt : ℕ
  alert : TimedAlert
  deriving DecidableEq

structure AggregatedAlert where
  correlationKey : String
  maxThreatLevel : ThreatLevel
  alertCount : ℕ
  ruleNames : List String
  windowStart : String
  windowEnd : String
  pid : Option UInt32
  srcIp : Option String

structure AlertCorrelator where
  buckets : TreeMap CorrelationKey (List BucketEntry) CorrelationKey.cmp

/-- Sixty seconds. -/
def correlationWindow : ℕ := 60 * 10 ^ 9

namespace AlertCorrelator

def new : AlertCorrelator := { buckets := ∅ }

/-- The keys of an alert: its process, its source address, or else its rule. -/
def keys (alert : TimedAlert) : List CorrelationKey :=
  let keys := (alert.pid.map .pid).toList ++
    ((alert.srcIp.filter fun ip => ip ≠ "" ∧ ip ≠ "0.0.0.0").map .srcIp).toList
  if keys = [] then [.srcIp ("rule:" ++ alert.ruleName)] else keys

def push (buckets : TreeMap CorrelationKey (List BucketEntry) CorrelationKey.cmp) (entry : BucketEntry)
    (key : CorrelationKey) : TreeMap CorrelationKey (List BucketEntry) CorrelationKey.cmp :=
  buckets.insert key (buckets[key]?.getD [] ++ [entry])

def ingest (c : AlertCorrelator) (alert : TimedAlert) (now : ℕ) : AlertCorrelator :=
  { buckets := (keys alert).foldl (fun buckets key => push buckets ⟨now, alert⟩ key) c.buckets }

/-- The oldest entry is beyond the window. -/
def shouldSeal (entries : List BucketEntry) (now : ℕ) : Bool :=
  ((entries.map (·.receivedAt)).min?.map fun t => decide (correlationWindow ≤ now - t)).getD false

/-- The buckets that a flush aggregates. -/
def aggregated (c : AlertCorrelator) (now : ℕ) : List (CorrelationKey × List BucketEntry) :=
  c.buckets.toList.filter fun b => shouldSeal b.2 now && 2 ≤ b.2.length

/-- The buckets that a flush keeps. -/
def kept (c : AlertCorrelator) (now : ℕ) : AlertCorrelator :=
  { buckets := c.buckets.filter fun _ entries => !shouldSeal entries now }

section Texts

variable (rfc3339 : ℤ → String) (debugKey : CorrelationKey → String)

/-- The alert that stands for a bucket. The texts of a time and of a key are parameters. -/
def aggregate (key : CorrelationKey) (entries : List BucketEntry) : AggregatedAlert where
  correlationKey := debugKey key
  maxThreatLevel := (entries.map fun e => e.alert.threatLevel).foldl
    (fun max level => if rank max ≤ rank level then level else max) .unknown
  alertCount := entries.length
  ruleNames := (entries.map fun e => e.alert.ruleName).dedup.mergeSort (· ≤ ·)
  windowStart := ((entries.map fun e => e.alert.timestamp).min?.map rfc3339).getD ""
  windowEnd := ((entries.map fun e => e.alert.timestamp).max?.map rfc3339).getD ""
  pid := match key with
    | .pid p => some p
    | .srcIp _ => entries.head?.bind fun e => e.alert.pid
  srcIp := match key with
    | .srcIp ip => if "rule:".toList.isPrefixOf ip.toList then none else some ip
    | .pid _ => entries.head?.bind fun e => e.alert.srcIp
where
  rank : ThreatLevel → ℕ
    | .critical => 4
    | .high => 3
    | .medium => 2
    | .low => 1
    | .unknown => 0

def flush (c : AlertCorrelator) (now : ℕ) : AlertCorrelator × List AggregatedAlert :=
  (c.kept now, (c.aggregated now).map fun (key, entries) => aggregate rfc3339 debugKey key entries)

end Texts

end AlertCorrelator

/-! ## Runs -/

inductive CorrelatorOp
  | ingest (alert : TimedAlert) (now : ℕ)
  | flush (now : ℕ)

namespace AlertCorrelator

/-- A call, with the buckets that it aggregates. -/
def step (c : AlertCorrelator) : CorrelatorOp → AlertCorrelator × List (CorrelationKey × List BucketEntry)
  | .ingest alert now => (c.ingest alert now, [])
  | .flush now => (c.kept now, c.aggregated now)

/-- The entry that a call puts into a bucket. -/
def entryFor (key : CorrelationKey) : CorrelatorOp → Option BucketEntry
  | .ingest alert now => if key ∈ keys alert then some ⟨now, alert⟩ else none
  | .flush _ => none

/-- The alerts ingested under a key, in order. -/
def ingested (key : CorrelationKey) (ops : List CorrelatorOp) : List BucketEntry := ops.filterMap (entryFor key)

/-- The alerts counted under a key, in order. -/
def counted (key : CorrelationKey) (sealed : List (CorrelationKey × List BucketEntry)) : List BucketEntry :=
  sealed.flatMap fun b => if b.1 = key then b.2 else []

/-- Any two entries are a minute apart at most. -/
def InWindow (entries : List BucketEntry) : Prop :=
  ∀ e ∈ entries, ∀ e' ∈ entries, e.receivedAt ≤ e'.receivedAt + correlationWindow

/-- The alert does not come to an entry more than a minute older, or newer. -/
def Fresh (c : AlertCorrelator) : CorrelatorOp → Prop
  | .ingest alert now => ∀ key ∈ keys alert, ∀ e ∈ c.buckets[key]?.getD [],
    now ≤ e.receivedAt + correlationWindow ∧ e.receivedAt ≤ now + correlationWindow
  | .flush _ => True

variable {c : AlertCorrelator} {key : CorrelationKey}

/-- The bucket of a key. -/
def bucket (c : AlertCorrelator) (key : CorrelationKey) : List BucketEntry := c.buckets[key]?.getD []

theorem nodup_keys (alert : TimedAlert) : (keys alert).Nodup := by
  unfold keys
  cases alert.pid <;> cases alert.srcIp.filter fun ip => ip ≠ "" ∧ ip ≠ "0.0.0.0" <;> simp

theorem push_getElem? (buckets : TreeMap CorrelationKey (List BucketEntry) CorrelationKey.cmp) (e : BucketEntry)
    (k key : CorrelationKey) :
    (push buckets e k)[key]?.getD [] = buckets[key]?.getD [] ++ if k = key then [e] else [] := by
  unfold push
  rw [TreeMap.getElem?_insert]
  simp only [CorrelationKey.cmp_eq_iff]
  split_ifs with hk
  · rw [hk]
    rfl
  · rw [List.append_nil]

/-- An alert is added once to the bucket of each of its keys. -/
theorem ingest_bucket (c : AlertCorrelator) (alert : TimedAlert) (now : ℕ) (key : CorrelationKey) :
    (c.ingest alert now).bucket key = c.bucket key ++ if key ∈ keys alert then [⟨now, alert⟩] else [] := by
  unfold ingest bucket
  have hnodup := nodup_keys alert
  generalize keys alert = ks at hnodup
  dsimp only
  induction ks using List.reverseRecOn with
  | nil => simp
  | append_singleton ks k ih =>
    rw [List.foldl_concat, push_getElem?, ih hnodup.of_append_left, List.append_assoc]
    congr 1
    have hk : k ∉ ks := fun h => List.disjoint_of_nodup_append hnodup h (List.mem_singleton_self k)
    by_cases heq : k = key
    · subst heq
      simp [hk]
    · simp [heq, Ne.symm heq]

/-- A flush keeps a bucket or empties it. -/
theorem kept_bucket (c : AlertCorrelator) (now : ℕ) (key : CorrelationKey) :
    (c.kept now).bucket key = if shouldSeal (c.bucket key) now then [] else c.bucket key := by
  unfold kept bucket
  dsimp only
  rw [TreeMap.getElem?_filter']
  cases c.buckets[key]? with
  | none => simp [shouldSeal]
  | some entries => cases h : shouldSeal entries now <;> simp [Option.filter, h]

theorem flatMap_filter {α β : Type*} (p : α → Bool) (f : α → List β) (l : List α) :
    (l.filter p).flatMap f = l.flatMap fun a => if p a then f a else [] := by
  induction l with
  | nil => rfl
  | cons a l ih =>
    rw [List.flatMap_cons, ← ih, List.filter_cons]
    split_ifs <;> rfl

/-- What a flush counts under a key is its bucket, if it is sealed and large enough. -/
theorem counted_aggregated (c : AlertCorrelator) (now : ℕ) (key : CorrelationKey) :
    counted key (c.aggregated now) =
      if shouldSeal (c.bucket key) now && 2 ≤ (c.bucket key).length then c.bucket key else [] := by
  have hflat := SortedMap.flatMap_toList_key (t := c.buckets) key
    fun es => if shouldSeal es now && 2 ≤ es.length then es else []
  have hswap : (fun b : CorrelationKey × List BucketEntry => if shouldSeal b.2 now && 2 ≤ b.2.length then
      if b.1 = key then b.2 else [] else []) =
        fun b => if b.1 = key then if shouldSeal b.2 now && 2 ≤ b.2.length then b.2 else [] else [] := by
    funext b
    split_ifs <;> rfl
  rw [counted, aggregated, flatMap_filter, hswap, hflat, bucket]
  cases c.buckets[key]? <;> rfl

/-! ## Each alert is counted once -/

/-- A call adds what it ingests, and counts what was in the bucket. -/
theorem step_sublist (c : AlertCorrelator) (op : CorrelatorOp) (key : CorrelationKey) :
    (counted key (c.step op).2 ++ (c.step op).1.bucket key).Sublist (c.bucket key ++ ingested key [op]) := by
  cases op with
  | ingest alert now =>
    show (([] : List BucketEntry) ++ (c.ingest alert now).bucket key).Sublist _
    rw [ingest_bucket, List.nil_append]
    refine List.Sublist.append_left ?_ _
    unfold ingested entryFor
    split_ifs with hkey <;> simp [hkey]
  | flush now =>
    show (counted key (c.aggregated now) ++ (c.kept now).bucket key).Sublist _
    rw [counted_aggregated, kept_bucket]
    refine List.Sublist.trans ?_ (List.sublist_append_left _ _)
    cases shouldSeal (c.bucket key) now <;> simp
    split_ifs <;> simp

/-- **Each alert is counted once at most under each of its keys**: what was counted under a key, and then its bucket, are
alerts that were ingested under it, in their order. -/
theorem sealed_sublist (ops : List CorrelatorOp) (key : CorrelationKey) :
    (counted key (Mealy.outputs step new ops).flatten ++ (Mealy.after step new ops).bucket key).Sublist
      (ingested key ops) := by
  refine @Mealy.history_inv _ _ _ step (fun ops os c =>
    (counted key os.flatten ++ c.bucket key).Sublist (ingested key ops)) new ?_ ?_ ops
  · exact List.Sublist.refl _
  · intro ops os c op h
    have hcounted : counted key (os ++ [(c.step op).2]).flatten = counted key os.flatten ++ counted key (c.step op).2 := by
      simp only [counted, List.flatten_append, List.flatten_singleton, List.flatMap_append]
    have hingested : ingested key (ops ++ [op]) = ingested key ops ++ ingested key [op] := List.filterMap_append
    rw [hcounted, hingested, List.append_assoc]
    refine (List.Sublist.append_left (step_sublist c op key) _).trans ?_
    rw [← List.append_assoc]
    exact List.Sublist.append_right h _

/-! ## The window -/

/-- The entries of each bucket are a minute apart at most. -/
def Windowed (c : AlertCorrelator) : Prop := ∀ key, InWindow (c.bucket key)

theorem inWindow_concat {entries : List BucketEntry} (h : InWindow entries) (e : BucketEntry) :
    InWindow (entries ++ [e]) ↔ ∀ e' ∈ entries,
      e.receivedAt ≤ e'.receivedAt + correlationWindow ∧ e'.receivedAt ≤ e.receivedAt + correlationWindow := by
  unfold InWindow
  simp only [List.mem_append, List.mem_singleton]
  constructor
  · intro hall e' he'
    exact ⟨hall e (.inr rfl) e' (.inl he'), hall e' (.inl he') e (.inr rfl)⟩
  · rintro hnew a (ha | rfl) b (hb | rfl)
    · exact h a ha b hb
    · exact (hnew a ha).2
    · exact (hnew b hb).1
    · exact Nat.le_add_right _ _

/-- **From buckets within the window, a call leaves such buckets exactly if it is fresh.** -/
theorem windowed_step_iff (h : c.Windowed) (op : CorrelatorOp) : (c.step op).1.Windowed ↔ c.Fresh op := by
  cases op with
  | ingest alert now =>
    have hstep : ∀ key, InWindow ((c.ingest alert now).bucket key) ↔ (key ∈ keys alert → ∀ e ∈ c.bucket key,
        now ≤ e.receivedAt + correlationWindow ∧ e.receivedAt ≤ now + correlationWindow) := by
      intro key
      rw [ingest_bucket]
      by_cases hkey : key ∈ keys alert
      · rw [if_pos hkey, inWindow_concat (h key), forall_prop_of_true hkey]
      · rw [if_neg hkey, List.append_nil]
        exact iff_of_true (h key) fun hmem => absurd hmem hkey
    exact forall_congr' hstep
  | flush now =>
    refine iff_of_true (fun key => ?_) trivial
    show InWindow ((c.kept now).bucket key)
    rw [kept_bucket]
    split_ifs
    · exact fun e he => by cases he
    · exact h key

/-- The oldest entry of a bucket is old at a late time. -/
theorem shouldSeal_late {entries : List BucketEntry} {e : BucketEntry} (he : e ∈ entries) :
    shouldSeal entries (e.receivedAt + correlationWindow) = true := by
  unfold shouldSeal
  cases hmin : (entries.map (·.receivedAt)).min? with
  | none =>
    rw [List.min?_eq_none_iff, List.map_eq_nil_iff] at hmin
    rw [hmin] at he
    cases he
  | some t =>
    have hle := (List.min?_eq_some_iff.1 hmin).2 e.receivedAt (List.mem_map_of_mem he)
    rw [Option.map_some, Option.getD_some, decide_eq_true_iff]
    omega

/-- Buckets within the window are what flushes need, whenever they come. -/
theorem windowed_iff (c : AlertCorrelator) :
    c.Windowed ↔ ∀ now, ∀ b ∈ c.aggregated now, InWindow b.2 := by
  constructor
  · rintro h now ⟨key, entries⟩ hb
    have hget := TreeMap.mem_toList_iff_getElem?_eq_some.1 (List.mem_filter.1 hb).1
    have := h key
    rwa [bucket, hget] at this
  · intro h key e he e' he'
    by_contra hlate
    have hget : c.buckets[key]? = some (c.bucket key) := by
      unfold bucket at he ⊢
      cases hk : c.buckets[key]? with
      | none => simp [hk] at he
      | some entries => rfl
    have hlength : 2 ≤ (c.bucket key).length := by
      by_contra hshort
      have hone : (c.bucket key).length = 1 := by
        have := List.length_pos_of_mem he
        omega
      obtain ⟨x, hx⟩ := List.length_eq_one_iff.1 hone
      rw [hx, List.mem_singleton] at he he'
      rw [he, he'] at hlate
      exact hlate (Nat.le_add_right _ _)
    refine hlate (h (e'.receivedAt + correlationWindow) (key, c.bucket key) ?_ e he e' he')
    refine List.mem_filter.2 ⟨TreeMap.mem_toList_iff_getElem?_eq_some.2 hget, ?_⟩
    rw [shouldSeal_late he', Bool.true_and]
    exact decide_eq_true hlength

/-- **Alert correlation.** In every run, the alerts counted under a key were ingested under it, each counted once at most;
and at any flush, those counted together are a minute apart at most exactly if every call of the run is fresh. -/
theorem window_iff (ops : List CorrelatorOp) :
    (∀ key, (counted key (Mealy.outputs step new ops).flatten).Sublist (ingested key ops)) ∧
    ((∀ p, p <+: ops → ∀ now, ∀ b ∈ (Mealy.after step new p).aggregated now, InWindow b.2) ↔
      ∀ p op, p ++ [op] <+: ops → (Mealy.after step new p).Fresh op) := by
  refine ⟨fun key => (List.sublist_append_left _ _).trans (sealed_sublist ops key), ?_⟩
  simp only [← windowed_iff]
  refine List.forall_prefix_iff ?_ (fun p op hp => ?_) ops
  · intro key e he
    cases he
  · rw [Mealy.after_concat]
    exact windowed_step_iff hp op

/-- The flush comes late: it finds an alert beside one that is 61 seconds older. -/
theorem late_flush : ¬ ∀ (ops : List CorrelatorOp) (now : ℕ),
    ∀ b ∈ (Mealy.after step new ops).aggregated now, InWindow b.2 := by
  intro h
  let alert : TimedAlert :=
    { source := "sigma", ruleName := "r", ruleType := .sigma, threatLevel := .high, description := "", pid := some 7,
      processName := none, srcIp := none, dstIp := none, rawEventType := "process", timestamp := 0 }
  have hlate := h [.ingest alert 0, .ingest alert (61 * 10 ^ 9)] (61 * 10 ^ 9)
    (.pid 7, [⟨0, alert⟩, ⟨61 * 10 ^ 9, alert⟩]) (by decide +kernel) ⟨61 * 10 ^ 9, alert⟩ (by simp) ⟨0, alert⟩ (by simp)
  exact absurd hlate (by decide +kernel)

end AlertCorrelator

end ThorFirewall.Soar
