import Mathlib
import ThorFirewall.Lib.Mealy

/-!
# Allocations (`heap_spray_detector.bpf.c`)

The probes count the allocations of each size by each thread, and call for an alert when there are many of one size in a
short time. The count is then reset, while the time is still taken from the first one.

- `alerts_of_run`: the alerts for the allocations of a thread in any run;
- `alerts_of_burst`: how many there are for a burst of allocations.

Every probe runs alone.
-/

namespace ThorFirewall.HeapSpray

/-! ## Maps -/

structure AllocStats where
  count : UInt64
  lastTsNs : UInt64
  firstTsNs : UInt64
  deriving DecidableEq

/-- A thread and the size of its allocations. -/
structure AllocKey where
  pid : UInt32
  size : UInt64
  deriving DecidableEq

abbrev Maps := AllocKey → Option AllocStats

structure HeapSprayAlert where
  pid : UInt32
  allocSize : UInt64
  allocCount : UInt64
  timeWindowNs : UInt64
  timestampNs : UInt64
  comm : String
  confidence : UInt8
  deriving DecidableEq

/-- The thread that allocates, when, and whether the ring buffer has room for an alert. -/
structure Context where
  pid : UInt32
  comm : String
  now : UInt64
  room : Bool

def warnCount : UInt64 := 500

def critCount : UInt64 := 2000

def sprayTimeNs : UInt64 := 50000000

/-! ## Probes -/

/-- The counts with an allocation; more than a second after the last one, they begin anew. -/
def counted (stats : Option AllocStats) (now : UInt64) : AllocStats :=
  match stats with
  | some stats =>
    if 1000000000 < now - stats.lastTsNs then ⟨1, now, now⟩ else ⟨stats.count + 1, now, stats.firstTsNs⟩
  | none => ⟨1, now, now⟩

def confidence (count : UInt64) : UInt8 :=
  if critCount ≤ count then 95 else (50 + (count - warnCount) * 45 / (critCount - warnCount)).toUInt8

/-- Counts that call for an alert are reset if there is room for it. -/
def sprayed (c : Context) (size : UInt64) (stats : AllocStats) : AllocStats × Option HeapSprayAlert :=
  let window := stats.lastTsNs - stats.firstTsNs
  if warnCount ≤ stats.count ∧ (window < sprayTimeNs ∨ critCount ≤ stats.count) ∧ c.room then
    ({ stats with count := 0 },
      some ⟨c.pid, size, stats.count, window, c.now, c.comm, confidence stats.count⟩)
  else (stats, none)

/-- The entry of the thread and the size is all that the probe reads and writes. -/
def thorMallocProbe (c : Context) (size : UInt64) (stats : Option AllocStats) :
    Option AllocStats × Option HeapSprayAlert :=
  if size = 0 ∨ 1024 * 1024 * 10 < size then (stats, none)
  else (some (sprayed c size (counted stats c.now)).1, (sprayed c size (counted stats c.now)).2)

/-- A private mapping that is readable, writable and executable calls for an alert. -/
def thorMmapProbe (c : Context) (length : UInt64) (prot flags : UInt32) (stats : Option AllocStats) :
    Option AllocStats × Option HeapSprayAlert :=
  if flags &&& 0x22 ≠ 0x22 ∨ ¬ (prot = 7 ∧ 4096 ≤ length) then (stats, none)
  else
    let stats : AllocStats := match stats with
      | some stats => ⟨stats.count + 1, c.now, stats.firstTsNs⟩
      | none => ⟨1, c.now, c.now⟩
    (some stats, if c.room then some ⟨c.pid, length, stats.count, 0, c.now, c.comm, 80⟩ else none)

/-- A probe runs, or the map drops an entry. -/
inductive Step
  | malloc (c : Context) (size : UInt64)
  | mmap (c : Context) (length : UInt64) (prot flags : UInt32)
  | evict (key : AllocKey)

namespace Step

/-- The entry that the step is about. -/
def key : Step → AllocKey
  | malloc c size => ⟨c.pid, size⟩
  | mmap c length _ _ => ⟨c.pid, length⟩
  | evict key => key

def run (stats : Option AllocStats) : Step → Option AllocStats × Option HeapSprayAlert
  | malloc c size => thorMallocProbe c size stats
  | mmap c length prot flags => thorMmapProbe c length prot flags stats
  | evict _ => (none, none)

end Step

def step (m : Maps) (s : Step) : Maps × Option HeapSprayAlert :=
  (Function.update m s.key (s.run (m s.key)).1, (s.run (m s.key)).2)

/-! ## Bursts -/

/-- An allocation joins the burst of the last one, or begins one more than a second after it. -/
def join (burst : List Context) (c : Context) : List Context :=
  if burst.getLast?.any fun last => 1000000000 < c.now - last.now then [c] else burst ++ [c]

/-- The burst of the last allocation. -/
def current (cs : List Context) : List Context := cs.foldl join []

/-- The allocation is in the first 50 ms of the burst. -/
def isEarly (first c : Context) : Bool := c.now - first.now < sprayTimeNs

/-- How many allocations of a burst have not led to an alert: early ones lead to one by 500, the others by 2000. -/
def pending : List Context → ℕ
  | [] => 0
  | first :: burst => ((first :: burst).length - (first :: burst).countP (isEarly first) / 500 * 500) % 2000

/-- The counts of a burst. -/
def statsOf : List Context → Option AllocStats
  | [] => none
  | first :: burst => some ⟨.ofNat (pending (first :: burst)), (burst.getLastD first).now, first.now⟩

/-- The alert that the last allocation of a burst leads to. -/
def alertOf (size : UInt64) : List Context → Option HeapSprayAlert
  | [] => none
  | first :: burst =>
    let c := burst.getLastD first
    if pending (first :: burst) = 0 then
      some ⟨c.pid, size, if isEarly first c then 500 else 2000, c.now - first.now, c.now, c.comm,
        if isEarly first c then 50 else 95⟩
    else none

theorem countP_early {first c : Context} {burst : List Context} (hfirst : first.now ≤ c.now)
    (hle : ∀ b ∈ burst, first.now ≤ b.now ∧ b.now ≤ c.now) (hearly : isEarly first c = true) :
    burst.countP (isEarly first) = burst.length := by
  rw [List.countP_eq_length]
  intro b hb
  obtain ⟨hlow, hhigh⟩ := hle b hb
  have hc := of_decide_eq_true hearly
  refine decide_eq_true ?_
  rw [UInt64.lt_iff_toNat_lt, UInt64.toNat_sub_of_le _ _ hfirst] at hc
  rw [UInt64.lt_iff_toNat_lt, UInt64.toNat_sub_of_le _ _ hlow]
  rw [UInt64.le_iff_toNat_le] at hhigh
  omega

theorem isEarly_self (c : Context) : isEarly c c = true := by
  simp [isEarly, sprayTimeNs]

theorem pending_lt_of_early {first c : Context} {burst : List Context} (hfirst : first.now ≤ c.now)
    (hle : ∀ b ∈ burst, first.now ≤ b.now ∧ b.now ≤ c.now) (hearly : isEarly first c = true) :
    pending (first :: burst) < 500 := by
  rw [pending, List.countP_cons_of_pos (isEarly_self first), countP_early hfirst hle hearly, List.length_cons]
  omega

/-- Another allocation of a burst leads to an alert exactly if none is pending with it. -/
theorem pending_concat {first c : Context} {burst : List Context} (hfirst : first.now ≤ c.now)
    (hle : ∀ b ∈ burst, first.now ≤ b.now ∧ b.now ≤ c.now) :
    pending (first :: burst ++ [c]) =
      if (if isEarly first c then 500 else 2000) ≤ pending (first :: burst) + 1 then 0
      else pending (first :: burst) + 1 := by
  have hself := isEarly_self first
  have hcount := List.countP_le_length (p := isEarly first) (l := burst)
  simp only [pending, List.cons_append, List.length_cons, List.length_append, List.countP_cons, List.countP_append,
    List.countP_nil, List.length_nil, hself, if_true]
  cases hearly : isEarly first c with
  | true =>
    rw [countP_early hfirst hle hearly]
    simp only [if_true]
    split_ifs <;> omega
  | false =>
    simp only [Bool.false_eq_true, if_false]
    split_ifs <;> omega

theorem pending_singleton (c : Context) : pending [c] = 1 := by
  simp [pending, isEarly, sprayTimeNs]

theorem toNat_pending_lt (burst : List Context) : pending burst < 2000 := by
  cases burst with
  | nil => exact Nat.zero_lt_succ _
  | cons first burst => exact Nat.mod_lt _ (Nat.zero_lt_succ _)

theorem current_concat (cs : List Context) (c : Context) : current (cs ++ [c]) = join (current cs) c :=
  List.foldl_concat _ _ _ _

theorem current_suffix (cs : List Context) : current cs <:+ cs := by
  induction cs using List.reverseRecOn with
  | nil => exact List.suffix_rfl
  | append_singleton cs c ih =>
    rw [current_concat, join]
    split_ifs
    · exact List.suffix_append _ _
    · obtain ⟨rest, h⟩ := ih
      exact ⟨rest, by rw [← List.append_assoc, h]⟩

/-- The first allocation of a burst. -/
theorem sprayed_first (c : Context) (size : UInt64) :
    (some (sprayed c size ⟨1, c.now, c.now⟩).1, (sprayed c size ⟨1, c.now, c.now⟩).2) =
      (statsOf [c], alertOf size [c]) := by
  have hlow : ¬ (warnCount ≤ 1 ∧ (c.now - c.now < sprayTimeNs ∨ critCount ≤ 1) ∧ c.room) :=
    fun h => absurd h.1 (by decide)
  rw [sprayed, if_neg hlow, statsOf, alertOf, pending_singleton]
  rfl

/-- Another allocation of a burst. -/
theorem sprayed_next {first c : Context} {burst : List Context} (size : UInt64) (hfirst : first.now ≤ c.now)
    (hle : ∀ b ∈ burst, first.now ≤ b.now ∧ b.now ≤ c.now) (hroom : c.room = true) :
    (some (sprayed c size ⟨.ofNat (pending (first :: burst)) + 1, c.now, first.now⟩).1,
        (sprayed c size ⟨.ofNat (pending (first :: burst)) + 1, c.now, first.now⟩).2) =
      (statsOf (first :: burst ++ [c]), alertOf size (first :: burst ++ [c])) := by
  have hlast : (burst ++ [c]).getLastD first = c := by simp
  have hlt := toNat_pending_lt (first :: burst)
  have hpending := pending_concat hfirst hle
  rw [List.cons_append] at hpending
  simp only [List.cons_append, statsOf, alertOf, hlast, hpending]
  have hsucc : UInt64.ofNat (pending (first :: burst)) + 1 = .ofNat (pending (first :: burst) + 1) :=
    (UInt64.ofNat_add _ 1).symm
  have hle' (n : ℕ) (hn : n < 2 ^ 64) : UInt64.ofNat n ≤ .ofNat (pending (first :: burst) + 1) ↔
      n ≤ pending (first :: burst) + 1 := by
    have hlt' : pending (first :: burst) + 1 < 2 ^ 64 := by omega
    rw [UInt64.le_iff_toNat_le, UInt64.toNat_ofNat_of_lt' hn, UInt64.toNat_ofNat_of_lt' hlt']
  have hwarn : warnCount ≤ .ofNat (pending (first :: burst) + 1) ↔ 500 ≤ pending (first :: burst) + 1 :=
    hle' 500 (by decide)
  have hcrit : critCount ≤ .ofNat (pending (first :: burst) + 1) ↔ 2000 ≤ pending (first :: burst) + 1 :=
    hle' 2000 (by decide)
  rw [sprayed, hsucc]
  have hearly_iff : c.now - first.now < sprayTimeNs ↔ isEarly first c = true := decide_eq_true_iff.symm
  simp only [hwarn, hcrit, hroom, and_true, hearly_iff]
  cases hearly : isEarly first c with
  | true =>
    simp only [true_or, and_true, if_true]
    by_cases hfull : 500 ≤ pending (first :: burst) + 1
    · have heq : pending (first :: burst) + 1 = 500 :=
        le_antisymm (pending_lt_of_early hfirst hle hearly) hfull
      rw [if_pos hfull, if_pos hfull, heq]
      rfl
    · rw [if_neg hfull, if_neg hfull]
      rfl
  | false =>
    simp only [Bool.false_eq_true, false_or, if_false]
    by_cases hfull : 2000 ≤ pending (first :: burst) + 1
    · have heq : pending (first :: burst) + 1 = 2000 := by omega
      rw [if_pos ⟨by omega, hfull⟩, if_pos hfull, heq]
      rfl
    · rw [if_neg fun h => hfull h.2, if_neg hfull]
      rfl

theorem malloc_concat {cs : List Context} {c : Context} {size : UInt64} (hsize : ¬ (size = 0 ∨ 1024 * 1024 * 10 < size))
    (hmono : (cs ++ [c]).Pairwise fun a b => a.now ≤ b.now) (hroom : c.room = true) :
    thorMallocProbe c size (statsOf (current cs)) =
      (statsOf (current (cs ++ [c])), alertOf size (current (cs ++ [c]))) := by
  rw [thorMallocProbe, if_neg hsize, current_concat]
  cases hburst : current cs with
  | nil => exact sprayed_first c size
  | cons first burst =>
    have hsuffix : first :: burst <:+ cs := hburst ▸ current_suffix cs
    have hlast : (first :: burst).getLast? = some (burst.getLastD first) := by
      rw [List.getLast?_cons, List.getLastD_eq_getLast?]
    rw [join, hlast, Option.any_some, statsOf, counted]
    dsimp only
    by_cases hgap : 1000000000 < c.now - (burst.getLastD first).now
    · rw [if_pos hgap, if_pos (decide_eq_true hgap)]
      exact sprayed_first c size
    · rw [if_neg hgap, if_neg (by simpa using hgap)]
      obtain ⟨hcs, -, hle⟩ := List.pairwise_append.1 hmono
      have hle (b : Context) (hb : b ∈ first :: burst) : b.now ≤ c.now :=
        hle b (hsuffix.subset hb) c (List.mem_singleton_self c)
      have hburst := (List.pairwise_cons.1 (hcs.sublist hsuffix.sublist)).1
      exact sprayed_next size (hle first List.mem_cons_self) (fun b hb => ⟨hburst b hb, hle b (.tail _ hb)⟩) hroom

/-! ## Runs -/

/-- The alerts for allocations of a thread, by their bursts. -/
def alertsOf (size : UInt64) (cs : List Context) : List (Option HeapSprayAlert) :=
  (List.range cs.length).map fun n => alertOf size (current (cs.take (n + 1)))

theorem alertsOf_concat (size : UInt64) (cs : List Context) (c : Context) :
    alertsOf size (cs ++ [c]) = alertsOf size cs ++ [alertOf size (current (cs ++ [c]))] := by
  rw [alertsOf, List.length_append, List.length_singleton, List.range_succ, List.map_append, List.map_singleton]
  congr 1
  · refine List.map_congr_left fun n hn => ?_
    rw [List.take_append_of_le_length (List.mem_range.1 hn)]
  · rw [List.take_of_length_le (by simp)]

theorem mallocs_run {size : UInt64} (hsize : ¬ (size = 0 ∨ 1024 * 1024 * 10 < size)) {cs : List Context}
    (hmono : cs.Pairwise fun a b => a.now ≤ b.now) (hroom : ∀ c ∈ cs, c.room = true) :
    Mealy.after Step.run none (cs.map fun c => .malloc c size) = statsOf (current cs) ∧
      Mealy.outputs Step.run none (cs.map fun c => .malloc c size) = alertsOf size cs := by
  induction cs using List.reverseRecOn with
  | nil => exact ⟨rfl, rfl⟩
  | append_singleton cs c ih =>
    obtain ⟨hafter, houts⟩ := ih (List.pairwise_append.1 hmono).1 fun c hc => hroom c (List.mem_append_left _ hc)
    have hnext := malloc_concat hsize hmono (hroom c (by simp))
    rw [List.map_append, List.map_singleton, Mealy.after_concat, Mealy.outputs_concat, hafter, houts, alertsOf_concat]
    exact ⟨congrArg Prod.fst hnext, congrArg (alertsOf size cs ++ [·.2]) hnext⟩

/-- The alert is one for the thread and the size. -/
def isFor (key : AllocKey) (alert : HeapSprayAlert) : Bool := alert.pid = key.pid ∧ alert.allocSize = key.size

theorem isFor_of_mem {stats : Option AllocStats} {s : Step} {alert : HeapSprayAlert} (h : alert ∈ (s.run stats).2)
    (key : AllocKey) : isFor key alert = decide (s.key = key) := by
  have hkey : s.key = ⟨alert.pid, alert.allocSize⟩ := by
    cases s with
    | malloc c size =>
      simp only [Step.run, thorMallocProbe, sprayed] at h
      split_ifs at h
      · cases h
      · cases h
        rfl
      · cases h
    | mmap c length prot flags =>
      simp only [Step.run, thorMmapProbe] at h
      split_ifs at h
      · cases h
      · cases h
        rfl
      · cases h
    | evict key => cases h
  obtain ⟨pid, size⟩ := key
  simp only [isFor, hkey, AllocKey.mk.injEq]

theorem filter_outputs {key : AllocKey} (hsize : ¬ (key.size = 0 ∨ 1024 * 1024 * 10 < key.size)) (ss : List Step)
    {cs : List Context} (hcs : ss.filter (fun s => decide (s.key = key)) = cs.map fun c => .malloc c key.size)
    (hmono : cs.Pairwise fun a b => a.now ≤ b.now) (hroom : ∀ c ∈ cs, c.room = true) :
    (Mealy.outputs step (fun _ => none) ss).reduceOption.filter (isFor key) = (alertsOf key.size cs).reduceOption := by
  rw [Mealy.events_project step Step.run (fun m : Maps => m key) (fun s => decide (s.key = key)) (isFor key) ?_ ?_ ?_, hcs,
    (mallocs_run hsize hmono hroom).2]
  · intro m s h
    obtain rfl := of_decide_eq_true h
    exact Prod.ext (Function.update_self ..) rfl
  · intro m s h
    exact Function.update_of_ne (Ne.symm (of_decide_eq_false h)) ..
  · intro m s alert h
    exact isFor_of_mem h key

/-- **Heap sprays.** In any run with room for the alerts, those for the allocations of a size by a thread are the ones of
their bursts: one for 500 of them in the first 50 ms, with a confidence of 50, and then one for 2000, with one of 95. -/
theorem alerts_of_run {key : AllocKey} (hsize : ¬ (key.size = 0 ∨ 1024 * 1024 * 10 < key.size)) (ss : List Step)
    (cs : List Context) (hcs : ss.filter (fun s => decide (s.key = key)) = cs.map fun c => .malloc c key.size)
    (hmono : cs.Pairwise fun a b => a.now ≤ b.now) (hroom : ∀ c ∈ cs, c.room = true) :
    (Mealy.outputs step (fun _ => none) ss).reduceOption.filter (isFor key) =
      ((List.range cs.length).map fun n => alertOf key.size (current (cs.take (n + 1)))).reduceOption :=
  filter_outputs hsize ss hcs hmono hroom

def allocation (tgid : UInt32) : Context := ⟨tgid, "browser", 0, true⟩

/-- Another thread allocates in between. -/
theorem two_allocations : (Mealy.outputs step (fun _ => none) [.malloc (allocation 700) 64, .malloc (allocation 701) 64,
    .malloc (allocation 700) 64]).reduceOption.filter (isFor ⟨700, 64⟩) = [] :=
  (@alerts_of_run ⟨700, 64⟩ (by decide) _ [allocation 700, allocation 700] rfl (by decide) (by decide)).trans (by decide)

/-! ## One burst -/

/-- No two allocations are more than a second apart. -/
def IsBurst (cs : List Context) : Prop := cs.IsChain fun a b => b.now - a.now ≤ 1000000000

theorem current_of_isBurst {cs : List Context} (h : IsBurst cs) : current cs = cs := by
  induction cs using List.reverseRecOn with
  | nil => rfl
  | append_singleton cs c ih =>
    obtain ⟨hcs, -, hlast⟩ := List.isChain_append.1 h
    rw [current_concat, ih hcs, join, if_neg]
    rw [Bool.not_eq_true, Option.any_eq_false]
    intro last hmem
    simpa using hlast last hmem c rfl

/-- The number of alerts for a burst, by its length and how many of it are early. -/
def alertCount (length early : ℕ) : ℕ := early / 500 + (length - early / 500 * 500) / 2000

theorem length_alertOf (size : UInt64) (first : Context) (burst : List Context) :
    [alertOf size (first :: burst)].reduceOption.length = if pending (first :: burst) = 0 then 1 else 0 := by
  rw [alertOf]
  split_ifs <;> rfl

theorem alertCount_concat {first c : Context} {burst : List Context} (hfirst : first.now ≤ c.now)
    (hle : ∀ b ∈ burst, first.now ≤ b.now ∧ b.now ≤ c.now) :
    alertCount (first :: burst ++ [c]).length ((first :: burst ++ [c]).countP (isEarly first)) =
      alertCount (first :: burst).length ((first :: burst).countP (isEarly first)) +
        if pending (first :: burst ++ [c]) = 0 then 1 else 0 := by
  have hself := isEarly_self first
  have hcount := List.countP_le_length (p := isEarly first) (l := burst)
  simp only [alertCount, pending, List.cons_append, List.length_cons, List.length_append, List.countP_cons,
    List.countP_append, List.countP_nil, List.length_nil, hself, if_true]
  cases hearly : isEarly first c with
  | true =>
    rw [countP_early hfirst hle hearly]
    simp only [if_true]
    split_ifs <;> omega
  | false =>
    simp only [Bool.false_eq_true, if_false]
    split_ifs <;> omega

theorem length_alertsOf_burst (size : UInt64) {first : Context} {burst : List Context} (h : IsBurst (first :: burst))
    (hmono : (first :: burst).Pairwise fun a b => a.now ≤ b.now) :
    (alertsOf size (first :: burst)).reduceOption.length =
      alertCount (first :: burst).length ((first :: burst).countP (isEarly first)) := by
  induction burst using List.reverseRecOn with
  | nil =>
    have hself := isEarly_self first
    simp only [alertsOf, List.length_singleton, List.range_one, List.map_singleton, List.take_succ_cons, List.take_nil,
      current_of_isBurst h, length_alertOf, pending_singleton, List.countP_singleton, hself, if_true]
    rfl
  | append_singleton burst c ih =>
    rw [← List.cons_append] at h hmono ⊢
    obtain ⟨hburst, -, hle⟩ := List.pairwise_append.1 hmono
    have hfirst := (List.pairwise_cons.1 hburst).1
    have hlast (b : Context) (hb : b ∈ first :: burst) : b.now ≤ c.now := hle b hb c (List.mem_singleton_self c)
    rw [alertsOf_concat, List.reduceOption_append, List.length_append, current_of_isBurst h, List.cons_append,
      length_alertOf, ← List.cons_append, ih (List.isChain_append.1 h).1 hburst,
      alertCount_concat (hlast first List.mem_cons_self) fun b hb => ⟨hfirst b hb, hlast b (.tail _ hb)⟩]

/-- **One burst.** A burst of allocations leads, in any run, to an alert for each 500 of those in its first 50 ms, and to
one for each 2000 of the rest. -/
theorem alerts_of_burst {key : AllocKey} (hsize : ¬ (key.size = 0 ∨ 1024 * 1024 * 10 < key.size)) (ss : List Step)
    (first : Context) (burst : List Context)
    (hcs : ss.filter (fun s => decide (s.key = key)) = (first :: burst).map fun c => .malloc c key.size)
    (hmono : (first :: burst).Pairwise fun a b => a.now ≤ b.now) (hroom : ∀ c ∈ first :: burst, c.room = true)
    (hburst : IsBurst (first :: burst)) :
    ((Mealy.outputs step (fun _ => none) ss).reduceOption.filter (isFor key)).length =
      alertCount (burst.length + 1) ((first :: burst).countP (isEarly first)) := by
  rw [filter_outputs hsize ss hcs hmono hroom, length_alertsOf_burst key.size hburst hmono, List.length_cons]

/-- A browser allocates 500 times at once. -/
theorem five_hundred_allocations : ((Mealy.outputs step (fun _ => none)
    ((List.replicate 500 (allocation 700)).map fun c => .malloc c 64)).reduceOption.filter
      (isFor ⟨700, 64⟩)).length = 1 := by
  have hmem {c : Context} (h : c ∈ List.replicate 500 (allocation 700)) : c = allocation 700 :=
    List.eq_of_mem_replicate h
  have hcount : (List.replicate 500 (allocation 700)).countP (isEarly (allocation 700)) = 500 := by
    rw [List.countP_replicate, if_pos (isEarly_self _)]
  have hburst : IsBurst (List.replicate 500 (allocation 700)) :=
    List.isChain_replicate_of_rel _ (by decide)
  refine (@alerts_of_burst ⟨700, 64⟩ (by decide) _ (allocation 700) (List.replicate 499 (allocation 700)) ?_ ?_ ?_
    hburst).trans ?_
  · refine List.filter_eq_self.2 ?_
    intro s hs
    obtain ⟨c, hc, rfl⟩ := List.mem_map.1 hs
    rw [hmem hc]
    rfl
  · rw [← List.replicate_succ]
    exact List.pairwise_replicate.2 (.inr (UInt64.le_refl _))
  · intro c hc
    rw [hmem hc]
    rfl
  · rw [← List.replicate_succ, hcount, List.length_replicate]
    rfl

end ThorFirewall.HeapSpray
