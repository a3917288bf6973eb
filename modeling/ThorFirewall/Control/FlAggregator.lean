import Mathlib
import ThorFirewall.Lib.TrimmedMean

/-!
# The federated-learning aggregator (`fl_aggregator.rs`)

`aggregate` takes one weight update per agent, quarantines the updates whose norm is more than three deviations from the
median norm, and averages what is left coordinate by coordinate, without a fifth of the values at either end. The
numbers are those of an ordered field, with its square root as a parameter: rounding is not modelled.

- `aggregate_eq`: a round over updates of one dimension, in terms of the updates that pass the norm filter;
- `rejected_le`: the filter quarantines less than a ninth of the round, whoever sent the updates;
- `bounded_mean`: a mean trimmed by at least the number of Byzantine values lies between honest ones;
- `aggregate_bounded`: what follows for one round;
- `robust_of_le`, `not_robust_of_lt`: what follows for the trimming, which counts the updates after the filter;
- `robust_iff`: the rounds of which size tolerate one fifth of Byzantine agents.
-/

namespace ThorFirewall.FlAggregator

open TrimmedMean

/-! ## Types -/

structure AgentWeightUpdate (K : Type*) where
  agentId : String
  weights : List K
  nSamples : UInt32

inductive AggregationMethod (K : Type*)
  | trimmedMean (trimFraction : K)
  | fedAvg

structure AggregationResult (K : Type*) where
  globalWeights : List K
  acceptedCount : ℕ
  quarantinedAgents : List String
  method : AggregationMethod K

section Model

variable {K : Type*} [Field K] [LinearOrder K]

/-- The aggregator; the assertion of `with_trim_fraction` holds of every one that is built. -/
structure ByzantineRobustAggregator (K : Type*) [Field K] [LinearOrder K] where
  trimFraction : K
  normZscoreThreshold : K
  trim_pos : 0 < trimFraction
  trim_lt : trimFraction < 1 / 2

def ByzantineRobustAggregator.new [IsStrictOrderedRing K] : ByzantineRobustAggregator K where
  trimFraction := 20 / 100
  normZscoreThreshold := 3
  trim_pos := by norm_num
  trim_lt := by norm_num

/-- `none` is the failed assertion. -/
def ByzantineRobustAggregator.withTrimFraction (self : ByzantineRobustAggregator K) (f : K) :
    Option (ByzantineRobustAggregator K) :=
  if h : 0 < f ∧ f < 1 / 2 then some { self with trimFraction := f, trim_pos := h.1, trim_lt := h.2 } else none

/-! ## Math helpers -/

variable (sqrt : K → K)

def l2Norm (v : List K) : K := sqrt (v.map fun x => x ^ 2).sum

def median (v : List K) : K :=
  if v.isEmpty then 0
  else
    let s := v.insertionSort (· ≤ ·)
    let mid := s.length / 2
    if s.length % 2 = 0 then (s.getD (mid - 1) 0 + s.getD mid 0) / 2 else s.getD mid 0

def stdDev (v : List K) (mean : K) : K :=
  if v.length < 2 then 1
  else
    let variance : K := (v.map fun x => (x - mean) ^ 2).sum / (v.length - 1 : ℕ)
    max (sqrt variance) (1 / 10 ^ 8 : K)

/-- The value at coordinate `d`; `aggregate` has checked that it is there. -/
def AgentWeightUpdate.at (u : AgentWeightUpdate K) (d : ℕ) : K := u.weights.getD d 0

def coordinateTrimmedMean [FloorSemiring K] (updates : List (AgentWeightUpdate K)) (dim : ℕ) (trim : K) : List K :=
  let n := updates.length
  let trimK := ⌊(n : K) * trim⌋₊
  (List.range dim).map fun d =>
    let vals := (updates.map fun u => u.at d).insertionSort (· ≤ ·)
    let trimmed := TrimmedMean.trim trimK vals
    if trimmed.isEmpty then 0 else trimmed.sum / trimmed.length

def fedavg (updates : List (AgentWeightUpdate K)) (dim : ℕ) : List K :=
  let totalSamples := (updates.map fun u => u.nSamples.toNat).sum
  if totalSamples = 0 then List.replicate dim 0
  else
    updates.foldl (fun global update =>
      let w : K := update.nSamples.toNat / totalSamples
      List.zipWith (fun g localW => g + localW * w) global update.weights ++ global.drop update.weights.length)
      (List.replicate dim 0)

/-! ## The round -/

/-- The norms of a round. -/
def normsOf (updates : List (AgentWeightUpdate K)) : List K := updates.map fun u => l2Norm sqrt u.weights

/-- The norm filter of a round with these norms. -/
def passes (self : ByzantineRobustAggregator K) (norms : List K) (norm : K) : Bool :=
  let medianNorm := median norms
  let stdNorm := stdDev sqrt norms medianNorm
  decide (|norm - medianNorm| ≤ self.normZscoreThreshold * stdNorm)

/-- `none` for a round that is skipped: no updates, or updates of different dimensions. -/
def aggregate [FloorSemiring K] (self : ByzantineRobustAggregator K) (updates : List (AgentWeightUpdate K)) :
    Option (AggregationResult K) :=
  match updates with
  | [] => none
  | first :: _ =>
    let dim := first.weights.length
    if updates.any fun u => u.weights.length != dim then none
    else
      let norms := normsOf sqrt updates
      let (cleanUpdates, quarantinedAgents) := (updates.zip norms).partition fun p => passes sqrt self norms p.2
      let quarantined := quarantinedAgents.map fun p => p.1.agentId
      let cleanUpdates := cleanUpdates.map fun p => p.1
      let accepted := cleanUpdates.length
      if accepted < 4 then
        some {
          globalWeights := fedavg cleanUpdates dim
          acceptedCount := accepted
          quarantinedAgents := quarantined
          method := .fedAvg }
      else
        some {
          globalWeights := coordinateTrimmedMean cleanUpdates dim self.trimFraction
          acceptedCount := accepted
          quarantinedAgents := quarantined
          method := .trimmedMean self.trimFraction }

/-! ## A round in terms of the norm filter -/

variable (self : ByzantineRobustAggregator K) (updates : List (AgentWeightUpdate K)) {dim : ℕ}

/-- The updates of a round that pass the norm filter. -/
def kept : List (AgentWeightUpdate K) :=
  updates.filter fun u => passes sqrt self (normsOf sqrt updates) (l2Norm sqrt u.weights)

/-- The same of a round whose updates are marked, with their marks. -/
def keptMarked {β : Type*} (us : List (β × AgentWeightUpdate K)) : List (β × AgentWeightUpdate K) :=
  us.filter fun u => passes sqrt self (normsOf sqrt (us.map fun u => u.2)) (l2Norm sqrt u.2.weights)

theorem kept_map {β : Type*} (us : List (β × AgentWeightUpdate K)) :
    kept sqrt self (us.map fun u => u.2) = (keptMarked sqrt self us).map fun u => u.2 := by
  rw [kept, keptMarked, List.filter_map]
  rfl

/-- A round over updates of one dimension in which at least four pass the filter. -/
theorem aggregate_eq [FloorSemiring K] (hne : updates ≠ []) (hdim : ∀ u ∈ updates, u.weights.length = dim)
    (h4 : 4 ≤ (kept sqrt self updates).length) :
    ∃ res, aggregate sqrt self updates = some res ∧
      res.globalWeights = coordinateTrimmedMean (kept sqrt self updates) dim self.trimFraction := by
  obtain ⟨first, rest, rfl⟩ := List.exists_cons_of_ne_nil hne
  have hfirst : first.weights.length = dim := hdim first (by simp)
  have hany : ((first :: rest).any fun u => u.weights.length != dim) = false := by
    simp only [List.any_eq_false, bne_iff_ne, ne_eq, not_not]
    exact hdim
  have hzip : (first :: rest).zip (normsOf sqrt (first :: rest)) =
      (first :: rest).map fun u => (u, l2Norm sqrt u.weights) := by
    have h : ((first :: rest).map id).zip (normsOf sqrt (first :: rest)) =
        (first :: rest).map fun u => (id u, l2Norm sqrt u.weights) := List.zip_map'
    rwa [List.map_id] at h
  have hclean : (((first :: rest).zip (normsOf sqrt (first :: rest))).partition
      fun p => passes sqrt self (normsOf sqrt (first :: rest)) p.2).1.map (fun p => p.1) =
      kept sqrt self (first :: rest) := by
    rw [List.partition_eq_filter_filter, kept, hzip]
    simp only [ List.filter_map, List.map_map, Function.comp_def, List.map_id']
  have hlt : ¬ (kept sqrt self (first :: rest)).length < 4 := by omega
  simp only [aggregate, hfirst, hany, Bool.false_eq_true, if_false]
  rw [hclean, if_neg hlt]
  exact ⟨_, rfl, rfl⟩

end Model

/-! ## What the norm filter takes away -/

section Robustness

variable {updates : List (AgentWeightUpdate ℝ)} {n : ℕ}

theorem passes_iff {norms : List ℝ} {x : ℝ} : passes Real.sqrt .new norms x = true ↔
    |x - median norms| ≤ 3 * stdDev Real.sqrt norms (median norms) :=
  decide_eq_true_iff

/-- A norm that does not pass is more than nine variances from the median. -/
theorem lt_sq_of_not_passes {norms : List ℝ} {x : ℝ} (h2 : 2 ≤ norms.length)
    (h : passes Real.sqrt .new norms x = false) :
    9 * ((norms.map fun y => (y - median norms) ^ 2).sum / (norms.length - 1 : ℕ)) < (x - median norms) ^ 2 := by
  set V : ℝ := (norms.map fun y => (y - median norms) ^ 2).sum / (norms.length - 1 : ℕ) with hV
  have hV0 : 0 ≤ V := by
    refine div_nonneg (List.sum_nonneg fun y hy => ?_) (Nat.cast_nonneg _)
    obtain ⟨z, -, rfl⟩ := List.mem_map.1 hy
    positivity
  have hstd : Real.sqrt V ≤ stdDev Real.sqrt norms (median norms) := by
    rw [stdDev, if_neg (by omega)]
    exact le_max_left _ _
  have hfar : 3 * Real.sqrt V < |x - median norms| := by
    rw [← Bool.not_eq_true, passes_iff, not_le] at h
    linarith
  calc 9 * V = (3 * Real.sqrt V) ^ 2 := by rw [mul_pow, Real.sq_sqrt hV0]; norm_num
    _ < |x - median norms| ^ 2 := by gcongr
    _ = (x - median norms) ^ 2 := sq_abs _

/-- Whoever sent the updates, at most a ninth of a round does not pass the filter. -/
theorem rejected_le (h2 : 2 ≤ updates.length) :
    updates.length - (kept Real.sqrt .new updates).length ≤ (updates.length - 2) / 9 := by
  set norms := normsOf Real.sqrt updates with hnorms
  have hlen : norms.length = updates.length := by simp [hnorms, normsOf]
  set S : ℝ := (norms.map fun y => (y - median norms) ^ 2).sum with hS
  set t : ℝ := 9 * (S / (norms.length - 1 : ℕ)) with ht
  set c := (norms.map fun y => (y - median norms) ^ 2).countP (t < ·) with hc
  have hrej : updates.length - (kept Real.sqrt .new updates).length ≤ c := by
    have hsplit := List.length_eq_countP_add_countP (passes Real.sqrt .new norms) (l := norms)
    have hkept : (kept Real.sqrt .new updates).length = norms.countP (passes Real.sqrt .new norms) := by
      rw [kept, ← List.countP_eq_length_filter, hnorms, normsOf, List.countP_map]
      rfl
    have hle : norms.countP (fun x => ¬ passes Real.sqrt .new norms x) ≤ c := by
      rw [hc, List.countP_map]
      refine List.countP_mono_left fun x _ hx => ?_
      have hx : passes Real.sqrt .new norms x = false := by simpa using hx
      simpa using lt_sq_of_not_passes (by omega) hx
    omega
  rcases Nat.eq_zero_or_pos c with h0 | hpos
  · omega
  · have hsum : (c : ℝ) * t < S := countP_mul_lt_sum (fun y hy => by
      obtain ⟨z, -, rfl⟩ := List.mem_map.1 hy
      positivity) hpos
    have hN : (0 : ℝ) < (norms.length - 1 : ℕ) := by exact_mod_cast (by omega : 0 < norms.length - 1)
    have hS0 : 0 ≤ S := List.sum_nonneg fun y hy => by
      obtain ⟨z, -, rfl⟩ := List.mem_map.1 hy
      positivity
    -- `c * (9 * S / N) < S` leaves no room for `N ≤ 9 * c`
    have hlt : (9 * c : ℝ) < (norms.length - 1 : ℕ) := by
      by_contra hge
      rw [not_lt] at hge
      have hmul : S ≤ c * t := by
        rw [ht, show (c : ℝ) * (9 * (S / (norms.length - 1 : ℕ))) = (9 * c) * S / (norms.length - 1 : ℕ) by ring,
          le_div_iff₀ hN, mul_comm S]
        exact mul_le_mul_of_nonneg_right hge hS0
      linarith
    have hlt : 9 * c < norms.length - 1 := by exact_mod_cast hlt
    omega

/-! ## Rounds with Byzantine agents -/

/-- The trimmed mean at a coordinate, for a fifth at either end. -/
theorem coordinateTrimmedMean_getD {dim d : ℕ} (hd : d < dim) (hne : updates ≠ []) :
    (coordinateTrimmedMean updates dim (20 / 100)).getD d 0 =
      (trim (updates.length / 5) ((updates.map fun u => u.at d).insertionSort (· ≤ ·))).sum /
        (trim (updates.length / 5) ((updates.map fun u => u.at d).insertionSort (· ≤ ·))).length := by
  have hfloor : ⌊(updates.length : ℝ) * (20 / 100)⌋₊ = updates.length / 5 := by
    rw [show (updates.length : ℝ) * (20 / 100) = (updates.length : ℝ) / (5 : ℕ) by push_cast; ring]
    exact Nat.floor_div_eq_div _ _
  have hpos := List.length_pos_iff.2 hne
  have hlen : 0 < (trim (updates.length / 5) ((updates.map fun u => u.at d).insertionSort (· ≤ ·))).length := by
    rw [length_trim, List.length_insertionSort, List.length_map]
    omega
  have hempty : (trim (updates.length / 5) ((updates.map fun u => u.at d).insertionSort (· ≤ ·))).isEmpty = false := by
    rw [List.isEmpty_eq_false_iff]
    exact List.length_pos_iff.1 hlen
  simp only [coordinateTrimmedMean, hfloor, List.getD_eq_getElem?_getD, List.getElem?_map, List.getElem?_range hd,
    Option.map_some, Option.getD_some, hempty, Bool.false_eq_true, if_false]

/-- `w` lies between two honest values of the coordinate, hence between the least and the greatest of them. A round is
a list of updates, each marked with whether its sender is Byzantine. -/
def Bounded (us : List (Bool × AgentWeightUpdate ℝ)) (d : ℕ) (w : ℝ) : Prop :=
  (∃ u ∈ us, u.1 = false ∧ u.2.at d ≤ w) ∧ ∃ u ∈ us, u.1 = false ∧ w ≤ u.2.at d

/-- **Byzantine robustness of rounds of `n` updates.** If at most a fifth of the senders are Byzantine, every round over
updates of one dimension with equal sample counts gives weights between the honest ones. -/
def Robust (n : ℕ) : Prop :=
  ∀ (us : List (Bool × AgentWeightUpdate ℝ)) (dim : ℕ) (samples : UInt32), us.length = n →
    (∀ u ∈ us, u.2.weights.length = dim ∧ u.2.nSamples = samples) → us.countP (fun u => u.1) ≤ n / 5 →
    ∃ res, aggregate Real.sqrt .new (us.map fun u => u.2) = some res ∧ res.globalWeights.length = dim ∧
      ∀ d < dim, Bounded us d (res.globalWeights.getD d 0)

/-- At most `k` updates of a list are Byzantine: at most `k` of its values are outside what the honest ones satisfy. -/
theorem countP_values_le {us : List (Bool × AgentWeightUpdate ℝ)} {vs : List ℝ} {d k : ℕ} {p : ℝ → Bool}
    (hvs : vs.Perm (us.map fun u => u.2.at d)) (hk : us.countP (fun u => u.1) ≤ k)
    (hp : ∀ u ∈ us, u.1 = false → p (u.2.at d) = false) : vs.countP p ≤ k := by
  rw [hvs.countP_eq, List.countP_map]
  refine (List.countP_mono_left fun u hu hpu => ?_).trans hk
  by_contra hfalse
  have hfalse := hp u hu (by simpa using hfalse)
  simp_all

/-- The mean of the values that are left after trimming lies between two honest ones, if the trimming is at least the
number of Byzantine updates among them. -/
theorem bounded_mean {us ks : List (Bool × AgentWeightUpdate ℝ)} {vals : List ℝ} {d k : ℕ} (hsub : ks ⊆ us)
    (hhonest : (us.filter fun u => !u.1) ≠ []) (hperm : vals.Perm (ks.map fun u => u.2.at d))
    (hsorted : vals.Pairwise (· ≤ ·)) (hbyz : ks.countP (fun u => u.1) ≤ k) (hne : trim k vals ≠ []) :
    Bounded us d ((trim k vals).sum / (trim k vals).length) := by
  obtain ⟨a, ha, b, hb, hab⟩ := exists_bounds hhonest fun u => u.2.at d
  simp only [List.mem_filter, Bool.not_eq_true'] at ha hb hab
  have hhon : ∀ u ∈ ks, u.1 = false → a.2.at d ≤ u.2.at d ∧ u.2.at d ≤ b.2.at d := fun u hu hf => hab u ⟨hsub hu, hf⟩
  constructor
  · refine ⟨a, ha.1, ha.2, le_mean hne fun x hx => ge_of_mem_trim hsorted ?_ hx⟩
    exact countP_values_le hperm hbyz fun u hu hf => by simpa using (hhon u hu hf).1
  · refine ⟨b, hb.1, hb.2, mean_le hne fun x hx => le_of_mem_trim hsorted ?_ hx⟩
    exact countP_values_le hperm hbyz fun u hu hf => by simpa using (hhon u hu hf).2

/-- Less than all are Byzantine: some update is honest. -/
theorem honest_ne_nil {us : List (Bool × AgentWeightUpdate ℝ)} (h : us.countP (fun u => u.1) < us.length) :
    (us.filter fun u => !u.1) ≠ [] := by
  have hsplit := List.length_eq_countP_add_countP (fun u : Bool × AgentWeightUpdate ℝ => u.1) (l := us)
  simp only [Bool.not_eq_true, Bool.decide_eq_false] at hsplit
  rw [← List.length_pos_iff, ← List.countP_eq_length_filter]
  omega

theorem length_keptMarked_le (us : List (Bool × AgentWeightUpdate ℝ)) :
    (keptMarked Real.sqrt .new us).length ≤ us.length :=
  List.length_filter_le _ _

/-- `rejected_le` with the marks. -/
theorem length_keptMarked_ge (us : List (Bool × AgentWeightUpdate ℝ)) (h2 : 2 ≤ us.length) :
    us.length - (us.length - 2) / 9 ≤ (keptMarked Real.sqrt .new us).length := by
  have h2 : 2 ≤ (us.map fun u => u.2).length := by simpa using h2
  have hrej := rejected_le h2
  rw [kept_map, List.length_map, List.length_map] at hrej
  have hle := length_keptMarked_le us
  omega

/-- A round in which no more Byzantine updates pass the filter than are trimmed at either end. -/
theorem aggregate_bounded {us : List (Bool × AgentWeightUpdate ℝ)} {dim : ℕ} (h5 : 5 ≤ us.length)
    (hus : ∀ u ∈ us, u.2.weights.length = dim) (hbyz : us.countP (fun u => u.1) < us.length)
    (hkept : (keptMarked Real.sqrt .new us).countP (fun u => u.1) ≤ (keptMarked Real.sqrt .new us).length / 5) :
    ∃ res, aggregate Real.sqrt .new (us.map fun u => u.2) = some res ∧ res.globalWeights.length = dim ∧
      ∀ d < dim, Bounded us d (res.globalWeights.getD d 0) := by
  set updates := us.map fun u => u.2 with hupdates
  have hlen : (kept Real.sqrt .new updates).length = (keptMarked Real.sqrt .new us).length := by
    rw [hupdates, kept_map, List.length_map]
  have hge := length_keptMarked_ge us (by omega)
  have hne : updates ≠ [] := List.length_pos_iff.1 (by rw [hupdates, List.length_map]; omega)
  have hdim : ∀ u ∈ updates, u.weights.length = dim := by
    simp only [hupdates, List.mem_map]
    rintro _ ⟨u, hu, rfl⟩
    exact hus u hu
  obtain ⟨res, hres, hw⟩ := aggregate_eq Real.sqrt .new updates hne hdim (by omega)
  refine ⟨res, hres, by simp [hw, coordinateTrimmedMean], fun d hd => ?_⟩
  rw [hw]
  show Bounded us d ((coordinateTrimmedMean (kept Real.sqrt .new updates) dim (20 / 100)).getD d 0)
  rw [coordinateTrimmedMean_getD hd (List.length_pos_iff.1 (by omega)), hlen]
  apply bounded_mean (List.filter_subset_self us)
  · exact honest_ne_nil hbyz
  · rw [hupdates, kept_map, List.map_map]
    exact List.perm_insertionSort _ _
  · exact List.pairwise_insertionSort _ _
  · exact hkept
  · rw [← List.length_pos_iff, length_trim, List.length_insertionSort, List.length_map]
    omega

theorem robust_of_le (hn : 5 ≤ n) (h : (n - 2) / 9 ≤ n % 5) : Robust n := by
  intro us dim samples hlen hus hbyz
  subst hlen
  have hle := length_keptMarked_le us
  have hge := length_keptMarked_ge us (by omega)
  -- the filter takes away no more than the remainder: the trimming stays at a fifth of the whole round
  have htrim : (keptMarked Real.sqrt .new us).length / 5 = us.length / 5 := by omega
  apply aggregate_bounded hn (fun u hu => (hus u hu).1) (by omega)
  rw [htrim]
  exact (List.filter_sublist.countP_le).trans hbyz

/-! ## An attack on the rounds the filter shrinks too much -/

/-- More than half of the numbers are `m` and the others are not below it: their median is `m`. -/
theorem median_eq_of_perm {v s : List ℝ} {z : ℕ} {m : ℝ} (hv : v.Perm (List.replicate z m ++ s)) (hs : ∀ x ∈ s, m ≤ x)
    (hz : v.length < 2 * z) : median v = m := by
  have hsort : v.insertionSort (· ≤ ·) = List.replicate z m ++ s.insertionSort (· ≤ ·) := by
    refine insertionSort_eq (hv.trans ((List.perm_insertionSort _ s).symm.append_left _)) ?_
    refine List.pairwise_append.2 ⟨by simp [List.pairwise_replicate], List.pairwise_insertionSort _ _, ?_⟩
    intro a ha b hb
    rw [List.eq_of_mem_replicate ha]
    exact hs b ((List.mem_insertionSort _).1 hb)
  have hget : ∀ i < z, (List.replicate z m ++ s.insertionSort (· ≤ ·)).getD i 0 = m := by
    intro i hi
    rw [List.getD_append _ _ _ _ (by simpa using hi), List.getD_eq_getElem _ _ (by simpa using hi),
      List.getElem_replicate]
  have hempty : v.isEmpty = false := by
    rw [List.isEmpty_eq_false_iff]
    rintro rfl
    have := hv.length_eq
    simp at this
    omega
  have hlen : (List.replicate z m ++ s.insertionSort (· ≤ ·)).length = v.length := by
    rw [← hsort, List.length_insertionSort]
  simp only [median, hempty, Bool.false_eq_true, if_false, hsort, hlen]
  rw [hget _ (by omega), hget _ (by omega)]
  split
  · ring
  · rfl

/-- `k` agents that send the one weight `x`. -/
def agents (name : String) (byzantine : Bool) (x : ℝ) (k : ℕ) : List (Bool × AgentWeightUpdate ℝ) :=
  (List.range k).map fun i => (byzantine, { agentId := name ++ toString i, weights := [x], nSamples := 100 })

theorem map_agents {β : Type*} (name : String) (byzantine : Bool) (x : ℝ) (k : ℕ) {f : AgentWeightUpdate ℝ → β} {b : β}
    (hf : ∀ id, f ⟨id, [x], 100⟩ = b) : (agents name byzantine x k).map (f ∘ fun u => u.2) = List.replicate k b := by
  simp [agents, Function.comp_def, hf, List.map_const']

@[simp] theorem countP_agents (name : String) (byzantine : Bool) (x : ℝ) (k : ℕ) :
    (agents name byzantine x k).countP (fun u => u.1) = if byzantine then k else 0 := by
  rw [agents, List.countP_map]
  cases byzantine <;> simp [Function.comp_def]

@[simp] theorem l2Norm_singleton (x : ℝ) : l2Norm Real.sqrt [x] = |x| := by
  simp [l2Norm, Real.sqrt_sq_eq_abs]

theorem filter_agents (name : String) (byzantine : Bool) (x : ℝ) (k : ℕ) (p : ℝ → Bool) :
    ((agents name byzantine x k).map fun u => u.2).filter (fun u => p (l2Norm Real.sqrt u.weights)) =
      if p |x| then (agents name byzantine x k).map fun u => u.2 else [] := by
  cases hp : p |x| <;> simp [agents, hp]

/-- The honest agents that the filter will quarantine, those it keeps, and a fifth of Byzantine ones. -/
def attack (n : ℕ) : List (Bool × AgentWeightUpdate ℝ) :=
  agents "far" false (-3 * n) ((n - 2) / 9) ++ agents "near" false 0 (n - (n - 2) / 9 - n / 5) ++
    agents "evil" true 1 (n / 5)

theorem length_attack (hn : 5 ≤ n) : (attack n).length = n := by
  simp [attack, agents]
  omega

theorem countP_attack : (attack n).countP (fun u => u.1) = n / 5 := by
  simp [attack]

theorem mem_attack {u : Bool × AgentWeightUpdate ℝ} (hu : u ∈ attack n) :
    u.2.weights.length = 1 ∧ u.2.nSamples = 100 ∧ (u.1 = false → u.2.at 0 ≤ 0) := by
  simp only [attack, agents, List.mem_append, List.mem_map, List.mem_range] at hu
  obtain (⟨i, -, rfl⟩ | ⟨i, -, rfl⟩) | ⟨i, -, rfl⟩ := hu <;> simp [AgentWeightUpdate.at]

theorem normsOf_attack : normsOf Real.sqrt ((attack n).map fun u => u.2) =
    List.replicate ((n - 2) / 9) (3 * (n : ℝ)) ++ List.replicate (n - (n - 2) / 9 - n / 5) 0 ++
      List.replicate (n / 5) 1 := by
  have habs : |(-3 * (n : ℝ))| = 3 * n := by
    rw [neg_mul, abs_neg, abs_of_nonneg (by positivity)]
  simp only [normsOf, attack, List.map_append, List.map_map]
  refine congrArg₂ _ (congrArg₂ _ ?_ ?_) ?_ <;> refine map_agents _ _ _ _ fun id => ?_
  · rw [l2Norm_singleton, habs]
  · simp
  · simp

theorem median_attack (hn : 5 ≤ n) : median (normsOf Real.sqrt ((attack n).map fun u => u.2)) = 0 := by
  refine median_eq_of_perm (z := n - (n - 2) / 9 - n / 5)
    (s := List.replicate ((n - 2) / 9) (3 * (n : ℝ)) ++ List.replicate (n / 5) 1) ?_ ?_ ?_
  · rw [normsOf_attack, ← List.append_assoc]
    exact List.perm_append_comm.append_right _
  · intro x hx
    simp only [List.mem_append, List.mem_replicate] at hx
    rcases hx with ⟨-, rfl⟩ | ⟨-, rfl⟩
    · positivity
    · exact zero_le_one
  · simp only [normsOf, List.length_map, length_attack hn]
    omega

/-- The spread of the norms is that of the agents far away. -/
theorem stdDev_attack (hn : 5 ≤ n) : stdDev Real.sqrt (normsOf Real.sqrt ((attack n).map fun u => u.2)) 0 =
    max (Real.sqrt ((9 * (n : ℝ) ^ 2 * ((n - 2) / 9 : ℕ) + (n / 5 : ℕ)) / (n - 1 : ℕ))) (1 / 10 ^ 8) := by
  have hlen : (normsOf Real.sqrt ((attack n).map fun u => u.2)).length = n := by simp [normsOf, length_attack hn]
  have hsum : ((normsOf Real.sqrt ((attack n).map fun u => u.2)).map fun x => (x - 0) ^ 2).sum =
      9 * (n : ℝ) ^ 2 * ((n - 2) / 9 : ℕ) + (n / 5 : ℕ) := by
    rw [normsOf_attack]
    simp only [List.map_append, List.map_replicate, List.sum_append, List.sum_replicate, nsmul_eq_mul]
    ring
  rw [stdDev, hlen, if_neg (by omega), hsum]

/-- The filter quarantines the honest agents far away and keeps the others. -/
theorem passes_attack (hn : 5 ≤ n) (h : n % 5 < (n - 2) / 9) :
    passes Real.sqrt .new (normsOf Real.sqrt ((attack n).map fun u => u.2)) (3 * n) = false ∧
      passes Real.sqrt .new (normsOf Real.sqrt ((attack n).map fun u => u.2)) 0 = true ∧
      passes Real.sqrt .new (normsOf Real.sqrt ((attack n).map fun u => u.2)) 1 = true := by
  have hn0 : (5 : ℝ) ≤ n := by exact_mod_cast hn
  have hN : ((n - 1 : ℕ) : ℝ) = n - 1 := by push_cast [show 1 ≤ n by omega]; ring
  have hr : (9 * ((n - 2) / 9 : ℕ) : ℝ) ≤ n - 2 := by
    have hle : 9 * ((n - 2) / 9) + 2 ≤ n := by omega
    have hle : (9 * ((n - 2) / 9 : ℕ) + 2 : ℝ) ≤ n := by exact_mod_cast hle
    linarith
  have hr1 : (1 : ℝ) ≤ ((n - 2) / 9 : ℕ) := by exact_mod_cast (by omega : 1 ≤ (n - 2) / 9)
  have hf : ((n / 5 : ℕ) : ℝ) ≤ n := by exact_mod_cast Nat.div_le_self n 5
  have hf0 : (0 : ℝ) ≤ (n / 5 : ℕ) := Nat.cast_nonneg _
  have hsq : 5 * (n : ℝ) ≤ n ^ 2 := by
    rw [sq]
    exact mul_le_mul_of_nonneg_right hn0 (by linarith)
  rw [← Bool.not_eq_true, passes_iff, passes_iff, passes_iff, median_attack hn, stdDev_attack hn, hN]
  generalize ((n - 2) / 9 : ℕ) = r at hr hr1
  generalize (n / 5 : ℕ) = f at hf hf0
  refine ⟨?_, ?_, ?_⟩
  · -- the variance is below the square of `n`, since the far agents are fewer than a ninth
    have hV : (9 * (n : ℝ) ^ 2 * r + f) / (n - 1) < n ^ 2 := by
      rw [div_lt_iff₀ (by linarith)]
      have hfar := mul_le_mul_of_nonneg_left hr (sq_nonneg (n : ℝ))
      linarith
    have hsqrt : Real.sqrt ((9 * (n : ℝ) ^ 2 * r + f) / (n - 1)) < n := (Real.sqrt_lt' (by linarith)).2 hV
    have hmax : max (Real.sqrt ((9 * (n : ℝ) ^ 2 * r + f) / (n - 1))) (1 / 10 ^ 8) < n :=
      max_lt hsqrt (by linarith [show (1 / 10 ^ 8 : ℝ) < 5 by norm_num])
    rw [sub_zero, abs_of_nonneg (by linarith), not_le]
    linarith
  · rw [sub_zero, abs_zero]
    positivity
  · have hV : (1 / 3 : ℝ) ^ 2 ≤ (9 * (n : ℝ) ^ 2 * r + f) / (n - 1) := by
      rw [le_div_iff₀ (by linarith)]
      have hfar := mul_le_mul_of_nonneg_left hr1 (sq_nonneg (n : ℝ))
      linarith
    have hsqrt : 1 / 3 ≤ Real.sqrt ((9 * (n : ℝ) ^ 2 * r + f) / (n - 1)) := Real.le_sqrt_of_sq_le hV
    have hmax := hsqrt.trans (le_max_left _ (1 / 10 ^ 8 : ℝ))
    rw [sub_zero, abs_one]
    linarith

theorem kept_attack (hn : 5 ≤ n) (h : n % 5 < (n - 2) / 9) : kept Real.sqrt .new ((attack n).map fun u => u.2) =
    (agents "near" false 0 (n - (n - 2) / 9 - n / 5) ++ agents "evil" true 1 (n / 5)).map fun u => u.2 := by
  obtain ⟨hfar, hnear, hevil⟩ := passes_attack hn h
  have habs : |(-3 * (n : ℝ))| = 3 * n := by
    rw [neg_mul, abs_neg, abs_of_nonneg (by positivity)]
  rw [kept]
  generalize passes Real.sqrt .new (normsOf Real.sqrt ((attack n).map fun u => u.2)) = p at hfar hnear hevil
  simp only [attack, List.map_append, List.filter_append, filter_agents, habs, abs_zero, abs_one, hfar, hnear, hevil,
    Bool.false_eq_true, if_false, if_true, List.nil_append]

/-- The sum of zeros and ones without `k` values at either end. -/
theorem sum_trim {z f k : ℕ} (hz : k ≤ z) (hf : k ≤ f) :
    (trim k (List.replicate z (0 : ℝ) ++ List.replicate f 1)).sum = ((f - k : ℕ) : ℝ) := by
  have htake : (List.replicate z (0 : ℝ) ++ List.replicate f 1).take (z + f - k) =
      List.replicate z 0 ++ List.replicate (f - k) 1 := by
    rw [show z + f - k = z + (f - k) by omega, List.take_append]
    simp
  rw [trim, List.length_append, List.length_replicate, List.length_replicate, htake, List.drop_append]
  simp [hz]

/-- The attacked round: the Byzantine values that are left after trimming count in the mean. -/
theorem aggregate_attack (hn : 5 ≤ n) (h : n % 5 < (n - 2) / 9) :
    ∃ res, aggregate Real.sqrt .new ((attack n).map fun u => u.2) = some res ∧ res.globalWeights.getD 0 0 =
      ((n / 5 - (n - (n - 2) / 9) / 5 : ℕ) : ℝ) / (n - (n - 2) / 9 - 2 * ((n - (n - 2) / 9) / 5) : ℕ) := by
  set updates := (attack n).map fun u => u.2 with hupdates
  have hkept := kept_attack hn h
  have hklen : (kept Real.sqrt .new updates).length = n - (n - 2) / 9 := by
    rw [hkept]
    simp [agents]
    omega
  have hvals : (kept Real.sqrt .new updates).map (fun u => u.at 0) =
      List.replicate (n - (n - 2) / 9 - n / 5) (0 : ℝ) ++ List.replicate (n / 5) 1 := by
    rw [hkept, List.map_map, List.map_append, map_agents, map_agents] <;> intro id <;> rfl
  have hsort : ((kept Real.sqrt .new updates).map fun u => u.at 0).insertionSort (· ≤ ·) =
      List.replicate (n - (n - 2) / 9 - n / 5) (0 : ℝ) ++ List.replicate (n / 5) 1 := by
    refine insertionSort_eq (by rw [hvals]) (List.pairwise_append.2 ⟨by simp, by simp, ?_⟩)
    intro a ha b hb
    rw [List.eq_of_mem_replicate ha, List.eq_of_mem_replicate hb]
    exact zero_le_one
  have hne : updates ≠ [] := List.length_pos_iff.1 (by rw [hupdates, List.length_map, length_attack hn]; omega)
  have hdim : ∀ u ∈ updates, u.weights.length = 1 := by
    simp only [hupdates, List.mem_map]
    rintro _ ⟨u, hu, rfl⟩
    exact (mem_attack hu).1
  obtain ⟨res, hres, hw⟩ := aggregate_eq Real.sqrt .new updates hne hdim (by omega)
  have hlen : n - (n - 2) / 9 - n / 5 + n / 5 - (n - (n - 2) / 9) / 5 - (n - (n - 2) / 9) / 5 =
      n - (n - 2) / 9 - 2 * ((n - (n - 2) / 9) / 5) := by omega
  refine ⟨res, hres, ?_⟩
  rw [hw]
  show (coordinateTrimmedMean (kept Real.sqrt .new updates) 1 (20 / 100)).getD 0 0 = _
  rw [coordinateTrimmedMean_getD one_pos (List.length_pos_iff.1 (by omega)), hsort, hklen,
    sum_trim (by omega) (by omega), length_trim, List.length_append, List.length_replicate, List.length_replicate, hlen]

/-- The mean of an attacked round is above zero, and no honest weight is. -/
theorem not_bounded_attack (h : n % 5 < (n - 2) / 9) : ¬ Bounded (attack n) 0
    (((n / 5 - (n - (n - 2) / 9) / 5 : ℕ) : ℝ) / (n - (n - 2) / 9 - 2 * ((n - (n - 2) / 9) / 5) : ℕ)) := by
  rintro ⟨-, u, hu, hf, hle⟩
  have hnum : 0 < n / 5 - (n - (n - 2) / 9) / 5 := by omega
  have hden : 0 < n - (n - 2) / 9 - 2 * ((n - (n - 2) / 9) / 5) := by omega
  have hpos := div_pos (Nat.cast_pos (α := ℝ).2 hnum) (Nat.cast_pos (α := ℝ).2 hden)
  exact absurd (hle.trans ((mem_attack hu).2.2 hf)) (not_le.2 hpos)

theorem not_robust_of_lt (hn : 5 ≤ n) (h : n % 5 < (n - 2) / 9) : ¬ Robust n := by
  intro hrob
  obtain ⟨res, hres, hw⟩ := aggregate_attack hn h
  obtain ⟨res', hres', -, hall⟩ := hrob (attack n) 1 100 (length_attack hn)
    (fun u hu => ⟨(mem_attack hu).1, (mem_attack hu).2.1⟩) countP_attack.le
  obtain rfl : res = res' := Option.some.inj (hres.symm.trans hres')
  exact not_bounded_attack h (hw ▸ hall 0 one_pos)

/-- **Which rounds are robust.** A round keeps the bound if no more Byzantine updates pass the norm filter than are
trimmed at either end. The filter can quarantine `(n - 2) / 9` honest updates, and the trimming is a fifth of what is
left: all rounds of `n` updates tolerate a fifth of Byzantine agents exactly if these two do not add up. -/
theorem robust_iff (n : ℕ) (hn : 5 ≤ n) :
    (∀ (us : List (Bool × AgentWeightUpdate ℝ)) (dim : ℕ), us.length = n → (∀ u ∈ us, u.2.weights.length = dim) →
      us.countP (fun u => u.1) ≤ n / 5 →
      (keptMarked Real.sqrt .new us).countP (fun u => u.1) ≤ (keptMarked Real.sqrt .new us).length / 5 →
      ∃ res, aggregate Real.sqrt .new (us.map fun u => u.2) = some res ∧ res.globalWeights.length = dim ∧
        ∀ d < dim, Bounded us d (res.globalWeights.getD d 0)) ∧
    (Robust n ↔ (n - 2) / 9 ≤ n % 5) := by
  refine ⟨?_, fun hrob => not_lt.1 fun h => not_robust_of_lt hn h hrob, robust_of_le hn⟩
  intro us dim hlen hus hbyz hkept
  exact aggregate_bounded (by omega) hus (by omega) hkept

/-- Rounds of ten agents, as in the tests, are robust. -/
theorem robust_ten : 5 ≤ 10 ∧ Robust 10 := ⟨by decide, (robust_iff 10 (by decide)).2.2 (by decide)⟩

/-- Fifteen agents, three of them Byzantine: one honest agent is quarantined, and a weight of `1` by a Byzantine agent
counts in the mean, which is above every honest weight. -/
theorem robust_fails : (attack 15).length = 15 ∧ (attack 15).countP (fun u => u.1) ≤ 15 / 5 ∧
    (∀ u ∈ attack 15, u.2.weights.length = 1 ∧ u.2.nSamples = 100) ∧
    ∃ res, aggregate Real.sqrt .new ((attack 15).map fun u => u.2) = some res ∧
      res.globalWeights.getD 0 0 = 1 / 10 ∧ ¬ Bounded (attack 15) 0 (res.globalWeights.getD 0 0) := by
  refine ⟨length_attack (by decide), countP_attack.le, fun u hu => ⟨(mem_attack hu).1, (mem_attack hu).2.1⟩, ?_⟩
  obtain ⟨res, hres, hw⟩ := aggregate_attack (n := 15) (by decide) (by decide)
  refine ⟨res, hres, hw.trans (by norm_num), ?_⟩
  rw [hw]
  exact not_bounded_attack (by decide)

end Robustness

end ThorFirewall.FlAggregator
