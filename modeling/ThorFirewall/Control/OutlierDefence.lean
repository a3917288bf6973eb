import Mathlib
import ThorFirewall.Control.FlAggregator

/-!
# The two defences of a round (`fl_aggregator.rs`)

What the trimmed mean and the norm filter promise, each taken alone.

- `trimmedMean_robust`: the trimmed mean of any round lies between honest values, whatever the trimming, if no more
  updates are Byzantine than are trimmed at either end; it trims within the list, and the order does not matter;
- `passes_lone`: the norm filter on a round of copies of one update and a single other one;
- `lone_attacker_iff`: from which size of the round on the filter quarantines that one, however large it is.
-/

namespace ThorFirewall.FlAggregator

open TrimmedMean

/-! ## The trimmed mean -/

section Trimming

variable {trimFraction : ℝ} {n : ℕ}

/-- Less than a half at either end leaves something. -/
theorem two_mul_trim_lt (hn : 0 < n) (h0 : 0 < trimFraction) (h1 : trimFraction < 1 / 2) :
    2 * ⌊(n : ℝ) * trimFraction⌋₊ < n := by
  have hn0 : (0 : ℝ) < n := by exact_mod_cast hn
  have hfloor : (⌊(n : ℝ) * trimFraction⌋₊ : ℝ) ≤ n * trimFraction := Nat.floor_le (by positivity)
  have hhalf : (n : ℝ) * trimFraction < n * (1 / 2) := by gcongr
  have hlt : ((2 * ⌊(n : ℝ) * trimFraction⌋₊ : ℕ) : ℝ) < n := by
    push_cast
    linarith
  exact_mod_cast hlt

/-- The mean of a coordinate in a different order. -/
theorem coordinateTrimmedMean_perm {us vs : List (AgentWeightUpdate ℝ)} (h : us.Perm vs) (dim : ℕ) :
    coordinateTrimmedMean us dim trimFraction = coordinateTrimmedMean vs dim trimFraction := by
  have hsort : ∀ d, (us.map fun u => u.at d).insertionSort (· ≤ ·) = (vs.map fun u => u.at d).insertionSort (· ≤ ·) :=
    fun d => insertionSort_eq ((h.map _).trans (List.perm_insertionSort _ _).symm) (List.pairwise_insertionSort _ _)
  simp only [coordinateTrimmedMean, hsort, h.length_eq]

/-- **The trimmed mean is robust.** Of a round that is not empty it trims a part of the list at either end and leaves
something; each coordinate of the mean lies between honest values if at most as many updates are Byzantine as are
trimmed at either end; and the order of the updates does not matter. -/
theorem trimmedMean_robust (h0 : 0 < trimFraction) (h1 : trimFraction < 1 / 2)
    (us : List (Bool × AgentWeightUpdate ℝ)) (dim : ℕ) (hne : us ≠ [])
    (_hdim : ∀ u ∈ us, u.2.weights.length = dim) :
    (⌊(us.length : ℝ) * trimFraction⌋₊ < us.length - ⌊(us.length : ℝ) * trimFraction⌋₊ ∧
      us.length - ⌊(us.length : ℝ) * trimFraction⌋₊ ≤ us.length) ∧
    (us.countP (fun u => u.1) ≤ ⌊(us.length : ℝ) * trimFraction⌋₊ →
      (coordinateTrimmedMean (us.map fun u => u.2) dim trimFraction).length = dim ∧
      ∀ d < dim, Bounded us d ((coordinateTrimmedMean (us.map fun u => u.2) dim trimFraction).getD d 0)) ∧
    ∀ vs, vs.Perm (us.map fun u => u.2) →
      coordinateTrimmedMean vs dim trimFraction = coordinateTrimmedMean (us.map fun u => u.2) dim trimFraction := by
  have htrim := two_mul_trim_lt (List.length_pos_iff.2 hne) h0 h1
  refine ⟨⟨by omega, Nat.sub_le _ _⟩, fun hbyz => ⟨by simp [coordinateTrimmedMean], fun d hd => ?_⟩,
    fun vs hvs => coordinateTrimmedMean_perm hvs dim⟩
  set vals := ((us.map fun u => u.2).map fun u => u.at d).insertionSort (· ≤ ·) with hvals
  have hlen : vals.length = us.length := by simp [hvals]
  have hleft : trim ⌊(us.length : ℝ) * trimFraction⌋₊ vals ≠ [] := by
    rw [← List.length_pos_iff, length_trim, hlen]
    omega
  have hget : (coordinateTrimmedMean (us.map fun u => u.2) dim trimFraction).getD d 0 =
      (trim ⌊(us.length : ℝ) * trimFraction⌋₊ vals).sum / (trim ⌊(us.length : ℝ) * trimFraction⌋₊ vals).length := by
    have hempty := List.isEmpty_eq_false_iff.2 hleft
    simp only [coordinateTrimmedMean, List.length_map, List.getD_eq_getElem?_getD, List.getElem?_map,
      List.getElem?_range hd, Option.map_some, Option.getD_some, ← hvals, hempty, Bool.false_eq_true, if_false]
  rw [hget]
  apply bounded_mean (List.Subset.refl us) (honest_ne_nil (by omega)) _ (List.pairwise_insertionSort _ _) hbyz hleft
  apply (List.perm_insertionSort _ _).trans
  rw [List.map_map]
  rfl

section

theorem atLeastTwo_two : Nat.AtLeastTwo 2 := inferInstance

theorem atLeastTwo_three : Nat.AtLeastTwo 3 := inferInstance

attribute [local instance] atLeastTwo_two atLeastTwo_three

/-- Three honest updates and one far away, of which a quarter is trimmed. -/
def outlierRound : List (Bool × AgentWeightUpdate ℝ) :=
  [(false, ⟨"h1", [1], 100⟩), (true, ⟨"evil1", [999], 100⟩), (false, ⟨"h2", [2], 100⟩), (false, ⟨"h3", [3], 100⟩)]

end

theorem trimmedMean_robust_outlier : outlierRound ≠ [] ∧ ∀ d < 1, Bounded outlierRound d
    ((coordinateTrimmedMean (outlierRound.map fun u => u.2) 1 (1 / 4)).getD d 0) := by
  have hne : outlierRound ≠ [] := List.cons_ne_nil _ _
  have hbyz : outlierRound.countP (fun u => u.1) ≤ ⌊(outlierRound.length : ℝ) * (1 / 4)⌋₊ := by
    apply Nat.le_floor
    norm_num [outlierRound]
  have hdim : ∀ u ∈ outlierRound, u.2.weights.length = 1 := by simp [outlierRound]
  exact ⟨hne, ((trimmedMean_robust (by norm_num) (by norm_num) outlierRound 1 hne hdim).2.1 hbyz).2⟩

end Trimming

/-! ## The norm filter -/

section Filter

variable (self : ByzantineRobustAggregator ℝ) {n : ℕ}

/-- A round over updates of one dimension quarantines the senders of the updates that do not pass the filter. -/
theorem aggregate_quarantined {updates : List (AgentWeightUpdate ℝ)} {dim : ℕ} (hne : updates ≠ [])
    (hdim : ∀ u ∈ updates, u.weights.length = dim) : ∃ res, aggregate Real.sqrt self updates = some res ∧
      res.quarantinedAgents = (updates.filter fun u =>
        !passes Real.sqrt self (normsOf Real.sqrt updates) (l2Norm Real.sqrt u.weights)).map fun u => u.agentId := by
  obtain ⟨first, rest, rfl⟩ := List.exists_cons_of_ne_nil hne
  have hfirst : first.weights.length = dim := hdim first (by simp)
  have hany : ((first :: rest).any fun u => u.weights.length != dim) = false := by
    simp only [List.any_eq_false, bne_iff_ne, ne_eq, not_not]
    exact hdim
  have hzip : (first :: rest).zip (normsOf Real.sqrt (first :: rest)) =
      (first :: rest).map fun u => (u, l2Norm Real.sqrt u.weights) := by
    have h : ((first :: rest).map id).zip (normsOf Real.sqrt (first :: rest)) =
        (first :: rest).map fun u => (id u, l2Norm Real.sqrt u.weights) := List.zip_map'
    rwa [List.map_id] at h
  have hout : (((first :: rest).zip (normsOf Real.sqrt (first :: rest))).partition
      fun p => passes Real.sqrt self (normsOf Real.sqrt (first :: rest)) p.2).2.map (fun p => p.1.agentId) =
      ((first :: rest).filter fun u => !passes Real.sqrt self (normsOf Real.sqrt (first :: rest))
        (l2Norm Real.sqrt u.weights)).map fun u => u.agentId := by
    rw [List.partition_eq_filter_filter, hzip]
    simp only [ List.filter_map, List.map_map, Function.comp_def]
  simp only [aggregate, hfirst, hany, Bool.false_eq_true, if_false]
  rw [hout]
  split_ifs <;> exact ⟨_, rfl, rfl⟩

/-- A round of copies of one update `w` and an update of a lone attacker at some place. -/
structure LoneRound (n : ℕ) (w : List ℝ) where
  before : List (AgentWeightUpdate ℝ)
  attacker : AgentWeightUpdate ℝ
  after : List (AgentWeightUpdate ℝ)
  length_eq : (before ++ attacker :: after).length = n
  copies : ∀ u ∈ before ++ after, u.weights = w
  dim_eq : attacker.weights.length = w.length

namespace LoneRound

variable {w : List ℝ} (r : LoneRound n w)

def updates : List (AgentWeightUpdate ℝ) := r.before ++ r.attacker :: r.after

theorem updates_ne_nil : r.updates ≠ [] :=
  List.append_ne_nil_of_right_ne_nil r.before (List.cons_ne_nil r.attacker r.after)

theorem dim_updates : ∀ u ∈ r.updates, u.weights.length = w.length := by
  intro u hu
  simp only [updates, List.mem_append, List.mem_cons] at hu
  rcases hu with hu | rfl | hu
  · rw [r.copies u (by simp [hu])]
  · exact r.dim_eq
  · rw [r.copies u (by simp [hu])]

/-- The norms of the round: `n - 1` times that of `w`, and that of the attacker. -/
theorem norms_perm : (normsOf Real.sqrt r.updates).Perm
    (List.replicate (n - 1) (l2Norm Real.sqrt w) ++ [l2Norm Real.sqrt r.attacker.weights]) := by
  have hcopies : (r.before ++ r.after).map (fun u => l2Norm Real.sqrt u.weights) =
      List.replicate (n - 1) (l2Norm Real.sqrt w) := by
    rw [List.eq_replicate_iff]
    constructor
    · have hlen := r.length_eq
      simp only [List.length_append, List.length_cons, List.length_map] at hlen ⊢
      omega
    · intro x hx
      obtain ⟨u, hu, rfl⟩ := List.mem_map.1 hx
      rw [r.copies u hu]
  have hfront : r.updates.Perm (r.before ++ r.after ++ [r.attacker]) := by
    rw [updates, List.append_assoc]
    exact (List.perm_append_singleton r.attacker r.after).symm.append_left r.before
  rw [← hcopies]
  simpa [normsOf] using hfront.map fun u => l2Norm Real.sqrt u.weights

/-- The attacker's own norm is in the deviation that the filter takes as its yardstick. -/
theorem passes_lone (h3 : 3 ≤ n) (hle : l2Norm Real.sqrt w ≤ l2Norm Real.sqrt r.attacker.weights) (x : ℝ) :
    passes Real.sqrt self (normsOf Real.sqrt r.updates) x = true ↔
      |x - l2Norm Real.sqrt w| ≤ self.normZscoreThreshold *
        max ((l2Norm Real.sqrt r.attacker.weights - l2Norm Real.sqrt w) / Real.sqrt (n - 1 : ℕ)) (1 / 10 ^ 8) := by
  have hperm := r.norms_perm
  set norms := normsOf Real.sqrt r.updates
  set c := l2Norm Real.sqrt w
  set a := l2Norm Real.sqrt r.attacker.weights
  have hlen : norms.length = n := by
    rw [hperm.length_eq]
    simp only [List.length_append, List.length_replicate, List.length_singleton]
    omega
  have hmedian : median norms = c := by
    refine median_eq_of_perm hperm (fun y hy => ?_) (by omega)
    rw [List.mem_singleton.1 hy]
    exact hle
  have hsum : (norms.map fun y => (y - c) ^ 2).sum = (a - c) ^ 2 := by
    rw [(hperm.map _).sum_eq]
    simp
  have hstd : stdDev Real.sqrt norms c = max ((a - c) / Real.sqrt (n - 1 : ℕ)) (1 / 10 ^ 8) := by
    rw [stdDev, if_neg (by omega)]
    simp only [hsum, hlen]
    rw [Real.sqrt_div (sq_nonneg _), Real.sqrt_sq (sub_nonneg.2 hle)]
  rw [passes, hmedian, hstd, decide_eq_true_iff]

/-- The copies pass. -/
theorem passes_copies (h3 : 3 ≤ n) (hz : 0 ≤ self.normZscoreThreshold)
    (hle : l2Norm Real.sqrt w ≤ l2Norm Real.sqrt r.attacker.weights) :
    passes Real.sqrt self (normsOf Real.sqrt r.updates) (l2Norm Real.sqrt w) = true := by
  rw [r.passes_lone self h3 hle, sub_self, abs_zero]
  positivity

/-- Who is quarantined: the attacker, if its update does not pass. -/
theorem quarantined (h3 : 3 ≤ n) (hz : 0 ≤ self.normZscoreThreshold)
    (hle : l2Norm Real.sqrt w ≤ l2Norm Real.sqrt r.attacker.weights) :
    ∃ res, aggregate Real.sqrt self r.updates = some res ∧ res.quarantinedAgents =
      if passes Real.sqrt self (normsOf Real.sqrt r.updates) (l2Norm Real.sqrt r.attacker.weights) then []
      else [r.attacker.agentId] := by
  obtain ⟨res, hres, hq⟩ := aggregate_quarantined self r.updates_ne_nil r.dim_updates
  refine ⟨res, hres, hq.trans ?_⟩
  have hcopies : ∀ u ∈ r.before ++ r.after,
      (!passes Real.sqrt self (normsOf Real.sqrt r.updates) (l2Norm Real.sqrt u.weights)) = false := by
    intro u hu
    rw [r.copies u hu, r.passes_copies self h3 hz hle, Bool.not_true]
  generalize passes Real.sqrt self (normsOf Real.sqrt r.updates) = p at hcopies ⊢
  have hbefore := List.filter_eq_nil_iff.2 fun u hu => Bool.eq_false_iff.1 (hcopies u (List.mem_append_left _ hu))
  have hafter := List.filter_eq_nil_iff.2 fun u hu => Bool.eq_false_iff.1 (hcopies u (List.mem_append_right _ hu))
  rw [updates, List.filter_append, hbefore, List.filter_cons, hafter, List.nil_append]
  cases p (l2Norm Real.sqrt r.attacker.weights) <;> rfl

end LoneRound

/-- A lone attacker whose update has a norm above `bound` is quarantined, and nobody else. -/
def CaughtAbove (self : ByzantineRobustAggregator ℝ) (n : ℕ) (w : List ℝ) (bound : ℝ) : Prop :=
  ∀ r : LoneRound n w, bound < l2Norm Real.sqrt r.attacker.weights →
    ∃ res, aggregate Real.sqrt self r.updates = some res ∧ res.quarantinedAgents = [r.attacker.agentId]

variable {self}

theorem three_lt_sqrt (h : 11 ≤ n) : 3 < Real.sqrt (n - 1 : ℕ) := by
  have h10 : (10 : ℝ) ≤ (n - 1 : ℕ) := by exact_mod_cast (by omega : 10 ≤ n - 1)
  rw [Real.lt_sqrt (by norm_num)]
  linarith

theorem sqrt_le_three (h : n ≤ 10) : Real.sqrt (n - 1 : ℕ) ≤ 3 := by
  have h9 : ((n - 1 : ℕ) : ℝ) ≤ 9 := by exact_mod_cast (by omega : n - 1 ≤ 9)
  rw [Real.sqrt_le_left (by norm_num)]
  linarith

/-- In a large round the attacker stands out as soon as its norm is above that of the others by what the least
deviation allows. -/
theorem caughtAbove_of_le (hz : self.normZscoreThreshold = 3) (h11 : 11 ≤ n) (w : List ℝ) :
    CaughtAbove self n w (l2Norm Real.sqrt w + 3 / 10 ^ 8) := by
  intro r hbound
  set c := l2Norm Real.sqrt w
  set a := l2Norm Real.sqrt r.attacker.weights
  have hgap : (3 : ℝ) / 10 ^ 8 < a - c := by linarith
  have hpos : (0 : ℝ) < a - c := lt_trans (by norm_num) hgap
  have hroot := three_lt_sqrt h11
  obtain ⟨res, hres, hq⟩ := r.quarantined self (by omega) (by rw [hz]; norm_num) (by linarith)
  refine ⟨res, hres, hq.trans (if_neg ?_)⟩
  rw [r.passes_lone self (by omega) (by linarith), hz, abs_of_pos hpos, not_le]
  have hshare : 3 * ((a - c) / Real.sqrt (n - 1 : ℕ)) < a - c := by
    rw [← mul_div_assoc, div_lt_iff₀ (by linarith), mul_comm]
    exact mul_lt_mul_of_pos_left hroot hpos
  rcases max_choice ((a - c) / Real.sqrt (n - 1 : ℕ)) (1 / 10 ^ 8 : ℝ) with hmax | hmax <;> rw [hmax]
  · exact hshare
  · linarith

/-- An update of this norm. -/
theorem exists_norm {dim : ℕ} (hdim : dim ≠ 0) {m : ℝ} (hm : 0 ≤ m) :
    ∃ v : List ℝ, v.length = dim ∧ l2Norm Real.sqrt v = m := by
  refine ⟨m :: List.replicate (dim - 1) 0, ?_, ?_⟩
  · rw [List.length_cons, List.length_replicate]
    omega
  · simp [l2Norm, Real.sqrt_sq hm]

/-- A round of this size around a lone attacker. -/
def loneRound (n : ℕ) (w v : List ℝ) (hn : 0 < n) (hdim : v.length = w.length) : LoneRound n w where
  before := List.replicate (n - 1) ⟨"honest", w, 100⟩
  attacker := ⟨"attacker", v, 100⟩
  after := []
  length_eq := by
    rw [List.length_append, List.length_replicate, List.length_singleton]
    omega
  copies u hu := by
    rw [List.append_nil] at hu
    rw [List.eq_of_mem_replicate hu]
  dim_eq := hdim

/-- In a small round the deviation grows with the attacker's norm, and the attacker never stands out. -/
theorem not_caughtAbove (hz : self.normZscoreThreshold = 3) (h3 : 3 ≤ n) (h10 : n ≤ 10) {w : List ℝ} (hw : w ≠ [])
    (bound : ℝ) : ¬ CaughtAbove self n w bound := by
  intro hcaught
  set c := l2Norm Real.sqrt w
  have hc : 0 ≤ c := Real.sqrt_nonneg _
  obtain ⟨v, hv, hnorm⟩ := exists_norm (mt List.length_eq_zero_iff.1 hw) (m := max c bound + 1)
    (by linarith [le_max_left c bound])
  set r := loneRound n w v (by omega) hv
  have ha : l2Norm Real.sqrt r.attacker.weights = max c bound + 1 := hnorm
  have hle : c ≤ l2Norm Real.sqrt r.attacker.weights := by
    rw [ha]
    linarith [le_max_left c bound]
  have hpasses : passes Real.sqrt self (normsOf Real.sqrt r.updates) (l2Norm Real.sqrt r.attacker.weights) = true := by
    have hroot : 0 < Real.sqrt (n - 1 : ℕ) := Real.sqrt_pos.2 (by exact_mod_cast (by omega : 0 < n - 1))
    rw [r.passes_lone self h3 hle, hz, abs_of_nonneg (sub_nonneg.2 hle)]
    refine le_trans ?_ (mul_le_mul_of_nonneg_left (le_max_left _ _) (by norm_num))
    rw [← mul_div_assoc, le_div_iff₀ hroot, mul_comm]
    exact mul_le_mul_of_nonneg_right (sqrt_le_three h10) (sub_nonneg.2 hle)
  obtain ⟨res, hres, hq⟩ := r.quarantined self h3 (by rw [hz]; norm_num) hle
  obtain ⟨res', hres', hq'⟩ := hcaught r (by rw [ha]; linarith [le_max_right c bound])
  obtain rfl : res = res' := Option.some.inj (hres.symm.trans hres')
  rw [hq, if_pos hpasses] at hq'
  cases hq'

/-- No update without weights has a norm above zero. -/
theorem caughtAbove_nil : CaughtAbove self n [] 0 := by
  intro r hbound
  rw [List.length_eq_zero_iff.1 r.dim_eq] at hbound
  simp [l2Norm] at hbound

/-- **When the norm filter catches a lone attacker.** There is a norm above which it is quarantined, and nobody else,
exactly in the rounds of eleven updates and more (or if there are no weights): the attacker's own norm counts in the
deviation, which caps its distance at `√(n - 1)` deviations. -/
theorem lone_attacker_iff (hz : self.normZscoreThreshold = 3) (hn : 5 ≤ n) (w : List ℝ) :
    (∃ bound, CaughtAbove self n w bound) ↔ 11 ≤ n ∨ w = [] := by
  constructor
  · rintro ⟨bound, hcaught⟩
    by_contra! h
    exact not_caughtAbove hz (by omega) (by omega) h.2 bound hcaught
  · rintro (h11 | rfl)
    · exact ⟨_, caughtAbove_of_le hz h11 w⟩
    · exact ⟨0, caughtAbove_nil⟩

/-- Ten honest agents and an attacker. -/
theorem lone_attacker_eleven :
    (ByzantineRobustAggregator.new (K := ℝ)).normZscoreThreshold = 3 ∧ 5 ≤ 11 ∧
      ∃ bound, CaughtAbove .new 11 [1, 2, 3] bound :=
  ⟨rfl, by decide, (lone_attacker_iff rfl (by decide) _).2 (Or.inl le_rfl)⟩

/-- Four honest agents and an attacker, as in the tests: no norm is large enough. -/
theorem lone_attacker_passes : ¬ ∀ (n : ℕ) (w : List ℝ), 5 ≤ n → ∃ bound, CaughtAbove .new n w bound := by
  intro h
  obtain ⟨bound, hcaught⟩ := h 5 [1, 2, 3] le_rfl
  exact not_caughtAbove rfl (by decide) (by decide) (by simp) bound hcaught

end Filter

end ThorFirewall.FlAggregator
