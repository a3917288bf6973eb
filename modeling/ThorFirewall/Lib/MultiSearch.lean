import Mathlib

/-!
# Searching for several patterns

`scan` goes through a text from left to right and takes the first pattern of the list that begins where it stands; it
goes on behind it. What it takes does not overlap.

- `mem_scan_of_infix`: patterns that cannot overlap are all taken where they occur;
- `finds_all_iff`: all patterns that occur in a text are taken, in every text, if and only if no two can overlap. Of two
  that do, there is a text shorter than the patterns together in which all occur.
-/

namespace MultiSearch

variable {α : Type*}

/-- Two patterns can overlap: one is a part of the other, or an end of one begins the other. -/
def Overlaps (p q : List α) : Prop :=
  p <:+: q ∨ q <:+: p ∨ (∃ s, s ≠ [] ∧ s <:+ p ∧ s <+: q) ∨ ∃ s, s ≠ [] ∧ s <:+ q ∧ s <+: p

theorem Overlaps.symm {p q : List α} : Overlaps p q → Overlaps q p := by
  rintro (h | h | h | h)
  · exact Or.inr (Or.inl h)
  · exact Or.inl h
  · exact Or.inr (Or.inr (Or.inr h))
  · exact Or.inr (Or.inr (Or.inl h))

/-- Two patterns that occur in a text, the second not behind the first, overlap. -/
theorem overlaps_of_begins {p q u v : List α} (hp : p <+: u ++ q ++ v) (hlt : u.length < p.length) : Overlaps p q := by
  obtain ⟨s, rfl⟩ : u <+: p := by
    refine List.prefix_of_prefix_length_le ?_ hp hlt.le
    rw [List.append_assoc]
    exact List.prefix_append u _
  have hs : s ≠ [] := by
    rintro rfl
    rw [List.append_nil] at hlt
    exact Nat.lt_irrefl _ hlt
  rw [List.append_assoc, List.prefix_append_right_inj] at hp
  rcases Nat.le_total s.length q.length with hle | hle
  · have hsq : s <+: q := List.prefix_of_prefix_length_le hp (List.prefix_append q v) hle
    exact Or.inr (Or.inr (Or.inl ⟨s, hs, List.suffix_append u s, hsq⟩))
  · have hqs : q <+: s := List.prefix_of_prefix_length_le (List.prefix_append q v) hp hle
    exact Or.inr (Or.inl (hqs.isInfix.trans (List.suffix_append u s).isInfix))

/-- A text with both of two patterns that overlap, shorter than both together. -/
theorem Overlaps.exists_merge {p q : List α} (h : Overlaps p q) (hp : p ≠ []) (hq : q ≠ []) :
    ∃ w, p <:+: w ∧ q <:+: w ∧ w.length < p.length + q.length ∧ ∀ a ∈ w, a ∈ p ∨ a ∈ q := by
  have hppos := List.length_pos_of_ne_nil hp
  have hqpos := List.length_pos_of_ne_nil hq
  have hjoin {p q s : List α} (hs : s ≠ []) (hsuffix : s <:+ p) (hbegins : s <+: q) :
      ∃ w, p <:+: w ∧ q <:+: w ∧ w.length < p.length + q.length ∧ ∀ a ∈ w, a ∈ p ∨ a ∈ q := by
    obtain ⟨u, rfl⟩ := hsuffix
    obtain ⟨v, rfl⟩ := hbegins
    have hspos := List.length_pos_of_ne_nil hs
    refine ⟨u ++ s ++ v, (List.prefix_append _ _).isInfix, ⟨u, [], by simp⟩, ?_, fun a ha => ?_⟩
    · simp only [List.length_append]
      omega
    · simp only [List.mem_append] at ha ⊢
      tauto
  rcases h with h | h | ⟨s, hs, hsuffix, hbegins⟩ | ⟨s, hs, hsuffix, hbegins⟩
  · exact ⟨q, h, List.infix_rfl, by omega, fun a ha => Or.inr ha⟩
  · exact ⟨p, List.infix_rfl, h, by omega, fun a ha => Or.inl ha⟩
  · exact hjoin hs hsuffix hbegins
  · obtain ⟨w, hqw, hpw, hlt, hmem⟩ := hjoin hs hsuffix hbegins
    exact ⟨w, hpw, hqw, by omega, fun a ha => (hmem a ha).symm⟩

variable {patterns : List (List α)} {text : List α} {fuel i : ℕ}

/-- The text in front of the next step. -/
theorem drop_pattern {p : List α} (h : patterns[i]? = some p) (text : List α) :
    text.drop (patterns.getD i []).length = text.drop p.length := by
  rw [List.getD_eq_getElem?_getD, h, Option.getD_some]

/-! ## The scan -/

variable [DecidableEq α]

/-- The patterns taken, by their positions in the list. Each step shortens the text: its length is fuel enough. -/
def scanFrom (patterns : List (List α)) : ℕ → List α → List ℕ
  | 0, _ => []
  | fuel + 1, text =>
    match patterns.findIdx? fun p => p.isPrefixOf text with
    | some i => i :: scanFrom patterns fuel (text.drop (patterns.getD i []).length)
    | none => scanFrom patterns fuel text.tail

def scan (patterns : List (List α)) (text : List α) : List ℕ := scanFrom patterns text.length text

theorem begins_of_findIdx? (h : patterns.findIdx? (fun p => p.isPrefixOf text) = some i) :
    ∃ p, patterns[i]? = some p ∧ p <+: text := by
  obtain ⟨hlt, hbegins, -⟩ := List.findIdx?_eq_some_iff_getElem.1 h
  exact ⟨patterns[i], List.getElem?_eq_getElem hlt, List.isPrefixOf_iff_prefix.1 hbegins⟩

theorem not_begins_of_findIdx? (h : patterns.findIdx? (fun p => p.isPrefixOf text) = none) {p : List α}
    (hp : p ∈ patterns) : ¬ p <+: text := by
  intro hbegins
  have hnot := List.findIdx?_eq_none_iff.1 h p hp
  rw [List.isPrefixOf_iff_prefix.2 hbegins] at hnot
  cases hnot

/-- What is taken occurs. -/
theorem infix_of_mem_scanFrom (h : i ∈ scanFrom patterns fuel text) : ∃ p, patterns[i]? = some p ∧ p <:+: text := by
  induction fuel generalizing text with
  | zero => cases h
  | succ fuel ih =>
    rw [scanFrom] at h
    cases hfind : patterns.findIdx? fun p => p.isPrefixOf text with
    | some k =>
      rw [hfind] at h
      rcases List.mem_cons.1 h with rfl | h
      · obtain ⟨p, hp, hbegins⟩ := begins_of_findIdx? hfind
        exact ⟨p, hp, hbegins.isInfix⟩
      · obtain ⟨p, hp, hinfix⟩ := ih h
        exact ⟨p, hp, hinfix.trans (List.drop_suffix _ _).isInfix⟩
    | none =>
      rw [hfind] at h
      obtain ⟨p, hp, hinfix⟩ := ih h
      exact ⟨p, hp, hinfix.trans (List.tail_suffix text).isInfix⟩

/-- **What is taken does not overlap**: it is not longer than the text. -/
theorem sum_scanFrom_le (patterns : List (List α)) (fuel : ℕ) (text : List α) :
    ((scanFrom patterns fuel text).map fun i => (patterns.getD i []).length).sum ≤ text.length := by
  induction fuel generalizing text with
  | zero => exact Nat.zero_le _
  | succ fuel ih =>
    rw [scanFrom]
    cases hfind : patterns.findIdx? fun p => p.isPrefixOf text with
    | some k =>
      obtain ⟨p, hp, hbegins⟩ := begins_of_findIdx? hfind
      have hrest := ih (text.drop p.length)
      have hle := hbegins.length_le
      rw [List.length_drop] at hrest
      simp only [List.map_cons, List.sum_cons, drop_pattern hp]
      rw [List.getD_eq_getElem?_getD, hp, Option.getD_some]
      omega
    | none => exact (ih text.tail).trans (List.tail_suffix text).length_le

/-! ## What is found -/

/-- **Patterns that cannot overlap are taken** where they occur. -/
theorem mem_scanFrom_of_infix (hne : ∀ p ∈ patterns, p ≠ []) (hapart : patterns.Pairwise fun p q => ¬ Overlaps p q)
    {q : List α} (hq : patterns[i]? = some q) (hin : q <:+: text) (hfuel : text.length ≤ fuel) :
    i ∈ scanFrom patterns fuel text := by
  have hqmem := List.mem_of_getElem? hq
  induction fuel generalizing text with
  | zero =>
    obtain rfl := List.length_eq_zero_iff.1 (Nat.le_zero.1 hfuel)
    exact absurd (List.infix_nil.1 hin) (hne q hqmem)
  | succ fuel ih =>
    obtain ⟨u, v, rfl⟩ := hin
    rw [scanFrom]
    cases hfind : patterns.findIdx? fun p => p.isPrefixOf (u ++ q ++ v) with
    | some k =>
      obtain ⟨p, hp, hbegins⟩ := begins_of_findIdx? hfind
      have hpos := List.length_pos_of_ne_nil (hne p (List.mem_of_getElem? hp))
      by_cases hik : i = k
      · exact hik ▸ List.mem_cons_self
      · refine List.mem_cons_of_mem _ ?_
        rcases Nat.lt_or_ge u.length p.length with hlt | hge
        · -- the pattern taken overlaps the one sought
          refine absurd (overlaps_of_begins hbegins hlt) ?_
          obtain ⟨hi, rfl⟩ := List.getElem?_eq_some_iff.1 hq
          obtain ⟨hk, rfl⟩ := List.getElem?_eq_some_iff.1 hp
          rw [List.pairwise_iff_getElem] at hapart
          rcases Nat.lt_or_gt_of_ne hik with hlt | hgt
          · exact fun h => hapart i k hi hk hlt h.symm
          · exact hapart k i hk hi hgt
        · rw [drop_pattern hp, List.append_assoc, List.drop_append_of_le_length hge, ← List.append_assoc]
          refine ih ⟨_, _, rfl⟩ ?_
          simp only [List.length_append, List.length_drop] at hfuel ⊢
          omega
    | none =>
      cases u with
      | nil => exact absurd (List.prefix_append q v) (not_begins_of_findIdx? hfind hqmem)
      | cons a u => exact ih ⟨u, v, rfl⟩ (Nat.le_of_succ_le_succ hfuel)

/-! ## All patterns -/

/-- All patterns are taken. -/
def FindsAll (patterns : List (List α)) (text : List α) : Prop := ∀ i < patterns.length, i ∈ scan patterns text

theorem length_flatten_le (h : FindsAll patterns text) : patterns.flatten.length ≤ text.length := by
  have hsub : (List.range patterns.length).Subperm (scan patterns text) :=
    List.nodup_range.subperm fun i hi => h i (List.mem_range.1 hi)
  obtain ⟨l, hperm, hsublist⟩ := hsub
  have hall : patterns = (List.range patterns.length).map fun i => patterns.getD i [] := by
    refine List.ext_getElem (by simp) fun i hi _ => ?_
    simp [List.getD_eq_getElem?_getD, hi]
  calc patterns.flatten.length
      = ((List.range patterns.length).map fun i => (patterns.getD i []).length).sum := by
        rw [List.length_flatten, congrArg (List.map List.length) hall, List.map_map]
        rfl
    _ = (l.map fun i => (patterns.getD i []).length).sum := (hperm.map _).symm.sum_eq
    _ ≤ ((scan patterns text).map fun i => (patterns.getD i []).length).sum :=
        (hsublist.map _).sum_le_sum fun _ _ => Nat.zero_le _
    _ ≤ text.length := sum_scanFrom_le patterns _ text

/-- Of patterns two of which overlap, a text has all, and not all are taken. -/
theorem exists_missed (hne : ∀ p ∈ patterns, p ≠ []) (h : ¬ patterns.Pairwise fun p q => ¬ Overlaps p q) :
    ∃ text, (∀ a ∈ text, ∃ p ∈ patterns, a ∈ p) ∧ (∀ p ∈ patterns, p <:+: text) ∧ ¬ FindsAll patterns text := by
  rw [List.pairwise_iff_forall_sublist] at h
  push Not at h
  obtain ⟨p, q, hsublist, hoverlaps⟩ := h
  have hp : p ∈ patterns := hsublist.subset (by simp)
  have hq : q ∈ patterns := hsublist.subset (by simp)
  obtain ⟨rest, hperm⟩ := hsublist.exists_perm_append
  obtain ⟨w, hpw, hqw, hlt, hmem⟩ := hoverlaps.exists_merge (hne p hp) (hne q hq)
  refine ⟨w ++ rest.flatten, fun a ha => ?_, fun r hr => ?_, fun hall => ?_⟩
  · rcases List.mem_append.1 ha with ha | ha
    · exact (hmem a ha).elim (fun h => ⟨p, hp, h⟩) fun h => ⟨q, hq, h⟩
    · obtain ⟨r, hr, ha⟩ := List.mem_flatten.1 ha
      exact ⟨r, hperm.symm.subset (List.mem_append_right _ hr), ha⟩
  · have hr' := hperm.subset hr
    simp only [List.cons_append, List.nil_append, List.mem_cons] at hr'
    rcases hr' with rfl | rfl | hr'
    · exact hpw.trans (List.prefix_append _ _).isInfix
    · exact hqw.trans (List.prefix_append _ _).isInfix
    · exact (List.infix_of_mem_flatten hr').trans (List.suffix_append _ _).isInfix
  · have hle := length_flatten_le hall
    have hlength := hperm.flatten.length_eq
    simp only [List.flatten_append, List.flatten_cons, List.flatten_nil, List.length_append, List.length_nil]
      at hlength hle
    omega

/-- **All patterns that occur are taken**, in every text, if and only if no two can overlap. -/
theorem finds_all_iff (hne : ∀ p ∈ patterns, p ≠ []) :
    (∀ text, (∀ p ∈ patterns, p <:+: text) → FindsAll patterns text) ↔ patterns.Pairwise fun p q => ¬ Overlaps p q := by
  constructor
  · intro h
    by_contra hnot
    obtain ⟨text, -, hall, hmissed⟩ := exists_missed hne hnot
    exact hmissed (h text hall)
  · intro hapart text hall i hi
    exact mem_scanFrom_of_infix hne hapart (List.getElem?_eq_getElem hi) (hall _ (List.getElem_mem hi)) (Nat.le_refl _)

end MultiSearch
