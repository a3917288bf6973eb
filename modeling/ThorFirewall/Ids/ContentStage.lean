import Mathlib
import ThorFirewall.Ids.FileExtractor
import ThorFirewall.Ids.Matcher
import ThorFirewall.Lib.MultiSearch

/-!
# The content patterns of a rule (`ids/matcher.rs`)

The matcher counts the patterns that one search from left to right finds, of which no two matches overlap
(`MultiSearch.scan`). `content_match_all` looks for each pattern on its own.

- `contentMatches_iff`: the content stage accepts if the search finds all patterns;
- `content_stage_iff`: for which patterns the two agree on every payload.
-/

namespace ThorFirewall.Ids

open Text Utf8 MultiSearch

/-- Returns true if all patterns are found in the haystack, but for letter case. -/
def contentMatchAll (lower : List Char → List Char) (haystack : List Char) (patterns : List (List Char)) : Bool :=
  if patterns = [] then true else patterns.all fun p => decide (lower p <:+: lower haystack)

/-- The text with ASCII letters in lower case. -/
def fold (s : List Char) : List Char := s.map Char.toLower

/-- An automaton that was built makes the leftmost-first search, without regard to the case of ASCII letters. -/
def LeftmostFirst (ahoCorasick : List (List Char) → Option (List Char → List ℕ)) : Prop :=
  ∀ patterns find, ahoCorasick patterns = some find → (∀ p ∈ patterns, p ≠ [] ∧ IsAscii p) →
    ∀ payload, IsAscii payload → find payload = scan (patterns.map fold) (fold payload)

/-- What a rule gives to the automaton, and what the automaton does with it. -/
structure Searched (ahoCorasick : List (List Char) → Option (List Char → List ℕ)) (rule : IdsRule) : Prop where
  leftmost : LeftmostFirst ahoCorasick
  built : rule.contentPatterns ≠ [] → (ahoCorasick rule.contentPatterns).isSome = true
  patterns : ∀ p ∈ rule.contentPatterns, p ≠ [] ∧ IsAscii p

theorem finds_all_iff_le {patterns : List (List Char)} {text : List Char} :
    patterns.length ≤ (scan patterns text).dedup.length ↔ FindsAll patterns text := by
  constructor
  · intro hle i hi
    refine mem_of_le_dedup (fun j hj => ?_) hle hi
    obtain ⟨p, hp, -⟩ := infix_of_mem_scanFrom hj
    exact (List.getElem?_eq_some_iff.1 hp).1
  · intro hall
    have hsub : (List.range patterns.length).Subperm (scan patterns text).dedup :=
      List.nodup_range.subperm fun i hi => List.mem_dedup.2 (hall i (List.mem_range.1 hi))
    have hle := hsub.length_le
    rwa [List.length_range] at hle

variable {ahoCorasick : List (List Char) → Option (List Char → List ℕ)} {rule : IdsRule} {payload : List Char}

/-- **The content stage accepts** if the search finds all patterns. -/
theorem contentMatches_iff (h : Searched ahoCorasick rule) (regex : List Char → Option (List Char → Bool))
    (hpayload : IsAscii payload) : (IdsMatcher.compile regex ahoCorasick rule).contentMatches payload = true ↔
      FindsAll (rule.contentPatterns.map fold) (fold payload) := by
  rw [← finds_all_iff_le, List.length_map]
  unfold IdsMatcher.contentMatches IdsMatcher.compile
  dsimp only
  by_cases hnil : rule.contentPatterns = []
  · rw [hnil]
    exact iff_of_true rfl (Nat.zero_le _)
  · obtain ⟨find, hfind⟩ := Option.isSome_iff_exists.1 (h.built hnil)
    rw [if_pos (List.length_pos_of_ne_nil hnil), if_pos hnil, hfind]
    simp only [decide_eq_true_eq]
    rw [h.leftmost _ _ hfind h.patterns payload hpayload]

theorem contentMatchAll_iff {lower : List Char → List Char} (hlower : IsLowercase lower)
    (hpatterns : ∀ p ∈ rule.contentPatterns, p ≠ [] ∧ IsAscii p) (hpayload : IsAscii payload) :
    contentMatchAll lower payload rule.contentPatterns = true ↔
      ∀ p ∈ rule.contentPatterns.map fold, p <:+: fold payload := by
  unfold contentMatchAll
  split_ifs with hnil
  · rw [hnil]
    exact iff_of_true rfl fun p hp => by cases hp
  · rw [List.all_eq_true, List.forall_mem_map]
    refine forall₂_congr fun p hp => ?_
    rw [decide_eq_true_eq, hlower p (hpatterns p hp).2, hlower payload hpayload]
    rfl

/-- **The content stage agrees with `content_match_all`**, on every payload, if and only if no two patterns can
overlap. -/
theorem content_stage_iff (h : Searched ahoCorasick rule) (regex : List Char → Option (List Char → Bool))
    {lower : List Char → List Char} (hlower : IsLowercase lower) :
    (∀ payload, IsAscii payload → (IdsMatcher.compile regex ahoCorasick rule).contentMatches payload =
      contentMatchAll lower payload rule.contentPatterns) ↔
    rule.contentPatterns.Pairwise fun p q => ¬ Overlaps (fold p) (fold q) := by
  have hne : ∀ p ∈ rule.contentPatterns.map fold, p ≠ [] := by
    rw [List.forall_mem_map]
    exact fun p hp hnil => (h.patterns p hp).1 (List.map_eq_nil_iff.1 hnil)
  rw [← List.pairwise_map (f := fold) (R := fun p q => ¬ Overlaps p q)]
  constructor
  · intro hagree
    by_contra hoverlap
    obtain ⟨text, hchars, hall, hmissed⟩ := exists_missed hne hoverlap
    have hfrom : ∀ c ∈ text, ∃ p ∈ rule.contentPatterns, c ∈ fold p := by
      intro c hc
      obtain ⟨q, hq, hmem⟩ := hchars c hc
      obtain ⟨p, hp, rfl⟩ := List.mem_map.1 hq
      exact ⟨p, hp, hmem⟩
    have hfolded : fold text = text := by
      refine (List.map_congr_left fun c hc => ?_).trans (List.map_id text)
      obtain ⟨p, -, hmem⟩ := hfrom c hc
      obtain ⟨d, -, rfl⟩ := List.mem_map.1 hmem
      exact Char.toLower_toLower_eq_toLower d
    have hascii : IsAscii text := by
      intro c hc
      obtain ⟨p, hp, hmem⟩ := hfrom c hc
      exact isAscii_toLower (h.patterns p hp).2 c hmem
    have hstage := (contentMatches_iff h regex hascii).not.2 (hfolded.symm ▸ hmissed)
    rw [hagree text hascii] at hstage
    exact hstage ((contentMatchAll_iff hlower h.patterns hascii).2 (hfolded.symm ▸ hall))
  · intro hapart payload hpayload
    rw [Bool.eq_iff_iff, contentMatches_iff h regex hpayload, contentMatchAll_iff hlower h.patterns hpayload]
    constructor
    · intro hall p hp
      obtain ⟨i, hi, rfl⟩ := List.mem_iff_getElem.1 hp
      obtain ⟨q, hq, hinfix⟩ := infix_of_mem_scanFrom (hall i hi)
      rw [List.getElem?_eq_getElem hi, Option.some.injEq] at hq
      exact hq ▸ hinfix
    · exact (finds_all_iff hne).2 hapart _

/-- An automaton of this kind. -/
def scanAutomaton (patterns : List (List Char)) : Option (List Char → List ℕ) :=
  some fun payload => scan (patterns.map fold) (fold payload)

theorem searched_scanAutomaton {rule : IdsRule} (h : ∀ p ∈ rule.contentPatterns, p ≠ [] ∧ IsAscii p) :
    Searched scanAutomaton rule where
  leftmost patterns find hfind _ payload _ := by
    obtain rfl := Option.some.inj hfind
    rfl
  built _ := rfl
  patterns := h

/-- A rule for some contents. -/
def contentRule (contents : List String) : IdsRule where
  action := .alert
  protocol := .tcp
  srcAddr := "any".toList
  srcPort := "any".toList
  direction := "->".toList
  dstAddr := "any".toList
  dstPort := "80".toList
  msg := "".toList
  sid := 1
  rev := 1
  priority := 3
  classtype := none
  options := []
  contentPatterns := contents.map String.toList
  pcrePatterns := []
  flow := none
  metadata := []

theorem content_stage_sample :
    (∀ payload, IsAscii payload → (IdsMatcher.compile (fun _ => none) scanAutomaton
      (contentRule ["union", "select"])).contentMatches payload =
        contentMatchAll fold payload (contentRule ["union", "select"]).contentPatterns) ↔
    (contentRule ["union", "select"]).contentPatterns.Pairwise fun p q => ¬ Overlaps (fold p) (fold q) :=
  content_stage_iff (searched_scanAutomaton (by decide)) _ fun _ _ => rfl

/-- A pattern within another one is not found. -/
theorem inner_pattern_missed : ¬ ∀ (rule : IdsRule), Searched scanAutomaton rule → ∀ payload, IsAscii payload →
    (IdsMatcher.compile (fun _ => none) scanAutomaton rule).contentMatches payload =
      contentMatchAll fold payload rule.contentPatterns := by
  intro h
  have hagree := h (contentRule ["union select", "select"]) (searched_scanAutomaton (by decide))
    "union select".toList (by decide)
  exact absurd hagree (by decide)

end ThorFirewall.Ids
