import Mathlib.Data.List.GetD
import Mathlib.Data.List.MinMax
import Mathlib.Data.List.Infix

/-!
# The search that takes the match that ends first

A search for several patterns that goes over a text once: where a pattern ends it takes the longest one that ends there,
and goes on behind it. `Cut` says what this does to the text: it is cut behind the first place where a pattern ends, and
what is left is cut again.

- `exists_cut`, `Cut.unique`: a text has one cut;
- `scan_eq`: the patterns taken are those that the pieces end with (`mem_scan_iff` if no pattern ends with another).
-/

namespace EarliestSearch

variable {α : Type*} {patterns : List (List α)} {text seen : List α}

/-! ## Cuts -/

/-- A pattern ends where the text ends. -/
def Ends (patterns : List (List α)) (text : List α) : Prop := ∃ p ∈ patterns, p <:+ text

/-- A pattern ends where the piece ends, and none ends in it earlier. -/
def EndsFirst (patterns : List (List α)) (piece : List α) : Prop :=
  Ends patterns piece ∧ ∀ front, front <+: piece → front ≠ piece → ¬ Ends patterns front

/-- The pieces of the text, each up to the first place where a pattern ends. No pattern ends in what remains. -/
inductive Cut (patterns : List (List α)) : List α → List (List α) → Prop
  | rest {text : List α} (h : ∀ front, front <+: text → ¬ Ends patterns front) : Cut patterns text []
  | piece {piece text : List α} {pieces : List (List α)} (hne : piece ≠ []) (hpiece : EndsFirst patterns piece)
      (h : Cut patterns text pieces) : Cut patterns (piece ++ text) (piece :: pieces)

/-- A text has only one first piece. -/
theorem EndsFirst.unique {piece piece' : List α} (h : EndsFirst patterns piece) (h' : EndsFirst patterns piece')
    (hpiece : piece <+: text) (hpiece' : piece' <+: text) : piece = piece' := by
  by_contra hne
  rcases List.prefix_or_prefix_of_prefix hpiece hpiece' with hle | hle
  · exact h'.2 piece hle hne h.1
  · exact h.2 piece' hle (Ne.symm hne) h'.1

/-- **A text has at most one cut.** -/
theorem Cut.unique {pieces pieces' : List (List α)} (h : Cut patterns text pieces) (h' : Cut patterns text pieces') :
    pieces = pieces' := by
  induction h generalizing pieces' with
  | rest hrest =>
    cases h' with
    | rest => rfl
    | piece _ hpiece => exact absurd hpiece.1 (hrest _ (List.prefix_append _ _))
  | @piece piece text pieces hne hpiece _ ih =>
    generalize htext : piece ++ text = whole at h'
    cases h' with
    | rest hrest => exact absurd hpiece.1 (hrest _ ⟨text, htext⟩)
    | @piece piece' text' pieces' _ hpiece' hcut =>
      obtain rfl := hpiece.unique hpiece' ⟨text, htext⟩ (List.prefix_append _ _)
      rw [ih (List.append_cancel_left htext ▸ hcut)]

theorem not_ends_nil (hne : ∀ p ∈ patterns, p ≠ []) {front : List α} (h : front <+: []) : ¬ Ends patterns front := by
  rintro ⟨p, hp, hsuffix⟩
  rw [List.prefix_nil.1 h] at hsuffix
  exact hne p hp (List.suffix_nil.1 hsuffix)

/-- A text has a cut, when nothing ends in what has been read of it. -/
theorem exists_cut_from (hne : ∀ p ∈ patterns, p ≠ []) (hseen : ∀ front, front <+: seen → ¬ Ends patterns front)
    (text : List α) : ∃ pieces, Cut patterns (seen ++ text) pieces := by
  induction text generalizing seen with
  | nil => exact ⟨[], .rest (by rwa [List.append_nil])⟩
  | cons a text ih =>
    have hfront {front : List α} (h : front <+: seen ++ [a]) : front = seen ++ [a] ∨ front <+: seen :=
      List.prefix_concat_iff.1 h
    by_cases hends : Ends patterns (seen ++ [a])
    · obtain ⟨pieces, hcut⟩ := ih fun front => not_ends_nil hne
      have hpiece : EndsFirst patterns (seen ++ [a]) :=
        ⟨hends, fun front h hshorter => hseen front ((hfront h).resolve_left hshorter)⟩
      refine ⟨(seen ++ [a]) :: pieces, ?_⟩
      have hwhole := Cut.piece (List.concat_ne_nil a seen) hpiece hcut
      rwa [List.append_assoc] at hwhole
    · obtain ⟨pieces, hcut⟩ := @ih (seen ++ [a]) fun front h => by
        rcases hfront h with rfl | h
        · exact hends
        · exact hseen front h
      refine ⟨pieces, ?_⟩
      rwa [List.append_assoc] at hcut

/-- **A text has a cut**, if no pattern is empty. -/
theorem exists_cut (hne : ∀ p ∈ patterns, p ≠ []) (text : List α) : ∃ pieces, Cut patterns text pieces :=
  exists_cut_from hne (fun _ => not_ends_nil hne) text

/-- **Where a pattern is, a piece ends** with it, or with another pattern that ends within it. -/
theorem Cut.ends_within {pieces : List (List α)} {p x y : List α} (h : Cut patterns text pieces)
    (htext : text = x ++ (p ++ y)) (hp : p ∈ patterns) :
    ∃ piece ∈ pieces, ∃ q ∈ patterns, q <:+ piece ∧ ∃ p', p' <+: p ∧ p' ≠ [] ∧ q <:+ x ++ p' := by
  induction h generalizing x with
  | rest hrest =>
    have hfront : x ++ p <+: x ++ (p ++ y) := ⟨y, List.append_assoc x p y⟩
    exact absurd ⟨p, hp, List.suffix_append x p⟩ (hrest _ (htext ▸ hfront))
  | @piece piece text pieces hne hpiece _ ih =>
    rcases List.append_eq_append_iff.1 htext with ⟨z, rfl, hz⟩ | ⟨u, rfl, hu⟩
    · obtain ⟨piece', hmem, q, hq, hends, p', hp', hne', hwithin⟩ := ih hz
      refine ⟨piece', List.mem_cons_of_mem _ hmem, q, hq, hends, p', hp', hne', ?_⟩
      rw [List.append_assoc]
      exact hwithin.trans (List.suffix_append _ _)
    · by_cases hnil : u = []
      · obtain ⟨piece', hmem, q, hq, hends, p', hp', hne', hwithin⟩ := @ih [] (by rw [hnil] at hu; exact hu.symm)
        exact ⟨piece', List.mem_cons_of_mem _ hmem, q, hq, hends, p', hp', hne', hwithin.trans
          (List.suffix_append_of_suffix (List.suffix_refl _))⟩
      · have hprefix : u <+: p := by
          rcases List.append_eq_append_iff.1 hu with ⟨z, rfl, -⟩ | ⟨z, rfl, -⟩
          · -- a pattern that ends earlier would end the piece
            by_cases hz : z = []
            · rw [hz, List.append_nil]
            · have hshorter : x ++ p ≠ x ++ (p ++ z) := fun heq => hz (by simpa using heq)
              exact absurd ⟨p, hp, List.suffix_append x p⟩ (hpiece.2 (x ++ p) ⟨z, List.append_assoc x p z⟩ hshorter)
          · exact List.prefix_append u z
        obtain ⟨q, hq, hends⟩ := hpiece.1
        exact ⟨_, List.mem_cons_self, q, hq, hends, u, hprefix, hnil, hends⟩

/-! ## The search -/

variable [DecidableEq α]

/-- The position in the list of the longest pattern that ends here, of the first one if it is there twice. -/
def ending (patterns : List (List α)) (seen : List α) : Option ℕ :=
  ((List.range patterns.length).filter fun i => (patterns.getD i []).isSuffixOf seen).argmax
    fun i => (patterns.getD i []).length

/-- The patterns taken in the text, when `seen` has been read since the last one. -/
def scanFrom (patterns : List (List α)) : List α → List α → List ℕ
  | _, [] => []
  | seen, a :: text =>
    match ending patterns (seen ++ [a]) with
    | some i => i :: scanFrom patterns [] text
    | none => scanFrom patterns (seen ++ [a]) text

def scan (patterns : List (List α)) (text : List α) : List ℕ := scanFrom patterns [] text

theorem mem_ending {i : ℕ} (h : ending patterns seen = some i) : i < patterns.length ∧ patterns.getD i [] <:+ seen := by
  have hmem := List.argmax_mem (Option.mem_def.2 h)
  rwa [List.mem_filter, List.mem_range, List.isSuffixOf_iff_suffix] at hmem

theorem ending_eq_none_iff : ending patterns seen = none ↔ ¬ Ends patterns seen := by
  rw [ending, List.argmax_eq_none, List.filter_eq_nil_iff]
  simp only [List.mem_range, List.isSuffixOf_iff_suffix]
  constructor
  · rintro h ⟨p, hp, hends⟩
    obtain ⟨i, hi, rfl⟩ := List.mem_iff_getElem.1 hp
    exact h i hi (by rwa [List.getD_eq_getElem _ _ hi])
  · intro h i hi hends
    exact h ⟨_, List.getElem_mem hi, by rwa [List.getD_eq_getElem _ _ hi] at hends⟩

/-- Before the end of a piece nothing is taken. -/
theorem scanFrom_front {front : List α} (h : ∀ u, u <+: front → u ≠ [] → ¬ Ends patterns (seen ++ u)) (text : List α) :
    scanFrom patterns seen (front ++ text) = scanFrom patterns (seen ++ front) text := by
  induction front generalizing seen with
  | nil => rw [List.nil_append, List.append_nil]
  | cons a front ih =>
    have hfirst := h [a] ((List.prefix_cons_inj a).2 List.nil_prefix) (List.cons_ne_nil _ _)
    rw [List.cons_append, scanFrom, ending_eq_none_iff.2 hfirst]
    dsimp only
    rw [ih fun u hu _ => ?_, List.append_assoc]
    · rfl
    · rw [List.append_assoc]
      exact h (a :: u) ((List.prefix_cons_inj a).2 hu) (List.cons_ne_nil _ _)

/-- What is taken at the end of a piece. -/
theorem scanFrom_piece {piece : List α} (hne : piece ≠ []) (h : EndsFirst patterns piece) (text : List α) :
    scanFrom patterns [] (piece ++ text) = (ending patterns piece).toList ++ scanFrom patterns [] text := by
  obtain ⟨front, a, rfl⟩ : ∃ front a, piece = front ++ [a] :=
    ⟨_, _, (List.dropLast_append_getLast hne).symm⟩
  have hfront : ∀ u, u <+: front → u ≠ [] → ¬ Ends patterns ([] ++ u) := fun u hu _ => by
    refine h.2 u (hu.trans (List.prefix_append _ _)) fun heq => ?_
    have hle := hu.length_le
    rw [heq, List.length_append, List.length_singleton] at hle
    omega
  have hends : ending patterns (front ++ [a]) ≠ none := fun hnone => ending_eq_none_iff.1 hnone h.1
  obtain ⟨i, hi⟩ := Option.ne_none_iff_exists'.1 hends
  rw [List.append_assoc, scanFrom_front hfront, List.nil_append, List.singleton_append, scanFrom, hi]
  rfl

/-- **The patterns taken** are those that the pieces of the text end with. -/
theorem scan_eq {pieces : List (List α)} (h : Cut patterns text pieces) :
    scan patterns text = pieces.flatMap fun piece => (ending patterns piece).toList := by
  unfold scan
  induction h with
  | @rest text hrest =>
    have hnone := @scanFrom_front _ patterns [] _ text (fun u hu _ => hrest u hu) []
    rwa [List.append_nil] at hnone
  | piece hne hpiece _ ih => rw [scanFrom_piece hne hpiece, ih, List.flatMap_cons]

/-- What is taken, if no pattern ends with another one. -/
theorem ending_eq_some_iff (hapart : patterns.Pairwise fun p q => ¬ p <:+ q ∧ ¬ q <:+ p) {i : ℕ} {p : List α}
    (hp : patterns[i]? = some p) : ending patterns seen = some i ↔ p <:+ seen := by
  obtain ⟨hi, rfl⟩ := List.getElem?_eq_some_iff.1 hp
  constructor
  · intro h
    have hends := (mem_ending h).2
    rwa [List.getD_eq_getElem _ _ hi] at hends
  · intro h
    have hsome : ending patterns seen ≠ none := fun hnone => ending_eq_none_iff.1 hnone ⟨_, List.getElem_mem hi, h⟩
    obtain ⟨j, hj⟩ := Option.ne_none_iff_exists'.1 hsome
    obtain ⟨hlt, hends⟩ := mem_ending hj
    rw [List.getD_eq_getElem _ _ hlt] at hends
    rcases Nat.lt_trichotomy i j with hij | rfl | hij
    · have hnot := List.pairwise_iff_getElem.1 hapart i j hi hlt hij
      exact absurd (List.suffix_or_suffix_of_suffix h hends) (not_or.2 hnot)
    · exact hj
    · have hnot := List.pairwise_iff_getElem.1 hapart j i hlt hi hij
      exact absurd (List.suffix_or_suffix_of_suffix hends h) (not_or.2 hnot)

theorem mem_scan_iff (hapart : patterns.Pairwise fun p q => ¬ p <:+ q ∧ ¬ q <:+ p) {pieces : List (List α)}
    (h : Cut patterns text pieces) {i : ℕ} {p : List α} (hp : patterns[i]? = some p) :
    i ∈ scan patterns text ↔ ∃ piece ∈ pieces, p <:+ piece := by
  simp only [scan_eq h, List.mem_flatMap, Option.mem_toList, ending_eq_some_iff hapart hp]

end EarliestSearch
