import Mathlib

/-!
# An index from keys to positions

A list is indexed by a key of its elements: the bucket of a key has the positions of the elements with that key.
`push` adds a position to a bucket. An index that grows with its list stays one (`Indexes.push`), every position is in
one bucket, once (`Indexes.existsUnique`, `Indexes.nodup`), and going through buckets of distinct keys is going through
the list (`Indexes.filterMap_bucket`, `filterMap_append_perm`).
-/

namespace BucketIndex

open Std

variable {α β κ : Type*} {cmp : κ → κ → Ordering}

/-- The positions under a key. -/
def bucket (t : TreeMap κ (List ℕ) cmp) (k : κ) : List ℕ := t[k]?.getD []

/-- One more position under a key. -/
def push (t : TreeMap κ (List ℕ) cmp) (k : κ) (i : ℕ) : TreeMap κ (List ℕ) cmp := t.insert k (bucket t k ++ [i])

variable [DecidableEq κ] {key : α → κ} {l : List α} {t : TreeMap κ (List ℕ) cmp} {k : κ} {i : ℕ}

/-- The positions of the elements with a key, in order. -/
def positions (key : α → κ) (k : κ) (l : List α) : List ℕ :=
  (List.range l.length).filter fun i => l[i]?.map key = some k

theorem positions_concat (key : α → κ) (k : κ) (l : List α) (a : α) :
    positions key k (l ++ [a]) = positions key k l ++ if key a = k then [l.length] else [] := by
  have hold : ∀ i ∈ List.range l.length, decide ((l ++ [a])[i]?.map key = some k) = decide (l[i]?.map key = some k) := by
    intro i hi
    rw [List.getElem?_append_left (List.mem_range.1 hi)]
  rw [positions, List.length_append, List.length_singleton, List.range_succ, List.filter_append,
    List.filter_congr hold, positions]
  congr 1
  by_cases h : key a = k <;> simp [h]

theorem mem_positions : i ∈ positions key k l ↔ ∃ a, l[i]? = some a ∧ key a = k := by
  simp only [positions, List.mem_filter, List.mem_range, decide_eq_true_eq, Option.map_eq_some_iff]
  refine and_iff_right_of_imp ?_
  rintro ⟨a, ha, -⟩
  exact (List.getElem?_eq_some_iff.1 ha).1

theorem nodup_positions (key : α → κ) (k : κ) (l : List α) : (positions key k l).Nodup := List.nodup_range.filter _

/-- Going through the positions is going through the elements. -/
theorem filterMap_positions (key : α → κ) (k : κ) (l : List α) (f : α → Option β) :
    (positions key k l).filterMap (fun i => l[i]?.bind f) = l.filterMap fun a => if key a = k then f a else none := by
  induction l using List.reverseRecOn with
  | nil => rfl
  | append_singleton l a ih =>
    have hold : ∀ i ∈ positions key k l, (l ++ [a])[i]?.bind f = l[i]?.bind f := by
      intro i hi
      obtain ⟨b, hb, -⟩ := mem_positions.1 hi
      rw [List.getElem?_append_left (List.getElem?_eq_some_iff.1 hb).1]
    rw [positions_concat, List.filterMap_append, List.filterMap_congr hold, ih, List.filterMap_append]
    congr 1
    by_cases h : key a = k <;> simp [h, List.filterMap_cons]

/-- Two passes that have no element in common are one. -/
theorem filterMap_append_perm (p q : α → Prop) [DecidablePred p] [DecidablePred q] (hdisj : ∀ a, p a → ¬ q a)
    (f : α → Option β) (l : List α) :
    ((l.filterMap fun a => if p a then f a else none) ++ l.filterMap fun a => if q a then f a else none).Perm
      (l.filterMap fun a => if p a ∨ q a then f a else none) := by
  induction l with
  | nil => exact List.Perm.refl _
  | cons a l ih =>
    simp only [List.filterMap_cons]
    by_cases hp : p a
    · have hq : ¬ q a := hdisj a hp
      cases f a <;> simpa [hp, hq] using ih
    · by_cases hq : q a
      · cases f a with
        | none => simpa [hp, hq] using ih
        | some b => simpa [hp, hq] using List.perm_middle.trans (ih.cons b)
      · simpa [hp, hq] using ih

/-- The buckets have the positions of their keys. -/
def Indexes (key : α → κ) (l : List α) (t : TreeMap κ (List ℕ) cmp) : Prop := ∀ k, bucket t k = positions key k l

variable [TransCmp cmp]

theorem indexes_nil : Indexes key [] (∅ : TreeMap κ (List ℕ) cmp) := by
  intro k
  rw [bucket, TreeMap.getElem?_emptyc]
  rfl

theorem Indexes.push [LawfulEqCmp cmp] (h : Indexes key l t) (a : α) :
    Indexes key (l ++ [a]) (push t (key a) l.length) := by
  intro k
  rw [positions_concat, BucketIndex.push, bucket, TreeMap.getElem?_insert]
  by_cases hk : key a = k
  · subst hk
    rw [if_pos ReflCmp.compare_self, if_pos rfl, Option.getD_some, h]
  · rw [if_neg fun hc => hk (LawfulEqCmp.eq_of_compare hc), if_neg hk, List.append_nil]
    exact h k

omit [TransCmp cmp]

theorem Indexes.mem_bucket (h : Indexes key l t) : i ∈ bucket t k ↔ ∃ a, l[i]? = some a ∧ key a = k := by
  rw [h k, mem_positions]

theorem Indexes.nodup_bucket (h : Indexes key l t) (k : κ) : (bucket t k).Nodup := by
  rw [h k]
  exact nodup_positions key k l

theorem Indexes.existsUnique (h : Indexes key l t) (hi : i < l.length) : ∃! k, i ∈ bucket t k := by
  refine ⟨key l[i], h.mem_bucket.2 ⟨l[i], List.getElem?_eq_getElem hi, rfl⟩, fun k hk => ?_⟩
  obtain ⟨a, ha, rfl⟩ := h.mem_bucket.1 hk
  obtain ⟨_, rfl⟩ := List.getElem?_eq_some_iff.1 ha
  rfl

theorem Indexes.filterMap_bucket (h : Indexes key l t) (k : κ) (f : α → Option β) :
    (bucket t k).filterMap (fun i => l[i]?.bind f) = l.filterMap fun a => if key a = k then f a else none := by
  rw [h k, filterMap_positions]

end BucketIndex
