import Mathlib

/-!
# Sorted maps and the contiguous run at their head

Facts about `Std.TreeMap` seen through its sorted entry list: removing the first entry leaves the tail
(`toList_erase_head`), a new key goes between the smaller and the larger ones (`toList_insert_of_notMem`), and inserting
changes a sum over the values, or a number of entries, by the new one less the replaced one (`sum_insert`,
`countP_insert`).

A value stored under `k` leads to the key `next k v`. `run next e es` is the longest prefix of the entry list `es` whose
entries follow one another from `e` on, `runEnd` the key behind it. The entries behind the run do not start at its end
(`head_ne_runEnd`), and the run is empty exactly when `es` does not start at `e`.
-/

namespace SortedMap

open Std

section Entries

variable {κ ν : Type*} {cmp : κ → κ → Ordering} {t : TreeMap κ ν cmp}

/-- The keys of the entry list are strictly increasing, so an entry is in the list once. -/
theorem nodup_toList [TransCmp cmp] : t.toList.Nodup := by
  refine TreeMap.ordered_keys_toList.imp fun {a b} h he => ?_
  subst he
  exact OrientedCmp.not_lt_of_lt h h

/-- A list in key order with the entries of a map is its entry list. -/
theorem toList_eq_of_mem [TransCmp cmp] {l : List (κ × ν)} (hl : l.Pairwise fun a b => cmp a.1 b.1 = .lt)
    (hmem : ∀ p, p ∈ t.toList ↔ p ∈ l) : t.toList = l := by
  have hnodup : l.Nodup := by
    refine hl.imp fun {a b} h he => ?_
    subst he
    exact OrientedCmp.not_lt_of_lt h h
  refine List.Perm.eq_of_pairwise ?_ TreeMap.ordered_keys_toList hl
    ((List.perm_ext_iff_of_nodup nodup_toList hnodup).2 hmem)
  intro a b _ _ hab hba
  exact False.elim (OrientedCmp.not_lt_of_lt hab hba)

variable [TransCmp cmp] [LawfulEqCmp cmp]

theorem mem_toList_insert {k k' : κ} {v v' : ν} :
    (k', v') ∈ (t.insert k v).toList ↔ k = k' ∧ v = v' ∨ k ≠ k' ∧ (k', v') ∈ t.toList := by
  rw [TreeMap.mem_toList_iff_getElem?_eq_some, TreeMap.getElem?_insert, TreeMap.mem_toList_iff_getElem?_eq_some]
  by_cases h : k = k'
  · subst h; simp
  · have hc : cmp k k' ≠ .eq := fun he => h (LawfulEqCmp.eq_of_compare he)
    simp [h, hc]

theorem mem_toList_erase {k k' : κ} {v' : ν} :
    (k', v') ∈ (t.erase k).toList ↔ k ≠ k' ∧ (k', v') ∈ t.toList := by
  rw [TreeMap.mem_toList_iff_getElem?_eq_some, TreeMap.getElem?_erase, TreeMap.mem_toList_iff_getElem?_eq_some]
  by_cases h : k = k'
  · subst h; simp
  · have hc : cmp k k' ≠ .eq := fun he => h (LawfulEqCmp.eq_of_compare he)
    simp [h, hc]

theorem mem_iff_mem_toList {k : κ} : k ∈ t ↔ ∃ v, (k, v) ∈ t.toList := by
  simp only [TreeMap.mem_toList_iff_getElem?_eq_some, TreeMap.mem_iff_isSome_getElem?, Option.isSome_iff_exists]

/-- Removing the first entry leaves the others in order. -/
theorem toList_erase_head {k : κ} {v : ν} {es : List (κ × ν)} (h : t.toList = (k, v) :: es) :
    (t.erase k).toList = es := by
  have hsorted := TreeMap.ordered_keys_toList (t := t)
  rw [h] at hsorted
  obtain ⟨hhead, htail⟩ := List.pairwise_cons.1 hsorted
  refine toList_eq_of_mem htail ?_
  rintro ⟨k', v'⟩
  rw [mem_toList_erase, h, List.mem_cons, Prod.mk.injEq]
  constructor
  · rintro ⟨hne, ⟨rfl, -⟩ | hm⟩
    · exact absurd rfl hne
    · exact hm
  · intro hm
    refine ⟨?_, Or.inr hm⟩
    rintro rfl
    have hlt := hhead _ hm
    exact OrientedCmp.not_lt_of_lt hlt hlt

/-- A new key goes between the smaller and the larger ones. -/
theorem toList_insert_of_notMem {k : κ} (v : ν) (hk : k ∉ t) : ∃ xs ys, t.toList = xs ++ ys ∧
    (t.insert k v).toList = xs ++ (k, v) :: ys ∧ (∀ p ∈ xs, cmp p.1 k = .lt) ∧ ∀ p ∈ ys, cmp k p.1 = .lt := by
  have hsorted := TreeMap.ordered_keys_toList (t := t)
  have hsplit : ∀ p ∈ t.toList, cmp p.1 k = .lt ∨ cmp k p.1 = .lt := by
    intro p hp
    cases hc : cmp p.1 k with
    | lt => exact Or.inl rfl
    | eq => exact absurd (mem_iff_mem_toList.2 ⟨p.2, LawfulEqCmp.eq_of_compare hc ▸ hp⟩) hk
    | gt => exact Or.inr (OrientedCmp.lt_of_gt hc)
  refine ⟨t.toList.filter fun p => cmp p.1 k = .lt, t.toList.filter fun p => cmp k p.1 = .lt, ?_, ?_, by simp, by simp⟩
  · refine toList_eq_of_mem (List.pairwise_append.2 ⟨hsorted.filter _, hsorted.filter _, ?_⟩) fun p => ?_
    · intro a ha b hb
      exact TransCmp.lt_trans (by simpa using (List.mem_filter.1 ha).2) (by simpa using (List.mem_filter.1 hb).2)
    · simp only [List.mem_append, List.mem_filter, decide_eq_true_eq]
      have := hsplit p
      tauto
  · refine toList_eq_of_mem (List.pairwise_append.2 ⟨hsorted.filter _, List.pairwise_cons.2 ⟨?_, hsorted.filter _⟩, ?_⟩)
      fun p => ?_
    · intro b hb
      simpa using (List.mem_filter.1 hb).2
    · intro a ha b hb
      have hak : cmp a.1 k = .lt := by simpa using (List.mem_filter.1 ha).2
      rcases List.mem_cons.1 hb with rfl | hb
      · exact hak
      · exact TransCmp.lt_trans hak (by simpa using (List.mem_filter.1 hb).2)
    · obtain ⟨k', v'⟩ := p
      have hmem : (k', v') ∈ t.toList → k ≠ k' := by
        rintro hp rfl
        exact hk (mem_iff_mem_toList.2 ⟨v', hp⟩)
      have hside := hsplit (k', v')
      simp only [mem_toList_insert, List.mem_append, List.mem_cons, List.mem_filter, decide_eq_true_eq, Prod.mk.injEq]
      grind

/-- An entry list is a permutation of one of its entries and the entries of the map without it. -/
theorem toList_perm_erase {t' : TreeMap κ ν cmp} {k : κ} {v : ν}
    (h : ∀ p, p ∈ t'.toList ↔ p = (k, v) ∨ p ∈ (t.erase k).toList) : t'.toList.Perm ((k, v) :: (t.erase k).toList) := by
  refine (List.perm_ext_iff_of_nodup nodup_toList (List.nodup_cons.2 ⟨?_, nodup_toList⟩)).2 ?_
  · rw [mem_toList_erase]
    exact fun hm => hm.1 rfl
  · intro p
    rw [h, List.mem_cons]

/-- Inserting puts an entry before the other ones, in another order. -/
theorem toList_insert_perm (k : κ) (v : ν) : (t.insert k v).toList.Perm ((k, v) :: (t.erase k).toList) := by
  refine toList_perm_erase fun ⟨k', v'⟩ => ?_
  rw [mem_toList_insert, mem_toList_erase, Prod.mk.injEq, eq_comm (a := k), eq_comm (a := v)]

/-- The entries are the one under a key, if there is one, and the other ones. -/
theorem toList_perm (t : TreeMap κ ν cmp) (k : κ) :
    t.toList.Perm ((t[k]?.map fun v => (k, v)).toList ++ (t.erase k).toList) := by
  cases hk : t[k]? with
  | none =>
    refine (List.perm_ext_iff_of_nodup nodup_toList nodup_toList).2 fun ⟨k', v'⟩ => ?_
    rw [mem_toList_erase, iff_comm, and_iff_right_iff_imp]
    rintro hm rfl
    rw [TreeMap.mem_toList_iff_getElem?_eq_some, hk] at hm
    cases hm
  | some v₀ =>
    refine toList_perm_erase fun ⟨k', v'⟩ => ?_
    rw [mem_toList_erase, Prod.mk.injEq]
    by_cases he : k' = k
    · subst he
      rw [TreeMap.mem_toList_iff_getElem?_eq_some, hk]
      simp [eq_comm]
    · simp [he, Ne.symm he]

/-- Inserting adds the new value to a sum over the values and takes out the one it replaces. -/
theorem sum_insert (f : ν → ℕ) (k : κ) (v : ν) :
    ((t.insert k v).toList.map (f ·.2)).sum + (t[k]?.map f).getD 0 = (t.toList.map (f ·.2)).sum + f v := by
  have hnew := ((toList_insert_perm (t := t) k v).map (f ·.2)).sum_eq
  have hold := ((toList_perm t k).map (f ·.2)).sum_eq
  rw [hnew, hold]
  cases t[k]? with
  | none => simp [Nat.add_comm]
  | some v₀ =>
    simp only [List.map_cons, List.sum_cons, Option.map_some, Option.getD_some, Option.toList_some, List.singleton_append]
    omega

/-- Inserting counts the new entry and takes out the one it replaces. -/
theorem countP_insert {p p' : κ × ν → Bool} {k : κ} (h : ∀ q, q.1 ≠ k → p' q = p q) (v : ν) :
    (t.insert k v).toList.countP p' + (if t[k]?.any fun v => p (k, v) then 1 else 0) =
      t.toList.countP p + if p' (k, v) then 1 else 0 := by
  have hrest : (t.erase k).toList.countP p' = (t.erase k).toList.countP p := by
    refine List.countP_congr fun q hq => ?_
    obtain ⟨hne, -⟩ := mem_toList_erase.1 (show (q.1, q.2) ∈ (t.erase k).toList from hq)
    rw [h q hne.symm]
  rw [(toList_insert_perm k v).countP_eq p', (toList_perm t k).countP_eq p, List.countP_cons, List.countP_append, hrest]
  cases t[k]? with
  | none => simp
  | some v₀ =>
    simp only [Option.any_some, Option.map_some, Option.toList_some, List.countP_singleton]
    omega

/-- One key gives one of the lists. -/
theorem flatMap_toList_key {α : Type*} (k : κ) [DecidableEq κ] (f : ν → List α) :
    (t.toList.flatMap fun p => if p.1 = k then f p.2 else []) = (t[k]?.map f).getD [] := by
  cases hk : t[k]? with
  | none =>
    refine List.flatMap_eq_nil_iff.2 fun p hp => if_neg ?_
    rintro rfl
    rw [TreeMap.mem_toList_iff_getElem?_eq_some.1 (show (p.1, p.2) ∈ t.toList from hp)] at hk
    cases hk
  | some v =>
    obtain ⟨xs, ys, hsplit⟩ := List.append_of_mem (TreeMap.mem_toList_iff_getElem?_eq_some.2 hk)
    have hsorted := TreeMap.ordered_keys_toList (t := t)
    rw [hsplit, List.pairwise_append, List.pairwise_cons] at hsorted
    obtain ⟨-, ⟨hys, -⟩, hxs⟩ := hsorted
    have hne : ∀ {a b : κ}, cmp a b = .lt → a ≠ b := by
      rintro a b hlt rfl
      exact OrientedCmp.not_lt_of_lt hlt hlt
    have hx : (xs.flatMap fun p => if p.1 = k then f p.2 else []) = [] :=
      List.flatMap_eq_nil_iff.2 fun p hp => if_neg (hne (hxs p hp _ List.mem_cons_self))
    have hy : (ys.flatMap fun p => if p.1 = k then f p.2 else []) = [] :=
      List.flatMap_eq_nil_iff.2 fun p hp => if_neg (hne (hys p hp)).symm
    rw [hsplit, List.flatMap_append, List.flatMap_cons, hx, hy, if_pos rfl, List.append_nil]
    rfl

end Entries

/-! ## The contiguous run -/

section Run

variable {κ ν : Type*} (next : κ → ν → κ)

/-- The longest prefix whose entries follow one another from the key `e` on. -/
def run [DecidableEq κ] : κ → List (κ × ν) → List (κ × ν)
  | _, [] => []
  | e, (k, v) :: es => if k = e then (k, v) :: run (next e v) es else []

/-- The key behind a run that starts at `e`. -/
def runEnd (e : κ) (r : List (κ × ν)) : κ := r.foldl (fun e p => next e p.2) e

variable {next}

@[simp] theorem runEnd_nil (e : κ) : runEnd next e [] = e := rfl

@[simp] theorem runEnd_cons (e : κ) (p : κ × ν) (r : List (κ × ν)) :
    runEnd next e (p :: r) = runEnd next (next e p.2) r := rfl

variable [DecidableEq κ]

theorem run_cons_self (e : κ) (v : ν) (es : List (κ × ν)) :
    run next e ((e, v) :: es) = (e, v) :: run next (next e v) es := by simp [run]

theorem run_cons_ne {e k : κ} (h : k ≠ e) (v : ν) (es : List (κ × ν)) : run next e ((k, v) :: es) = [] := by
  simp [run, h]

/-- The entry list is the run and the entries behind it. -/
theorem run_append_drop (e : κ) (es : List (κ × ν)) : run next e es ++ es.drop (run next e es).length = es := by
  induction es generalizing e with
  | nil => rfl
  | cons p es ih =>
    obtain ⟨k, v⟩ := p
    by_cases h : k = e
    · subst h
      rw [run_cons_self]
      simp [ih (next k v)]
    · simp [run_cons_ne h]

/-- The entries behind the run do not start at its end. -/
theorem head_ne_runEnd (e : κ) (es : List (κ × ν)) (p : κ × ν) (rest : List (κ × ν))
    (h : es.drop (run next e es).length = p :: rest) : p.1 ≠ runEnd next e (run next e es) := by
  induction es generalizing e with
  | nil => cases h
  | cons q es ih =>
    obtain ⟨k, v⟩ := q
    by_cases hk : k = e
    · subst hk
      rw [run_cons_self] at h ⊢
      exact ih (next k v) (by simpa using h)
    · rw [run_cons_ne hk] at h ⊢
      simp only [List.length_nil, List.drop_zero, List.cons.injEq] at h
      rw [← h.1]
      exact hk

/-- The entries of the run are entries of the list. -/
theorem run_subset (e : κ) (es : List (κ × ν)) : run next e es ⊆ es := by
  intro p hp
  have h : run next e es ++ _ = es := run_append_drop e es
  rw [← h]
  exact List.mem_append_left _ hp

variable (next) in
/-- **Translating keys and values translates the run**, when the translation of the keys is injective where it is used
and following an entry commutes with it. -/
theorem run_map {κ' ν' : Type*} [DecidableEq κ'] (next' : κ' → ν' → κ') {φ : κ → κ'} {ψ : ν → ν'} {P : κ → Prop}
    (hinj : ∀ a b, P a → P b → φ a = φ b → a = b) :
    ∀ (e : κ) (es : List (κ × ν)), P e →
      (∀ p ∈ es, P p.1 ∧ P (next p.1 p.2) ∧ next' (φ p.1) (ψ p.2) = φ (next p.1 p.2)) →
      run next' (φ e) (es.map (Prod.map φ ψ)) = (run next e es).map (Prod.map φ ψ) ∧
        runEnd next' (φ e) ((run next e es).map (Prod.map φ ψ)) = φ (runEnd next e (run next e es)) ∧
        P (runEnd next e (run next e es))
  | _, [], he, _ => ⟨rfl, rfl, he⟩
  | e, (k, v) :: es, he, h => by
    obtain ⟨hk, hn, hc⟩ := h (k, v) List.mem_cons_self
    by_cases hke : k = e
    · subst hke
      obtain ⟨h1, h2, h3⟩ := run_map next' hinj (next k v) es hn fun p hp => h p (List.mem_cons_of_mem _ hp)
      simp only [List.map_cons, Prod.map_apply, run_cons_self, runEnd_cons, hc]
      exact ⟨by rw [h1], h2, h3⟩
    · have hne : φ k ≠ φ e := fun hφ => hke (hinj k e hk he hφ)
      simp only [List.map_cons, Prod.map_apply, run_cons_ne hne, run_cons_ne hke]
      exact ⟨rfl, rfl, he⟩

end Run

/-! ## What the run leaves behind -/

section Reach

variable {κ ν : Type*}

/-- The keys reached from `e` by following stored entries. -/
inductive Reach (next : κ → ν → κ) (es : List (κ × ν)) (e : κ) : κ → Prop
  | refl : Reach next es e e
  | step {k : κ} {v : ν} (hk : Reach next es e k) (hm : (k, v) ∈ es) : Reach next es e (next k v)

variable {next : κ → ν → κ} {es : List (κ × ν)}

theorem Reach.trans {a b c : κ} (hab : Reach next es a b) (hbc : Reach next es b c) : Reach next es a c := by
  induction hbc with
  | refl => exact hab
  | step _ hm ih => exact .step ih hm

/-- Reaching another key takes a first entry. -/
theorem Reach.eq_or_mem {a x : κ} (h : Reach next es a x) : x = a ∨ ∃ v, (a, v) ∈ es := by
  induction h with
  | refl => exact Or.inl rfl
  | @step k v _ hm ih =>
    rcases ih with rfl | h
    · exact Or.inr ⟨v, hm⟩
    · exact Or.inr h

variable [DecidableEq κ]

/-- The keys of a run and its end are reached; following an entry of the run gives its end or another of its keys, and
leads to its end. -/
theorem run_reach : ∀ (l : List (κ × ν)) (e : κ), l ⊆ es →
    (∀ p ∈ run next e l, Reach next es e p.1) ∧ Reach next es e (runEnd next e (run next e l)) ∧
      ∀ p ∈ run next e l, Reach next es (next p.1 p.2) (runEnd next e (run next e l)) ∧
        (next p.1 p.2 = runEnd next e (run next e l) ∨ ∃ q ∈ run next e l, q.1 = next p.1 p.2)
  | [], e, _ => ⟨by simp [run], .refl, by simp [run]⟩
  | (k, v) :: l, e, hl => by
    by_cases hk : k = e
    · subst hk
      obtain ⟨h1, h2, h3⟩ := run_reach l (next k v) fun p hp => hl (List.mem_cons_of_mem _ hp)
      have hstep : Reach next es k (next k v) := .step .refl (hl List.mem_cons_self)
      rw [run_cons_self, runEnd_cons]
      refine ⟨?_, hstep.trans h2, ?_⟩
      · rintro p (_ | ⟨_, hp⟩)
        · exact .refl
        · exact hstep.trans (h1 p hp)
      · rintro p (_ | ⟨_, hp⟩)
        · -- the run goes on behind its first entry, or ends there
          refine ⟨h2, ?_⟩
          cases hr : run next (next k v) l with
          | nil => exact Or.inl rfl
          | cons q r =>
            refine Or.inr ⟨q, by simp, ?_⟩
            cases l with
            | nil => simp [run] at hr
            | cons q' l =>
              obtain ⟨k', v'⟩ := q'
              by_cases hk' : k' = next k v
              · subst hk'
                rw [run_cons_self] at hr
                rw [← (List.cons.inj hr).1]
              · rw [run_cons_ne hk'] at hr
                cases hr
        · obtain ⟨hr, h | ⟨q, hq, he⟩⟩ := h3 p hp
          · exact ⟨hr, Or.inl h⟩
          · exact ⟨hr, Or.inr ⟨q, List.mem_cons_of_mem _ hq, he⟩⟩
    · rw [run_cons_ne hk]
      exact ⟨by simp, .refl, by simp⟩

/-- Entries in increasing order of their keys, each leading to a larger key. -/
structure Ascending [Preorder κ] (next : κ → ν → κ) (es : List (κ × ν)) : Prop where
  sorted : es.Pairwise fun a b => a.1 < b.1
  lt_next : ∀ p ∈ es, p.1 < next p.1 p.2

variable [Preorder κ] {e : κ}

omit [DecidableEq κ] in
theorem Ascending.unique (h : Ascending next es) {p q : κ × ν} (hp : p ∈ es) (hq : q ∈ es) (hk : p.1 = q.1) :
    p = q := by
  have hR : es.Pairwise fun a b => a.1 ≠ b.1 := h.sorted.imp fun hab => hab.ne
  have : Std.Symm fun a b : κ × ν => a.1 ≠ b.1 := ⟨fun _ _ hab => hab.symm⟩
  by_contra hne
  exact hR.forall hp hq hne hk

omit [DecidableEq κ] in
theorem Ascending.le_of_reach (h : Ascending next es) {a x : κ} (hx : Reach next es a x) : a ≤ x := by
  induction hx with
  | refl => exact le_rfl
  | step _ hm ih => exact ih.trans (h.lt_next _ hm).le

/-- The keys of the run lie before its end. -/
theorem Ascending.lt_runEnd (h : Ascending next es) {p : κ × ν} (hp : p ∈ run next e es) :
    p.1 < runEnd next e (run next e es) :=
  (h.lt_next p (run_subset e es hp)).trans_le
    (h.le_of_reach ((run_reach es e (List.Subset.refl es)).2.2 p hp).1)

/-- The entries behind the run come after it. -/
theorem Ascending.run_lt_rest (h : Ascending next es) {p q : κ × ν} (hp : p ∈ run next e es)
    (hq : q ∈ es.drop (run next e es).length) : p.1 < q.1 := by
  have hs := h.sorted
  rw [← (run_append_drop e es : run next e es ++ _ = es)] at hs
  exact (List.pairwise_append.1 hs).2.2 p hp q hq

/-- What is reached is a key of the run or reached from its end. -/
theorem Ascending.reach_run (h : Ascending next es) {x : κ} (hx : Reach next es e x) :
    (∃ p ∈ run next e es, p.1 = x) ∨ Reach next es (runEnd next e (run next e es)) x := by
  obtain ⟨-, -, hnext⟩ := @run_reach _ _ next es _ es e (List.Subset.refl es)
  induction hx with
  | refl =>
    cases hes : run next e es with
    | nil => exact Or.inr .refl
    | cons p r =>
      refine Or.inl ⟨p, by simp, ?_⟩
      cases es with
      | nil => simp [run] at hes
      | cons q l =>
        obtain ⟨k, v⟩ := q
        by_cases hk : k = e
        · subst hk
          rw [run_cons_self] at hes
          rw [← (List.cons.inj hes).1]
        · rw [run_cons_ne hk] at hes
          cases hes
  | @step k v _ hm ih =>
    rcases ih with ⟨⟨k', v'⟩, hp, rfl⟩ | hr
    · obtain rfl : v' = v := (Prod.ext_iff.1 (h.unique (run_subset e es hp) hm rfl)).2
      rcases (hnext _ hp).2 with hend | ⟨q, hq, hk⟩
      · exact Or.inr (hend ▸ .refl)
      · exact Or.inl ⟨q, hq, hk⟩
    · exact Or.inr (.step hr hm)

/-- **When the run stops at a stored key**: exactly when some reached stored key has a smaller stored key that is not
reached. -/
theorem Ascending.runEnd_stored_iff (h : Ascending next es) :
    (∃ v, (runEnd next e (run next e es), v) ∈ es) ↔
      ∃ p ∈ es, ∃ q ∈ es, Reach next es e p.1 ∧ q.1 < p.1 ∧ ¬ Reach next es e q.1 := by
  obtain ⟨hkeys, hend, -⟩ := @run_reach _ _ next es _ es e (List.Subset.refl es)
  have hsplit : run next e es ++ es.drop (run next e es).length = es := run_append_drop e es
  constructor
  · rintro ⟨v, hv⟩
    -- the stored key lies behind the run, and what heads the rest is smaller and not reached
    have hrest : (runEnd next e (run next e es), v) ∈ es.drop (run next e es).length := by
      have hmem : (runEnd next e (run next e es), v) ∈ run next e es ++ es.drop (run next e es).length :=
        hsplit.symm ▸ hv
      exact (List.mem_append.1 hmem).resolve_left fun hr => lt_irrefl _ (h.lt_runEnd hr)
    cases hd : es.drop (run next e es).length with
    | nil => rw [hd] at hrest; cases hrest
    | cons q rest =>
      have hne := head_ne_runEnd e es q rest hd
      have hqmem : q ∈ es.drop (run next e es).length := by rw [hd]; exact List.mem_cons_self
      have hlt : q.1 < runEnd next e (run next e es) := by
        have hs := h.sorted.sublist (List.drop_sublist (run next e es).length es)
        rw [hd] at hs hrest
        rcases List.mem_cons.1 hrest with hq | hq
        · exact absurd (congrArg Prod.fst hq).symm hne
        · exact (List.pairwise_cons.1 hs).1 _ hq
      refine ⟨_, hv, q, List.mem_of_mem_drop hqmem, hend, hlt, fun hq => ?_⟩
      rcases h.reach_run hq with ⟨p, hp, hpq⟩ | hr
      · exact lt_irrefl _ (hpq ▸ h.run_lt_rest hp hqmem)
      · exact lt_irrefl _ (hlt.trans_le (h.le_of_reach hr))
  · rintro ⟨p, hp, q, hq, hpr, hlt, hqr⟩
    rcases h.reach_run hpr with ⟨p', hp', hpp'⟩ | hr
    · obtain rfl : p' = p := h.unique (run_subset e es hp') hp hpp'
      rw [← hsplit] at hq
      rcases List.mem_append.1 hq with hq | hq
      · exact absurd (hkeys q hq) hqr
      · exact absurd (hlt.trans (h.run_lt_rest hp' hq)) (lt_irrefl _)
    · rcases hr.eq_or_mem with he | hm
      · exact ⟨p.2, he ▸ hp⟩
      · exact hm

/-- Where the run does not stop at a stored key, its end is the only reached key that is not stored. -/
theorem Ascending.eq_runEnd_of_not_stored (h : Ascending next es) (hend : ∀ v, (runEnd next e (run next e es), v) ∉ es)
    {x : κ} (hx : Reach next es e x) (hns : ∀ v, (x, v) ∉ es) : x = runEnd next e (run next e es) := by
  rcases h.reach_run hx with ⟨p, hp, rfl⟩ | hr
  · exact absurd (run_subset e es hp) (hns p.2)
  · rcases hr.eq_or_mem with he | ⟨v, hv⟩
    · exact he
    · exact absurd hv (hend v)

/-- **When the run stops outside a set of keys that holds the stored ones**: exactly when every reached key of the set
is stored and has no smaller stored key that is not reached. -/
theorem Ascending.runEnd_not_iff (h : Ascending next es) {D : κ → Prop} (hD : ∀ p ∈ es, D p.1) :
    ¬ D (runEnd next e (run next e es)) ↔
      ∀ x, D x → Reach next es e x → (∃ v, (x, v) ∈ es) ∧ ∀ q ∈ es, q.1 < x → Reach next es e q.1 := by
  have hend : Reach next es e (runEnd next e (run next e es)) := (run_reach es e (List.Subset.refl es)).2.1
  constructor
  · intro hnot x hx hr
    have hns : ∀ v, (runEnd next e (run next e es), v) ∉ es := fun v hv => hnot (hD _ hv)
    have hstored : ∃ v, (x, v) ∈ es := by
      by_contra hx'
      push Not at hx'
      exact hnot (h.eq_runEnd_of_not_stored hns hr hx' ▸ hx)
    refine ⟨hstored, fun q hq hlt => ?_⟩
    by_contra hqr
    obtain ⟨v, hv⟩ := hstored
    obtain ⟨v', hv'⟩ := h.runEnd_stored_iff.2 ⟨_, hv, q, hq, hr, hlt, hqr⟩
    exact hns v' hv'
  · intro hall hx
    obtain ⟨hv, -⟩ := hall _ hx hend
    obtain ⟨p, hp, q, hq, hpr, hlt, hqr⟩ := h.runEnd_stored_iff.1 hv
    exact hqr ((hall p.1 (hD p hp) hpr).2 q hq hlt)

end Reach

end SortedMap
