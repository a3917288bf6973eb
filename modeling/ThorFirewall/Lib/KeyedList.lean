import Mathlib.Data.List.Nodup
import Mathlib.Data.List.Infix

/-!
# Lists with a key, replaced or appended

`upsert key x l` puts `x` in the place of the first element of `l` with the same key, or at the end. `lookup key k l`
is the first element with key `k`. Upserting one after the other, the last element of each key stays
(`lookup_foldl_upsert`), and the keys stay distinct (`nodup_foldl_upsert`).
-/

namespace KeyedList

variable {α κ : Type*} [DecidableEq κ] (key : α → κ)

/-- Replace the element at the position of the key, or append. -/
def upsert (x : α) (l : List α) : List α :=
  match l.findIdx? fun y => key y = key x with
  | some pos => l.set pos x
  | none => l ++ [x]

/-- The first element with key `k`. -/
def lookup (k : κ) (l : List α) : Option α := l.find? fun y => key y = k

variable {key} {x : α} {k : κ} {l : List α}

@[simp] theorem upsert_nil : upsert key x [] = [x] := rfl

theorem upsert_cons_eq {y : α} (h : key y = key x) : upsert key x (y :: l) = x :: l := by
  simp [upsert, List.findIdx?_cons, h]

theorem upsert_cons_ne {y : α} (h : key y ≠ key x) : upsert key x (y :: l) = y :: upsert key x l := by
  unfold upsert
  rw [List.findIdx?_cons]
  simp only [h, decide_false, Bool.false_eq_true, if_false]
  cases l.findIdx? fun y => key y = key x <;> rfl

@[simp] theorem lookup_nil : lookup key k [] = none := rfl

theorem lookup_cons (y : α) : lookup key k (y :: l) = if key y = k then some y else lookup key k l := by
  by_cases h : key y = k <;> simp [lookup, h]

/-- An upsert is seen under its own key only. -/
theorem lookup_upsert (x : α) (k : κ) (l : List α) :
    lookup key k (upsert key x l) = if key x = k then some x else lookup key k l := by
  induction l with
  | nil => rw [upsert_nil, lookup_cons]
  | cons y l ih =>
    by_cases hy : key y = key x
    · rw [upsert_cons_eq hy, lookup_cons, lookup_cons, hy]
      split_ifs <;> rfl
    · rw [upsert_cons_ne hy, lookup_cons, lookup_cons, ih]
      by_cases hx : key x = k
      · rw [if_pos hx, if_neg fun h => hy (h.trans hx.symm), if_pos hx]
      · rw [if_neg hx, if_neg hx]

/-- Nothing but the upserted element is new. -/
theorem mem_of_mem_upsert {y : α} (h : y ∈ upsert key x l) : y = x ∨ y ∈ l := by
  induction l with
  | nil => exact Or.inl (List.mem_singleton.1 h)
  | cons z l ih =>
    by_cases hz : key z = key x
    · rw [upsert_cons_eq hz] at h
      exact (List.mem_cons.1 h).imp id (List.mem_cons_of_mem z)
    · rw [upsert_cons_ne hz] at h
      rcases List.mem_cons.1 h with rfl | h
      · exact Or.inr List.mem_cons_self
      · exact (ih h).imp id (List.mem_cons_of_mem z)

theorem nodup_upsert (x : α) (h : (l.map key).Nodup) : ((upsert key x l).map key).Nodup := by
  induction l with
  | nil => simp
  | cons y l ih =>
    obtain ⟨hy, hl⟩ := List.nodup_cons.1 h
    by_cases hyx : key y = key x
    · rw [upsert_cons_eq hyx, List.map_cons, ← hyx]
      exact h
    · rw [upsert_cons_ne hyx, List.map_cons, List.nodup_cons]
      refine ⟨fun hm => ?_, ih hl⟩
      obtain ⟨z, hz, hzy⟩ := List.mem_map.1 hm
      rcases mem_of_mem_upsert hz with rfl | hz
      · exact hyx hzy.symm
      · exact hy (List.mem_map.2 ⟨z, hz, hzy⟩)

/-- With distinct keys, the element found under a key is the only one. -/
theorem lookup_eq_some_iff (h : (l.map key).Nodup) : lookup key k l = some x ↔ x ∈ l ∧ key x = k := by
  induction l with
  | nil => simp
  | cons y l ih =>
    obtain ⟨hy, hl⟩ := List.nodup_cons.1 h
    rw [lookup_cons, List.mem_cons]
    by_cases hyk : key y = k
    · rw [if_pos hyk, Option.some.injEq]
      constructor
      · rintro rfl
        exact ⟨Or.inl rfl, hyk⟩
      · rintro ⟨rfl | hx, hxk⟩
        · rfl
        · exact absurd (List.mem_map.2 ⟨x, hx, hxk.trans hyk.symm⟩) hy
    · rw [if_neg hyk, ih hl]
      constructor
      · exact fun hx => ⟨Or.inr hx.1, hx.2⟩
      · rintro ⟨rfl | hx, hxk⟩
        · exact absurd hxk hyk
        · exact ⟨hx, hxk⟩

/-! ## One upsert after the other -/

/-- The last of the upserted elements with key `k`. -/
def last (key : α → κ) (k : κ) (xs : List α) : Option α := lookup key k xs.reverse

theorem last_concat (x : α) (xs : List α) :
    last key k (xs ++ [x]) = if key x = k then some x else last key k xs := by
  rw [last, List.reverse_append]
  exact lookup_cons x

theorem last_map {β : Type*} (f : β → α) (xs : List β) :
    last key k (xs.map f) = (last (fun b => key (f b)) k xs).map f := by
  rw [last, last, lookup, lookup, ← List.map_reverse, List.find?_map]
  rfl

/-- **The last one wins.** -/
theorem lookup_foldl_upsert (k : κ) (xs : List α) :
    lookup key k (xs.foldl (fun l x => upsert key x l) []) = last key k xs := by
  induction xs using List.reverseRecOn with
  | nil => rfl
  | append_singleton xs x ih => rw [List.foldl_concat, lookup_upsert, last_concat, ih]

theorem nodup_foldl_upsert (xs : List α) : ((xs.foldl (fun l x => upsert key x l) []).map key).Nodup := by
  induction xs using List.reverseRecOn with
  | nil => exact List.nodup_nil
  | append_singleton xs x ih =>
    rw [List.foldl_concat]
    exact nodup_upsert x ih

theorem upsert_of_notMem (h : key x ∉ l.map key) : upsert key x l = l ++ [x] := by
  induction l with
  | nil => rfl
  | cons y l ih =>
    rw [List.map_cons, List.mem_cons, not_or] at h
    rw [upsert_cons_ne (Ne.symm h.1), ih h.2]
    rfl

/-- Upserts under new keys are appended. -/
theorem foldl_upsert_of_nodup {xs : List α} (h : ((l ++ xs).map key).Nodup) :
    xs.foldl (fun l x => upsert key x l) l = l ++ xs := by
  induction xs generalizing l with
  | nil => exact (List.append_nil l).symm
  | cons x xs ih =>
    have hx : key x ∉ l.map key := by
      rw [List.map_append, List.nodup_append] at h
      exact fun hmem => h.2.2 _ hmem _ List.mem_cons_self rfl
    rw [List.append_cons] at h ⊢
    rw [List.foldl_cons, upsert_of_notMem hx]
    exact ih h

/-- With distinct keys, the order does not matter. -/
theorem lookup_perm {l' : List α} (h : l.Perm l') (hl : (l.map key).Nodup) (k : κ) : lookup key k l = lookup key k l' := by
  have hl' : (l'.map key).Nodup := (h.map key).nodup_iff.1 hl
  ext x
  rw [lookup_eq_some_iff hl, lookup_eq_some_iff hl', h.mem_iff]

theorem lookup_map {β : Type*} (f : β → α) (xs : List β) :
    lookup key k (xs.map f) = (lookup (fun b => key (f b)) k xs).map f := by
  rw [lookup, lookup, List.find?_map]
  rfl

theorem mem_of_last {xs : List α} (h : last key k xs = some x) : x ∈ xs ∧ key x = k := by
  refine ⟨List.mem_reverse.1 (List.mem_of_find?_eq_some h), ?_⟩
  simpa using List.find?_some h

end KeyedList
