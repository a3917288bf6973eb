import Mathlib

/-!
# Fields of a block

A block of fixed layout is the list of its fields, joined. The `i`th field of `fs` is at `offset fs i`: a copy into its
place replaces it (`copyFromSlice_flatten`), and a look at its place finds it (`field_flatten`).
-/

namespace Fields

variable {α : Type*}

/-- `dst[start..stop].copy_from_slice(src)`; `none` is the panic of a range outside of `dst` or of another length. -/
def copyFromSlice (dst : List α) (start stop : ℕ) (src : List α) : Option (List α) :=
  if start ≤ stop ∧ stop ≤ dst.length ∧ src.length = stop - start then
    some (dst.take start ++ (src ++ dst.drop stop))
  else none

/-- The elements at the positions from `start` to `stop`. -/
def field (block : List α) (start stop : ℕ) : List α := (block.drop start).take (stop - start)

/-- Where the `i`th field begins. -/
def offset (fs : List (List α)) (i : ℕ) : ℕ := ((fs.take i).map List.length).sum

theorem length_flatten_take (fs : List (List α)) (i : ℕ) : (fs.take i).flatten.length = offset fs i :=
  List.length_flatten

theorem flatten_eq {fs : List (List α)} {i : ℕ} {f : List α} (hf : fs[i]? = some f) :
    fs.flatten = (fs.take i).flatten ++ (f ++ (fs.drop (i + 1)).flatten) := by
  obtain ⟨hi, rfl⟩ := List.getElem?_eq_some_iff.1 hf
  conv_lhs => rw [← List.take_append_drop i fs, List.drop_eq_getElem_cons hi]
  rw [List.flatten_append, List.flatten_cons]

/-- A copy into the place of a field replaces the field. -/
theorem copyFromSlice_flatten {fs : List (List α)} {i a b : ℕ} {f src : List α} (hf : fs[i]? = some f)
    (ha : offset fs i = a) (hb : a + f.length = b) (hsrc : src.length = f.length) :
    copyFromSlice fs.flatten a b src = some (fs.set i src).flatten := by
  obtain ⟨hi, -⟩ := List.getElem?_eq_some_iff.1 hf
  have hlen : (fs.take i).flatten.length = a := (length_flatten_take fs i).trans ha
  rw [copyFromSlice, if_pos]
  · rw [flatten_eq hf, List.take_left' hlen, ← List.append_assoc (fs.take i).flatten f,
      List.drop_left' (by rw [List.length_append, hlen, hb]), List.set_eq_take_append_cons_drop, if_pos hi,
      List.flatten_append, List.flatten_cons]
  · refine ⟨by omega, ?_, by omega⟩
    rw [flatten_eq hf, List.length_append, List.length_append, hlen]
    omega

theorem offset_set {fs : List (List α)} {i : ℕ} {f src : List α} (hf : fs[i]? = some f) (hsrc : src.length = f.length) :
    (fs.set i src).map List.length = fs.map List.length := by
  obtain ⟨hi, rfl⟩ := List.getElem?_eq_some_iff.1 hf
  rw [List.map_set, hsrc]
  refine List.ext_getElem (by simp) fun j hj _ => ?_
  rw [List.getElem_set]
  split_ifs with hij
  · subst hij
    rw [List.getElem_map]
  · rfl

/-- Copies into the places of fields, one after the other: each replaces its field. -/
theorem foldlM_copyFromSlice (lens : List ℕ) (copies : List (ℕ × List α)) {fs : List (List α)}
    (hfs : fs.map List.length = lens) (hcopies : ∀ c ∈ copies, lens[c.1]? = some c.2.length) :
    (copies.map fun c => ((lens.take c.1).sum, (lens.take (c.1 + 1)).sum, c.2)).foldlM
        (fun dst c => copyFromSlice dst c.1 c.2.1 c.2.2) fs.flatten =
      some (copies.foldl (fun fs c => fs.set c.1 c.2) fs).flatten := by
  induction copies generalizing fs with
  | nil => rfl
  | cons c copies ih =>
    obtain ⟨hc, hrest⟩ := List.forall_mem_cons.1 hcopies
    rw [← hfs, List.getElem?_map] at hc
    obtain ⟨f, hf, hlen⟩ := Option.map_eq_some_iff.1 hc
    have ha : offset fs c.1 = (lens.take c.1).sum := by rw [offset, List.map_take, hfs]
    have hb : (lens.take c.1).sum + f.length = (lens.take (c.1 + 1)).sum := by
      rw [List.take_add_one, ← hfs, List.getElem?_map, hf, List.sum_append]
      simp
    rw [List.map_cons, List.foldlM_cons, copyFromSlice_flatten hf ha hb hlen.symm]
    exact ih ((offset_set hf hlen.symm).trans hfs) hrest

/-- A look at the place of a field finds the field. -/
theorem field_flatten {fs : List (List α)} {i a b : ℕ} {f : List α} (hf : fs[i]? = some f) (ha : offset fs i = a)
    (hb : a + f.length = b) : field fs.flatten a b = f := by
  have hlen : (fs.take i).flatten.length = a := (length_flatten_take fs i).trans ha
  rw [field, flatten_eq hf, List.drop_left' hlen, List.take_left' (by omega)]

end Fields
