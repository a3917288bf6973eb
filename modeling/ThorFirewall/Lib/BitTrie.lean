import Mathlib.Data.List.Infix

/-!
# Binary tries

A node has a value, perhaps, and two children that may be missing. `insert` puts a value at the end of a path of bits,
`lookup` walks down such a path as far as there are nodes and takes the last value that it passes (that of the first
node does not count).

- `get_insert`: an insertion changes the value at its path and no other (`get_foldl_insert`: the last one counts);
- `lookup_eq_some_iff`: **longest prefix match**, the value at the longest beginning of the path that has one.
-/

inductive BitTrie (α : Type*)
  | missing
  | node (value : Option α) (zero one : BitTrie α)

namespace BitTrie

variable {α : Type*}

def empty : BitTrie α := node none missing missing

def value : BitTrie α → Option α
  | missing => none
  | node v _ _ => v

def child : BitTrie α → Bool → BitTrie α
  | missing, _ => missing
  | node _ zero _, false => zero
  | node _ _ one, true => one

def setValue (a : α) : BitTrie α → BitTrie α
  | missing => node (some a) missing missing
  | node _ zero one => node (some a) zero one

def setChild (c : BitTrie α) : BitTrie α → Bool → BitTrie α
  | missing, false => node none c missing
  | missing, true => node none missing c
  | node v _ one, false => node v c one
  | node v zero _, true => node v zero c

/-- Nodes that are missing on the way are made. -/
def insert (a : α) : List Bool → BitTrie α → BitTrie α
  | [], t => t.setValue a
  | bit :: path, t => setChild (insert a path (t.child bit)) t bit

/-- The walk, with the last value so far. -/
def lookupFrom : BitTrie α → Option α → List Bool → Option α
  | _, last, [] => last
  | t, last, bit :: path =>
    match t.child bit with
    | missing => last
    | node v zero one => lookupFrom (node v zero one) (v <|> last) path

def lookup (t : BitTrie α) (path : List Bool) : Option α := lookupFrom t none path

/-- The value at a path. -/
def get : BitTrie α → List Bool → Option α
  | t, [] => t.value
  | t, bit :: path => (t.child bit).get path

/-! ## Insertion -/

@[simp] theorem value_setValue (a : α) (t : BitTrie α) : (t.setValue a).value = some a := by
  cases t <;> rfl

@[simp] theorem child_setValue (a : α) (t : BitTrie α) (bit : Bool) : (t.setValue a).child bit = t.child bit := by
  cases t <;> cases bit <;> rfl

@[simp] theorem value_setChild (bit : Bool) (c t : BitTrie α) : (setChild c t bit).value = t.value := by
  cases t <;> cases bit <;> rfl

theorem child_setChild (bit bit' : Bool) (c t : BitTrie α) :
    (setChild c t bit).child bit' = if bit' = bit then c else t.child bit' := by
  cases t <;> cases bit <;> cases bit' <;> simp [setChild, child]

/-- **An insertion changes the value at its path**, and no other. -/
theorem get_insert (a : α) (path q : List Bool) (t : BitTrie α) :
    (t.insert a path).get q = if q = path then some a else t.get q := by
  induction path generalizing q t with
  | nil =>
    cases q with
    | nil => exact value_setValue a t
    | cons bit q => rw [insert, get, child_setValue, if_neg (List.cons_ne_nil _ _), get]
  | cons bit path ih =>
    cases q with
    | nil => rw [insert, get, value_setChild, if_neg (List.cons_ne_nil _ _).symm, get]
    | cons bit' q =>
      rw [insert, get, child_setChild]
      by_cases hbit : bit' = bit
      · rw [if_pos hbit, ih, get, hbit]
        simp
      · rw [if_neg hbit, get, if_neg fun h => hbit (List.cons.inj h).1]

/-- After some insertions, the last one at a path counts. -/
theorem get_foldl_insert {β : Type*} (path : β → List Bool) (value : β → α) (xs : List β) (t : BitTrie α)
    (q : List Bool) : (xs.foldl (fun t x => t.insert (value x) (path x)) t).get q =
      ((xs.reverse.find? fun x => path x = q).map value <|> t.get q) := by
  induction xs using List.reverseRecOn with
  | nil => rfl
  | append_singleton xs x ih =>
    rw [List.foldl_append, List.foldl_cons, List.foldl_nil, get_insert, ih, List.reverse_append,
      List.reverse_singleton, List.singleton_append, List.find?_cons]
    by_cases hq : q = path x
    · rw [if_pos hq, decide_eq_true hq.symm]
      rfl
    · rw [if_neg hq, decide_eq_false (Ne.symm hq)]

/-! ## Lookup -/

theorem get_missing (q : List Bool) : (missing : BitTrie α).get q = none := by
  induction q with
  | nil => rfl
  | cons bit q ih => exact ih

theorem get_empty (q : List Bool) : (empty : BitTrie α).get q = none := by
  cases q with
  | nil => rfl
  | cons bit q => cases bit <;> exact get_missing q

/-- The walk finds the value at the longest beginning of the path that has one, if there is one. -/
theorem lookupFrom_eq_some_iff {t : BitTrie α} {last : Option α} {path : List Bool} {a : α} :
    lookupFrom t last path = some a ↔
      (∃ q, q ≠ [] ∧ q <+: path ∧ t.get q = some a ∧
        ∀ q', q' <+: path → q.length < q'.length → t.get q' = none) ∨
      last = some a ∧ ∀ q, q ≠ [] → q <+: path → t.get q = none := by
  induction path generalizing t last with
  | nil =>
    rw [lookupFrom]
    constructor
    · exact fun h => Or.inr ⟨h, fun q hq hbegins => absurd (List.prefix_nil.1 hbegins) hq⟩
    · rintro (⟨q, hq, hbegins, -⟩ | ⟨h, -⟩)
      · exact absurd (List.prefix_nil.1 hbegins) hq
      · exact h
  | cons bit path ih =>
    have hget (q : List Bool) : t.get (bit :: q) = (t.child bit).get q := rfl
    cases hchild : t.child bit with
    | missing =>
      have hnone (q : List Bool) (hq : q ≠ []) (hbegins : q <+: bit :: path) : t.get q = none := by
        obtain ⟨q, rfl, -⟩ := (List.prefix_cons_iff.1 hbegins).resolve_left hq
        rw [hget, hchild, get_missing]
      simp only [lookupFrom, hchild]
      refine ⟨fun h => Or.inr ⟨h, hnone⟩, ?_⟩
      rintro (⟨q, hq, hbegins, hvalue, -⟩ | ⟨h, -⟩)
      · rw [hnone q hq hbegins] at hvalue
        cases hvalue
      · exact h
    | node v zero one =>
      simp only [lookupFrom, hchild]
      rw [ih, ← hchild]
      have hhead : t.get [bit] = v := by rw [hget, hchild, get, value]
      constructor
      · rintro (⟨q, hq, hbegins, hvalue, hlonger⟩ | ⟨hlast, hnone⟩)
        · refine Or.inl ⟨bit :: q, List.cons_ne_nil _ _, List.prefix_cons_inj bit |>.2 hbegins, hvalue, ?_⟩
          intro q' hbegins' hlt
          rcases List.prefix_cons_iff.1 hbegins' with rfl | ⟨q', rfl, htail⟩
          · cases hlt
          · exact hlonger q' htail (Nat.lt_of_succ_lt_succ hlt)
        · cases v with
          | none =>
            refine Or.inr ⟨hlast, fun q hq hbegins => ?_⟩
            obtain ⟨q, rfl, htail⟩ := (List.prefix_cons_iff.1 hbegins).resolve_left hq
            by_cases hnil : q = []
            · rw [hnil, hhead]
            · exact hnone q hnil htail
          | some b =>
            refine Or.inl ⟨[bit], List.cons_ne_nil _ _, List.prefix_cons_inj bit |>.2 List.nil_prefix, ?_, ?_⟩
            · exact hhead.trans hlast
            · intro q' hbegins' hlt
              rcases List.prefix_cons_iff.1 hbegins' with rfl | ⟨q', rfl, htail⟩
              · cases hlt
              · exact hnone q' (List.ne_nil_of_length_pos (Nat.lt_of_succ_lt_succ hlt)) htail
      · rintro (⟨q, hq, hbegins, hvalue, hlonger⟩ | ⟨hlast, hnone⟩)
        · obtain ⟨q, rfl, htail⟩ := (List.prefix_cons_iff.1 hbegins).resolve_left hq
          by_cases hnil : q = []
          · subst hnil
            refine Or.inr ⟨?_, fun q' hq' hbegins' => ?_⟩
            · rw [← hhead, hvalue]
              rfl
            · exact hlonger (bit :: q') (List.prefix_cons_inj bit |>.2 hbegins')
                (Nat.succ_lt_succ (List.length_pos_of_ne_nil hq'))
          · refine Or.inl ⟨q, hnil, htail, hvalue, fun q' hbegins' hlt => ?_⟩
            exact hlonger (bit :: q') (List.prefix_cons_inj bit |>.2 hbegins') (Nat.succ_lt_succ hlt)
        · refine Or.inr ⟨?_, fun q hq hbegins => ?_⟩
          · rw [← hhead, hnone [bit] (List.cons_ne_nil _ _) (List.prefix_cons_inj bit |>.2 List.nil_prefix)]
            exact hlast
          · exact hnone (bit :: q) (List.cons_ne_nil _ _) (List.prefix_cons_inj bit |>.2 hbegins)

/-- **Longest prefix match.** The lookup gives the value at the longest beginning of the path that has one. -/
theorem lookup_eq_some_iff {t : BitTrie α} {path : List Bool} {a : α} : t.lookup path = some a ↔
    ∃ q, q ≠ [] ∧ q <+: path ∧ t.get q = some a ∧ ∀ q', q' <+: path → q.length < q'.length → t.get q' = none := by
  rw [lookup, lookupFrom_eq_some_iff]
  exact or_iff_left fun h => Option.some_ne_none _ h.1.symm

theorem lookupFrom_eq_none_iff {t : BitTrie α} {last : Option α} {path : List Bool} :
    lookupFrom t last path = none ↔ last = none ∧ ∀ q, q ≠ [] → q <+: path → t.get q = none := by
  induction path generalizing t last with
  | nil => exact ⟨fun h => ⟨h, fun q hq hbegins => absurd (List.prefix_nil.1 hbegins) hq⟩, And.left⟩
  | cons bit path ih =>
    have hget (q : List Bool) : t.get (bit :: q) = (t.child bit).get q := rfl
    have htails : (∀ q, q ≠ [] → q <+: bit :: path → t.get q = none) ↔
        (t.child bit).value = none ∧ ∀ q, q ≠ [] → q <+: path → (t.child bit).get q = none := by
      constructor
      · exact fun h => ⟨h [bit] (List.cons_ne_nil _ _) ((List.prefix_cons_inj bit).2 List.nil_prefix),
          fun q _ hbegins => h (bit :: q) (List.cons_ne_nil _ _) ((List.prefix_cons_inj bit).2 hbegins)⟩
      · intro h q hq hbegins
        obtain ⟨q, rfl, htail⟩ := (List.prefix_cons_iff.1 hbegins).resolve_left hq
        by_cases hnil : q = []
        · rw [hnil]
          exact h.1
        · exact h.2 q hnil htail
    rw [htails]
    cases hchild : t.child bit with
    | missing =>
      simp only [lookupFrom, hchild]
      exact ⟨fun h => ⟨h, rfl, fun q _ _ => get_missing q⟩, And.left⟩
    | node v zero one =>
      simp only [lookupFrom, hchild]
      rw [ih, value, ← and_assoc]
      refine and_congr_left fun _ => ?_
      cases v with
      | none => exact (and_iff_left rfl).symm
      | some b => exact iff_of_false (Option.some_ne_none b) fun h => Option.some_ne_none b h.2

/-- Without a value on the path there is none to find. -/
theorem lookup_eq_none_iff {t : BitTrie α} {path : List Bool} : t.lookup path = none ↔
    ∀ q, q ≠ [] → q <+: path → t.get q = none :=
  lookupFrom_eq_none_iff.trans (and_iff_right rfl)

end BitTrie
