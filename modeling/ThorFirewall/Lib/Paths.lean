import Mathlib.Data.List.Infix

/-!
# Paths as text

`push` appends the name of a directory entry to a path. `components` and `isAbsolute` say what a path means, whatever the
slashes and dots in its text; `Inside` compares paths by them. Two names lead to two places (`name_eq_of_inside_push`).
-/

namespace Paths

/-- The name of a directory entry. -/
structure FileName where
  text : List Char
  ne_nil : text ≠ []
  ne_dot : text ≠ ['.']
  slashFree : '/' ∉ text
  deriving DecidableEq

/-- `push`: a slash only where there is none. -/
def push (path : List Char) (name : FileName) : List Char :=
  if path.getLast? = none ∨ path.getLast? = some '/' then path ++ name.text else path ++ '/' :: name.text

def isAbsolute (path : List Char) : Bool := path.head? = some '/'

/-- The parts between slashes, without empty ones and dots. -/
def components (path : List Char) : List (List Char) := (path.splitOn '/').filter fun c => c ≠ [] ∧ c ≠ ['.']

/-- The path is at or below the directory. -/
def Inside (path dir : List Char) : Prop := isAbsolute path = isAbsolute dir ∧ components dir <+: components path

variable {path dir dir' : List Char} {name name' : FileName}

theorem components_name (name : FileName) : components name.text = [name.text] := by
  rw [components, List.splitOn_eq_singleton name.slashFree, List.filter_singleton]
  simp [name.ne_nil, name.ne_dot]

theorem components_slash (path rest : List Char) :
    components (path ++ '/' :: rest) = components path ++ components rest := by
  rw [components, List.splitOn_append_cons_self, List.filter_append]
  rfl

/-- **A pushed name** is one more component. -/
theorem components_push (path : List Char) (name : FileName) :
    components (push path name) = components path ++ [name.text] := by
  rw [push]
  split_ifs with h
  · rcases h with h | h
    · rw [List.getLast?_eq_none_iff.1 h, List.nil_append, components_name]
      rfl
    · obtain ⟨init, rfl⟩ := List.getLast?_eq_some_iff.1 h
      rw [List.append_assoc, List.singleton_append, components_slash, components_slash, components_name]
      exact congrArg (· ++ [name.text]) (List.append_nil _).symm
  · rw [components_slash, components_name]

theorem isAbsolute_push (path : List Char) (name : FileName) : isAbsolute (push path name) = isAbsolute path := by
  cases path with
  | nil =>
    have hhead : name.text.head? ≠ some '/' := fun h => name.slashFree (List.mem_of_mem_head? h)
    rw [push, if_pos (Or.inl List.getLast?_nil), List.nil_append, isAbsolute, isAbsolute, decide_eq_decide]
    exact ⟨fun h => absurd h hhead, fun h => by cases h⟩
  | cons c path =>
    rw [push]
    split_ifs <;> rfl

theorem Inside.refl (path : List Char) : Inside path path := ⟨rfl, List.prefix_rfl⟩

theorem Inside.trans (h : Inside path dir) (h' : Inside dir dir') : Inside path dir' :=
  ⟨h.1.trans h'.1, h'.2.trans h.2⟩

theorem inside_push (path : List Char) (name : FileName) : Inside (push path name) path := by
  refine ⟨isAbsolute_push path name, ?_⟩
  rw [components_push]
  exact List.prefix_append _ _

/-- Of two directories of a path, one is inside the other. -/
theorem Inside.total (h : Inside path dir) (h' : Inside path dir') : Inside dir dir' ∨ Inside dir' dir := by
  rcases List.prefix_or_prefix_of_prefix h.2 h'.2 with hp | hp
  · exact Or.inr ⟨h'.1.symm.trans h.1, hp⟩
  · exact Or.inl ⟨h.1.symm.trans h'.1, hp⟩

/-- A path is below one entry of a directory at most. -/
theorem name_eq_of_inside_push (h : Inside path (push dir name)) (h' : Inside path (push dir name')) : name = name' := by
  have hp := h.2
  have hp' := h'.2
  rw [components_push] at hp hp'
  have heq : components dir ++ [name.text] = components dir ++ [name'.text] := by
    apply List.IsPrefix.eq_of_length (List.prefix_of_prefix_length_le hp hp' ?_)
    · simp
    · simp
  obtain ⟨text, _, _, _⟩ := name
  obtain ⟨text', _, _, _⟩ := name'
  have htext : text = text' := List.singleton_inj.1 (List.append_cancel_left heq)
  subst htext
  rfl

end Paths
