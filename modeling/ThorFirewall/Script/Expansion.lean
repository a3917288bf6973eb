import ThorFirewall.Script.Runtime

/-!
# Log messages with variables (`thor-script/src/runtime.rs`)

`expand_string` replaces the placeholders of one variable after the other, in the order of the maps, each in the text
that the ones before it have left. A template in a single pass is the list of its pieces: characters and the places of
variables.

- `expandOnce`: the template with each place filled with the variable's value;
- `Own`: a placeholder stands in a text only where the template has it;
- `expandString_once`: when each variable finds only its own placeholders, in whatever order, the order makes no
  difference, and what stands in a value is left as it is.
-/

namespace ThorFirewall.Script

open KeyedList TextSearch

/-! ## Pieces of a template -/

inductive Piece
  | char (c : Char)
  | var (name : String)
  deriving DecidableEq, Repr

def Piece.text : Piece → List Char
  | char c => [c]
  | var name => placeholder name

def textOf (ps : List Piece) : List Char := ps.flatMap Piece.text

/-- The variable whose placeholder a text begins with, the shortest of them if there are more. -/
def variableAt (names : List String) (s : List Char) : Option String :=
  (List.range (s.length + 1)).findSome? fun n => names.find? fun name => placeholder name = s.take n

/-- One character after the other; `skip` of them belong to a placeholder. -/
def piecesFrom (names : List String) : List Char → ℕ → List Piece
  | [], _ => []
  | _ :: s, skip + 1 => piecesFrom names s skip
  | c :: s, 0 =>
    match variableAt names (c :: s) with
    | some name => .var name :: piecesFrom names s ((placeholder name).length - 1)
    | none => .char c :: piecesFrom names s 0

def pieces (names : List String) (template : List Char) : List Piece := piecesFrom names template 0

/-- The template with the value of the variable in each place. -/
def expandOnce (vars : List (String × List Char)) (template : List Char) : List Char :=
  (pieces (vars.map Prod.fst) template).flatMap fun
    | .char c => [c]
    | .var name => ((lookup Prod.fst name vars).map Prod.snd).getD (placeholder name)

/-- The pieces with the value of a variable in its places. -/
def fill (var : String × List Char) (ps : List Piece) : List Piece :=
  ps.flatMap fun p => if p = .var var.1 then var.2.map .char else [p]

def fillAll (vars : List (String × List Char)) (ps : List Piece) : List Piece :=
  vars.foldl (fun ps var => fill var ps) ps

/-- Wherever the placeholder stands in the text, it is a place of the variable. -/
def Own (name : String) (ps : List Piece) : Prop :=
  ∀ u w, textOf ps = u ++ placeholder name ++ w → ∃ qs rs, ps = qs ++ .var name :: rs ∧ textOf qs = u

/-- The same maps, in an order of their own. -/
def SameVars (ctx other : ExecutionContext) : Prop :=
  ctx.strVars.Perm other.strVars ∧ ctx.intVars.Perm other.intVars

/-- In whatever order the maps are iterated, each variable finds its placeholder only where the template has it. -/
def Undisturbed (template : List Char) (ctx : ExecutionContext) : Prop :=
  ∀ other, SameVars ctx other → ∀ before var after, textVars other = before ++ var :: after →
    Own var.1 (fillAll before (pieces ((textVars ctx).map Prod.fst) template))

/-! ## The text of the pieces -/

section Pieces

variable {names : List String} {name : String} {s : List Char}

@[simp] theorem textOf_append (ps qs : List Piece) : textOf (ps ++ qs) = textOf ps ++ textOf qs := List.flatMap_append

@[simp] theorem textOf_var (name : String) (ps : List Piece) :
    textOf (.var name :: ps) = placeholder name ++ textOf ps :=
  List.flatMap_cons

@[simp] theorem textOf_chars (s : List Char) : textOf (s.map .char) = s := by
  induction s with
  | nil => rfl
  | cons c s ih => exact congrArg (c :: ·) ih

theorem placeholder_ne_nil (name : String) : placeholder name ≠ [] := List.cons_ne_nil _ _

theorem placeholder_injective {a b : String} (h : placeholder a = placeholder b) : a = b := by
  simp only [placeholder, List.cons.injEq, true_and, List.append_cancel_right_eq] at h
  exact String.toList_inj.1 h

theorem prefix_of_variableAt (h : variableAt names s = some name) : placeholder name <+: s := by
  obtain ⟨n, _, hn⟩ := List.exists_of_findSome?_eq_some h
  have htake : placeholder name = s.take n := by simpa using List.find?_some hn
  rw [htake]
  exact List.take_prefix n s

/-- Only which names there are makes a difference. -/
theorem variableAt_congr {others : List String} (h : ∀ name, name ∈ names ↔ name ∈ others) (s : List Char) :
    variableAt names s = variableAt others s := by
  unfold variableAt
  congr 1
  funext n
  have hone : ∀ {xs ys : List String}, (∀ name, name ∈ xs ↔ name ∈ ys) → ∀ a,
      xs.find? (fun name => placeholder name = s.take n) = some a →
      ys.find? (fun name => placeholder name = s.take n) = some a := by
    intro xs ys hxy a ha
    have heq : placeholder a = s.take n := by simpa using List.find?_some ha
    have hmem := (hxy a).1 (List.mem_of_find?_eq_some ha)
    cases hys : ys.find? (fun name => placeholder name = s.take n) with
    | none => exact absurd (decide_eq_true heq) (List.find?_eq_none.1 hys a hmem)
    | some b =>
      have hb : placeholder b = s.take n := by simpa using List.find?_some hys
      rw [placeholder_injective (hb.trans heq.symm)]
  ext a
  exact ⟨hone h a, hone (fun name => (h name).symm) a⟩

theorem piecesFrom_congr {others : List String} (h : ∀ name, name ∈ names ↔ name ∈ others) (s : List Char)
    (skip : ℕ) : piecesFrom names s skip = piecesFrom others s skip := by
  induction s generalizing skip with
  | nil => rfl
  | cons c s ih =>
    cases skip with
    | succ skip => exact ih skip
    | zero =>
      rw [piecesFrom, piecesFrom, variableAt_congr h]
      cases variableAt others (c :: s) with
      | none => exact congrArg _ (ih 0)
      | some name => exact congrArg _ (ih _)

theorem textOf_piecesFrom (names : List String) (s : List Char) (skip : ℕ) :
    textOf (piecesFrom names s skip) = s.drop skip := by
  induction s generalizing skip with
  | nil => exact List.drop_nil.symm
  | cons c s ih =>
    cases skip with
    | succ skip => exact ih skip
    | zero =>
      rw [piecesFrom]
      cases hvar : variableAt names (c :: s) with
      | none => exact congrArg (c :: ·) (ih 0)
      | some name =>
        obtain ⟨rest, hrest⟩ := prefix_of_variableAt hvar
        show textOf (.var name :: piecesFrom names s ((placeholder name).length - 1)) = c :: s
        rw [textOf_var, ih, ← hrest]
        have htail : s = (placeholder name).tail ++ rest := (List.cons.inj hrest).2.symm
        rw [htail, ← List.length_tail, List.drop_left]

/-- The pieces of a template are its text. -/
theorem textOf_pieces (names : List String) (template : List Char) : textOf (pieces names template) = template :=
  textOf_piecesFrom names template 0

end Pieces

/-! ## One variable -/

section Variable

variable {name : String} {ps : List Piece}

theorem fill_of_notMem {var : String × List Char} (h : .var var.1 ∉ ps) : fill var ps = ps := by
  induction ps with
  | nil => rfl
  | cons p ps ih =>
    rw [List.mem_cons, not_or] at h
    rw [fill, List.flatMap_cons, if_neg (Ne.symm h.1)]
    exact congrArg (p :: ·) (ih h.2)

theorem fill_append (var : String × List Char) (ps qs : List Piece) :
    fill var (ps ++ qs) = fill var ps ++ fill var qs :=
  List.flatMap_append

theorem fill_var (value : List Char) (name : String) (ps : List Piece) :
    fill (name, value) (.var name :: ps) = value.map .char ++ fill (name, value) ps := by
  rw [fill, List.flatMap_cons, if_pos rfl]
  rfl

/-- The first place at which the placeholder is found is the first place of the variable. -/
theorem Own.first (h : Own name ps) {i : ℕ} (hfind : find (placeholder name) (textOf ps) = some i) :
    ∃ qs rs, ps = qs ++ .var name :: rs ∧ (textOf qs).length = i ∧ .var name ∉ qs ∧ Own name rs := by
  obtain ⟨w, hw, hle⟩ := eq_append_of_find hfind
  obtain ⟨qs, rs, rfl, hqs⟩ := h _ _ hw
  have hlength : (textOf qs).length = i := by rw [hqs, List.length_take, Nat.min_eq_left hle]
  refine ⟨qs, rs, rfl, hlength, fun hmem => ?_, fun u v huv => ?_⟩
  · -- A place in front of it would have been found before.
    obtain ⟨as, bs, rfl⟩ := List.append_of_mem hmem
    have hoccurs : find (placeholder name) (textOf as ++ placeholder name) ≠ none := fun hnone =>
      find_eq_none_iff.1 hnone (List.suffix_append (textOf as) (placeholder name)).isInfix
    obtain ⟨j, hj⟩ := Option.ne_none_iff_exists'.1 hoccurs
    obtain ⟨rest, hrest, hjle⟩ := eq_append_of_find hj
    have hpos := List.length_pos_iff.2 (placeholder_ne_nil name)
    have hsum := congrArg List.length hrest
    simp only [List.length_append, List.length_take] at hsum
    have hlong := find_append hj (textOf bs ++ textOf (.var name :: rs))
    have hsplit : textOf (as ++ .var name :: bs ++ .var name :: rs) =
        textOf as ++ placeholder name ++ (textOf bs ++ textOf (.var name :: rs)) := by simp
    rw [hsplit, hlong, Option.some_inj] at hfind
    simp only [textOf_append, textOf_var, List.length_append] at hlength
    omega
  · have hwhole : textOf (qs ++ .var name :: rs) = textOf qs ++ placeholder name ++ u ++ placeholder name ++ v := by
      simp [huv]
    obtain ⟨as, bs, hsplit, has⟩ := h _ _ hwhole
    have hpos := List.length_pos_iff.2 (placeholder_ne_nil name)
    rcases List.append_eq_append_iff.1 hsplit with ⟨cs, rfl, hcs⟩ | ⟨cs, rfl, _⟩
    · cases cs with
      | nil =>
        rw [List.append_nil] at has
        have hsum := congrArg List.length has
        simp only [List.length_append] at hsum
        omega
      | cons p cs =>
        obtain ⟨rfl, hrs⟩ := List.cons.inj hcs
        refine ⟨cs, bs, hrs, ?_⟩
        rw [textOf_append, textOf_var, List.append_assoc] at has
        exact List.append_cancel_left (List.append_cancel_left has)
    · have hsum := congrArg List.length has
      simp only [textOf_append, List.length_append] at hsum
      omega

/-- **A variable that finds only its own places** is replaced there and nowhere else. -/
theorem replace_own (h : Own name ps) (value : List Char) :
    replace (placeholder name) value (textOf ps) = textOf (fill (name, value) ps) := by
  induction hn : ps.length using Nat.strong_induction_on generalizing ps with
  | _ n ih =>
    cases hfind : find (placeholder name) (textOf ps) with
    | none =>
      have hnot : .var name ∉ ps := fun hmem => by
        obtain ⟨as, bs, rfl⟩ := List.append_of_mem hmem
        refine find_eq_none_iff.1 hfind ⟨textOf as, textOf bs, ?_⟩
        simp
      rw [replace_of_find_none value hfind, fill_of_notMem hnot]
    | some i =>
      obtain ⟨qs, rs, rfl, hlength, hnot, hrs⟩ := h.first hfind
      have htext : textOf (qs ++ .var name :: rs) = textOf qs ++ placeholder name ++ textOf rs := by simp
      have hfirst : find (placeholder name) (textOf qs ++ placeholder name) = some (textOf qs).length := by
        have hoccurs : find (placeholder name) (textOf qs ++ placeholder name) ≠ none := fun hnone =>
          find_eq_none_iff.1 hnone (List.suffix_append (textOf qs) (placeholder name)).isInfix
        obtain ⟨j, hj⟩ := Option.ne_none_iff_exists'.1 hoccurs
        have hsame := find_append hj (textOf rs)
        rw [← htext, hfind, Option.some_inj] at hsame
        rw [hj, hlength, hsame]
      have hrest := ih rs.length (by rw [← hn, List.length_append, List.length_cons]; omega) hrs rfl
      have hqs : fill (name, value) qs = qs := fill_of_notMem hnot
      rw [htext, replace_append value (placeholder_ne_nil name) hfirst, hrest, fill_append, hqs, fill_var,
        textOf_append, textOf_append, textOf_chars, List.append_assoc]

end Variable

/-! ## All variables -/

section Variables

/-- **The run over the variables**, when each of them finds only its own places. -/
theorem expandVars_fillAll (vars : List (String × List Char)) (ps : List Piece)
    (h : ∀ before var after, vars = before ++ var :: after → Own var.1 (fillAll before ps)) :
    expandVars vars (textOf ps) = textOf (fillAll vars ps) := by
  induction vars generalizing ps with
  | nil => rfl
  | cons var vars ih =>
    have hfirst : Own var.1 ps := h [] var vars rfl
    rw [expandVars, List.foldl_cons, replace_own hfirst]
    exact ih (fill var ps) fun before next after hvars => h (var :: before) next after (congrArg (var :: ·) hvars)

/-- A place is filled by the first of the variables with its name. -/
def filled (vars : List (String × List Char)) : Piece → List Piece
  | .char c => [.char c]
  | .var name => ((lookup Prod.fst name vars).map fun var => var.2.map .char).getD [.var name]

theorem flatMap_filled_chars (vars : List (String × List Char)) (s : List Char) :
    (s.map Piece.char).flatMap (filled vars) = s.map .char := by
  induction s with
  | nil => rfl
  | cons c s ih => exact congrArg (.char c :: ·) ih

theorem fillAll_eq (vars : List (String × List Char)) (ps : List Piece) :
    fillAll vars ps = ps.flatMap (filled vars) := by
  induction vars generalizing ps with
  | nil =>
    have hsame : filled [] = fun p => [p] := funext fun p => by cases p <;> rfl
    rw [hsame, List.flatMap_singleton']
    rfl
  | cons var vars ih =>
    rw [fillAll, List.foldl_cons]
    refine (ih (fill var ps)).trans ?_
    rw [fill, List.flatMap_assoc]
    congr 1
    funext p
    cases p with
    | char c => rfl
    | var name =>
      by_cases hname : var.1 = name
      · rw [if_pos (by rw [hname]), flatMap_filled_chars, filled, lookup_cons, if_pos hname]
        rfl
      · rw [if_neg (by simpa using Ne.symm hname), List.flatMap_singleton, filled, filled, lookup_cons, if_neg hname]

theorem textOf_fillAll (vars : List (String × List Char)) (template : List Char) :
    textOf (fillAll vars (pieces (vars.map Prod.fst) template)) = expandOnce vars template := by
  rw [fillAll_eq, textOf, List.flatMap_assoc, expandOnce]
  congr 1
  funext p
  cases p with
  | char c => rfl
  | var name =>
    simp only [filled]
    cases lookup Prod.fst name vars with
    | none => exact List.append_nil _
    | some var => exact textOf_chars var.2

variable {ctx other : ExecutionContext}

theorem SameVars.lookup (h : SameVars ctx other) (name : String) :
    lookup Prod.fst name (textVars other) = lookup Prod.fst name (textVars ctx) := by
  have hstr := lookup_perm h.1 ctx.nodup_strVars name
  have hint := lookup_perm h.2 ctx.nodup_intVars name
  unfold textVars
  simp only [KeyedList.lookup, List.find?_append, List.find?_map] at hstr hint ⊢
  simp only [Function.comp_def] at hstr hint ⊢
  rw [hstr, hint]

theorem SameVars.mem_names (h : SameVars ctx other) (name : String) :
    name ∈ (textVars other).map Prod.fst ↔ name ∈ (textVars ctx).map Prod.fst := by
  have hperm : (textVars other).Perm (textVars ctx) := (h.1.symm.map _).append (h.2.symm.map _)
  exact (hperm.map Prod.fst).mem_iff

/-- The single pass does not depend on the order of the maps. -/
theorem SameVars.expandOnce (h : SameVars ctx other) (template : List Char) :
    expandOnce (textVars other) template = Script.expandOnce (textVars ctx) template := by
  rw [Script.expandOnce, Script.expandOnce, pieces, pieces, piecesFrom_congr h.mem_names]
  congr 1
  funext p
  cases p with
  | char c => rfl
  | var name => simp only [h.lookup]

end Variables

/-- **A log message is expanded in a single pass**, in every order of the maps, when in every order each variable finds
its placeholder only where the template has it. -/
theorem expandString_once {template : String} {ctx : ExecutionContext} (h : Undisturbed template.toList ctx) :
    ∀ other, SameVars ctx other →
      expandString template other = String.ofList (expandOnce (textVars ctx) template.toList) := by
  intro other hsame
  have hpieces : pieces ((textVars ctx).map Prod.fst) template.toList =
      pieces ((textVars other).map Prod.fst) template.toList :=
    piecesFrom_congr (fun name => (hsame.mem_names name).symm) _ _
  have hrun := expandVars_fillAll (textVars other) (pieces ((textVars ctx).map Prod.fst) template.toList)
    (h other hsame)
  rw [textOf_pieces] at hrun
  rw [expandString, hrun, hpieces, textOf_fillAll, hsame.expandOnce]

/-- One variable, with an address. -/
def peerContext : ExecutionContext := ExecutionContext.new.setStr "src_ip" "10.0.0.1"

/-- `${src_ip}`. -/
def peerTemplate : String := "$\x7bsrc_ip\x7d"

theorem undisturbed_peer : Undisturbed peerTemplate.toList peerContext := by
  rintro other ⟨hstr, hint⟩ before var after hsplit
  have hother : textVars other = [("src_ip", "10.0.0.1".toList)] := by
    have hstrVars : other.strVars = [("src_ip", "10.0.0.1")] := List.perm_singleton.1 hstr.symm
    have hintVars : other.intVars = [] := List.perm_nil.1 hint.symm
    rw [textVars, hstrVars, hintVars]
    rfl
  rw [hother] at hsplit
  obtain ⟨rfl, hcons⟩ | ⟨p, rest, rfl, hcons⟩ : before = [] ∧ [("src_ip", "10.0.0.1".toList)] = var :: after ∨
      ∃ p rest, before = p :: rest ∧ [("src_ip", "10.0.0.1".toList)] = p :: rest ++ var :: after := by
    cases before with
    | nil => exact .inl ⟨rfl, hsplit⟩
    | cons p rest => exact .inr ⟨p, rest, rfl, hsplit⟩
  · obtain ⟨rfl, _⟩ := List.cons.inj hcons
    intro u w huw
    -- The template is the placeholder, so that nothing is in front of it or behind it.
    have htext : placeholder "src_ip" = u ++ placeholder "src_ip" ++ w := huw
    have hsum := congrArg List.length htext
    simp only [List.length_append] at hsum
    have hu : u = [] := List.length_eq_zero_iff.1 (by omega)
    exact ⟨[], [], rfl, hu.symm⟩
  · exact absurd (congrArg List.length hcons) (by simp)

theorem expandString_peer :
    expandString peerTemplate peerContext = String.ofList (expandOnce (textVars peerContext) peerTemplate.toList) :=
  expandString_once undisturbed_peer peerContext ⟨.refl _, .refl _⟩

/-- A user name that is the placeholder of another variable. -/
def aliasContext : ExecutionContext := (ExecutionContext.new.setStr "user" "$\x7bhost\x7d").setStr "host" "dc01"

/-- The same variables, the other way round. -/
def aliasOther : ExecutionContext := (ExecutionContext.new.setStr "host" "dc01").setStr "user" "$\x7bhost\x7d"

/-- The placeholder in the value is expanded in one of the orders, and left as it is in the other. -/
theorem aliasContext_expanded_again :
    SameVars aliasContext aliasOther ∧ expandString "$\x7buser\x7d" aliasContext = "dc01" ∧
      expandString "$\x7buser\x7d" aliasOther = "$\x7bhost\x7d" ∧
      expandOnce (textVars aliasContext) "$\x7buser\x7d".toList = "$\x7bhost\x7d".toList :=
  ⟨⟨List.Perm.swap _ _ _, .nil⟩, rfl, rfl, rfl⟩

end ThorFirewall.Script
