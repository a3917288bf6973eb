import ThorFirewall.Lib.OperatorChain
import ThorFirewall.Script.Runtime
import ThorFirewall.Script.Totality

/-!
# Conditions and their grammar (`thor-script/src/parser.rs`)

The grammar of the module has `condition := expr ("and" | "or") condition | expr`, which nests a chain to the right. The
loop of `parse_conditions` nests it to the left.

- `ChainText`: the text of a chain of expressions, as the grammar derives it;
- `parseConditions_chain`: what the parser makes of it;
- `parseConditions_documented_iff`: when that has the same value as the derivation.
-/

namespace ThorFirewall.Script

open OperatorChain

def joinConditions : Connective → Condition → Condition → Condition
  | .and => .and
  | .or => .or

def conditionOf : Formula Condition → Condition
  | .atom c => c
  | .join op left right => joinConditions op (conditionOf left) (conditionOf right)

/-- The derivation of the grammar: `e₁ op₁ (e₂ op₂ (… eₙ))`. -/
def documented (e : Condition) (links : List (Connective × Condition)) : Condition := conditionOf (rightNested e links)

def keywordOf : Connective → ScriptToken
  | .and => .keyword "and"
  | .or => .keyword "or"

/-- A comparison or a search in the payload. -/
def Condition.IsExpr : Condition → Prop
  | .compare _ _ _ => True
  | .payloadMatch _ _ => True
  | _ => False

/-- The text of a condition: an expression, and behind an `and` or `or` the rest of the chain. -/
inductive ChainText : List ScriptToken → Condition → List (Connective × Condition) → List ScriptToken → Prop
  | expr {ts rest : List ScriptToken} {e : Condition} (hnot : peek ts ≠ .keyword "not")
      (h : parseSingleCondition (room ts) ts = .ok (e, rest)) : ChainText ts e [] rest
  | link {ts behind rest : List ScriptToken} {e f : Condition} {op : Connective}
      {links : List (Connective × Condition)} (hnot : peek ts ≠ .keyword "not")
      (h : parseSingleCondition (room ts) ts = .ok (e, behind)) (hop : peek behind = keywordOf op)
      (hlinks : ChainText (advance behind).2 f links rest) : ChainText ts e ((op, f) :: links) rest

/-! ## Expressions -/

section Expressions

variable {ts rest : List ScriptToken} {e : Condition}

/-- Without a negation in front of it, an expression takes one round. -/
theorem parseSingleCondition_expr (hnot : peek ts ≠ .keyword "not") (n m : ℕ) :
    parseSingleCondition (n + 1) ts = parseSingleCondition (m + 1) ts := by
  rw [parseSingleCondition, parseSingleCondition, if_neg hnot, if_neg hnot]

theorem isExpr_of_parse {n : ℕ} (hnot : peek ts ≠ .keyword "not")
    (h : parseSingleCondition (n + 1) ts = .ok (e, rest)) : e.IsExpr := by
  rw [parseSingleCondition, if_neg hnot] at h
  split at h
  · unfold parsePayload at h
    split at h
    · simp only at h
      split at h
      · cases h
        trivial
      · cases h
    · cases h
  · obtain ⟨field, _, h⟩ := Except.bind_eq_ok.1 h
    obtain ⟨op, _, h⟩ := Except.bind_eq_ok.1 h
    obtain ⟨value, _, h⟩ := Except.map_eq_ok.1 h
    cases h
    trivial

theorem ChainText.isExpr {links : List (Connective × Condition)} (h : ChainText ts e links rest) :
    e.IsExpr ∧ ∀ link ∈ links, link.2.IsExpr := by
  induction h with
  | expr hnot h => exact ⟨isExpr_of_parse hnot h, nofun⟩
  | link hnot h _ _ ih => exact ⟨isExpr_of_parse hnot h, List.forall_mem_cons.2 ih⟩

/-- Each link of a chain takes a token at least. -/
theorem ChainText.length_lt {links : List (Connective × Condition)} (h : ChainText ts e links rest) (hts : Ends ts) :
    links.length < ts.length := by
  induction h with
  | expr _ _ => exact hts.length_pos
  | @link ts behind _ _ _ _ _ _ h _ _ ih =>
    obtain ⟨hbehind, hlen⟩ := (returns_parseSingleCondition hts (by unfold room; omega)).of_ok h
    have hlinks := ih hbehind.advance
    have hadvance := length_advance_le behind
    simp only [List.length_cons] at hlen ⊢
    omega

theorem holds_expr (v : Condition → Bool) (he : e.IsExpr) : e.holds v = v e := by
  cases e <;> first | rfl | cases he

/-- A formula of expressions has the value of its condition. -/
theorem holds_conditionOf (v : Condition → Bool) {f : Formula Condition} (hf : f.Over Condition.IsExpr) :
    (conditionOf f).holds v = f.holds v := by
  induction f with
  | atom c => exact holds_expr v hf
  | join op left right ihl ihr =>
    rw [conditionOf, Formula.holds, ← ihl hf.1, ← ihr hf.2]
    cases op <;> rfl

end Expressions

/-! ## The parser on a chain -/

section Chain

variable {ts rest : List ScriptToken} {e : Condition} {links : List (Connective × Condition)}

/-- A round of the loop. -/
theorem conditionLoop_link {behind : List ScriptToken} {op : Connective} (hop : peek behind = keywordOf op) (fuel : ℕ)
    (c : Condition) : conditionLoop (fuel + 1) c behind =
      (parseSingleCondition (room behind) (advance behind).2).bind fun p =>
        conditionLoop fuel (joinConditions op c p.1) p.2 := by
  cases op with
  | and =>
    rw [keywordOf] at hop
    rw [conditionLoop, if_pos hop]
    rfl
  | or =>
    rw [keywordOf] at hop
    rw [conditionLoop, if_neg (by rw [hop]; simp), if_pos hop]
    rfl

/-- The loop joins what it has with one expression after the other. -/
theorem parseChain (h : ChainText ts e links rest) (hand : peek rest ≠ .keyword "and") (hor : peek rest ≠ .keyword "or")
    (join : Condition → Condition) (n : ℕ) {fuel : ℕ} (hfuel : links.length < fuel) :
    ((parseSingleCondition (n + 1) ts).bind fun p => conditionLoop fuel (join p.1) p.2) =
      .ok (links.foldl (fun c link => joinConditions link.1 c link.2) (join e), rest) := by
  induction h generalizing join n fuel with
  | expr hnot h =>
    obtain ⟨fuel, rfl⟩ := Nat.exists_eq_succ_of_ne_zero (Nat.ne_of_gt (Nat.zero_lt_of_lt hfuel))
    rw [parseSingleCondition_expr hnot n, ← room, h]
    show conditionLoop (fuel + 1) _ _ = _
    rw [conditionLoop, if_neg hand, if_neg hor]
    rfl
  | @link ts behind rest e f op links hnot h hop _ ih =>
    obtain ⟨fuel, rfl⟩ := Nat.exists_eq_succ_of_ne_zero (Nat.ne_of_gt (Nat.zero_lt_of_lt hfuel))
    rw [parseSingleCondition_expr hnot n, ← room, h]
    show conditionLoop (fuel + 1) _ _ = _
    rw [conditionLoop_link hop]
    exact ih hand hor _ _ (Nat.lt_of_succ_lt_succ hfuel)

theorem conditionOf_leftNested (e : Condition) (links : List (Connective × Condition)) :
    conditionOf (leftNested e links) = links.foldl (fun c link => joinConditions link.1 c link.2) e := by
  induction links using List.reverseRecOn with
  | nil => rfl
  | append_singleton links link ih =>
    rw [List.foldl_concat, ← ih, leftNested, List.foldl_concat]
    rfl

/-- **The parser nests a chain to the left.** -/
theorem parseConditions_chain (hts : Ends ts) (h : ChainText ts e links rest) (hand : peek rest ≠ .keyword "and")
    (hor : peek rest ≠ .keyword "or") : parseConditions ts = .ok (conditionOf (leftNested e links), rest) := by
  have hlength := h.length_lt hts
  rw [conditionOf_leftNested, parseConditions]
  exact parseChain h hand hor id (2 * ts.length + 1) (by unfold room; omega)

end Chain

/-- **When a condition means what the grammar says.** The tree of the parser has the value of the derivation under each
assignment to the expressions exactly if the ways to satisfy the two readings cover each other. When the first
expression does not occur again, all operators have to be the same. -/
theorem parseConditions_documented_iff {ts rest : List ScriptToken} {e : Condition}
    {links : List (Connective × Condition)} (hts : Ends ts) (h : ChainText ts e links rest)
    (hand : peek rest ≠ .keyword "and") (hor : peek rest ≠ .keyword "or") :
    ∃ c, parseConditions ts = .ok (c, rest) ∧
      ((∀ v, c.holds v = (documented e links).holds v) ↔
        (leftNested e links).Covers (rightNested e links) ∧ (rightNested e links).Covers (leftNested e links)) ∧
      (e ∉ links.map Prod.snd →
        ((∀ v, c.holds v = (documented e links).holds v) ↔ ∃ op, ∀ link ∈ links, link.1 = op)) := by
  obtain ⟨he, hlinks⟩ := h.isExpr
  have hvalues : (∀ v, (conditionOf (leftNested e links)).holds v = (documented e links).holds v) ↔
      ∀ v, (leftNested e links).holds v = (rightNested e links).holds v :=
    forall_congr' fun v => by
      rw [documented, holds_conditionOf v (leftNested_over he hlinks), holds_conditionOf v (rightNested_over he hlinks)]
  refine ⟨_, parseConditions_chain hts h hand hor, ?_, fun hfirst => ?_⟩
  · exact hvalues.trans Formula.holds_eq_iff_covers
  · exact hvalues.trans (leftNested_eq_rightNested_iff hfirst)

/-- `field == 1`. -/
def isOne (field : String) : Condition := .compare field .eq (.int 1)

/-- The tokens of `a == 1 or b == 1 and c == 1`. -/
def mixedChain : List ScriptToken :=
  [.identifier "a", .opEq, .intLit 1, .keyword "or", .identifier "b", .opEq, .intLit 1, .keyword "and",
    .identifier "c", .opEq, .intLit 1, .eof]

theorem chainText_mixedChain : ChainText mixedChain (isOne "a") [(.or, isOne "b"), (.and, isOne "c")] [.eof] := by
  have hfirst : parseSingleCondition (room mixedChain) mixedChain = .ok (isOne "a", mixedChain.drop 3) := rfl
  have hsecond : parseSingleCondition (room (mixedChain.drop 4)) (mixedChain.drop 4) =
      .ok (isOne "b", mixedChain.drop 7) := rfl
  have hthird : parseSingleCondition (room (mixedChain.drop 8)) (mixedChain.drop 8) = .ok (isOne "c", [.eof]) := rfl
  exact .link (by decide) hfirst rfl (.link (by decide) hsecond rfl (.expr (by decide) hthird))

theorem ends_mixedChain : Ends mixedChain := ⟨mixedChain.dropLast, rfl, by decide⟩

theorem mixedChain_documented_iff :
    ∃ c, parseConditions mixedChain = .ok (c, [.eof]) ∧
      ((∀ v, c.holds v = (documented (isOne "a") [(.or, isOne "b"), (.and, isOne "c")]).holds v) ↔
        (leftNested (isOne "a") [(.or, isOne "b"), (.and, isOne "c")]).Covers
            (rightNested (isOne "a") [(.or, isOne "b"), (.and, isOne "c")]) ∧
          (rightNested (isOne "a") [(.or, isOne "b"), (.and, isOne "c")]).Covers
            (leftNested (isOne "a") [(.or, isOne "b"), (.and, isOne "c")])) ∧
      (isOne "a" ∉ [((.or : Connective), isOne "b"), (.and, isOne "c")].map Prod.snd →
        ((∀ v, c.holds v = (documented (isOne "a") [(.or, isOne "b"), (.and, isOne "c")]).holds v) ↔
          ∃ op, ∀ link ∈ [((.or : Connective), isOne "b"), (.and, isOne "c")], link.1 = op)) :=
  parseConditions_documented_iff ends_mixedChain chainText_mixedChain (by decide) (by decide)

/-- The truth values when `a` is one and no other field is. -/
def onlyA : Condition → Bool
  | .compare field _ _ => field = "a"
  | _ => false

/-- With only the first comparison true, the grammar's condition holds and the parser's does not. -/
theorem mixedChain_diverges :
    tokenize "a == 1 or b == 1 and c == 1".toList = .ok mixedChain ∧
      ∃ c, parseConditions mixedChain = .ok (c, [.eof]) ∧ c.holds onlyA = false ∧
        (documented (isOne "a") [(.or, isOne "b"), (.and, isOne "c")]).holds onlyA = true :=
  ⟨rfl, _, rfl, rfl, rfl⟩

end ThorFirewall.Script
