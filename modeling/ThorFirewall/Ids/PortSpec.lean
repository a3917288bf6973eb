import Mathlib
import ThorFirewall.Ids.Matcher
import ThorFirewall.Lib.TextSearch

/-!
# Port specifications (`ids/matcher.rs`)

A port specification is read by its shape: a negation by what is behind its sign, a range at its first colon, and a
group as what stands between its commas and is a port. Ranges, negations and groups within a group are no ports, and the
commas of an inner group are those of the outer one.

- `splitOn_text`: the ports between the commas of a printed specification;
- `parse_text`: what is read from it;
- `port_matches_iff`: when this is the set that it denotes.
-/

namespace ThorFirewall.Ids

open Text TextSearch

/-- Port spec matching. -/
def portMatches (rulePort : List Char) (actual : UInt16) : Bool := (PortSpec.parse rulePort).matches actual.toNat

/-! ## Specifications -/

mutual

/-- `any`, `80`, `80:90`, `1024:`, `:1024`, `!80`, `[80, 443]`. -/
inductive Spec
  | any
  | port (p : UInt16)
  | range (lo hi : UInt16)
  | from (lo : UInt16)
  | upTo (hi : UInt16)
  | negated (inner : Spec)
  | group (members : Members)

/-- The members of a group, with the number of spaces behind each comma. -/
inductive Members
  | single (member : Spec)
  | cons (member : Spec) (spaces : ℕ) (rest : Members)

end

def digits (p : UInt16) : List Char := Nat.toDigits 10 p.toNat

mutual

def Spec.text : Spec → List Char
  | .any => "any".toList
  | .port p => digits p
  | .range lo hi => digits lo ++ ':' :: digits hi
  | .from lo => digits lo ++ [':']
  | .upTo hi => ':' :: digits hi
  | .negated inner => '!' :: inner.text
  | .group members => '[' :: (members.text ++ [']'])

def Members.text : Members → List Char
  | .single member => member.text
  | .cons member spaces rest => member.text ++ ',' :: (List.replicate spaces ' ' ++ rest.text)

end

def Spec.positive : Spec → Bool
  | .negated _ => false
  | _ => true

mutual

/-- The port is in the set of the specification. -/
def Spec.denotes : Spec → UInt16 → Bool
  | .any, _ => true
  | .port p, q => q = p
  | .range lo hi, q => lo ≤ q && q ≤ hi
  | .from lo, q => lo ≤ q
  | .upTo hi, q => q ≤ hi
  | .negated inner, q => !inner.denotes q
  | .group members, q => members.includes q && !members.excludes q

/-- The port is in a positive member. -/
def Members.includes : Members → UInt16 → Bool
  | .single member, q => member.positive && member.denotes q
  | .cons member _ rest, q => (member.positive && member.denotes q) || rest.includes q

/-- The port is in what a member negates. -/
def Members.excludes : Members → UInt16 → Bool
  | .single member, q => !member.positive && !member.denotes q
  | .cons member _ rest, q => (!member.positive && !member.denotes q) || rest.excludes q

end

mutual

/-- The ports that have only spaces between them and the commas, or the brackets of the outer group, around them; a
sign or bracket in front of the specification, or one behind it, keeps its first or last port from this. -/
def Spec.alone : Spec → Bool → Bool → List UInt16
  | .port p, front, behind => if front || behind then [] else [p]
  | .negated inner, _, behind => inner.alone true behind
  | .group members, _, _ => members.alone true true
  | _, _, _ => []

def Members.alone : Members → Bool → Bool → List UInt16
  | .single member, front, behind => member.alone front behind
  | .cons member _ rest, front, behind => member.alone front false ++ rest.alone false behind

end

/-- Below its negations the specification is no group, or one whose set is that of the ports that stand alone in it. -/
def Spec.Plain : Spec → Prop
  | .negated inner => inner.Plain
  | .group members => ∀ q, (Spec.group members).denotes q = true ↔ q ∈ members.alone false false
  | _ => True

/-! ## Commas -/

/-- What is read between two commas of a group. -/
def number (piece : List Char) : Option ℕ := parseUnsigned 16 (trim piece)

/-- The text has a character that is in no number. -/
def Stops (u : List Char) : Prop := ∃ c ∈ u, c.isDigit = false ∧ c ≠ '+' ∧ isWhitespace c = false

/-- What stands at one side of a specification, up to the next comma: a sign or bracket, or only spaces. -/
def Margin (stops : Bool) (u : List Char) : Prop := ',' ∉ u ∧ if stops then Stops u else u.all isWhitespace = true

theorem Stops.append_left {u : List Char} (h : Stops u) (v : List Char) : Stops (u ++ v) := by
  obtain ⟨c, hc, hstop⟩ := h
  exact ⟨c, List.mem_append_left v hc, hstop⟩

theorem Stops.append_right {v : List Char} (h : Stops v) (u : List Char) : Stops (u ++ v) := by
  obtain ⟨c, hc, hstop⟩ := h
  exact ⟨c, List.mem_append_right u hc, hstop⟩

theorem number_of_stops {u : List Char} (h : Stops u) : number u = none := by
  obtain ⟨c, hc, hdigit, hplus, hwhite⟩ := h
  exact parseUnsigned_eq_none hdigit hplus (mem_trim hwhite hc)

theorem digit_of_mem {c : Char} {p : UInt16} (h : c ∈ digits p) : c.isDigit = true :=
  List.all_eq_true.1 (all_isDigit_toDigits _) c h

theorem digits_ne_nil (p : UInt16) : digits p ≠ [] := Nat.toDigits_ne_nil

theorem number_digits (p : UInt16) : parseUnsigned 16 (digits p) = some p.toNat := parseUnsigned_toDigits p.toNat_lt

theorem number_port {u v : List Char} (hu : Margin false u) (hv : Margin false v) (p : UInt16) :
    number (u ++ digits p ++ v) = some p.toNat := by
  rw [number, trim_append hu.2 hv.2, number_digits]
  · exact fun c hc => isWhitespace_digit (digit_of_mem (List.mem_of_head? hc))
  · exact fun c hc => isWhitespace_digit (digit_of_mem (List.mem_of_getLast? hc))

theorem comma_notMem_digits (p : UInt16) : ',' ∉ digits p := not_mem_digits rfl _

variable {front behind : Bool} {u v : List Char}

/-- A text without commas is one piece. -/
theorem splitOn_piece {t : List Char} (ht : ',' ∉ t) (hu : Margin front u) (hv : Margin behind v) :
    ((u ++ t ++ v).splitOn ',').filterMap number = (number (u ++ t ++ v)).toList := by
  have hnot : ',' ∉ u ++ t ++ v := by
    rw [List.mem_append, List.mem_append]
    exact not_or.2 ⟨not_or.2 ⟨hu.1, ht⟩, hv.1⟩
  rw [List.splitOn_eq_singleton hnot, List.filterMap_cons, List.filterMap_nil]
  cases number (u ++ t ++ v) <;> rfl

/-- A text without commas that is no number. -/
theorem splitOn_stops {t : List Char} (ht : ',' ∉ t) (hstops : Stops t) (hu : Margin front u) (hv : Margin behind v) :
    ((u ++ t ++ v).splitOn ',').filterMap number = [] := by
  rw [splitOn_piece ht hu hv, number_of_stops ((hstops.append_right u).append_left v)]
  rfl

theorem Margin.sign (hu : Margin front u) {c : Char} (hc : c = '!' ∨ c = '[') : Margin true (u ++ [c]) := by
  refine ⟨?_, c, List.mem_append_right _ (List.mem_singleton_self _), ?_⟩
  · rw [List.mem_append, List.mem_singleton]
    rintro (h | h)
    · exact hu.1 h
    · rcases hc with rfl | rfl <;> cases h
  · rcases hc with rfl | rfl <;> decide

theorem Margin.bracket (hv : Margin behind v) : Margin true (']' :: v) := by
  refine ⟨fun h => ?_, ']', List.mem_cons_self, by decide⟩
  rcases List.mem_cons.1 h with h | h
  · cases h
  · exact hv.1 h

theorem Margin.spaces (n : ℕ) : Margin false (List.replicate n ' ') := by
  refine ⟨fun h => ?_, List.all_eq_true.2 fun c hc => ?_⟩
  · cases List.eq_of_mem_replicate h
  · rw [List.eq_of_mem_replicate hc]
    rfl

theorem stops_of_mem {t : List Char} {c : Char} (hc : c ∈ t)
    (hstop : c.isDigit = false ∧ c ≠ '+' ∧ isWhitespace c = false) : Stops t :=
  ⟨c, hc, hstop⟩

mutual

/-- **The ports between the commas** of a printed specification are those that stand alone. -/
theorem Spec.splitOn_text (s : Spec) {front behind : Bool} {u v : List Char} (hu : Margin front u)
    (hv : Margin behind v) :
    ((u ++ s.text ++ v).splitOn ',').filterMap number = (s.alone front behind).map UInt16.toNat := by
  match s with
  | .any => exact splitOn_stops (by decide) (stops_of_mem (c := 'a') (by decide) (by decide)) hu hv
  | .port p =>
    rw [Spec.text, splitOn_piece (comma_notMem_digits p) hu hv, Spec.alone]
    cases front with
    | true =>
      rw [number_of_stops ((Stops.append_left hu.2 _).append_left v)]
      rfl
    | false =>
      cases behind with
      | true =>
        rw [number_of_stops (Stops.append_right hv.2 _)]
        rfl
      | false =>
        rw [number_port hu hv]
        rfl
  | .range lo hi =>
    refine splitOn_stops ?_ (stops_of_mem (c := ':') ?_ (by decide)) hu hv
    · rw [Spec.text, List.mem_append, List.mem_cons]
      exact not_or.2 ⟨comma_notMem_digits lo, not_or.2 ⟨by decide, comma_notMem_digits hi⟩⟩
    · exact List.mem_append_right _ List.mem_cons_self
  | .from lo =>
    refine splitOn_stops ?_ (stops_of_mem (c := ':') ?_ (by decide)) hu hv
    · rw [Spec.text, List.mem_append, List.mem_singleton]
      exact not_or.2 ⟨comma_notMem_digits lo, by decide⟩
    · exact List.mem_append_right _ List.mem_cons_self
  | .upTo hi =>
    refine splitOn_stops ?_ (stops_of_mem (c := ':') ?_ (by decide)) hu hv
    · rw [Spec.text, List.mem_cons]
      exact not_or.2 ⟨by decide, comma_notMem_digits hi⟩
    · exact List.mem_cons_self
  | .negated inner =>
    have h := inner.splitOn_text (hu.sign (Or.inl rfl)) hv
    rwa [List.append_assoc u ['!']] at h
  | .group members =>
    have h := members.splitOn_text (hu.sign (Or.inr rfl)) hv.bracket
    have htext : u ++ (Spec.group members).text ++ v = u ++ ['['] ++ members.text ++ ']' :: v := by
      simp [Spec.text]
    rwa [← htext] at h

theorem Members.splitOn_text (ms : Members) {front behind : Bool} {u v : List Char} (hu : Margin front u)
    (hv : Margin behind v) :
    ((u ++ ms.text ++ v).splitOn ',').filterMap number = (ms.alone front behind).map UInt16.toNat := by
  match ms with
  | .single member => exact member.splitOn_text hu hv
  | .cons member spaces rest =>
    have hnothing : Margin false [] := ⟨List.not_mem_nil, rfl⟩
    have hfirst := member.splitOn_text hu hnothing
    have hrest := rest.splitOn_text (Margin.spaces spaces) hv
    have htext : u ++ (Members.cons member spaces rest).text ++ v =
        u ++ member.text ++ [] ++ ',' :: (List.replicate spaces ' ' ++ rest.text ++ v) := by
      simp [Members.text]
    rw [htext, List.splitOn_append_cons_self, List.filterMap_append, hfirst, hrest, Members.alone, List.map_append]

end

/-! ## Reading -/

/-- What is read from the text of a specification. -/
def Spec.parsed : Spec → PortSpec
  | .any => .any
  | .port p => .single p.toNat
  | .range lo hi => .range lo.toNat hi.toNat
  | .from lo => .range lo.toNat 65535
  | .upTo hi => .range 0 hi.toNat
  | .negated inner => .negated inner.parsed
  | .group members => .group ((members.alone false false).map UInt16.toNat)

/-- The first and the last character of a text are no white space. -/
def Solid (t : List Char) : Prop := (∀ c ∈ t.head?, isWhitespace c = false) ∧ ∀ c ∈ t.getLast?, isWhitespace c = false

theorem solid_digits (p : UInt16) : Solid (digits p) :=
  ⟨fun _ hc => isWhitespace_digit (digit_of_mem (List.mem_of_head? hc)),
    fun _ hc => isWhitespace_digit (digit_of_mem (List.mem_of_getLast? hc))⟩

theorem solid_singleton {c : Char} (hc : isWhitespace c = false) : Solid [c] :=
  ⟨fun _ h => Option.some.inj h ▸ hc, fun _ h => Option.some.inj h ▸ hc⟩

theorem Solid.append {t t' : List Char} (h : Solid t) (h' : Solid t') (hne : t ≠ []) (hne' : t' ≠ []) :
    Solid (t ++ t') := by
  refine ⟨fun c hc => h.1 c ?_, fun c hc => h'.2 c ?_⟩
  · rwa [List.head?_append_of_ne_nil _ hne] at hc
  · rwa [List.getLast?_append_of_ne_nil _ hne'] at hc

theorem Spec.text_ne_nil (s : Spec) : s.text ≠ [] := by
  cases s with
  | port p => exact digits_ne_nil p
  | _ => simp [Spec.text]

theorem Spec.solid_text (s : Spec) : Solid s.text := by
  match s with
  | .any => exact ⟨fun c hc => Option.some.inj hc ▸ rfl, fun c hc => Option.some.inj hc ▸ rfl⟩
  | .port p => exact solid_digits p
  | .range lo hi =>
    refine (solid_digits lo).append ?_ (digits_ne_nil lo) (List.cons_ne_nil _ _)
    exact (solid_singleton (c := ':') rfl).append (solid_digits hi) (List.cons_ne_nil _ _) (digits_ne_nil hi)
  | .from lo =>
    exact (solid_digits lo).append (solid_singleton (c := ':') rfl) (digits_ne_nil lo) (List.cons_ne_nil _ _)
  | .upTo hi =>
    exact (solid_singleton (c := ':') rfl).append (solid_digits hi) (List.cons_ne_nil _ _) (digits_ne_nil hi)
  | .negated inner =>
    exact (solid_singleton (c := '!') rfl).append inner.solid_text (List.cons_ne_nil _ _) inner.text_ne_nil
  | .group members =>
    rw [Spec.text, ← List.cons_append]
    refine ⟨fun c hc => Option.some.inj hc ▸ rfl, fun c hc => ?_⟩
    rw [List.getLast?_concat] at hc
    exact Option.some.inj hc ▸ rfl

theorem Spec.trim_text (s : Spec) : trim s.text = s.text := trim_self s.solid_text.1 s.solid_text.2

/-- A text that is no group, negation or variable is a range if it has a colon, and a port or any port otherwise. -/
theorem parseFrom_plain {t : List Char} (fuel : ℕ) (htrim : trim t = t) (hany : t ≠ "any".toList) (hne : t ≠ [])
    (hhead : ∀ c ∈ t.head?, c ≠ '$' ∧ c ≠ '!' ∧ c ≠ '[') :
    PortSpec.parseFrom (fuel + 1) t =
      if ':' ∈ t then .range ((parseUnsigned 16 (t.takeWhile (· ≠ ':'))).getD 0)
        ((parseUnsigned 16 (t.dropWhile (· ≠ ':')).tail).getD 65535)
      else match parseUnsigned 16 t with
        | some port => .single port
        | none => .any := by
  have hnot {c : Char} (hc : c = '$' ∨ c = '!' ∨ c = '[') : ¬ t.head? = some c := by
    intro h
    obtain ⟨hdollar, hbang, hbracket⟩ := hhead c h
    rcases hc with rfl | rfl | rfl <;> contradiction
  have hgroup : ¬ (t.head? = some '[' ∧ t.getLast? = some ']') := fun h => hnot (Or.inr (Or.inr rfl)) h.1
  rw [PortSpec.parseFrom, htrim, if_neg (not_or.2 ⟨hany, hne⟩), if_neg (hnot (Or.inl rfl)),
    if_neg (hnot (Or.inr (Or.inl rfl)))]
  exact if_neg hgroup

theorem ne_any_of_mem {t : List Char} {c : Char} (hc : c ∈ t) (hany : c ∉ "any".toList) : t ≠ "any".toList :=
  fun heq => hany (heq ▸ hc)

theorem plain_head {t : List Char} (h : ∀ c ∈ t.head?, c.isDigit = true ∨ c = ':') :
    ∀ c ∈ t.head?, c ≠ '$' ∧ c ≠ '!' ∧ c ≠ '[' := by
  intro c hc
  rcases h c hc with hdigit | rfl
  · refine ⟨?_, ?_, ?_⟩ <;> rintro rfl <;> cases hdigit
  · decide

/-- A range is read by its first colon. -/
theorem parseFrom_range {l r : List Char} (fuel : ℕ) (hl : l.all Char.isDigit = true)
    (hsolid : Solid (l ++ ':' :: r)) : PortSpec.parseFrom (fuel + 1) (l ++ ':' :: r) =
      .range ((parseUnsigned 16 l).getD 0) ((parseUnsigned 16 r).getD 65535) := by
  have hcolon : ':' ∈ l ++ ':' :: r := List.mem_append_right _ List.mem_cons_self
  have hdigit := List.all_eq_true.1 hl
  have hfront : ∀ c ∈ l, decide (c ≠ ':') = true := by
    intro c hc
    refine decide_eq_true ?_
    rintro rfl
    cases hdigit ':' hc
  have hhead : ∀ c ∈ (l ++ ':' :: r).head?, c.isDigit = true ∨ c = ':' := by
    intro c hc
    cases l with
    | nil => exact Or.inr (Option.some.inj hc).symm
    | cons d l => exact Or.inl (Option.some.inj hc ▸ hdigit d List.mem_cons_self)
  rw [parseFrom_plain fuel (trim_self hsolid.1 hsolid.2) (ne_any_of_mem hcolon (by decide)) (List.ne_nil_of_mem hcolon)
    (plain_head hhead), if_pos hcolon, List.takeWhile_append_of_pos hfront, List.dropWhile_append_of_pos hfront,
    List.takeWhile_cons_of_neg (by decide), List.dropWhile_cons_of_neg (by decide), List.append_nil, List.tail_cons]

/-- **What is read from a printed specification.** -/
theorem Spec.parse_text (s : Spec) {fuel : ℕ} (h : s.text.length ≤ fuel) :
    PortSpec.parseFrom (fuel + 1) s.text = s.parsed := by
  have hall (p : UInt16) : (digits p).all Char.isDigit = true := all_isDigit_toDigits _
  match s with
  | .any => rfl
  | .port p =>
    have hcolon : ':' ∉ digits p := not_mem_digits rfl _
    have hhead : ∀ c ∈ (digits p).head?, c.isDigit = true ∨ c = ':' :=
      fun c hc => Or.inl (digit_of_mem (List.mem_of_head? hc))
    have hany : digits p ≠ "any".toList := by
      intro heq
      have := digit_of_mem (heq ▸ List.mem_cons_self : 'a' ∈ digits p)
      cases this
    rw [Spec.text, parseFrom_plain fuel (trim_self (solid_digits p).1 (solid_digits p).2) hany (digits_ne_nil p)
      (plain_head hhead), if_neg hcolon, number_digits]
    rfl
  | .range lo hi =>
    rw [Spec.text, parseFrom_range fuel (hall lo) (Spec.range lo hi).solid_text, number_digits, number_digits]
    rfl
  | .from lo =>
    rw [Spec.text, parseFrom_range fuel (hall lo) (Spec.from lo).solid_text, number_digits]
    rfl
  | .upTo hi =>
    have h := parseFrom_range (l := []) fuel rfl (Spec.upTo hi).solid_text
    rw [number_digits] at h
    exact h
  | .negated inner =>
    have hlength : inner.text.length + 1 ≤ fuel := h
    obtain ⟨fuel, rfl⟩ := Nat.exists_eq_add_of_le' (Nat.le_of_add_left_le hlength)
    have hany : (Spec.negated inner).text ≠ "any".toList := fun heq => by cases congrArg List.head? heq
    have hdollar : ¬ (Spec.negated inner).text.head? = some '$' := fun heq => by cases heq
    have hbang : (Spec.negated inner).text.head? = some '!' := rfl
    rw [PortSpec.parseFrom, Spec.trim_text, if_neg (not_or.2 ⟨hany, Spec.text_ne_nil _⟩), if_neg hdollar, if_pos hbang,
      Spec.text, List.tail_cons, inner.parse_text (Nat.le_of_succ_le_succ hlength)]
    rfl
  | .group members =>
    have hany : (Spec.group members).text ≠ "any".toList := fun heq => by cases congrArg List.head? heq
    have hsign {c : Char} (hc : '[' ≠ c) : ¬ (Spec.group members).text.head? = some c :=
      fun heq => hc (Option.some.inj heq)
    have hbrackets : (Spec.group members).text.head? = some '[' ∧ (Spec.group members).text.getLast? = some ']' := by
      refine ⟨rfl, ?_⟩
      rw [Spec.text, ← List.cons_append, List.getLast?_concat]
    have hnothing : Margin false [] := ⟨List.not_mem_nil, rfl⟩
    have hports := members.splitOn_text hnothing hnothing
    rw [List.nil_append, List.append_nil] at hports
    rw [PortSpec.parseFrom, Spec.trim_text, if_neg (not_or.2 ⟨hany, Spec.text_ne_nil _⟩), if_neg (hsign (by decide)),
      if_neg (hsign (by decide)), if_pos hbrackets, Spec.text, List.tail_cons, List.dropLast_concat]
    exact congrArg PortSpec.group hports

/-! ## Matching -/

theorem matches_group (ports : List UInt16) (q : UInt16) :
    (PortSpec.group (ports.map UInt16.toNat)).matches q.toNat = true ↔ q ∈ ports := by
  rw [PortSpec.matches, List.contains_iff_mem, List.mem_map]
  constructor
  · rintro ⟨p, hp, heq⟩
    exact UInt16.toNat_inj.1 heq ▸ hp
  · exact fun hq => ⟨q, hq, rfl⟩

/-- Every specification matches its set exactly if it is plain. -/
theorem Spec.matches_iff (s : Spec) : (∀ q : UInt16, s.parsed.matches q.toNat = s.denotes q) ↔ s.Plain := by
  match s with
  | .any => exact iff_of_true (fun _ => rfl) trivial
  | .port p =>
    refine iff_of_true (fun q => ?_) trivial
    rw [Spec.parsed, Spec.denotes, PortSpec.matches]
    exact decide_eq_decide.2 (UInt16.toNat_inj.trans eq_comm)
  | .range lo hi =>
    refine iff_of_true (fun q => ?_) trivial
    rw [Spec.parsed, Spec.denotes, PortSpec.matches]
    exact congrArg₂ (· && ·) (decide_eq_decide.2 UInt16.le_iff_toNat_le.symm)
      (decide_eq_decide.2 UInt16.le_iff_toNat_le.symm)
  | .from lo =>
    refine iff_of_true (fun q => ?_) trivial
    have hq : q.toNat ≤ 65535 := Nat.le_of_lt_succ q.toNat_lt
    rw [Spec.parsed, Spec.denotes, PortSpec.matches, decide_eq_true hq, Bool.and_true]
    exact decide_eq_decide.2 UInt16.le_iff_toNat_le.symm
  | .upTo hi =>
    refine iff_of_true (fun q => ?_) trivial
    rw [Spec.parsed, Spec.denotes, PortSpec.matches, decide_eq_true (Nat.zero_le _), Bool.true_and]
    exact decide_eq_decide.2 UInt16.le_iff_toNat_le.symm
  | .negated inner =>
    rw [Spec.Plain, ← inner.matches_iff]
    refine forall_congr' fun q => ?_
    rw [Spec.parsed, Spec.denotes, PortSpec.matches, Bool.not_inj_iff]
  | .group members =>
    rw [Spec.Plain]
    refine forall_congr' fun q => ?_
    rw [Spec.parsed, Bool.eq_iff_iff, matches_group]
    exact Iff.comm

/-- **A port matches a printed specification exactly if it is in its set**, for all ports, if and only if the
specification is plain. -/
theorem port_matches_iff (s : Spec) : (∀ q, portMatches s.text q = s.denotes q) ↔ s.Plain := by
  rw [← s.matches_iff]
  refine forall_congr' fun q => ?_
  rw [portMatches, PortSpec.parse, s.parse_text (Nat.le_refl _)]

/-- A range within a group is dropped. -/
theorem range_dropped : ¬ ∀ (s : Spec) (q : UInt16), portMatches s.text q = s.denotes q := by
  intro h
  have hrange := h (.group (.cons (.port 80) 0 (.single (.range 1000 2000)))) 1500
  rw [portMatches, PortSpec.parse, Spec.parse_text _ (Nat.le_refl _)] at hrange
  exact absurd hrange (by decide)

end ThorFirewall.Ids
