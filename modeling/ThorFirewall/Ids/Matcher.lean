import Mathlib
import ThorFirewall.Ids.RuleParser

/-!
# The rule matcher of the intrusion detection (`ids/matcher.rs`)

A rule is compiled into a matcher, which looks at the protocol and the destination port of an event, finds the content
patterns in the payload, and applies the pcre patterns. The search for the content patterns and the regular expressions
are those of libraries, and parameters here.

- `find_pattern`: of a matched payload, each kept content pattern is found in it.
-/

namespace ThorFirewall.Ids

open Text

/-! ## Ports -/

inductive PortSpec
  | any
  | single (port : ℕ)
  | range (lo hi : ℕ)
  | group (ports : List ℕ)
  | negated (inner : PortSpec)
  /-- A variable, such as `$HTTP_PORTS`. -/
  | variable
  deriving Repr

namespace PortSpec

/-- Each negation takes a character, so that the length of the text is fuel enough. -/
def parseFrom : ℕ → List Char → PortSpec
  | 0, _ => .any
  | fuel + 1, s =>
    let s := trim s
    if s = "any".toList ∨ s = [] then .any
    else if s.head? = some '$' then .variable
    else if s.head? = some '!' then .negated (parseFrom fuel s.tail)
    else if s.head? = some '[' ∧ s.getLast? = some ']' then
      .group ((s.tail.dropLast.splitOn ',').filterMap fun p => parseUnsigned 16 (trim p))
    else if ':' ∈ s then
      .range ((parseUnsigned 16 (s.takeWhile (· ≠ ':'))).getD 0)
        ((parseUnsigned 16 (s.dropWhile (· ≠ ':')).tail).getD 65535)
    else match parseUnsigned 16 s with
      | some port => .single port
      | none => .any

def parse (s : List Char) : PortSpec := parseFrom (s.length + 1) s

def «matches» : PortSpec → ℕ → Bool
  | .any, _ => true
  | .variable, _ => true
  | .single p, port => p = port
  | .range lo hi, port => lo ≤ port && port ≤ hi
  | .group ports, port => ports.contains port
  | .negated inner, port => !inner.matches port

end PortSpec

/-! ## Events -/

/-- An event, as the matcher sees it. -/
inductive IdsEvent
  | network (dstPort : ℕ) (protocol : ℕ)
  | tls (dstPort : ℕ)
  | dns
  | other
  deriving DecidableEq, Repr

/-! ## The matcher -/

structure IdsMatcher where
  /-- `none` where the expression did not compile. -/
  pcre : List (Option (List Char → Bool))
  /-- The indices of the patterns that are found in a payload, if the automaton was built. -/
  aho : Option (List Char → List ℕ)
  contentCount : ℕ
  dstPortSpec : PortSpec
  protocol : IdsProtocol
  action : IdsAction
  priority : ℕ
  msg : List Char
  sid : ℕ
  rev : ℕ
  classtype : Option (List Char)
  metadata : List (List Char)

namespace IdsMatcher

section Compile

variable (regex : List Char → Option (List Char → Bool)) (ahoCorasick : List (List Char) → Option (List Char → List ℕ))

/-- Compile a rule into a matcher. -/
def compile (rule : IdsRule) : IdsMatcher where
  pcre := rule.pcrePatterns.map regex
  aho := if rule.contentPatterns ≠ [] then ahoCorasick rule.contentPatterns else none
  contentCount := rule.contentPatterns.length
  dstPortSpec := .parse rule.dstPort
  protocol := rule.protocol
  action := rule.action
  priority := rule.priority
  msg := rule.msg
  sid := rule.sid
  rev := rule.rev
  classtype := rule.classtype
  metadata := rule.metadata

end Compile

def protocolMatches (m : IdsMatcher) (event : IdsEvent) : Bool :=
  match m.protocol, event with
  | .any, _ => true
  | .ip, _ => true
  | .tcp, .network _ protocol => protocol = 6
  | .tcp, .tls _ => true
  | .udp, .network _ protocol => protocol = 17
  | .dns, .dns => true
  | .tls, .tls _ => true
  | .http, .network dstPort _ => dstPort = 80 || dstPort = 8080 || dstPort = 3000
  | .ssh, .network dstPort _ => dstPort = 22
  | .ftp, .network dstPort _ => dstPort = 21 || dstPort = 20
  | .smtp, .network dstPort _ => dstPort = 25 || dstPort = 587 || dstPort = 465
  | .icmp, .network _ protocol => protocol = 1
  | _, _ => false

def portMatches (m : IdsMatcher) : IdsEvent → Bool
  | .network dstPort _ => m.dstPortSpec.matches dstPort
  | .tls dstPort => m.dstPortSpec.matches dstPort
  | _ => true

/-- All content patterns are found: as many distinct ones as there are. -/
def contentMatches (m : IdsMatcher) (payload : List Char) : Bool :=
  if 0 < m.contentCount then
    match m.aho with
    | some find => decide (m.contentCount ≤ (find payload).dedup.length)
    | none => false
  else true

/-- All expressions match but for those that did not compile. -/
def pcreMatches (m : IdsMatcher) (payload : List Char) : Bool :=
  m.pcre.all fun
    | some isMatch => isMatch payload
    | none => true

def «matches» (m : IdsMatcher) (event : IdsEvent) (payload : List Char) : Bool :=
  m.protocolMatches event && m.portMatches event && m.contentMatches payload && m.pcreMatches payload

end IdsMatcher

/-! ## Found patterns -/

/-- The case of ASCII letters is ignored. -/
def lowerByte (b : UInt8) : UInt8 := if 65 ≤ b ∧ b ≤ 90 then b + 32 else b

/-- The bytes occur in the text, but for the case of ASCII letters. -/
def Occurs (pattern text : List UInt8) : Prop := pattern.map lowerByte <:+: text.map lowerByte

instance (pattern text : List UInt8) : Decidable (Occurs pattern text) := inferInstanceAs (Decidable (_ <:+: _))

/-- Every match of an automaton is an occurrence of one of its patterns. -/
def FindsOccurrences (ahoCorasick : List (List Char) → Option (List Char → List ℕ)) : Prop :=
  ∀ patterns find, ahoCorasick patterns = some find → ∀ payload, ∀ i ∈ find payload,
    ∃ p, patterns[i]? = some p ∧ Occurs (bytes p) (bytes payload)

/-- As many distinct indices as there are: each of them is there. -/
theorem mem_of_le_dedup {found : List ℕ} {n : ℕ} (hlt : ∀ i ∈ found, i < n) (hle : n ≤ found.dedup.length) {i : ℕ}
    (hi : i < n) : i ∈ found := by
  have hsub : found.toFinset ⊆ Finset.range n := by
    intro j hj
    exact Finset.mem_range.2 (hlt j (List.mem_toFinset.1 hj))
  have hcard : (Finset.range n).card ≤ found.toFinset.card := by
    rw [Finset.card_range, List.card_toFinset]
    exact hle
  have heq := Finset.eq_of_subset_of_card_le hsub hcard
  exact List.mem_toFinset.1 (heq ▸ Finset.mem_range.2 hi)

/-- **Of a matched payload, each kept content pattern is found in it.** -/
theorem find_pattern {regex : List Char → Option (List Char → Bool)}
    {ahoCorasick : List (List Char) → Option (List Char → List ℕ)} (haho : FindsOccurrences ahoCorasick) {rule : IdsRule}
    {event : IdsEvent} {payload : List Char}
    (hmatch : (IdsMatcher.compile regex ahoCorasick rule).matches event payload = true) {p : List Char}
    (hp : p ∈ rule.contentPatterns) : Occurs (bytes p) (bytes payload) := by
  have hcontent : (IdsMatcher.compile regex ahoCorasick rule).contentMatches payload = true := by
    simp only [IdsMatcher.matches, Bool.and_eq_true] at hmatch
    exact hmatch.1.2
  have hne : rule.contentPatterns ≠ [] := List.ne_nil_of_mem hp
  unfold IdsMatcher.contentMatches IdsMatcher.compile at hcontent
  dsimp only at hcontent
  rw [if_pos (List.length_pos_of_mem hp), if_pos hne] at hcontent
  cases hbuild : ahoCorasick rule.contentPatterns with
  | none => simp [hbuild] at hcontent
  | some find =>
    simp only [hbuild, decide_eq_true_eq] at hcontent
    have hfound := haho _ _ hbuild payload
    obtain ⟨i, hi, hget⟩ := List.mem_iff_getElem.1 hp
    have hlt : ∀ j ∈ find payload, j < rule.contentPatterns.length := by
      intro j hj
      obtain ⟨q, hq, -⟩ := hfound j hj
      exact (List.getElem?_eq_some_iff.1 hq).1
    obtain ⟨q, hq, hoccurs⟩ := hfound i (mem_of_le_dedup hlt hcontent hi)
    rw [List.getElem?_eq_getElem hi, hget, Option.some.injEq] at hq
    exact hq ▸ hoccurs

end ThorFirewall.Ids
