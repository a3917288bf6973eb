import ThorFirewall.Script.Runtime

/-!
# Searching the payload (`thor-script/src/runtime.rs`)

The payload is searched as a text. One that is not UTF-8 is searched as the empty text.

- `Literal`: what the regex crate does with a word;
- `fires_word`: when a rule that searches for a word matches;
- `reports_word_iff`: when that is whether the word's bytes are in the payload.
-/

namespace ThorFirewall.Script

open Text Utf8

/-- Letters, digits and underscores, of ASCII. -/
def IsWord (word : String) : Prop := word ≠ "" ∧ ∀ c ∈ word.toList, wordChar c = true

/-- The word as a pattern matches the texts that have it in them. -/
def Literal (crate : RegexCrate) (word : String) : Prop :=
  ∃ re, crate.new word = some re ∧ ∀ text, crate.isMatch re text = decide (word.toList <:+: text.toList)

theorem isAscii_word {word : String} (h : IsWord word) : IsAscii word.toList := by
  intro c hc
  have hchar := h.2 c hc
  simp only [wordChar, Char.isAlphanum, Char.isAlpha, Char.isUpper, Char.isLower, Char.isDigit, Bool.or_eq_true,
    Bool.and_eq_true, decide_eq_true_eq] at hchar
  rcases hchar with ((⟨_, h⟩ | ⟨_, h⟩) | ⟨_, h⟩) | rfl
  · exact lt_of_le_of_lt (UInt32.le_iff_toNat_le.1 h) (by decide)
  · exact lt_of_le_of_lt (UInt32.le_iff_toNat_le.1 h) (by decide)
  · exact lt_of_le_of_lt (UInt32.le_iff_toNat_le.1 h) (by decide)
  · decide

section Search

variable {crate : RegexCrate} {rule : Rule} {word : String} {ctx : ExecutionContext}

/-- A rule for a word matches when the text of the payload has the word in it. -/
theorem fires_word (hcrate : Literal crate word) (henabled : rule.enabled = true)
    (hevent : matchesEvent rule.eventType ctx.eventType = true)
    (hcondition : rule.condition = .payloadMatch word false) :
    fires (CompiledRule.new crate rule) ctx = decide (word.toList <:+: (payloadText ctx.payload).toList) := by
  obtain ⟨re, hnew, hmatch⟩ := hcrate
  have hcached : evalCondition crate ctx (collectRegexes crate rule.condition []) rule.condition =
      evalDirect crate ctx rule.condition := evalCondition_of_cached fun _ => lookup_own_regex
  have hdirect : evalDirect crate ctx rule.condition = crate.isMatch re (payloadText ctx.payload) := by
    rw [hcondition, evalDirect, regexText, if_neg Bool.false_ne_true, hnew]
    rfl
  rw [fires, CompiledRule.new, henabled, hevent, hcached, hdirect, hmatch]
  rfl

/-- A payload that is a text has the bytes of a word where the text has the word. -/
theorem word_infix_payload (hword : IsWord word) {text : List Char} (htext : fromUtf8 ctx.payload = some text) :
    word.toList <:+: (payloadText ctx.payload).toList ↔ bytes word.toList <:+: ctx.payload := by
  rw [payloadText, htext, Option.getD_some, String.toList_ofList, ← fromUtf8_eq_some_iff.1 htext]
  constructor
  · rintro ⟨u, w, rfl⟩
    exact ⟨bytes u, bytes w, by rw [bytes_append, bytes_append]⟩
  · exact infix_of_bytes (isAscii_word hword)

theorem not_word_infix_of_none (hword : IsWord word) (hnone : fromUtf8 ctx.payload = none) :
    ¬ word.toList <:+: (payloadText ctx.payload).toList := by
  rw [payloadText, hnone, Option.getD_none, String.toList_ofList, List.infix_nil]
  exact fun h => hword.1 (String.toList_eq_nil_iff.1 h)

/-- **When the search sees the raw bytes**: a rule for a word is reported exactly if the word's bytes are in the
payload, when the payload is UTF-8 or the word is not in it. -/
theorem reports_word_iff (hcrate : Literal crate word) (hword : IsWord word) (henabled : rule.enabled = true)
    (hevent : matchesEvent rule.eventType ctx.eventType = true) (hcondition : rule.condition = .payloadMatch word false)
    (before after : List Rule) :
    (Reports crate before rule after ctx ↔ bytes word.toList <:+: ctx.payload) ↔
      ((∃ text, fromUtf8 ctx.payload = some text) ∨ ¬ bytes word.toList <:+: ctx.payload) := by
  rw [reports_iff, fires_word hcrate henabled hevent hcondition, decide_eq_true_iff]
  cases hpayload : fromUtf8 ctx.payload with
  | some text =>
    exact iff_of_true (word_infix_payload hword hpayload) (.inl ⟨text, rfl⟩)
  | none =>
    have hnot := not_word_infix_of_none hword hpayload
    simp [hnot]

end Search

/-! ## A crate for words -/

/-- Patterns that are searched for as they are. -/
def literalCrate : RegexCrate where
  Regex := String
  new := some
  isMatch re text := decide (re.toList <:+: text.toList)

theorem literal_literalCrate (word : String) : Literal literalCrate word := ⟨word, rfl, fun _ => rfl⟩

/-- A rule that searches for `evil`, in every event. -/
def evilRule : Rule where
  name := "evil"
  eventType := .any
  condition := .payloadMatch "evil" false
  actions := [.drop]
  enabled := true

theorem isWord_evil : IsWord "evil" := ⟨by decide, List.all_eq_true.1 rfl⟩

def payloadContext (payload : List UInt8) : ExecutionContext := ExecutionContext.new.setPayload payload

theorem reports_evil :
    (Reports literalCrate [] evilRule [] (payloadContext (bytes "an evil word".toList)) ↔
        bytes "evil".toList <:+: (payloadContext (bytes "an evil word".toList)).payload) ↔
      ((∃ text, fromUtf8 (payloadContext (bytes "an evil word".toList)).payload = some text) ∨
        ¬ bytes "evil".toList <:+: (payloadContext (bytes "an evil word".toList)).payload) :=
  reports_word_iff (literal_literalCrate _) isWord_evil rfl rfl rfl [] []

/-- A single byte that is no UTF-8 hides the word. -/
theorem evil_hidden :
    ¬ Reports literalCrate [] evilRule [] (payloadContext (0xFF :: bytes "evil".toList)) ∧
      bytes "evil".toList <:+: (payloadContext (0xFF :: bytes "evil".toList)).payload := by
  have hnone : fromUtf8 (0xFF :: bytes "evil".toList) = none := by decide +kernel
  constructor
  · rw [reports_iff, fires_word (literal_literalCrate _) rfl rfl rfl, decide_eq_true_iff]
    exact not_word_infix_of_none isWord_evil hnone
  · exact (List.suffix_cons 0xFF (bytes "evil".toList)).isInfix

end ThorFirewall.Script
