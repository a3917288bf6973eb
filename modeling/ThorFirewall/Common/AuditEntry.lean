import Mathlib
import ThorFirewall.Lib.JsonText
import ThorFirewall.Lib.Utf8
import ThorFirewall.Lib.Wire

/-!
# The shared audit entry (`thor-common/src/lib.rs`)

An entry carries the SHA-256 digest of the hash before it and of a JSON object. The object has a type of its own, with
copies of some fields of the entry. The digest and the text of a time are those of the libraries.

- `verify_computeHash`: the two computations of the digest agree;
- `hashed_inj`: the text that is hashed determines every field that is copied into it;
- `binds_all_iff`: what an entry's hash says about the entry.
-/

namespace ThorFirewall.Common

open JsonText

/-! ## Entries -/

section Types

variable (Time F : Type*)

inductive AuditCategory
  | automaticAction
  | humanDecision
  | policyChange
  | modelUpdate
  | agentRegistration
  | securityAlert
  | federatedUpdate
  deriving DecidableEq, Repr

inductive DecisionOutcome
  | autonomous (action : String) (confidence : F) (modelId : String)
  | pendingHumanReview (escalatedAt : Time) (reason : String)
  | humanApproved (analyst action : String) (approvedAt : Time)
  | humanRejected (analyst reason : String) (rejectedAt : Time)
  | logged
  deriving DecidableEq, Repr

structure FeatureImportance where
  featureName : String
  importance : F
  value : String
  deriving DecidableEq, Repr

structure XAIExplanation where
  summary : String
  topFeatures : List (FeatureImportance F)
  triggeredSignals : List String
  counterfactual : Option String
  explanationMethod : String
  deriving DecidableEq, Repr

structure AuditLogEntry where
  sequence : UInt64
  prevHash : String
  timestamp : Time
  agentId : String
  category : AuditCategory
  eventId : String
  decision : DecisionOutcome Time F
  explanation : Option (XAIExplanation F)
  entryHash : String
  deriving DecidableEq, Repr

end Types

/-! ## Hashes -/

/-- What is hashed behind the previous hash. -/
structure AuditHashInput where
  sequence : UInt64
  prevHash : String
  timestamp : String
  agentId : String
  eventId : String

/-- `serde_json::to_string`. -/
def AuditHashInput.toJson (i : AuditHashInput) : List Char :=
  '\x7b' :: quoted ['s', 'e', 'q', 'u', 'e', 'n', 'c', 'e'] ++ ':' :: (toString i.sequence).toList ++
    ',' :: quoted ['p', 'r', 'e', 'v', '_', 'h', 'a', 's', 'h'] ++ ':' :: quoted i.prevHash.toList ++
    ',' :: quoted ['t', 'i', 'm', 'e', 's', 't', 'a', 'm', 'p'] ++ ':' :: quoted i.timestamp.toList ++
    ',' :: quoted ['a', 'g', 'e', 'n', 't', '_', 'i', 'd'] ++ ':' :: quoted i.agentId.toList ++
    ',' :: quoted ['e', 'v', 'e', 'n', 't', '_', 'i', 'd'] ++ ':' :: quoted i.eventId.toList ++ ['\x7d']

/-- The library functions behind the hash. -/
structure Libraries (Time : Type*) where
  /-- The digest in lower-case hexadecimal. -/
  sha256 : List UInt8 → String
  toRfc3339 : Time → String

section Hash

variable {Time F : Type*} (lib : Libraries Time)

namespace AuditLogEntry

def computeHash (e : AuditLogEntry Time F) : AuditLogEntry Time F :=
  let json := AuditHashInput.toJson {
    sequence := e.sequence, prevHash := e.prevHash, timestamp := lib.toRfc3339 e.timestamp, agentId := e.agentId,
    eventId := e.eventId }
  { e with entryHash := lib.sha256 (Text.bytes e.prevHash.toList ++ Text.bytes json) }

def verify (e : AuditLogEntry Time F) : Bool :=
  let json := AuditHashInput.toJson {
    sequence := e.sequence, prevHash := e.prevHash, timestamp := lib.toRfc3339 e.timestamp, agentId := e.agentId,
    eventId := e.eventId }
  lib.sha256 (Text.bytes e.prevHash.toList ++ Text.bytes json) == e.entryHash

/-- The fields that are copied into the object that is hashed. -/
def hashInput (e : AuditLogEntry Time F) : AuditHashInput :=
  { sequence := e.sequence, prevHash := e.prevHash, timestamp := lib.toRfc3339 e.timestamp, agentId := e.agentId,
    eventId := e.eventId }

/-- The text that is hashed. -/
def hashed (e : AuditLogEntry Time F) : List Char := e.prevHash.toList ++ (e.hashInput lib).toJson

end AuditLogEntry

variable {lib} {e e' : AuditLogEntry Time F}

theorem verify_iff : e.verify lib = true ↔ lib.sha256 (Text.bytes (e.hashed lib)) = e.entryHash := by
  rw [AuditLogEntry.verify, beq_iff_eq, AuditLogEntry.hashed, Utf8.bytes_append]
  rfl

/-- The two computations are in step. -/
theorem verify_computeHash (e : AuditLogEntry Time F) : (e.computeHash lib).verify lib = true := by
  rw [AuditLogEntry.verify, beq_iff_eq]
  rfl

/-! ## The text determines the fields -/

theorem notMem_sequence {c : Char} (hc : c.isDigit = false) (n : UInt64) : c ∉ (toString n).toList :=
  Wire.notMem_toString hc n

theorem toJson_inj {i i' : AuditHashInput} (h : i.toJson = i'.toJson) : i = i' := by
  obtain ⟨n, p, t, a, v⟩ := i
  obtain ⟨n', p', t', a', v'⟩ := i'
  simp only [AuditHashInput.toJson, quoted, List.append_assoc, List.cons_append, List.nil_append, List.cons.injEq,
    true_and, List.append_cancel_left_eq] at h
  obtain ⟨hn, h⟩ := (Wire.append_cons_inj (notMem_sequence rfl n) (notMem_sequence rfl n')).1 h
  simp only [List.cons.injEq, true_and, List.append_cancel_left_eq] at h
  obtain ⟨hp, h⟩ := escaped_append_inj h
  simp only [List.cons.injEq, true_and, List.append_cancel_left_eq] at h
  obtain ⟨ht, h⟩ := escaped_append_inj h
  simp only [List.cons.injEq, true_and, List.append_cancel_left_eq] at h
  obtain ⟨ha, h⟩ := escaped_append_inj h
  simp only [List.cons.injEq, true_and, List.append_cancel_left_eq] at h
  obtain ⟨hv, -⟩ := escaped_append_inj h
  simp only [String.toList_inj] at hp ht ha hv
  rw [Wire.toString_inj (String.toList_inj.1 hn), hp, ht, ha, hv]

/-- How the object begins, and nothing else in it. -/
def mark : List Char := ['\x7b', '"', 's']

theorem mark_begins (i : AuditHashInput) : mark <+: i.toJson := by
  simp [mark, AuditHashInput.toJson, quoted, escaped, escapeChar]

/-- Behind the key of a text. -/
theorem infix_of_infix_key {k t rest : List Char} {c : Char} (hc : c ≠ 's') (hc' : c ≠ '\x7b')
    (h : mark <:+: escaped k ++ '"' :: ':' :: '"' :: (escaped t ++ '"' :: c :: rest)) : mark <:+: rest := by
  have hvalue : mark <:+: '"' :: (escaped t ++ '"' :: c :: rest) :=
    infix_of_infix_escaped (k := 's') (c := ':') (by decide) (by decide) h
  exact infix_of_infix_escaped hc hc' (infix_of_infix_cons (by decide) hvalue)

theorem mark_once (i : AuditHashInput) : ¬ mark <:+: i.toJson.tail := by
  intro h
  simp only [AuditHashInput.toJson, quoted, List.append_assoc, List.cons_append, List.nil_append, List.tail_cons] at h
  have h := infix_of_infix_escaped (k := 's') (c := ':') (by decide) (by decide) (infix_of_infix_cons (by decide) h)
  have h := infix_of_infix_append (notMem_sequence (by decide) i.sequence) h
  have h := infix_of_infix_cons (by decide) (infix_of_infix_cons (by decide) h)
  have h := infix_of_infix_key (c := ',') (by decide) (by decide) h
  have h := infix_of_infix_key (c := ',') (by decide) (by decide) (infix_of_infix_cons (by decide) h)
  have h := infix_of_infix_key (c := ',') (by decide) (by decide) (infix_of_infix_cons (by decide) h)
  have h := infix_of_infix_key (c := '\x7d') (by decide) (by decide) (infix_of_infix_cons (by decide) h)
  exact absurd h (by simp [mark])

/-- **The hashed text determines what is copied into it.** -/
theorem hashed_inj (h : e.hashed lib = e'.hashed lib) : e.hashInput lib = e'.hashInput lib :=
  toJson_inj (append_inj_of_marked (mark_begins _) (mark_begins _) (mark_once _) (mark_once _) h).2

/-! ## What the hash binds -/

/-- The entries agree on all fields but the hash. -/
structure Agree (e e' : AuditLogEntry Time F) : Prop where
  sequence : e.sequence = e'.sequence
  prevHash : e.prevHash = e'.prevHash
  timestamp : e.timestamp = e'.timestamp
  agentId : e.agentId = e'.agentId
  category : e.category = e'.category
  eventId : e.eventId = e'.eventId
  decision : e.decision = e'.decision
  explanation : e.explanation = e'.explanation

/-- **What the hash binds.** Two valid entries with the same hash agree on the fields that are copied into the object;
they agree on all fields exactly if they agree on the category, the decision and the explanation, which are not. -/
theorem binds_all_iff (hsha : Function.Injective lib.sha256) (htime : Function.Injective lib.toRfc3339)
    (hv : e.verify lib = true) (hv' : e'.verify lib = true) (hhash : e.entryHash = e'.entryHash) :
    Agree e e' ↔ e.category = e'.category ∧ e.decision = e'.decision ∧ e.explanation = e'.explanation := by
  have hbytes : Text.bytes (e.hashed lib) = Text.bytes (e'.hashed lib) :=
    hsha ((verify_iff.1 hv).trans (hhash.trans (verify_iff.1 hv').symm))
  have htext : e.hashed lib = e'.hashed lib := by
    have hread := congrArg Utf8.fromUtf8 hbytes
    rwa [Utf8.fromUtf8_bytes, Utf8.fromUtf8_bytes, Option.some.injEq] at hread
  have hinput := hashed_inj htext
  simp only [AuditLogEntry.hashInput, AuditHashInput.mk.injEq] at hinput
  obtain ⟨hseq, hprev, hts, hagent, hevent⟩ := hinput
  constructor
  · intro h
    exact ⟨h.category, h.decision, h.explanation⟩
  · rintro ⟨hcategory, hdecision, hexplanation⟩
    exact ⟨hseq, hprev, htime hts, hagent, hcategory, hevent, hdecision, hexplanation⟩

/-- Blocks of two characters are told apart. -/
theorem flatMap_injective {α β : Type*} {f : α → List β} (hf : Function.Injective f) (h2 : ∀ a, (f a).length = 2) :
    Function.Injective fun l : List α => l.flatMap f := by
  intro l
  induction l with
  | nil =>
    intro l' h
    cases l' with
    | nil => rfl
    | cons a l' =>
      have hlen := congrArg List.length h.symm
      simp [h2] at hlen
  | cons a l ih =>
    intro l' h
    cases l' with
    | nil =>
      have hlen := congrArg List.length h
      simp [h2] at hlen
    | cons a' l' =>
      simp only [List.flatMap_cons] at h
      obtain ⟨ha, hl⟩ := List.append_inj h ((h2 a).trans (h2 a').symm)
      rw [hf ha, ih hl]

/-- Libraries with a digest that shows everything; a time is its text. -/
def plainLibraries : Libraries String where
  sha256 bs := String.ofList (bs.flatMap fun b => [hexDigit (b.toNat / 16), hexDigit (b.toNat % 16)])
  toRfc3339 t := t

/-- The byte of two hexadecimal digits. -/
def ofHex (s : List Char) : UInt8 := UInt8.ofNat (16 * hexValue (s.getD 0 '0') + hexValue (s.getD 1 '0'))

theorem sha256_plain_injective : Function.Injective plainLibraries.sha256 := by
  have hhex : Function.LeftInverse ofHex fun b : UInt8 => [hexDigit (b.toNat / 16), hexDigit (b.toNat % 16)] := by
    decide +kernel
  intro bs bs' h
  exact flatMap_injective hhex.injective (fun _ => rfl) (String.ofList_injective h)

/-- An entry with this category, and its hash. -/
def sampleEntry (category : AuditCategory) : AuditLogEntry String ℕ :=
  AuditLogEntry.computeHash plainLibraries {
    sequence := 1, prevHash := "0", timestamp := "2026-01-01T00:00:00+00:00", agentId := "net-01", category,
    eventId := "event", decision := .logged, explanation := none, entryHash := "" }

theorem binds_all_sample : (sampleEntry .automaticAction).verify plainLibraries = true ∧
    Agree (sampleEntry .automaticAction) (sampleEntry .automaticAction) :=
  ⟨verify_computeHash _, (binds_all_iff sha256_plain_injective Function.injective_id (verify_computeHash _)
    (verify_computeHash _) rfl).2 ⟨rfl, rfl, rfl⟩⟩

/-- A human decision that is stored as an automatic action keeps its hash. -/
theorem category_not_bound : ¬ ∀ (lib : Libraries String), Function.Injective lib.sha256 →
    Function.Injective lib.toRfc3339 → ∀ e e' : AuditLogEntry String ℕ, e.verify lib = true → e'.verify lib = true →
    e.entryHash = e'.entryHash → Agree e e' := by
  intro h
  have hagree := h plainLibraries sha256_plain_injective Function.injective_id (sampleEntry .humanDecision)
    (sampleEntry .automaticAction) (verify_computeHash _) (verify_computeHash _) rfl
  cases hagree.category

end Hash

end ThorFirewall.Common
