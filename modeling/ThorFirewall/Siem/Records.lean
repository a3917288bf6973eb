import Mathlib
import ThorFirewall.Lib.Escape
import ThorFirewall.Lib.Text

/-!
# Records for a SIEM (`siem/mod.rs`)

An alert is written as one record, in the Common Event Format or in LEEF. Some texts of the alert are escaped, some only
lose their line ends, and some are written as they are.

- `readCef_alertToCef`: the header is always read back;
- `records_faithful_iff`: the alerts whose records say what the alerts say.
-/

namespace ThorFirewall.Siem

open Escape

/-! ## Alerts -/

inductive ThreatLevel
  | unknown
  | low
  | medium
  | high
  | critical
  deriving DecidableEq, Repr

inductive RuleType
  | sigma
  | yara
  | ioc
  | ml
  | xdp
  | ids
  | fim
  | ueba
  | threatIntel
  deriving DecidableEq, Repr

/-- A floating-point number, the finite ones with their sign and their exact magnitude. -/
inductive Score
  | nan
  | infinite (negative : Bool)
  | finite (negative : Bool) (magnitude : ℚ≥0)
  deriving DecidableEq

/-- The fields that the records are made from. -/
structure Alert (Time : Type*) where
  id : List Char
  timestamp : Time
  ruleName : List Char
  ruleType : RuleType
  threatLevel : ThreatLevel
  description : List Char
  pid : Option UInt32
  processName : Option (List Char)
  srcIp : Option (List Char)
  dstIp : Option (List Char)
  dstPort : Option UInt16
  mlScore : Option Score
  soarActionsTaken : List (List Char)

/-! ## Numbers and names -/

/-- Characters that no format gives a meaning. -/
def plainChar (c : Char) : Bool := c.isAlphanum || c ∈ ['-', '.', ':', '+']

def Plain (s : List Char) : Prop := s.all plainChar = true

instance (s : List Char) : Decidable (Plain s) := inferInstanceAs (Decidable (_ = _))

/-- What is read from a time. -/
structure Chrono (Time : Type*) where
  timestampMillis : Time → Int64
  /-- The time in the form `%Y-%m-%dT%H:%M:%S%.3fZ`. -/
  leefTime : Time → List Char
  leefTime_plain : ∀ t, Plain (leefTime t)

def ThreatLevel.debug : ThreatLevel → List Char
  | .unknown => "Unknown".toList
  | .low => "Low".toList
  | .medium => "Medium".toList
  | .high => "High".toList
  | .critical => "Critical".toList

def RuleType.debug : RuleType → List Char
  | .sigma => "Sigma".toList
  | .yara => "Yara".toList
  | .ioc => "Ioc".toList
  | .ml => "Ml".toList
  | .xdp => "Xdp".toList
  | .ids => "Ids".toList
  | .fim => "Fim".toList
  | .ueba => "Ueba".toList
  | .threatIntel => "ThreatIntel".toList

/-- The nearest number, the even one if two are as near. -/
def roundHalfEven (q : ℚ≥0) : ℕ :=
  let n := q.num / q.den
  let rest := q.num % q.den
  if 2 * rest < q.den ∨ 2 * rest = q.den ∧ n % 2 = 0 then n else n + 1

def sign (negative : Bool) : List Char := if negative then ['-'] else []

/-- The score with four digits behind the point. -/
def Score.fixed : Score → List Char
  | .nan => "NaN".toList
  | .infinite negative => sign negative ++ "inf".toList
  | .finite negative magnitude =>
    let n := roundHalfEven (magnitude * 10000)
    let digits := Nat.toDigits 10 (n % 10000)
    sign negative ++ Nat.toDigits 10 (n / 10000) ++ '.' :: (List.replicate (4 - digits.length) '0' ++ digits)

def cefSeverity : ThreatLevel → ℕ
  | .critical => 10
  | .high => 8
  | .medium => 5
  | .low => 3
  | .unknown => 1

/-! ## Records -/

def sanitizeCef (s : List Char) : List Char :=
  Text.replaceChar '\r' [] (Text.replaceChar '\n' ['\\', 'n'] (Text.replaceChar '|' ['\\', '|']
    (Text.replaceChar '\\' ['\\', '\\'] s)))

def sanitizeLeef (s : List Char) : List Char :=
  Text.replaceChar '\r' [] (Text.replaceChar '\n' [' '] (Text.replaceChar '\t' [' '] s))

def withoutCr (s : List Char) : List Char := s.filter (· ≠ '\r')

/-- A field that is written as it is. -/
def raw (key : String) (value : List Char) : Field := { key := key.toList, own := value, written := value }

/-- A field that is escaped. -/
def sanitized (key : String) (value : List Char) : Field :=
  { key := key.toList, own := withoutCr value, written := sanitizeCef value }

section Records

variable {Time : Type*} (chrono : Chrono Time) (alert : Alert Time)

/-- The actions as one value. -/
def Alert.actions : List Char := ['|'].intercalate alert.soarActionsTaken

def scoreFields : Option Score → List Field
  | some score => [raw "cn1" score.fixed, raw "cn1Label" "MLScore".toList]
  | none => []

def actionFields : List Field :=
  if alert.soarActionsTaken = [] then [] else [raw "cs3" alert.actions, raw "cs3Label" "SOARActions".toList]

/-- The extension of the record, field by field. -/
def cefFields : List Field :=
  [raw "rt" (Text.showInt (chrono.timestampMillis alert.timestamp).toInt), sanitized "cs1" alert.ruleName,
    raw "cs1Label" "RuleName".toList, sanitized "cs2" alert.description, raw "cs2Label" "Description".toList,
    raw "threatLevel" alert.threatLevel.debug] ++
  (alert.srcIp.map (sanitized "src")).toList ++ (alert.dstIp.map (sanitized "dst")).toList ++
  (alert.dstPort.map fun port => raw "dpt" (Nat.toDigits 10 port.toNat)).toList ++
  (alert.pid.map fun pid => raw "spid" (Nat.toDigits 10 pid.toNat)).toList ++
  (alert.processName.map (sanitized "sproc")).toList ++ scoreFields alert.mlScore ++ actionFields alert ++
  [sanitized "deviceExternalId" alert.id]

/-- What every record begins with. -/
def cefPrefix : List (List Char) :=
  ["CEF:0".toList, "ThorSecurity".toList, "ThorFirewallSmart".toList, "0.1.0".toList]

def cefHeader : List (List Char) :=
  cefPrefix ++ [sanitizeCef alert.id, sanitizeCef alert.ruleName, Nat.toDigits 10 (cefSeverity alert.threatLevel)]

/-- The record in the Common Event Format. -/
def alertToCef : List Char :=
  (cefHeader alert).flatMap (· ++ ['|']) ++ [' '].intercalate ((cefFields chrono alert).map Field.text)

/-- The attributes of the record. -/
def leefFields : List Field :=
  [raw "eventTime" (chrono.leefTime alert.timestamp),
    raw "severity" (Nat.toDigits 10 (cefSeverity alert.threatLevel)),
    raw "cat" (sanitizeLeef alert.ruleType.debug), raw "identSrc" (alert.srcIp.getD "unknown".toList),
    raw "identDst" (alert.dstIp.getD "unknown".toList), raw "ruleName" (sanitizeLeef alert.ruleName),
    raw "desc" (sanitizeLeef alert.description), raw "alertId" alert.id] ++
  (alert.mlScore.map fun score => raw "mlScore" score.fixed).toList

def leefHeader : List (List Char) :=
  ["LEEF:2.0".toList, "ThorSecurity".toList, "ThorFirewallSmart".toList, "0.1.0".toList, "ThreatAlert".toList]

/-- The record in LEEF. -/
def alertToLeef : List Char :=
  leefHeader.flatMap (· ++ ['|']) ++ ['\t'].intercalate ((leefFields chrono alert).map Field.text)

/-! ## What a reader finds -/

/-- The header and the fields that a reader of the Common Event Format finds in a record. -/
def readCef (record : List Char) : Option (List (List Char) × List (List Char × List Char)) :=
  (columns '|' 7 record).map fun r => (r.1.map (unescape false), readFields r.2)

/-- The attributes that a reader of LEEF finds. -/
def readLeef (record : List Char) : Option (List (List Char)) :=
  (columns '|' 5 record).map fun r => r.2.splitOn '\t'

def SingleLine (s : List Char) : Prop := '\n' ∉ s ∧ '\r' ∉ s

instance (s : List Char) : Decidable (SingleLine s) := inferInstanceAs (Decidable (_ ∧ _))

/-- What the alert says in the header. -/
def ownHeader : List (List Char) :=
  cefPrefix ++ [withoutCr alert.id, withoutCr alert.ruleName, Nat.toDigits 10 (cefSeverity alert.threatLevel)]

/-- Both records are single lines that say what the alert says. -/
structure Faithful : Prop where
  cef_line : SingleLine (alertToCef chrono alert)
  cef_read : readCef (alertToCef chrono alert) =
    some (ownHeader alert, (cefFields chrono alert).map fun f => (f.key, f.own))
  leef_line : SingleLine (alertToLeef chrono alert)
  leef_read : readLeef (alertToLeef chrono alert) = some ((leefFields chrono alert).map Field.text)

/-- The texts that the extension has as fields. -/
def texts : List (List Char) :=
  [alert.ruleName, alert.description, alert.id] ++ alert.srcIp.toList ++ alert.dstIp.toList ++ alert.processName.toList

/-- The texts that stand in a LEEF record as they are. -/
def addresses : List (List Char) := alert.id :: (alert.srcIp.toList ++ alert.dstIp.toList)

/-- No text has a character that the record does not guard. -/
structure Harmless : Prop where
  texts : ∀ v ∈ texts alert, '=' ∉ v
  actions : '=' ∉ alert.actions ∧ '\n' ∉ alert.actions ∧ '\r' ∉ alert.actions ∧
    ∀ c ∈ ['|', '\\', 'n'], ¬ ['\\', c] <:+: alert.actions
  addresses : ∀ v ∈ addresses alert, '\t' ∉ v ∧ '\n' ∉ v ∧ '\r' ∉ v

end Records

/-! ## Plain texts -/

theorem Plain.notMem {s : List Char} {c : Char} (h : Plain s) (hc : plainChar c = false) : c ∉ s := fun hmem => by
  rw [List.all_eq_true.1 h c hmem] at hc
  cases hc

theorem Plain.append {s t : List Char} (hs : Plain s) (ht : Plain t) : Plain (s ++ t) := by
  rw [Plain, List.all_append, hs, ht]
  rfl

theorem Plain.of_digits {s : List Char} (h : s.all Char.isDigit = true) : Plain s :=
  List.all_eq_true.2 fun c hc => by simp [plainChar, Char.isAlphanum, List.all_eq_true.1 h c hc]

theorem plain_toDigits (n : ℕ) : Plain (Nat.toDigits 10 n) := .of_digits (Text.all_isDigit_toDigits n)

theorem plain_showInt (n : ℤ) : Plain (Text.showInt n) := by
  unfold Text.showInt
  split_ifs
  · exact Plain.append (s := ['-']) (by decide) (plain_toDigits _)
  · exact plain_toDigits _

theorem plain_sign (negative : Bool) : Plain (sign negative) := by
  cases negative <;> decide

theorem plain_fixed (score : Score) : Plain score.fixed := by
  cases score with
  | nan => decide
  | infinite negative => exact (plain_sign negative).append (by decide)
  | finite negative magnitude =>
    refine ((plain_sign negative).append (plain_toDigits _)).append (Plain.append (s := ['.']) (by decide) ?_)
    refine Plain.append ?_ (plain_toDigits _)
    exact List.all_eq_true.2 fun c hc => by rw [List.eq_of_mem_replicate hc]; decide

theorem plain_threatLevel (level : ThreatLevel) : Plain level.debug := by
  cases level <;> decide

theorem Plain.singleLine {s : List Char} (h : Plain s) : SingleLine s := ⟨h.notMem (by decide), h.notMem (by decide)⟩

/-! ## What escaping keeps -/

/-- A text that stands for `own` wherever it is written. -/
structure Written (own s : List Char) : Prop where
  pending : pending false s = false
  bars : separators '|' false s = 0
  equals : separators '=' false s = own.count '='
  own : unescape false s = withoutCr own
  line : SingleLine s

theorem Written.append {own own' s s' : List Char} (h : Written own s) (h' : Written own' s') :
    Written (own ++ own') (s ++ s') where
  pending := by rw [pending_append, h.pending, h'.pending]
  bars := by rw [separators_append, h.pending, h.bars, h'.bars]
  equals := by rw [separators_append, h.pending, h.equals, h'.equals, List.count_append]
  own := by rw [unescape_append h.pending, h.own, h'.own, withoutCr, withoutCr, withoutCr, List.filter_append]
  line := by
    obtain ⟨hn, hr⟩ := h.line
    obtain ⟨hn', hr'⟩ := h'.line
    simp [SingleLine, hn, hr, hn', hr']

theorem written_sanitizeCef_char (c : Char) : Written [c] (sanitizeCef [c]) := by
  by_cases hback : c = '\\'
  · subst hback; constructor <;> decide
  by_cases hbar : c = '|'
  · subst hbar; constructor <;> decide
  by_cases hline : c = '\n'
  · subst hline; constructor <;> decide
  by_cases hreturn : c = '\r'
  · subst hreturn; constructor <;> decide
  have hself : sanitizeCef [c] = [c] := by simp [sanitizeCef, Text.replaceChar, hback, hbar, hline, hreturn]
  rw [hself]
  constructor
  · simp [next_of_ne hback]
  · simp [separators, hbar]
  · simp [separators, List.count_cons]
  · simp [unescape, hback, withoutCr, hreturn]
  · simp [SingleLine, Ne.symm hline, Ne.symm hreturn]

theorem sanitizeCef_append (s t : List Char) : sanitizeCef (s ++ t) = sanitizeCef s ++ sanitizeCef t := by
  simp [sanitizeCef, Text.replaceChar]

theorem written_sanitizeCef (s : List Char) : Written s (sanitizeCef s) := by
  induction s with
  | nil => constructor <;> decide
  | cons c s ih =>
    rw [← List.singleton_append, sanitizeCef_append]
    exact (written_sanitizeCef_char c).append ih

theorem Plain.unescape_eq {s : List Char} (h : Plain s) : unescape false s = s :=
  unescape_eq_self_iff.2 (escapeFree_of_notMem (h.notMem (by decide)))

theorem Plain.withoutCr_eq {s : List Char} (h : Plain s) : withoutCr s = s :=
  List.filter_eq_self.2 fun _ hc => decide_eq_true fun hr => h.notMem (by decide) (hr ▸ hc)

theorem Plain.written {s : List Char} (h : Plain s) : Written s s where
  pending := pending_of_notMem (h.notMem (by decide))
  bars := separators_of_notMem (h.notMem (by decide))
  equals := by
    rw [separators_of_notMem (h.notMem (by decide)), List.count_eq_zero_of_not_mem (h.notMem (by decide))]
  own := h.unescape_eq.trans h.withoutCr_eq.symm
  line := h.singleLine

/-! ## The header -/

section Header

variable {Time : Type*} {chrono : Chrono Time} {alert : Alert Time}

theorem written_of_mem_cefHeader {s : List Char} (h : s ∈ cefHeader alert) : ∃ own, Written own s := by
  rcases List.mem_append.1 h with h | h
  · have hplain : ∀ s ∈ cefPrefix, Plain s := by decide
    exact ⟨s, (hplain s h).written⟩
  · simp only [List.mem_cons, List.not_mem_nil, or_false] at h
    rcases h with rfl | rfl | rfl
    · exact ⟨_, written_sanitizeCef _⟩
    · exact ⟨_, written_sanitizeCef _⟩
    · exact ⟨_, (plain_toDigits _).written⟩

theorem unescape_cefHeader : (cefHeader alert).map (unescape false) = ownHeader alert := by
  have hfixed : cefPrefix.map (unescape false) = cefPrefix := by decide
  simp only [cefHeader, ownHeader, List.map_append, List.map_cons, List.map_nil, hfixed, (written_sanitizeCef _).own,
    (plain_toDigits _).unescape_eq]

/-- The header is always read back. -/
theorem readCef_alertToCef :
    readCef (alertToCef chrono alert) =
      some (ownHeader alert, readFields ([' '].intercalate ((cefFields chrono alert).map Field.text))) := by
  have hcolumns : ∀ s ∈ cefHeader alert, separators '|' false s = 0 ∧ pending false s = false := by
    intro s hs
    obtain ⟨own, h⟩ := written_of_mem_cefHeader hs
    exact ⟨h.bars, h.pending⟩
  have hlen : (cefHeader alert).length = 7 := rfl
  rw [readCef, alertToCef, ← hlen, columns_append hcolumns, Option.map_some, unescape_cefHeader]

/-! ## The extension -/

/-- The keys of the extension. -/
def cefKeys : List String :=
  ["rt", "cs1", "cs1Label", "cs2", "cs2Label", "threatLevel", "src", "dst", "dpt", "spid", "sproc", "cn1", "cn1Label",
    "cs3", "cs3Label", "deviceExternalId"]

theorem isKey_of_mem {key : String} (h : key ∈ cefKeys) : IsKey key.toList ∧ SingleLine key.toList := by
  have hkeys : ∀ key ∈ cefKeys, IsKey key.toList ∧ SingleLine key.toList := by decide
  exact hkeys key h

theorem cs3_mem : "cs3" ∈ cefKeys := by decide

/-- A field of the extension is escaped, or needs no escapes, or lists the actions. -/
inductive CefField (alert : Alert Time) : Field → Prop
  | sanitized {key : String} {v : List Char} (hkey : key ∈ cefKeys) (hv : v ∈ texts alert) :
      CefField alert (sanitized key v)
  | plain {key : String} {v : List Char} (hkey : key ∈ cefKeys) (hv : Plain v) : CefField alert (raw key v)
  | actions (h : alert.soarActionsTaken ≠ []) : CefField alert (raw "cs3" alert.actions)

theorem cefField_of_mem_scoreFields {f : Field} (h : f ∈ scoreFields alert.mlScore) : CefField alert f := by
  cases hscore : alert.mlScore with
  | none => rw [hscore] at h; cases h
  | some score =>
    rw [hscore, scoreFields, List.mem_cons, List.mem_singleton] at h
    rcases h with rfl | rfl
    · exact .plain (by decide) (plain_fixed score)
    · exact .plain (by decide) (by decide)

theorem cefField_of_mem_actionFields {f : Field} (h : f ∈ actionFields alert) : CefField alert f := by
  unfold actionFields at h
  split_ifs at h with hactions
  · cases h
  · rw [List.mem_cons, List.mem_singleton] at h
    rcases h with rfl | rfl
    · exact .actions hactions
    · exact .plain (by decide) (by decide)

theorem cefField_of_mem {f : Field} (h : f ∈ cefFields chrono alert) : CefField alert f := by
  simp only [cefFields, List.mem_append, List.mem_cons, Option.mem_toList, Option.map_eq_some_iff, List.not_mem_nil,
    or_false] at h
  rcases h with (((((((h | ⟨v, hv, rfl⟩) | ⟨v, hv, rfl⟩) | ⟨n, -, rfl⟩) | ⟨n, -, rfl⟩) | ⟨v, hv, rfl⟩) | h) | h) | rfl
  · rcases h with rfl | rfl | rfl | rfl | rfl | rfl
    · exact .plain (by decide) (plain_showInt _)
    · exact .sanitized (by decide) (by simp [texts])
    · exact .plain (by decide) (by decide)
    · exact .sanitized (by decide) (by simp [texts])
    · exact .plain (by decide) (by decide)
    · exact .plain (by decide) (plain_threatLevel _)
  · exact .sanitized (by decide) (by simp [texts, hv])
  · exact .sanitized (by decide) (by simp [texts, hv])
  · exact .plain (by decide) (plain_toDigits _)
  · exact .plain (by decide) (plain_toDigits _)
  · exact .sanitized (by decide) (by simp [texts, hv])
  · exact cefField_of_mem_scoreFields h
  · exact cefField_of_mem_actionFields h
  · exact .sanitized (by decide) (by simp [texts])

/-- Every text has its field. -/
theorem exists_sanitized (chrono : Chrono Time) {v : List Char} (h : v ∈ texts alert) :
    ∃ key, sanitized key v ∈ cefFields chrono alert := by
  simp only [texts, List.mem_append, List.mem_cons, Option.mem_toList, List.not_mem_nil, or_false] at h
  rcases h with (((rfl | rfl | rfl) | h) | h) | h
  · exact ⟨"cs1", by simp [cefFields]⟩
  · exact ⟨"cs2", by simp [cefFields]⟩
  · exact ⟨"deviceExternalId", by simp [cefFields]⟩
  · exact ⟨"src", by simp [cefFields, h]⟩
  · exact ⟨"dst", by simp [cefFields, h]⟩
  · exact ⟨"sproc", by simp [cefFields, h]⟩

theorem actions_mem_cefFields (h : alert.soarActionsTaken ≠ []) : raw "cs3" alert.actions ∈ cefFields chrono alert := by
  simp [cefFields, actionFields, h]

theorem isKey_cefFields : ∀ f ∈ cefFields chrono alert, IsKey f.key := by
  intro f hf
  cases cefField_of_mem hf with
  | sanitized hkey _ => exact (isKey_of_mem hkey).1
  | plain hkey _ => exact (isKey_of_mem hkey).1
  | actions _ => exact (isKey_of_mem cs3_mem).1

/-- What must hold of the actions' field. -/
theorem readable_actions_iff {s : List Char} :
    separators '=' false s = 0 ∧ unescape false s = s ↔ '=' ∉ s ∧ ∀ c ∈ ['|', '\\', 'n'], ¬ ['\\', c] <:+: s := by
  rw [unescape_eq_self_iff]
  constructor
  · rintro ⟨hsep, hfree⟩
    refine ⟨?_, fun c hc => hfree c ?_⟩
    · rwa [separators_of_escapeFree (by decide) (by decide) hfree, List.count_eq_zero] at hsep
    · fin_cases hc <;> rfl
  · rintro ⟨hsep, hfree⟩
    refine ⟨separators_of_notMem hsep, fun c hc hi => ?_⟩
    by_cases heq : c = '='
    · exact hsep (hi.subset (by simp [heq]))
    · refine hfree c ?_ hi
      unfold escapedChar at hc
      split at hc <;> simp_all

/-- The extension is read back exactly if no text and no action has an unescaped character with a meaning. -/
theorem readFields_cefFields_iff :
    readFields ([' '].intercalate ((cefFields chrono alert).map Field.text)) =
        (cefFields chrono alert).map (fun f => (f.key, f.own)) ↔
      (∀ v ∈ texts alert, '=' ∉ v) ∧
        (alert.soarActionsTaken ≠ [] → separators '=' false alert.actions = 0 ∧
          unescape false alert.actions = alert.actions) := by
  rw [readFields_eq_iff isKey_cefFields]
  constructor
  · intro h
    refine ⟨fun v hv => ?_, fun hactions => h _ (actions_mem_cefFields hactions)⟩
    obtain ⟨key, hmem⟩ := exists_sanitized chrono hv
    have hzero : separators '=' false (sanitizeCef v) = 0 := (h _ hmem).1
    rwa [(written_sanitizeCef v).equals, List.count_eq_zero] at hzero
  · rintro ⟨htexts, hactions⟩ f hf
    cases cefField_of_mem hf with
    | sanitized _ hv =>
      exact ⟨(written_sanitizeCef _).equals.trans (List.count_eq_zero.2 (htexts _ hv)), (written_sanitizeCef _).own⟩
    | plain _ hv => exact ⟨separators_of_notMem (hv.notMem (by decide)), hv.unescape_eq⟩
    | actions h => exact hactions h

/-! ## One line -/

theorem singleLine_append {s t : List Char} : SingleLine (s ++ t) ↔ SingleLine s ∧ SingleLine t := by
  simp only [SingleLine, List.mem_append, not_or]
  tauto

theorem singleLine_intercalate {c : Char} (hc : SingleLine [c]) {ls : List (List Char)} :
    SingleLine ([c].intercalate ls) ↔ ∀ l ∈ ls, SingleLine l := by
  induction ls with
  | nil => exact iff_of_true ⟨List.not_mem_nil, List.not_mem_nil⟩ (by simp)
  | cons l ls ih =>
    cases ls with
    | nil => simp
    | cons m ls =>
      rw [List.intercalate_cons_cons, singleLine_append, singleLine_append, ih, List.forall_mem_cons (l := m :: ls)]
      exact ⟨fun h => ⟨h.1.1, h.2⟩, fun h => ⟨⟨h.1, hc⟩, h.2⟩⟩

theorem singleLine_text {key : String} {v w : List Char} (hkey : SingleLine key.toList) :
    SingleLine (Field.text ⟨key.toList, v, w⟩) ↔ SingleLine w := by
  rw [Field.text, singleLine_append, ← List.singleton_append, singleLine_append]
  exact ⟨fun h => h.2.2, fun h => ⟨hkey, by decide, h⟩⟩

theorem singleLine_columns {ls : List (List Char)} (h : ∀ l ∈ ls, SingleLine l) :
    SingleLine (ls.flatMap (· ++ ['|'])) := by
  induction ls with
  | nil => decide
  | cons l ls ih =>
    rw [List.flatMap_cons, singleLine_append, singleLine_append]
    exact ⟨⟨h l List.mem_cons_self, by decide⟩, ih fun m hm => h m (List.mem_cons_of_mem _ hm)⟩

theorem singleLine_alertToCef_iff :
    SingleLine (alertToCef chrono alert) ↔ (alert.soarActionsTaken ≠ [] → SingleLine alert.actions) := by
  have hheader : SingleLine ((cefHeader alert).flatMap (· ++ ['|'])) := singleLine_columns fun s hs => by
    obtain ⟨own, h⟩ := written_of_mem_cefHeader hs
    exact h.line
  rw [alertToCef, singleLine_append, and_iff_right hheader, singleLine_intercalate (by decide), List.forall_mem_map]
  constructor
  · intro h hactions
    exact (singleLine_text (isKey_of_mem cs3_mem).2).1 (h _ (actions_mem_cefFields hactions))
  · intro h f hf
    cases cefField_of_mem hf with
    | sanitized hkey _ => exact (singleLine_text (isKey_of_mem hkey).2).2 (written_sanitizeCef _).line
    | plain hkey hv => exact (singleLine_text (isKey_of_mem hkey).2).2 hv.singleLine
    | actions hactions => exact (singleLine_text (isKey_of_mem cs3_mem).2).2 (h hactions)

/-! ## LEEF -/

/-- No tab, and one line. -/
def Clear (s : List Char) : Prop := '\t' ∉ s ∧ SingleLine s

instance (s : List Char) : Decidable (Clear s) := inferInstanceAs (Decidable (_ ∧ _))

theorem clear_append {s t : List Char} : Clear (s ++ t) ↔ Clear s ∧ Clear t := by
  simp only [Clear, singleLine_append, List.mem_append, not_or]
  tauto

theorem Plain.clear {s : List Char} (h : Plain s) : Clear s := ⟨h.notMem (by decide), h.singleLine⟩

theorem clear_sanitizeLeef (s : List Char) : Clear (sanitizeLeef s) := by
  induction s with
  | nil => exact Plain.clear (by decide)
  | cons c s ih =>
    have happend : sanitizeLeef (c :: s) = sanitizeLeef [c] ++ sanitizeLeef s := by
      simp [sanitizeLeef, Text.replaceChar]
    rw [happend, clear_append]
    refine ⟨?_, ih⟩
    by_cases htab : c = '\t'
    · subst htab; decide
    by_cases hline : c = '\n'
    · subst hline; decide
    by_cases hreturn : c = '\r'
    · subst hreturn; decide
    simp [sanitizeLeef, Text.replaceChar, Clear, SingleLine, htab, hline, hreturn, Ne.symm htab, Ne.symm hline,
      Ne.symm hreturn]

/-- The text of a LEEF attribute is clear, or is that of one of the addresses. -/
theorem clear_leefFields_iff (chrono : Chrono Time) :
    (∀ f ∈ leefFields chrono alert, Clear f.text) ↔ ∀ v ∈ addresses alert, Clear v := by
  have htext (key : String) (v : List Char) (hkey : Plain key.toList) : Clear (raw key v).text ↔ Clear v := by
    rw [Field.text, clear_append, ← List.singleton_append, clear_append]
    exact ⟨fun h => h.2.2, fun h => ⟨hkey.clear, by decide, h⟩⟩
  have haddress (ip : Option (List Char)) : Clear (ip.getD "unknown".toList) ↔ ∀ v ∈ ip.toList, Clear v := by
    cases ip with
    | none => exact iff_of_true (by decide) (by simp)
    | some v => simp
  have hscore : ∀ f ∈ (alert.mlScore.map fun score => raw "mlScore" score.fixed).toList, Clear f.text := by
    intro f hf
    rw [Option.mem_toList, Option.map_eq_some_iff] at hf
    obtain ⟨score, -, rfl⟩ := hf
    exact (htext _ _ (by decide)).2 (plain_fixed score).clear
  rw [leefFields, List.forall_mem_append, and_iff_left hscore, addresses]
  simp only [List.forall_mem_cons, List.forall_mem_append, List.not_mem_nil, IsEmpty.forall_iff, implies_true, and_true]
  rw [htext _ _ (by decide), htext _ _ (by decide), htext _ _ (by decide), htext _ _ (by decide), htext _ _ (by decide),
    htext _ _ (by decide), htext _ _ (by decide), htext _ _ (by decide), haddress, haddress]
  have htime := (chrono.leefTime_plain alert.timestamp).clear
  have hseverity := (plain_toDigits (cefSeverity alert.threatLevel)).clear
  have hcat := clear_sanitizeLeef alert.ruleType.debug
  have hname := clear_sanitizeLeef alert.ruleName
  have hdesc := clear_sanitizeLeef alert.description
  tauto

theorem leef_iff (chrono : Chrono Time) :
    SingleLine (alertToLeef chrono alert) ∧
        readLeef (alertToLeef chrono alert) = some ((leefFields chrono alert).map Field.text) ↔
      ∀ v ∈ addresses alert, Clear v := by
  have hheader : ∀ s ∈ leefHeader, separators '|' false s = 0 ∧ pending false s = false := by decide
  have hlen : leefHeader.length = 5 := rfl
  have hne : (leefFields chrono alert).map Field.text ≠ [] := by simp [leefFields]
  have hread : readLeef (alertToLeef chrono alert) =
      some ((['\t'].intercalate ((leefFields chrono alert).map Field.text)).splitOn '\t') := by
    rw [readLeef, alertToLeef, ← hlen, columns_append hheader, Option.map_some]
  rw [hread, Option.some_inj, Text.splitOn_intercalate_iff hne, alertToLeef, singleLine_append,
    and_iff_right (singleLine_columns (by decide)), singleLine_intercalate (by decide), ← forall₂_and,
    List.forall_mem_map, ← clear_leefFields_iff chrono]
  exact forall₂_congr fun f _ => and_comm

/-! ## Both records -/

/-- **The records say what the alert says exactly if the alert is harmless.** -/
theorem records_faithful_iff (chrono : Chrono Time) (alert : Alert Time) :
    Faithful chrono alert ↔ Harmless alert := by
  constructor
  · intro h
    have hread := h.cef_read
    rw [readCef_alertToCef, Option.some_inj, Prod.mk.injEq] at hread
    obtain ⟨htexts, hactions⟩ := readFields_cefFields_iff.1 hread.2
    refine ⟨htexts, ?_, (leef_iff chrono).1 ⟨h.leef_line, h.leef_read⟩⟩
    by_cases hnone : alert.soarActionsTaken = []
    · simp [Alert.actions, hnone]
    · obtain ⟨hequals, hfree⟩ := readable_actions_iff.1 (hactions hnone)
      obtain ⟨hn, hr⟩ := singleLine_alertToCef_iff.1 h.cef_line hnone
      exact ⟨hequals, hn, hr, hfree⟩
  · intro h
    obtain ⟨hequals, hn, hr, hfree⟩ := h.actions
    obtain ⟨hline, hread⟩ := (leef_iff chrono).2 h.addresses
    refine ⟨singleLine_alertToCef_iff.2 fun _ => ⟨hn, hr⟩, ?_, hline, hread⟩
    rw [readCef_alertToCef,
      readFields_cefFields_iff.2 ⟨h.texts, fun _ => readable_actions_iff.2 ⟨hequals, hfree⟩⟩]

end Header

def epoch : Chrono Unit where
  timestampMillis _ := 0
  leefTime _ := "1970-01-01T00:00:00.000Z".toList
  leefTime_plain := by decide

/-- A process name with a process id in it, an action with a line end, and an address with a severity behind a tab. -/
def spoofed : Alert Unit where
  id := "a1".toList
  timestamp := ()
  ruleName := "r".toList
  ruleType := .sigma
  threatLevel := .high
  description := "d".toList
  pid := some 7
  processName := some "x spid=1".toList
  srcIp := some "10.0.0.1\tseverity=1".toList
  dstIp := none
  dstPort := none
  mlScore := none
  soarActionsTaken := ["killed\nCEF:0".toList]

theorem spoofed_not_faithful :
    ¬ Faithful epoch spoofed ∧ ¬ SingleLine (alertToCef epoch spoofed) ∧
      (readCef (alertToCef epoch spoofed)).map (fun r => r.2.filter fun f => f.1 = "spid".toList) =
        some [("spid".toList, "7".toList), ("spid".toList, "1".toList)] ∧
      (readLeef (alertToLeef epoch spoofed)).map (fun r => (r.drop 1).take 4) =
        some ["severity=8".toList, "cat=Sigma".toList, "identSrc=10.0.0.1".toList, "severity=1".toList] :=
  ⟨fun h => absurd h.cef_line (by decide +kernel), by decide +kernel, by decide +kernel, by decide +kernel⟩

end ThorFirewall.Siem
