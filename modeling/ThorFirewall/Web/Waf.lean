import Mathlib
import ThorFirewall.Lib.EarliestSearch
import ThorFirewall.Lib.KeyedList
import ThorFirewall.Lib.Lowercase
import ThorFirewall.Web.UrlDecode

/-!
# The OWASP rules of the web agent (`thor-agent-web/src/main.rs`)

`inspect_request` searches the request for 86 patterns: the request in lower case, and behind it the same text with its
escapes decoded. The patterns found have categories with base scores. The score is that of the worst category, with a
bonus for SQL in a form.

- `mem_scanner`: the patterns found are those that end a piece of the text (`EarliestSearch`);
- `mem_byCat`, `primary_cases`: what is reported of them;
- `score_worst_iff`: when the score is that of the worst pattern;
- `category_reported_iff`: when a category is reported;
- `respelled_reported`: which respellings of a pattern are reported.
-/

namespace ThorFirewall.Web

open EarliestSearch (Cut scan)
open KeyedList Utf8

/-! ## The patterns -/

def owaspPatterns : List (List Char) := [
  -- SQLi (0..=19)
  "union select", "union all select", "union distinct select",
  "or 1=1", "or 1=2", "or true", "and 1=1", "and 1=2",
  "'; drop table", "\\'--", "pg_sleep", "sleep(", "benchmark(",
  "information_schema", "xp_cmdshell", "exec master", "waitfor delay",
  "cast(0x", "convert(int", "load_file(",
  -- XSS (20..=31)
  "<script>", "javascript:", "onerror=", "onload=", "onmouseover=",
  "eval(", "alert(", "document.cookie", "document.write(",
  "<iframe", "<svg/onload", "data:text/html",
  -- Path Traversal (32..=41)
  "../etc/passwd", "..%2f", "%2e%2e/", "..\\", "/etc/shadow",
  "/etc/hosts", "/proc/self", "/windows/system32", "..%252f", "%c0%ae",
  -- CMDi (42..=51)
  ";cat ", ";ls ", "|whoami", "| id", "& dir", ";wget ", ";curl ",
  "$(", "` id`", "& ping -c",
  -- SSRF (52..=59)
  "http://169.254.169.254", "http://127.0.0.1", "http://localhost",
  "file:///etc", "dict://", "gopher://", "ftp://127", "http://[::1]",
  -- Log4Shell / JNDI (60..=66)
  "$\x7bjndi:", "$\x7b$\x7b", "jndi:ldap://", "jndi:rmi://", "jndi:dns://",
  "$\x7blower:j\x7d", "$\x7bupper:J\x7d",
  -- WebShell (67..=74)
  "passthru(", "system(", "shell_exec(", "popen(", "proc_open(",
  "base64_decode(", "eval(base64", "assert(",
  -- HTTP Smuggling (75..=77)
  "transfer-encoding: chunked\r\n\r\n", "content-length: 0\r\n\r\nGET",
  "te: chunked",
  -- XXE / XML (78..=81)
  "<!entity", "<!doctype", "system \"file://", "system 'file://",
  -- Deserialization (82..=85)
  "rO0AB", "aced0005", "o:4:\"php", "__php_incomplete"].map String.toList

/-- The category of a pattern and its base score. -/
def classifyPattern (idx : ℕ) : String × Float32 :=
  if idx ≤ 19 then ("SQLi", 0.65)
  else if idx ≤ 31 then ("XSS", 0.55)
  else if idx ≤ 41 then ("PathTraversal", 0.60)
  else if idx ≤ 51 then ("CommandInjection", 0.70)
  else if idx ≤ 59 then ("SSRF", 0.65)
  else if idx ≤ 66 then ("Log4Shell", 0.80)
  else if idx ≤ 74 then ("WebShell", 0.85)
  else if idx ≤ 77 then ("HTTPSmuggling", 0.75)
  else if idx ≤ 81 then ("XXE", 0.65)
  else if idx ≤ 85 then ("Deserialization", 0.75)
  else ("Unknown", 0.40)

/-- `AhoCorasick::new`, which gives what `find_iter` does with a text: the positions of the patterns that it finds. -/
abbrev Builder := List (List Char) → Option (List Char → List ℕ)

/-- What the documentation says of an automaton with the standard kind of matches. -/
def Standard (ahoCorasick : Builder) : Prop :=
  ∀ patterns scanner, (∀ p ∈ patterns, p ≠ []) → ahoCorasick patterns = some scanner →
    ∀ text, scanner text = scan patterns text

/-- `none` for the panic when the automaton cannot be built. -/
def buildOwaspScanner (ahoCorasick : Builder) : Option (List Char → List ℕ) := ahoCorasick owaspPatterns

/-! ## The inspection -/

/-- `HeaderMap::get`: the bytes of the first value of a header. -/
abbrev HeaderMap := String → Option (List UInt8)

/-- `HeaderValue::to_str`: the value is visible ASCII, or tabs. -/
def toStr (value : List UInt8) : Option (List Char) :=
  if ∀ b ∈ value, (32 ≤ b ∧ b < 127) ∨ b = 9 then some (value.map fun b => Char.ofNat b.toNat) else none

/-- One pattern found: the category keeps the higher one of its scores. -/
def addMatch (byCat : List (String × Float32)) (m : String × Float32) : List (String × Float32) :=
  match lookup Prod.fst m.1 byCat with
  | some (_, s) => if s < m.2 then upsert Prod.fst m byCat else byCat
  | none => upsert Prod.fst m byCat

def addSig (sigs : List String) (sig : String) : List String := if sig ∈ sigs then sigs else sigs ++ [sig]

/-- `max_by`: the last one of the greatest. -/
def maxBy : List (String × Float32) → Option (String × Float32)
  | [] => none
  | a :: l => some (l.foldl (fun x y => if y.2 < x.2 then x else y) a)

structure Inspection where
  category : String
  score : Float32
  signatures : List String
  xaiFeatures : List (String × Float32)

/-- The text that is searched. -/
def normalised (lower : List Char → List Char) (uri method body : List Char) : List Char :=
  let target := lower (method ++ ' ' :: uri ++ ' ' :: body)
  target ++ ' ' :: urlDecode target

/-- The content type says that the body is a form. -/
def isForm (headers : HeaderMap) : Bool :=
  match (headers "content-type").bind toStr with
  | some ct => decide ("application/x-www-form-urlencoded".toList <:+: ct)
  | none => false

def bonus (headers : HeaderMap) (category : String) (score : Float32) : Float32 :=
  if isForm headers ∧ category = "SQLi" then min (score + 0.10) 1.0 else score

/-- `order` is the order in which the hash map is walked, `lower` is `to_lowercase`. -/
def inspectRequest (order : List (String × Float32) → List (String × Float32)) (lower : List Char → List Char)
    (uri method body : List Char) (headers : HeaderMap) (scanner : List Char → List ℕ) : Inspection :=
  let matched := (scanner (normalised lower uri method body)).map classifyPattern
  let byCat := order (matched.foldl addMatch [])
  let primary := (maxBy byCat).getD ("Clean", 0.0)
  { category := primary.1
    score := bonus headers primary.1 primary.2
    signatures := (matched.map fun m => "OWASP-" ++ m.1).foldl addSig []
    xaiFeatures := byCat }

/-! ## The categories -/

/-- The categories and their base scores. -/
def classes : List (String × Float32) :=
  [("SQLi", 0.65), ("XSS", 0.55), ("PathTraversal", 0.60), ("CommandInjection", 0.70), ("SSRF", 0.65),
    ("Log4Shell", 0.80), ("WebShell", 0.85), ("HTTPSmuggling", 0.75), ("XXE", 0.65), ("Deserialization", 0.75),
    ("Unknown", 0.40)]

theorem ite_mem_classes {c : Prop} [Decidable c] {a b : String × Float32} (ha : a ∈ classes) (hb : b ∈ classes) :
    (if c then a else b) ∈ classes := by
  split_ifs
  · exact ha
  · exact hb

theorem classifyPattern_mem (i : ℕ) : classifyPattern i ∈ classes := by
  unfold classifyPattern
  repeat' apply ite_mem_classes
  all_goals simp [classes]

/-- A category has one score. -/
theorem classes_unique : ∀ a ∈ classes, ∀ b ∈ classes, a.1 = b.1 → a = b := by decide

/-- The scores are ordered as their bits are. -/
theorem classes_le_iff : ∀ a ∈ classes, ∀ b ∈ classes, a.2 ≤ b.2 ↔ a.2.toBits.toNat ≤ b.2.toBits.toNat := by
  decide

theorem classes_lt_iff : ∀ a ∈ classes, ∀ b ∈ classes, a.2 < b.2 ↔ a.2.toBits.toNat < b.2.toBits.toNat := by
  decide

theorem classes_le_refl {a : String × Float32} (h : a ∈ classes) : a.2 ≤ a.2 :=
  (classes_le_iff a h a h).2 (Nat.le_refl _)

theorem classes_le_trans {a b c : String × Float32} (ha : a ∈ classes) (hb : b ∈ classes) (hc : c ∈ classes)
    (hab : a.2 ≤ b.2) (hbc : b.2 ≤ c.2) : a.2 ≤ c.2 := by
  rw [classes_le_iff _ ha _ hb] at hab
  rw [classes_le_iff _ hb _ hc] at hbc
  exact (classes_le_iff _ ha _ hc).2 (hab.trans hbc)

theorem classes_not_lt {a b : String × Float32} (ha : a ∈ classes) (hb : b ∈ classes) : ¬ b.2 < a.2 ↔ a.2 ≤ b.2 := by
  rw [classes_lt_iff _ hb _ ha, classes_le_iff _ ha _ hb, Nat.not_lt]

variable {byCat ms l : List (String × Float32)} {m x y : String × Float32}

/-- What one pattern found changes. -/
theorem mem_addMatch (hbyCat : ∀ x ∈ byCat, x ∈ classes) (hnodup : (byCat.map Prod.fst).Nodup) (hm : m ∈ classes) :
    (∀ x, x ∈ addMatch byCat m ↔ x ∈ byCat ∨ x = m) ∧ ((addMatch byCat m).map Prod.fst).Nodup := by
  unfold addMatch
  split
  · rename_i c s hlookup
    obtain ⟨hmem, hc⟩ := (lookup_eq_some_iff hnodup).1 hlookup
    obtain rfl := classes_unique _ (hbyCat _ hmem) _ hm hc
    rw [if_neg ((classes_not_lt hm hm).2 (classes_le_refl hm))]
    exact ⟨fun x => ⟨Or.inl, fun h => h.elim id fun heq => heq ▸ hmem⟩, hnodup⟩
  · rename_i hlookup
    have hnew : m.1 ∉ byCat.map Prod.fst := by
      intro hmem
      obtain ⟨x, hx, hkey⟩ := List.mem_map.1 hmem
      exact List.find?_eq_none.1 hlookup x hx (decide_eq_true hkey)
    refine ⟨fun x => ?_, nodup_upsert m hnodup⟩
    rw [upsert_of_notMem hnew, List.mem_append, List.mem_singleton]

theorem mem_foldl_addMatch (hms : ∀ x ∈ ms, x ∈ classes) (hbyCat : ∀ x ∈ byCat, x ∈ classes)
    (hnodup : (byCat.map Prod.fst).Nodup) :
    (∀ x, x ∈ ms.foldl addMatch byCat ↔ x ∈ byCat ∨ x ∈ ms) ∧ ((ms.foldl addMatch byCat).map Prod.fst).Nodup := by
  induction ms generalizing byCat with
  | nil => exact ⟨fun x => by simp, hnodup⟩
  | cons m ms ih =>
    obtain ⟨hm, hms⟩ := List.forall_mem_cons.1 hms
    obtain ⟨hmem, hkeys⟩ := mem_addMatch hbyCat hnodup hm
    have hnext : ∀ x ∈ addMatch byCat m, x ∈ classes := fun x hx =>
      ((hmem x).1 hx).elim (hbyCat x) fun heq => heq ▸ hm
    obtain ⟨hall, hdistinct⟩ := ih hms hnext hkeys
    refine ⟨fun x => ?_, hdistinct⟩
    rw [List.foldl_cons, hall, hmem, List.mem_cons, or_assoc]

/-- **The categories reported** are those of the patterns found. -/
theorem mem_byCat (found : List ℕ) :
    (∀ x, x ∈ (found.map classifyPattern).foldl addMatch [] ↔ ∃ i ∈ found, classifyPattern i = x) ∧
      (((found.map classifyPattern).foldl addMatch []).map Prod.fst).Nodup := by
  have hms : ∀ x ∈ found.map classifyPattern, x ∈ classes := by
    intro x hx
    obtain ⟨i, -, rfl⟩ := List.mem_map.1 hx
    exact classifyPattern_mem i
  obtain ⟨hall, hnodup⟩ := mem_foldl_addMatch hms (fun _ h => absurd h List.not_mem_nil) List.nodup_nil
  refine ⟨fun x => ?_, hnodup⟩
  rw [hall, List.mem_map]
  simp only [List.not_mem_nil, false_or]

/-! ## The worst category -/

/-- The worse one of two findings. -/
theorem worse_spec (hx : x ∈ classes) (hy : y ∈ classes) :
    (if y.2 < x.2 then x else y) ∈ classes ∧ x.2 ≤ (if y.2 < x.2 then x else y).2 ∧
      y.2 ≤ (if y.2 < x.2 then x else y).2 := by
  split_ifs with hlt
  · refine ⟨hx, classes_le_refl hx, ?_⟩
    rw [classes_lt_iff _ hy _ hx] at hlt
    exact (classes_le_iff _ hy _ hx).2 hlt.le
  · exact ⟨hy, (classes_not_lt hx hy).1 hlt, classes_le_refl hy⟩

theorem foldl_worse (hx : x ∈ classes) (hl : ∀ y ∈ l, y ∈ classes) :
    let worst := l.foldl (fun x y => if y.2 < x.2 then x else y) x
    (worst = x ∨ worst ∈ l) ∧ x.2 ≤ worst.2 ∧ ∀ y ∈ l, y.2 ≤ worst.2 := by
  induction l generalizing x with
  | nil => exact ⟨Or.inl rfl, classes_le_refl hx, fun _ h => absurd h List.not_mem_nil⟩
  | cons y l ih =>
    obtain ⟨hy, hl⟩ := List.forall_mem_cons.1 hl
    obtain ⟨hworse, hlex, hley⟩ := worse_spec hx hy
    obtain ⟨hmem, hle, hmax⟩ := ih hworse hl
    have hworst : l.foldl (fun x y => if y.2 < x.2 then x else y) (if y.2 < x.2 then x else y) ∈ classes := by
      rcases hmem with heq | hmem
      · rwa [heq]
      · exact hl _ hmem
    refine ⟨?_, classes_le_trans hx hworse hworst hlex hle, List.forall_mem_cons.2
      ⟨classes_le_trans hy hworse hworst hley hle, hmax⟩⟩
    rw [List.foldl_cons]
    rcases hmem with heq | hmem
    · rw [heq]
      split_ifs
      · exact Or.inl rfl
      · exact Or.inr List.mem_cons_self
    · exact Or.inr (List.mem_cons_of_mem _ hmem)

/-- **The primary category** is a worst one. -/
theorem maxBy_spec (hl : ∀ y ∈ l, y ∈ classes) (hne : l ≠ []) :
    ∃ worst ∈ l, maxBy l = some worst ∧ ∀ y ∈ l, y.2 ≤ worst.2 := by
  obtain ⟨x, l, rfl⟩ := List.exists_cons_of_ne_nil hne
  obtain ⟨hx, hl⟩ := List.forall_mem_cons.1 hl
  obtain ⟨hmem, hle, hmax⟩ := foldl_worse hx hl
  exact ⟨_, List.mem_cons.2 hmem, rfl, List.forall_mem_cons.2 ⟨hle, hmax⟩⟩

/-- The first one is taken only if all others are below it. -/
theorem maxBy_first (hl : ∀ y ∈ l, y ∈ classes) (hnot : x ∉ l) (h : maxBy (x :: l) = some x) :
    ∀ y ∈ l, y.2 < x.2 := by
  have hworst := Option.some.inj h
  clear h
  induction l with
  | nil => exact fun _ h => absurd h List.not_mem_nil
  | cons y l ih =>
    obtain ⟨hy, hl⟩ := List.forall_mem_cons.1 hl
    obtain ⟨hxy, hnot⟩ := not_or.1 (mt List.mem_cons.2 hnot)
    rw [List.foldl_cons] at hworst
    by_cases hlt : y.2 < x.2
    · rw [if_pos hlt] at hworst
      exact List.forall_mem_cons.2 ⟨hlt, ih hl hnot hworst⟩
    · rw [if_neg hlt] at hworst
      have hmem := (foldl_worse hy hl).1
      rw [hworst] at hmem
      exact (hmem.elim hxy hnot).elim

theorem sqli_mem : (("SQLi", 0.65) : String × Float32) ∈ classes := List.mem_cons_self

theorem eq_sqli (hx : x ∈ classes) (h : x.1 = "SQLi") : x = ("SQLi", 0.65) := classes_unique _ hx _ sqli_mem h

theorem bonus_form {headers : HeaderMap} (h : isForm headers = true) : bonus headers "SQLi" 0.65 = 0.75 := by
  rw [bonus, if_pos ⟨h, rfl⟩]
  decide

theorem bonus_other {headers : HeaderMap} (h : ¬ (isForm headers = true ∧ x.1 = "SQLi")) :
    bonus headers x.1 x.2 = x.2 := if_neg h

theorem le_sqli_bonus : ∀ x ∈ classes, x.2 ≤ 0.65 → x.2 ≤ 0.75 := by decide

theorem not_le_clean : ∀ x ∈ classes, ¬ x.2 ≤ 0.0 := by decide

/-- The bonus lowers no score. -/
theorem le_bonus (headers : HeaderMap) (hx : x ∈ classes) (hy : y ∈ classes) (h : x.2 ≤ y.2) :
    x.2 ≤ bonus headers y.1 y.2 := by
  by_cases hform : isForm headers = true ∧ y.1 = "SQLi"
  · obtain rfl := eq_sqli hy hform.2
    rw [bonus_form hform.1]
    exact le_sqli_bonus x hx h
  · rwa [bonus_other hform]

/-! ## What is found -/

/-- The patterns as numbers, from their ends on: they are ASCII, and none begins another one. -/
theorem patterns_codes :
    (∀ p ∈ owaspPatterns.map fun p => p.reverse.map Char.toNat, 2 ≤ p.length ∧ ∀ n ∈ p, n < 128) ∧
    (owaspPatterns.map fun p => p.reverse.map Char.toNat).Pairwise fun p q => ¬ p <+: q ∧ ¬ q <+: p := by
  simp only [owaspPatterns, List.map_cons, List.map_nil, String.reduceToList]
  decide +kernel

theorem patterns_ne_nil : ∀ p ∈ owaspPatterns, p ≠ [] := by
  rintro p hp rfl
  exact absurd (patterns_codes.1 _ (List.mem_map_of_mem hp)).1 (by decide)

/-- No pattern ends with another one. -/
theorem patterns_apart : owaspPatterns.Pairwise fun p q => ¬ p <:+ q ∧ ¬ q <:+ p := by
  have hcodes := List.pairwise_map.1 patterns_codes.2
  exact hcodes.imp fun h => ⟨fun hpq => h.1 ((List.reverse_prefix.2 hpq).map _),
    fun hqp => h.2 ((List.reverse_prefix.2 hqp).map _)⟩

/-- The text is cut behind the first place where a pattern ends, and what is left is cut again. One of the pieces ends
with this pattern. -/
def EndsPiece (text : List Char) (i : ℕ) : Prop :=
  ∃ p pieces, owaspPatterns[i]? = some p ∧ Cut owaspPatterns text pieces ∧ ∃ piece ∈ pieces, p <:+ piece

def Occurs (text : List Char) (i : ℕ) : Prop := ∃ p, owaspPatterns[i]? = some p ∧ p <:+: text

/-- A hash map is walked in some order. -/
def Walks (order : List (String × Float32) → List (String × Float32)) : Prop := ∀ l, (order l).Perm l

variable {ahoCorasick : Builder} {scanner : List Char → List ℕ} {lower : List Char → List Char}
  {order : List (String × Float32) → List (String × Float32)} {uri method body text : List Char} {headers : HeaderMap}
  {i : ℕ}

/-- **The patterns that the scanner finds.** -/
theorem mem_scanner (hstandard : Standard ahoCorasick) (hscanner : buildOwaspScanner ahoCorasick = some scanner) :
    i ∈ scanner text ↔ EndsPiece text i := by
  rw [hstandard _ _ patterns_ne_nil hscanner text]
  obtain ⟨pieces, hcut⟩ := EarliestSearch.exists_cut patterns_ne_nil text
  constructor
  · intro h
    have hlt : i < owaspPatterns.length := by
      rw [EarliestSearch.scan_eq hcut, List.mem_flatMap] at h
      obtain ⟨piece, -, hending⟩ := h
      exact (EarliestSearch.mem_ending (Option.mem_toList.1 hending)).1
    have hp := List.getElem?_eq_getElem hlt
    exact ⟨_, pieces, hp, hcut, (EarliestSearch.mem_scan_iff patterns_apart hcut hp).1 h⟩
  · rintro ⟨p, pieces', hp, hcut', hends⟩
    obtain rfl := hcut.unique hcut'
    exact (EarliestSearch.mem_scan_iff patterns_apart hcut hp).2 hends

/-- **The categories that an inspection reports.** -/
theorem mem_features (hstandard : Standard ahoCorasick) (hscanner : buildOwaspScanner ahoCorasick = some scanner)
    (horder : Walks order) : x ∈ (inspectRequest order lower uri method body headers scanner).xaiFeatures ↔
      ∃ j, EndsPiece (normalised lower uri method body) j ∧ classifyPattern j = x := by
  rw [inspectRequest, (horder _).mem_iff, (mem_byCat _).1]
  simp only [mem_scanner hstandard hscanner]

theorem features_class (hstandard : Standard ahoCorasick) (hscanner : buildOwaspScanner ahoCorasick = some scanner)
    (horder : Walks order) (hx : x ∈ (inspectRequest order lower uri method body headers scanner).xaiFeatures) :
    x ∈ classes := by
  obtain ⟨j, -, rfl⟩ := (mem_features hstandard hscanner horder).1 hx
  exact classifyPattern_mem j

/-- **The category reported first** is a worst one of those found. -/
theorem primary_cases (hstandard : Standard ahoCorasick) (hscanner : buildOwaspScanner ahoCorasick = some scanner)
    (horder : Walks order) :
    ((∀ j, ¬ EndsPiece (normalised lower uri method body) j) ∧
      (inspectRequest order lower uri method body headers scanner).score = bonus headers "Clean" 0.0) ∨
    ∃ j, EndsPiece (normalised lower uri method body) j ∧
      maxBy (inspectRequest order lower uri method body headers scanner).xaiFeatures = some (classifyPattern j) ∧
      (inspectRequest order lower uri method body headers scanner).score =
        bonus headers (classifyPattern j).1 (classifyPattern j).2 ∧
      ∀ k, EndsPiece (normalised lower uri method body) k → (classifyPattern k).2 ≤ (classifyPattern j).2 := by
  have hmem (x : String × Float32) :=
    @mem_features x _ _ lower order uri method body headers hstandard hscanner horder
  have hscore : (inspectRequest order lower uri method body headers scanner).score =
      bonus headers ((maxBy (inspectRequest order lower uri method body headers scanner).xaiFeatures).getD
        ("Clean", 0.0)).1 ((maxBy (inspectRequest order lower uri method body headers scanner).xaiFeatures).getD
        ("Clean", 0.0)).2 := rfl
  by_cases hnil : (inspectRequest order lower uri method body headers scanner).xaiFeatures = []
  · refine Or.inl ⟨fun j hj => ?_, by rw [hscore, hnil]; rfl⟩
    have hin := (hmem _).2 ⟨j, hj, rfl⟩
    rw [hnil] at hin
    exact List.not_mem_nil hin
  · obtain ⟨worst, hworst, hmaxBy, hmax⟩ := maxBy_spec (fun y => features_class hstandard hscanner horder) hnil
    obtain ⟨j, hj, rfl⟩ := (hmem _).1 hworst
    refine Or.inr ⟨j, hj, hmaxBy, by rw [hscore, hmaxBy]; rfl, fun k hk => hmax _ ((hmem _).2 ⟨k, hk, rfl⟩)⟩

/-- A hash map may be walked from any of its entries on. -/
theorem exists_order (x : String × Float32) :
    ∃ order, Walks order ∧ ∀ l, x ∈ l → ∃ l', order l = x :: l' := by
  have hfront : ∀ l : List (String × Float32), ∃ l₁, l₁.Perm l ∧ (x ∈ l → ∃ l', l₁ = x :: l') := by
    intro l
    by_cases hx : x ∈ l
    · obtain ⟨s, t, rfl⟩ := List.append_of_mem hx
      exact ⟨x :: (s ++ t), List.perm_middle.symm, fun _ => ⟨_, rfl⟩⟩
    · exact ⟨l, List.Perm.refl l, fun h => absurd h hx⟩
  choose order hperm hfirst using hfront
  exact ⟨order, hperm, hfirst⟩

/-- The bonus is certain only if all other categories found are below that of SQL. -/
theorem others_below (hstandard : Standard ahoCorasick) (hscanner : buildOwaspScanner ahoCorasick = some scanner)
    (horder : Walks order) (hfirst : ∀ l, ("SQLi", 0.65) ∈ l → ∃ l', order l = ("SQLi", 0.65) :: l')
    (hmax : maxBy (inspectRequest order lower uri method body headers scanner).xaiFeatures = some ("SQLi", 0.65))
    {j k : ℕ} (hj : EndsPiece (normalised lower uri method body) j) (hsqli : classifyPattern j = ("SQLi", 0.65))
    (hk : EndsPiece (normalised lower uri method body) k) (hother : (classifyPattern k).1 ≠ "SQLi") :
    (classifyPattern k).2 < 0.65 := by
  have hin {k : ℕ} (hk : EndsPiece (normalised lower uri method body) k) :
      classifyPattern k ∈ (inspectRequest order lower uri method body headers scanner).xaiFeatures :=
    (mem_features hstandard hscanner horder).2 ⟨k, hk, rfl⟩
  have hclass : ∀ y ∈ (inspectRequest order lower uri method body headers scanner).xaiFeatures, y ∈ classes :=
    fun y hy => features_class hstandard hscanner horder hy
  obtain ⟨byCat, hnodup, hfeatures⟩ : ∃ byCat : List (String × Float32), (byCat.map Prod.fst).Nodup ∧
      (inspectRequest order lower uri method body headers scanner).xaiFeatures = order byCat :=
    ⟨_, (mem_byCat _).2, rfl⟩
  rw [hfeatures] at hin hmax hclass
  obtain ⟨l', hl'⟩ := hfirst byCat ((horder byCat).mem_iff.1 (hsqli ▸ hin hj))
  have hkeys := (((horder byCat).map Prod.fst).nodup_iff).2 hnodup
  rw [hl'] at hin hmax hclass hkeys
  have hnot : ("SQLi", 0.65) ∉ l' := (List.nodup_cons.1 hkeys.of_map).1
  refine maxBy_first (fun y hy => hclass y (List.mem_cons_of_mem _ hy)) hnot hmax _ ?_
  exact (List.mem_cons.1 (hin hk)).resolve_left fun heq => hother (congrArg Prod.fst heq)

/-- The score is at least the base score of each pattern that occurs in the request, in whatever order the categories
come. -/
def ScoreIsWorst (lower : List Char → List Char) (uri method body : List Char) (headers : HeaderMap)
    (scanner : List Char → List ℕ) : Prop :=
  ∀ order, Walks order → ∀ i, Occurs (normalised lower uri method body) i →
    (classifyPattern i).2 ≤ (inspectRequest order lower uri method body headers scanner).score

/-- **When the score is that of the worst finding**: a pattern at least as bad as each one that occurs ends a piece, or
the bonus makes up for it. -/
theorem score_worst_iff (hstandard : Standard ahoCorasick) (hscanner : buildOwaspScanner ahoCorasick = some scanner) :
    ScoreIsWorst lower uri method body headers scanner ↔
      ∀ i, Occurs (normalised lower uri method body) i →
        (∃ j, EndsPiece (normalised lower uri method body) j ∧ (classifyPattern i).2 ≤ (classifyPattern j).2) ∨
        (isForm headers = true ∧
          (∃ j, EndsPiece (normalised lower uri method body) j ∧ (classifyPattern j).1 = "SQLi") ∧
          (∀ j, EndsPiece (normalised lower uri method body) j → (classifyPattern j).1 ≠ "SQLi" →
            (classifyPattern j).2 < 0.65) ∧
          (classifyPattern i).2 ≤ 0.75) := by
  constructor
  · intro h i hi
    obtain ⟨order, horder, hfirst⟩ := exists_order ("SQLi", 0.65)
    have hle := h order horder i hi
    rcases @primary_cases _ _ lower order uri method body headers hstandard hscanner horder with
      ⟨-, hscore⟩ | ⟨j, hj, hprimary, hscore, -⟩
    · rw [hscore, bonus, if_neg (by simp)] at hle
      exact absurd hle (not_le_clean _ (classifyPattern_mem i))
    · by_cases hbonus : isForm headers = true ∧ (classifyPattern j).1 = "SQLi"
      · have hsqli := eq_sqli (classifyPattern_mem j) hbonus.2
        rw [hscore, hsqli, bonus_form hbonus.1] at hle
        rw [hsqli] at hprimary
        exact Or.inr ⟨hbonus.1, ⟨j, hj, hbonus.2⟩,
          fun k hk hother => others_below hstandard hscanner horder hfirst hprimary hj hsqli hk hother, hle⟩
      · rw [hscore, bonus_other hbonus] at hle
        exact Or.inl ⟨j, hj, hle⟩
  · intro h order horder i hi
    rcases @primary_cases _ _ lower order uri method body headers hstandard hscanner horder with
      ⟨hnone, -⟩ | ⟨worst, hworst, -, hscore, hmax⟩
    · rcases h i hi with ⟨j, hj, -⟩ | ⟨-, ⟨j, hj, -⟩, -⟩ <;> exact absurd hj (hnone j)
    · rw [hscore]
      have hclass := classifyPattern_mem
      rcases h i hi with ⟨j, hj, hle⟩ | ⟨hform, ⟨j, hj, hsqli⟩, hbelow, hle⟩
      · exact le_bonus headers (hclass i) (hclass worst)
          (classes_le_trans (hclass i) (hclass j) (hclass worst) hle (hmax j hj))
      · have hcategory : (classifyPattern worst).1 = "SQLi" := by
          by_contra hother
          have hj065 := hmax j hj
          rw [eq_sqli (hclass j) hsqli] at hj065
          exact (classes_not_lt sqli_mem (hclass worst)).2 hj065 (hbelow worst hworst hother)
        rw [eq_sqli (hclass worst) hcategory, bonus_form hform]
        exact hle

/-- A search that does what the documentation says. -/
theorem standard_scan : Standard fun patterns => some (scan patterns) := fun _ _ _ h _ => by rw [← Option.some.inj h]

/-- A request for `/?q=aLeRt%281)`, in which the pattern `alert(` is escaped. -/
theorem alert_found : (∀ i : Fin owaspPatterns.length, owaspPatterns[i] <:+:
      normalised (List.map Char.toLower) "/?q=aLeRt%281)".toList "GET".toList [] → i.val = 26) ∧
    26 ∈ scan owaspPatterns (normalised (List.map Char.toLower) "/?q=aLeRt%281)".toList "GET".toList []) := by
  decide +kernel

theorem alert_score : ScoreIsWorst (List.map Char.toLower) "/?q=aLeRt%281)".toList "GET".toList [] (fun _ => none)
    (scan owaspPatterns) := by
  have hfound := (mem_scanner standard_scan rfl).1 alert_found.2
  refine (score_worst_iff standard_scan rfl).2 fun i hi => Or.inl ⟨26, hfound, ?_⟩
  obtain ⟨p, hp, hin⟩ := hi
  obtain ⟨hlt, rfl⟩ := List.getElem?_eq_some_iff.1 hp
  obtain rfl : i = 26 := alert_found.1 ⟨i, hlt⟩ hin
  exact classes_le_refl (classifyPattern_mem 26)

/-- `eval(` ends a piece before `eval(base64` can end. -/
theorem eval_base64_missed : Standard (fun patterns => some (scan patterns)) ∧
    buildOwaspScanner (fun patterns => some (scan patterns)) = some (scan owaspPatterns) ∧
    ¬ ScoreIsWorst (List.map Char.toLower) "/?c=eval(base64".toList "GET".toList [] (fun _ => none)
      (scan owaspPatterns) := by
  refine ⟨standard_scan, rfl, fun h => ?_⟩
  have hoccurs : Occurs (normalised (List.map Char.toLower) "/?c=eval(base64".toList "GET".toList []) 73 :=
    ⟨"eval(base64".toList, rfl, by decide +kernel⟩
  have hle := h id List.Perm.refl 73 hoccurs
  revert hle
  decide +kernel

/-! ## Respellings -/

/-- A character as it may be written in a URI: in either case, and as it is, escaped, or escaped twice. -/
def Writes (c : Char) (t : List Char) : Prop :=
  ∃ d, d.toLower = c.toLower ∧ (t = [d] ∨ Spelled [d] t ∨ ∃ u, Spelled [d] u ∧ Spelled u t)

def Respelled (s t : List Char) : Prop := ∃ ts, List.Forall₂ Writes s ts ∧ ts.flatten = t

/-- The category of a pattern is reported, with at least the base score of the pattern. -/
def Reports (lower : List Char → List Char) (uri method body : List Char) (headers : HeaderMap)
    (scanner : List Char → List ℕ) (i : ℕ) : Prop :=
  ∀ order, Walks order → ∃ v, ((classifyPattern i).1, v) ∈
    (inspectRequest order lower uri method body headers scanner).xaiFeatures ∧ (classifyPattern i).2 ≤ v

/-- **When the category of a pattern is reported**: a pattern of the category ends a piece of the text. -/
theorem category_reported_iff (hstandard : Standard ahoCorasick)
    (hscanner : buildOwaspScanner ahoCorasick = some scanner) : Reports lower uri method body headers scanner i ↔
      ∃ j, EndsPiece (normalised lower uri method body) j ∧ (classifyPattern j).1 = (classifyPattern i).1 := by
  constructor
  · intro h
    obtain ⟨v, hv, -⟩ := h id List.Perm.refl
    obtain ⟨j, hj, heq⟩ := (mem_features hstandard hscanner List.Perm.refl).1 hv
    exact ⟨j, hj, by rw [heq]⟩
  · rintro ⟨j, hj, hcategory⟩ order horder
    have heq := classes_unique _ (classifyPattern_mem j) _ (classifyPattern_mem i) hcategory
    exact ⟨_, (mem_features hstandard hscanner horder).2 ⟨j, hj, heq⟩, classes_le_refl (classifyPattern_mem i)⟩

/-! ### Patterns within a text -/

/-- Behind the text no pattern of another category ends within the pattern. -/
def Clear (i : ℕ) (p x : List Char) : Prop :=
  ∀ j q, owaspPatterns[j]? = some q → (classifyPattern j).1 ≠ (classifyPattern i).1 →
    ∀ p', p' <+: p → p' ≠ [] → p' ≠ p → ¬ q <:+ x ++ p'

/-- **A pattern that is clear is reported.** -/
theorem reported_of_clear (hstandard : Standard ahoCorasick) (hscanner : buildOwaspScanner ahoCorasick = some scanner)
    {p x y : List Char} (hp : owaspPatterns[i]? = some p) (htext : normalised lower uri method body = x ++ (p ++ y))
    (hclear : Clear i p x) : Reports lower uri method body headers scanner i := by
  refine (category_reported_iff hstandard hscanner).2 ?_
  obtain ⟨pieces, hcut⟩ := EarliestSearch.exists_cut patterns_ne_nil (normalised lower uri method body)
  obtain ⟨piece, hpiece, q, hq, hends, p', hp', hne, hwithin⟩ := hcut.ends_within htext (List.mem_of_getElem? hp)
  obtain ⟨j, hj⟩ := List.getElem?_of_mem hq
  by_contra hnot
  have hcategory : (classifyPattern j).1 ≠ (classifyPattern i).1 :=
    fun heq => hnot ⟨j, ⟨q, pieces, hj, hcut, piece, hpiece, hends⟩, heq⟩
  by_cases hwhole : p' = p
  · -- no pattern ends with another one
    have hne : i ≠ j := fun heq => hcategory (by rw [heq])
    obtain ⟨hi, rfl⟩ := List.getElem?_eq_some_iff.1 hp
    obtain ⟨hlt, rfl⟩ := List.getElem?_eq_some_iff.1 hj
    have hor := List.suffix_or_suffix_of_suffix (hwhole ▸ hwithin) (List.suffix_append x owaspPatterns[i])
    rcases Nat.lt_or_gt_of_ne hne with hij | hij
    · exact not_or.2 (List.pairwise_iff_getElem.1 patterns_apart i j hi hlt hij) hor.symm
    · exact not_or.2 (List.pairwise_iff_getElem.1 patterns_apart j i hlt hi hij) hor
  · exact hclear j q hj hcategory p' hp' hne hwhole hwithin

/-- No pattern of another category has an end in common with a part of this one. -/
def Uncut (i : ℕ) (p : List Char) : Prop :=
  ∀ j : Fin owaspPatterns.length, (classifyPattern j).1 ≠ (classifyPattern i).1 →
    ∀ p' ∈ p.inits, p' ≠ [] → p' ≠ p → ¬ p' <:+ owaspPatterns[j] ∧ ¬ owaspPatterns[j] <:+ p'

/-- Such a pattern is clear behind every text. -/
theorem clear_of_uncut {p : List Char} (h : Uncut i p) (x : List Char) : Clear i p x := by
  intro j q hj hcategory p' hp' hne hproper hwithin
  obtain ⟨hlt, rfl⟩ := List.getElem?_eq_some_iff.1 hj
  have hapart := h ⟨j, hlt⟩ hcategory p' ((List.mem_inits p' p).2 hp') hne hproper
  exact not_or.2 hapart (List.suffix_or_suffix_of_suffix (List.suffix_append x p') hwithin)

/-! ### What is seen of a respelling -/

theorem patterns_ascii : ∀ p ∈ owaspPatterns, IsAscii p ∧ 2 ≤ p.length := by
  intro p hp
  obtain ⟨hlength, hcodes⟩ := patterns_codes.1 _ (List.mem_map_of_mem hp)
  rw [List.length_map, List.length_reverse] at hlength
  exact ⟨fun c hc => hcodes _ (List.mem_map_of_mem (List.mem_reverse.2 hc)), hlength⟩

/-- The respelling `t` of the pattern is read between `front` and `rest`. In lower case it is the pattern, or it writes
the pattern with escapes and no escape in front reaches into it; and no pattern of another category ends within it. -/
def Seen (L : Lowercase) (i : ℕ) (p front t rest : List Char) : Prop :=
  ∀ xs, List.Forall₂ L.Becomes front xs →
    (t.map Char.toLower = p ∧ Clear i p xs.flatten) ∨
    (Spelled p (t.map Char.toLower) ∧ ¬ Torn xs.flatten (t.map Char.toLower) ∧
      Clear i p (L.text (front ++ (t ++ rest)) ++ ' ' :: urlDecode xs.flatten))

/-- What is read is ASCII. -/
theorem Seen.ascii {L : Lowercase} {p front t rest : List Char} (h : Seen L i p front t rest) (hp : IsAscii p) :
    IsAscii t := by
  obtain ⟨xs, hxs, -⟩ := L.exists_text front
  have hlower : IsAscii (t.map Char.toLower) := by
    rcases h xs hxs with ⟨rfl, -⟩ | ⟨hspelled, -⟩
    · exact hp
    · exact hspelled.ascii hp
  exact fun c hc => Lowercase.ascii_of_toLower (hlower _ (List.mem_map_of_mem hc))

/-- **A respelling that is seen is reported.** -/
theorem respelled_reported {L : Lowercase} {p u t v : List Char} (hstandard : Standard ahoCorasick)
    (hscanner : buildOwaspScanner ahoCorasick = some scanner) (hp : owaspPatterns[i]? = some p)
    (h : Seen L i p (method ++ ' ' :: u) t (v ++ ' ' :: body)) :
    Reports L.text (u ++ (t ++ v)) method body headers scanner i := by
  obtain ⟨hascii, hlength⟩ := patterns_ascii p (List.mem_of_getElem? hp)
  have ht := h.ascii hascii
  obtain ⟨xs, ys, hxs, htext⟩ := L.text_append (method ++ ' ' :: u) (v ++ ' ' :: body) ht
  have hnormalised : normalised L.text (u ++ (t ++ v)) method body =
      L.text (method ++ ' ' :: u ++ (t ++ (v ++ ' ' :: body))) ++ ' ' ::
        urlDecode (xs.flatten ++ (t.map Char.toLower ++ ys)) := by
    rw [← htext, normalised]
    simp only [List.append_assoc, List.cons_append]
  rcases h xs hxs with ⟨rfl, hclear⟩ | ⟨hspelled, htorn, hclear⟩
  · refine reported_of_clear (y := ys ++ ' ' :: urlDecode (xs.flatten ++ (t.map Char.toLower ++ ys))) hstandard hscanner
      hp (hnormalised.trans ?_) hclear
    rw [htext, List.append_assoc, List.append_assoc]
  · have hlong := hlength.trans hspelled.length_le
    obtain ⟨behind, hdecoded⟩ := urlDecode_within hascii (isAscii_toLower ht) hlong hspelled htorn ys
    refine reported_of_clear (y := behind) hstandard hscanner hp (hnormalised.trans ?_) hclear
    simp only [hdecoded, List.append_assoc, List.cons_append]

theorem script_reported : Reports Lowercase.simple.text ("/?q=".toList ++ ("<ScRiPt%3E".toList ++ "1".toList))
    "GET".toList [] (fun _ => none) (scan owaspPatterns) 20 := by
  refine respelled_reported standard_scan rfl rfl fun xs hxs => ?_
  rw [Lowercase.flatten_ascii hxs (by decide)]
  refine .inr ⟨?_, ?_, clear_of_uncut (by unfold Uncut; decide +kernel) _⟩
  · iterate 7 refine .self (by decide) (by decide) ?_
    exact .escape (m := 3) (n := 14) rfl rfl rfl .nil
  · exact fun htorn => absurd htorn.mem_front (by decide)

/-- Of two escapes, one is decoded. -/
theorem double_escape_unreported : Standard (fun patterns => some (scan patterns)) ∧
    buildOwaspScanner (fun patterns => some (scan patterns)) = some (scan owaspPatterns) ∧
    owaspPatterns[26]? = some "alert(".toList ∧ Respelled "alert(".toList "%2561lert(".toList ∧
    ¬ Reports Lowercase.simple.text ("/?q=".toList ++ "%2561lert(".toList ++ "1)".toList) "GET".toList []
      (fun _ => none) (scan owaspPatterns) 26 := by
  have hself (c : Char) : Writes c [c] := ⟨c, rfl, Or.inl rfl⟩
  have hfirst : Writes 'a' "%2561".toList := by
    refine ⟨'a', rfl, Or.inr (Or.inr ⟨"%61".toList, .escape (m := 6) (n := 1) rfl rfl rfl .nil, ?_⟩)⟩
    exact .escape (m := 2) (n := 5) rfl rfl rfl (.self (by decide) (by decide) (.self (by decide) (by decide) .nil))
  refine ⟨standard_scan, rfl, rfl, ⟨["%2561".toList, ['l'], ['e'], ['r'], ['t'], ['(']], ?_, rfl⟩, fun h => ?_⟩
  · exact .cons hfirst (.cons (hself 'l') (.cons (hself 'e') (.cons (hself 'r') (.cons (hself 't')
      (.cons (hself '(') .nil)))))
  · have hnone : scan owaspPatterns (normalised Lowercase.simple.text
        ("/?q=".toList ++ "%2561lert(".toList ++ "1)".toList) "GET".toList []) = [] := by decide +kernel
    obtain ⟨v, hv, -⟩ := h id List.Perm.refl
    obtain ⟨j, hj, -⟩ := (mem_features standard_scan rfl List.Perm.refl).1 hv
    have hmem := (@mem_scanner (fun patterns => some (scan patterns)) _ _ _ standard_scan rfl).2 hj
    rw [hnone] at hmem
    exact List.not_mem_nil hmem

end ThorFirewall.Web
