import Mathlib
import ThorFirewall.Fingerprint.ClientHello
import ThorFirewall.Lib.Sha256
import ThorFirewall.Lib.TextSearch
import ThorFirewall.Lib.Wire

/-!
# JA4 fingerprints (`fingerprint/ja4.rs`)

A fingerprint is a part in clear, of fixed widths but for the ALPN code in it, and the beginnings of two SHA-256 hashes:
of the sorted cipher suites, and of the sorted extensions with the signature algorithms.

- `parts_of_fingerprint`: a fingerprint has one reading;
- `cipherText_inj`, `extText_inj`: so have the hashed texts;
- `fingerprint_eq_iff`: hellos have the same fingerprint exactly if they agree when normalised.
-/

namespace ThorFirewall.Fingerprint

/-! ## Texts -/

/-- `s.replace(pattern, with)`. -/
def replace (pattern new : List Char) : List Char → List Char
  | [] => []
  | c :: s =>
    if pattern.isPrefixOf (c :: s) then new ++ replace pattern new (s.drop (pattern.length - 1))
    else c :: replace pattern new s
termination_by s => s.length
decreasing_by
  · rw [List.length_drop, List.length_cons]
    omega
  · exact Nat.lt_succ_self _

def isGrease (value : UInt16) : Bool :=
  let lo := value &&& 0x00ff
  let hi := (value >>> 8) &&& 0xff
  lo = 0x0a && hi = lo

def tlsVersionStr (v : UInt16) : List Char :=
  if v = 0x0304 ∨ 0x7f00 ≤ v ∧ v ≤ 0x7fff then ['1', '3']
  else if v = 0x0303 then ['1', '2']
  else if v = 0x0302 then ['1', '1']
  else if v = 0x0301 then ['1', '0']
  else if v = 0x0300 then ['s', '3']
  else if v = 0x0200 then ['s', '2']
  else ['0', '0']

/-- `{:04x}`. -/
def hex4 (v : UInt16) : List Char :=
  [v.toNat / 4096, v.toNat / 256 % 16, v.toNat / 16 % 16, v.toNat % 16].map Sha256.hexDigit

/-- `{:02}` of a number below 100. -/
def digits2 (n : ℕ) : List Char := [n / 10, n % 10].map Nat.digitChar

/-- `join(",")` of the numbers. -/
def csv (values : List UInt16) : List Char := [','].intercalate (values.map hex4)

/-- `hex_sha256`, the first 12 digits. -/
def hash12 (s : List Char) : List Char := (Sha256.hexDigest (String.ofList s)).toList.take 12

/-! ## The fingerprint -/

structure Ja4Fingerprint where
  fingerprint : List Char
  tlsVersion : List Char
  sniFlag : Char
  cipherCount : ℕ
  extCount : ℕ
  alpnFirst : List Char
  deriving DecidableEq

section FromParsed

variable (hello : ClientHello)

def effectiveVersion : UInt16 :=
  ((hello.supportedVersions.filter fun v => 0x0304 ≤ v).max?).getD hello.tlsVersion

def sniFlag : Char := if hello.sni.isSome then 'd' else 'i'

def ciphers : List UInt16 := hello.cipherSuites.filter fun c => !isGrease c

def exts : List UInt16 := hello.extensions.filter fun e => !isGrease e

def alpnFirst : List Char :=
  match hello.alpn with
  | [] => ['0', '0']
  | s :: _ =>
    let s := replace ['h', '2'] ['h', '2'] s
    let s := replace "http/1.1".toList ['h', '1'] s
    let s := replace "http/1.0".toList ['h', '1'] s
    s.take 2

/-- The text of the sorted cipher suites. -/
def cipherText : List Char := csv ((ciphers hello).insertionSort (· ≤ ·))

/-- The text of the sorted extensions, and of the signature algorithms if there are any. -/
def extText : List Char :=
  let extCsv := csv ((exts hello).insertionSort (· ≤ ·))
  let sigCsv := csv hello.signatureAlgorithms
  if sigCsv.isEmpty then extCsv else extCsv ++ '_' :: sigCsv

/-- `t{ver}{sni}{ciphers:02}{exts:02}{alpn}`. -/
def partA : List Char :=
  't' :: (tlsVersionStr (effectiveVersion hello) ++ sniFlag hello :: (digits2 (min (ciphers hello).length 99) ++
    (digits2 (min (exts hello).length 99) ++ alpnFirst hello)))

def fromParsed : Ja4Fingerprint where
  fingerprint := partA hello ++ '_' :: (hash12 (cipherText hello) ++ '_' :: hash12 (extText hello))
  tlsVersion := tlsVersionStr (effectiveVersion hello)
  sniFlag := sniFlag hello
  cipherCount := min (ciphers hello).length 99
  extCount := min (exts hello).length 99
  alpnFirst := alpnFirst hello

end FromParsed

/-- Two hellos agree when normalised. -/
structure SameNormalised (a b : ClientHello) : Prop where
  version : tlsVersionStr (effectiveVersion a) = tlsVersionStr (effectiveVersion b)
  sni : a.sni.isSome = b.sni.isSome
  alpn : alpnFirst a = alpnFirst b
  ciphers : (ciphers a).Perm (ciphers b)
  extensions : (exts a).Perm (exts b)
  signatureAlgorithms : a.signatureAlgorithms = b.signatureAlgorithms

/-- The hashes of the two hellos do not collide. -/
structure NoCollision (a b : ClientHello) : Prop where
  ciphers : hash12 (cipherText a) = hash12 (cipherText b) → cipherText a = cipherText b
  extensions : hash12 (extText a) = hash12 (extText b) → extText a = extText b

/-! ## One reading -/

theorem hexDigit_inj : ∀ m < 16, ∀ n < 16, Sha256.hexDigit m = Sha256.hexDigit n → m = n := by decide

theorem hex4_inj {v w : UInt16} (h : hex4 v = hex4 w) : v = w := by
  simp only [hex4, List.map_cons, List.map_nil, List.cons.injEq, and_true] at h
  obtain ⟨h3, h2, h1, h0⟩ := h
  have hv := v.toNat_lt
  have hw := w.toNat_lt
  apply UInt16.toNat_inj.1
  have e3 := hexDigit_inj _ (by omega) _ (by omega) h3
  have e2 := hexDigit_inj _ (by omega) _ (by omega) h2
  have e1 := hexDigit_inj _ (by omega) _ (by omega) h1
  have e0 := hexDigit_inj _ (by omega) _ (by omega) h0
  omega

theorem hexDigit_ne : ∀ n < 16, Sha256.hexDigit n ≠ ',' ∧ Sha256.hexDigit n ≠ '_' := by decide

/-- A number is spelled without separators. -/
theorem not_mem_hex4 {c : Char} (hc : c = ',' ∨ c = '_') (v : UInt16) : c ∉ hex4 v := by
  intro hmem
  obtain ⟨n, hn, rfl⟩ := List.mem_map.1 hmem
  have hlt : n < 16 := by
    have hv := v.toNat_lt
    simp only [List.mem_cons, List.not_mem_nil, or_false] at hn
    omega
  obtain ⟨hcomma, hscore⟩ := hexDigit_ne n hlt
  exact hc.elim hcomma hscore

theorem csv_ne_nil {values : List UInt16} (h : values ≠ []) : csv values ≠ [] := by
  obtain ⟨v, vs, rfl⟩ := List.exists_cons_of_ne_nil h
  intro hnil
  have hinfix : hex4 v <:+: csv (v :: vs) := TextSearch.infix_intercalate List.mem_cons_self
  rw [hnil, List.infix_nil] at hinfix
  cases hinfix

theorem csv_inj {values values' : List UInt16} (h : csv values = csv values') : values = values' := by
  by_cases hnil : values = []
  · by_contra hne
    rw [hnil] at h hne
    exact csv_ne_nil (Ne.symm hne) h.symm
  · have hnil' : values' ≠ [] := by
      rintro rfl
      exact csv_ne_nil hnil h
    have hsplit : ∀ {vs : List UInt16}, vs ≠ [] → (csv vs).splitOn ',' = vs.map hex4 := by
      intro vs hvs
      apply List.splitOn_intercalate
      · intro l hl
        obtain ⟨v, -, rfl⟩ := List.mem_map.1 hl
        exact not_mem_hex4 (Or.inl rfl) v
      · exact fun hmap => hvs (List.map_eq_nil_iff.1 hmap)
    have hmap := congrArg (List.splitOn ',') h
    rw [hsplit hnil, hsplit hnil'] at hmap
    exact List.map_injective_iff.2 (fun _ _ => hex4_inj) hmap

theorem underscore_not_mem_csv (values : List UInt16) : '_' ∉ csv values := by
  intro hmem
  have hfilter := List.mem_filter.2 ⟨hmem, beq_self_eq_true '_'⟩
  rw [csv, TextSearch.filter_intercalate (by decide)] at hfilter
  obtain ⟨l, hl, hmem⟩ := List.mem_flatten.1 (List.mem_of_mem_filter hfilter)
  obtain ⟨v, -, rfl⟩ := List.mem_map.1 hl
  exact not_mem_hex4 (Or.inr rfl) v hmem

theorem insertionSort_eq_iff {l l' : List UInt16} :
    l.insertionSort (· ≤ ·) = l'.insertionSort (· ≤ ·) ↔ l.Perm l' := by
  constructor
  · intro h
    exact (List.perm_insertionSort _ l).symm.trans (h ▸ List.perm_insertionSort _ l')
  · intro h
    apply List.Perm.eq_of_pairwise' (r := (· ≤ ·))
    · exact List.pairwise_insertionSort (· ≤ ·) l
    · exact List.pairwise_insertionSort (· ≤ ·) l'
    · exact ((List.perm_insertionSort _ l).trans h).trans (List.perm_insertionSort _ l').symm

/-- **The text of the cipher suites** has one reading. -/
theorem cipherText_inj {a b : ClientHello} (h : cipherText a = cipherText b) : (ciphers a).Perm (ciphers b) :=
  insertionSort_eq_iff.1 (csv_inj h)

theorem extText_of_nil {hello : ClientHello} (h : hello.signatureAlgorithms = []) :
    extText hello = csv ((exts hello).insertionSort (· ≤ ·)) := by
  rw [extText, h]
  rfl

theorem extText_of_ne_nil {hello : ClientHello} (h : hello.signatureAlgorithms ≠ []) : extText hello =
    csv ((exts hello).insertionSort (· ≤ ·)) ++ '_' :: csv hello.signatureAlgorithms := by
  rw [extText, if_neg fun hempty => csv_ne_nil h (List.isEmpty_iff.1 hempty)]

/-- **The text of the extensions** has one reading. -/
theorem extText_inj {a b : ClientHello} (h : extText a = extText b) :
    (exts a).Perm (exts b) ∧ a.signatureAlgorithms = b.signatureAlgorithms := by
  by_cases ha : a.signatureAlgorithms = [] <;> by_cases hb : b.signatureAlgorithms = []
  · rw [extText_of_nil ha, extText_of_nil hb] at h
    exact ⟨insertionSort_eq_iff.1 (csv_inj h), ha.trans hb.symm⟩
  · rw [extText_of_nil ha, extText_of_ne_nil hb] at h
    exact absurd (h ▸ List.mem_append_right _ List.mem_cons_self) (underscore_not_mem_csv _)
  · rw [extText_of_ne_nil ha, extText_of_nil hb] at h
    exact absurd (h ▸ List.mem_append_right _ List.mem_cons_self) (underscore_not_mem_csv _)
  · rw [extText_of_ne_nil ha, extText_of_ne_nil hb,
      Wire.append_cons_inj (underscore_not_mem_csv _) (underscore_not_mem_csv _)] at h
    exact ⟨insertionSort_eq_iff.1 (csv_inj h.1), csv_inj h.2⟩

theorem length_hash12 (s : List Char) : (hash12 s).length = 12 := by
  rw [hash12, List.length_take, String.length_toList, Sha256.length_hexDigest]
  rfl

theorem length_tlsVersionStr (v : UInt16) : (tlsVersionStr v).length = 2 := by
  unfold tlsVersionStr
  split_ifs <;> rfl

/-- The hashes are the end of a fingerprint. -/
theorem partA_of_fingerprint {a b : ClientHello} (h : (fromParsed a).fingerprint = (fromParsed b).fingerprint) :
    partA a = partA b ∧ hash12 (cipherText a) = hash12 (cipherText b) ∧ hash12 (extText a) = hash12 (extText b) := by
  simp only [fromParsed] at h
  obtain ⟨hpart, hhashes⟩ := List.append_inj' h (by simp only [List.length_cons, List.length_append, length_hash12])
  obtain ⟨hcipher, hext⟩ := List.append_inj (List.cons.inj hhashes).2 (by rw [length_hash12, length_hash12])
  exact ⟨hpart, hcipher, (List.cons.inj hext).2⟩

/-- All in front of the ALPN code is of fixed width. -/
theorem fields_of_partA {a b : ClientHello} (h : partA a = partA b) :
    (tlsVersionStr (effectiveVersion a) = tlsVersionStr (effectiveVersion b) ∧ sniFlag a = sniFlag b ∧
      alpnFirst a = alpnFirst b) ∧
      digits2 (min (ciphers a).length 99) = digits2 (min (ciphers b).length 99) ∧
        digits2 (min (exts a).length 99) = digits2 (min (exts b).length 99) := by
  obtain ⟨hversion, hrest⟩ := List.append_inj (List.cons.inj h).2
    (by rw [length_tlsVersionStr, length_tlsVersionStr])
  obtain ⟨hsni, hcounts⟩ := List.cons.inj hrest
  obtain ⟨hciphers, hcounts⟩ := List.append_inj hcounts rfl
  obtain ⟨hexts, halpn⟩ := List.append_inj hcounts rfl
  exact ⟨⟨hversion, hsni, halpn⟩, hciphers, hexts⟩

/-- **A fingerprint has one reading.** -/
theorem parts_of_fingerprint {a b : ClientHello} (h : (fromParsed a).fingerprint = (fromParsed b).fingerprint) :
    (tlsVersionStr (effectiveVersion a) = tlsVersionStr (effectiveVersion b) ∧ sniFlag a = sniFlag b ∧
      alpnFirst a = alpnFirst b) ∧
      hash12 (cipherText a) = hash12 (cipherText b) ∧ hash12 (extText a) = hash12 (extText b) := by
  obtain ⟨hpart, hhashes⟩ := partA_of_fingerprint h
  exact ⟨(fields_of_partA hpart).1, hhashes⟩

theorem digitChar_inj : ∀ m < 10, ∀ n < 10, Nat.digitChar m = Nat.digitChar n → m = n := by decide

theorem digits2_inj {m n : ℕ} (hm : m ≤ 99) (hn : n ≤ 99) (h : digits2 m = digits2 n) : m = n := by
  simp only [digits2, List.map_cons, List.map_nil, List.cons.injEq, and_true] at h
  have htens := digitChar_inj _ (by omega) _ (by omega) h.1
  have hones := digitChar_inj _ (by omega) _ (by omega) h.2
  omega

theorem sniFlag_eq_iff {a b : ClientHello} : sniFlag a = sniFlag b ↔ a.sni.isSome = b.sni.isSome := by
  rw [sniFlag, sniFlag]
  cases a.sni.isSome <;> cases b.sni.isSome <;> decide

theorem SameNormalised.fromParsed_eq {a b : ClientHello} (h : SameNormalised a b) : fromParsed a = fromParsed b := by
  have hcipher : cipherText a = cipherText b := congrArg csv (insertionSort_eq_iff.2 h.ciphers)
  have hext : extText a = extText b := by
    rw [extText, extText, insertionSort_eq_iff.2 h.extensions, h.signatureAlgorithms]
  have hpart : partA a = partA b := by
    rw [partA, partA, h.version, sniFlag_eq_iff.2 h.sni, h.ciphers.length_eq, h.extensions.length_eq, h.alpn]
  simp only [fromParsed, hpart, hcipher, hext, h.version, sniFlag_eq_iff.2 h.sni, h.ciphers.length_eq,
    h.extensions.length_eq, h.alpn]

/-- **JA4 identifies the normalised hello**, without collisions; in particular, the order of cipher suites and
extensions does not matter. -/
theorem fingerprint_eq_iff :
    (∀ a b, NoCollision a b → ((fromParsed a).fingerprint = (fromParsed b).fingerprint ↔ SameNormalised a b)) ∧
      ∀ hello cipherSuites extensions, cipherSuites.Perm hello.cipherSuites → extensions.Perm hello.extensions →
        (fromParsed { hello with cipherSuites, extensions }).fingerprint = (fromParsed hello).fingerprint := by
  refine ⟨fun a b hcol => ⟨fun h => ?_, fun h => congrArg _ h.fromParsed_eq⟩, fun hello cs es hcs hes => ?_⟩
  · obtain ⟨⟨hversion, hsni, halpn⟩, hcipher, hext⟩ := parts_of_fingerprint h
    obtain ⟨hexts, hsigs⟩ := extText_inj (hcol.extensions hext)
    exact ⟨hversion, sniFlag_eq_iff.1 hsni, halpn, cipherText_inj (hcol.ciphers hcipher), hexts, hsigs⟩
  · have hsame : SameNormalised { hello with cipherSuites := cs, extensions := es } hello :=
      ⟨rfl, rfl, rfl, hcs.filter _, hes.filter _, rfl⟩
    exact congrArg _ hsame.fromParsed_eq

/-- A hello of TLS 1.3 for a domain. -/
def sampleHello (signatureAlgorithms : List UInt16) : ClientHello where
  tlsVersion := 0x0303
  supportedVersions := [0x0304]
  cipherSuites := [0x1302, 0x0a0a, 0x1301]
  extensions := [0x000d, 0x0000]
  sni := some ['a']
  alpn := [['h', '2']]
  signatureAlgorithms := signatureAlgorithms
  supportedGroups := []

/-- Other signature algorithms make another fingerprint. -/
theorem fingerprint_of_signatures :
    (fromParsed (sampleHello [0x0403])).fingerprint ≠ (fromParsed (sampleHello [0x0804])).fingerprint := by
  intro h
  have hcol : NoCollision (sampleHello [0x0403]) (sampleHello [0x0804]) := ⟨fun _ => rfl, by decide +kernel⟩
  have hsame := (fingerprint_eq_iff.1 _ _ hcol).1 h
  exact absurd hsame.signatureAlgorithms (by decide)

end ThorFirewall.Fingerprint
