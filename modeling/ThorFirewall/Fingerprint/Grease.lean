import Mathlib
import ThorFirewall.Fingerprint.Ja4

/-!
# GREASE in a hello (`fingerprint/ja4.rs`)

Browsers put one of 16 reserved values (GREASE) into the lists of a hello, another one on every connection.
`is_grease` knows one of the 16, and the versions are not filtered at all:

- `version_grease_iff`: the versions are reduced by a maximum, and a GREASE version above the offered ones has no name;
- `counted_grease_iff`: a list is counted as before exactly if all values put into it are the one that is known;
- `fingerprint_grease_iff`: so a fingerprint is kept.
-/

namespace ThorFirewall.Fingerprint

/-- The values of RFC 8701: 0x0a0a, 0x1a1a, ..., 0xfafa. -/
def greaseValues : List UInt16 :=
  [0x0a0a, 0x1a1a, 0x2a2a, 0x3a3a, 0x4a4a, 0x5a5a, 0x6a6a, 0x7a7a, 0x8a8a, 0x9a9a, 0xaaaa, 0xbaba, 0xcaca, 0xdada,
    0xeaea, 0xfafa]

/-- `new` is `old` with the values `values` put in, anywhere. -/
inductive Inserted {α : Type*} : (values old new : List α) → Prop
  | nil : Inserted [] [] []
  | keep (x : α) {values old new} : Inserted values old new → Inserted values (x :: old) (x :: new)
  | insert (x : α) {values old new} : Inserted values old new → Inserted (x :: values) old (x :: new)

/-- The GREASE values that are put into the lists of a hello. -/
structure Greased (hello new : ClientHello) (cs es vs : List UInt16) : Prop where
  ciphers : Inserted cs hello.cipherSuites new.cipherSuites
  extensions : Inserted es hello.extensions new.extensions
  versions : Inserted vs hello.supportedVersions new.supportedVersions
  values : ∀ g ∈ cs ++ es ++ vs, g ∈ greaseValues
  rest : new = { hello with
    cipherSuites := new.cipherSuites
    extensions := new.extensions
    supportedVersions := new.supportedVersions }

/-- The version that a hello stands for: the highest one it offers from TLS 1.3 on, else the one in its header. -/
def StandsFor (hello : ClientHello) (v : UInt16) : Prop :=
  (v ∈ hello.supportedVersions ∧ 0x0304 ≤ v ∧ ∀ w ∈ hello.supportedVersions, w ≤ v) ∨
    (∀ w ∈ hello.supportedVersions, w < 0x0304) ∧ v = hello.tlsVersion

/-- The values do not matter to the fingerprint: the one that `is_grease` knows in ciphers and extensions, and versions
that are below an offered one, or where the version has no name anyway. -/
structure Ignored (hello : ClientHello) (cs es vs : List UInt16) : Prop where
  ciphers : ∀ g ∈ cs, g = 0x0a0a
  extensions : ∀ g ∈ es, g = 0x0a0a
  versions : (∀ g ∈ vs, ∃ v ∈ hello.supportedVersions, g ≤ v) ∨
    ∃ v, StandsFor hello v ∧ tlsVersionStr v = ['0', '0']

/-- Where the counts of a fingerprint are at their limit, the hashes do not collide. -/
structure NoLongCollision (a b : ClientHello) : Prop where
  ciphers : 99 ≤ (ciphers a).length → hash12 (cipherText b) = hash12 (cipherText a) → cipherText b = cipherText a
  extensions : 99 ≤ (exts a).length → hash12 (extText b) = hash12 (extText a) → extText b = extText a

/-! ## Lists with more values -/

section Inserted

variable {α : Type*} {values old new : List α}

theorem Inserted.perm (h : Inserted values old new) : new.Perm (values ++ old) := by
  induction h with
  | nil => exact List.Perm.refl _
  | keep x _ ih => exact (ih.cons x).trans List.perm_middle.symm
  | insert x _ ih => exact ih.cons x

theorem Inserted.mem_iff (h : Inserted values old new) {x : α} : x ∈ new ↔ x ∈ values ∨ x ∈ old := by
  rw [h.perm.mem_iff, List.mem_append]

theorem Inserted.length_filter (h : Inserted values old new) (p : α → Bool) :
    (new.filter p).length = (values.filter p).length + (old.filter p).length := by
  rw [(h.perm.filter p).length_eq, List.filter_append, List.length_append]

/-- Values that are filtered out leave the list as it is. -/
theorem Inserted.filter_eq (h : Inserted values old new) {p : α → Bool} (hp : ∀ x ∈ values, p x = false) :
    new.filter p = old.filter p := by
  induction h with
  | nil => rfl
  | keep x _ ih => rw [List.filter_cons, List.filter_cons, ih hp]
  | insert x _ ih =>
    rw [List.filter_cons_of_neg (by rw [hp x List.mem_cons_self]; exact Bool.false_ne_true)]
    exact ih fun y hy => hp y (List.mem_cons_of_mem _ hy)

theorem inserted_refl (l : List α) : Inserted [] l l := by
  induction l with
  | nil => exact Inserted.nil
  | cons x l ih => exact ih.keep x

end Inserted

/-! ## One value after the other -/

theorem isGrease_iff : ∀ g ∈ greaseValues, isGrease g = true ↔ g = 0x0a0a := by
  simp only [greaseValues, List.forall_mem_cons, List.not_mem_nil, false_imp_iff, implies_true]
  decide

theorem grease_is_high : ∀ g ∈ greaseValues, 0x0304 ≤ g ∧ tlsVersionStr g = ['0', '0'] := by
  simp only [greaseValues, List.forall_mem_cons, List.not_mem_nil, false_imp_iff, implies_true]
  decide

/-- The length of a list that GREASE values are put into and that is then filtered. -/
theorem counted_grease_iff {values old new : List UInt16} (h : Inserted values old new)
    (hvalues : ∀ g ∈ values, g ∈ greaseValues) :
    (new.filter fun x => !isGrease x).length = (old.filter fun x => !isGrease x).length ↔
      ∀ g ∈ values, g = 0x0a0a := by
  have hmem : ∀ g ∈ values, ((!isGrease g) = false ↔ g = 0x0a0a) := by
    intro g hg
    rw [Bool.not_eq_false', isGrease_iff g (hvalues g hg)]
  rw [h.length_filter, Nat.add_eq_right, List.length_eq_zero_iff, List.filter_eq_nil_iff]
  constructor
  · intro hnone g hg
    exact (hmem g hg).1 (Bool.eq_false_of_not_eq_true (hnone g hg))
  · intro hall g hg
    rw [(hmem g hg).2 (hall g hg)]
    exact Bool.false_ne_true

/-! ## The version -/

instance instLawfulOrderMaxUInt16 : Std.LawfulOrderMax UInt16 := by
  apply Std.LawfulOrderMax.of_max_le_iff
  · intro a b c
    change (if a ≤ b then b else a) ≤ c ↔ _
    split_ifs with hab
    · exact ⟨fun hbc => ⟨UInt16.le_trans hab hbc, hbc⟩, fun h => h.2⟩
    · exact ⟨fun hac => ⟨hac, UInt16.le_trans (UInt16.le_of_lt (UInt16.not_le.1 hab)) hac⟩, fun h => h.1⟩
  · intro a b
    change (if a ≤ b then b else a) = a ∨ (if a ≤ b then b else a) = b
    split_ifs
    · exact Or.inr rfl
    · exact Or.inl rfl

theorem standsFor_effectiveVersion (hello : ClientHello) : StandsFor hello (effectiveVersion hello) := by
  cases hmax : (hello.supportedVersions.filter fun v => 0x0304 ≤ v).max? with
  | some v =>
    rw [effectiveVersion, hmax, Option.getD_some]
    obtain ⟨hmem, hle⟩ := List.max?_eq_some_iff.1 hmax
    obtain ⟨hv, hhigh⟩ := List.mem_filter.1 hmem
    have hhigh := of_decide_eq_true hhigh
    refine Or.inl ⟨hv, hhigh, fun w hw => ?_⟩
    rcases UInt16.le_total 0x0304 w with hw' | hw'
    · exact hle w (List.mem_filter.2 ⟨hw, decide_eq_true hw'⟩)
    · exact UInt16.le_trans hw' hhigh
  | none =>
    rw [effectiveVersion, hmax, Option.getD_none]
    have hnone := List.filter_eq_nil_iff.1 (List.max?_eq_none_iff.1 hmax)
    exact Or.inr ⟨fun w hw => UInt16.not_le.1 fun hhigh => hnone w hw (decide_eq_true hhigh), rfl⟩

theorem StandsFor.unique {hello : ClientHello} {v w : UInt16} (hv : StandsFor hello v) (hw : StandsFor hello w) :
    v = w := by
  rcases hv with ⟨hv, hhigh, hmax⟩ | ⟨hnone, rfl⟩ <;> rcases hw with ⟨hw, hhigh', hmax'⟩ | ⟨hnone', rfl⟩
  · exact UInt16.le_antisymm (hmax' v hv) (hmax w hw)
  · exact absurd (hnone' v hv) (UInt16.not_lt.2 hhigh)
  · exact absurd (hnone w hw) (UInt16.not_lt.2 hhigh')
  · rfl

section Version

variable {hello new : ClientHello} {cs es vs : List UInt16}

theorem Greased.tlsVersion_eq (h : Greased hello new cs es vs) : new.tlsVersion = hello.tlsVersion := by
  rw [h.rest]

/-- Versions below an offered one leave the version as it is. -/
theorem effectiveVersion_of_below (h : Greased hello new cs es vs)
    (hbelow : ∀ g ∈ vs, ∃ v ∈ hello.supportedVersions, g ≤ v) : effectiveVersion new = effectiveVersion hello := by
  apply (standsFor_effectiveVersion new).unique
  rcases standsFor_effectiveVersion hello with ⟨hmem, hhigh, hmax⟩ | ⟨hnone, heq⟩
  · refine Or.inl ⟨h.versions.mem_iff.2 (Or.inr hmem), hhigh, fun w hw => ?_⟩
    rcases h.versions.mem_iff.1 hw with hw | hw
    · obtain ⟨v, hv, hle⟩ := hbelow w hw
      exact UInt16.le_trans hle (hmax v hv)
    · exact hmax w hw
  · refine Or.inr ⟨fun w hw => ?_, heq.trans h.tlsVersion_eq.symm⟩
    rcases h.versions.mem_iff.1 hw with hw | hw
    · obtain ⟨v, hv, hle⟩ := hbelow w hw
      exact UInt16.lt_of_le_of_lt hle (hnone v hv)
    · exact hnone w hw

/-- A version above the offered ones is the one that counts, and it has no name. -/
theorem version_of_above (h : Greased hello new cs es vs) {g : UInt16} (hg : g ∈ vs)
    (habove : ∀ v ∈ hello.supportedVersions, v < g) : tlsVersionStr (effectiveVersion new) = ['0', '0'] := by
  have hgrease : ∀ g ∈ vs, g ∈ greaseValues := fun g hg => h.values g (List.mem_append_right _ hg)
  have hnew : g ∈ new.supportedVersions := h.versions.mem_iff.2 (Or.inl hg)
  rcases standsFor_effectiveVersion new with ⟨hmem, -, hmax⟩ | ⟨hnone, -⟩
  · rcases h.versions.mem_iff.1 hmem with hmem | hmem
    · exact (grease_is_high _ (hgrease _ hmem)).2
    · exact absurd (habove _ hmem) (UInt16.not_lt.2 (hmax g hnew))
  · exact absurd (hnone g hnew) (UInt16.not_lt.2 (grease_is_high g (hgrease g hg)).1)

/-- **GREASE versions**: they change the name of the version, unless an offered one is above them. -/
theorem version_grease_iff (h : Greased hello new cs es vs) :
    tlsVersionStr (effectiveVersion new) = tlsVersionStr (effectiveVersion hello) ↔
      (∀ g ∈ vs, ∃ v ∈ hello.supportedVersions, g ≤ v) ∨
        ∃ v, StandsFor hello v ∧ tlsVersionStr v = ['0', '0'] := by
  by_cases hbelow : ∀ g ∈ vs, ∃ v ∈ hello.supportedVersions, g ≤ v
  · rw [effectiveVersion_of_below h hbelow]
    exact iff_of_true rfl (Or.inl hbelow)
  · have habove := hbelow
    push Not at habove
    obtain ⟨g, hg, habove⟩ := habove
    rw [version_of_above h hg fun v hv => UInt16.not_le.1 (habove v hv), or_iff_right hbelow]
    constructor
    · intro hname
      exact ⟨_, standsFor_effectiveVersion hello, hname.symm⟩
    · rintro ⟨v, hv, hname⟩
      rw [(standsFor_effectiveVersion hello).unique hv, hname]

/-! ## The fingerprint -/

/-- A count shows every value that is not known, as long as it is below its limit. -/
theorem known_of_count {values old new : List UInt16} (h : Inserted values old new)
    (hvalues : ∀ g ∈ values, g ∈ greaseValues)
    (hdigits : digits2 (min (new.filter fun x => !isGrease x).length 99) =
      digits2 (min (old.filter fun x => !isGrease x).length 99))
    (hlong : 99 ≤ (old.filter fun x => !isGrease x).length →
      (new.filter fun x => !isGrease x).length = (old.filter fun x => !isGrease x).length) :
    ∀ g ∈ values, g = 0x0a0a := by
  apply (counted_grease_iff h hvalues).1
  have hcount := digits2_inj (Nat.min_le_right _ _) (Nat.min_le_right _ _) hdigits
  by_cases hold : 99 ≤ (old.filter fun x => !isGrease x).length
  · exact hlong hold
  · omega

/-- The value that `is_grease` knows leaves a filtered list as it is. -/
theorem filter_of_known {values old new : List UInt16} (h : Inserted values old new)
    (hknown : ∀ g ∈ values, g = 0x0a0a) : new.filter (fun x => !isGrease x) = old.filter fun x => !isGrease x := by
  apply h.filter_eq
  intro g hg
  rw [hknown g hg]
  rfl

theorem Greased.sameNormalised (h : Greased hello new cs es vs) (hi : Ignored hello cs es vs) :
    SameNormalised new hello where
  version := (version_grease_iff h).2 hi.versions
  sni := by rw [h.rest]
  alpn := by rw [alpnFirst, alpnFirst, h.rest]
  ciphers := List.Perm.of_eq (filter_of_known h.ciphers hi.ciphers)
  extensions := List.Perm.of_eq (filter_of_known h.extensions hi.extensions)
  signatureAlgorithms := by rw [h.rest]

/-- **GREASE in a hello**: the fingerprint is kept if the values do not matter to it, and, where the hashes do not
collide, only then. -/
theorem fingerprint_grease_iff (h : Greased hello new cs es vs) :
    (Ignored hello cs es vs → (fromParsed new).fingerprint = (fromParsed hello).fingerprint) ∧
      (NoLongCollision hello new → (fromParsed new).fingerprint = (fromParsed hello).fingerprint →
        Ignored hello cs es vs) := by
  refine ⟨fun hi => congrArg _ (h.sameNormalised hi).fromParsed_eq, fun hcol hfinger => ?_⟩
  obtain ⟨hpart, hcipher, hext⟩ := partA_of_fingerprint hfinger
  obtain ⟨⟨hversion, -, -⟩, hciphers, hexts⟩ := fields_of_partA hpart
  have hvalues := List.forall_mem_append.1 h.values
  obtain ⟨hcs, hes⟩ := List.forall_mem_append.1 hvalues.1
  constructor
  · apply known_of_count h.ciphers hcs hciphers
    intro hlong
    exact (cipherText_inj (hcol.ciphers hlong hcipher)).length_eq
  · apply known_of_count h.extensions hes hexts
    intro hlong
    exact (extText_inj (hcol.extensions hlong hext)).1.length_eq
  · exact (version_grease_iff h).1 hversion

end Version

/-- A browser's hello without its GREASE values. -/
def plainHello : ClientHello :=
  { sampleHello [0x0403] with cipherSuites := [0x1301], extensions := [0x000d] }

/-- With the GREASE cipher suite `g`, and the GREASE versions `vs`. -/
def greasedHello (g : UInt16) (vs : List UInt16) : ClientHello :=
  { plainHello with cipherSuites := [g, 0x1301], supportedVersions := vs ++ [0x0304] }

theorem greased_sample (g : UInt16) (hg : g ∈ greaseValues) :
    Greased plainHello (greasedHello g []) [g] [] [] where
  ciphers := (inserted_refl [0x1301]).insert g
  extensions := inserted_refl _
  versions := inserted_refl _
  values := fun _ hx => List.mem_singleton.1 hx ▸ hg
  rest := rfl

theorem plainHello_short : NoLongCollision plainHello (greasedHello 0x1a1a []) where
  ciphers := fun h => absurd h (by decide)
  extensions := fun h => absurd h (by decide)

/-- Of two GREASE values for the cipher suites, one is seen and the other is not. -/
theorem fingerprint_of_grease :
    (fromParsed (greasedHello 0x0a0a [])).fingerprint = (fromParsed plainHello).fingerprint ∧
      (fromParsed (greasedHello 0x1a1a [])).fingerprint ≠ (fromParsed plainHello).fingerprint := by
  constructor
  · apply (fingerprint_grease_iff (greased_sample 0x0a0a List.mem_cons_self)).1
    exact ⟨fun g hg => List.mem_singleton.1 hg, nofun, Or.inl nofun⟩
  · intro h
    have hi := (fingerprint_grease_iff (greased_sample 0x1a1a (by decide))).2 plainHello_short h
    exact absurd (hi.ciphers 0x1a1a List.mem_cons_self) (by decide)

/-- **GREASE that counts**: a cipher suite that is not known, and a version above TLS 1.3. -/
theorem grease_changes_fingerprint :
    (Greased plainHello (greasedHello 0x1a1a []) [0x1a1a] [] [] ∧
      (fromParsed (greasedHello 0x1a1a [])).fingerprint ≠ (fromParsed plainHello).fingerprint) ∧
    Greased plainHello (greasedHello 0x0a0a [0x0a0a]) [0x0a0a] [] [0x0a0a] ∧
      (fromParsed (greasedHello 0x0a0a [0x0a0a])).fingerprint ≠ (fromParsed plainHello).fingerprint := by
  refine ⟨⟨greased_sample 0x1a1a (by decide), fun h => ?_⟩, ⟨?_, ?_, ?_, ?_, rfl⟩, fun h => ?_⟩
  · have hcounts := (fields_of_partA (partA_of_fingerprint h).1).2.1
    exact absurd hcounts (by decide)
  · exact (inserted_refl [0x1301]).insert 0x0a0a
  · exact inserted_refl _
  · exact (inserted_refl [0x0304]).insert 0x0a0a
  · intro x hx
    have hx : x = 0x0a0a := by simpa using hx
    exact hx ▸ List.mem_cons_self
  · have hversion := (fields_of_partA (partA_of_fingerprint h).1).1.1
    exact absurd hversion (by decide)

end ThorFirewall.Fingerprint
