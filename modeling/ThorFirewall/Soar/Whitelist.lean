import Mathlib
import ThorFirewall.Lib.Text
import ThorFirewall.Soar.CircuitBreaker

/-!
# The whitelist of automatic blocking (`soar/mod.rs`)

`THOR_SOAR_WHITELIST_CIDRS` lists addresses and blocks of addresses, with commas between them. The engine keeps them as
texts, and takes an address for whitelisted if its text is that of an entry or begins with it.

- `whitelistOf_printed`: the entries are read back from the variable;
- `isWhitelisted_iff`: an address is whitelisted if the text of a listed address begins its text;
- `whitelist_iff`: when this is the same as to belong to an entry.
-/

namespace ThorFirewall.Soar

open Text

/-- The entries of `THOR_SOAR_WHITELIST_CIDRS`. -/
def whitelistOf (env : String) : List String :=
  ((env.toList.splitOn ',').filter (· ≠ [])).map String.ofList

namespace SoarEngine

/-- The engine at the start, and with the addresses that are blocked. -/
def new (maxBlocks : UInt32) (whitelist : String) (now : ℕ) (blockedIps : Finset String) : SoarEngine where
  circuitBreaker := .new maxBlocks now
  whitelist := whitelistOf whitelist
  blockedIps := blockedIps

end SoarEngine

/-! ## Addresses and blocks -/

structure Ipv4 where
  a : UInt8
  b : UInt8
  c : UInt8
  d : UInt8
  deriving DecidableEq

namespace Ipv4

def octets (ip : Ipv4) : List ℕ := [ip.a.toNat, ip.b.toNat, ip.c.toNat, ip.d.toNat]

def toNat (ip : Ipv4) : ℕ := ip.octets.foldl (fun n octet => 256 * n + octet) 0

/-- The dotted quad. -/
def text (ip : Ipv4) : List Char := ['.'].intercalate (ip.octets.map (Nat.toDigits 10))

end Ipv4

inductive Entry
  | address (ip : Ipv4)
  /-- The addresses that begin with the first `len` bits of `ip`. -/
  | block (ip : Ipv4) (len : Fin 33)
  deriving DecidableEq

namespace Entry

def text : Entry → List Char
  | address ip => ip.text
  | block ip len => ip.text ++ '/' :: Nat.toDigits 10 len

def contains : Entry → Ipv4 → Prop
  | address base, ip => ip = base
  | block base len, ip => ip.toNat / 2 ^ (32 - len.val) = base.toNat / 2 ^ (32 - len.val)

instance (e : Entry) (ip : Ipv4) : Decidable (e.contains ip) := by
  cases e <;> exact inferInstanceAs (Decidable (_ = _))

end Entry

/-- The variable that lists the entries. -/
def printed (entries : List Entry) : String := String.ofList ([','].intercalate (entries.map Entry.text))

/-! ## Texts -/

theorem digits_inj {m n : ℕ} (h : Nat.toDigits 10 m = Nat.toDigits 10 n) : m = n := by
  have hvalue := congrArg (fun s => Nat.ofDigitChars 10 s 0) h
  simpa only [Nat.ofDigitChars_ten_toDigits] using hvalue

theorem Ipv4.text_inj {ip ip' : Ipv4} (h : ip.text = ip'.text) : ip = ip' := by
  have hsplit (ip : Ipv4) : ip.text.splitOn '.' = ip.octets.map (Nat.toDigits 10) := by
    have hne : ip.octets.map (Nat.toDigits 10) ≠ [] := List.cons_ne_nil _ _
    refine (splitOn_intercalate_iff hne).2 fun l hl => ?_
    obtain ⟨n, -, rfl⟩ := List.mem_map.1 hl
    exact not_mem_digits (by decide) n
  have hoctets := List.map_injective_iff.2 (fun _ _ => digits_inj)
    ((hsplit ip).symm.trans ((congrArg (List.splitOn '.') h).trans (hsplit ip')))
  simp only [Ipv4.octets, List.cons.injEq, UInt8.toNat_inj] at hoctets
  obtain ⟨ha, hb, hc, hd, -⟩ := hoctets
  cases ip
  cases ip'
  simp_all

/-- An address is written in digits and points. -/
theorem Ipv4.not_mem_text {c : Char} (hc : c.isDigit = false) (hpoint : c ≠ '.') (ip : Ipv4) : c ∉ ip.text := by
  intro hmem
  simp only [Ipv4.text, Ipv4.octets, List.map_cons, List.map_nil, List.intercalate_cons_cons,
    List.intercalate_singleton, List.mem_append, List.mem_singleton, hpoint, or_false, not_mem_digits hc] at hmem

theorem Entry.not_mem_text {c : Char} (hc : c.isDigit = false) (hpoint : c ≠ '.') (hslash : c ≠ '/') (e : Entry) :
    c ∉ e.text := by
  cases e with
  | address ip => exact ip.not_mem_text hc hpoint
  | block ip len =>
    rw [Entry.text, List.mem_append, List.mem_cons, not_or, not_or]
    exact ⟨ip.not_mem_text hc hpoint, hslash, not_mem_digits hc len⟩

theorem Ipv4.text_ne_nil (ip : Ipv4) : ip.text ≠ [] := by
  simp [Ipv4.text, Ipv4.octets, List.intercalate_cons_cons]

theorem Entry.text_ne_nil (e : Entry) : e.text ≠ [] := by
  cases e with
  | address ip => exact ip.text_ne_nil
  | block ip len => exact List.append_ne_nil_of_left_ne_nil ip.text_ne_nil _

/-- **The entries are read back from the variable.** -/
theorem whitelistOf_printed (entries : List Entry) :
    whitelistOf (printed entries) = entries.map fun e => String.ofList e.text := by
  rw [whitelistOf, printed, String.toList_ofList]
  by_cases hnil : entries = []
  · rw [hnil]
    rfl
  · have hsplit : ([','].intercalate (entries.map Entry.text)).splitOn ',' = entries.map Entry.text := by
      refine (splitOn_intercalate_iff fun h => hnil (List.map_eq_nil_iff.1 h)).2 fun l hl => ?_
      obtain ⟨e, -, rfl⟩ := List.mem_map.1 hl
      exact e.not_mem_text (by decide) (by decide) (by decide)
    have hkept : (entries.map Entry.text).filter (· ≠ []) = entries.map Entry.text := by
      refine List.filter_eq_self.2 fun l hl => ?_
      obtain ⟨e, -, rfl⟩ := List.mem_map.1 hl
      exact decide_eq_true e.text_ne_nil
    rw [hsplit, hkept, List.map_map]
    rfl

/-! ## The whitelist -/

theorem star_stays {s : List Char} (h : '*' ∉ s) : s.rdropWhile (· = '*') = s := by
  rw [List.rdropWhile_eq_self_iff]
  intro hne hlast
  exact h (of_decide_eq_true hlast ▸ List.getLast_mem hne)

/-- **An address is whitelisted** exactly if its text begins with that of a listed address. -/
theorem isWhitelisted_iff (engine : SoarEngine) (entries : List Entry) (ip : Ipv4)
    (h : engine.whitelist = entries.map fun e => String.ofList e.text) :
    engine.isWhitelisted (String.ofList ip.text) = true ↔ ∃ base, .address base ∈ entries ∧ base.text <+: ip.text := by
  rw [SoarEngine.isWhitelisted, h, List.any_map, List.any_eq_true]
  have hentry (e : Entry) : (String.ofList ip.text == String.ofList e.text ||
      ((String.ofList e.text).toList.rdropWhile (· = '*')).isPrefixOf (String.ofList ip.text).toList) = true ↔
        e.text <+: ip.text := by
    rw [String.toList_ofList, String.toList_ofList, star_stays (e.not_mem_text (by decide) (by decide) (by decide)),
      Bool.or_eq_true, beq_iff_eq, List.isPrefixOf_iff_prefix]
    refine or_iff_right_of_imp fun heq => ?_
    rw [String.ofList_injective heq]
  constructor
  · rintro ⟨e, he, hmatch⟩
    have hbegins := (hentry e).1 hmatch
    cases e with
    | address base => exact ⟨base, he, hbegins⟩
    | block base len =>
      -- a slash is in no address
      have hslash : '/' ∈ (Entry.block base len).text := List.mem_append_right _ List.mem_cons_self
      exact absurd (hbegins.subset hslash) (ip.not_mem_text (by decide) (by decide))
  · rintro ⟨base, hbase, hbegins⟩
    exact ⟨.address base, hbase, (hentry _).2 hbegins⟩

/-- A call refuses the address because of the whitelist. -/
def Refused (engine : SoarEngine) (ip : String) (now : ℕ) : Prop :=
  (engine.autoBlockIp ip now).2 = .error (ip ++ " is in SOAR whitelist — skipping auto-block")

theorem getLast_append {t : String} {c : Char} (s : String) (h : t.toList.getLast? = some c) :
    (s ++ t).toList.getLast? = some c := by
  rw [String.toList_append, List.getLast?_append, h]
  rfl

theorem refused_iff_isWhitelisted (engine : SoarEngine) (ip : String) (now : ℕ) :
    Refused engine ip now ↔ engine.isWhitelisted ip = true := by
  unfold Refused SoarEngine.autoBlockIp SoarEngine.lookUp
  by_cases hlisted : engine.isWhitelisted ip = true
  · simp [hlisted]
  · rw [if_neg hlisted]
    refine iff_of_false (fun hrefused => ?_) hlisted
    by_cases hblocked : ip ∈ engine.blockedIps
    · rw [if_pos hblocked] at hrefused
      cases hrefused
    · rw [if_neg hblocked, SoarEngine.askBreaker] at hrefused
      rcases hcheck : engine.circuitBreaker.checkAndIncrement now with ⟨b, count | _⟩
      · -- the message of the breaker ends with a point
        rw [hcheck] at hrefused
        have hlast := congrArg (fun s : String => s.toList.getLast?) (Except.error.inj hrefused)
        rw [getLast_append (c := '.') _ rfl, getLast_append (c := 'k') _ rfl] at hlast
        cases hlast
      · rw [hcheck] at hrefused
        cases hrefused

/-- **The whitelist refuses an address exactly if it belongs to an entry**, if and only if the address is listed itself,
or is in a listed block exactly if a listed address begins its text. -/
theorem whitelist_iff (maxBlocks : UInt32) (start now : ℕ) (blockedIps : Finset String) (entries : List Entry)
    (ip : Ipv4) :
    (Refused (.new maxBlocks (printed entries) start blockedIps) (String.ofList ip.text) now ↔
      ∃ e ∈ entries, e.contains ip) ↔
    (.address ip ∈ entries ∨
      ((∃ base len, .block base len ∈ entries ∧ (Entry.block base len).contains ip) ↔
        ∃ base, .address base ∈ entries ∧ base.text <+: ip.text)) := by
  have hmember : (∃ e ∈ entries, e.contains ip) ↔ .address ip ∈ entries ∨
      ∃ base len, .block base len ∈ entries ∧ (Entry.block base len).contains ip := by
    constructor
    · rintro ⟨e, he, hcontains⟩
      cases e with
      | address base =>
        obtain rfl : ip = base := hcontains
        exact Or.inl he
      | block base len => exact Or.inr ⟨base, len, he, hcontains⟩
    · rintro (he | ⟨base, len, he, hcontains⟩)
      · exact ⟨_, he, rfl⟩
      · exact ⟨_, he, hcontains⟩
  rw [refused_iff_isWhitelisted, isWhitelisted_iff _ entries ip (whitelistOf_printed entries), hmember]
  by_cases hlisted : Entry.address ip ∈ entries
  · exact iff_of_true (iff_of_true ⟨ip, hlisted, List.prefix_rfl⟩ (Or.inl hlisted)) (Or.inl hlisted)
  · rw [or_iff_right hlisted, or_iff_right hlisted]
    exact Iff.comm

/-- A listed block is not recognised. -/
theorem block_not_recognised : ¬ ∀ (maxBlocks : UInt32) (start now : ℕ) (blockedIps : Finset String)
    (entries : List Entry) (ip : Ipv4), Refused (.new maxBlocks (printed entries) start blockedIps)
      (String.ofList ip.text) now ↔ ∃ e ∈ entries, e.contains ip := by
  intro h
  have hrefused := (h 50 0 0 ∅ [.block ⟨10, 0, 0, 0⟩ 8] ⟨10, 1, 2, 3⟩).2 ⟨_, List.mem_singleton_self _, by decide⟩
  rw [refused_iff_isWhitelisted] at hrefused
  exact absurd hrefused (by decide)

end ThorFirewall.Soar
