import Mathlib
import ThorFirewall.Lib.BitTrie
import ThorFirewall.Soar.Whitelist

/-!
# The country of an address (`geo/mod.rs`)

Blocks of addresses are inserted in a binary trie (`BitTrie`) at the bits of their prefix, and an address is looked up
along its 32 bits.

- `insert_text`: what the text of a block inserts;
- `isPrefix_path_iff`: a block contains an address if its path begins that of the address;
- `lookup_longest`: the lookup is longest-prefix match.
-/

namespace ThorFirewall.Geo

open Text
open Soar (Ipv4)

/-! ## Addresses as texts -/

/-- A number of an address: at most three digits, no zero in front of others. -/
def parseOctet (s : List Char) : Option UInt8 :=
  let n := Nat.ofDigitChars 10 s 0
  if s ≠ [] ∧ s.length ≤ 3 ∧ s.all Char.isDigit ∧ (s.head? = some '0' → s.length = 1) ∧ n < 256 then
    some (UInt8.ofNat n)
  else none

/-- `str::parse::<Ipv4Addr>`. -/
def parseIpv4 (s : List Char) : Option Ipv4 :=
  match s.splitOn '.' with
  | [a, b, c, d] => do return ⟨← parseOctet a, ← parseOctet b, ← parseOctet c, ← parseOctet d⟩
  | _ => none

/-- `str::split_once`. -/
def splitOnce (c : Char) (s : List Char) : Option (List Char × List Char) :=
  match s.dropWhile (· ≠ c) with
  | [] => none
  | _ :: rest => some (s.takeWhile (· ≠ c), rest)

/-! ## The trie -/

structure Trie where
  root : BitTrie String

/-- The bits of an address from the highest one on, for the indices from `start` to 31. -/
def path (ip : Ipv4) (start : ℕ) : List Bool := (List.range' start (32 - start)).reverse.map fun i => ip.toNat.testBit i

namespace Trie

def new : Trie := ⟨.empty⟩

/-- The address and the length that the text of a block has, as far as they can be read. -/
def parseCidr (cidr : List Char) : List Char × UInt8 :=
  match splitOnce '/' cidr with
  | some (ip, len) => (ip, ((parseUnsigned 8 len).map UInt8.ofNat).getD 32)
  | none => (cidr, 32)

/-- `32 - prefix_len` wraps around, and the range from there to 32 is empty then. -/
def insert (t : Trie) (cidr country : String) : Trie :=
  let (ipStr, prefixLen) := parseCidr cidr.toList
  match parseIpv4 ipStr with
  | none => t
  | some ip => ⟨t.root.insert country (path ip (32 - prefixLen).toNat)⟩

def lookup (t : Trie) (ip : Ipv4) : Option String := t.root.lookup (path ip 0)

end Trie

/-! ## Blocks -/

/-- A block of addresses: those that begin with the first `len` bits of `ip`. -/
structure Cidr where
  ip : Ipv4
  len : ℕ
  pos : 0 < len
  le : len ≤ 32

namespace Cidr

def text (c : Cidr) : List Char := c.ip.text ++ '/' :: Nat.toDigits 10 c.len

def contains (c : Cidr) (ip : Ipv4) : Prop := ip.toNat / 2 ^ (32 - c.len) = c.ip.toNat / 2 ^ (32 - c.len)

def path (c : Cidr) : List Bool := Geo.path c.ip (32 - c.len)

end Cidr

theorem parseOctet_digits : ∀ n < 256, parseOctet (Nat.toDigits 10 n) = some (UInt8.ofNat n) := by decide +kernel

theorem parseIpv4_text (ip : Ipv4) : parseIpv4 ip.text = some ip := by
  have hsplit : ip.text.splitOn '.' = ip.octets.map (Nat.toDigits 10) := by
    have hne : ip.octets.map (Nat.toDigits 10) ≠ [] := List.cons_ne_nil _ _
    refine (splitOn_intercalate_iff hne).2 fun l hl => ?_
    obtain ⟨n, -, rfl⟩ := List.mem_map.1 hl
    exact not_mem_digits (by decide) n
  have hoctet (x : UInt8) : parseOctet (Nat.toDigits 10 x.toNat) = some x := by
    rw [parseOctet_digits _ (UInt8.toNat_lt x), UInt8.ofNat_toNat]
  rw [parseIpv4, hsplit]
  simp only [Ipv4.octets, List.map_cons, List.map_nil, hoctet]
  rfl

theorem splitOnce_append {c : Char} {s : List Char} (h : c ∉ s) (rest : List Char) :
    splitOnce c (s ++ c :: rest) = some (s, rest) := by
  have hs : ∀ d ∈ s, decide (d ≠ c) = true := fun d hd => decide_eq_true fun heq => h (heq ▸ hd)
  rw [splitOnce, List.dropWhile_append_of_pos hs, List.dropWhile_cons_of_neg (by simp),
    List.takeWhile_append_of_pos hs, List.takeWhile_cons_of_neg (by simp), List.append_nil]

/-- **The text of a block** inserts at the path of the block. -/
theorem insert_text (t : Trie) (c : Cidr) (country : String) :
    t.insert (String.ofList c.text) country = ⟨t.root.insert country c.path⟩ := by
  have hslash : '/' ∉ c.ip.text := c.ip.not_mem_text (by decide) (by decide)
  have hlen : c.len < 2 ^ 8 := lt_of_le_of_lt c.le (by decide)
  have hparse : Trie.parseCidr c.text = (c.ip.text, UInt8.ofNat c.len) := by
    rw [Trie.parseCidr, Cidr.text, splitOnce_append hslash]
    simp only [parseUnsigned_toDigits hlen, Option.map_some, Option.getD_some]
  have hstart : (32 - UInt8.ofNat c.len).toNat = 32 - c.len := by
    have hle : UInt8.ofNat c.len ≤ 32 := by
      rw [UInt8.le_iff_toNat_le, UInt8.toNat_ofNat_of_lt' hlen]
      exact c.le
    rw [UInt8.toNat_sub_of_le _ _ hle, UInt8.toNat_ofNat_of_lt' hlen]
    rfl
  rw [Trie.insert, String.toList_ofList, hparse]
  simp only [parseIpv4_text, hstart, Cidr.path]

/-! ## Prefixes -/

@[simp] theorem length_path (ip : Ipv4) {start : ℕ} : (path ip start).length = 32 - start := by
  simp [path]

theorem Ipv4.toNat_lt (ip : Ipv4) : ip.toNat < 2 ^ 32 := by
  have ha := ip.a.toNat_lt
  have hb := ip.b.toNat_lt
  have hc := ip.c.toNat_lt
  have hd := ip.d.toNat_lt
  simp only [Ipv4.toNat, Ipv4.octets, List.foldl_cons, List.foldl_nil]
  omega

/-- The path of a longer prefix. -/
theorem path_append (ip : Ipv4) {start stop : ℕ} (h : start ≤ stop) (hstop : stop ≤ 32) :
    path ip start = path ip stop ++ (List.range' start (stop - start)).reverse.map fun i => ip.toNat.testBit i := by
  have hrange : List.range' start (32 - start) = List.range' start (stop - start) ++ List.range' stop (32 - stop) := by
    have happend := @List.range'_append start (stop - start) (32 - stop) 1
    rw [Nat.one_mul, show start + (stop - start) = stop by omega, show stop - start + (32 - stop) = 32 - start by omega]
      at happend
    exact happend.symm
  rw [path, hrange, List.reverse_append, List.map_append]
  rfl

/-- Two addresses begin with the same bits if they agree without the others. -/
theorem path_eq_iff {ip ip' : Ipv4} {start : ℕ} :
    path ip start = path ip' start ↔ ip.toNat / 2 ^ start = ip'.toNat / 2 ^ start := by
  have hhigh (ip : Ipv4) {i : ℕ} (h : 32 ≤ i) : ip.toNat.testBit i = false :=
    Nat.testBit_lt_two_pow ((Ipv4.toNat_lt ip).trans_le (Nat.pow_le_pow_right (by decide) h))
  rw [path, path, List.map_inj_left]
  simp only [List.mem_reverse, List.mem_range'_1]
  constructor
  · intro h
    refine Nat.eq_of_testBit_eq fun i => ?_
    rw [Nat.testBit_div_two_pow, Nat.testBit_div_two_pow]
    by_cases hi : i + start < 32
    · exact h _ ⟨by omega, by omega⟩
    · rw [hhigh ip (by omega), hhigh ip' (by omega)]
  · intro h i hi
    have hbit := congrArg (Nat.testBit · (i - start)) h
    rwa [Nat.testBit_div_two_pow, Nat.testBit_div_two_pow, show i - start + start = i by omega] at hbit

theorem Cidr.length_path (c : Cidr) : c.path.length = c.len := by
  have := c.le
  rw [Cidr.path, Geo.length_path]
  omega

/-- **A block contains an address** exactly if its path begins that of the address. -/
theorem isPrefix_path_iff (c : Cidr) (ip : Ipv4) : c.path <+: path ip 0 ↔ c.contains ip := by
  have hsplit := path_append ip (Nat.zero_le (32 - c.len)) (Nat.sub_le 32 c.len)
  rw [Cidr.contains, eq_comm, ← path_eq_iff, ← Cidr.path, hsplit]
  constructor
  · intro h
    have hlength : c.path.length = (path ip (32 - c.len)).length := by rw [Cidr.path, Geo.length_path, Geo.length_path]
    exact (List.prefix_of_prefix_length_le h (List.prefix_append _ _) hlength.le).eq_of_length hlength
  · intro h
    rw [h]
    exact List.prefix_append _ _

/-! ## Lookups -/

/-- The trie after a sequence of insertions. -/
def inserted (inserts : List (Cidr × String)) : Trie :=
  inserts.foldl (fun t x => t.insert (String.ofList x.1.text) x.2) .new

theorem root_inserted (inserts : List (Cidr × String)) :
    (inserted inserts).root = inserts.foldl (fun t x => t.insert x.2 x.1.path) BitTrie.empty := by
  have hfold (t : Trie) : (inserts.foldl (fun t x => t.insert (String.ofList x.1.text) x.2) t).root =
      inserts.foldl (fun t x => t.insert x.2 x.1.path) t.root := by
    induction inserts generalizing t with
    | nil => rfl
    | cons x inserts ih => rw [List.foldl_cons, List.foldl_cons, ih, insert_text]
  exact hfold .new

/-- The value at a path is that of the last block inserted there. -/
theorem get_inserted (inserts : List (Cidr × String)) (q : List Bool) :
    (inserted inserts).root.get q = (inserts.reverse.find? fun x => x.1.path = q).map Prod.snd := by
  rw [root_inserted, BitTrie.get_foldl_insert, BitTrie.get_empty]
  cases (inserts.reverse.find? fun x => x.1.path = q).map Prod.snd <;> rfl

theorem get_inserted_eq_none_iff {inserts : List (Cidr × String)} {q : List Bool} :
    (inserted inserts).root.get q = none ↔ ∀ x ∈ inserts, x.1.path ≠ q := by
  rw [get_inserted, Option.map_eq_none_iff, List.find?_eq_none]
  simp

theorem get_inserted_eq_some_iff {inserts : List (Cidr × String)} {q : List Bool} {country : String} :
    (inserted inserts).root.get q = some country ↔ ∃ before c after,
      inserts = before ++ (c, country) :: after ∧ c.path = q ∧ ∀ x ∈ after, x.1.path ≠ q := by
  rw [get_inserted, Option.map_eq_some_iff]
  simp only [List.find?_eq_some_iff_append, decide_eq_true_eq, Bool.not_eq_true', decide_eq_false_iff_not]
  constructor
  · rintro ⟨⟨c, _⟩, ⟨hpath, after, before, hsplit, hafter⟩, rfl⟩
    refine ⟨before.reverse, c, after.reverse, ?_, hpath, fun x hx => hafter x (List.mem_reverse.1 hx)⟩
    rw [← List.reverse_reverse inserts, hsplit]
    simp
  · rintro ⟨before, c, after, rfl, hpath, hafter⟩
    refine ⟨(c, country), ⟨hpath, after.reverse, before.reverse, by simp, fun x hx => ?_⟩, rfl⟩
    exact hafter x (List.mem_reverse.1 hx)

/-- Two blocks of one length that contain the same address have one path. -/
theorem Cidr.path_eq {c c' : Cidr} {ip : Ipv4} (h : c.contains ip) (h' : c'.contains ip) (hlen : c.len = c'.len) :
    c.path = c'.path := by
  rw [← isPrefix_path_iff] at h h'
  have hle : c.path.length ≤ c'.path.length := by rw [c.length_path, c'.length_path, hlen]
  exact (List.prefix_of_prefix_length_le h h' hle).eq_of_length (by rw [c.length_path, c'.length_path, hlen])

theorem Cidr.path_ne_nil (c : Cidr) : c.path ≠ [] := by
  refine List.ne_nil_of_length_pos ?_
  rw [c.length_path]
  exact c.pos

/-- **The lookup is longest-prefix match**: it gives the country of the longest block that contains the address, the one
inserted last if there are several, and nothing if there is none. -/
theorem lookup_longest (inserts : List (Cidr × String)) (ip : Ipv4) :
    (∀ country, (inserted inserts).lookup ip = some country ↔ ∃ before c after,
      inserts = before ++ (c, country) :: after ∧ c.contains ip ∧ (∀ x ∈ inserts, x.1.contains ip → x.1.len ≤ c.len) ∧
        ∀ x ∈ after, x.1.contains ip → x.1.len < c.len) ∧
    ((inserted inserts).lookup ip = none ↔ ∀ x ∈ inserts, ¬ x.1.contains ip) := by
  refine ⟨fun country => ?_, ?_⟩
  · rw [Trie.lookup, BitTrie.lookup_eq_some_iff]
    constructor
    · rintro ⟨q, -, hbegins, hvalue, hlonger⟩
      obtain ⟨before, c, after, hsplit, rfl, hafter⟩ := get_inserted_eq_some_iff.1 hvalue
      have hlen : ∀ x ∈ inserts, x.1.contains ip → x.1.len ≤ c.len := by
        intro x hx hcontains
        by_contra hlt
        have hnone := hlonger x.1.path ((isPrefix_path_iff x.1 ip).2 hcontains)
          (by rw [c.length_path, x.1.length_path]; omega)
        exact get_inserted_eq_none_iff.1 hnone x hx rfl
      have hc := (isPrefix_path_iff c ip).1 hbegins
      refine ⟨before, c, after, hsplit, hc, hlen, fun x hx hcontains => ?_⟩
      have hmem : x ∈ inserts := hsplit ▸ List.mem_append_right _ (List.mem_cons_of_mem _ hx)
      exact lt_of_le_of_ne (hlen x hmem hcontains) fun heq => hafter x hx (Cidr.path_eq hcontains hc heq)
    · rintro ⟨before, c, after, hsplit, hc, hlen, hafter⟩
      refine ⟨c.path, c.path_ne_nil, (isPrefix_path_iff c ip).2 hc, ?_, fun q hbegins hlt => ?_⟩
      · refine get_inserted_eq_some_iff.2 ⟨before, c, after, hsplit, rfl, fun x hx heq => ?_⟩
        have hcontains := (isPrefix_path_iff x.1 ip).1 (heq ▸ (isPrefix_path_iff c ip).2 hc)
        have hshorter := hafter x hx hcontains
        rw [← x.1.length_path, heq, c.length_path] at hshorter
        exact lt_irrefl _ hshorter
      · refine get_inserted_eq_none_iff.2 fun x hx heq => ?_
        have hle := hlen x hx ((isPrefix_path_iff x.1 ip).1 (heq ▸ hbegins))
        rw [← x.1.length_path, heq, ← c.length_path] at hle
        exact absurd hlt (Nat.not_lt.2 hle)
  · rw [Trie.lookup, BitTrie.lookup_eq_none_iff]
    constructor
    · intro h x hx hcontains
      have hnone := h x.1.path x.1.path_ne_nil ((isPrefix_path_iff x.1 ip).2 hcontains)
      exact get_inserted_eq_none_iff.1 hnone x hx rfl
    · intro h q _ hbegins
      refine get_inserted_eq_none_iff.2 fun x hx heq => h x hx ?_
      exact (isPrefix_path_iff x.1 ip).1 (heq ▸ hbegins)

/-- A longer block counts within a shorter one, in whatever order they are inserted. -/
example : ((Trie.new.insert "77.36.0.0/14" "IR").insert "77.37.0.0/16" "RU").lookup ⟨77, 37, 0, 1⟩ = some "RU" := by
  decide

end ThorFirewall.Geo
