import Mathlib
import ThorFirewall.Lib.Fields

/-!
# The tar archive (`forensics/collector.rs`)

`appendChunks` writes a header of 512 bytes, the chunks of a file and zeros up to the next block; `finishTar` writes two
blocks of zeros. `readTar` is a reader of the POSIX format: it looks at blocks only, checks the magic and the checksum of
each header and takes the numbers from their octal fields.

- `buildTarHeader_eq`: the fields of a header;
- `readHeader_header`: what a reader finds in them;
- `readTar_archive`: an archive is read back as its entries.
-/

namespace ThorFirewall.Forensics

open Fields

/-! ## Octal numbers -/

def ascii (s : String) : List UInt8 := s.toList.map fun c => c.toNat.toUInt8

/-- `{:0width o}`. -/
def octal (width n : ℕ) : List UInt8 :=
  let digits := (Nat.toDigits 8 n).map fun c => c.toNat.toUInt8
  List.replicate (width - digits.length) 48 ++ digits

def isOctalDigit (b : UInt8) : Bool := 48 ≤ b && b < 56

def octalValue (ds : List UInt8) : ℕ := ds.foldl (fun n b => 8 * n + (b.toNat - 48)) 0

/-- Octal digits up to a NUL or a blank. -/
def readOctal (field : List UInt8) : Option ℕ :=
  let ds := field.takeWhile isOctalDigit
  match ds, field.drop ds.length with
  | _ :: _, 0 :: _ => some (octalValue ds)
  | _ :: _, 32 :: _ => some (octalValue ds)
  | _, _ => none

theorem mem_toDigits_eight {n : ℕ} {c : Char} (h : c ∈ Nat.toDigits 8 n) : ∃ d < 8, c = Nat.digitChar d := by
  induction n using Nat.strongRecOn with
  | ind n ih =>
    rw [Nat.toDigits_eq_if (by decide)] at h
    split_ifs at h with hlt
    · exact ⟨n, hlt, List.mem_singleton.1 h⟩
    · rcases List.mem_append.1 h with h | h
      · exact ih (n / 8) (Nat.div_lt_self (by omega) (by decide)) h
      · exact ⟨n % 8, Nat.mod_lt _ (by decide), List.mem_singleton.1 h⟩

/-- An octal digit as a byte. -/
theorem digitChar_toUInt8 : ∀ d < 8, isOctalDigit (Nat.digitChar d).toNat.toUInt8 = true ∧
    (Nat.digitChar d).toNat.toUInt8.toNat = (Nat.digitChar d).toNat := by
  decide

theorem isOctalDigit_of_mem_octal {width n : ℕ} {b : UInt8} (h : b ∈ octal width n) : isOctalDigit b = true := by
  rcases List.mem_append.1 h with h | h
  · rw [List.eq_of_mem_replicate h]
    decide
  · obtain ⟨c, hc, rfl⟩ := List.mem_map.1 h
    obtain ⟨d, hd, rfl⟩ := mem_toDigits_eight hc
    exact (digitChar_toUInt8 d hd).1

theorem length_octal {width n : ℕ} (h0 : 0 < width) (h : n < 8 ^ width) : (octal width n).length = width := by
  have hle := (Nat.length_toDigits_le_iff (b := 8) (by decide) h0).2 h
  rw [octal, List.length_append, List.length_replicate, List.length_map]
  omega

/-- A number that is too great has more digits. -/
theorem lt_length_octal {width n : ℕ} (h0 : 0 < width) (h : 8 ^ width ≤ n) : width < (octal width n).length := by
  have hlt := mt (Nat.length_toDigits_le_iff (b := 8) (by decide) h0).1 (Nat.not_lt.2 h)
  rw [octal, List.length_append, List.length_replicate, List.length_map]
  omega

/-- **Octal numbers** are read as they were printed. -/
theorem octalValue_octal (width n : ℕ) : octalValue (octal width n) = n := by
  have hzeros : ∀ k, (List.replicate k (48 : UInt8)).foldl (fun n b => 8 * n + (b.toNat - 48)) 0 = 0 := by
    intro k
    induction k with
    | zero => rfl
    | succ k ih => exact ih
  have hdigits : ∀ (cs : List Char) (init : ℕ), (∀ c ∈ cs, ∃ d < 8, c = Nat.digitChar d) →
      (cs.map fun c => c.toNat.toUInt8).foldl (fun n b => 8 * n + (b.toNat - 48)) init =
        Nat.ofDigitChars 8 cs init := by
    intro cs
    induction cs with
    | nil => exact fun _ _ => by simp
    | cons c cs ih =>
      intro init hcs
      obtain ⟨⟨d, hd, rfl⟩, hrest⟩ := List.forall_mem_cons.1 hcs
      rw [List.map_cons, List.foldl_cons, ih _ hrest, Nat.ofDigitChars_cons, (digitChar_toUInt8 d hd).2]
      rfl
  rw [octalValue, octal, List.foldl_append, hzeros, hdigits _ _ fun c hc => mem_toDigits_eight hc,
    Nat.ofDigitChars_toDigits (by decide) (by decide)]

theorem readOctal_append {ds : List UInt8} {b : UInt8} {rest : List UInt8} (hds : ∀ d ∈ ds, isOctalDigit d = true)
    (hne : ds ≠ []) (hb : b = 0 ∨ b = 32) : readOctal (ds ++ b :: rest) = some (octalValue ds) := by
  have htake : (ds ++ b :: rest).takeWhile isOctalDigit = ds := by
    rw [List.takeWhile_append_of_pos hds, List.takeWhile_cons_of_neg, List.append_nil]
    rcases hb with rfl | rfl <;> decide
  rw [readOctal, htake, List.drop_left]
  obtain ⟨d, ds, rfl⟩ := List.exists_cons_of_ne_nil hne
  rcases hb with rfl | rfl <;> rfl

/-- A field of digits and what ends it. -/
theorem readOctal_octal {width n : ℕ} {b : UInt8} {rest : List UInt8} (h0 : 0 < width) (h : n < 8 ^ width)
    (hb : b = 0 ∨ b = 32) : readOctal (octal width n ++ b :: rest) = some n := by
  rw [readOctal_append (fun d hd => isOctalDigit_of_mem_octal hd) ?_ hb, octalValue_octal]
  intro hnil
  have hlen := length_octal h0 h
  rw [hnil, List.length_nil] at hlen
  omega

/-! ## Writing -/

/-- The bytes of a checksum field while the checksum is computed. -/
def blanks : List UInt8 := List.replicate 8 32

def checksum (header : List UInt8) : ℕ := (header.map UInt8.toNat).sum

/-- `none` is the panic of a number that does not fit into its field. -/
def buildTarHeader (name : List UInt8) (size mtime : ℕ) : Option (List UInt8) := do
  let nameLen := min name.length 100
  let header ← copyFromSlice (List.replicate 512 0) 0 nameLen (name.take nameLen)
  let header ← copyFromSlice header 100 108 (ascii "0000644\x00")
  let header ← copyFromSlice header 108 116 (ascii "0000000\x00")
  let header ← copyFromSlice header 116 124 (ascii "0000000\x00")
  let header ← copyFromSlice header 124 136 (octal 11 size ++ [0])
  let header ← copyFromSlice header 136 148 (octal 11 mtime ++ [0])
  let header ← copyFromSlice header 156 157 (ascii "0")
  let header ← copyFromSlice header 257 263 (ascii "ustar\x00")
  let header ← copyFromSlice header 263 265 (ascii "00")
  let header ← copyFromSlice header 148 156 blanks
  copyFromSlice header 148 156 (octal 6 (checksum header) ++ [0, 32])

/-- The archive `out` with one more file. -/
def appendChunks (out name : List UInt8) (size mtime : ℕ) (chunks : List (List UInt8)) : Option (List UInt8) := do
  let header ← buildTarHeader name size mtime
  let written := (chunks.map List.length).sum
  let remainder := written % 512
  let padding := if remainder ≠ 0 then List.replicate (512 - remainder) 0 else []
  some (out ++ header ++ chunks.flatten ++ padding)

def finishTar (out : List UInt8) : List UInt8 := out ++ List.replicate 1024 0

/-! ## Reading -/

structure TarHeader where
  name : List UInt8
  size : ℕ
  mtime : ℕ
  deriving DecidableEq

structure TarEntry where
  name : List UInt8
  size : ℕ
  mtime : ℕ
  content : List UInt8
  deriving DecidableEq

/-- A text that ends at a NUL or at the end of its field. -/
def cstr (field : List UInt8) : List UInt8 := field.takeWhile (· ≠ 0)

/-- The checksum in a header is that of the header with blanks in its place. -/
def ChecksumOk (block : List UInt8) : Prop :=
  readOctal (field block 148 156) = some (checksum (block.take 148 ++ (blanks ++ block.drop 156)))

instance (block : List UInt8) : Decidable (ChecksumOk block) := inferInstanceAs (Decidable (_ = _))

/-- The header of a regular file. -/
def readHeader (block : List UInt8) : Option TarHeader := do
  guard (field block 257 263 = ascii "ustar\x00" ∧ ChecksumOk block ∧ field block 156 157 = ascii "0")
  let size ← readOctal (field block 124 136)
  let mtime ← readOctal (field block 136 148)
  let dir := cstr (field block 345 500)
  let name := cstr (field block 0 100)
  some { name := if dir = [] then name else dir ++ 47 :: name, size, mtime }

/-- A length in whole blocks. -/
def padded (n : ℕ) : ℕ := (n + 511) / 512 * 512

def readTar (bytes : List UInt8) : Option (List TarEntry) :=
  if bytes.take 1024 = List.replicate 1024 0 then some []
  else if _h : bytes.length < 512 then none
  else
    match readHeader (bytes.take 512) with
    | none => none
    | some head =>
      let body := bytes.drop 512
      if body.length < padded head.size then none
      else
        (readTar (body.drop (padded head.size))).map
          (⟨head.name, head.size, head.mtime, body.take head.size⟩ :: ·)
termination_by bytes.length
decreasing_by
  rw [List.length_drop, List.length_drop]
  omega

/-! ## The fields of a header -/

section Layout

variable {name : List UInt8} {size mtime : ℕ}

/-- The lengths of the fields; the name has `k` bytes. -/
def lengths (k : ℕ) : List ℕ := [k, 100 - k, 8, 8, 8, 12, 12, 8, 1, 100, 6, 2, 80, 155, 12]

/-- The fields of a header. -/
def layout (name sizeField mtimeField checksumField : List UInt8) : List (List UInt8) := [
  name, List.replicate (100 - name.length) 0, ascii "0000644\x00", ascii "0000000\x00", ascii "0000000\x00", sizeField,
  mtimeField, checksumField, ascii "0", List.replicate 100 0, ascii "ustar\x00", ascii "00", List.replicate 80 0,
  List.replicate 155 0, List.replicate 12 0]

theorem map_length_blank (k : ℕ) :
    ((lengths k).map fun n => List.replicate n (0 : UInt8)).map List.length = lengths k := by
  rw [List.map_map]
  exact List.map_id'' (fun n => List.length_replicate) _

theorem sum_lengths {k : ℕ} (hk : k ≤ 100) : (lengths k).sum = 512 := by
  simp only [lengths, List.sum_cons, List.sum_nil]
  omega

theorem flatten_blank {k : ℕ} (hk : k ≤ 100) :
    ((lengths k).map fun n => List.replicate n (0 : UInt8)).flatten = List.replicate 512 0 := by
  rw [List.eq_replicate_iff]
  constructor
  · rw [List.length_flatten, map_length_blank, sum_lengths hk]
  · intro b hb
    obtain ⟨f, hf, hbf⟩ := List.mem_flatten.1 hb
    obtain ⟨n, -, rfl⟩ := List.mem_map.1 hf
    exact List.eq_of_mem_replicate hbf

/-- The copies into a header, each with the number of its field. -/
def copies (name : List UInt8) (size mtime : ℕ) : List (ℕ × List UInt8) := [
  (0, name), (2, ascii "0000644\x00"), (3, ascii "0000000\x00"), (4, ascii "0000000\x00"), (5, octal 11 size ++ [0]),
  (6, octal 11 mtime ++ [0]), (8, ascii "0"), (10, ascii "ustar\x00"), (11, ascii "00"), (7, blanks)]

theorem length_field {n : ℕ} (h : n < 8 ^ 11) : (octal 11 n ++ [0]).length = 12 := by
  rw [List.length_append, length_octal (by decide) h, List.length_singleton]

/-- The header before the checksum is written. -/
theorem copied (hname : name.length ≤ 100) (hsize : size < 8 ^ 11) (hmtime : mtime < 8 ^ 11) :
    ((copies name size mtime).map fun c =>
        (((lengths name.length).take c.1).sum, ((lengths name.length).take (c.1 + 1)).sum, c.2)).foldlM
      (fun dst c => copyFromSlice dst c.1 c.2.1 c.2.2) (List.replicate 512 0) =
      some (layout name (octal 11 size ++ [0]) (octal 11 mtime ++ [0]) blanks).flatten := by
  rw [← flatten_blank hname, foldlM_copyFromSlice (lengths name.length) (copies name size mtime)]
  · rfl
  · exact map_length_blank name.length
  · simp only [copies, List.forall_mem_cons, length_field hsize, length_field hmtime]
    simp [lengths, ascii, blanks]

theorem checksum_lt (header : List UInt8) (h : header.length ≤ 512) : checksum header < 8 ^ 6 := by
  have hle : checksum header ≤ (header.map UInt8.toNat).length • 255 :=
    List.sum_le_card_nsmul _ _ fun x hx => by
      obtain ⟨b, -, rfl⟩ := List.mem_map.1 hx
      exact Nat.le_of_lt_succ b.toNat_lt
  rw [List.length_map, smul_eq_mul] at hle
  omega

/-- The checksum of a header with these fields. -/
def layoutChecksum (name : List UInt8) (size mtime : ℕ) : ℕ :=
  checksum (layout name (octal 11 size ++ [0]) (octal 11 mtime ++ [0]) blanks).flatten

/-- A header with its checksum. -/
def header (name : List UInt8) (size mtime : ℕ) : List UInt8 :=
  (layout name (octal 11 size ++ [0]) (octal 11 mtime ++ [0])
    (octal 6 (layoutChecksum name size mtime) ++ [0, 32])).flatten

theorem map_length_layout {sizeField mtimeField checksumField : List UInt8} (hsize : sizeField.length = 12)
    (hmtime : mtimeField.length = 12) (hchecksum : checksumField.length = 8) :
    (layout name sizeField mtimeField checksumField).map List.length = lengths name.length := by
  simp only [layout, List.map_cons, List.map_nil, List.length_replicate, hsize, hmtime, hchecksum]
  rfl

theorem length_layout (hname : name.length ≤ 100) {sizeField mtimeField checksumField : List UInt8}
    (hsize : sizeField.length = 12) (hmtime : mtimeField.length = 12) (hchecksum : checksumField.length = 8) :
    (layout name sizeField mtimeField checksumField).flatten.length = 512 := by
  rw [List.length_flatten, map_length_layout hsize hmtime hchecksum, sum_lengths hname]

/-- Where a field of a header begins. -/
theorem offset_layout {sizeField mtimeField checksumField : List UInt8}
    (hsize : sizeField.length = 12) (hmtime : mtimeField.length = 12) (hchecksum : checksumField.length = 8) (i : ℕ) :
    offset (layout name sizeField mtimeField checksumField) i = ((lengths name.length).take i).sum := by
  rw [offset, List.map_take, map_length_layout hsize hmtime hchecksum]

theorem length_checksumField (hname : name.length ≤ 100) (hsize : size < 8 ^ 11) (hmtime : mtime < 8 ^ 11) :
    (octal 6 (layoutChecksum name size mtime) ++ [0, 32]).length = 8 := by
  have hlt := checksum_lt (layout name (octal 11 size ++ [0]) (octal 11 mtime ++ [0]) blanks).flatten
    (length_layout hname (length_field hsize) (length_field hmtime) rfl).le
  rw [List.length_append, layoutChecksum, length_octal (by decide) hlt]
  rfl

/-- Only the first 100 bytes of a name matter. -/
theorem buildTarHeader_take (name : List UInt8) (size mtime : ℕ) :
    buildTarHeader name size mtime = buildTarHeader (name.take 100) size mtime := by
  have hlen : min (name.take 100).length 100 = min name.length 100 := by
    rw [List.length_take]
    omega
  have htake : (name.take 100).take (min name.length 100) = name.take (min name.length 100) := by
    rw [List.take_take]
    congr 1
    omega
  unfold buildTarHeader
  simp only [hlen, htake]

/-- The steps of `buildTarHeader` are the copies into its fields. -/
theorem buildTarHeader_eq_copies (hname : name.length ≤ 100) :
    buildTarHeader name size mtime = (((copies name size mtime).map fun c =>
        (((lengths name.length).take c.1).sum, ((lengths name.length).take (c.1 + 1)).sum, c.2)).foldlM
          (fun dst c => copyFromSlice dst c.1 c.2.1 c.2.2) (List.replicate 512 0)).bind fun header =>
      copyFromSlice header 148 156 (octal 6 (checksum header) ++ [0, 32]) := by
  have hname' : name.length + (100 - name.length) = 100 := by omega
  have hpad : ∀ n, name.length + (100 - name.length + n) = 100 + n := by omega
  simp only [copies, lengths, List.map_cons, List.map_nil, List.foldlM_cons, List.foldlM_nil, List.take_succ_cons,
    List.take_zero, List.sum_cons, List.sum_nil, hpad, hname', Nat.add_zero, Nat.reduceAdd]
  simp only [buildTarHeader, Nat.min_eq_left hname, List.take_length, Option.bind_assoc, Option.bind_eq_bind,
    Option.pure_def, Option.bind_some]

/-- **The header** of a name of at most 100 bytes and of numbers of at most 11 octal digits. -/
theorem buildTarHeader_eq (hname : name.length ≤ 100) (hsize : size < 8 ^ 11) (hmtime : mtime < 8 ^ 11) :
    buildTarHeader name size mtime = some (header name size mtime) := by
  rw [buildTarHeader_eq_copies hname, copied hname hsize hmtime, Option.bind_some]
  refine @copyFromSlice_flatten _ (layout name (octal 11 size ++ [0]) (octal 11 mtime ++ [0]) blanks) 7 148 156 blanks _
    rfl ?_ rfl ?_
  · rw [offset_layout (length_field hsize) (length_field hmtime) rfl]
    simp only [lengths, List.take_succ_cons, List.take_zero, List.sum_cons, List.sum_nil]
    omega
  · exact length_checksumField hname hsize hmtime

theorem length_header (hname : name.length ≤ 100) (hsize : size < 8 ^ 11) (hmtime : mtime < 8 ^ 11) :
    (header name size mtime).length = 512 :=
  length_layout hname (length_field hsize) (length_field hmtime) (length_checksumField hname hsize hmtime)

/-! ## What a reader finds -/

/-- A look at the `i`th field of a header. -/
theorem field_header (hname : name.length ≤ 100) (hsize : size < 8 ^ 11) (hmtime : mtime < 8 ^ 11) {i a b : ℕ}
    {f : List UInt8} (hf : (layout name (octal 11 size ++ [0]) (octal 11 mtime ++ [0])
      (octal 6 (layoutChecksum name size mtime) ++ [0, 32]))[i]? = some f)
    (ha : ((lengths name.length).take i).sum = a) (hb : a + f.length = b) : field (header name size mtime) a b = f :=
  field_flatten hf ((offset_layout (length_field hsize) (length_field hmtime)
    (length_checksumField hname hsize hmtime) i).trans ha) hb

/-- The checksum is that of the header with blanks in its place. -/
theorem checksumOk_header (hname : name.length ≤ 100) (hsize : size < 8 ^ 11) (hmtime : mtime < 8 ^ 11) :
    ChecksumOk (header name size mtime) := by
  have hlen := length_checksumField hname hsize hmtime
  have hsum : ((lengths name.length).take 7).sum = 148 := by
    simp only [lengths, List.take_succ_cons, List.take_zero, List.sum_cons, List.sum_nil]
    omega
  have hblank : copyFromSlice (header name size mtime) 148 156 blanks =
      some (layout name (octal 11 size ++ [0]) (octal 11 mtime ++ [0]) blanks).flatten := by
    refine @copyFromSlice_flatten _ (layout name (octal 11 size ++ [0]) (octal 11 mtime ++ [0])
      (octal 6 (layoutChecksum name size mtime) ++ [0, 32])) 7 148 156 _ blanks rfl ?_ (by rw [hlen]) hlen.symm
    exact (offset_layout (length_field hsize) (length_field hmtime) hlen 7).trans hsum
  rw [copyFromSlice] at hblank
  split_ifs at hblank
  rw [ChecksumOk, Option.some.inj hblank, field_header hname hsize hmtime (i := 7) rfl hsum (by rw [hlen])]
  refine readOctal_octal (by decide) (checksum_lt _ ?_) (Or.inl rfl)
  exact (length_layout hname (length_field hsize) (length_field hmtime) rfl).le

theorem cstr_append_zeros {bs : List UInt8} (h : 0 ∉ bs) (n : ℕ) : cstr (bs ++ List.replicate n 0) = bs := by
  have hbs : ∀ b ∈ bs, decide (b ≠ 0) = true := fun b hb => decide_eq_true (ne_of_mem_of_not_mem hb h)
  rw [cstr, List.takeWhile_append_of_pos hbs]
  cases n with
  | zero => simp
  | succ n => simp [List.replicate_succ]

/-- The first 100 bytes are the name and zeros. -/
theorem field_name (hname : name.length ≤ 100) :
    field (header name size mtime) 0 100 = name ++ List.replicate (100 - name.length) 0 := by
  have hlen : (name ++ List.replicate (100 - name.length) 0).length = 100 := by
    rw [List.length_append, List.length_replicate]
    omega
  rw [field, List.drop_zero, header, layout, List.flatten_cons, List.flatten_cons, ← List.append_assoc]
  exact List.take_left' hlen

/-- A reader finds the name and the numbers. -/
theorem readHeader_header (hname : name.length ≤ 100) (hnul : 0 ∉ name) (hsize : size < 8 ^ 11)
    (hmtime : mtime < 8 ^ 11) : readHeader (header name size mtime) = some ⟨name, size, mtime⟩ := by
  have hsum : ∀ i, ((lengths name.length).take (i + 2)).sum = 100 + (((lengths 0).drop 2).take i).sum := by
    intro i
    simp only [lengths, List.take_succ_cons, List.sum_cons, List.drop_succ_cons, List.drop_zero]
    omega
  have hmagic : field (header name size mtime) 257 263 = ascii "ustar\x00" :=
    field_header hname hsize hmtime (i := 10) rfl (hsum 8) rfl
  have htype : field (header name size mtime) 156 157 = ascii "0" :=
    field_header hname hsize hmtime (i := 8) rfl (hsum 6) rfl
  have hsizeField : field (header name size mtime) 124 136 = octal 11 size ++ [0] :=
    field_header hname hsize hmtime (i := 5) rfl (hsum 3) (by rw [length_field hsize])
  have hmtimeField : field (header name size mtime) 136 148 = octal 11 mtime ++ [0] :=
    field_header hname hsize hmtime (i := 6) rfl (hsum 4) (by rw [length_field hmtime])
  have hdir : field (header name size mtime) 345 500 = List.replicate 155 0 :=
    field_header hname hsize hmtime (i := 13) rfl (hsum 11) (by rw [List.length_replicate])
  rw [readHeader, hmagic, htype, hsizeField, hmtimeField, hdir, field_name hname, cstr_append_zeros hnul,
    readOctal_octal (by decide) hsize (Or.inl rfl), readOctal_octal (by decide) hmtime (Or.inl rfl)]
  simp [checksumOk_header hname hsize hmtime, guard, cstr]

end Layout

/-! ## Archives -/

/-- A file for the archive: its content comes in chunks. -/
structure Member where
  name : List UInt8
  size : ℕ
  mtime : ℕ
  chunks : List (List UInt8)

/-- What the header can hold, and chunks that make up the size. -/
structure Member.Fits (m : Member) : Prop where
  name_pos : 0 < m.name.length
  name_le : m.name.length ≤ 100
  nulFree : 0 ∉ m.name
  size_lt : m.size < 8 ^ 11
  mtime_lt : m.mtime < 8 ^ 11
  size_eq : (m.chunks.map List.length).sum = m.size

/-- What a reader should find. -/
def Member.entry (m : Member) : TarEntry := ⟨m.name, m.size, m.mtime, m.chunks.flatten⟩

def appendMembers (out : List UInt8) (ms : List Member) : Option (List UInt8) :=
  ms.foldlM (fun out m => appendChunks out m.name m.size m.mtime m.chunks) out

/-- `append_chunks` for each file, and `finish_tar`. -/
def archive (ms : List Member) : Option (List UInt8) := (appendMembers [] ms).map finishTar

/-- The blocks of a file. -/
def Member.blocks (m : Member) : List UInt8 :=
  header m.name m.size m.mtime ++ (m.chunks.flatten ++ List.replicate (padded m.size - m.size) 0)

theorem le_padded (n : ℕ) : n ≤ padded n := by
  unfold padded
  omega

theorem Member.length_blocks {m : Member} (h : m.Fits) : m.blocks.length = 512 + padded m.size := by
  rw [blocks, List.length_append, List.length_append, length_header h.name_le h.size_lt h.mtime_lt, List.length_flatten,
    h.size_eq, List.length_replicate]
  have := le_padded m.size
  omega

theorem appendChunks_eq {m : Member} (h : m.Fits) (out : List UInt8) :
    appendChunks out m.name m.size m.mtime m.chunks = some (out ++ m.blocks) := by
  have hpadding : (if m.size % 512 ≠ 0 then List.replicate (512 - m.size % 512) (0 : UInt8) else []) =
      List.replicate (padded m.size - m.size) 0 := by
    have hpad : padded m.size - m.size = if m.size % 512 ≠ 0 then 512 - m.size % 512 else 0 := by
      unfold padded
      split_ifs <;> omega
    rw [hpad]
    split_ifs <;> rfl
  simp only [appendChunks, buildTarHeader_eq h.name_le h.size_lt h.mtime_lt, h.size_eq, hpadding, Member.blocks]
  simp

/-- Only the first 100 bytes of a name matter. -/
theorem appendChunks_take (out name : List UInt8) (size mtime : ℕ) (chunks : List (List UInt8)) :
    appendChunks out name size mtime chunks = appendChunks out (name.take 100) size mtime chunks := by
  rw [appendChunks, buildTarHeader_take]
  rfl

theorem length_of_copyFromSlice {dst src out : List UInt8} {a b : ℕ} (h : copyFromSlice dst a b src = some out) :
    src.length = b - a := by
  rw [copyFromSlice] at h
  split_ifs at h with hok
  exact hok.2.2

/-- A header is built of numbers with at most 11 octal digits only. -/
theorem lt_of_buildTarHeader {name block : List UInt8} {size mtime : ℕ} (h : buildTarHeader name size mtime = some block) :
    size < 8 ^ 11 ∧ mtime < 8 ^ 11 := by
  simp only [buildTarHeader, Option.bind_eq_bind, Option.bind_eq_some_iff] at h
  obtain ⟨_, -, _, -, _, -, _, -, _, hsize, _, hmtime, -⟩ := h
  have hfield : ∀ n, (octal 11 n ++ [0]).length = 12 → n < 8 ^ 11 := by
    intro n hn
    by_contra hle
    have hlt := lt_length_octal (by decide) (Nat.not_lt.1 hle)
    rw [List.length_append, List.length_singleton] at hn
    omega
  exact ⟨hfield size (length_of_copyFromSlice hsize), hfield mtime (length_of_copyFromSlice hmtime)⟩

theorem lt_of_appendChunks {out name bytes : List UInt8} {size mtime : ℕ} {chunks : List (List UInt8)}
    (h : appendChunks out name size mtime chunks = some bytes) : size < 8 ^ 11 ∧ mtime < 8 ^ 11 := by
  obtain ⟨_, hheader, -⟩ := Option.bind_eq_some_iff.1 h
  exact lt_of_buildTarHeader hheader

theorem appendMembers_eq {ms : List Member} (h : ∀ m ∈ ms, m.Fits) (out : List UInt8) :
    appendMembers out ms = some (out ++ ms.flatMap Member.blocks) := by
  induction ms generalizing out with
  | nil => simp [appendMembers]
  | cons m ms ih =>
    obtain ⟨hm, hms⟩ := List.forall_mem_cons.1 h
    rw [appendMembers, List.foldlM_cons, appendChunks_eq hm]
    exact (ih hms _).trans (by rw [List.flatMap_cons, List.append_assoc])

theorem blocks_eq (m : Member) (rest : List UInt8) : m.blocks ++ rest =
    header m.name m.size m.mtime ++ (m.chunks.flatten ++ (List.replicate (padded m.size - m.size) 0 ++ rest)) := by
  rw [Member.blocks, List.append_assoc, List.append_assoc]

theorem blocks_take {m : Member} (h : m.Fits) (rest : List UInt8) :
    (m.blocks ++ rest).take 512 = header m.name m.size m.mtime := by
  rw [blocks_eq, List.take_left' (length_header h.name_le h.size_lt h.mtime_lt)]

/-- The end of the archive is no header: a header has a magic. -/
theorem blocks_ne_zeros {m : Member} (h : m.Fits) (rest : List UInt8) :
    (m.blocks ++ rest).take 1024 ≠ List.replicate 1024 0 := by
  intro hzeros
  have hheader : header m.name m.size m.mtime = List.replicate 512 0 := by
    rw [← blocks_take h rest, show 512 = min 512 1024 from rfl, ← List.take_take, hzeros, List.take_replicate]
  have hread := readHeader_header h.name_le h.nulFree h.size_lt h.mtime_lt
  rw [hheader] at hread
  have hnone : readHeader (List.replicate 512 0) = none := by decide +kernel
  rw [hnone] at hread
  cases hread

theorem readTar_end : readTar (List.replicate 1024 0) = some [] := by
  rw [readTar, if_pos (by rw [List.take_replicate, Nat.min_self])]

/-- A file in front of the others is read, and then the others. -/
theorem readTar_blocks {m : Member} (h : m.Fits) (rest : List UInt8) :
    readTar (m.blocks ++ rest) = (readTar rest).map (m.entry :: ·) := by
  have hheader := length_header h.name_le h.size_lt h.mtime_lt
  have hsize : m.chunks.flatten.length = m.size := by rw [List.length_flatten, h.size_eq]
  have hpadded := le_padded m.size
  have hlen : ¬(m.blocks ++ rest).length < 512 := by
    rw [List.length_append, m.length_blocks h]
    omega
  have hbody : (m.blocks ++ rest).drop 512 =
      m.chunks.flatten ++ (List.replicate (padded m.size - m.size) 0 ++ rest) := by
    rw [blocks_eq, List.drop_left' hheader]
  have hrest : ((m.blocks ++ rest).drop 512).drop (padded m.size) = rest := by
    rw [hbody, ← List.append_assoc, List.drop_left']
    rw [List.length_append, List.length_replicate, hsize]
    omega
  rw [readTar, if_neg (blocks_ne_zeros h rest), dif_neg hlen, blocks_take h,
    readHeader_header h.name_le h.nulFree h.size_lt h.mtime_lt]
  simp only [hrest]
  rw [if_neg, hbody, List.take_left' hsize]
  · rfl
  · rw [hbody, List.length_append, List.length_append, List.length_replicate, hsize]
    omega

/-- All files are read. -/
theorem readTar_members {ms : List Member} (h : ∀ m ∈ ms, m.Fits) :
    readTar (finishTar (ms.flatMap Member.blocks)) = some (ms.map Member.entry) := by
  induction ms with
  | nil => exact readTar_end
  | cons m ms ih =>
    obtain ⟨hm, hms⟩ := List.forall_mem_cons.1 h
    have hread := readTar_blocks hm (finishTar (ms.flatMap Member.blocks))
    rw [ih hms, Option.map_some] at hread
    rw [finishTar, List.flatMap_cons, List.append_assoc]
    exact hread

theorem dvd_length_blocks {ms : List Member} (h : ∀ m ∈ ms, m.Fits) : 512 ∣ (ms.flatMap Member.blocks).length := by
  induction ms with
  | nil => exact dvd_zero 512
  | cons m ms ih =>
    obtain ⟨hm, hms⟩ := List.forall_mem_cons.1 h
    rw [List.flatMap_cons, List.length_append, m.length_blocks hm]
    exact Nat.dvd_add (Nat.dvd_add (dvd_refl 512) (Nat.dvd_mul_left 512 _)) (ih hms)

/-- **Round trip.** Every list of files that fit is archived and read back: the names, sizes, times and contents, in
order. Each header is at a multiple of 512 and has a correct checksum. -/
theorem readTar_archive {ms : List Member} (h : ∀ m ∈ ms, m.Fits) :
    ∃ bytes, archive ms = some bytes ∧ readTar bytes = some (ms.map Member.entry) ∧
      ∀ before m after, ms = before ++ m :: after → ∃ out, appendMembers [] before = some out ∧ 512 ∣ out.length ∧
        ChecksumOk (field bytes out.length (out.length + 512)) := by
  refine ⟨finishTar (ms.flatMap Member.blocks), ?_, readTar_members h, ?_⟩
  · rw [archive, appendMembers_eq h]
    rfl
  · rintro before m after rfl
    have hbefore : ∀ m ∈ before, m.Fits := fun m hm => h m (List.mem_append_left _ hm)
    have hm : m.Fits := h m (List.mem_append_right _ List.mem_cons_self)
    refine ⟨before.flatMap Member.blocks, appendMembers_eq hbefore [], dvd_length_blocks hbefore, ?_⟩
    have hfield : field (finishTar ((before ++ m :: after).flatMap Member.blocks))
        (before.flatMap Member.blocks).length ((before.flatMap Member.blocks).length + 512) =
          header m.name m.size m.mtime := by
      rw [field, finishTar, List.flatMap_append, List.append_assoc, List.drop_left, Nat.add_sub_cancel_left,
        List.flatMap_cons, List.append_assoc, blocks_take hm]
    rw [hfield]
    exact checksumOk_header hm.name_le hm.size_lt hm.mtime_lt

/-- Two files, the first in two chunks. -/
theorem readTar_archive_notes :
    ∃ bytes, archive [⟨[110], 3, 7, [[1], [2, 3]]⟩, ⟨[111, 47, 112], 0, 8, []⟩] = some bytes ∧
      readTar bytes = some [⟨[110], 3, 7, [1, 2, 3]⟩, ⟨[111, 47, 112], 0, 8, []⟩] := by
  obtain ⟨bytes, hwrite, hread, -⟩ :=
    @readTar_archive [⟨[110], 3, 7, [[1], [2, 3]]⟩, ⟨[111, 47, 112], 0, 8, []⟩] (by
      intro m hm
      rcases List.mem_pair.1 hm with rfl | rfl <;> constructor <;> decide)
  exact ⟨bytes, hwrite, hread⟩

end ThorFirewall.Forensics
