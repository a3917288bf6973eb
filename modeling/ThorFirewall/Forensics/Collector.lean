import Mathlib
import ThorFirewall.Lib.Sha256
import ThorFirewall.Lib.TextSearch
import ThorFirewall.Lib.Utf8
import ThorFirewall.Lib.Wire
import ThorFirewall.Forensics.Tar

/-!
# Collecting evidence (`forensics/collector.rs`)

`collectEvidence` walks the requested paths, reads each file in chunks into a hasher and into the archive, and keeps a
manifest of what it read. An archived path is the last component of the requested path, a slash and the path below it.

- `collectPath_eq`: a walk takes in the files that `visits` lists, one after the other;
- `manifest_identifies_iff`: when the manifest identifies the files of the archive.

The archive is the tar stream; its compression is left out. A write into memory does not fail.
-/

namespace ThorFirewall.Forensics

open Text

/-! ## The file system -/

/-- The name of a directory entry. -/
structure Name where
  bytes : List UInt8
  ne_nil : bytes ≠ []
  nulFree : 0 ∉ bytes
  slashFree : 47 ∉ bytes
  deriving DecidableEq

inductive Component
  | rootDir
  | curDir
  | parentDir
  | normal (name : Name)
  deriving DecidableEq

abbrev PathBuf := List Component

/-- `file_name`. -/
def fileName (path : PathBuf) : Option Name :=
  match path.getLast? with
  | some (.normal name) => some name
  | _ => none

def CHUNK_SIZE : ℕ := 64 * 1024

/-- What a call of `read` with room for a chunk returns; with less room, it returns what has room. -/
inductive Read
  | data (bytes : List UInt8) (h : bytes.length ≤ CHUNK_SIZE)
  | interrupted
  | error

/-- A regular file. `len` is what its metadata says, 0 without metadata. -/
structure File where
  opens : Bool
  len : ℕ
  reads : List Read

mutual

/-- What is found at a path: a tree, as the metadata shows it. -/
inductive Node
  | noStat
  | other
  | file (file : File)
  | closedDir
  | dir (entries : Entries)

/-- The entries of a directory, in the order of `read_dir`. -/
inductive Entries
  | nil
  | cons (name : Name) (node : Node) (rest : Entries)

end

/-- `canonical` tells where in the tree a path leads. -/
structure FileSystem where
  node : PathBuf → Node
  canonical : PathBuf → List Name

/-! ## Collecting -/

structure CollectionRequest where
  paths : List PathBuf
  maxFileBytes : Option ℕ

structure FileManifestEntry where
  path : List Char
  sha256 : String
  size : ℕ
  truncated : Bool

/-- Where an entry of the manifest comes from. -/
inductive Source
  | file (location : List Name)
  | procSnapshot
  deriving DecidableEq

/-- The archive and the manifest. `sources` is a ghost: where each entry comes from. -/
structure Collector where
  tar : List UInt8
  manifest : List FileManifestEntry
  sources : List Source

/-- What is read of a file, and what the hasher was given. -/
structure Reading where
  chunks : List (List UInt8)
  hashed : List UInt8
  totalRead : ℕ

def readFile (readLimit : ℕ) : List Read → Reading → Reading
  | [], r => r
  | read :: reads, r =>
    let remaining := readLimit - r.totalRead
    if remaining = 0 then r
    else
      let toRead := min remaining CHUNK_SIZE
      match read with
      | .interrupted => readFile readLimit reads r
      | .error => r
      | .data bytes _ =>
        let buf := bytes.take toRead
        if buf = [] then r
        else readFile readLimit reads ⟨r.chunks ++ [buf], r.hashed ++ buf, r.totalRead + buf.length⟩

/-- `to_string_lossy` of a relative path. -/
def relText (rel : List Name) : List Char := Utf8.fromUtf8Lossy ([(47 : UInt8)].intercalate (rel.map Name.bytes))

/-- The last component of a requested path. -/
def baseText (base : PathBuf) : List Char :=
  ((fileName base).map fun name => Utf8.fromUtf8Lossy name.bytes).getD "root".toList

def fullKey (base : PathBuf) (rel : List Name) : List Char := baseText base ++ '/' :: relText rel

section

variable (fs : FileSystem) (request : CollectionRequest) (clock : ℕ → ℕ)

def readLimit (file : File) : ℕ := min file.len (request.maxFileBytes.getD (50 * 1024 * 1024))

/-- One more file in the archive and in the manifest. `clock k` is the time when the `k`th is written. -/
def collectFile (base : PathBuf) (rel : List Name) (file : File) (c : Collector) : Option Collector :=
  if file.opens then do
    let r := readFile (readLimit request file) file.reads ⟨[], [], 0⟩
    let tar ← appendChunks c.tar (bytes (fullKey base rel)) r.totalRead (clock c.manifest.length) r.chunks
    some {
      tar
      manifest := c.manifest ++ [{
        path := fullKey base rel
        sha256 := Sha256.hex (Sha256.digest r.hashed)
        size := r.totalRead
        truncated := request.maxFileBytes.getD (50 * 1024 * 1024) < file.len }]
      sources := c.sources ++ [.file (fs.canonical base ++ rel)] }
  else some c

mutual

def collectPath (base : PathBuf) (rel : List Name) : Node → Collector → Option Collector
  | .noStat, c => some c
  | .other, c => some c
  | .file file, c => collectFile fs request clock base rel file c
  | .closedDir, c => some c
  | .dir entries, c => collectEntries base rel entries c

def collectEntries (base : PathBuf) (rel : List Name) : Entries → Collector → Option Collector
  | .nil, c => some c
  | .cons name node rest, c =>
    (collectPath base (rel ++ [name]) node c).bind fun c =>
      if 50000 < c.manifest.length then some c else collectEntries base rel rest c

end

def snapshotName : List Char := "thor_proc_snapshot.txt".toList

def collectProcSnapshot (content : List UInt8) (c : Collector) : Option Collector := do
  let tar ← appendChunks c.tar (bytes snapshotName) content.length (clock c.manifest.length) [content]
  some {
    tar
    manifest := c.manifest ++ [{
      path := snapshotName
      sha256 := Sha256.hex (Sha256.digest content)
      size := content.length
      truncated := false }]
    sources := c.sources ++ [.procSnapshot] }

/-- `snapshot` is the text that the process list gives. -/
def collectEvidence (snapshot : List UInt8) : Option Collector := do
  let c ← request.paths.foldlM (fun c base => collectPath fs request clock base [] (fs.node base) c) ⟨[], [], []⟩
  let c ← collectProcSnapshot clock snapshot c
  some { c with tar := finishTar c.tar }

end

/-! ## What is asked of a package -/

/-- An entry of the manifest says what a reader finds in the archive. -/
structure FileManifestEntry.Describes (m : FileManifestEntry) (e : TarEntry) : Prop where
  path : e.name = bytes m.path
  sha256 : m.sha256 = Sha256.hex (Sha256.digest e.content)
  size : m.size = e.content.length

/-- The manifest has an entry for each of the archive, in order, and different files have different paths. -/
def Collector.Identifies (c : Collector) : Prop :=
  (∃ entries, readTar c.tar = some entries ∧ List.Forall₂ FileManifestEntry.Describes c.manifest entries) ∧
    ∀ a ∈ c.sources.zip c.manifest, ∀ b ∈ c.sources.zip c.manifest, a.1 ≠ b.1 → a.2.path ≠ b.2.path

/-! ## Which files are taken in -/

/-- A file that is opened. -/
structure Visit where
  base : PathBuf
  rel : List Name
  file : File

mutual

/-- The files that are opened below a path. `n` are in the manifest before; from 50,000 on, a directory is left. -/
def Node.visits (base : PathBuf) (rel : List Name) : Node → ℕ → List Visit
  | .noStat, _ => []
  | .other, _ => []
  | .file file, _ => if file.opens then [⟨base, rel, file⟩] else []
  | .closedDir, _ => []
  | .dir entries, n => entries.visits base rel n

def Entries.visits (base : PathBuf) (rel : List Name) : Entries → ℕ → List Visit
  | .nil, _ => []
  | .cons name node rest, n =>
    let first := node.visits base (rel ++ [name]) n
    if 50000 < n + first.length then first else first ++ rest.visits base rel (n + first.length)

end

def visitsFrom (fs : FileSystem) : List PathBuf → ℕ → List Visit
  | [], _ => []
  | base :: paths, n =>
    let first := (fs.node base).visits base [] n
    first ++ visitsFrom fs paths (n + first.length)

/-- The files that a request opens. -/
def visits (fs : FileSystem) (request : CollectionRequest) : List Visit := visitsFrom fs request.paths 0

/-- What the reads return up to an error or an end. -/
def delivered : List Read → List UInt8
  | [] => []
  | .interrupted :: reads => delivered reads
  | .error :: _ => []
  | .data bytes _ :: reads => if bytes = [] then [] else bytes ++ delivered reads

def Visit.location (fs : FileSystem) (v : Visit) : List Name := fs.canonical v.base ++ v.rel

/-- The archive can hold the file: its path has at most 100 bytes, its size at most 11 octal digits. -/
structure Visit.Fits (request : CollectionRequest) (v : Visit) : Prop where
  path_le : (bytes (baseText v.base)).length + (bytes (relText v.rel)).length < 100
  size_lt : min (readLimit request v.file) (delivered v.file.reads).length < 8 ^ 11

/-- Files at different places differ, as text, in the last component of the requested path or in the path below it. -/
def Distinguishable (fs : FileSystem) (vs : List Visit) : Prop :=
  ∀ v ∈ vs, ∀ w ∈ vs, v.location fs ≠ w.location fs → baseText v.base = baseText w.base → relText v.rel ≠ relText w.rel

/-! ## Reading a file -/

/-- What was hashed is what the chunks hold. -/
structure Reading.Ok (r : Reading) : Prop where
  hashed : r.hashed = r.chunks.flatten
  totalRead : r.totalRead = r.hashed.length

theorem readFile_ok {limit : ℕ} {reads : List Read} {r : Reading} (h : r.Ok) : (readFile limit reads r).Ok := by
  induction reads generalizing r with
  | nil => exact h
  | cons read reads ih =>
    rw [readFile]
    split_ifs
    · exact h
    · cases read with
      | interrupted => exact ih h
      | error => exact h
      | data bytes _ =>
        dsimp only
        split_ifs
        · exact h
        · apply ih
          constructor
          · rw [List.flatten_append, List.flatten_singleton, h.hashed]
          · rw [List.length_append, h.totalRead]

/-- **The size** is the limit, or what the reads return if that is less. -/
theorem readFile_totalRead {limit : ℕ} {reads : List Read} {r : Reading} (h : r.totalRead ≤ limit) :
    (readFile limit reads r).totalRead = min limit (r.totalRead + (delivered reads).length) := by
  induction reads generalizing r with
  | nil =>
    rw [readFile, delivered, List.length_nil]
    omega
  | cons read reads ih =>
    rw [readFile]
    split_ifs with hremaining
    · omega
    · cases read with
      | interrupted => exact ih h
      | error =>
        dsimp only
        rw [delivered, List.length_nil]
        omega
      | data bytes hbytes =>
        dsimp only
        rw [delivered]
        by_cases hnil : bytes = []
        · rw [if_pos (by rw [hnil, List.take_nil]), if_pos hnil, List.length_nil]
          omega
        · have hpos := List.length_pos_iff.2 hnil
          have hlen : (bytes.take (min (limit - r.totalRead) CHUNK_SIZE)).length =
              min (limit - r.totalRead) bytes.length := by
            rw [List.length_take]
            omega
          have htake : bytes.take (min (limit - r.totalRead) CHUNK_SIZE) ≠ [] := by
            apply List.ne_nil_of_length_pos
            omega
          rw [if_neg htake, if_neg hnil, hlen, ih (by dsimp only; omega), List.length_append]
          dsimp only
          omega

/-! ## Items -/

/-- What one entry is made of: an opened file, or the process list. -/
structure Item where
  source : Source
  path : List Char
  chunks : List (List UInt8)
  truncated : Bool

namespace Item

def content (i : Item) : List UInt8 := i.chunks.flatten

def entry (i : Item) : FileManifestEntry :=
  ⟨i.path, Sha256.hex (Sha256.digest i.content), i.content.length, i.truncated⟩

/-- The header has room for 100 bytes of the path. -/
def member (i : Item) (mtime : ℕ) : Member := ⟨(bytes i.path).take 100, i.content.length, mtime, i.chunks⟩

def collect (clock : ℕ → ℕ) (c : Collector) (i : Item) : Option Collector :=
  (appendChunks c.tar (bytes i.path) i.content.length (clock c.manifest.length) i.chunks).map fun tar =>
    ⟨tar, c.manifest ++ [i.entry], c.sources ++ [i.source]⟩

end Item

def Visit.item (fs : FileSystem) (request : CollectionRequest) (v : Visit) : Item where
  source := .file (v.location fs)
  path := fullKey v.base v.rel
  chunks := (readFile (readLimit request v.file) v.file.reads ⟨[], [], 0⟩).chunks
  truncated := request.maxFileBytes.getD (50 * 1024 * 1024) < v.file.len

def snapshotItem (content : List UInt8) : Item := ⟨.procSnapshot, snapshotName, [content], false⟩

def items (fs : FileSystem) (request : CollectionRequest) (snapshot : List UInt8) : List Item :=
  (visits fs request).map (Visit.item fs request) ++ [snapshotItem snapshot]

section Walk

variable (fs : FileSystem) (request : CollectionRequest) (clock : ℕ → ℕ)

theorem reading_ok (v : Visit) : (readFile (readLimit request v.file) v.file.reads ⟨[], [], 0⟩).Ok :=
  readFile_ok ⟨rfl, rfl⟩

theorem Visit.totalRead_eq (v : Visit) : (readFile (readLimit request v.file) v.file.reads ⟨[], [], 0⟩).totalRead =
    (v.item fs request).content.length := by
  rw [(reading_ok request v).totalRead, (reading_ok request v).hashed]
  rfl

theorem Visit.length_content (v : Visit) : (v.item fs request).content.length =
    min (readLimit request v.file) (delivered v.file.reads).length := by
  rw [← v.totalRead_eq, readFile_totalRead (Nat.zero_le _), Nat.zero_add]

/-- An opened file is collected as its item. -/
theorem collectFile_eq (v : Visit) (hopens : v.file.opens = true) (c : Collector) :
    collectFile fs request clock v.base v.rel v.file c = (v.item fs request).collect clock c := by
  rw [collectFile, if_pos hopens]
  dsimp only
  rw [v.totalRead_eq fs, (reading_ok request v).hashed, Item.collect, Option.map_eq_bind]
  rfl

theorem Item.length_of_collect {c c' : Collector} {i : Item} (h : i.collect clock c = some c') :
    c'.manifest.length = c.manifest.length + 1 := by
  obtain ⟨tar, -, rfl⟩ := Option.map_eq_some_iff.1 h
  rw [List.length_append, List.length_singleton]

theorem length_of_foldlM {is : List Item} {c c' : Collector} (h : is.foldlM (Item.collect clock) c = some c') :
    c'.manifest.length = c.manifest.length + is.length := by
  induction is generalizing c with
  | nil =>
    cases h
    rfl
  | cons i is ih =>
    rw [List.foldlM_cons] at h
    obtain ⟨d, hd, h⟩ := Option.bind_eq_some_iff.1 h
    rw [ih h, i.length_of_collect clock hd, List.length_cons]
    omega

mutual

/-- **A walk** takes in the opened files, one after the other. -/
theorem collectPath_eq (base : PathBuf) (rel : List Name) : ∀ (node : Node) (c : Collector),
    collectPath fs request clock base rel node c =
      ((node.visits base rel c.manifest.length).map (Visit.item fs request)).foldlM (Item.collect clock) c
  | .noStat, c => rfl
  | .other, c => rfl
  | .closedDir, c => rfl
  | .file file, c => by
    rw [collectPath, Node.visits]
    by_cases hopens : file.opens
    · rw [if_pos hopens, List.map_singleton, List.foldlM_cons]
      rw [collectFile_eq fs request clock ⟨base, rel, file⟩ hopens]
      exact (Option.bind_fun_some _).symm
    · rw [if_neg hopens, collectFile, if_neg hopens]
      rfl
  | .dir entries, c => by
    rw [collectPath, Node.visits]
    exact collectEntries_eq base rel entries c

theorem collectEntries_eq (base : PathBuf) (rel : List Name) : ∀ (entries : Entries) (c : Collector),
    collectEntries fs request clock base rel entries c =
      ((entries.visits base rel c.manifest.length).map (Visit.item fs request)).foldlM (Item.collect clock) c
  | .nil, c => rfl
  | .cons name node rest, c => by
    rw [collectEntries, Entries.visits, collectPath_eq base (rel ++ [name]) node c]
    cases hfirst : ((node.visits base (rel ++ [name]) c.manifest.length).map (Visit.item fs request)).foldlM
        (Item.collect clock) c with
    | none =>
      split_ifs
      · rw [hfirst]
        rfl
      · rw [List.map_append, List.foldlM_append, hfirst]
        rfl
    | some d =>
      have hlen := length_of_foldlM clock hfirst
      rw [List.length_map] at hlen
      rw [Option.bind_some, hlen]
      split_ifs
      · exact hfirst.symm
      · rw [List.map_append, List.foldlM_append, hfirst]
        have hrest := collectEntries_eq base rel rest d
        rw [hlen] at hrest
        exact hrest

end

theorem collectPaths_eq (paths : List PathBuf) (c : Collector) :
    paths.foldlM (fun c base => collectPath fs request clock base [] (fs.node base) c) c =
      ((visitsFrom fs paths c.manifest.length).map (Visit.item fs request)).foldlM (Item.collect clock) c := by
  induction paths generalizing c with
  | nil => rfl
  | cons base paths ih =>
    rw [List.foldlM_cons, visitsFrom, collectPath_eq, List.map_append, List.foldlM_append]
    cases hfirst : (((fs.node base).visits base [] c.manifest.length).map (Visit.item fs request)).foldlM
        (Item.collect clock) c with
    | none => rfl
    | some d =>
      have hlen := length_of_foldlM clock hfirst
      rw [List.length_map] at hlen
      have hrest := ih d
      rw [hlen] at hrest
      exact hrest

theorem collectProcSnapshot_eq (content : List UInt8) (c : Collector) :
    collectProcSnapshot clock content c = (snapshotItem content).collect clock c := by
  have hcontent : (snapshotItem content).content = content := List.flatten_singleton
  rw [Item.collect, hcontent, Option.map_eq_bind]
  simp only [collectProcSnapshot, Item.entry, hcontent]
  rfl

/-- All items, one after the other. -/
theorem collectEvidence_eq (snapshot : List UInt8) : collectEvidence fs request clock snapshot =
    ((items fs request snapshot).foldlM (Item.collect clock) ⟨[], [], []⟩).map fun c =>
      { c with tar := finishTar c.tar } := by
  rw [collectEvidence, collectPaths_eq, items, List.foldlM_append, Option.map_eq_bind]
  simp only [collectProcSnapshot_eq, visits, Option.bind_eq_bind, Option.bind_assoc, List.length_nil, List.foldlM_cons,
    List.foldlM_nil, Option.pure_def, Option.bind_some]
  rfl

end Walk

/-! ## What an archive holds -/

section Archive

variable {fs : FileSystem} {request : CollectionRequest} {clock : ℕ → ℕ} {snapshot : List UInt8}

/-- The files of the archive, from the `k`th on. -/
def members (clock : ℕ → ℕ) : ℕ → List Item → List Member
  | _, [] => []
  | k, i :: is => i.member (clock k) :: members clock (k + 1) is

/-- A path that a reader can find again. -/
structure Item.Readable (i : Item) : Prop where
  ne_nil : bytes i.path ≠ []
  nulFree : 0 ∉ bytes i.path

theorem Item.fits {i : Item} (h : i.Readable) {mtime : ℕ} (hsize : i.content.length < 8 ^ 11) (hmtime : mtime < 8 ^ 11) :
    (i.member mtime).Fits where
  name_pos := by
    have hpos := List.length_pos_iff.2 h.ne_nil
    rw [member, List.length_take]
    omega
  name_le := by
    rw [member, List.length_take]
    omega
  nulFree := fun hmem => h.nulFree (List.mem_of_mem_take hmem)
  size_lt := hsize
  mtime_lt := hmtime
  size_eq := List.length_flatten.symm

theorem Item.collect_eq {i : Item} (h : i.Readable) {c : Collector} (hsize : i.content.length < 8 ^ 11)
    (hclock : clock c.manifest.length < 8 ^ 11) : i.collect clock c =
      some ⟨c.tar ++ (i.member (clock c.manifest.length)).blocks, c.manifest ++ [i.entry], c.sources ++ [i.source]⟩ := by
  have hfits := appendChunks_eq (i.fits h hsize hclock) c.tar
  rw [collect, appendChunks_take]
  exact congrArg (Option.map _) hfits

/-- Sizes and times that the headers can hold. -/
def InRange (clock : ℕ → ℕ) (k : ℕ) (is : List Item) : Prop :=
  (∀ i ∈ is, i.content.length < 8 ^ 11) ∧ ∀ j < is.length, clock (k + j) < 8 ^ 11

theorem inRange_cons {k : ℕ} {i : Item} {is : List Item} :
    InRange clock k (i :: is) ↔ (i.content.length < 8 ^ 11 ∧ clock k < 8 ^ 11) ∧ InRange clock (k + 1) is := by
  have hclock : (∀ j < (i :: is).length, clock (k + j) < 8 ^ 11) ↔
      clock k < 8 ^ 11 ∧ ∀ j < is.length, clock (k + 1 + j) < 8 ^ 11 := by
    constructor
    · intro h
      refine ⟨h 0 (Nat.succ_pos _), fun j hj => ?_⟩
      rw [Nat.add_assoc, Nat.add_comm 1 j]
      exact h (j + 1) (Nat.succ_lt_succ hj)
    · rintro ⟨h0, h⟩ j hj
      cases j with
      | zero => exact h0
      | succ j =>
        have hstep := h j (Nat.lt_of_succ_lt_succ hj)
        rwa [Nat.add_assoc, Nat.add_comm 1 j] at hstep
  rw [InRange, InRange, List.forall_mem_cons, hclock]
  exact and_and_and_comm

theorem collect_items {is : List Item} (h : ∀ i ∈ is, i.Readable) {c : Collector}
    (hrange : InRange clock c.manifest.length is) : is.foldlM (Item.collect clock) c =
      some ⟨c.tar ++ (members clock c.manifest.length is).flatMap Member.blocks, c.manifest ++ is.map Item.entry,
        c.sources ++ is.map Item.source⟩ := by
  induction is generalizing c with
  | nil => simp [members]
  | cons i is ih =>
    obtain ⟨hi, his⟩ := List.forall_mem_cons.1 h
    obtain ⟨⟨hsize, hclock⟩, hrest⟩ := inRange_cons.1 hrange
    rw [List.foldlM_cons, i.collect_eq hi hsize hclock]
    refine (ih his ?_).trans ?_
    · rwa [List.length_append, List.length_singleton]
    · simp [members]

/-- Nothing else is collected. -/
theorem inRange_of_collect {is : List Item} {c c' : Collector} (h : is.foldlM (Item.collect clock) c = some c') :
    InRange clock c.manifest.length is := by
  induction is generalizing c with
  | nil => exact ⟨fun _ hi => absurd hi List.not_mem_nil, fun _ hj => absurd hj (Nat.not_lt_zero _)⟩
  | cons i is ih =>
    rw [List.foldlM_cons] at h
    obtain ⟨d, hd, h⟩ := Option.bind_eq_some_iff.1 h
    have hrest := ih h
    rw [i.length_of_collect clock hd] at hrest
    obtain ⟨tar, htar, -⟩ := Option.map_eq_some_iff.1 hd
    exact inRange_cons.2 ⟨lt_of_appendChunks htar, hrest⟩

theorem members_fit {is : List Item} (h : ∀ i ∈ is, i.Readable) {k : ℕ} (hrange : InRange clock k is) :
    ∀ m ∈ members clock k is, m.Fits := by
  induction is generalizing k with
  | nil => exact fun _ hm => absurd hm List.not_mem_nil
  | cons i is ih =>
    obtain ⟨hi, his⟩ := List.forall_mem_cons.1 h
    obtain ⟨⟨hsize, hclock⟩, hrest⟩ := inRange_cons.1 hrange
    exact List.forall_mem_cons.2 ⟨i.fits hi hsize hclock, ih his hrest⟩

theorem Item.describes_iff (i : Item) (mtime : ℕ) :
    i.entry.Describes (i.member mtime).entry ↔ (bytes i.path).length ≤ 100 := by
  constructor
  · intro h
    have hlen : ((bytes i.path).take 100).length = (bytes i.path).length := congrArg List.length h.path
    rw [List.length_take] at hlen
    omega
  · intro h
    exact ⟨List.take_of_length_le h, rfl, rfl⟩

/-- An entry describes its file if the path is not cut off. -/
theorem forall₂_describes {is : List Item} {k : ℕ} :
    List.Forall₂ FileManifestEntry.Describes (is.map Item.entry) ((members clock k is).map Member.entry) ↔
      ∀ i ∈ is, (bytes i.path).length ≤ 100 := by
  induction is generalizing k with
  | nil => exact ⟨fun _ _ hi => absurd hi List.not_mem_nil, fun _ => .nil⟩
  | cons i is ih =>
    rw [members, List.map_cons, List.map_cons, List.forall₂_cons, List.forall_mem_cons, i.describes_iff, ih]

/-- Items from different places have different paths. -/
def Apart (is : List Item) : Prop := ∀ i ∈ is, ∀ j ∈ is, i.source ≠ j.source → i.path ≠ j.path

/-- **The package** identifies its files if the sizes, times and lengths of the paths fit and the paths differ. -/
theorem package_identifies_iff {is : List Item} (h : ∀ i ∈ is, i.Readable) :
    (∃ c, (is.foldlM (Item.collect clock) ⟨[], [], []⟩).map (fun c => { c with tar := finishTar c.tar }) = some c ∧
      c.Identifies) ↔ InRange clock 0 is ∧ (∀ i ∈ is, (bytes i.path).length ≤ 100) ∧ Apart is := by
  have hzip : (is.map Item.source).zip (is.map Item.entry) = is.map fun i => (i.source, i.entry) := List.zip_map'
  constructor
  · rintro ⟨c, hc, ⟨entries, hread, hdescribes⟩, hapart⟩
    obtain ⟨d, hd, rfl⟩ := Option.map_eq_some_iff.1 hc
    have hrange : InRange clock 0 is := inRange_of_collect hd
    rw [collect_items h hrange] at hd
    cases hd
    simp only [List.nil_append, List.length_nil] at hread hdescribes hapart
    rw [readTar_members (members_fit h hrange)] at hread
    cases hread
    refine ⟨hrange, forall₂_describes.1 hdescribes, fun i hi j hj hsource => ?_⟩
    rw [hzip] at hapart
    exact hapart _ (List.mem_map_of_mem hi) _ (List.mem_map_of_mem hj) hsource
  · rintro ⟨hrange, hlen, hapart⟩
    refine ⟨⟨finishTar ((members clock 0 is).flatMap Member.blocks), is.map Item.entry, is.map Item.source⟩, ?_,
      ⟨(members clock 0 is).map Member.entry, ?_, ?_⟩, ?_⟩
    · rw [collect_items h hrange]
      rfl
    · exact readTar_members (members_fit h hrange)
    · exact forall₂_describes.2 hlen
    · rw [hzip]
      intro a ha b hb
      obtain ⟨i, hi, rfl⟩ := List.mem_map.1 ha
      obtain ⟨j, hj, rfl⟩ := List.mem_map.1 hb
      exact hapart i hi j hj

/-! ## Paths -/

theorem bytes_nulFree {s : List Char} (h : '\x00' ∉ s) : 0 ∉ bytes s := fun hmem =>
  h (Utf8.mem_of_mem_bytes (c := '\x00') (by decide) hmem)

theorem slash_not_mem_baseText (base : PathBuf) : '/' ∉ baseText base := by
  rw [baseText]
  cases fileName base with
  | none => decide
  | some name => exact fun hmem => name.slashFree (Utf8.mem_of_mem_fromUtf8Lossy (c := '/') (by decide) hmem)

theorem nul_not_mem_baseText (base : PathBuf) : '\x00' ∉ baseText base := by
  rw [baseText]
  cases fileName base with
  | none => decide
  | some name => exact fun hmem => name.nulFree (Utf8.mem_of_mem_fromUtf8Lossy (c := '\x00') (by decide) hmem)

theorem nul_not_mem_relText (rel : List Name) : '\x00' ∉ relText rel := by
  intro hmem
  have hjoined : (0 : UInt8) ∈ [(47 : UInt8)].intercalate (rel.map Name.bytes) :=
    Utf8.mem_of_mem_fromUtf8Lossy (c := '\x00') (by decide) hmem
  have hzeros := List.mem_filter.2 ⟨hjoined, beq_self_eq_true (0 : UInt8)⟩
  rw [TextSearch.filter_intercalate (by decide)] at hzeros
  obtain ⟨bs, hbs, h0⟩ := List.mem_flatten.1 (List.mem_of_mem_filter hzeros)
  obtain ⟨name, -, rfl⟩ := List.mem_map.1 hbs
  exact name.nulFree h0

/-- The first slash of a path ends the last component of what was requested. -/
theorem fullKey_inj {base base' : PathBuf} {rel rel' : List Name} :
    fullKey base rel = fullKey base' rel' ↔ baseText base = baseText base' ∧ relText rel = relText rel' := by
  exact Wire.append_cons_inj (slash_not_mem_baseText base) (slash_not_mem_baseText base')

theorem nul_not_mem_fullKey (base : PathBuf) (rel : List Name) : '\x00' ∉ fullKey base rel := by
  rw [fullKey, List.mem_append, List.mem_cons, not_or, not_or]
  exact ⟨nul_not_mem_baseText base, by decide, nul_not_mem_relText rel⟩

theorem bytes_ne_nil {s : List Char} {c : Char} (h : c ∈ s) : bytes s ≠ [] := by
  intro hnil
  have hchar := List.flatMap_eq_nil_iff.1 hnil c h
  have hpos := c.utf8Size_pos
  rw [← String.length_utf8EncodeChar, hchar] at hpos
  exact absurd hpos (Nat.lt_irrefl 0)

theorem readable_items : ∀ i ∈ items fs request snapshot, i.Readable := by
  intro i hi
  rcases List.mem_append.1 hi with h | h
  · obtain ⟨v, -, rfl⟩ := List.mem_map.1 h
    constructor
    · exact bytes_ne_nil (c := '/') (List.mem_append_right _ List.mem_cons_self)
    · exact bytes_nulFree (nul_not_mem_fullKey v.base v.rel)
  · rw [List.mem_singleton.1 h]
    constructor
    · exact bytes_ne_nil (show 't' ∈ snapshotName by decide)
    · exact bytes_nulFree (show '\x00' ∉ snapshotName by decide)

theorem length_bytes_fullKey (base : PathBuf) (rel : List Name) :
    (bytes (fullKey base rel)).length = (bytes (baseText base)).length + (bytes (relText rel)).length + 1 := by
  rw [fullKey, Utf8.bytes_append, Utf8.bytes_cons, List.length_append, List.length_append,
    Utf8.encode_ascii (by decide), List.length_singleton]
  omega

theorem apart_items : Apart (items fs request snapshot) ↔ Distinguishable fs (visits fs request) := by
  have hsnapshot : ∀ v : Visit, (v.item fs request).path ≠ snapshotName := by
    intro v heq
    have hslash : '/' ∈ (v.item fs request).path := List.mem_append_right _ List.mem_cons_self
    rw [heq] at hslash
    exact absurd hslash (by decide)
  constructor
  · intro h v hv w hw hlocation hbase hrel
    refine h _ (List.mem_append_left _ (List.mem_map_of_mem hv)) _ (List.mem_append_left _ (List.mem_map_of_mem hw)) ?_
      (fullKey_inj.2 ⟨hbase, hrel⟩)
    exact fun hsource => hlocation (Source.file.inj hsource)
  · intro h i hi j hj hsource hpath
    rcases List.mem_append.1 hi with hi | hi <;> rcases List.mem_append.1 hj with hj | hj
    · obtain ⟨v, hv, rfl⟩ := List.mem_map.1 hi
      obtain ⟨w, hw, rfl⟩ := List.mem_map.1 hj
      obtain ⟨hbase, hrel⟩ := fullKey_inj.1 hpath
      exact h v hv w hw (fun hlocation => hsource (congrArg Source.file hlocation)) hbase hrel
    · obtain ⟨v, hv, rfl⟩ := List.mem_map.1 hi
      rw [List.mem_singleton.1 hj] at hpath
      exact hsnapshot v hpath
    · obtain ⟨w, hw, rfl⟩ := List.mem_map.1 hj
      rw [List.mem_singleton.1 hi] at hpath
      exact hsnapshot w hpath.symm
    · rw [List.mem_singleton.1 hi, List.mem_singleton.1 hj] at hsource
      exact hsource rfl

/-- Sizes and paths that the headers can hold: those of the files, and the size of the process list. -/
theorem items_fit :
    (InRange clock 0 (items fs request snapshot) ∧ ∀ i ∈ items fs request snapshot, (bytes i.path).length ≤ 100) ↔
      (∀ v ∈ visits fs request, v.Fits request) ∧ snapshot.length < 8 ^ 11 ∧
        ∀ k ≤ (visits fs request).length, clock k < 8 ^ 11 := by
  have hsnapshot : (snapshotItem snapshot).content = snapshot := List.flatten_singleton
  have hlen : (items fs request snapshot).length = (visits fs request).length + 1 := by
    rw [items, List.length_append, List.length_map, List.length_singleton]
  have hall : ∀ p : Item → Prop, (∀ i ∈ items fs request snapshot, p i) ↔
      (∀ v ∈ visits fs request, p (v.item fs request)) ∧ p (snapshotItem snapshot) := by
    intro p
    rw [items, List.forall_mem_append, List.forall_mem_map, List.forall_mem_singleton]
  rw [InRange, hall, hall, hsnapshot, hlen]
  constructor
  · rintro ⟨⟨⟨hsizes, hsize⟩, hclock⟩, hpaths, -⟩
    refine ⟨fun v hv => ⟨?_, ?_⟩, hsize, fun k hk => ?_⟩
    · have hpath := hpaths v hv
      rw [Visit.item, length_bytes_fullKey] at hpath
      omega
    · rw [← v.length_content fs]
      exact hsizes v hv
    · have hk := hclock k (Nat.lt_succ_of_le hk)
      rwa [Nat.zero_add] at hk
  · rintro ⟨hfits, hsize, hclock⟩
    refine ⟨⟨⟨fun v hv => ?_, hsize⟩, fun k hk => ?_⟩, fun v hv => ?_, ?_⟩
    · rw [v.length_content]
      exact (hfits v hv).size_lt
    · rw [Nat.zero_add]
      exact hclock k (Nat.le_of_lt_succ hk)
    · have hpath := (hfits v hv).path_le
      rw [Visit.item, length_bytes_fullKey]
      omega
    · exact (by decide : (bytes snapshotName).length ≤ 100)

/-- **The manifest identifies the archived files** if and only if every opened file has a path of at most 100 bytes and a
size of at most 11 octal digits, the process list has such a size, the times have, and files at different places
differ in the last component of the requested path or below it. -/
theorem manifest_identifies_iff (fs : FileSystem) (request : CollectionRequest) (clock : ℕ → ℕ) (snapshot : List UInt8) :
    (∃ c, collectEvidence fs request clock snapshot = some c ∧ c.Identifies) ↔
      ((∀ v ∈ visits fs request, v.Fits request) ∧ snapshot.length < 8 ^ 11 ∧
        ∀ k ≤ (visits fs request).length, clock k < 8 ^ 11) ∧ Distinguishable fs (visits fs request) := by
  rw [collectEvidence_eq, package_identifies_iff readable_items, apart_items, ← items_fit, and_assoc]

end Archive

/-! ## Two directories of one name -/

def nameA : Name := ⟨[97], by decide, by decide, by decide⟩

def nameX : Name := ⟨[120], by decide, by decide, by decide⟩

def nameY : Name := ⟨[121], by decide, by decide, by decide⟩

/-- `log` in the directory. -/
def logPath (dir : Name) : PathBuf := [.rootDir, .normal dir, .normal ⟨[108, 111, 103], by decide, by decide, by decide⟩]

/-- In every directory is one empty file `a`. -/
def oneFile : FileSystem where
  node := fun _ => .dir (.cons nameA (.file ⟨true, 0, []⟩) .nil)
  canonical := fun path => path.filterMap fun
    | .normal name => some name
    | _ => none

/-- The files of `/x/log` and of `/y/log` are both archived as `log/a`. -/
theorem log_archived_twice : ¬ ∀ fs request clock snapshot,
    ∃ c, collectEvidence fs request clock snapshot = some c ∧ c.Identifies := by
  intro h
  have hidentifies := h oneFile ⟨[logPath nameX, logPath nameY], none⟩ (fun _ => 0) []
  rw [collectEvidence_eq, package_identifies_iff readable_items, apart_items] at hidentifies
  obtain ⟨-, -, hdistinct⟩ := hidentifies
  have hvisits : visits oneFile ⟨[logPath nameX, logPath nameY], none⟩ =
      [⟨logPath nameX, [nameA], ⟨true, 0, []⟩⟩, ⟨logPath nameY, [nameA], ⟨true, 0, []⟩⟩] := rfl
  rw [hvisits] at hdistinct
  refine hdistinct _ List.mem_cons_self _ (List.mem_cons_of_mem _ List.mem_cons_self) ?_ rfl rfl
  decide

end ThorFirewall.Forensics
