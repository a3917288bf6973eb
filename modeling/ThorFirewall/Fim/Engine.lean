import ThorFirewall.Lib.KeyedList
import ThorFirewall.Lib.Paths
import Mathlib.Data.List.Perm.Basic

/-!
# File integrity monitoring (`fim/mod.rs`, `fim/baseline.rs`, `fim/hasher.rs`)

`buildBaseline` records the monitored files, `scanAndDiff` compares the files with their records, reports the differences
and records what it saw. The store is a list of records with distinct paths; the hash is a parameter.

A tree holds regular files only, all of them readable; names are texts. Time stamps and alerts are left out.
-/

namespace ThorFirewall.Fim

open Paths KeyedList

/-! ## Files -/

structure File where
  content : List UInt8
  mode : ℕ
  uid : ℕ
  gid : ℕ
  inode : ℕ
  mtime : ℤ

mutual

/-- What is found at a path. -/
inductive Node
  | file (file : File)
  | dir (entries : Entries)

/-- The entries of a directory, in the order of `read_dir`. -/
inductive Entries
  | nil
  | cons (name : FileName) (node : Node) (rest : Entries)

end

/-- The part of a record that the other functions use. -/
structure FileRecord where
  path : List Char
  blake3Hash : List Char
  size : ℕ
  inode : ℕ
  permissions : ℕ
  uid : ℕ
  gid : ℕ

/-- `FimBaseline`: the records, by path. -/
abbrev Baseline := List FileRecord

namespace Baseline

def insert (b : Baseline) (record : FileRecord) : Baseline := upsert FileRecord.path record b

def get (b : Baseline) (path : List Char) : Option FileRecord := lookup FileRecord.path path b

/-- No function of the engine calls this. -/
def remove (b : Baseline) (path : List Char) : Baseline := b.filter fun record => record.path ≠ path

/-- `scan_prefix`: a prefix of the text. -/
def filesUnder (b : Baseline) (dir : List Char) : Option (List (List Char)) :=
  let paths := (b.map FileRecord.path).filter (dir.isPrefixOf ·)
  if paths.isEmpty then none else some paths

end Baseline

section Hasher

variable (blake3 : List UInt8 → List Char)

/-- `hash_file`; `none` is the error for a file of more than 512 MiB. -/
def hashFile (path : List Char) (f : File) : Option FileRecord :=
  if f.content.length > 512 * 1024 * 1024 then none
  else some {
    path
    blake3Hash := blake3 f.content
    size := f.content.length
    inode := f.inode
    permissions := f.mode
    uid := f.uid
    gid := f.gid }

def hashAndStat (path : List Char) (f : File) : FileRecord where
  path := path
  blake3Hash :=
    if f.content.length > 100 * 1024 * 1024 then
      "size:".toList ++ (toString f.content.length).toList ++ ":mtime:".toList ++ (toString f.mtime).toList
    else blake3 f.content
  size := f.content.length
  inode := f.inode
  permissions := f.mode
  uid := f.uid
  gid := f.gid

def MAX_DEPTH : ℕ := 4

/-- A swap file or a backup, hidden. -/
def isHiddenTemp (fname : List Char) : Bool :=
  ".".toList.isPrefixOf fname && (".swp".toList.isSuffixOf fname || "~".toList.isSuffixOf fname)

mutual

/-- `scan_dir_sync`: a file cannot be read as a directory. -/
def scanDirSync (path : List Char) (depth : ℕ) : Node → List FileRecord
  | .file _ => []
  | .dir entries => if depth > MAX_DEPTH then [] else scanEntries path depth entries []

def scanEntries (dir : List Char) (depth : ℕ) : Entries → List FileRecord → List FileRecord
  | .nil, records => records
  | .cons name node rest, records =>
    let path := push dir name
    if isHiddenTemp name.text then scanEntries dir depth rest records
    else match node with
      | .file file => scanEntries dir depth rest (upsert FileRecord.path (hashAndStat blake3 path file) records)
      | .dir entries =>
        let sub := scanDirSync path (depth + 1) (.dir entries)
        scanEntries dir depth rest (sub.foldl (fun records record => upsert FileRecord.path record records) records)

end

end Hasher

/-! ## The engine -/

inductive FimEventKind
  | created
  | modified
  | deleted
  | permissionChanged
  | ownerChanged
  deriving DecidableEq

structure FimEvent where
  kind : FimEventKind
  path : List Char
  oldHash : Option (List Char)
  newHash : Option (List Char)
  oldPermissions : Option ℕ
  newPermissions : Option ℕ
  oldOwner : Option ℕ
  newOwner : Option ℕ
  sizeBytes : Option ℕ
  inode : Option ℕ

def excludePatterns : List (List Char) := [".swp".toList, ".tmp".toList, "~".toList]

def isExcluded (fname : List Char) : Bool := excludePatterns.any fun p => decide (p <:+: fname)

section Engine

variable (blake3 : List UInt8 → List Char)

mutual

def scanPathIntoBaseline (path : List Char) : Node → Baseline → Baseline
  | .file file, b => match hashFile blake3 path file with
    | some record => b.insert record
    | none => b
  | .dir entries, b => scanEntriesIntoBaseline path entries b

def scanEntriesIntoBaseline (dir : List Char) : Entries → Baseline → Baseline
  | .nil, b => b
  | .cons name node rest, b =>
    if isExcluded name.text then scanEntriesIntoBaseline dir rest b
    else scanEntriesIntoBaseline dir rest (scanPathIntoBaseline (push dir name) node b)

end

/-- What is found at each monitored path. -/
abbrev FileSystem := List Char → Option Node

def buildBaseline (monitoredPaths : List (List Char)) (fs : FileSystem) (b : Baseline) : Baseline :=
  monitoredPaths.foldl (fun b path =>
    match fs path with
    | none => b
    | some node => scanPathIntoBaseline blake3 path node b) b

def deletedEvent (path : List Char) : FimEvent where
  kind := .deleted
  path := path
  oldHash := none
  newHash := none
  oldPermissions := none
  newPermissions := none
  oldOwner := none
  newOwner := none
  sizeBytes := none
  inode := none

def createdEvent (record : FileRecord) : FimEvent where
  kind := .created
  path := record.path
  oldHash := none
  newHash := some record.blake3Hash
  oldPermissions := none
  newPermissions := some record.permissions
  oldOwner := none
  newOwner := some record.uid
  sizeBytes := some record.size
  inode := some record.inode

def changedEvent (kind : FimEventKind) (old record : FileRecord) : FimEvent where
  kind := kind
  path := record.path
  oldHash := some old.blake3Hash
  newHash := some record.blake3Hash
  oldPermissions := some old.permissions
  newPermissions := some record.permissions
  oldOwner := some old.uid
  newOwner := some record.uid
  sizeBytes := some record.size
  inode := some record.inode

/-- The store, and the changes found so far. -/
structure Diff where
  baseline : Baseline
  changes : List FimEvent

def compareRecord (d : Diff) (record : FileRecord) : Diff :=
  match d.baseline.get record.path with
  | none => ⟨d.baseline.insert record, d.changes ++ [createdEvent record]⟩
  | some old =>
    if old.blake3Hash ≠ record.blake3Hash then
      ⟨d.baseline.insert record, d.changes ++ [changedEvent .modified old record]⟩
    else if old.permissions ≠ record.permissions then
      ⟨d.baseline.insert record, d.changes ++ [changedEvent .permissionChanged old record]⟩
    else if old.uid ≠ record.uid ∨ old.gid ≠ record.gid then
      ⟨d.baseline.insert record, d.changes ++ [changedEvent .ownerChanged old record]⟩
    else d

/-- An order in which a hash map is iterated. -/
structure HashOrder where
  order : List FileRecord → List FileRecord
  perm : ∀ records, (order records).Perm records

def scanRoot (order : HashOrder) (fs : FileSystem) (d : Diff) (path : List Char) : Diff :=
  match fs path with
  | none => match d.baseline.filesUnder path with
    | some paths => { d with changes := d.changes ++ paths.map deletedEvent }
    | none => d
  | some node => (order.order (scanDirSync blake3 path 0 node)).foldl compareRecord d

def scanAndDiff (monitoredPaths : List (List Char)) (order : HashOrder) (fs : FileSystem) (b : Baseline) : Diff :=
  monitoredPaths.foldl (scanRoot blake3 order fs) ⟨b, []⟩

end Engine

end ThorFirewall.Fim
