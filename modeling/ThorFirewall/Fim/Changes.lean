import ThorFirewall.Fim.Engine
import Mathlib

/-!
# Which changes are reported

A scan should report every difference between two trees, and leave the records of the second. `scanAndDiff` looks only
for files that are there, below monitored directories:

- `scanDirSync_eq`, `buildBaseline_agrees`: what the traversals find;
- `scanRoot_present`, `scanRoot_absent`: what one monitored path adds to the records and to the changes;
- `changes_reported_iff`: which changes are reported, over any number of scans.
-/

namespace ThorFirewall.Fim

open Paths KeyedList

/-! ## What should be reported -/

/-- What a change is about. -/
structure State where
  content : List UInt8
  mode : ℕ
  uid : ℕ
  gid : ℕ
  deriving DecidableEq

def File.state (f : File) : State := ⟨f.content, f.mode, f.uid, f.gid⟩

mutual

/-- The files at and below a path. -/
def Node.files (path : List Char) : Node → List (List Char × File)
  | .file file => [(path, file)]
  | .dir entries => entries.files path

def Entries.files (dir : List Char) : Entries → List (List Char × File)
  | .nil => []
  | .cons name node rest => node.files (push dir name) ++ rest.files dir

end

def Entries.names : Entries → List FileName
  | .nil => []
  | .cons name _ rest => name :: rest.names

mutual

/-- Files of at most 100 MiB, within the depth of the scan; no name is excluded or twice in a directory. -/
def Node.Ok (depth : ℕ) : Node → Prop
  | .file file => depth ≤ MAX_DEPTH + 1 ∧ file.content.length ≤ 100 * 1024 * 1024
  | .dir entries => entries.Ok depth

def Entries.Ok (depth : ℕ) : Entries → Prop
  | .nil => True
  | .cons name node rest =>
    isExcluded name.text = false ∧ name ∉ rest.names ∧ node.Ok (depth + 1) ∧ rest.Ok depth

end

/-- The trees at one time. -/
structure Snapshot where
  fs : FileSystem
  ok : ∀ path node, fs path = some node → node.Ok 0

/-- The files at and below a monitored path. -/
def rootFiles (fs : FileSystem) (path : List Char) : List (List Char × File) :=
  match fs path with
  | none => []
  | some node => node.files path

/-- The state of a path under the monitored paths; `none` if it is absent. -/
def stateAt (roots : List (List Char)) (fs : FileSystem) (path : List Char) : Option State :=
  (lookup Prod.fst path (roots.flatMap (rootFiles fs))).map fun x => x.2.state

/-- The kind that names the change. -/
def changeKind : Option State → Option State → Option FimEventKind
  | none, none => none
  | none, some _ => some .created
  | some _, none => some .deleted
  | some old, some new =>
    if old.content ≠ new.content then some .modified
    else if old.mode ≠ new.mode then some .permissionChanged
    else if old.uid ≠ new.uid ∨ old.gid ≠ new.gid then some .ownerChanged
    else none

/-- What a record keeps of a state. -/
structure Mark where
  blake3Hash : List Char
  permissions : ℕ
  uid : ℕ
  gid : ℕ
  deriving DecidableEq

def FileRecord.mark (r : FileRecord) : Mark := ⟨r.blake3Hash, r.permissions, r.uid, r.gid⟩

def State.mark (blake3 : List UInt8 → List Char) (s : State) : Mark := ⟨blake3 s.content, s.mode, s.uid, s.gid⟩

/-- What is recorded of a path. -/
def Baseline.markAt (b : Baseline) (path : List Char) : Option Mark := (b.get path).map FileRecord.mark

/-- The kinds of the changes of a path. -/
def kindsAt (changes : List FimEvent) (path : List Char) : List FimEventKind :=
  (changes.filter fun e => e.path = path).map FimEvent.kind

/-- The records are those of the tree. -/
def Agrees (blake3 : List UInt8 → List Char) (roots : List (List Char)) (fs : FileSystem) (b : Baseline) : Prop :=
  ∀ path, b.markAt path = (stateAt roots fs path).map (State.mark blake3)

/-- Each path is reported once if its state differs, and else not; the records are those of the new tree. -/
structure Exact (blake3 : List UInt8 → List Char) (roots : List (List Char)) (prev cur : FileSystem) (d : Diff) :
    Prop where
  changes : ∀ path, kindsAt d.changes path = (changeKind (stateAt roots prev path) (stateAt roots cur path)).toList
  baseline : Agrees blake3 roots cur d.baseline

/-- A scan: the trees, and how its hash maps are iterated. -/
structure Scan where
  snapshot : Snapshot
  order : HashOrder

/-- Every scan is exact. -/
def ExactFrom (blake3 : List UInt8 → List Char) (roots : List (List Char)) :
    FileSystem → Baseline → List Scan → Prop
  | _, _, [] => True
  | prev, b, scan :: scans =>
    let d := scanAndDiff blake3 roots scan.order scan.snapshot.fs b
    Exact blake3 roots prev scan.snapshot.fs d ∧ ExactFrom blake3 roots scan.snapshot.fs d.baseline scans

/-- No monitored path is inside another. -/
def Apart (roots : List (List Char)) : Prop := roots.Pairwise fun p q => ¬ Inside p q ∧ ¬ Inside q p

/-! ## When it is -/

/-- The files below a directory. -/
def Node.filesBelow (path : List Char) : Node → List (List Char × File)
  | .file _ => []
  | .dir entries => entries.files path

/-- The files below a monitored path. -/
def scanned (fs : FileSystem) (path : List Char) : List (List Char × File) :=
  match fs path with
  | none => []
  | some node => node.filesBelow path

/-- The changes that a scan can see: no file has vanished, no monitored file has changed or is new, and an absent
monitored path is, as text, not a prefix of a path on record when its turn comes. -/
structure Reportable (roots : List (List Char)) (prev cur : FileSystem) : Prop where
  kept : ∀ path, (stateAt roots prev path).isSome → (stateAt roots cur path).isSome
  plain : ∀ p ∈ roots, ∀ f, cur p = some (.file f) → stateAt roots prev p = some f.state
  unprefixed : ∀ before p after, roots = before ++ p :: after → cur p = none → ∀ path,
    (stateAt roots prev path).isSome ∨ path ∈ (before.flatMap (scanned cur)).map Prod.fst → ¬ p <+: path

def ReportableFrom (roots : List (List Char)) : FileSystem → List Scan → Prop
  | _, [] => True
  | prev, scan :: scans =>
    Reportable roots prev scan.snapshot.fs ∧ ReportableFrom roots scan.snapshot.fs scans

/-! ## The files of a tree -/

mutual

/-- The files of a tree are inside its path. -/
theorem Node.inside_of_mem {path : List Char} : ∀ {node : Node} {x : List Char × File}, x ∈ node.files path →
    Inside x.1 path
  | .file file, x, h => by
    rw [Node.files, List.mem_singleton] at h
    rw [h]
    exact Inside.refl path
  | .dir entries, x, h => (Entries.inside_of_mem h).elim fun _ hn => hn.2.trans (inside_push path _)

theorem Entries.inside_of_mem {dir : List Char} : ∀ {entries : Entries} {x : List Char × File}, x ∈ entries.files dir →
    ∃ name, name ∈ entries.names ∧ Inside x.1 (push dir name)
  | .nil, x, h => absurd h List.not_mem_nil
  | .cons name node rest, x, h => by
    rw [Entries.files, List.mem_append] at h
    rcases h with h | h
    · exact ⟨name, List.mem_cons_self, Node.inside_of_mem h⟩
    · obtain ⟨n, hn, hin⟩ := Entries.inside_of_mem h
      exact ⟨n, List.mem_cons_of_mem _ hn, hin⟩

end

mutual

theorem Node.nodup_files {path : List Char} : ∀ {node : Node} {depth : ℕ}, node.Ok depth →
    ((node.files path).map Prod.fst).Nodup
  | .file _, _, _ => List.nodup_singleton _
  | .dir _, _, h => Entries.nodup_files h

theorem Entries.nodup_files {dir : List Char} : ∀ {entries : Entries} {depth : ℕ}, entries.Ok depth →
    ((entries.files dir).map Prod.fst).Nodup
  | .nil, _, _ => List.nodup_nil
  | .cons name node rest, depth, ⟨_, hname, hnode, hrest⟩ => by
    rw [Entries.files, List.map_append]
    refine (Node.nodup_files hnode).append (Entries.nodup_files hrest) ?_
    intro path h h'
    obtain ⟨x, hx, rfl⟩ := List.mem_map.1 h
    obtain ⟨y, hy, hxy⟩ := List.mem_map.1 h'
    obtain ⟨n, hn, hin⟩ := Entries.inside_of_mem hy
    rw [hxy] at hin
    exact hname (name_eq_of_inside_push (Node.inside_of_mem hx) hin ▸ hn)

end

mutual

theorem Node.files_deep {path : List Char} : ∀ {node : Node} {depth : ℕ}, node.Ok depth → MAX_DEPTH + 1 < depth →
    node.files path = []
  | .file _, _, h, hdepth => absurd h.1 (Nat.not_le.2 hdepth)
  | .dir _, _, h, hdepth => Entries.files_deep h (Nat.lt_of_succ_lt hdepth)

/-- Below the depth of the scan is no file. -/
theorem Entries.files_deep {dir : List Char} : ∀ {entries : Entries} {depth : ℕ}, entries.Ok depth →
    MAX_DEPTH < depth → entries.files dir = []
  | .nil, _, _, _ => rfl
  | .cons name node rest, depth, ⟨_, _, hnode, hrest⟩, hdepth => by
    rw [Entries.files, Node.files_deep hnode (Nat.succ_lt_succ hdepth), Entries.files_deep hrest hdepth]
    rfl

end

theorem isExcluded_of_isHiddenTemp {fname : List Char} (h : isHiddenTemp fname = true) : isExcluded fname = true := by
  rw [isHiddenTemp, Bool.and_eq_true, Bool.or_eq_true, List.isSuffixOf_iff_suffix, List.isSuffixOf_iff_suffix] at h
  rw [isExcluded, List.any_eq_true]
  rcases h.2 with h | h
  · exact ⟨".swp".toList, List.mem_cons_self, decide_eq_true h.isInfix⟩
  · refine ⟨"~".toList, ?_, decide_eq_true h.isInfix⟩
    exact List.mem_cons_of_mem _ (List.mem_cons_of_mem _ List.mem_cons_self)

/-! ## What the traversals find -/

section Traversals

variable (blake3 : List UInt8 → List Char)

/-- The record of a file. -/
def record (x : List Char × File) : FileRecord := hashAndStat blake3 x.1 x.2

theorem map_path_record (l : List (List Char × File)) :
    (l.map (record blake3)).map FileRecord.path = l.map Prod.fst := List.map_map

theorem mark_record {path : List Char} {f : File} (h : f.content.length ≤ 100 * 1024 * 1024) :
    (record blake3 (path, f)).mark = f.state.mark blake3 := by
  simp only [record, hashAndStat, FileRecord.mark, State.mark, File.state, if_neg (Nat.not_lt.2 h)]

theorem hashFile_eq {path : List Char} {f : File} (h : f.content.length ≤ 100 * 1024 * 1024) :
    hashFile blake3 path f = some (record blake3 (path, f)) := by
  rw [hashFile, if_neg (by omega), record, hashAndStat]
  simp only [if_neg (Nat.not_lt.2 h)]

mutual

/-- The scan of a directory finds the files below it. -/
theorem scanDirSync_eq {path : List Char} {depth : ℕ} : ∀ {node : Node}, node.Ok depth →
    scanDirSync blake3 path depth node = (node.filesBelow path).map (record blake3)
  | .file _, _ => rfl
  | .dir entries, h => by
    rw [scanDirSync, Node.filesBelow]
    split_ifs with hdepth
    · rw [Entries.files_deep h hdepth]
      rfl
    · apply scanEntries_eq h
      rw [List.nil_append, map_path_record]
      exact Entries.nodup_files h

theorem scanEntries_eq {dir : List Char} {depth : ℕ} : ∀ {entries : Entries} {records : List FileRecord},
    entries.Ok depth → ((records ++ (entries.files dir).map (record blake3)).map FileRecord.path).Nodup →
    scanEntries blake3 dir depth entries records = records ++ (entries.files dir).map (record blake3)
  | .nil, records, _, _ => (List.append_nil _).symm
  | .cons name node rest, records, ⟨hname, _, hnode, hrest⟩, hnodup => by
    have hfiles : records ++ ((Entries.cons name node rest).files dir).map (record blake3) =
        records ++ (node.files (push dir name)).map (record blake3) ++ (rest.files dir).map (record blake3) := by
      rw [Entries.files, List.map_append, List.append_assoc]
    rw [hfiles] at hnodup ⊢
    have hhidden : isHiddenTemp name.text ≠ true := fun h => by
      rw [isExcluded_of_isHiddenTemp h] at hname
      cases hname
    have hfirst := (List.nodup_append.1 (by rwa [List.map_append] at hnodup)).1
    cases node with
    | file file =>
      rw [Node.files, List.map_singleton] at hnodup hfirst ⊢
      rw [scanEntries, if_neg hhidden, ← scanEntries_eq hrest hnodup, ← foldl_upsert_of_nodup hfirst]
      rfl
    | dir entries =>
      rw [Node.files] at hnodup hfirst ⊢
      rw [scanEntries, if_neg hhidden, scanDirSync_eq hnode, Node.filesBelow]
      dsimp only
      rw [foldl_upsert_of_nodup hfirst, scanEntries_eq hrest hnodup]

end

mutual

theorem scanPathIntoBaseline_eq {path : List Char} : ∀ {node : Node} {depth : ℕ} (b : Baseline), node.Ok depth →
    scanPathIntoBaseline blake3 path node b = ((node.files path).map (record blake3)).foldl Baseline.insert b
  | .file file, _, b, h => by
    rw [scanPathIntoBaseline, hashFile_eq blake3 h.2]
    rfl
  | .dir entries, _, b, h => by
    rw [scanPathIntoBaseline, scanEntriesIntoBaseline_eq b h]
    rfl

/-- The files of a tree are recorded, one after the other. -/
theorem scanEntriesIntoBaseline_eq {dir : List Char} : ∀ {entries : Entries} {depth : ℕ} (b : Baseline),
    entries.Ok depth →
    scanEntriesIntoBaseline blake3 dir entries b = ((entries.files dir).map (record blake3)).foldl Baseline.insert b
  | .nil, _, b, _ => rfl
  | .cons name node rest, _, b, ⟨hname, _, hnode, hrest⟩ => by
    rw [scanEntriesIntoBaseline, hname, if_neg Bool.false_ne_true, scanPathIntoBaseline_eq b hnode,
      scanEntriesIntoBaseline_eq _ hrest, Entries.files, List.map_append, List.foldl_append]

end

end Traversals

/-! ## One record -/

section Compare

variable {d : Diff}

@[simp] theorem kindsAt_nil (path : List Char) : kindsAt [] path = [] := rfl

theorem kindsAt_append (changes changes' : List FimEvent) (path : List Char) :
    kindsAt (changes ++ changes') path = kindsAt changes path ++ kindsAt changes' path := by
  rw [kindsAt, List.filter_append, List.map_append]
  rfl

theorem kindsAt_singleton (e : FimEvent) (path : List Char) :
    kindsAt [e] path = if e.path = path then [e.kind] else [] := by
  rw [kindsAt, List.filter_singleton]
  by_cases h : e.path = path
  · rw [if_pos h, decide_eq_true h]
    rfl
  · rw [if_neg h, decide_eq_false h]
    rfl

/-- The kind that names the change of a record. -/
def markChange : Option Mark → Mark → Option FimEventKind
  | none, _ => some .created
  | some old, new =>
    if old.blake3Hash ≠ new.blake3Hash then some .modified
    else if old.permissions ≠ new.permissions then some .permissionChanged
    else if old.uid ≠ new.uid ∨ old.gid ≠ new.gid then some .ownerChanged
    else none

theorem markAt_insert (b : Baseline) (r : FileRecord) (path : List Char) :
    (b.insert r).markAt path = if r.path = path then some r.mark else b.markAt path := by
  rw [Baseline.markAt, Baseline.get, Baseline.insert, lookup_upsert]
  split_ifs <;> rfl

/-- What the comparison with one record does: the record is kept up, and the change is reported. -/
theorem compareRecord_spec (d : Diff) (r : FileRecord) : ∃ changes,
    (compareRecord d r).changes = d.changes ++ changes ∧
    (∀ path, kindsAt changes path =
      if r.path = path then (markChange (d.baseline.markAt path) r.mark).toList else []) ∧
    ∀ path, (compareRecord d r).baseline.markAt path =
      if r.path = path then some r.mark else d.baseline.markAt path := by
  have hreport : ∀ e : FimEvent, e.path = r.path → some e.kind = markChange (d.baseline.markAt r.path) r.mark →
      ∀ path, kindsAt [e] path = if r.path = path then (markChange (d.baseline.markAt path) r.mark).toList else [] := by
    intro e hpath hkind path
    rw [kindsAt_singleton, hpath]
    split_ifs with h
    · rw [← h, ← hkind]
      rfl
    · rfl
  have hget : d.baseline.markAt r.path = (d.baseline.get r.path).map FileRecord.mark := rfl
  rw [compareRecord]
  cases hold : d.baseline.get r.path with
  | none =>
    rw [hold] at hget
    exact ⟨_, rfl, hreport _ rfl (by rw [hget]; rfl), markAt_insert _ r⟩
  | some old =>
    rw [hold] at hget
    have hchange : markChange (d.baseline.markAt r.path) r.mark =
        if old.blake3Hash ≠ r.blake3Hash then some .modified
        else if old.permissions ≠ r.permissions then some .permissionChanged
        else if old.uid ≠ r.uid ∨ old.gid ≠ r.gid then some .ownerChanged
        else none := by
      rw [hget]
      rfl
    dsimp only
    split_ifs with hhash hperm howner
    · exact ⟨_, rfl, hreport _ rfl (by rw [hchange, if_pos hhash]; rfl), markAt_insert _ r⟩
    · exact ⟨_, rfl, hreport _ rfl (by rw [hchange, if_neg hhash, if_pos hperm]; rfl), markAt_insert _ r⟩
    · exact ⟨_, rfl, hreport _ rfl (by rw [hchange, if_neg hhash, if_neg hperm, if_pos howner]; rfl), markAt_insert _ r⟩
    · rw [if_neg hhash, if_neg hperm, if_neg howner] at hchange
      -- nothing is written, and nothing need be
      refine ⟨[], (List.append_nil _).symm, fun path => ?_, fun path => ?_⟩
      · split_ifs with h
        · rw [← h, hchange]
          rfl
        · rfl
      · split_ifs with h
        · rw [← h, hget]
          have howner := not_or.1 howner
          simp only [not_not] at hhash hperm howner
          rw [Option.map_some, FileRecord.mark, FileRecord.mark, hhash, hperm, howner.1, howner.2]
        · rfl

/-- The records of a scan, with distinct paths. -/
theorem compareRecords_spec (records : List FileRecord) (d : Diff) (h : (records.map FileRecord.path).Nodup) :
    ∃ changes, (records.foldl compareRecord d).changes = d.changes ++ changes ∧
      (∀ path, kindsAt changes path = ((lookup FileRecord.path path records).elim [] fun r =>
        (markChange (d.baseline.markAt path) r.mark).toList)) ∧
      ∀ path, (records.foldl compareRecord d).baseline.markAt path =
        ((lookup FileRecord.path path records).map FileRecord.mark).or (d.baseline.markAt path) := by
  induction records generalizing d with
  | nil => exact ⟨[], (List.append_nil _).symm, fun _ => rfl, fun _ => rfl⟩
  | cons r records ih =>
    obtain ⟨hr, hrecords⟩ := List.nodup_cons.1 h
    obtain ⟨changes, hchanges, hkinds, hmarks⟩ := compareRecord_spec d r
    obtain ⟨changes', hchanges', hkinds', hmarks'⟩ := ih (compareRecord d r) hrecords
    have hnone : lookup FileRecord.path r.path records = none := by
      rw [lookup, List.find?_eq_none]
      intro x hx
      simpa using fun heq : x.path = r.path => hr (heq ▸ List.mem_map_of_mem hx)
    refine ⟨changes ++ changes', ?_, fun path => ?_, fun path => ?_⟩
    · rw [List.foldl_cons, hchanges', hchanges, List.append_assoc]
    · rw [kindsAt_append, hkinds, hkinds', hmarks, lookup_cons]
      by_cases hpath : r.path = path
      · subst hpath
        rw [if_pos rfl, if_pos rfl, if_pos rfl, hnone]
        exact List.append_nil _
      · rw [if_neg hpath, if_neg hpath, if_neg hpath]
        exact List.nil_append _
    · rw [List.foldl_cons, hmarks', hmarks, lookup_cons]
      by_cases hpath : r.path = path
      · subst hpath
        rw [if_pos rfl, if_pos rfl, hnone]
        rfl
      · rw [if_neg hpath, if_neg hpath]

end Compare

/-! ## One monitored path -/

section Roots

variable {blake3 : List UInt8 → List Char} {order : HashOrder} {fs : FileSystem} {d : Diff} {p path : List Char}

/-- What the scan of a monitored path sees at a path. -/
def seen (blake3 : List UInt8 → List Char) (fs : FileSystem) (p path : List Char) : Option Mark :=
  (lookup Prod.fst path (scanned fs p)).map fun x => x.2.state.mark blake3

theorem isSome_markAt {b : Baseline} : (b.markAt path).isSome ↔ path ∈ b.map FileRecord.path := by
  rw [Baseline.markAt, Option.isSome_map, Baseline.get, lookup, List.find?_isSome, List.mem_map]
  simp only [decide_eq_true_eq]

theorem seen_absent (h : fs p = none) : seen blake3 fs p path = none := by
  rw [seen, scanned, h]
  rfl

/-- An absent path: the records whose path has its text as a prefix are reported as deleted. -/
theorem scanRoot_absent (h : fs p = none) : ∃ changes, scanRoot blake3 order fs d p = ⟨d.baseline, d.changes ++ changes⟩ ∧
    ∀ path, ((d.baseline.markAt path).isSome ∧ p <+: path → .deleted ∈ kindsAt changes path) ∧
      (¬ ((d.baseline.markAt path).isSome ∧ p <+: path) → kindsAt changes path = []) := by
  have hkinds : ∀ (l : List (List Char)) path, kindsAt (l.map deletedEvent) path =
      (l.filter fun q => q = path).map fun _ => .deleted := by
    intro l path
    rw [kindsAt, List.filter_map, List.map_map]
    rfl
  refine ⟨((d.baseline.map FileRecord.path).filter (p.isPrefixOf ·)).map deletedEvent, ?_, fun path => ?_⟩
  · simp only [scanRoot, h, Baseline.filesUnder]
    split_ifs with hempty
    · rw [List.isEmpty_iff.1 hempty, List.map_nil, List.append_nil]
    · rfl
  · rw [isSome_markAt, hkinds]
    constructor
    · rintro ⟨hmem, hpre⟩
      refine List.mem_map.2 ⟨path, List.mem_filter.2 ⟨List.mem_filter.2 ⟨hmem, ?_⟩, decide_eq_true rfl⟩, rfl⟩
      exact List.isPrefixOf_iff_prefix.2 hpre
    · intro hnot
      rw [List.map_eq_nil_iff, List.filter_eq_nil_iff]
      intro q hq hqpath
      obtain ⟨hmem, hpre⟩ := List.mem_filter.1 hq
      rw [of_decide_eq_true hqpath] at hmem hpre
      exact hnot ⟨hmem, List.isPrefixOf_iff_prefix.1 hpre⟩

mutual

theorem Node.size_le : ∀ {q : List Char} {node : Node} {depth : ℕ}, node.Ok depth → ∀ x ∈ node.files q,
    x.2.content.length ≤ 100 * 1024 * 1024
  | _, .file _, _, h, x, hx => by
    rw [Node.files, List.mem_singleton] at hx
    rw [hx]
    exact h.2
  | _, .dir _, _, h, x, hx => Entries.size_le h x hx

theorem Entries.size_le : ∀ {q : List Char} {entries : Entries} {depth : ℕ}, entries.Ok depth →
    ∀ x ∈ entries.files q, x.2.content.length ≤ 100 * 1024 * 1024
  | _, .nil, _, _, x, hx => absurd hx List.not_mem_nil
  | _, .cons _ _ _, _, ⟨_, _, hnode, hrest⟩, x, hx => by
    rw [Entries.files, List.mem_append] at hx
    rcases hx with hx | hx
    · exact Node.size_le hnode x hx
    · exact Entries.size_le hrest x hx

end

theorem Node.mem_files_of_filesBelow {node : Node} {x : List Char × File} (h : x ∈ node.filesBelow path) :
    x ∈ node.files path := by
  cases node with
  | file file => exact absurd h List.not_mem_nil
  | dir entries => exact h

theorem Node.nodup_filesBelow {node : Node} {depth : ℕ} (h : node.Ok depth) :
    ((node.filesBelow path).map Prod.fst).Nodup := by
  cases node with
  | file file => exact List.nodup_nil
  | dir entries => exact Entries.nodup_files h

/-- A path that is there: the files below it are compared. -/
theorem scanRoot_present {node : Node} (h : fs p = some node) (hok : node.Ok 0) : ∃ changes,
    (scanRoot blake3 order fs d p).changes = d.changes ++ changes ∧
    (∀ path, kindsAt changes path =
      (seen blake3 fs p path).elim [] fun m => (markChange (d.baseline.markAt path) m).toList) ∧
    ∀ path, (scanRoot blake3 order fs d p).baseline.markAt path = (seen blake3 fs p path).or (d.baseline.markAt path) := by
  have hperm := order.perm (scanDirSync blake3 p 0 node)
  have hnodup : ((scanDirSync blake3 p 0 node).map FileRecord.path).Nodup := by
    rw [scanDirSync_eq blake3 hok, map_path_record]
    exact Node.nodup_filesBelow hok
  have hmark : ∀ path, (lookup FileRecord.path path (order.order (scanDirSync blake3 p 0 node))).map FileRecord.mark =
      seen blake3 fs p path := by
    intro path
    rw [← lookup_perm hperm.symm hnodup, scanDirSync_eq blake3 hok, lookup_map, Option.map_map, seen, scanned, h]
    cases hx : lookup Prod.fst path (node.filesBelow p) with
    | none => exact congrArg _ hx
    | some x =>
      have hmem := Node.mem_files_of_filesBelow ((lookup_eq_some_iff (Node.nodup_filesBelow hok)).1 hx).1
      exact (congrArg _ hx).trans (congrArg some (mark_record blake3 (Node.size_le hok x hmem)))
  obtain ⟨changes, hchanges, hkinds, hmarks⟩ := compareRecords_spec
    (order.order (scanDirSync blake3 p 0 node)) d ((hperm.map _).nodup_iff.2 hnodup)
  have hscan : scanRoot blake3 order fs d p =
      (order.order (scanDirSync blake3 p 0 node)).foldl compareRecord d := by
    rw [scanRoot, h]
  rw [hscan]
  refine ⟨changes, hchanges, fun path => ?_, fun path => ?_⟩
  · rw [hkinds, ← hmark, Option.elim_map]
    rfl
  · rw [hmarks, hmark]

/-- In either case the records seen are kept up. -/
theorem scanRoot_marks (hok : ∀ path node, fs path = some node → node.Ok 0) (path : List Char) :
    (scanRoot blake3 order fs d p).baseline.markAt path = (seen blake3 fs p path).or (d.baseline.markAt path) := by
  cases hp : fs p with
  | none =>
    obtain ⟨changes, hscan, -⟩ := @scanRoot_absent blake3 order fs d p hp
    rw [hscan, seen_absent hp]
    rfl
  | some node =>
    obtain ⟨changes, -, -, hmarks⟩ := @scanRoot_present blake3 order fs d p node hp (hok p node hp)
    exact hmarks path

theorem scanRoot_changes (hok : ∀ path node, fs path = some node → node.Ok 0) :
    ∃ changes, (scanRoot blake3 order fs d p).changes = d.changes ++ changes := by
  cases hp : fs p with
  | none =>
    obtain ⟨changes, hscan, -⟩ := @scanRoot_absent blake3 order fs d p hp
    exact ⟨changes, by rw [hscan]⟩
  | some node =>
    obtain ⟨changes, hchanges, -⟩ := @scanRoot_present blake3 order fs d p node hp (hok p node hp)
    exact ⟨changes, hchanges⟩

/-! ## All monitored paths -/

theorem markAt_unseen (hok : ∀ path node, fs path = some node → node.Ok 0) {roots : List (List Char)}
    (h : ∀ p ∈ roots, seen blake3 fs p path = none) :
    (roots.foldl (scanRoot blake3 order fs) d).baseline.markAt path = d.baseline.markAt path := by
  induction roots generalizing d with
  | nil => rfl
  | cons p roots ih =>
    obtain ⟨hp, hroots⟩ := List.forall_mem_cons.1 h
    rw [List.foldl_cons, ih hroots, scanRoot_marks hok, hp]
    rfl

/-- What some monitored path sees is recorded, if none sees anything else. -/
theorem markAt_seen (hok : ∀ path node, fs path = some node → node.Ok 0) {roots : List (List Char)} {m : Mark}
    (hall : ∀ p ∈ roots, ∀ m', seen blake3 fs p path = some m' → m' = m)
    (h : ∃ p ∈ roots, seen blake3 fs p path = some m) :
    (roots.foldl (scanRoot blake3 order fs) d).baseline.markAt path = some m := by
  induction roots using List.reverseRecOn with
  | nil =>
    obtain ⟨p, hp, -⟩ := h
    exact absurd hp List.not_mem_nil
  | append_singleton roots p ih =>
    rw [List.foldl_concat, scanRoot_marks hok]
    cases hseen : seen blake3 fs p path with
    | some m' => rw [hall p List.mem_concat_self m' hseen, Option.some_or]
    | none =>
      rw [Option.none_or]
      refine ih (fun q hq => hall q (List.mem_append_left _ hq)) ?_
      obtain ⟨q, hq, hm⟩ := h
      rcases List.mem_append.1 hq with hq | hq
      · exact ⟨q, hq, hm⟩
      · rw [List.mem_singleton.1 hq, hseen] at hm
        cases hm

/-- What is on record, or seen, is on record after. -/
theorem isSome_markAt_foldl (hok : ∀ path node, fs path = some node → node.Ok 0) {roots : List (List Char)}
    (h : (d.baseline.markAt path).isSome ∨ ∃ p ∈ roots, (seen blake3 fs p path).isSome) :
    ((roots.foldl (scanRoot blake3 order fs) d).baseline.markAt path).isSome := by
  induction roots using List.reverseRecOn with
  | nil => simpa using h
  | append_singleton roots p ih =>
    rw [List.foldl_concat, scanRoot_marks hok, Option.isSome_or, Bool.or_eq_true]
    rcases h with h | ⟨q, hq, hseen⟩
    · exact Or.inr (ih (Or.inl h))
    · rcases List.mem_append.1 hq with hq | hq
      · exact Or.inr (ih (Or.inr ⟨q, hq, hseen⟩))
      · rw [List.mem_singleton.1 hq] at hseen
        exact Or.inl hseen

theorem changes_foldl (hok : ∀ path node, fs path = some node → node.Ok 0) (roots : List (List Char)) (d : Diff) :
    ∃ changes, (roots.foldl (scanRoot blake3 order fs) d).changes = d.changes ++ changes := by
  induction roots generalizing d with
  | nil => exact ⟨[], (List.append_nil _).symm⟩
  | cons p roots ih =>
    obtain ⟨changes, hchanges⟩ := @scanRoot_changes blake3 order fs d p hok
    obtain ⟨changes', hchanges'⟩ := ih (scanRoot blake3 order fs d p)
    exact ⟨changes ++ changes', by rw [List.foldl_cons, hchanges', hchanges, List.append_assoc]⟩

/-- A path on record, with the text of an absent monitored path in front, is reported as deleted. -/
theorem deleted_mem (hok : ∀ path node, fs path = some node → node.Ok 0) {before after : List (List Char)}
    (hp : fs p = none) (hpre : p <+: path)
    (h : (d.baseline.markAt path).isSome ∨ ∃ q ∈ before, (seen blake3 fs q path).isSome) :
    .deleted ∈ kindsAt ((before ++ p :: after).foldl (scanRoot blake3 order fs) d).changes path := by
  rw [List.foldl_append, List.foldl_cons]
  obtain ⟨changes, hscan, hkinds⟩ := @scanRoot_absent blake3 order fs (before.foldl (scanRoot blake3 order fs) d) p hp
  obtain ⟨changes', hchanges'⟩ := @changes_foldl blake3 order fs hok after
    (scanRoot blake3 order fs (before.foldl (scanRoot blake3 order fs) d) p)
  rw [hchanges', hscan, kindsAt_append, kindsAt_append]
  apply List.mem_append_left
  apply List.mem_append_right
  exact (hkinds path).1 ⟨isSome_markAt_foldl hok h, hpre⟩

/-- Where no absent monitored path gets in the way, the changes of a path are those of what is seen of it. -/
theorem kindsAt_foldl (hok : ∀ path node, fs path = some node → node.Ok 0) {roots : List (List Char)}
    (hquiet : ∀ before p after, roots = before ++ p :: after → fs p = none → p <+: path →
      d.baseline.markAt path = none ∧ ∀ q ∈ before, seen blake3 fs q path = none)
    (hdisjoint : roots.Pairwise fun p q => seen blake3 fs p path = none ∨ seen blake3 fs q path = none) :
    ∃ changes, (roots.foldl (scanRoot blake3 order fs) d).changes = d.changes ++ changes ∧
      kindsAt changes path = (roots.findSome? fun p => seen blake3 fs p path).elim [] fun m =>
        (markChange (d.baseline.markAt path) m).toList := by
  induction roots generalizing d with
  | nil => exact ⟨[], (List.append_nil _).symm, rfl⟩
  | cons p roots ih =>
    obtain ⟨hp, hroots⟩ := List.pairwise_cons.1 hdisjoint
    have hmarks := @scanRoot_marks blake3 order fs d p hok path
    -- what the first monitored path adds
    obtain ⟨changes, hchanges, hkinds⟩ : ∃ changes, (scanRoot blake3 order fs d p).changes = d.changes ++ changes ∧
        kindsAt changes path =
          (seen blake3 fs p path).elim [] fun m => (markChange (d.baseline.markAt path) m).toList := by
      cases hfs : fs p with
      | some node =>
        obtain ⟨changes, hchanges, hkinds, -⟩ := @scanRoot_present blake3 order fs d p node hfs (hok p node hfs)
        exact ⟨changes, hchanges, hkinds path⟩
      | none =>
        obtain ⟨changes, hscan, hkinds⟩ := @scanRoot_absent blake3 order fs d p hfs
        refine ⟨changes, by rw [hscan], ?_⟩
        rw [seen_absent hfs]
        apply (hkinds path).2
        rintro ⟨hsome, hpre⟩
        rw [(hquiet [] p roots rfl hfs hpre).1] at hsome
        cases hsome
    cases hseen : seen blake3 fs p path with
    | none =>
      rw [hseen, Option.none_or] at hmarks
      obtain ⟨changes', hchanges', hkinds'⟩ := @ih (scanRoot blake3 order fs d p) (by
        rintro before q after rfl hq hpre
        obtain ⟨hnone, hbefore⟩ := hquiet (p :: before) q after rfl hq hpre
        exact ⟨hmarks.trans hnone, fun r hr => hbefore r (List.mem_cons_of_mem _ hr)⟩) hroots
      refine ⟨changes ++ changes', by rw [List.foldl_cons, hchanges', hchanges, List.append_assoc], ?_⟩
      rw [kindsAt_append, hkinds, hkinds', hmarks, hseen, List.findSome?_cons, hseen]
      rfl
    | some m =>
      have hrest : ∀ q ∈ roots, seen blake3 fs q path = none := fun q hq =>
        (hp q hq).resolve_left (by rw [hseen]; exact Option.some_ne_none m)
      obtain ⟨changes', hchanges', hkinds'⟩ := @ih (scanRoot blake3 order fs d p) (by
        rintro before q after rfl hq hpre
        -- the absent path would come after one that sees the file
        have hnone := (hquiet (p :: before) q after rfl hq hpre).2 p List.mem_cons_self
        rw [hseen] at hnone
        cases hnone) hroots
      refine ⟨changes ++ changes', by rw [List.foldl_cons, hchanges', hchanges, List.append_assoc], ?_⟩
      rw [kindsAt_append, hkinds, hkinds', List.findSome?_cons, hseen, List.findSome?_eq_none_iff.2 hrest]
      exact List.append_nil _

/-! ## States and what is seen -/

variable {roots : List (List Char)}

theorem rootFiles_inside {x : List Char × File} (h : x ∈ rootFiles fs p) : Inside x.1 p := by
  rw [rootFiles] at h
  cases hp : fs p with
  | none =>
    rw [hp] at h
    exact absurd h List.not_mem_nil
  | some node =>
    rw [hp] at h
    exact Node.inside_of_mem h

/-- Two monitored paths have no file in common. -/
theorem Apart.eq_of_mem (h : Apart roots) {q : List Char} {x y : List Char × File} (hp : p ∈ roots) (hq : q ∈ roots)
    (hx : x ∈ rootFiles fs p) (hy : y ∈ rootFiles fs q) (hxy : x.1 = y.1) : p = q := by
  by_contra hne
  have hin := rootFiles_inside hx
  have hin' := rootFiles_inside hy
  rw [← hxy] at hin'
  have hsymm : Std.Symm fun p q : List Char => ¬ Inside p q ∧ ¬ Inside q p := ⟨fun _ _ h => ⟨h.2, h.1⟩⟩
  have hapart := List.Pairwise.forall h hp hq hne
  rcases hin.total hin' with hpq | hpq
  · exact hapart.1 hpq
  · exact hapart.2 hpq

theorem nodup_rootFiles (hok : ∀ path node, fs path = some node → node.Ok 0) (p : List Char) :
    ((rootFiles fs p).map Prod.fst).Nodup := by
  rw [rootFiles]
  cases hp : fs p with
  | none => exact List.nodup_nil
  | some node => exact Node.nodup_files (hok p node hp)

theorem nodup_files (h : Apart roots) (hok : ∀ path node, fs path = some node → node.Ok 0) :
    ((roots.flatMap (rootFiles fs)).map Prod.fst).Nodup := by
  induction roots with
  | nil => exact List.nodup_nil
  | cons p roots ih =>
    obtain ⟨hp, hroots⟩ := List.pairwise_cons.1 h
    rw [List.flatMap_cons, List.map_append]
    refine (nodup_rootFiles hok p).append (ih hroots) ?_
    intro path hpath hpath'
    obtain ⟨x, hx, rfl⟩ := List.mem_map.1 hpath
    obtain ⟨y, hy, hxy⟩ := List.mem_map.1 hpath'
    obtain ⟨q, hq, hyq⟩ := List.mem_flatMap.1 hy
    have hpq := h.eq_of_mem List.mem_cons_self (List.mem_cons_of_mem p hq) hx hyq hxy.symm
    exact (hp q hq).1 (hpq ▸ Inside.refl p)

theorem stateAt_eq_some_iff (h : Apart roots) (hok : ∀ path node, fs path = some node → node.Ok 0) {s : State} :
    stateAt roots fs path = some s ↔ ∃ p ∈ roots, ∃ f, (path, f) ∈ rootFiles fs p ∧ f.state = s := by
  rw [stateAt, Option.map_eq_some_iff]
  simp only [lookup_eq_some_iff (nodup_files h hok), List.mem_flatMap]
  constructor
  · rintro ⟨⟨_, f⟩, ⟨⟨p, hp, hmem⟩, rfl⟩, hs⟩
    exact ⟨p, hp, f, hmem, hs⟩
  · rintro ⟨p, hp, f, hmem, hs⟩
    exact ⟨(path, f), ⟨⟨p, hp, hmem⟩, rfl⟩, hs⟩

/-- What is seen is a file of a directory. -/
theorem seen_eq_some_iff (hok : ∀ path node, fs path = some node → node.Ok 0) {m : Mark} :
    seen blake3 fs p path = some m ↔ ∃ f, (path, f) ∈ scanned fs p ∧ f.state.mark blake3 = m := by
  have hnodup : ((scanned fs p).map Prod.fst).Nodup := by
    rw [scanned]
    cases hp : fs p with
    | none => exact List.nodup_nil
    | some node => exact Node.nodup_filesBelow (hok p node hp)
  rw [seen, Option.map_eq_some_iff]
  simp only [lookup_eq_some_iff hnodup]
  constructor
  · rintro ⟨⟨_, f⟩, ⟨hmem, rfl⟩, hm⟩
    exact ⟨f, hmem, hm⟩
  · rintro ⟨f, hmem, hm⟩
    exact ⟨(path, f), ⟨hmem, rfl⟩, hm⟩

theorem mem_rootFiles_of_scanned {x : List Char × File} (h : x ∈ scanned fs p) : x ∈ rootFiles fs p := by
  rw [scanned] at h
  rw [rootFiles]
  cases hp : fs p with
  | none =>
    rw [hp] at h
    exact h
  | some node =>
    rw [hp] at h
    exact Node.mem_files_of_filesBelow h

/-- A file is below a monitored directory, or is itself monitored. -/
theorem scanned_or_plain {f : File} (h : (path, f) ∈ rootFiles fs p) :
    (path, f) ∈ scanned fs p ∨ path = p ∧ fs p = some (.file f) := by
  rw [rootFiles] at h
  rw [scanned]
  cases hp : fs p with
  | none =>
    rw [hp] at h
    exact Or.inl h
  | some node =>
    rw [hp] at h
    cases node with
    | dir entries => exact Or.inl h
    | file file =>
      obtain ⟨hpath, hf⟩ := Prod.mk.inj (List.mem_singleton.1 h)
      exact Or.inr ⟨hpath, by rw [hf]⟩

/-- What is seen is the state of the path. -/
theorem stateAt_of_seen (h : Apart roots) (hok : ∀ path node, fs path = some node → node.Ok 0) {m : Mark} (hp : p ∈ roots)
    (hseen : seen blake3 fs p path = some m) : ∃ s, stateAt roots fs path = some s ∧ s.mark blake3 = m := by
  obtain ⟨f, hf, hm⟩ := (seen_eq_some_iff hok).1 hseen
  exact ⟨f.state, (stateAt_eq_some_iff h hok).2 ⟨p, hp, f, mem_rootFiles_of_scanned hf, rfl⟩, hm⟩

theorem seen_of_stateAt_none (h : Apart roots) (hok : ∀ path node, fs path = some node → node.Ok 0) (hp : p ∈ roots)
    (hnone : stateAt roots fs path = none) : seen blake3 fs p path = none := by
  rw [Option.eq_none_iff_forall_ne_some]
  intro m hm
  obtain ⟨s, hs, -⟩ := stateAt_of_seen h hok hp hm
  rw [hnone] at hs
  cases hs

/-- A monitored file is not seen. -/
theorem seen_of_plain (h : Apart roots) (hok : ∀ path node, fs path = some node → node.Ok 0) {f : File} (hp : p ∈ roots)
    (hfile : fs p = some (.file f)) {q : List Char} (hq : q ∈ roots) : seen blake3 fs q p = none := by
  rw [Option.eq_none_iff_forall_ne_some]
  intro m hm
  obtain ⟨g, hg, -⟩ := (seen_eq_some_iff hok).1 hm
  have hmem : (p, f) ∈ rootFiles fs p := by
    rw [rootFiles, hfile]
    exact List.mem_singleton.2 rfl
  have hpq := h.eq_of_mem hp hq hmem (mem_rootFiles_of_scanned hg) rfl
  rw [← hpq, scanned, hfile] at hg
  exact absurd hg List.not_mem_nil

theorem mark_injective (hinj : Function.Injective blake3) : Function.Injective (State.mark blake3) := by
  intro s t h
  obtain ⟨content, mode, uid, gid⟩ := s
  obtain ⟨content', mode', uid', gid'⟩ := t
  simp only [State.mark, Mark.mk.injEq, hinj.eq_iff] at h
  obtain ⟨rfl, rfl, rfl, rfl⟩ := h
  rfl

theorem markChange_eq (hinj : Function.Injective blake3) (old : Option State) (new : State) :
    markChange (old.map (State.mark blake3)) (new.mark blake3) = changeKind old (some new) := by
  cases old with
  | none => rfl
  | some old => simp only [Option.map_some, markChange, changeKind, State.mark, ne_eq, hinj.eq_iff]

/-! ## One scan -/

/-- The first scan of a tree records it. -/
theorem buildBaseline_agrees (h : Apart roots) (hok : ∀ path node, fs path = some node → node.Ok 0) :
    Agrees blake3 roots fs (buildBaseline blake3 roots fs []) := by
  have hbuild : ∀ b, buildBaseline blake3 roots fs b =
      ((roots.flatMap (rootFiles fs)).map (record blake3)).foldl Baseline.insert b := by
    intro b
    induction roots generalizing b with
    | nil => rfl
    | cons p roots ih =>
      rw [buildBaseline, List.foldl_cons, List.flatMap_cons, List.map_append, List.foldl_append,
        ← ih (List.pairwise_cons.1 h).2]
      congr 1
      rw [rootFiles]
      cases hp : fs p with
      | none => rfl
      | some node => exact scanPathIntoBaseline_eq blake3 b (hok p node hp)
  intro path
  have hnodup := nodup_files h hok
  have hrecords : ((roots.flatMap (rootFiles fs)).map (record blake3)).foldl Baseline.insert [] =
      (roots.flatMap (rootFiles fs)).map (record blake3) :=
    foldl_upsert_of_nodup (by rw [List.nil_append, map_path_record]; exact hnodup)
  rw [hbuild, hrecords, Baseline.markAt, Baseline.get, lookup_map, stateAt, Option.map_map, Option.map_map]
  cases hx : lookup Prod.fst path (roots.flatMap (rootFiles fs)) with
  | none => exact congrArg _ hx
  | some x =>
    refine (congrArg _ hx).trans (congrArg some ?_)
    obtain ⟨p, -, hmem⟩ := List.mem_flatMap.1 ((lookup_eq_some_iff hnodup).1 hx).1
    rw [rootFiles] at hmem
    cases hp : fs p with
    | none =>
      rw [hp] at hmem
      exact absurd hmem List.not_mem_nil
    | some node =>
      rw [hp] at hmem
      exact mark_record blake3 (Node.size_le (hok p node hp) x hmem)

variable {prev : FileSystem} {b : Baseline}

theorem stateAt_plain (h : Apart roots) (hok : ∀ path node, fs path = some node → node.Ok 0) {f : File} (hp : p ∈ roots)
    (hfile : fs p = some (.file f)) : stateAt roots fs p = some f.state := by
  refine (stateAt_eq_some_iff h hok).2 ⟨p, hp, f, ?_, rfl⟩
  rw [rootFiles, hfile]
  exact List.mem_singleton.2 rfl

/-- An exact scan met reportable changes only. -/
theorem reportable_of_exact (h : Apart roots) (hinj : Function.Injective blake3)
    (hok : ∀ path node, fs path = some node → node.Ok 0) (hagrees : Agrees blake3 roots prev b)
    (hexact : Exact blake3 roots prev fs (scanAndDiff blake3 roots order fs b)) : Reportable roots prev fs := by
  have hkept : ∀ path, (stateAt roots prev path).isSome → (stateAt roots fs path).isSome := by
    intro path hprev
    by_contra hcur
    -- the record stays
    have hnone := Option.not_isSome_iff_eq_none.1 hcur
    have hmark := @markAt_unseen blake3 order fs ⟨b, []⟩ path hok roots fun p hp => seen_of_stateAt_none h hok hp hnone
    have hafter := hexact.baseline path
    rw [hnone, scanAndDiff, hmark, hagrees path, Option.map_none, Option.map_eq_none_iff] at hafter
    rw [hafter] at hprev
    cases hprev
  refine ⟨hkept, fun p hp f hfile => ?_, ?_⟩
  · -- the record of a monitored file stays as it is
    have hmark := @markAt_unseen blake3 order fs ⟨b, []⟩ p hok roots fun q hq => seen_of_plain h hok hp hfile hq
    have hafter := hexact.baseline p
    rw [stateAt_plain h hok hp hfile, scanAndDiff, hmark, hagrees p, Option.map_some, Option.map_eq_some_iff] at hafter
    obtain ⟨s, hs, hmarks⟩ := hafter
    rw [hs, mark_injective hinj hmarks]
  · rintro before p after rfl hp path hpath hpre
    have hdeleted := @deleted_mem blake3 order fs ⟨b, []⟩ p path hok before after hp hpre (by
      rcases hpath with hprev | hbefore
      · refine Or.inl ?_
        rw [hagrees path, Option.isSome_map]
        exact hprev
      · obtain ⟨⟨_, f⟩, hf, rfl⟩ := List.mem_map.1 hbefore
        obtain ⟨q, hq, hmem⟩ := List.mem_flatMap.1 hf
        exact Or.inr ⟨q, hq, by rw [(seen_eq_some_iff hok).2 ⟨f, hmem, rfl⟩]; rfl⟩)
    have hcur : (stateAt (before ++ p :: after) fs path).isSome := by
      rcases hpath with hprev | hbefore
      · exact hkept path hprev
      · obtain ⟨⟨_, f⟩, hf, rfl⟩ := List.mem_map.1 hbefore
        obtain ⟨q, hq, hmem⟩ := List.mem_flatMap.1 hf
        rw [(stateAt_eq_some_iff h hok).2
          ⟨q, List.mem_append_left _ hq, f, mem_rootFiles_of_scanned hmem, rfl⟩]
        rfl
    obtain ⟨s, hs⟩ := Option.isSome_iff_exists.1 hcur
    have hchanges := hexact.changes path
    rw [hs] at hchanges
    rw [scanAndDiff] at hchanges
    rw [hchanges, Option.mem_toList] at hdeleted
    cases hprev : stateAt (before ++ p :: after) prev path with
    | none =>
      rw [hprev] at hdeleted
      cases hdeleted
    | some t =>
      rw [hprev, changeKind] at hdeleted
      split_ifs at hdeleted <;> cases hdeleted

/-- A scan that meets reportable changes only is exact. -/
theorem exact_of_reportable (h : Apart roots) (hinj : Function.Injective blake3)
    (hok : ∀ path node, fs path = some node → node.Ok 0) (hagrees : Agrees blake3 roots prev b)
    (hreport : Reportable roots prev fs) : Exact blake3 roots prev fs (scanAndDiff blake3 roots order fs b) := by
  -- a path of the tree is seen, once, or is monitored itself and unchanged
  have hcases : ∀ path s, stateAt roots fs path = some s →
      (∃ p ∈ roots, seen blake3 fs p path = some (s.mark blake3)) ∨
        (∀ p ∈ roots, seen blake3 fs p path = none) ∧ stateAt roots prev path = some s := by
    intro path s hs
    obtain ⟨p, hp, f, hmem, rfl⟩ := (stateAt_eq_some_iff h hok).1 hs
    rcases scanned_or_plain hmem with hscanned | ⟨rfl, hfile⟩
    · exact Or.inl ⟨p, hp, (seen_eq_some_iff hok).2 ⟨f, hscanned, rfl⟩⟩
    · exact Or.inr ⟨fun q hq => seen_of_plain h hok hp hfile hq, hreport.plain path hp f hfile⟩
  have hunique : ∀ path s, stateAt roots fs path = some s → ∀ p ∈ roots, ∀ m, seen blake3 fs p path = some m →
      m = s.mark blake3 := by
    intro path s hs p hp m hm
    obtain ⟨t, ht, rfl⟩ := stateAt_of_seen h hok hp hm
    rw [hs] at ht
    cases ht
    rfl
  have hvanished : ∀ path, stateAt roots fs path = none → stateAt roots prev path = none := by
    intro path hnone
    by_contra hprev
    have hsome := hreport.kept path (Option.isSome_iff_ne_none.2 hprev)
    rw [hnone] at hsome
    cases hsome
  constructor
  · intro path
    obtain ⟨changes, hchanges, hkinds⟩ := @kindsAt_foldl blake3 order fs ⟨b, []⟩ path hok roots (by
      rintro before p after rfl hp hpre
      have hclear := fun hpath => hreport.unprefixed before p after rfl hp path hpath hpre
      constructor
      · rw [hagrees path, Option.map_eq_none_iff, ← Option.not_isSome_iff_eq_none]
        exact fun hprev => hclear (Or.inl hprev)
      · intro q hq
        rw [Option.eq_none_iff_forall_ne_some]
        intro m hm
        obtain ⟨f, hf, -⟩ := (seen_eq_some_iff hok).1 hm
        exact hclear (Or.inr (List.mem_map.2 ⟨(path, f), List.mem_flatMap.2 ⟨q, hq, hf⟩, rfl⟩))) (by
      refine List.Pairwise.imp_of_mem ?_ h
      intro p q hp hq hapart
      by_contra hboth
      rw [not_or] at hboth
      obtain ⟨m, hm⟩ := Option.ne_none_iff_exists'.1 hboth.1
      obtain ⟨m', hm'⟩ := Option.ne_none_iff_exists'.1 hboth.2
      obtain ⟨f, hf, -⟩ := (seen_eq_some_iff hok).1 hm
      obtain ⟨g, hg, -⟩ := (seen_eq_some_iff hok).1 hm'
      have hpq := h.eq_of_mem hp hq (mem_rootFiles_of_scanned hf) (mem_rootFiles_of_scanned hg) rfl
      exact hapart.1 (hpq ▸ Inside.refl p))
    rw [scanAndDiff, hchanges, List.nil_append, hkinds]
    cases hs : stateAt roots fs path with
    | none =>
      rw [List.findSome?_eq_none_iff.2 fun p hp => seen_of_stateAt_none h hok hp hs, hvanished path hs]
      rfl
    | some s =>
      rcases hcases path s hs with ⟨p, hp, hm⟩ | ⟨hunseen, hprev⟩
      · obtain ⟨m, hfind⟩ : ∃ m, (roots.findSome? fun p => seen blake3 fs p path) = some m :=
          Option.isSome_iff_exists.1 (List.findSome?_isSome_iff.2 ⟨p, hp, by rw [hm]; rfl⟩)
        obtain ⟨q, hq, hmq⟩ := List.exists_of_findSome?_eq_some hfind
        rw [hfind, hunique path s hs q hq m hmq, hagrees path]
        exact congrArg Option.toList (markChange_eq hinj _ s)
      · rw [List.findSome?_eq_none_iff.2 hunseen, hprev, changeKind]
        simp
  · intro path
    rw [scanAndDiff]
    cases hs : stateAt roots fs path with
    | none =>
      rw [markAt_unseen hok fun p hp => seen_of_stateAt_none h hok hp hs, hagrees path, hvanished path hs]
    | some s =>
      rcases hcases path s hs with ⟨p, hp, hm⟩ | ⟨hunseen, hprev⟩
      · exact markAt_seen hok (hunique path s hs) ⟨p, hp, hm⟩
      · rw [markAt_unseen hok hunseen, hagrees path, hprev]

end Roots

/-! ## Any number of scans -/

theorem exactFrom_iff {blake3 : List UInt8 → List Char} (hinj : Function.Injective blake3) {roots : List (List Char)}
    (h : Apart roots) {prev : FileSystem} {b : Baseline} (hagrees : Agrees blake3 roots prev b) (scans : List Scan) :
    ExactFrom blake3 roots prev b scans ↔ ReportableFrom roots prev scans := by
  induction scans generalizing prev b with
  | nil => exact Iff.rfl
  | cons scan scans ih =>
    rw [ExactFrom, ReportableFrom]
    constructor
    · rintro ⟨hexact, hrest⟩
      exact ⟨reportable_of_exact h hinj scan.snapshot.ok hagrees hexact, (ih hexact.baseline).1 hrest⟩
    · rintro ⟨hreport, hrest⟩
      have hexact := @exact_of_reportable blake3 scan.order scan.snapshot.fs roots prev b h hinj scan.snapshot.ok hagrees
        hreport
      exact ⟨hexact, (ih hexact.baseline).2 hrest⟩

/-- **Exactly the changes are reported**, by every scan after the first record of a tree, if and only if every scan meets
reportable changes only. -/
theorem changes_reported_iff {blake3 : List UInt8 → List Char} (hinj : Function.Injective blake3)
    {roots : List (List Char)} (h : Apart roots) (initial : Snapshot) (scans : List Scan) :
    ExactFrom blake3 roots initial.fs (buildBaseline blake3 roots initial.fs []) scans ↔
      ReportableFrom roots initial.fs scans :=
  exactFrom_iff hinj h (buildBaseline_agrees h initial.ok) scans

def etc : List Char := ['/', 'e', 't', 'c']

def hosts : List Char := ['h', 'o', 's', 't', 's']

def nameHosts : FileName := ⟨hosts, by decide, by decide, by decide⟩

/-- An empty file of this mode. -/
def emptyFile (mode : ℕ) : File := ⟨[], mode, 0, 0, 7, 0⟩

/-- A directory `/etc` with the entries. -/
def etcSnapshot (entries : Entries) (h : entries.Ok 0) : Snapshot where
  fs := fun path => if path = etc then some (.dir entries) else none
  ok := by
    intro path node hnode
    split_ifs at hnode
    cases hnode
    exact h

/-- `/etc/hosts` alone. -/
def hostsSnapshot (mode : ℕ) : Snapshot := etcSnapshot (.cons nameHosts (.file (emptyFile mode)) .nil)
  ⟨by decide, List.not_mem_nil, ⟨by decide, Nat.zero_le _⟩, trivial⟩

theorem stateAt_hosts (mode : ℕ) (path : List Char) : stateAt [etc] (hostsSnapshot mode).fs path =
    if etc ++ '/' :: hosts = path then some (emptyFile mode).state else none := by
  have hfiles : [etc].flatMap (rootFiles (hostsSnapshot mode).fs) = [(etc ++ '/' :: hosts, emptyFile mode)] := rfl
  rw [stateAt, hfiles, lookup_cons, apply_ite (Option.map fun x : List Char × File => x.2.state)]
  rfl

/-- A hash with the value of the empty content. -/
def sampleHash (content : List UInt8) : List Char :=
  if content = [] then "af1349b9f5f9a1a6a0404dea36dcc9499bcb25c9adc112b7cc9a93cae41f3262".toList
  else 'b' :: content.map fun b => Char.ofNat b.toNat

theorem sampleHash_injective : Function.Injective sampleHash := by
  have hchar : Function.LeftInverse (fun c => UInt8.ofNat c.toNat) fun b : UInt8 => Char.ofNat b.toNat := by
    decide +kernel
  intro c d h
  rw [sampleHash, sampleHash] at h
  split_ifs at h with hc hd hd
  · rw [hc, hd]
  · cases (List.cons.inj h).1
  · cases (List.cons.inj h).1
  · exact hchar.injective.list_map (List.cons.inj h).2

/-- The order in which the hash map was built. -/
def insertionOrder : HashOrder := ⟨id, fun _ => .refl _⟩

/-- A change of mode is reported. -/
theorem changes_reported_hosts : ExactFrom sampleHash [etc] (hostsSnapshot 0o644).fs
    (buildBaseline sampleHash [etc] (hostsSnapshot 0o644).fs []) [⟨hostsSnapshot 0o600, insertionOrder⟩] := by
  refine (changes_reported_iff sampleHash_injective (List.pairwise_singleton _ _) _ _).2 ⟨⟨?_, ?_, ?_⟩, trivial⟩
  · intro path h
    rw [stateAt_hosts] at h ⊢
    split_ifs at h ⊢
    · rfl
    · exact h
  · intro p hp f hf
    rw [List.mem_singleton.1 hp] at hf
    cases hf
  · intro before p after hsplit hp
    have hmem : p ∈ [etc] := hsplit ▸ List.mem_append_right _ List.mem_cons_self
    rw [List.mem_singleton.1 hmem] at hp
    cases hp

/-- A file that vanishes from a monitored directory is not reported. -/
theorem deletion_not_reported : ¬ ∀ (blake3 : List UInt8 → List Char), Function.Injective blake3 →
    ∀ roots, Apart roots → ∀ (initial : Snapshot) (scans : List Scan),
      ExactFrom blake3 roots initial.fs (buildBaseline blake3 roots initial.fs []) scans := by
  intro h
  have hexact := h sampleHash sampleHash_injective [etc] (List.pairwise_singleton _ _) (hostsSnapshot 0o644)
    [⟨etcSnapshot .nil trivial, insertionOrder⟩]
  have hreport := (exactFrom_iff sampleHash_injective (List.pairwise_singleton _ _)
    (buildBaseline_agrees (List.pairwise_singleton _ _) (hostsSnapshot 0o644).ok) _).1 hexact
  have hcur := hreport.1.kept (etc ++ '/' :: hosts) (by rw [stateAt_hosts, if_pos rfl]; rfl)
  cases hcur

end ThorFirewall.Fim
