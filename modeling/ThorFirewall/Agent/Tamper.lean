import Mathlib
import ThorFirewall.Agent.AuditLog

/-!
# What the agent's audit chain protects

Someone edits entries of the database and leaves every id and every hash as it was. `verify_chain` hashes the text
`timestamp|user|action|target|result|source_ip|detail` of an entry (`AuditEntry.covered`) with its id and the hash before.

- `tamper_evident_iff`: short of a collision, an edit is detected exactly if it changes this text of some entry. The role
  is not in the text, and a bar in a field can move to its neighbour;
- `covered_inj`: where the fields before the detail have no bars, the text determines all of them.
-/

namespace ThorFirewall.Audit

open HashChain Std

variable {digest : String → String} {db db' : Db}

/-- Both are entries, of the same id and the same hash. -/
def SameLink (v w : Option AuditEntry) : Prop :=
  ∃ e e', v = some e ∧ w = some e' ∧ e.id = e'.id ∧ e.chainHash = e'.chainHash

/-- The same keys, and under each an entry with the same id and the same hash. -/
def Edited (db db' : Db) : Prop := List.Forall₂ (fun a b => a.1 = b.1 ∧ SameLink a.2 b.2) db.toList db'.toList

/-- The text of no entry, after a hash of the database, has the digest of that of an edited one, unless it is the same.
An injective digest has no collisions. -/
def NoCollision (digest : String → String) (db db' : Db) : Prop :=
  ∀ e e' p, some e ∈ stored db → some e' ∈ stored db' → Root db p → digest (e.raw p) = digest (e'.raw p) →
    e.raw p = e'.raw p

/-- Both are entries, of the same text. -/
def SameText (v w : Option AuditEntry) : Prop := ∃ e e', v = some e ∧ w = some e' ∧ e.covered = e'.covered

/-- After a hash of the database an edited entry passes if its text is the same. -/
theorem passes_edited_iff (hfree : NoCollision digest db db') {p : String} {v w : Option AuditEntry} (hp : Root db p)
    (hv : v ∈ stored db) (hw : w ∈ stored db') (hlink : SameLink v w) (hpass : Passes digest p v) :
    Passes digest p w ↔ SameText v w := by
  obtain ⟨e, e', rfl, rfl, hid, hhash⟩ := hlink
  simp only [Passes, SameText, Option.some.injEq, exists_eq_left', exists_and_left] at hpass ⊢
  rw [← AuditEntry.raw_eq_iff hid p]
  constructor
  · intro hpass'
    apply hfree e e' p hv hw hp
    rw [hpass, hpass', hhash]
  · intro hraw
    rw [← hraw, hpass, hhash]

/-- The edited chain verifies exactly if the text of every entry is as it was. -/
theorem verify_edited_iff (hv : verifyChain digest db = true) (hed : Edited db db') (hfree : NoCollision digest db db') :
    verifyChain digest db' = true ↔ List.Forall₂ SameText (stored db) (stored db') := by
  rw [verifyChain_iff] at hv ⊢
  have hlink : List.Forall₂ SameLink (stored db) (stored db') := by
    rw [stored, stored, List.forall₂_map_left_iff, List.forall₂_map_right_iff]
    exact hed.imp fun _ _ h => h.2
  have hcarried : ∀ v w, SameLink v w → carried v = carried w := by
    rintro _ _ ⟨e, e', rfl, rfl, -, hhash⟩
    exact hhash
  have hroot : ∀ v ∈ stored db, Root db (carried v) := by
    intro v hmem
    cases v with
    | none => exact Or.inl rfl
    | some e => exact Or.inr ⟨e, hmem, rfl⟩
  exact chain_iff_of_carried (Q := Root db) hlink hcarried (Or.inl rfl) hroot
    (fun p v w hp hvm hwm hvw => passes_edited_iff hfree hp hvm hwm hvw) hv

theorem exists_mem_zip {α β : Type*} {l : List α} {m : List β} (hlen : l.length = m.length) {a : α} (ha : a ∈ l) :
    ∃ b, (a, b) ∈ l.zip m := by
  obtain ⟨i, hi, rfl⟩ := List.getElem_of_mem ha
  refine ⟨m[i], ?_⟩
  rw [← List.getElem_zip (h := by simp; omega)]
  exact List.getElem_mem _

/-- Under one key, the entry and its edited version. -/
theorem forall₂_sameText_iff (hed : Edited db db') : List.Forall₂ SameText (stored db) (stored db') ↔
    ∀ k e e', (k, some e) ∈ db.toList → (k, some e') ∈ db'.toList → e.covered = e'.covered := by
  rw [stored, stored, List.forall₂_map_left_iff, List.forall₂_map_right_iff, List.forall₂_iff_zip]
  have hzip : ∀ a b, (a, b) ∈ db.toList.zip db'.toList → a.1 = b.1 ∧ SameLink a.2 b.2 :=
    fun a b hab => (List.forall₂_iff_zip.1 hed).2 hab
  constructor
  · rintro ⟨hlen, hall⟩ k e e' he he'
    obtain ⟨b, hab⟩ := exists_mem_zip hlen he
    have hb : b ∈ db'.toList := (List.of_mem_zip hab).2
    -- a key is there once
    have hkb : b = (k, some e') := by
      rw [show b = (b.1, b.2) from rfl, ← (hzip _ b hab).1, TreeMap.mem_toList_iff_getElem?_eq_some] at hb
      rw [TreeMap.mem_toList_iff_getElem?_eq_some, hb] at he'
      exact Prod.ext (hzip _ b hab).1.symm (Option.some.inj he')
    obtain ⟨_, _, h1, h2, htext⟩ := hall hab
    rw [hkb] at h2
    rw [Option.some.inj h1, Option.some.inj h2]
    exact htext
  · intro hall
    refine ⟨hed.length_eq, fun {a b} hab => ?_⟩
    obtain ⟨hk, e, e', he, he', -⟩ := hzip a b hab
    obtain ⟨ha, hb⟩ := List.of_mem_zip hab
    exact ⟨e, e', he, he', hall a.1 e e' (he ▸ ha) (by rw [hk, ← he']; exact hb)⟩

/-- **What the chain protects.** After an edit that leaves ids and hashes as they were, `verify_chain` returns false exactly
if the text `timestamp|user|action|target|result|source_ip|detail` of some entry has changed. -/
theorem tamper_evident_iff (digest : String → String) (db db' : Db) (hv : verifyChain digest db = true)
    (hed : Edited db db') (hfree : NoCollision digest db db') :
    verifyChain digest db' = false ↔
      ∃ k e e', (k, some e) ∈ db.toList ∧ (k, some e') ∈ db'.toList ∧ e.covered ≠ e'.covered := by
  rw [← Bool.not_eq_true, verify_edited_iff hv hed hfree, forall₂_sameText_iff hed]
  push Not
  rfl

/-! ## Fields without bars -/

/-- No bar in the free texts before the detail. -/
structure BarFree (e : AuditEntry) : Prop where
  timestampUtc : '|' ∉ e.timestampUtc.toList
  user : '|' ∉ e.user.toList
  target : '|' ∉ e.target.toList
  sourceIp : '|' ∉ e.sourceIp.toList

theorem AuditAction.bar_notMem (a : AuditAction) : '|' ∉ (toString a).toList := by
  cases a <;> decide

theorem AuditResult.bar_notMem (r : AuditResult) : '|' ∉ (toString r).toList := by
  cases r <;> decide

theorem AuditAction.toString_inj {a b : AuditAction} : (toString a).toList = (toString b).toList ↔ a = b := by
  refine ⟨fun h => ?_, fun h => by rw [h]⟩
  revert h
  cases a <;> cases b <;> decide

theorem AuditResult.toString_inj {a b : AuditResult} : (toString a).toList = (toString b).toList ↔ a = b := by
  refine ⟨fun h => ?_, fun h => by rw [h]⟩
  revert h
  cases a <;> cases b <;> decide

theorem AuditEntry.toList_covered (e : AuditEntry) : e.covered.toList = e.timestampUtc.toList ++ '|' ::
    (e.user.toList ++ '|' :: ((toString e.action).toList ++ '|' :: (e.target.toList ++ '|' ::
      ((toString e.result).toList ++ '|' :: (e.sourceIp.toList ++ '|' :: e.detail.toList))))) := by
  have hbar : "|".toList = ['|'] := rfl
  have htext : ∀ s : String, toString s = s := fun _ => rfl
  delta AuditEntry.covered
  simp only [String.toList_append, List.append_assoc, hbar, htext, List.cons_append, List.nil_append]

/-- Without bars, the text determines every field but the role. -/
theorem covered_inj {e e' : AuditEntry} (he : BarFree e) (he' : BarFree e') : e.covered = e'.covered ↔
    e.timestampUtc = e'.timestampUtc ∧ e.user = e'.user ∧ e.action = e'.action ∧ e.target = e'.target ∧
      e.result = e'.result ∧ e.sourceIp = e'.sourceIp ∧ e.detail = e'.detail := by
  rw [← String.toList_inj, AuditEntry.toList_covered, AuditEntry.toList_covered,
    Wire.append_cons_inj he.timestampUtc he'.timestampUtc, Wire.append_cons_inj he.user he'.user,
    Wire.append_cons_inj e.action.bar_notMem e'.action.bar_notMem, Wire.append_cons_inj he.target he'.target,
    Wire.append_cons_inj e.result.bar_notMem e'.result.bar_notMem, Wire.append_cons_inj he.sourceIp he'.sourceIp,
    AuditAction.toString_inj, AuditResult.toString_inj]
  simp only [String.toList_inj]

/-! ## One entry -/

/-- A login from an address, with a session in its detail. -/
def login : AuditEntry := LogCall.entry Sha256.hexDigest
  { user := "admin", role := "Admin", action := .login, target := "login", result := .success, sourceIp := "10.0.0.5",
    detail := "session|1", generateId := some 0, timestamp := "2025-01-01T00:00:00.000000000Z", serializeOk := true,
    insertOk := true } genesis

/-- A database with this one entry. -/
def only (e : AuditEntry) : Db := (∅ : Db).insert 0 (some e)

theorem toList_only (e : AuditEntry) : (only e).toList = [(0, some e)] := rfl

theorem stored_only (e : AuditEntry) : stored (only e) = [some e] := rfl

theorem edited_only {e e' : AuditEntry} (hid : e.id = e'.id) (hhash : e.chainHash = e'.chainHash) :
    Edited (only e) (only e') := by
  rw [Edited, toList_only, toList_only]
  exact .cons ⟨rfl, e, e', rfl, rfl, hid, hhash⟩ .nil

theorem verifyChain_only {digest : String → String} {e : AuditEntry} (h : digest (e.raw genesis) = e.chainHash) :
    verifyChain digest (only e) = true := by
  rw [verifyChain_iff, stored_only]
  exact ⟨⟨e, rfl, h⟩, trivial⟩

/-- Someone else is made to have logged in: this is detected. -/
theorem tamper_user : verifyChain Sha256.hexDigest (only { login with user := "guest" }) = false := by
  have hfree : NoCollision Sha256.hexDigest (only login) (only { login with user := "guest" }) := by
    intro e e' p he he' hp hd
    simp only [Root, stored_only, List.mem_singleton, Option.some.injEq, exists_eq_left] at he he' hp
    subst he he'
    rcases hp with rfl | rfl
    · exact absurd hd (by decide +kernel)
    · exact absurd hd (by decide +kernel)
  have hdetected := tamper_evident_iff Sha256.hexDigest (only login) (only { login with user := "guest" })
    (verifyChain_only rfl) (edited_only rfl rfl) hfree
  exact hdetected.2 ⟨0, login, { login with user := "guest" }, by simp [toList_only], by simp [toList_only],
    by decide +kernel⟩

/-- Two edits that are not detected: another role, and an address that takes over a part of the detail. -/
theorem tamper_unseen : verifyChain Sha256.hexDigest (only login) = true ∧
    (Edited (only login) (only { login with role := "Analyst" }) ∧ login.role ≠ "Analyst" ∧
      verifyChain Sha256.hexDigest (only { login with role := "Analyst" }) = true) ∧
    Edited (only login) (only { login with sourceIp := "10.0.0.5|session", detail := "1" }) ∧
      login.sourceIp ≠ "10.0.0.5|session" ∧
      verifyChain Sha256.hexDigest (only { login with sourceIp := "10.0.0.5|session", detail := "1" }) = true := by
  refine ⟨verifyChain_only rfl, ⟨edited_only rfl rfl, by decide, verifyChain_only rfl⟩, edited_only rfl rfl, by decide,
    verifyChain_only ?_⟩
  have hraw : login.raw genesis = ({ login with sourceIp := "10.0.0.5|session", detail := "1" } : AuditEntry).raw genesis :=
    (AuditEntry.raw_eq_iff rfl genesis).2 (by decide +kernel)
  rw [← hraw]
  rfl

end ThorFirewall.Audit
