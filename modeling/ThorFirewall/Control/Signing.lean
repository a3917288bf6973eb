import Mathlib
import ThorFirewall.Lib.Wire

/-!
# The signed bytes of control-plane messages (`grpc.rs`, `control_plane_client.rs`)

The control plane signs a policy update by concatenating its version, eight bytes, and its five texts; a quarantine
resolution by concatenating three texts, the action, four bytes, and the operator. Nothing marks where one text ends,
so bytes can move from one field to the next.

* `policyData_unique_iff`: no other policy has the same signed bytes exactly when all five texts are empty;
* `resolutionData_unique_iff`: no other resolution has the same signed bytes exactly when the three leading texts are
  empty and no cut of the operator lets the action move (`Unshiftable`);
* `signed_data_unique_iff`: the two, and what they mean for the messages an agent accepts.
-/

namespace ThorFirewall.Control

open Wire

abbrev Bytes := List UInt8

/-! ## Messages -/

structure PolicyUpdate where
  version : Int64
  policyType : String
  ruleId : String
  content : String
  action : String
  enforcementMode : String
  signature : Bytes
  deriving DecidableEq

/-- A directive with the fields that are signed, and its signature. -/
structure Resolution where
  resolutionId : String
  alertId : String
  target : String
  action : Int32
  operatorId : String
  signature : Bytes
  deriving DecidableEq

/-- The bytes `sign_policy` signs and `verify_signature` rebuilds. -/
def policyData (policy : PolicyUpdate) : Bytes :=
  i64Bytes policy.version ++ textBytes policy.policyType ++ textBytes policy.ruleId ++ textBytes policy.content ++
    textBytes policy.action ++ textBytes policy.enforcementMode

/-- The bytes `stream_resolution_commands` signs and `process_resolution` rebuilds. -/
def resolutionData (r : Resolution) : Bytes :=
  textBytes r.resolutionId ++ textBytes r.alertId ++ textBytes r.target ++ i32Bytes r.action ++ textBytes r.operatorId

/-- The two updates agree on everything but the signature. -/
def PolicyUpdate.Agrees (p q : PolicyUpdate) : Prop :=
  p.version = q.version ∧ p.policyType = q.policyType ∧ p.ruleId = q.ruleId ∧ p.content = q.content ∧
    p.action = q.action ∧ p.enforcementMode = q.enforcementMode

def Resolution.Agrees (r r' : Resolution) : Prop :=
  r.resolutionId = r'.resolutionId ∧ r.alertId = r'.alertId ∧ r.target = r'.target ∧ r.action = r'.action ∧
    r.operatorId = r'.operatorId

/-! ## Signatures -/

/-- A key pair with the functions of the signature library. -/
structure Ed25519 where
  Signature : Type
  /-- `Signature::from_slice`, with the text of its error. -/
  fromSlice : Bytes → Except String Signature
  toBytes : Signature → Bytes
  sign : Bytes → Signature
  /-- `verifying_key.verify`, with the text of its error. -/
  verify : Bytes → Signature → Except String Unit

/-- The ideal notion of a signature: what has been signed verifies, and nothing else does. -/
structure Ed25519.Ideal (key : Ed25519) (signed : List Bytes) : Prop where
  fromSlice_toBytes : ∀ s, key.fromSlice (key.toBytes s) = .ok s
  complete : ∀ d ∈ signed, key.verify d (key.sign d) = .ok ()
  unforgeable : ∀ d s, key.verify d s = .ok () → d ∈ signed

/-- Rebuild the signature and verify it, with the texts of the two errors. -/
def Ed25519.check (key : Ed25519) (badFormat mismatch : String → String) (data signature : Bytes) :
    Except String Unit := do
  let sig ← (key.fromSlice signature).mapError badFormat
  (key.verify data sig).mapError mismatch

def signPolicy (key : Ed25519) (policy : PolicyUpdate) : PolicyUpdate :=
  { policy with signature := key.toBytes (key.sign (policyData policy)) }

def verifySignature (key : Ed25519) (policy : PolicyUpdate) : Except String Unit :=
  key.check ("Invalid signature format: " ++ ·) ("Signature mismatch: " ++ ·) (policyData policy) policy.signature

/-- The first two steps of `process_resolution`. -/
def verifyResolution (key : Ed25519) (r : Resolution) : Except String Unit :=
  key.check (fun _ => "Invalid signature format in resolution directive")
    (fun _ => "Resolution signature verification failed — directive rejected") (resolutionData r) r.signature

section Accept

variable {key : Ed25519} {f g : String → String} {d d' : Bytes}

theorem check_eq_ok_iff {s : Bytes} :
    key.check f g d s = .ok () ↔ ∃ sig, key.fromSlice s = .ok sig ∧ key.verify d sig = .ok () := by
  unfold Ed25519.check
  cases hs : key.fromSlice s with
  | error e => simp [Except.mapError, bind, Except.bind]
  | ok sig => cases hv : key.verify d sig <;> simp [Except.mapError, bind, Except.bind, hv]

/-- If only `d` has been signed, some signature is accepted for `d'` exactly when `d' = d`. -/
theorem Ed25519.Ideal.check_iff (h : key.Ideal [d]) : (∃ s, key.check f g d' s = .ok ()) ↔ d' = d := by
  simp only [check_eq_ok_iff]
  constructor
  · rintro ⟨s, sig, -, hv⟩
    exact List.mem_singleton.1 (h.unforgeable d' sig hv)
  · rintro rfl
    exact ⟨_, _, h.fromSlice_toBytes (key.sign d'), h.complete d' (List.mem_singleton_self d')⟩

/-- What the control plane signs an agent accepts. -/
theorem verifySignature_signPolicy {signed : List Bytes} (h : key.Ideal signed) {p : PolicyUpdate}
    (hp : policyData p ∈ signed) : verifySignature key (signPolicy key p) = .ok () :=
  check_eq_ok_iff.2 ⟨_, h.fromSlice_toBytes _, h.complete _ hp⟩

end Accept

/-! ## Policies -/

/-- All five texts are empty. -/
def PolicyUpdate.NoText (p : PolicyUpdate) : Prop :=
  p.policyType = "" ∧ p.ruleId = "" ∧ p.content = "" ∧ p.action = "" ∧ p.enforcementMode = ""

/-- **When the signed bytes determine a policy.** -/
theorem policyData_unique_iff (p : PolicyUpdate) : (∀ q, policyData p = policyData q → p.Agrees q) ↔ p.NoText := by
  constructor
  · intro h
    -- all the text moved into the first field, and the first field emptied
    let all := p.policyType ++ p.ruleId ++ p.content ++ p.action ++ p.enforcementMode
    obtain ⟨-, -, h2, h3, h4, h5⟩ := h ⟨p.version, all, "", "", "", "", p.signature⟩ (by simp [policyData, all])
    obtain ⟨-, h1, -⟩ := h { p with policyType := "", ruleId := p.policyType ++ p.ruleId } (by simp [policyData])
    exact ⟨h1, h2, h3, h4, h5⟩
  · rintro ⟨h1, h2, h3, h4, h5⟩ q hq
    simp only [policyData, h1, h2, h3, h4, h5, textBytes_empty, List.append_nil, List.append_assoc] at hq
    obtain ⟨hv, hrest⟩ := List.append_inj ((List.append_nil (i64Bytes p.version)).trans hq) (by simp)
    simp only [List.nil_eq, List.append_eq_nil_iff, textBytes_eq_nil_iff] at hrest
    obtain ⟨g1, g2, g3, g4, g5⟩ := hrest
    exact ⟨i64Bytes_inj hv, by rw [h1, g1], by rw [h2, g2], by rw [h3, g3], by rw [h4, g4], by rw [h5, g5]⟩

/-! ## Resolutions -/

def ValidUtf8 (bs : Bytes) : Prop := (ByteArray.mk bs.toArray).IsValidUTF8

/-- The leading texts are empty, and no first bytes of action and operator are a text before an action that leaves a
text as the operator. -/
def Resolution.Unshiftable (r : Resolution) : Prop :=
  r.resolutionId = "" ∧ r.alertId = "" ∧ r.target = "" ∧
    ∀ k, 0 < k → k ≤ (textBytes r.operatorId).length →
      ¬ (ValidUtf8 ((i32Bytes r.action ++ textBytes r.operatorId).take k) ∧ ValidUtf8 ((textBytes r.operatorId).drop k))

theorem drop_action (a : Int32) (op : Bytes) (k : ℕ) : (i32Bytes a ++ op).drop (4 + k) = op.drop k := by
  have h : (i32Bytes a ++ op).drop ((i32Bytes a).length + k) = op.drop k := List.drop_length_add_append k
  rwa [length_i32Bytes] at h

/-- The signed bytes cut behind `k` bytes and behind the action that follows them. -/
theorem take_append_action (a : Int32) (op : Bytes) (k : ℕ) :
    (i32Bytes a ++ op).take k ++ (((i32Bytes a ++ op).drop k).take 4 ++ op.drop k) = i32Bytes a ++ op := by
  rw [← drop_action a op k, Nat.add_comm, ← List.drop_drop, List.take_append_drop, List.take_append_drop]

/-- **When the signed bytes determine a resolution.** -/
theorem resolutionData_unique_iff (r : Resolution) :
    (∀ r', resolutionData r = resolutionData r' → r.Agrees r') ↔ r.Unshiftable := by
  constructor
  · intro h
    let all := r.resolutionId ++ r.alertId ++ r.target
    obtain ⟨-, h2, h3, -⟩ := h { r with resolutionId := all, alertId := "", target := "" }
      (by simp [resolutionData, all])
    obtain ⟨h1, -⟩ := h { r with resolutionId := "", alertId := r.resolutionId ++ r.alertId } (by simp [resolutionData])
    simp only at h1 h2 h3
    refine ⟨h1, h2, h3, ?_⟩
    rintro k hk hle ⟨htext, hop⟩
    obtain ⟨t, ht⟩ := exists_text_iff.2 htext
    obtain ⟨o, ho⟩ := exists_text_iff.2 hop
    -- the bytes between the text and the operator are an action
    obtain ⟨a, ha⟩ : ∃ a, i32Bytes a = ((i32Bytes r.action ++ textBytes r.operatorId).drop k).take 4 :=
      exists_i32Bytes (by simp; omega)
    obtain ⟨hne, -⟩ := h { r with resolutionId := t, alertId := "", target := "", action := a, operatorId := o } (by
      simp only [resolutionData, h1, h2, h3, textBytes_empty, List.append_nil, List.nil_append, List.append_assoc]
      rw [ht, ha, ho, take_append_action])
    have htnil : t = "" := hne.symm.trans h1
    have hlen := congrArg List.length ht
    rw [htnil, List.length_take, List.length_append, length_i32Bytes] at hlen
    simp only [textBytes_empty, List.length_nil] at hlen
    omega
  · rintro ⟨h1, h2, h3, hcut⟩ r' hr
    simp only [resolutionData, h1, h2, h3, textBytes_empty, List.nil_append] at hr
    rw [← textBytes_append, ← textBytes_append] at hr
    have hlen := congrArg List.length hr
    simp only [List.length_append, length_i32Bytes] at hlen
    by_cases hk : (textBytes (r'.resolutionId ++ r'.alertId ++ r'.target)).length = 0
    · have hnil := List.length_eq_zero_iff.1 hk
      rw [hnil, List.nil_append] at hr
      obtain ⟨ha, ho⟩ := List.append_inj hr (by simp)
      simp only [textBytes_append, List.append_eq_nil_iff, textBytes_eq_nil_iff] at hnil
      obtain ⟨⟨g1, g2⟩, g3⟩ := hnil
      exact ⟨by rw [h1, g1], by rw [h2, g2], by rw [h3, g3], i32Bytes_inj ha, textBytes_inj ho⟩
    · refine absurd ⟨?_, ?_⟩ (hcut _ (Nat.pos_of_ne_zero hk) (by omega))
      · rw [hr, List.append_assoc, List.take_left]
        exact exists_text_iff.1 ⟨_, rfl⟩
      · have hdrop : (textBytes r.operatorId).drop (textBytes (r'.resolutionId ++ r'.alertId ++ r'.target)).length =
            textBytes r'.operatorId := by
          rw [← drop_action r.action, hr, Nat.add_comm, List.append_assoc, List.drop_length_add_append]
          exact drop_action _ _ 0
        rw [hdrop]
        exact exists_text_iff.1 ⟨_, rfl⟩

/-! ## What an agent accepts -/

/-- The signed bytes determine a message only in the cases named by `NoText` and `Unshiftable`, and only then does an
agent accept nothing but the one message that has been signed. -/
theorem signed_data_unique_iff (key : Ed25519) :
    (∀ p : PolicyUpdate, ((∀ q, policyData p = policyData q → p.Agrees q) ↔ p.NoText) ∧
      (key.Ideal [policyData p] → ((∀ q, verifySignature key q = .ok () → p.Agrees q) ↔ p.NoText))) ∧
    ∀ r : Resolution, ((∀ r', resolutionData r = resolutionData r' → r.Agrees r') ↔ r.Unshiftable) ∧
      (key.Ideal [resolutionData r] → ((∀ r', verifyResolution key r' = .ok () → r.Agrees r') ↔ r.Unshiftable)) := by
  refine ⟨fun p => ⟨policyData_unique_iff p, fun hkey => ?_⟩, fun r => ⟨resolutionData_unique_iff r, fun hkey => ?_⟩⟩
  · rw [← policyData_unique_iff]
    constructor
    · intro h q hq
      obtain ⟨s, hs⟩ := hkey.check_iff.2 hq.symm
      exact h { q with signature := s } hs
    · intro h q hq
      exact h q (hkey.check_iff.1 ⟨_, hq⟩).symm
  · rw [← resolutionData_unique_iff]
    constructor
    · intro h r' hr
      obtain ⟨s, hs⟩ := hkey.check_iff.2 hr.symm
      exact h { r' with signature := s } hs
    · intro h r' hr
      exact h r' (hkey.check_iff.1 ⟨_, hr⟩).symm

/-- A key that has signed `ds` and nothing else. -/
def signedOnly (ds : List Bytes) : Ed25519 where
  Signature := { s : Bytes // s.length = 64 }
  fromSlice s := if h : s.length = 64 then .ok ⟨s, h⟩ else .error "signature error"
  toBytes s := s.1
  sign _ := ⟨List.replicate 64 0, rfl⟩
  verify d s := if d ∈ ds ∧ s.1 = List.replicate 64 0 then .ok () else .error "signature error"

theorem signedOnly_ideal (ds : List Bytes) : (signedOnly ds).Ideal ds := by
  refine ⟨fun s => dif_pos s.2, fun d hd => if_pos ⟨hd, rfl⟩, fun d s hv => ?_⟩
  by_contra hne
  have hbad : (signedOnly ds).verify d s = .error "signature error" := if_neg fun h => hne h.1
  rw [hbad] at hv
  cases hv

/-- A policy without text is the only one accepted under its signature; with a rule id it is not. -/
theorem signed_data_unique_version :
    (∀ q, verifySignature (signedOnly [policyData ⟨7, "", "", "", "", "", []⟩]) q = .ok () →
      (⟨7, "", "", "", "", "", []⟩ : PolicyUpdate).Agrees q) ∧
    ¬ ∀ q, verifySignature (signedOnly [policyData ⟨7, "", "r", "", "", "", []⟩]) q = .ok () →
      (⟨7, "", "r", "", "", "", []⟩ : PolicyUpdate).Agrees q := by
  refine ⟨(((signed_data_unique_iff _).1 _).2 (signedOnly_ideal _)).2 ⟨rfl, rfl, rfl, rfl, rfl⟩, fun h => ?_⟩
  obtain ⟨-, hr, -⟩ := (((signed_data_unique_iff _).1 _).2 (signedOnly_ideal _)).1 h
  exact absurd hr (by decide)

/-- The last byte of a rule id moved to the front of the content. -/
theorem signed_data_shifted : ¬ ((∀ p q : PolicyUpdate, policyData p = policyData q → p.Agrees q) ∧
    ∀ r r' : Resolution, resolutionData r = resolutionData r' → r.Agrees r') := by
  rintro ⟨h, -⟩
  obtain ⟨-, -, hid, -⟩ := h ⟨1, "sigma", "rule-10", "title: x", "CREATE", "ENFORCE", []⟩
    ⟨1, "sigma", "rule-1", "0title: x", "CREATE", "ENFORCE", []⟩ (by decide +kernel)
  exact absurd hid (by decide)

end ThorFirewall.Control
