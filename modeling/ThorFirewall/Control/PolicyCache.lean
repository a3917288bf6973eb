import Mathlib
import ThorFirewall.Control.Signing
import ThorFirewall.Lib.KeyedList

/-!
# The policy cache of an agent (`control_plane_client.rs`)

An agent checks the signature of every policy update it receives, writes sigma policies to a cache file, one entry for
each rule id, and injects them into the detection engine; when it starts it injects what the file holds.

The file is a text that `serde_json` prints and parses, a parameter here. `life_cache` says what the file holds after
any number of starts and connections: the entries are the accepted updates, replaced or appended one after the other.
So for each rule id it holds the update processed last, whatever its version (`cache_holds_last`) and whatever its
action (`deletion_honoured_iff`).
-/

namespace ThorFirewall.Control

open KeyedList

/-- Clock readings, in nanoseconds. -/
abbrev Instant := ℕ

/-! ## Rules and the cache file -/

structure CachedPolicyUpdate where
  version : Int64
  policyType : String
  ruleId : String
  content : String
  action : String
  enforcementMode : String
  signature : Bytes
  deriving DecidableEq

def CachedPolicyUpdate.ofPolicy (p : PolicyUpdate) : CachedPolicyUpdate :=
  { version := p.version, policyType := p.policyType, ruleId := p.ruleId, content := p.content, action := p.action,
    enforcementMode := p.enforcementMode, signature := p.signature }

def CachedPolicyUpdate.into (c : CachedPolicyUpdate) : PolicyUpdate :=
  { version := c.version, policyType := c.policyType, ruleId := c.ruleId, content := c.content, action := c.action,
    enforcementMode := c.enforcementMode, signature := c.signature }

inductive RuleMode
  | shadow
  | enforce
  | rejected
  deriving DecidableEq, Repr

inductive RuleSource
  | humanApproved
  | autoGenerated
  deriving DecidableEq, Repr

structure GuardedDynamicRule where
  id : String
  yamlContent : String
  title : String
  mode : RuleMode
  createdAt : Instant
  matchCount : ℕ
  maxMatchesPerMinute : ℕ
  shadowDurationSecs : ℕ
  source : RuleSource

/-- The rule made from a policy; the two places that make one differ in the title. -/
def guardedRule (title : String) (now : Instant) (policy : PolicyUpdate) : GuardedDynamicRule :=
  { id := policy.ruleId
    yamlContent := policy.content
    title := title ++ toString policy.version
    mode := if policy.enforcementMode = "SHADOW" then .shadow else .enforce
    createdAt := now
    matchCount := 0
    maxMatchesPerMinute := 100
    shadowDurationSecs := 3600
    source := .humanApproved }

/-- The functions of `serde_json`, with the texts of their errors. -/
structure SerdeJson where
  Text : Type
  toStringPretty : List CachedPolicyUpdate → Except String Text
  fromStr : Text → Except String (List CachedPolicyUpdate)

/-- Printing succeeds, and parsing gives back what was printed. -/
def SerdeJson.Lossless (json : SerdeJson) : Prop := ∀ l, ∃ t, json.toStringPretty l = .ok t ∧ json.fromStr t = .ok l

/-! ## The client -/

section Client

variable (key : Ed25519) (json : SerdeJson)

/-- What the file holds for `save_policy_to_cache`: nothing if it does not parse. -/
def cachedList : Option json.Text → List CachedPolicyUpdate
  | none => []
  | some data => (json.fromStr data).toOption.getD []

/-- The file with the policy in it. -/
def savePolicyToCache (file : Option json.Text) (policy : PolicyUpdate) : Except String (Option json.Text) := do
  let data ← json.toStringPretty (upsert (·.ruleId) (.ofPolicy policy) (cachedList json file))
  return some data

/-- The rules injected at the start. -/
def loadAndInjectCachedPolicies (now : Instant) : Option json.Text → Except String (List GuardedDynamicRule)
  | none => .ok []
  | some data => do
    let cached ← json.fromStr data
    return cached.filterMap fun c => match verifySignature key c.into with
      | .ok () => some (guardedRule "Cached Policy v" now c.into)
      | .error _ => none

/-- The cache file and the rules sent to the engine so far. -/
structure Agent where
  file : Option json.Text
  injected : List GuardedDynamicRule

/-- An item of the policy stream, with the time it arrives. -/
structure Item where
  now : Instant
  update : Except String PolicyUpdate

/-- One received update: dropped if its signature is bad, ignored if it is not a sigma policy. -/
def onUpdate (a : Agent json) (now : Instant) (update : PolicyUpdate) : Agent json :=
  match verifySignature key update with
  | .error _ => a
  | .ok () =>
    if update.policyType = "sigma" then
      { file := (savePolicyToCache json a.file update).toOption.getD a.file
        injected := a.injected ++ [guardedRule "Control Plane Policy v" now update] }
    else a

/-- One connection; an error of the stream ends it. -/
def connectAndListen (a : Agent json) : List Item → Agent json × Except String Unit
  | [] => (a, .ok ())
  | { now, update := .ok update } :: items => connectAndListen (onUpdate key json a now update) items
  | { now := _, update := .error e } :: _ => (a, .error e)

/-- One start of the agent: the cached policies, and then one connection after the other. -/
def run (a : Agent json) (now : Instant) (connections : List (List Item)) : Agent json :=
  let a := match loadAndInjectCachedPolicies key json now a.file with
    | .ok rules => { a with injected := a.injected ++ rules }
    | .error _ => a
  connections.foldl (fun a items => (connectAndListen key json a items).1) a

/-- The starts of an agent, one after the other, from an agent without a cache file. -/
def life (starts : List (Instant × List (List Item))) : Agent json :=
  starts.foldl (fun a s => run key json a s.1 s.2) { file := none, injected := [] }

end Client

/-! ## The updates an agent accepts -/

section Accepted

variable (key : Ed25519)

/-- The update passes the signature check and is a sigma policy. -/
def Accepts (u : PolicyUpdate) : Prop := verifySignature key u = .ok () ∧ u.policyType = "sigma"

instance (u : PolicyUpdate) : Decidable (Accepts key u) := inferInstanceAs (Decidable (_ ∧ _))

/-- The updates that arrive before the stream fails. -/
def received : List Item → List PolicyUpdate
  | [] => []
  | { now := _, update := .ok update } :: items => update :: received items
  | { now := _, update := .error _ } :: _ => []

/-- The updates accepted in a life. -/
def accepted (starts : List (Instant × List (List Item))) : List PolicyUpdate :=
  (starts.flatMap fun s => s.2.flatMap received).filter (Accepts key ·)

end Accepted

/-! ## What the file holds -/

section Holds

variable {key : Ed25519} {json : SerdeJson} {file : Option json.Text} {l : List CachedPolicyUpdate}

/-- The file is missing and `l` is empty, or it parses to `l`. -/
def Holds (json : SerdeJson) (file : Option json.Text) (l : List CachedPolicyUpdate) : Prop :=
  file = none ∧ l = [] ∨ ∃ t, file = some t ∧ json.fromStr t = .ok l

theorem Holds.cachedList_eq (h : Holds json file l) : cachedList json file = l := by
  rcases h with ⟨rfl, rfl⟩ | ⟨t, rfl, ht⟩
  · rfl
  · simp [cachedList, ht, Except.toOption]

/-- The entries after more updates. -/
def store (key : Ed25519) (l : List CachedPolicyUpdate) (us : List PolicyUpdate) : List CachedPolicyUpdate :=
  (us.filter (Accepts key ·)).foldl (fun l u => upsert (·.ruleId) (.ofPolicy u) l) l

theorem store_append (us vs : List PolicyUpdate) : store key l (us ++ vs) = store key (store key l us) vs := by
  rw [store, List.filter_append, List.foldl_append]
  rfl

theorem Holds.save (hj : json.Lossless) (h : Holds json file l) (p : PolicyUpdate) :
    ∃ file', savePolicyToCache json file p = .ok file' ∧ Holds json file' (upsert (·.ruleId) (.ofPolicy p) l) := by
  obtain ⟨t, ht, hf⟩ := hj (upsert (·.ruleId) (.ofPolicy p) l)
  refine ⟨some t, ?_, Or.inr ⟨t, rfl, hf⟩⟩
  rw [savePolicyToCache, h.cachedList_eq, ht]
  rfl

variable {a : Agent json}

/-- One update. -/
theorem Holds.onUpdate (hj : json.Lossless) (h : Holds json a.file l) (now : Instant) (u : PolicyUpdate) :
    Holds json (onUpdate key json a now u).file (store key l [u]) := by
  unfold Control.onUpdate store
  cases hv : verifySignature key u with
  | error e => simpa [Accepts, hv] using h
  | ok _ =>
    by_cases hs : u.policyType = "sigma"
    · obtain ⟨file', hsave, hh⟩ := h.save hj u
      simpa [Accepts, hv, hs, hsave, Except.toOption] using hh
    · simpa [Accepts, hv, hs] using h

/-- One connection. -/
theorem Holds.connect (hj : json.Lossless) : ∀ (items : List Item) {a : Agent json} {l : List CachedPolicyUpdate},
    Holds json a.file l → Holds json (connectAndListen key json a items).1.file (store key l (received items))
  | [], _, _, h => h
  | { now, update := .ok u } :: items, a, l, h => by
    change Holds json _ (store key l ([u] ++ received items))
    rw [store_append]
    exact Holds.connect hj items (h.onUpdate hj now u)
  | { now := _, update := .error _ } :: _, _, _, h => h

/-- One connection after the other. -/
theorem Holds.connections (hj : json.Lossless) (h : Holds json a.file l) (cs : List (List Item)) :
    Holds json (cs.foldl (fun a items => (connectAndListen key json a items).1) a).file
      (store key l (cs.flatMap received)) := by
  induction cs generalizing a l with
  | nil => exact h
  | cons items cs ih =>
    rw [List.flatMap_cons, store_append]
    exact ih (h.connect hj items)

/-- One start. -/
theorem Holds.run (hj : json.Lossless) (h : Holds json a.file l) (now : Instant) (cs : List (List Item)) :
    Holds json (run key json a now cs).file (store key l (cs.flatMap received)) := by
  unfold Control.run
  cases loadAndInjectCachedPolicies key json now a.file with
  | error e => exact h.connections hj cs
  | ok rules =>
    have h' : Holds json { a with injected := a.injected ++ rules }.file l := h
    exact h'.connections hj cs

/-- One start after the other. -/
theorem Holds.starts (hj : json.Lossless) (h : Holds json a.file l) (starts : List (Instant × List (List Item))) :
    Holds json (starts.foldl (fun a s => Control.run key json a s.1 s.2) a).file
      (store key l (starts.flatMap fun s => s.2.flatMap received)) := by
  induction starts generalizing a l with
  | nil => exact h
  | cons s starts ih =>
    rw [List.flatMap_cons, store_append]
    exact ih (h.run hj s.1 s.2)

/-- **Every life**: the file holds the accepted updates, replaced or appended one after the other. -/
theorem life_cache (hj : json.Lossless) (starts : List (Instant × List (List Item))) :
    Holds json (life key json starts).file
      (((accepted key starts).map .ofPolicy).foldl (fun l c => upsert (·.ruleId) c l) []) := by
  rw [List.foldl_map]
  exact Holds.starts hj (Or.inl ⟨rfl, rfl⟩) starts

end Holds

/-! ## The last update of each rule -/

section Last

variable {key : Ed25519} {json : SerdeJson}

/-- The entries of the cache file after a life. -/
def cacheAfter (key : Ed25519) (json : SerdeJson) (starts : List (Instant × List (List Item))) :
    List CachedPolicyUpdate :=
  cachedList json (life key json starts).file

theorem nodup_cacheAfter (hj : json.Lossless) (starts : List (Instant × List (List Item))) :
    ((cacheAfter key json starts).map (·.ruleId)).Nodup := by
  rw [cacheAfter, (life_cache hj starts).cachedList_eq]
  exact nodup_foldl_upsert _

theorem mem_cacheAfter_iff (hj : json.Lossless) (starts : List (Instant × List (List Item))) (c : CachedPolicyUpdate) :
    c ∈ cacheAfter key json starts ↔
      ∃ u, last (·.ruleId) c.ruleId (accepted key starts) = some u ∧ .ofPolicy u = c := by
  have hlast : lookup (·.ruleId) c.ruleId (cacheAfter key json starts) =
      (last (·.ruleId) c.ruleId (accepted key starts)).map .ofPolicy := by
    rw [cacheAfter, (life_cache hj starts).cachedList_eq, lookup_foldl_upsert, last_map]
    rfl
  rw [← Option.map_eq_some_iff, ← hlast, lookup_eq_some_iff (nodup_cacheAfter hj starts)]
  exact (and_iff_left rfl).symm

/-- Whatever order the updates come in, and however often, the cache holds for each rule id one entry: the accepted
update processed last for it. -/
theorem cache_holds_last (hj : json.Lossless) (starts : List (Instant × List (List Item))) :
    ((cacheAfter key json starts).map (·.ruleId)).Nodup ∧
      ∀ c, c ∈ cacheAfter key json starts ↔
        ∃ u, last (·.ruleId) c.ruleId (accepted key starts) = some u ∧ .ofPolicy u = c :=
  ⟨nodup_cacheAfter hj starts, mem_cacheAfter_iff hj starts⟩

/-- A `serde_json` whose texts are the lists they stand for. -/
def plainJson : SerdeJson where
  Text := List CachedPolicyUpdate
  toStringPretty := .ok
  fromStr := .ok

theorem plainJson_lossless : plainJson.Lossless := fun l => ⟨l, rfl, rfl⟩

/-- A signed sigma policy for the rule `r`. -/
def rulePolicy (version : Int64) (action : String) : PolicyUpdate :=
  ⟨version, "sigma", "r", "title: r", action, "ENFORCE", List.replicate 64 0⟩

/-- The second version and then a replay of the first. -/
def downgrade : List (Instant × List (List Item)) :=
  [(0, [[⟨1, .ok (rulePolicy 2 "UPDATE")⟩, ⟨2, .ok (rulePolicy 1 "CREATE")⟩]])]

def ruleKey : Ed25519 := signedOnly [policyData (rulePolicy 1 "CREATE"), policyData (rulePolicy 2 "UPDATE")]

theorem cache_holds_last_downgrade : ((cacheAfter ruleKey plainJson downgrade).map (·.ruleId)).Nodup ∧
    ∀ c, c ∈ cacheAfter ruleKey plainJson downgrade ↔
      ∃ u, last (·.ruleId) c.ruleId (accepted ruleKey downgrade) = some u ∧ .ofPolicy u = c :=
  cache_holds_last plainJson_lossless downgrade

/-- The replayed first version takes the place of the second. -/
theorem cache_downgraded : ¬ ∀ (key : Ed25519) (json : SerdeJson), json.Lossless →
    ∀ starts, ∀ u ∈ accepted key starts,
      (∀ v ∈ accepted key starts, v.ruleId = u.ruleId → v = u ∨ v.version < u.version) →
        .ofPolicy u ∈ cacheAfter key json starts := by
  intro h
  have hu : rulePolicy 2 "UPDATE" ∈ accepted ruleKey downgrade := by decide +kernel
  have hmem := h ruleKey plainJson plainJson_lossless downgrade _ hu (by decide +kernel)
  revert hmem
  decide +kernel

/-! ## Deletion -/

/-- The last update accepted for the rule is there and is not a `DELETE`. -/
def Kept (key : Ed25519) (starts : List (Instant × List (List Item))) (id : String) : Prop :=
  ∃ u, last (·.ruleId) id (accepted key starts) = some u ∧ u.action ≠ "DELETE"

/-- The rule is in the cache, and it is injected at the next start, exactly when it is to be kept. -/
def DeletionHonoured (key : Ed25519) (json : SerdeJson) (starts : List (Instant × List (List Item))) (now : Instant)
    (id : String) : Prop :=
  ((∃ c ∈ cacheAfter key json starts, c.ruleId = id) ↔ Kept key starts id) ∧
    ((∃ rules, loadAndInjectCachedPolicies key json now (life key json starts).file = .ok rules ∧
      ∃ r ∈ rules, r.id = id) ↔ Kept key starts id)

/-- A rule is in the cache when an update has been accepted for it. -/
theorem cached_iff (hj : json.Lossless) (starts : List (Instant × List (List Item))) (id : String) :
    (∃ c ∈ cacheAfter key json starts, c.ruleId = id) ↔ ∃ u, last (·.ruleId) id (accepted key starts) = some u := by
  constructor
  · rintro ⟨c, hc, rfl⟩
    obtain ⟨u, hu, -⟩ := (mem_cacheAfter_iff hj starts c).1 hc
    exact ⟨u, hu⟩
  · rintro ⟨u, hu⟩
    have hid : u.ruleId = id := (mem_of_last hu).2
    refine ⟨.ofPolicy u, (mem_cacheAfter_iff hj starts _).2 ⟨u, ?_, rfl⟩, hid⟩
    rw [← hid] at hu
    exact hu

/-- What is in the cache passes the signature check again. -/
theorem verified_of_cached (hj : json.Lossless) {starts : List (Instant × List (List Item))} {c : CachedPolicyUpdate}
    (hc : c ∈ cacheAfter key json starts) : verifySignature key c.into = .ok () := by
  obtain ⟨u, hu, rfl⟩ := (mem_cacheAfter_iff hj starts c).1 hc
  have hacc : Accepts key u := by simpa using (List.mem_filter.1 (mem_of_last hu).1).2
  exact hacc.1

/-- The next start injects a rule for each entry of the cache. -/
theorem load_cacheAfter (hj : json.Lossless) (starts : List (Instant × List (List Item))) (now : Instant) :
    loadAndInjectCachedPolicies key json now (life key json starts).file =
      .ok ((cacheAfter key json starts).map fun c => guardedRule "Cached Policy v" now c.into) := by
  have hall : ∀ c ∈ cacheAfter key json starts, verifySignature key c.into = .ok () := fun c => verified_of_cached hj
  have hholds : Holds json (life key json starts).file (cacheAfter key json starts) := by
    rw [cacheAfter, (life_cache hj starts).cachedList_eq]
    exact life_cache hj starts
  rcases hholds with ⟨hf, hl⟩ | ⟨t, hf, ht⟩
  · rw [hf, hl]
    rfl
  · rw [hf, loadAndInjectCachedPolicies, ht]
    have hmap : ∀ c ∈ cacheAfter key json starts, (match verifySignature key c.into with
        | .ok () => some (guardedRule "Cached Policy v" now c.into)
        | .error _ => none) = (some ∘ fun c => guardedRule "Cached Policy v" now c.into) c := by
      intro c hc
      rw [hall c hc]
      rfl
    exact congrArg Except.ok ((List.filterMap_congr hmap).trans (congrFun List.filterMap_eq_map _))

/-- Deletion is honoured for a rule exactly when the last update accepted for it, if there is one, is not a `DELETE`. -/
theorem deletion_honoured_iff (hj : json.Lossless) (starts : List (Instant × List (List Item))) (now : Instant)
    (id : String) : DeletionHonoured key json starts now id ↔
      ∀ u, last (·.ruleId) id (accepted key starts) = some u → u.action ≠ "DELETE" := by
  have hload : (∃ rules, loadAndInjectCachedPolicies key json now (life key json starts).file = .ok rules ∧
      ∃ r ∈ rules, r.id = id) ↔ ∃ c ∈ cacheAfter key json starts, c.ruleId = id := by
    rw [load_cacheAfter hj]
    simp [guardedRule, CachedPolicyUpdate.into]
  rw [DeletionHonoured, hload, and_self, cached_iff hj]
  constructor
  · intro h u hu hdel
    obtain ⟨u', hu', hkeep⟩ := h.1 ⟨u, hu⟩
    rw [hu] at hu'
    exact hkeep (Option.some.inj hu' ▸ hdel)
  · intro h
    exact ⟨fun ⟨u, hu⟩ => ⟨u, hu, h u hu⟩, fun ⟨u, hu, _⟩ => ⟨u, hu⟩⟩

/-- The rule is created and then deleted. -/
def deletion : List (Instant × List (List Item)) :=
  [(0, [[⟨1, .ok (rulePolicy 1 "CREATE")⟩, ⟨2, .ok (rulePolicy 2 "DELETE")⟩]])]

theorem deletion_honoured_downgrade : DeletionHonoured ruleKey plainJson downgrade 3 "r" :=
  (deletion_honoured_iff plainJson_lossless downgrade 3 "r").2 (by decide +kernel)

/-- The deleted rule is still in the cache. -/
theorem deletion_ignored : ¬ ∀ (key : Ed25519) (json : SerdeJson), json.Lossless →
    ∀ starts now id, DeletionHonoured key json starts now id := by
  intro h
  let key := signedOnly [policyData (rulePolicy 1 "CREATE"), policyData (rulePolicy 2 "DELETE")]
  have hkept := (h key plainJson plainJson_lossless deletion 3 "r").1
  have hcached : ∃ c ∈ cacheAfter key plainJson deletion, c.ruleId = "r" := by decide +kernel
  obtain ⟨u, hu, hdel⟩ := hkept.1 hcached
  have hlast : last (·.ruleId) "r" (accepted key deletion) = some (rulePolicy 2 "DELETE") := by decide +kernel
  rw [hlast] at hu
  exact hdel (Option.some.inj hu ▸ rfl)

end Last

end ThorFirewall.Control
