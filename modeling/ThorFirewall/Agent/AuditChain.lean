import Mathlib
import ThorFirewall.Agent.AuditLog

/-!
# When the agent's audit chain verifies

The order in which the entries are checked is that of their ids, the order in which they are chained is that of the lock,
and a call draws its id before it takes the lock.

- `Placed`: over every schedule, ids are distinct, an id is stored by its call, and the lock is held by one call;
- `Rooted`: every stored hash was made after `GENESIS` or after another stored hash;
- `verify_insert`: so an entry that is put before a larger id breaks the chain, unless the digest collides;
- `verify_chain_iff`: the chain verifies if, and short of a collision only if, every entry was stored when no larger id
  was.
-/

namespace ThorFirewall.Audit

open Interleaving HashChain Std

variable {ι : Type*} {digest : String → String} {calls : ι → LogCall}
  {c : Config (Actor ι) (Shared ι) Pc}

/-! ## Ids and the lock -/

/-- The call has drawn its id. -/
def Pc.begun : Pc → Bool
  | .start => false
  | _ => true

/-- The call holds the lock. -/
def Pc.holds : Pc → Bool
  | .locked => true
  | .inserted _ => true
  | _ => false

/-- The call has begun and not returned. -/
def Pc.underway : Pc → Bool
  | .generated => true
  | .locked => true
  | .inserted _ => true
  | _ => false

/-- The call is past its insertion. -/
def Pc.past : Pc → Bool
  | .inserted _ => true
  | .done => true
  | _ => false

variable (calls) in
structure Placed (c : Config (Actor ι) (Shared ι) Pc) : Prop where
  le_lastId : ∀ i, (c.pc (.caller i)).begun = true → ∃ l, c.shared.lastId = some l ∧ (calls i).id ≤ l
  distinct : ∀ i j, (c.pc (.caller i)).begun = true → (c.pc (.caller j)).begun = true → (calls i).id = (calls j).id →
    i = j
  owner : ∀ k v, (k, v) ∈ c.shared.db.toList → ∃ i, (c.pc (.caller i)).past = true ∧ (calls i).id = k
  inFlight : ∀ i, i ∈ c.shared.inFlight ↔ (c.pc (.caller i)).underway = true
  lock : ∀ i, c.shared.lock = some i ↔ (c.pc (.caller i)).holds = true

theorem placed_initial : Placed calls (initial : Config (Actor ι) (Shared ι) Pc) := by
  constructor <;> simp [initial, Pc.begun, Pc.underway, Pc.holds]

theorem set_caller_pc [DecidableEq ι] (i j : ι) (r : Pc × Shared ι) :
    (c.set (.caller i) r).pc (.caller j) = if j = i then r.1 else c.pc (.caller j) := by
  simp [Config.set_pc]

theorem set_opener_pc [DecidableEq ι] (b : Bool) (j : ι) (r : Pc × Shared ι) :
    (c.set (.opener b) r).pc (.caller j) = c.pc (.caller j) := by
  simp [Config.set_pc]

theorem Placed.step [DecidableEq ι] {a : Actor ι} {r : Pc × Shared ι} (hc : Placed calls c)
    (h : next digest calls a (c.pc a) c.shared = some r) : Placed calls (c.set a r) := by
  obtain ⟨b, prevHash, rfl, hempty, -, rfl⟩ | ⟨i, rfl, hcases⟩ := next_cases digest calls h
  · -- no call is underway, so none held the lock
    have hidle : ∀ i, (c.pc (.caller i)).holds = false := by
      intro i
      have hfl := hc.inFlight i
      rw [hempty] at hfl
      cases hpc : c.pc (.caller i) <;> simp_all [Pc.underway, Pc.holds]
    constructor <;> simp only [set_opener_pc, Config.set_shared]
    · exact hc.le_lastId
    · exact hc.distinct
    · exact hc.owner
    · exact hc.inFlight
    · intro i
      simp [hidle i]
  · obtain ⟨hpc, hlt, rfl⟩ | ⟨hpc, hfree, rfl⟩ | ⟨hpc, -, rfl⟩ | ⟨hpc, -, rfl⟩ | ⟨chainHash, hpc, rfl⟩ := hcases
    all_goals
      obtain ⟨hlast, hdist, howner, hfl, hlock⟩ := hc
      constructor
    all_goals simp only [set_caller_pc, Config.set_shared, Shared.leave, SortedMap.mem_toList_insert]
    all_goals grind -ring -linarith [Pc.begun, Pc.holds, Pc.underway, Pc.past]

theorem placed_run [DecidableEq ι] (schedule : List (Actor ι)) : Placed calls (run digest calls schedule) :=
  exec_inv placed_initial (fun _ _ _ hc h => hc.step h) schedule

/-- A call that is about to insert its entry has an id that is not stored yet. -/
theorem Placed.fresh (hc : Placed calls c) {i : ι} (hpc : c.pc (.caller i) = .locked) : (calls i).id ∉ c.shared.db := by
  intro hmem
  obtain ⟨v, hv⟩ := SortedMap.mem_iff_mem_toList.1 hmem
  obtain ⟨j, hpast, hid⟩ := hc.owner _ v hv
  have hj : (c.pc (.caller j)).begun = true := by
    cases hpj : c.pc (.caller j) <;> simp_all [Pc.past, Pc.begun]
  obtain rfl := hc.distinct j i hj (by simp [hpc, Pc.begun]) hid
  rw [hpc] at hpast
  cases hpast

/-- While one call holds the lock, no other one has inserted its entry and not passed on its hash. -/
theorem Placed.not_inserted (hc : Placed calls c) {i j : ι} (hpc : (c.pc (.caller i)).holds = true) {h : String}
    (hj : c.pc (.caller j) = .inserted h) : j = i := by
  have hli := (hc.lock i).2 hpc
  have hlj := (hc.lock j).2 (by rw [hj]; rfl)
  rw [hli] at hlj
  exact (Option.some.inj hlj).symm

/-- A new key among the stored values. -/
theorem stored_insert {db : Db} {k : UInt64} (hk : k ∉ db) (v : Option AuditEntry) :
    ∃ xs ys, stored db = xs ++ ys ∧ stored (db.insert k v) = xs ++ v :: ys ∧ (ys = [] ↔ ∀ k' ∈ db, k' < k) := by
  obtain ⟨xs, ys, hdb, hins, hxs, hys⟩ := SortedMap.toList_insert_of_notMem v hk
  refine ⟨xs.map (·.2), ys.map (·.2), by simp [stored, hdb], by simp [stored, hins], ?_⟩
  rw [List.map_eq_nil_iff]
  constructor
  · rintro rfl k' hk'
    obtain ⟨v', hv'⟩ := SortedMap.mem_iff_mem_toList.1 hk'
    rw [hdb, List.append_nil] at hv'
    exact Std.compare_eq_lt.1 (hxs _ hv')
  · intro hall
    apply List.eq_nil_iff_forall_not_mem.2
    intro y hy
    have hlt := Std.compare_eq_lt.1 (hys y hy)
    have hmem : y.1 ∈ db := SortedMap.mem_iff_mem_toList.2 ⟨y.2, by rw [hdb]; simp [hy]⟩
    exact UInt64.lt_asymm hlt (hall _ hmem)

@[simp] theorem stored_empty : stored ∅ = [] := rfl

theorem mem_stored_insert {db : Db} {k : UInt64} (hk : k ∉ db) (v : Option AuditEntry) {w : Option AuditEntry} :
    w ∈ stored (db.insert k v) ↔ w = v ∨ w ∈ stored db := by
  obtain ⟨xs, ys, hdb, hins, -⟩ := stored_insert hk v
  rw [hdb, hins, List.mem_append, List.mem_cons, List.mem_append]
  tauto

/-! ## In turn, the chain verifies -/

variable (calls) in
/-- The step does not store an entry before a larger id. -/
def InTurn (c : Config (Actor ι) (Shared ι) Pc) : Actor ι → Prop
  | .caller i => c.pc (.caller i) = .locked → (calls i).stores = true → ∀ k ∈ c.shared.db, k < (calls i).id
  | .opener _ => True

variable (digest) in
/-- The chain is whole, and the hash to go on from is its last one, in the lock or on its way there. -/
structure Intact (c : Config (Actor ι) (Shared ι) Pc) : Prop where
  chain : Chain (Passes digest) carried genesis (stored c.shared.db)
  prevHash : (∀ i h, c.pc (.caller i) ≠ .inserted h) → c.shared.prevHash = lastHash carried genesis (stored c.shared.db)
  inserted : ∀ i h, c.pc (.caller i) = .inserted h → h = lastHash carried genesis (stored c.shared.db)

theorem intact_initial : Intact digest (initial : Config (Actor ι) (Shared ι) Pc) := by
  constructor <;> simp [initial]

/-- The entry that a call makes passes the check after the hash it was made with. -/
theorem passes_entry (l : LogCall) (prev : String) : Passes digest prev (some (l.entry digest prev)) :=
  ⟨_, rfl, rfl⟩

/-- A step that neither stores an entry nor passes on a hash. -/
theorem Intact.keep [DecidableEq ι] (hc : Intact digest c) {i : ι} {pc : Pc} {s : Shared ι}
    (hold : ∀ h, c.pc (.caller i) ≠ .inserted h) (hnew : ∀ h, pc ≠ .inserted h) (hdb : s.db = c.shared.db)
    (hprev : s.prevHash = c.shared.prevHash) : Intact digest (c.set (.caller i) (pc, s)) := by
  have hsame : ∀ j h, (c.set (.caller i) (pc, s)).pc (.caller j) = .inserted h ↔ c.pc (.caller j) = .inserted h := by
    intro j h
    rw [set_caller_pc]
    split_ifs with hj
    · subst hj
      exact iff_of_false (hnew h) (hold h)
    · rfl
  constructor
  · rw [Config.set_shared, hdb]
    exact hc.chain
  · intro hnone
    rw [Config.set_shared, hdb, hprev]
    apply hc.prevHash
    intro j h
    rw [Ne, ← hsame]
    exact hnone j h
  · intro j h hj
    rw [Config.set_shared, hdb]
    exact hc.inserted j h ((hsame j h).1 hj)

/-- A call that inserts its entry behind all others. -/
theorem Intact.insert [DecidableEq ι] (hp : Placed calls c) (hc : Intact digest c) {i : ι}
    (hpc : c.pc (.caller i) = .locked) (hlast : ∀ k ∈ c.shared.db, k < (calls i).id) :
    Intact digest (c.set (.caller i) (.inserted ((calls i).entry digest c.shared.prevHash).chainHash,
      { c.shared with db := c.shared.db.insert (calls i).id (some ((calls i).entry digest c.shared.prevHash)) })) := by
  set e := (calls i).entry digest c.shared.prevHash with he
  have hnone : ∀ j h, c.pc (.caller j) ≠ .inserted h := by
    intro j h hj
    obtain rfl := hp.not_inserted (by rw [hpc]; rfl) hj
    rw [hpc] at hj
    cases hj
  obtain ⟨xs, ys, hdb, hins, hys⟩ := stored_insert (hp.fresh hpc) (some e)
  rw [hys.2 hlast] at hdb hins
  rw [List.append_nil] at hdb
  have hlasthash : lastHash carried genesis (stored (c.shared.db.insert (calls i).id (some e))) = e.chainHash := by
    rw [hins, lastHash_concat]
    rfl
  constructor <;> simp only [Config.set_shared]
  · rw [hins, ← hdb, chain_concat, ← hc.prevHash hnone]
    exact ⟨hc.chain, passes_entry _ _⟩
  · intro h
    exact absurd (Config.set_pc_self c _ _) (h i _)
  · intro j h hj
    rw [hlasthash]
    rw [set_caller_pc] at hj
    split_ifs at hj
    · exact (Pc.inserted.inj hj).symm
    · exact absurd hj (hnone j h)

theorem Intact.step [DecidableEq ι] {a : Actor ι} {r : Pc × Shared ι} (hp : Placed calls c) (hc : Intact digest c)
    (hturn : InTurn calls c a) (h : next digest calls a (c.pc a) c.shared = some r) : Intact digest (c.set a r) := by
  obtain ⟨b, prevHash, rfl, -, hopen, rfl⟩ | ⟨i, rfl, hcases⟩ := next_cases digest calls h
  · -- the chain is taken up at the last key
    constructor <;> simp only [set_opener_pc, Config.set_shared]
    · exact hc.chain
    · exact fun _ => openDb_eq hopen
    · exact hc.inserted
  · obtain ⟨hpc, -, rfl⟩ | ⟨hpc, -, rfl⟩ | ⟨hpc, hst, rfl⟩ | ⟨hpc, -, rfl⟩ | ⟨chainHash, hpc, rfl⟩ := hcases
    · exact hc.keep (by simp [hpc]) (by simp) rfl rfl
    · exact hc.keep (by simp [hpc]) (by simp) rfl rfl
    · exact hc.insert hp hpc (hturn hpc hst)
    · exact hc.keep (by simp [hpc]) (by simp) rfl rfl
    · -- the hash of the entry that was inserted last is passed on
      have hhash := hc.inserted i chainHash hpc
      constructor <;> simp only [set_caller_pc, Config.set_shared]
      · exact hc.chain
      · exact fun _ => hhash
      · intro j h hj
        split_ifs at hj with hji
        exact absurd (hp.not_inserted (by rw [hpc]; rfl) hj) hji

/-- If every entry is stored when no larger id is, the chain verifies in every state, whatever the digest. -/
theorem verify_of_in_turn [DecidableEq ι] {schedule : List (Actor ι)}
    (hturn : ∀ pre a, pre ++ [a] <+: schedule → InTurn calls (run digest calls pre) a) :
    verifyChain digest (run digest calls schedule).shared.db = true := by
  rw [verifyChain_iff]
  have hinv : Placed calls (run digest calls schedule) ∧ Intact digest (run digest calls schedule) :=
    exec_inv_of (P := fun c => Placed calls c ∧ Intact digest c) ⟨placed_initial, intact_initial⟩
      (fun _ _ _ hc ht h => ⟨hc.1.step h, hc.2.step hc.1 ht h⟩) hturn
  exact hinv.2.chain

/-! ## Out of turn, it does not -/

theorem stored_subset_insert {db : Db} {k : UInt64} (hk : k ∉ db) (v : Option AuditEntry) :
    stored db ⊆ stored (db.insert k v) :=
  fun _ hw => (mem_stored_insert hk v).2 (Or.inr hw)

variable (digest) in
/-- Every stored hash is that of its entry and a hash made before. -/
structure Rooted (c : Config (Actor ι) (Shared ι) Pc) : Prop where
  entries : ∀ k v, (k, v) ∈ c.shared.db.toList →
    ∃ e p, v = some e ∧ e.id = k ∧ Root c.shared.db p ∧ e.chainHash = digest (e.raw p)
  prevHash : Root c.shared.db c.shared.prevHash
  inserted : ∀ i h, c.pc (.caller i) = .inserted h → Root c.shared.db h

theorem rooted_initial : Rooted digest (initial : Config (Actor ι) (Shared ι) Pc) := by
  constructor
  · intro k v h
    cases h
  · exact Or.inl rfl
  · intro i h hi
    cases hi

/-- A step that stores no entry and goes on from a rooted hash. -/
theorem Rooted.keep [DecidableEq ι] (hc : Rooted digest c) {a : Actor ι} {pc : Pc} {s : Shared ι}
    (hnew : ∀ i h, a = .caller i → pc ≠ .inserted h) (hdb : s.db = c.shared.db)
    (hprev : Root c.shared.db s.prevHash) : Rooted digest (c.set a (pc, s)) := by
  constructor <;> simp only [Config.set_shared, hdb]
  · exact hc.entries
  · exact hprev
  · intro i h hi
    rw [Config.set_pc] at hi
    split_ifs at hi with ha
    · exact absurd hi (hnew i h ha.symm)
    · exact hc.inserted i h hi

theorem Rooted.insert [DecidableEq ι] (hp : Placed calls c) (hc : Rooted digest c) {i : ι}
    (hpc : c.pc (.caller i) = .locked) :
    Rooted digest (c.set (.caller i) (.inserted ((calls i).entry digest c.shared.prevHash).chainHash,
      { c.shared with db := c.shared.db.insert (calls i).id (some ((calls i).entry digest c.shared.prevHash)) })) := by
  set e := (calls i).entry digest c.shared.prevHash with he
  have hfresh := hp.fresh hpc
  have hsub := stored_subset_insert hfresh (some e)
  have hroot : ∀ p, Root c.shared.db p → Root (c.shared.db.insert (calls i).id (some e)) p := fun p h => h.mono hsub
  have hnew : Root (c.shared.db.insert (calls i).id (some e)) e.chainHash :=
    Or.inr ⟨e, (mem_stored_insert hfresh _).2 (Or.inl rfl), rfl⟩
  constructor <;> simp only [Config.set_shared]
  · intro k v hkv
    rcases SortedMap.mem_toList_insert.1 hkv with ⟨rfl, rfl⟩ | ⟨-, hkv⟩
    · exact ⟨e, c.shared.prevHash, rfl, rfl, hroot _ hc.prevHash, rfl⟩
    · obtain ⟨f, p, hv, hid, hp, hhash⟩ := hc.entries k v hkv
      exact ⟨f, p, hv, hid, hroot p hp, hhash⟩
  · exact hroot _ hc.prevHash
  · intro j h hj
    rw [set_caller_pc] at hj
    split_ifs at hj
    · rw [← Pc.inserted.inj hj]
      exact hnew
    · exact hroot h (hc.inserted j h hj)

theorem root_lastHash {c : Config (Actor ι) (Shared ι) Pc} (hc : Rooted digest c) :
    Root c.shared.db (lastHash carried genesis (stored c.shared.db)) := by
  rcases lastHash_eq_or_mem carried genesis (stored c.shared.db) with h | ⟨v, hv, h⟩
  · exact Or.inl h
  · obtain ⟨⟨k, w⟩, hkv, rfl⟩ := List.mem_map.1 hv
    obtain ⟨e, -, rfl, -⟩ := hc.entries k w hkv
    exact Or.inr ⟨e, hv, h⟩

theorem Rooted.step [DecidableEq ι] {a : Actor ι} {r : Pc × Shared ι} (hp : Placed calls c) (hc : Rooted digest c)
    (h : next digest calls a (c.pc a) c.shared = some r) : Rooted digest (c.set a r) := by
  obtain ⟨b, prevHash, rfl, -, hopen, rfl⟩ | ⟨i, rfl, hcases⟩ := next_cases digest calls h
  · refine hc.keep (by simp) rfl ?_
    rw [openDb_eq hopen]
    exact root_lastHash hc
  · obtain ⟨hpc, -, rfl⟩ | ⟨hpc, -, rfl⟩ | ⟨hpc, hst, rfl⟩ | ⟨hpc, -, rfl⟩ | ⟨chainHash, hpc, rfl⟩ := hcases
    · exact hc.keep (by simp) rfl hc.prevHash
    · exact hc.keep (by simp) rfl hc.prevHash
    · exact hc.insert hp hpc
    · exact hc.keep (by simp) rfl hc.prevHash
    · exact hc.keep (by simp) rfl (hc.inserted i chainHash hpc)

theorem rooted_run [DecidableEq ι] (schedule : List (Actor ι)) : Rooted digest (run digest calls schedule) :=
  (exec_inv (P := fun c => Placed calls c ∧ Rooted digest c) ⟨placed_initial, rooted_initial⟩
    (fun _ _ _ hc h => ⟨hc.1.step h, hc.2.step hc.1 h⟩) schedule).2

/-- No two texts of a stored entry after a hash of the database have the same digest. -/
def CollisionFree (digest : String → String) (db : Db) : Prop :=
  ∀ e e' p p', some e ∈ stored db → some e' ∈ stored db → Root db p → Root db p' →
    digest (e.raw p) = digest (e'.raw p') → e.raw p = e'.raw p'

theorem CollisionFree.mono {db db' : Db} (h : CollisionFree digest db') (hsub : stored db ⊆ stored db') :
    CollisionFree digest db :=
  fun e e' p p' he he' hp hp' => h e e' p p' (hsub he) (hsub he') (hp.mono hsub) (hp'.mono hsub)

/-- The entry behind a new one was made after an older hash than that of the new one: a chain that verifies after the
insertion of an entry has it at its end. -/
theorem verify_insert (hlen : ∀ s, (digest s).length = 64) (hp : Placed calls c) (hc : Rooted digest c) {i : ι}
    (hpc : c.pc (.caller i) = .locked)
    (hfree : CollisionFree digest
      (c.shared.db.insert (calls i).id (some ((calls i).entry digest c.shared.prevHash))))
    (hv : verifyChain digest
      (c.shared.db.insert (calls i).id (some ((calls i).entry digest c.shared.prevHash))) = true) :
    verifyChain digest c.shared.db = true ∧ ∀ k ∈ c.shared.db, k < (calls i).id := by
  set e := (calls i).entry digest c.shared.prevHash with he
  have hfresh := hp.fresh hpc
  have hroot : ∀ p, Root c.shared.db p → Root (c.shared.db.insert (calls i).id (some e)) p :=
    fun p h => h.mono (stored_subset_insert hfresh _)
  have hmem : ∀ {f}, some f ∈ stored c.shared.db → some f ∈ stored (c.shared.db.insert (calls i).id (some e)) :=
    fun h => stored_subset_insert hfresh _ h
  have hself : some e ∈ stored (c.shared.db.insert (calls i).id (some e)) := (mem_stored_insert hfresh _).2 (Or.inl rfl)
  rw [verifyChain_iff] at hv
  obtain ⟨xs, ys, hdb, hins, hys⟩ := stored_insert hfresh (some e)
  rw [hins] at hv
  cases ys with
  | nil =>
    rw [List.append_nil] at hdb
    rw [verifyChain_iff, hdb]
    exact ⟨(chain_concat.1 hv).1, hys.1 rfl⟩
  | cons y ys =>
    exfalso
    have hy : y ∈ stored c.shared.db := by rw [hdb]; simp
    obtain ⟨f, hf, hpass⟩ := ok_of_chain_insert hv
    obtain ⟨⟨k, w⟩, hkv, hw⟩ := List.mem_map.1 hy
    obtain ⟨f', p, hf', -, hp, hhash⟩ := hc.entries k w hkv
    obtain rfl : f = f' := Option.some.inj (hf.symm.trans (hw.symm.trans hf'))
    rw [hf] at hy
    -- the hash that `f` follows is the one it was made after
    have hp_eq : e.chainHash = p := AuditEntry.raw_prev_inj
      (hfree f f _ _ (hmem hy) (hmem hy) (Or.inr ⟨e, hself, rfl⟩) (hroot p hp) (hpass.trans hhash))
    rcases hp with hgen | ⟨g, hg, hgh⟩
    · have hlen_e : e.chainHash.length = 64 := hlen _
      rw [hp_eq, hgen] at hlen_e
      exact absurd hlen_e (by decide)
    · obtain ⟨⟨k', w'⟩, hkv', hw'⟩ := List.mem_map.1 hg
      obtain ⟨g', q, hg', hid, hq, hghash⟩ := hc.entries k' w' hkv'
      obtain rfl : g = g' := Option.some.inj (hw'.symm.trans hg')
      have hraw : e.raw c.shared.prevHash = g.raw q := hfree e g _ _ hself (hmem hg) (hroot _ hc.prevHash) (hroot q hq)
        (hp_eq.trans (hgh.trans hghash))
      have hid' : (calls i).id = k' := (AuditEntry.raw_inj.1 hraw).1.trans hid
      exact hfresh (hid' ▸ SortedMap.mem_iff_mem_toList.2 ⟨w', hkv'⟩)

variable (digest calls c) in
/-- A step stores an entry, or it leaves the database as it is and is in turn. -/
theorem step_db [DecidableEq ι] (a : Actor ι) :
    (∃ i, a = .caller i ∧ c.pc (.caller i) = .locked ∧ (calls i).stores = true ∧
      (step (next digest calls) c a).shared.db =
        c.shared.db.insert (calls i).id (some ((calls i).entry digest c.shared.prevHash))) ∨
    ((step (next digest calls) c a).shared.db = c.shared.db ∧ InTurn calls c a) := by
  cases hn : next digest calls a (c.pc a) c.shared with
  | none =>
    rw [step_of_none hn]
    refine Or.inr ⟨rfl, ?_⟩
    cases a with
    | opener b => exact trivial
    | caller i =>
      intro hpc hst
      rw [hpc] at hn
      simp [next, hst] at hn
  | some r =>
    rw [step_of_some hn]
    obtain ⟨b, prevHash, rfl, -, -, rfl⟩ | ⟨i, rfl, hcases⟩ := next_cases digest calls hn
    · exact Or.inr ⟨rfl, trivial⟩
    · obtain ⟨hpc, -, rfl⟩ | ⟨hpc, -, rfl⟩ | ⟨hpc, hst, rfl⟩ | ⟨hpc, hst, rfl⟩ | ⟨chainHash, hpc, rfl⟩ := hcases
      · exact Or.inr ⟨rfl, fun h => by simp [hpc] at h⟩
      · exact Or.inr ⟨rfl, fun h => by simp [hpc] at h⟩
      · exact Or.inl ⟨i, rfl, hpc, hst, rfl⟩
      · exact Or.inr ⟨rfl, fun _ h => by simp [hst] at h⟩
      · exact Or.inr ⟨rfl, fun h => by simp [hpc] at h⟩

/-- A chain that verifies has been stored in turn. -/
theorem in_turn_of_verify [DecidableEq ι] (hlen : ∀ s, (digest s).length = 64) {schedule : List (Actor ι)}
    (hfree : CollisionFree digest (run digest calls schedule).shared.db)
    (hv : verifyChain digest (run digest calls schedule).shared.db = true) :
    ∀ pre a, pre ++ [a] <+: schedule → InTurn calls (run digest calls pre) a := by
  -- backwards over the schedule: a chain that verifies after a step verified before it
  induction schedule using List.reverseRecOn with
  | nil =>
    intro pre a h
    simp at h
  | append_singleton sched b ih =>
    have hp : Placed calls (run digest calls sched) := placed_run sched
    have hr : Rooted digest (run digest calls sched) := rooted_run sched
    rw [run, exec_concat] at hfree hv
    rw [← run] at hfree hv
    have hstep : verifyChain digest (run digest calls sched).shared.db = true ∧
        CollisionFree digest (run digest calls sched).shared.db ∧ InTurn calls (run digest calls sched) b := by
      obtain ⟨i, rfl, hpc, -, hdb⟩ | ⟨hdb, hturn⟩ := step_db digest calls (run digest calls sched) b
      · rw [hdb] at hfree hv
        obtain ⟨hv', hlast⟩ := verify_insert hlen hp hr hpc hfree hv
        exact ⟨hv', hfree.mono (stored_subset_insert (hp.fresh hpc) _), fun _ _ => hlast⟩
      · rw [hdb] at hfree hv
        exact ⟨hv, hfree, hturn⟩
    intro pre a hpre
    rcases List.prefix_concat_iff.1 hpre with heq | hpre
    · obtain ⟨rfl, hab⟩ := List.append_inj' heq rfl
      rw [List.singleton_inj.1 hab]
      exact hstep.2.2
    · exact ih hstep.2.1 hstep.1 pre a hpre

/-- **When the audit chain verifies.** In every state of every schedule of calls and reopenings: if each entry was stored
when no larger id was, `verify_chain` returns true; and short of a collision it returns true only then. -/
theorem verify_chain_iff [DecidableEq ι] (digest : String → String) (calls : ι → LogCall) (schedule : List (Actor ι)) :
    ((∀ pre a, pre ++ [a] <+: schedule → InTurn calls (run digest calls pre) a) →
      verifyChain digest (run digest calls schedule).shared.db = true) ∧
    ((∀ s, (digest s).length = 64) → CollisionFree digest (run digest calls schedule).shared.db →
      verifyChain digest (run digest calls schedule).shared.db = true →
      ∀ pre a, pre ++ [a] <+: schedule → InTurn calls (run digest calls pre) a) :=
  ⟨verify_of_in_turn, fun hlen => in_turn_of_verify hlen⟩

/-- Two logins; the second one draws the larger id. -/
def logins (second : Bool) : LogCall where
  user := "admin"
  role := "Admin"
  action := .login
  target := "login"
  result := .success
  sourceIp := "127.0.0.1"
  detail := ""
  generateId := some (if second then 1 else 0)
  timestamp := "2025-01-01T00:00:00.000000000Z"
  serializeOk := true
  insertOk := true

/-- One login, and the database opened again. -/
theorem verify_chain_login : verifyChain Sha256.hexDigest (run Sha256.hexDigest logins
      [.caller false, .caller false, .caller false, .caller false, .opener false]).shared.db = true ∧
    ∀ pre a, pre ++ [a] <+: [.caller false, .caller false, .caller false, .caller false, .opener false] →
      InTurn logins (run Sha256.hexDigest logins pre) a := by
  obtain ⟨hverify, hturn⟩ := verify_chain_iff Sha256.hexDigest logins
    [.caller false, .caller false, .caller false, .caller false, .opener false]
  have hdb : stored (run Sha256.hexDigest logins
      [.caller false, .caller false, .caller false, .caller false, .opener false]).shared.db =
      [some ((logins false).entry Sha256.hexDigest genesis)] := rfl
  have hne : Sha256.hexDigest (((logins false).entry Sha256.hexDigest genesis).raw genesis) ≠
      Sha256.hexDigest (((logins false).entry Sha256.hexDigest genesis).raw
        ((logins false).entry Sha256.hexDigest genesis).chainHash) := by decide +kernel
  have hfree : CollisionFree Sha256.hexDigest (run Sha256.hexDigest logins
      [.caller false, .caller false, .caller false, .caller false, .opener false]).shared.db := by
    intro e e' p p' he he' hp hp' hd
    simp only [Root, hdb, List.mem_singleton, Option.some.injEq, exists_eq_left] at he he' hp hp'
    subst he he'
    rcases hp with rfl | rfl <;> rcases hp' with rfl | rfl
    · rfl
    · exact absurd hd hne
    · exact absurd hd.symm hne
    · rfl
  have hv : verifyChain Sha256.hexDigest (run Sha256.hexDigest logins
      [.caller false, .caller false, .caller false, .caller false, .opener false]).shared.db = true := by
    rw [verifyChain_iff, hdb]
    exact ⟨passes_entry _ _, trivial⟩
  have hturn := hturn Sha256.length_hexDigest hfree hv
  exact ⟨hverify hturn, hturn⟩

/-- Both draw their ids, and the second one takes the lock first. -/
theorem verify_chain_overtaken :
    (∀ i, ((run Sha256.hexDigest logins [.caller false, .caller true, .caller true, .caller true, .caller true,
      .caller false, .caller false, .caller false]).pc (.caller i)) = .done) ∧
    verifyChain Sha256.hexDigest (run Sha256.hexDigest logins [.caller false, .caller true, .caller true, .caller true,
      .caller true, .caller false, .caller false, .caller false]).shared.db = false := by
  refine ⟨fun i => by cases i <;> rfl, ?_⟩
  have hdb : stored (run Sha256.hexDigest logins [.caller false, .caller true, .caller true, .caller true,
      .caller true, .caller false, .caller false, .caller false]).shared.db =
      [some ((logins false).entry Sha256.hexDigest ((logins true).entry Sha256.hexDigest genesis).chainHash),
        some ((logins true).entry Sha256.hexDigest genesis)] := rfl
  rw [← Bool.not_eq_true, verifyChain_iff, hdb, chain_cons]
  rintro ⟨⟨e, he, hpass⟩, -⟩
  rw [← Option.some.inj he] at hpass
  revert hpass
  decide +kernel

end ThorFirewall.Audit
