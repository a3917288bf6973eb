import Mathlib
import ThorFirewall.Control.BreakGlass

/-!
# Coherent emergency modes

When no break-glass call is in flight, block-all and allow-all should not both be set, and the system should be active
exactly when some mode is. The commands store the flags one by one without a common lock, and nothing clears one mode
when the other is entered.

* `coherent_of_guarded`: every run in which no store is made while another call is in the midst of writing the other
  value, and no mode is entered while the opposite one is set, is coherent whenever it is quiescent;
* `coherent_iff`: this, and every interleaving of a set of calls is coherent exactly when no two of their valid tokens conflict.
-/

namespace ThorFirewall.BreakGlass

open Interleaving

variable {ι : Type*} {env : BreakGlassProcessor} {calls : ι → Call} {c : Config ι SystemEmergencyState Pc} {i : ι}

/-- No call is in flight. -/
def Quiescent (c : Config ι SystemEmergencyState Pc) : Prop := ∀ i, c.pc i = .start ∨ ∃ result, c.pc i = .done result

/-- Not both block-all and allow-all, and active exactly in some mode. -/
def Coherent (flags : Flag → Bool) : Prop :=
  ¬ (flags .blockAll = true ∧ flags .allowAll = true) ∧
    (flags .active = true ↔ flags .aiFrozen = true ∨ flags .blockAll = true ∨ flags .allowAll = true)

/-! ## The stores of the commands -/

section Stores

variable {command : BreakGlassCommand} {k : ℕ} {flag : Flag} {value : Bool}

theorem mem_stores_of_getElem? (h : (stores command)[k]? = some (flag, value)) : (flag, value) ∈ stores command :=
  List.mem_of_getElem? h

/-- Only a restoration clears flags. -/
theorem stores_false_iff {s : Flag × Bool} (h : s ∈ stores command) : s.2 = false ↔ command = .restoreNormal := by
  cases command <;> simp only [stores, List.mem_cons, List.not_mem_nil, or_false] at h
  case restoreNormal => rcases h with rfl | rfl | rfl | rfl <;> simp
  case fullLockdown => rcases h with rfl | rfl | rfl <;> simp
  case freezeAi => rcases h with rfl | rfl <;> simp
  case forceAllowAll => rcases h with rfl | rfl <;> simp
  case emergencyBlockAll => rcases h with rfl | rfl <;> simp

/-- A command stores one value only. -/
theorem stores_value {s s' : Flag × Bool} (h : s ∈ stores command) (h' : s' ∈ stores command) : s.2 = s'.2 := by
  rw [Bool.eq_iff_iff, ← not_iff_not, Bool.not_eq_true, Bool.not_eq_true, stores_false_iff h, stores_false_iff h']

/-- The last store is to `active`, and no other. -/
theorem stores_active (h : (stores command)[k]? = some (flag, value)) :
    flag = .active ↔ k + 1 = (stores command).length := by
  have hk : k < (stores command).length := (List.getElem?_eq_some_iff.1 h).1
  cases command <;> simp only [stores, List.length_cons, List.length_nil] at hk h ⊢ <;> interval_cases k <;>
    simp at h <;> obtain ⟨rfl, rfl⟩ := h <;> simp

/-- Before a command sets `active` it has entered some mode. -/
theorem stores_enter (h : (stores command)[k]? = some (.active, true)) :
    ∃ m < k, ∃ f, f ≠ .active ∧ (stores command)[m]? = some (f, true) := by
  have hk : k < (stores command).length := (List.getElem?_eq_some_iff.1 h).1
  refine ⟨0, ?_⟩
  cases command <;> simp only [stores, List.length_cons, List.length_nil] at hk h ⊢ <;> interval_cases k <;>
    simp at h ⊢

/-- Before a command clears `active` it has left every mode. -/
theorem stores_leave (h : (stores command)[k]? = some (.active, false)) {f : Flag} (hf : f ≠ .active) :
    ∃ m < k, (stores command)[m]? = some (f, false) := by
  have hk : k < (stores command).length := (List.getElem?_eq_some_iff.1 h).1
  cases command <;> simp only [stores, List.length_cons, List.length_nil] at hk h ⊢ <;> interval_cases k <;>
    simp at h
  cases f
  · exact absurd rfl hf
  · exact ⟨0, by omega, rfl⟩
  · exact ⟨1, by omega, rfl⟩
  · exact ⟨2, by omega, rfl⟩

theorem active_mem_stores {s : Flag × Bool} (h : s ∈ stores command) (hs : s.2 = true) :
    (.active, true) ∈ stores command := by
  have hne : command ≠ .restoreNormal := by
    rintro rfl
    rw [(stores_false_iff h).2 rfl] at hs
    cases hs
  cases command <;> simp [stores] at h hne ⊢

/-- Of two commands that store different values one restores and the other activates. -/
theorem stores_cases {a b : BreakGlassCommand} {s s' : Flag × Bool} (hs : s ∈ stores a) (hs' : s' ∈ stores b)
    (hne : s.2 ≠ s'.2) :
    a = .restoreNormal ∧ (.active, true) ∈ stores b ∨ b = .restoreNormal ∧ (.active, true) ∈ stores a := by
  cases hv : s.2 with
  | false =>
    have hv' : s'.2 = true := by simpa [hv] using hne
    exact Or.inl ⟨(stores_false_iff hs).1 hv, active_mem_stores hs' hv'⟩
  | true =>
    have hv' : s'.2 = false := by simpa [hv] using hne
    exact Or.inr ⟨(stores_false_iff hs').1 hv', active_mem_stores hs hv⟩

/-- No command enters both block-all and allow-all. -/
theorem stores_exclusive : ¬ ((.blockAll, true) ∈ stores command ∧ (.allowAll, true) ∈ stores command) := by
  cases command <;> simp [stores]

end Stores

/-! ## Runs that guard their stores -/

/-- The call has made some of the stores of its command and not all. -/
def Midway (c : Config ι SystemEmergencyState Pc) (i : ι) (token : BreakGlassToken) (k : ℕ) : Prop :=
  c.pc i = .applying token k ∧ 0 < k ∧ k < (stores token.command).length

/-- If the next step of the call is a store, no other call is in the midst of stores of the other value, and it does not
set one of block-all and allow-all while the other is set. -/
def Guarded (c : Config ι SystemEmergencyState Pc) (i : ι) : Prop :=
  ∀ token k flag value, c.pc i = .applying token k → (stores token.command)[k]? = some (flag, value) →
    (∀ j token' k', j ≠ i → Midway c j token' k' → ∀ s ∈ stores token'.command, s.2 = value) ∧
    (value = true → (flag = .blockAll → c.shared.flags .allowAll = false) ∧
      (flag = .allowAll → c.shared.flags .blockAll = false))

/-- The invariant of guarded runs. -/
structure Steady (c : Config ι SystemEmergencyState Pc) : Prop where
  exclusive : ¬ (c.shared.flags .blockAll = true ∧ c.shared.flags .allowAll = true)
  /-- What a call in the midst of its stores has stored is still there. -/
  written : ∀ i token k, Midway c i token k → ∀ m < k, ∀ flag value,
    (stores token.command)[m]? = some (flag, value) → c.shared.flags flag = value
  active : c.shared.flags .active = true → (∃ flag, flag ≠ .active ∧ c.shared.flags flag = true) ∨
    ∃ i token k, Midway c i token k ∧ ∀ s ∈ stores token.command, s.2 = false
  mode : ∀ flag, flag ≠ .active → c.shared.flags flag = true → c.shared.flags .active = true ∨
    ∃ i token k, Midway c i token k ∧ ∀ s ∈ stores token.command, s.2 = true

/-- A quiescent configuration has no call in the midst of its stores. -/
theorem Quiescent.not_midway (hq : Quiescent c) (i : ι) (token : BreakGlassToken) (k : ℕ) : ¬ Midway c i token k := by
  rintro ⟨hpc, -, -⟩
  rcases hq i with h | ⟨r, h⟩ <;> rw [h] at hpc <;> cases hpc

theorem Steady.coherent (h : Steady c) (hq : Quiescent c) : Coherent c.shared.flags := by
  refine ⟨h.exclusive, fun ha => ?_, fun hm => ?_⟩
  · rcases h.active ha with ⟨flag, hne, hf⟩ | ⟨i, token, k, hmid, -⟩
    · cases flag
      · exact absurd rfl hne
      · exact Or.inl hf
      · exact Or.inr (Or.inl hf)
      · exact Or.inr (Or.inr hf)
    · exact absurd hmid (hq.not_midway i token k)
  · have hmode : ∃ flag, flag ≠ .active ∧ c.shared.flags flag = true := by
      rcases hm with hf | hf | hf
      · exact ⟨_, by simp, hf⟩
      · exact ⟨_, by simp, hf⟩
      · exact ⟨_, by simp, hf⟩
    obtain ⟨flag, hne, hf⟩ := hmode
    rcases h.mode flag hne hf with ha | ⟨i, token, k, hmid, -⟩
    · exact ha
    · exact absurd hmid (hq.not_midway i token k)

theorem steady_new : Steady (begin .new : Config ι SystemEmergencyState Pc) := by
  refine ⟨?_, ?_, ?_, ?_⟩
  · rintro ⟨h, -⟩
    cases h
  · rintro i token k ⟨h, -, -⟩
    cases h
  · intro h
    cases h
  · intro flag _ h
    cases h

/-- What a call has stored before its next store. -/
theorem Steady.written_before (h : Steady c) {token : BreakGlassToken} {k : ℕ} {s : Flag × Bool}
    (hpc : c.pc i = .applying token k) (hk : (stores token.command)[k]? = some s) {m : ℕ} (hm : m < k) {f : Flag}
    {v : Bool} (hf : (stores token.command)[m]? = some (f, v)) : c.shared.flags f = v :=
  h.written i token k ⟨hpc, by omega, (List.getElem?_eq_some_iff.1 hk).1⟩ m hm f v hf

variable [DecidableEq ι]

/-- A step that stores nothing, by a call that is not in the midst of its stores. -/
theorem Steady.keep (h : Steady c) {r : Pc × SystemEmergencyState} (hflags : r.2.flags = c.shared.flags)
    (hbefore : ∀ token k, ¬ Midway c i token k) (hafter : ∀ token k, ¬ Midway (c.set i r) i token k) :
    Steady (c.set i r) := by
  have hmid : ∀ j token k, Midway (c.set i r) j token k ↔ Midway c j token k := by
    intro j token k
    by_cases hj : j = i
    · subst hj
      exact iff_of_false (hafter token k) (hbefore token k)
    · rw [Midway, Midway, Config.set_pc_ne _ _ hj]
  refine ⟨?_, ?_, ?_, ?_⟩
  · rw [Config.set_shared, hflags]
    exact h.exclusive
  · intro j token k hj
    rw [Config.set_shared, hflags]
    exact h.written j token k ((hmid j token k).1 hj)
  · simp only [hmid, Config.set_shared, hflags]
    exact h.active
  · simp only [hmid, Config.set_shared, hflags]
    exact h.mode

section Store

variable {token : BreakGlassToken} {k : ℕ} {flag : Flag} {value : Bool}

/-- The configuration after a store. -/
def stored (c : Config ι SystemEmergencyState Pc) (i : ι) (token : BreakGlassToken) (k : ℕ) (flag : Flag)
    (value : Bool) : Config ι SystemEmergencyState Pc :=
  c.set i (.applying token (k + 1), { c.shared with flags := Function.update c.shared.flags flag value })

@[simp] theorem stored_flags (f : Flag) : (stored c i token k flag value).shared.flags f =
    if f = flag then value else c.shared.flags f := by
  simp [stored, Function.update_apply]

theorem midway_stored_ne {j : ι} (hj : j ≠ i) {token' : BreakGlassToken} {k' : ℕ} :
    Midway (stored c i token k flag value) j token' k' ↔ Midway c j token' k' := by
  rw [Midway, Midway, stored, Config.set_pc_ne _ _ hj]

/-- A store that is not the last one leaves the call in the midst of its stores. -/
theorem midway_stored (hk : k + 1 < (stores token.command).length) :
    Midway (stored c i token k flag value) i token (k + 1) :=
  ⟨Config.set_pc_self .., Nat.succ_pos k, hk⟩

variable (h : Steady c) (hg : Guarded c i) (hpc : c.pc i = .applying token k)
  (hk : (stores token.command)[k]? = some (flag, value))

include h hg hpc hk

theorem Steady.written_stored {j : ι} {token' : BreakGlassToken} {k' : ℕ}
    (hmid : Midway (stored c i token k flag value) j token' k') {m : ℕ} (hm : m < k') {f : Flag} {v : Bool}
    (hf : (stores token'.command)[m]? = some (f, v)) : (stored c i token k flag value).shared.flags f = v := by
  rw [stored_flags]
  by_cases hj : j = i
  · subst hj
    obtain ⟨hpc', -, -⟩ := hmid
    rw [stored, Config.set_pc_self] at hpc'
    cases hpc'
    have hvalue : v = value := stores_value (mem_stores_of_getElem? hf) (mem_stores_of_getElem? hk)
    split_ifs with hff
    · exact hvalue.symm
    · have hmk : m ≠ k := by
        rintro rfl
        rw [hk] at hf
        cases hf
        exact hff rfl
      exact h.written_before hpc hk (by omega) hf
  · have hold := (midway_stored_ne hj).1 hmid
    split_ifs with hff
    · exact ((hg token k flag value hpc hk).1 j token' k' hj hold _ (mem_stores_of_getElem? hf)).symm
    · exact h.written j token' k' hold m hm f v hf

/-- A guarded store. -/
theorem Steady.store : Steady (stored c i token k flag value) := by
  obtain ⟨hcalm, hopposite⟩ := hg token k flag value hpc hk
  have hall : ∀ s ∈ stores token.command, s.2 = value := fun s hs => stores_value hs (mem_stores_of_getElem? hk)
  have hlen : k < (stores token.command).length := (List.getElem?_eq_some_iff.1 hk).1
  have hnotlast : flag ≠ .active → k + 1 < (stores token.command).length := by
    intro hne
    have := mt (stores_active hk).2 hne
    omega
  refine ⟨?_, fun j token' k' hmid m hm f v hf => h.written_stored hg hpc hk hmid hm hf, ?_, ?_⟩
  · rintro ⟨hb, ha⟩
    rw [stored_flags] at hb ha
    split_ifs at hb ha with hbf haf haf
    · rw [← hbf] at haf
      cases haf
    · rw [(hopposite hb).1 hbf.symm] at ha
      cases ha
    · rw [(hopposite ha).2 haf.symm] at hb
      cases hb
    · exact h.exclusive ⟨hb, ha⟩
  · intro hact
    by_cases hflag : flag = .active
    · subst hflag
      simp only [stored_flags, if_true] at hact
      subst hact
      -- the mode entered before `active` was set
      obtain ⟨m, hm, f, hf, hfm⟩ := stores_enter hk
      refine Or.inl ⟨f, hf, ?_⟩
      rw [stored_flags, if_neg hf]
      exact h.written_before hpc hk hm hfm
    · cases value with
      | true => exact Or.inl ⟨flag, hflag, by simp⟩
      | false => exact Or.inr ⟨i, token, k + 1, midway_stored (hnotlast hflag), hall⟩
  · intro f hf hftrue
    by_cases hflag : flag = .active
    · subst hflag
      cases value with
      | true => exact Or.inl (by simp)
      | false =>
        obtain ⟨m, hm, hfm⟩ := stores_leave hk hf
        rw [stored_flags, if_neg hf, h.written_before hpc hk hm hfm] at hftrue
        cases hftrue
    · cases value with
      | true => exact Or.inr ⟨i, token, k + 1, midway_stored (hnotlast hflag), hall⟩
      | false =>
        -- the flag was set before, and no call is in the midst of setting one
        rw [stored_flags] at hftrue ⊢
        split_ifs at hftrue with hff
        rw [if_neg (Ne.symm hflag)]
        rcases h.mode f hf hftrue with ha | ⟨j, token', k', hmid, htrue⟩
        · exact Or.inl ha
        · obtain ⟨s, hs⟩ := List.exists_mem_of_length_pos (Nat.lt_of_le_of_lt (Nat.zero_le _) hmid.2.2)
          have hfalse : s.2 = false := by
            by_cases hj : j = i
            · subst hj
              have hpc' := hmid.1
              rw [hpc] at hpc'
              cases hpc'
              exact hall s hs
            · exact hcalm j token' k' hj hmid s hs
          rw [htrue s hs] at hfalse
          cases hfalse

end Store

/-- One step. -/
theorem Steady.step (h : Steady c) (hg : Guarded c i) {r : Pc × SystemEmergencyState}
    (hs : process env calls i (c.pc i) c.shared = some r) : Steady (c.set i r) := by
  generalize hpc : c.pc i = pc at hs
  cases process_cases hs with
  | silent _ pc' hn hn' =>
    refine h.keep rfl (fun token k hmid => ?_) fun token k hmid => ?_
    · rw [← hpc, hmid.1] at hn
      exact hn trivial
    · have hpc' : pc' = .applying token k := by simpa using hmid.1
      rw [hpc'] at hn'
      exact hn' trivial
  | consume token =>
    refine h.keep rfl (fun token' k hmid => ?_) fun token' k hmid => ?_
    · have hpc' := hmid.1
      rw [hpc] at hpc'
      cases hpc'
    · obtain ⟨hpc', hpos, -⟩ := hmid
      rw [Config.set_pc_self] at hpc'
      cases hpc'
      exact absurd hpos (lt_irrefl 0)
  | store token k flag value hk => exact h.store hg hpc hk
  | log token k hk =>
    refine h.keep rfl (fun token' k' hmid => ?_) fun token' k' hmid => ?_
    · obtain ⟨hpc', -, hlt⟩ := hmid
      rw [hpc] at hpc'
      cases hpc'
      rw [List.getElem?_eq_none_iff] at hk
      omega
    · have hpc' := hmid.1
      rw [Config.set_pc_self] at hpc'
      cases hpc'

/-- **Guarded runs** are coherent whenever they are quiescent. -/
theorem coherent_of_guarded {schedule : List ι}
    (hG : ∀ pre i, pre ++ [i] <+: schedule → Guarded (run env calls pre) i) (hq : Quiescent (run env calls schedule)) :
    Coherent (run env calls schedule).shared.flags :=
  (exec_inv_of (G := Guarded) steady_new (fun _ _ _ h hg hs => h.step hg hs) hG).coherent hq

/-! ## Tokens that conflict -/

/-- The call is accepted unless its nonce has been used. -/
def Valid (env : BreakGlassProcessor) (call : Call) (token : BreakGlassToken) : Prop :=
  env.verify call.tokenJson call.signatureBytes = true ∧ env.fromSlice call.tokenJson = some token ∧
    ¬ token.expiresAt < call.now

/-- One command enters allow-all and the other block-all, or one leaves the modes that the other enters. -/
def Conflict (a b : BreakGlassCommand) : Prop :=
  (.allowAll, true) ∈ stores a ∧ (.blockAll, true) ∈ stores b ∨ a = .restoreNormal ∧ (.active, true) ∈ stores b

/-- What a call has checked when it stands at a program counter. -/
def Pc.Checked (env : BreakGlassProcessor) (call : Call) : Pc → Prop
  | .start | .done (.error _) => True
  | .verified => env.verify call.tokenJson call.signatureBytes = true
  | .parsed token =>
    env.verify call.tokenJson call.signatureBytes = true ∧ env.fromSlice call.tokenJson = some token
  | .unexpired token | .applying token _ => Valid env call token
  | .done (.ok command) => ∃ token, Valid env call token ∧ token.command = command

omit [DecidableEq ι] in
theorem Checked.step {pc : Pc} {s : SystemEmergencyState} {r : Pc × SystemEmergencyState}
    (hc : pc.Checked env (calls i)) (h : process env calls i pc s = some r) : r.1.Checked env (calls i) := by
  cases pc with
  | start =>
    simp only [process] at h
    split_ifs at h with hv <;> cases h
    · exact hv
    · trivial
  | verified =>
    simp only [process] at h
    split at h <;> cases h
    · rename_i token hparse
      exact ⟨hc, hparse⟩
    · trivial
  | parsed token =>
    simp only [process] at h
    split_ifs at h with hexp <;> cases h
    · trivial
    · exact ⟨hc.1, hc.2, hexp⟩
  | unexpired token =>
    simp only [process] at h
    split_ifs at h <;> cases h
    · trivial
    · exact hc
  | applying token k =>
    simp only [process] at h
    split at h <;> cases h
    · exact hc
    · exact ⟨token, hc, rfl⟩
  | done result => cases h

/-- What a call is at has been checked, in every run. -/
theorem checked_run (schedule : List ι) (i : ι) : ((run env calls schedule).pc i).Checked env (calls i) := by
  have h0 : ((begin .new : Config ι SystemEmergencyState Pc).pc i).Checked env (calls i) := trivial
  exact pc_stable (fun _ _ _ hk h => Checked.step hk h) h0 schedule

/-- An accepted call was given a valid token. -/
theorem valid_of_accepted {pc : Pc} {call : Call} (hc : pc.Checked env call) (ha : pc.Accepted) :
    ∃ token, Valid env call token := by
  cases pc with
  | start | verified | parsed | unexpired => exact ha.elim
  | applying token k => exact ⟨token, hc⟩
  | done result =>
    cases result with
    | error e => exact ha.elim
    | ok command =>
      obtain ⟨token, hv, -⟩ := hc
      exact ⟨token, hv⟩

theorem Valid.unique {call : Call} {token token' : BreakGlassToken} (h : Valid env call token)
    (h' : Valid env call token') : token = token' :=
  Option.some.inj (h.2.1.symm.trans h'.2.1)

/-- A set flag has been set by an accepted call. -/
def SetBy (env : BreakGlassProcessor) (calls : ι → Call) (c : Config ι SystemEmergencyState Pc) : Prop :=
  ∀ flag, c.shared.flags flag = true →
    ∃ i token, (c.pc i).Accepted ∧ Valid env (calls i) token ∧ (flag, true) ∈ stores token.command

theorem SetBy.step (hset : SetBy env calls c) (hc : (c.pc i).Checked env (calls i))
    {r : Pc × SystemEmergencyState} (hs : process env calls i (c.pc i) c.shared = some r) :
    SetBy env calls (c.set i r) := by
  have hcheck := Checked.step hc hs
  -- an accepted call stays accepted
  have hacc : ∀ j, (c.pc j).Accepted → ((c.set i r).pc j).Accepted := by
    intro j hj
    rw [Config.set_pc]
    split_ifs with hji
    · exact Accepted.step (hji ▸ hj) hs
    · exact hj
  have hold : ∀ flag, c.shared.flags flag = true → ∃ j token,
      ((c.set i r).pc j).Accepted ∧ Valid env (calls j) token ∧ (flag, true) ∈ stores token.command := by
    intro flag hf
    obtain ⟨j, token, hj, hv, hmem⟩ := hset flag hf
    exact ⟨j, token, hacc j hj, hv, hmem⟩
  generalize hpc : c.pc i = pc at hs
  cases process_cases hs with
  | silent | consume | log => exact hold
  | store token k f v hk =>
    intro flag hf
    simp only [Config.set_shared, Function.update_apply] at hf
    split_ifs at hf with hff
    · subst hff hf
      exact ⟨i, token, hacc i (by rw [hpc]; trivial), hcheck, mem_stores_of_getElem? hk⟩
    · exact hold flag hf

theorem setBy_run (env : BreakGlassProcessor) (calls : ι → Call) (schedule : List ι) :
    SetBy env calls (run env calls schedule) := by
  induction schedule using List.reverseRecOn with
  | nil =>
    intro flag hf
    cases hf
  | append_singleton pre i ih =>
    have hconcat : run env calls (pre ++ [i]) = step (process env calls) (run env calls pre) i := exec_concat ..
    rw [hconcat]
    cases hs : process env calls i ((run env calls pre).pc i) (run env calls pre).shared with
    | none => rwa [step_of_none hs]
    | some r =>
      rw [step_of_some hs]
      exact ih.step (checked_run pre i) hs

/-- Two accepted calls that are not the same have valid tokens with different nonces. -/
theorem nonce_ne {schedule : List ι} {j : ι} (hij : i ≠ j) {token token' : BreakGlassToken}
    (hi : ((run env calls schedule).pc i).Accepted) (hj : ((run env calls schedule).pc j).Accepted)
    (hv : Valid env (calls i) token) (hv' : Valid env (calls j) token') : token.nonce ≠ token'.nonce := by
  intro heq
  refine hij ((matched_run env calls schedule).unique i j hi hj ?_)
  simp [nonceOf, hv.2.1, hv'.2.1, heq]

/-- Without conflicts every step is guarded. -/
theorem guarded_of_no_conflict
    (hno : ∀ i j token token', Valid env (calls i) token → Valid env (calls j) token' →
      token.nonce ≠ token'.nonce → ¬ Conflict token.command token'.command)
    (schedule : List ι) (i : ι) : Guarded (run env calls schedule) i := by
  intro token k flag value hpc hk
  have hacc : ((run env calls schedule).pc i).Accepted := by
    rw [hpc]
    trivial
  have hvalid : Valid env (calls i) token := by
    have hc := @checked_run ι env calls _ schedule i
    rwa [hpc] at hc
  have hmem := mem_stores_of_getElem? hk
  -- who has set a flag is no other call than this one, or has another nonce
  have hopp : ∀ f, (run env calls schedule).shared.flags f = true →
      (f, true) ∈ stores token.command ∨ ∃ j token', Valid env (calls j) token' ∧
        token'.nonce ≠ token.nonce ∧ (f, true) ∈ stores token'.command := by
    intro f hf
    obtain ⟨j, token', hj, hv, hfm⟩ := setBy_run env calls schedule f hf
    by_cases hji : j = i
    · subst hji
      rw [hv.unique hvalid] at hfm
      exact Or.inl hfm
    · exact Or.inr ⟨j, token', hv, nonce_ne hji hj hacc hv hvalid, hfm⟩
  refine ⟨fun j token' k' hji hmid s hs => ?_, fun hvalue => ⟨fun hflag => ?_, fun hflag => ?_⟩⟩
  · have hj : ((run env calls schedule).pc j).Accepted := by
      rw [hmid.1]
      trivial
    have hv' : Valid env (calls j) token' := by
      have hc := @checked_run ι env calls _ schedule j
      rwa [hmid.1] at hc
    have hne := nonce_ne hji hj hacc hv' hvalid
    by_contra hvs
    rcases stores_cases hmem hs (Ne.symm hvs) with ⟨hrestore, hactive⟩ | ⟨hrestore, hactive⟩
    · exact hno i j token token' hvalid hv' (Ne.symm hne) (Or.inr ⟨hrestore, hactive⟩)
    · exact hno j i token' token hv' hvalid hne (Or.inr ⟨hrestore, hactive⟩)
  · subst hvalue hflag
    by_contra hallow
    rcases hopp .allowAll (by simpa using hallow) with hown | ⟨j, token', hv', hne, hfm⟩
    · exact stores_exclusive ⟨hmem, hown⟩
    · exact hno j i token' token hv' hvalid hne (Or.inl ⟨hfm, hmem⟩)
  · subst hvalue hflag
    by_contra hblock
    rcases hopp .blockAll (by simpa using hblock) with hown | ⟨j, token', hv', hne, hfm⟩
    · exact stores_exclusive ⟨hown, hmem⟩
    · exact hno i j token token' hvalid hv' (Ne.symm hne) (Or.inl ⟨hmem, hfm⟩)

/-! ## Schedules of conflicting calls -/

/-- The flags after some stores. -/
def applyStores (flags : Flag → Bool) (l : List (Flag × Bool)) : Flag → Bool :=
  l.foldl (fun flags s => Function.update flags s.1 s.2) flags

section Alone

variable {token : BreakGlassToken} (hpc : c.pc i = .start) (hv : Valid env (calls i) token)
  (hfresh : token.nonce ∉ c.shared.consumedNonces)

include hpc hv hfresh

/-- A call that runs alone up to its first store. -/
theorem exec_accept : exec (process env calls) c [i, i, i, i] = c.set i
    (.applying token 0, { c.shared with consumedNonces := insert token.nonce c.shared.consumedNonces }) := by
  have h1 : step (process env calls) c i = c.set i (.verified, c.shared) :=
    step_of_some (by simp [hpc, process, hv.1])
  have h2 : step (process env calls) (c.set i (.verified, c.shared)) i = c.set i (.parsed token, c.shared) := by
    rw [step_of_some (r := (.parsed token, c.shared)) (by simp [process, hv.2.1]), Config.set_set]
  have h3 : step (process env calls) (c.set i (.parsed token, c.shared)) i = c.set i (.unexpired token, c.shared) := by
    rw [step_of_some (r := (.unexpired token, c.shared)) (by simp [process, hv.2.2]), Config.set_set]
  have h4 : step (process env calls) (c.set i (.unexpired token, c.shared)) i = c.set i
      (.applying token 0, { c.shared with consumedNonces := insert token.nonce c.shared.consumedNonces }) := by
    rw [step_of_some (r := (.applying token 0,
      { c.shared with consumedNonces := insert token.nonce c.shared.consumedNonces })) (by simp [process, hfresh]),
      Config.set_set]
  simp only [exec, List.foldl_cons, List.foldl_nil, h1, h2, h3, h4]

/-- A call that runs alone up to its store `m`. -/
theorem exec_alone {m : ℕ} (hm : m ≤ (stores token.command).length) :
    exec (process env calls) c ([i, i, i, i] ++ List.replicate m i) = c.set i (.applying token m,
      { c.shared with
        consumedNonces := insert token.nonce c.shared.consumedNonces
        flags := applyStores c.shared.flags ((stores token.command).take m) }) := by
  induction m with
  | zero =>
    rw [List.replicate_zero, List.append_nil, exec_accept hpc hv hfresh]
    rfl
  | succ m ih =>
    have hlt : m < (stores token.command).length := hm
    rw [List.replicate_succ', ← List.append_assoc, exec_concat, ih hlt.le]
    generalize hs : (stores token.command)[m] = s
    have hget : (stores token.command)[m]? = some s := by rw [← hs, List.getElem?_eq_getElem hlt]
    have htake : (stores token.command).take (m + 1) = (stores token.command).take m ++ [s] := by
      rw [List.take_add_one, hget]
      rfl
    rw [step_of_some (r := (.applying token (m + 1), { c.shared with
      consumedNonces := insert token.nonce c.shared.consumedNonces
      flags := Function.update (applyStores c.shared.flags ((stores token.command).take m)) s.1 s.2 }))
      (by simp [process, hget]), Config.set_set, htake]
    simp [applyStores]

/-- A call that runs alone from its start to its end. -/
theorem exec_whole : exec (process env calls) c
    ([i, i, i, i] ++ List.replicate ((stores token.command).length + 1) i) = c.set i (.done (.ok token.command),
      { flags := applyStores c.shared.flags (stores token.command)
        consumedNonces := insert token.nonce c.shared.consumedNonces
        activationLog := c.shared.activationLog ++ [activation env token (calls i).now] }) := by
  rw [List.replicate_succ', ← List.append_assoc, exec_concat, exec_alone hpc hv hfresh le_rfl]
  rw [step_of_some (r := (.done (.ok token.command),
      { flags := applyStores c.shared.flags (stores token.command)
        consumedNonces := insert token.nonce c.shared.consumedNonces
        activationLog := c.shared.activationLog ++ [activation env token (calls i).now] })) (by simp [process]),
    Config.set_set]

end Alone

/-- Allow-all and block-all, one after the other. -/
theorem not_coherent_opposite {a b : BreakGlassCommand} (ha : (.allowAll, true) ∈ stores a)
    (hb : (.blockAll, true) ∈ stores b) :
    ¬ Coherent (applyStores (applyStores (fun _ => false) (stores a)) (stores b)) := by
  cases a <;> simp [stores] at ha
  cases b <;> simp [stores] at hb
  all_goals simp [Coherent, applyStores, stores]

/-- A command between the last two stores of a restoration. -/
theorem not_coherent_restore {b : BreakGlassCommand} (hb : (.active, true) ∈ stores b) :
    ¬ Coherent (Function.update (applyStores (applyStores (fun _ => false) ((stores .restoreNormal).take 3)) (stores b))
      .active false) := by
  cases b <;> simp [stores] at hb
  all_goals simp [Coherent, applyStores, stores]

/-- The last store of a restoration, and its entry in the log. -/
theorem step_restore {token : BreakGlassToken} (hpc : c.pc i = .applying token 3)
    (hrestore : token.command = .restoreNormal) :
    step (process env calls) (step (process env calls) c i) i = c.set i (.done (.ok token.command),
      { c.shared with
        flags := Function.update c.shared.flags .active false
        activationLog := c.shared.activationLog ++ [activation env token (calls i).now] }) := by
  have hlast : step (process env calls) c i = c.set i (.applying token 4,
      { c.shared with flags := Function.update c.shared.flags .active false }) :=
    step_of_some (by simp [process, hpc, hrestore, stores])
  rw [hlast, step_of_some (r := (.done (.ok token.command), { c.shared with
      flags := Function.update c.shared.flags .active false
      activationLog := c.shared.activationLog ++ [activation env token (calls i).now] }))
      (by simp [process, hrestore, stores]), Config.set_set]

/-- Two valid calls with different nonces, one after the other, that allow all and block all. -/
theorem incoherent_opposite {j : ι} {token token' : BreakGlassToken} (hv : Valid env (calls i) token)
    (hv' : Valid env (calls j) token') (hne : token.nonce ≠ token'.nonce)
    (ha : (.allowAll, true) ∈ stores token.command) (hb : (.blockAll, true) ∈ stores token'.command) :
    Quiescent (run env calls (([i, i, i, i] ++ List.replicate ((stores token.command).length + 1) i) ++
      ([j, j, j, j] ++ List.replicate ((stores token'.command).length + 1) j))) ∧
    ¬ Coherent (run env calls (([i, i, i, i] ++ List.replicate ((stores token.command).length + 1) i) ++
      ([j, j, j, j] ++ List.replicate ((stores token'.command).length + 1) j))).shared.flags := by
  have hij : j ≠ i := by
    rintro rfl
    exact hne (by rw [hv.unique hv'])
  rw [run, exec_append, exec_whole rfl hv (by simp [begin, SystemEmergencyState.new]),
    exec_whole (by rw [Config.set_pc_ne _ _ hij]; rfl) hv' (by simp [begin, SystemEmergencyState.new, Ne.symm hne])]
  refine ⟨fun l => ?_, not_coherent_opposite ha hb⟩
  rw [Config.set_pc, Config.set_pc]
  split_ifs
  · exact Or.inr ⟨_, rfl⟩
  · exact Or.inr ⟨_, rfl⟩
  · exact Or.inl rfl

/-- Two valid calls with different nonces that conflict have an incoherent schedule. -/
theorem exists_incoherent {j : ι} {token token' : BreakGlassToken} (hv : Valid env (calls i) token)
    (hv' : Valid env (calls j) token') (hne : token.nonce ≠ token'.nonce)
    (hconf : Conflict token.command token'.command) :
    ∃ schedule, Quiescent (run env calls schedule) ∧ ¬ Coherent (run env calls schedule).shared.flags := by
  have hij : j ≠ i := by
    rintro rfl
    exact hne (by rw [hv.unique hv'])
  rcases hconf with ⟨ha, hb⟩ | ⟨hrestore, hb⟩
  · exact ⟨_, incoherent_opposite hv hv' hne ha hb⟩
  · refine ⟨([i, i, i, i] ++ List.replicate 3 i) ++
      ([j, j, j, j] ++ List.replicate ((stores token'.command).length + 1) j) ++ [i] ++ [i], ?_⟩
    have hlen : 3 ≤ (stores token.command).length := by simp [hrestore, stores]
    rw [run, exec_concat, exec_concat, exec_append, exec_alone rfl hv (by simp [begin, SystemEmergencyState.new]) hlen,
      exec_whole (by rw [Config.set_pc_ne _ _ hij]; rfl) hv'
        (by simp [begin, SystemEmergencyState.new, Ne.symm hne]),
      step_restore (by rw [Config.set_pc_ne _ _ (Ne.symm hij), Config.set_pc_self]) hrestore]
    refine ⟨fun l => ?_, ?_⟩
    · rw [Config.set_pc, Config.set_pc, Config.set_pc]
      split_ifs
      · exact Or.inr ⟨_, rfl⟩
      · exact Or.inr ⟨_, rfl⟩
      · exact Or.inl rfl
    · rw [hrestore]
      exact not_coherent_restore hb

/-- **Coherent modes.** A run is coherent in every quiescent state if all its steps are guarded; and every interleaving
of a set of calls is coherent in every quiescent state exactly when no two of their valid tokens with different nonces
conflict. -/
theorem coherent_iff (env : BreakGlassProcessor) (calls : ι → Call) :
    (∀ schedule, (∀ pre i, pre ++ [i] <+: schedule → Guarded (run env calls pre) i) →
      Quiescent (run env calls schedule) → Coherent (run env calls schedule).shared.flags) ∧
    ((∀ schedule, Quiescent (run env calls schedule) → Coherent (run env calls schedule).shared.flags) ↔
      ∀ i j token token', Valid env (calls i) token → Valid env (calls j) token' → token.nonce ≠ token'.nonce →
        ¬ Conflict token.command token'.command) := by
  refine ⟨fun schedule hG hq => coherent_of_guarded hG hq, fun h i j token token' hv hv' hne hconf => ?_,
    fun hno schedule hq => coherent_of_guarded (fun pre i _ => guarded_of_no_conflict hno pre i) hq⟩
  obtain ⟨schedule, hq, hbad⟩ := exists_incoherent hv hv' hne hconf
  exact hbad (h schedule hq)

/-- The text of a token. -/
def tokenText (command nonce : String) : String :=
  "\x7b\"issued_at\":1734567890,\"expires_at\":1734568490,\"issued_by\":\"CISO_ALICE\",\"command\":\"" ++ command ++
    "\",\"target_scope\":\"global\",\"reason\":\"drill\",\"nonce\":\"" ++ nonce ++ "\"\x7d"

/-- A processor for two tokens of the security officer. -/
def officer : BreakGlassProcessor where
  verify json sig := (json = (tokenText "FORCE_ALLOW_ALL" "n1").toUTF8.toList ∨
    json = (tokenText "EMERGENCY_BLOCK_ALL" "n2").toUTF8.toList) ∧ sig = Vector.replicate 64 0
  fromSlice json :=
    if json = (tokenText "FORCE_ALLOW_ALL" "n1").toUTF8.toList then
      some ⟨1734567890, 1734568490, "CISO_ALICE", .forceAllowAll, "global", "drill", "n1"⟩
    else if json = (tokenText "EMERGENCY_BLOCK_ALL" "n2").toUTF8.toList then
      some ⟨1734567890, 1734568490, "CISO_ALICE", .emergencyBlockAll, "global", "drill", "n2"⟩
    else none
  printable _ := true

/-- The two tokens, submitted within their validity. -/
def drill (i : Bool) : Call :=
  ⟨(if i then tokenText "EMERGENCY_BLOCK_ALL" "n2" else tokenText "FORCE_ALLOW_ALL" "n1").toUTF8.toList,
    Vector.replicate 64 0, 1734567900⟩

/-- Processed one after the other they leave both modes set. -/
theorem coherent_drill : Quiescent (run officer drill (List.replicate 7 false ++ List.replicate 7 true)) ∧
    ¬ Coherent (run officer drill (List.replicate 7 false ++ List.replicate 7 true)).shared.flags := by
  have htexts : (tokenText "EMERGENCY_BLOCK_ALL" "n2").toUTF8.toList ≠
      (tokenText "FORCE_ALLOW_ALL" "n1").toUTF8.toList := by decide +kernel
  have hallow : Valid officer (drill false)
      ⟨1734567890, 1734568490, "CISO_ALICE", .forceAllowAll, "global", "drill", "n1"⟩ := by
    simp [Valid, officer, drill]
  have hblock : Valid officer (drill true)
      ⟨1734567890, 1734568490, "CISO_ALICE", .emergencyBlockAll, "global", "drill", "n2"⟩ := by
    simpa [Valid, officer, drill] using htexts
  have hboth := incoherent_opposite hallow hblock (by decide) (by decide) (by decide)
  simp only [stores, List.length_cons, List.length_nil, Nat.reduceAdd] at hboth
  exact hboth

end ThorFirewall.BreakGlass
