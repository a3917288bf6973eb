import Mathlib
import ThorFirewall.Lib.Mealy

/-!
# The shared event forwarder (`thor-common`, `event_channel.rs`)

`run_event_forwarder` collects events and posts them in batches: at once if an urgent event comes or the batch is full,
else when the flush interval is over, and at the end when the channel is closed. A batch that could not be posted is
dropped. Of an event only its threat level is read.

- `runEventForwarder_cases`: what one round of the loop does to the batch, the counters and the posts;
- `every_event_accounted`: every event is posted once, in the order of arrival, or waits; and the counters add up.
-/

namespace ThorFirewall

inductive ThreatLevel
  | unknown
  | low
  | medium
  | high
  | critical
  deriving DecidableEq, Repr

namespace EventChannel

structure ForwarderConfig where
  controlPlaneUrl : String
  batchSize : ℕ
  flushIntervalMs : ℕ

structure ForwarderStats where
  eventsForwarded : UInt64
  eventsDropped : UInt64
  batchesSent : UInt64
  lastError : Option String
  deriving DecidableEq, Repr

variable {E : Type*}

/-- The local variables of the loop. Times are in milliseconds. -/
structure Forwarder (E : Type*) where
  batch : List E
  stats : ForwarderStats
  lastFlush : ℕ
  running : Bool

def Forwarder.new (now : ℕ) : Forwarder E where
  batch := []
  stats := { eventsForwarded := 0, eventsDropped := 0, batchesSent := 0, lastError := none }
  lastFlush := now
  running := true

/-- What a round of the loop waits for, the time, and the outcome of the post that it may lead to. -/
inductive Input (E : Type*)
  | recv (e : E) (now : ℕ) (post : Except String Unit)
  | timeout (now : ℕ) (post : Except String Unit)
  | close (post : Except String Unit)

structure Payload (E : Type*) where
  url : String
  agentId : String
  events : List E

section Loop

variable (threatLevel : E → ThreatLevel) (config : ForwarderConfig) (agentId : String)

def isUrgent (e : E) : Bool := threatLevel e = .critical || threatLevel e = .high

def flushBatch (f : Forwarder E) (post : Except String Unit) : Forwarder E × Option (Payload E) :=
  if f.batch.isEmpty then (f, none)
  else
    let eventCount := UInt64.ofNat f.batch.length
    let stats := match post with
      | .ok _ => { f.stats with
          eventsForwarded := f.stats.eventsForwarded + eventCount, batchesSent := f.stats.batchesSent + 1 }
      | .error e => { f.stats with eventsDropped := f.stats.eventsDropped + eventCount, lastError := some e }
    ({ f with batch := [], stats },
      some { url := config.controlPlaneUrl ++ "/api/v1/ingest/events", agentId, events := f.batch })

/-- One round of the loop. After the channel is closed there are none, and the timer goes off only in its time. -/
def runEventForwarder (f : Forwarder E) : Input E → Forwarder E × Option (Payload E)
  | .recv e now post =>
    if !f.running then (f, none)
    else
      let f := { f with batch := f.batch ++ [e] }
      if isUrgent threatLevel e || config.batchSize ≤ f.batch.length then
        let r := flushBatch config agentId f post
        ({ r.1 with lastFlush := now }, r.2)
      else (f, none)
  | .timeout now post =>
    if !f.running || now - f.lastFlush < config.flushIntervalMs || f.batch.isEmpty then (f, none)
    else
      let r := flushBatch config agentId f post
      ({ r.1 with lastFlush := now }, r.2)
  | .close post =>
    if !f.running then (f, none)
    else
      let r := flushBatch config agentId f post
      ({ r.1 with running := false }, r.2)

def after (now : ℕ) (inputs : List (Input E)) : Forwarder E :=
  Mealy.after (runEventForwarder threatLevel config agentId) (.new now) inputs

/-- The events posted in a run, in the order of the posts. -/
def posted (now : ℕ) (inputs : List (Input E)) : List E :=
  (Mealy.outputs (runEventForwarder threatLevel config agentId) (.new now) inputs).reduceOption.flatMap (·.events)

end Loop

/-- The events received from the channel, until it is closed. -/
def received : List (Input E) → List E
  | [] => []
  | .recv e _ _ :: inputs => e :: received inputs
  | .timeout _ _ :: inputs => received inputs
  | .close _ :: _ => []

/-! ## One round -/

variable {threatLevel : E → ThreatLevel} {config : ForwarderConfig} {agentId : String}

/-- The event that a round takes from the channel. -/
def Input.event : Input E → List E
  | .recv e _ _ => [e]
  | _ => []

/-- `n` events are counted, as forwarded or as dropped, each counter modulo `2 ^ 64`. -/
def ForwarderStats.Counts (st : ForwarderStats) (n : ℕ) : Prop :=
  ∃ nf nd, st.eventsForwarded = UInt64.ofNat nf ∧ st.eventsDropped = UInt64.ofNat nd ∧ nf + nd = n

/-- A flush empties the batch, counts it and posts it. -/
theorem flushBatch_spec (config : ForwarderConfig) (agentId : String) {f : Forwarder E} {n : ℕ}
    (hn : f.stats.Counts n) (post : Except String Unit) :
    (flushBatch config agentId f post).1.batch = [] ∧
    (flushBatch config agentId f post).1.stats.Counts (n + f.batch.length) ∧
    (flushBatch config agentId f post).1.running = f.running ∧
    (flushBatch config agentId f post).2.toList.flatMap (·.events) = f.batch := by
  unfold flushBatch
  split_ifs with hempty
  · rw [List.isEmpty_iff] at hempty
    simp [hempty, hn]
  · obtain ⟨nf, nd, hf, hd, rfl⟩ := hn
    cases post with
    | ok =>
      refine ⟨rfl, ⟨nf + f.batch.length, nd, ?_, hd, by omega⟩, rfl, by simp⟩
      rw [UInt64.ofNat_add, ← hf]
    | error e =>
      refine ⟨rfl, ⟨nf, nd + f.batch.length, hf, ?_, by omega⟩, rfl, by simp⟩
      rw [UInt64.ofNat_add, ← hd]

@[simp] theorem event_timeout (now : ℕ) (post : Except String Unit) : (Input.timeout now post : Input E).event = [] := rfl

@[simp] theorem event_close (post : Except String Unit) : (Input.close post : Input E).event = [] := rfl

def Input.isClose : Input E → Bool
  | .close _ => true
  | _ => false

/-- What a round does while the channel is open: the batch grows and is not full, or everything is posted. -/
theorem runEventForwarder_cases {f : Forwarder E} {n : ℕ} (hrun : f.running = true) (hn : f.stats.Counts n)
    {i : Input E} {r : Forwarder E × Option (Payload E)} (hr : runEventForwarder threatLevel config agentId f i = r) :
    r.1.running = !i.isClose ∧
    (r.1.batch = f.batch ++ i.event ∧ r.1.stats = f.stats ∧ r.2 = none ∧ i.isClose = false ∧
        (i.event = [] ∨ r.1.batch.length < config.batchSize) ∧ (∀ e ∈ i.event, isUrgent threatLevel e = false) ∨
      r.1.batch = [] ∧ r.1.stats.Counts (n + (f.batch ++ i.event).length) ∧
        r.2.toList.flatMap (·.events) = f.batch ++ i.event) := by
  subst hr
  obtain ⟨batch, stats, lastFlush, running⟩ := f
  obtain rfl : running = true := hrun
  cases i with
  | recv e now post =>
    simp only [runEventForwarder, Bool.not_true, Bool.false_eq_true, if_false]
    split_ifs with hflush
    · obtain ⟨hb, hc, hr, hp⟩ := flushBatch_spec config agentId (f := ⟨batch ++ [e], stats, lastFlush, true⟩) hn post
      exact ⟨hr, .inr ⟨hb, hc, hp⟩⟩
    · simp only [Bool.or_eq_true, decide_eq_true_eq, not_or, not_le] at hflush
      refine ⟨rfl, .inl ⟨rfl, rfl, rfl, rfl, .inr hflush.2, ?_⟩⟩
      intro e' he'
      rw [List.mem_singleton.1 he']
      exact Bool.eq_false_iff.2 hflush.1
  | timeout now post =>
    simp only [runEventForwarder]
    split_ifs with hflush
    · refine ⟨rfl, .inl ⟨?_, rfl, rfl, rfl, .inl rfl, by simp⟩⟩
      rw [event_timeout, List.append_nil]
    · obtain ⟨hb, hc, hr, hp⟩ := flushBatch_spec config agentId hn post
      rw [event_timeout, List.append_nil]
      exact ⟨hr, .inr ⟨hb, hc, hp⟩⟩
  | close post =>
    simp only [runEventForwarder, Bool.not_true, Bool.false_eq_true, if_false]
    obtain ⟨hb, hc, hr, hp⟩ := flushBatch_spec config agentId hn post
    rw [event_close, List.append_nil]
    exact ⟨rfl, .inr ⟨hb, hc, hp⟩⟩

theorem runEventForwarder_closed {f : Forwarder E} (hrun : f.running = false) (i : Input E) :
    runEventForwarder threatLevel config agentId f i = (f, none) := by
  cases i <;> simp [runEventForwarder, hrun]

/-! ## Runs -/

theorem received_concat (inputs : List (Input E)) (i : Input E) :
    received (inputs ++ [i]) = if inputs.any Input.isClose then received inputs else received inputs ++ i.event := by
  induction inputs with
  | nil => cases i <;> rfl
  | cons j inputs ih =>
    cases j with
    | recv e now post =>
      rw [List.cons_append, received, ih]
      simp only [List.any_cons, Input.isClose, Bool.false_or, received]
      split_ifs <;> rfl
    | timeout now post =>
      rw [List.cons_append, received, ih]
      simp only [List.any_cons, Input.isClose, Bool.false_or, received]
    | close post => simp [received, Input.isClose]

/-- The invariant of the loop. -/
structure Accounted (threatLevel : E → ThreatLevel) (config : ForwarderConfig) (inputs : List (Input E))
    (posts : List (Option (Payload E))) (f : Forwarder E) : Prop where
  posted : posts.reduceOption.flatMap (·.events) ++ f.batch = received inputs
  counted : ∃ n, f.stats.Counts n ∧ n + f.batch.length = (received inputs).length
  length_lt : f.batch.length < max 1 config.batchSize
  calm : ∀ e ∈ f.batch, isUrgent threatLevel e = false
  running : f.running = !inputs.any Input.isClose
  closed : f.running = false → f.batch = []

theorem Accounted.step {inputs : List (Input E)} {posts : List (Option (Payload E))} {f : Forwarder E}
    (h : Accounted threatLevel config inputs posts f) (i : Input E) :
    Accounted threatLevel config (inputs ++ [i]) (posts ++ [(runEventForwarder threatLevel config agentId f i).2])
      (runEventForwarder threatLevel config agentId f i).1 := by
  have hany : (inputs ++ [i]).any Input.isClose = (inputs.any Input.isClose || i.isClose) := by simp
  obtain ⟨hposted, ⟨n, hn, hlen⟩, hlt, hcalm, hrunning, hclosed⟩ := h
  cases hrun : f.running with
  | false =>
    have hany' : inputs.any Input.isClose = true := by simpa [hrun] using hrunning
    have hrec : received (inputs ++ [i]) = received inputs := by rw [received_concat, if_pos hany']
    rw [runEventForwarder_closed hrun]
    refine ⟨?_, ⟨n, hn, hrec ▸ hlen⟩, hlt, hcalm, ?_, hclosed⟩
    · rw [hrec, ← hposted]
      simp [List.reduceOption_append]
    · rw [hany, hany', hrun]
      rfl
  | true =>
    have hany' : inputs.any Input.isClose = false := by simpa [hrun] using hrunning
    have hrec : received (inputs ++ [i]) = received inputs ++ i.event := by rw [received_concat, hany', if_neg (by decide)]
    generalize hr : runEventForwarder threatLevel config agentId f i = r
    obtain ⟨hrun', hcase⟩ := runEventForwarder_cases hrun hn hr
    have hrunning' : r.1.running = !(inputs ++ [i]).any Input.isClose := by rw [hrun', hany, hany', Bool.false_or]
    rcases hcase with ⟨hb, hst, hout, hopen, hsize, hurg⟩ | ⟨hb, hst, hout⟩
    · refine ⟨?_, ⟨n, hst ▸ hn, ?_⟩, ?_, ?_, hrunning', ?_⟩
      · rw [hrec, ← hposted, hb, hout]
        simp [List.reduceOption_append]
      · rw [hrec, hb, List.length_append, List.length_append]
        omega
      · rcases hsize with hev | hsize
        · rwa [hb, hev, List.append_nil]
        · exact hsize.trans_le (le_max_right _ _)
      · rw [hb]
        intro e he
        rcases List.mem_append.1 he with he | he
        · exact hcalm e he
        · exact hurg e he
      · intro hr
        rw [hrun', hopen] at hr
        cases hr
    · refine ⟨?_, ⟨_, hst, ?_⟩, ?_, ?_, hrunning', fun _ => hb⟩
      · rw [hrec, ← hposted, hb, List.append_nil, List.reduceOption_append, List.flatMap_append, List.append_assoc,
          ← hout]
        cases r.2 <;> simp
      · rw [hrec, hb, List.length_append, List.length_append, List.length_nil]
        omega
      · rw [hb]
        exact lt_max_of_lt_left zero_lt_one
      · simp [hb]

theorem accounted_run (threatLevel : E → ThreatLevel) (config : ForwarderConfig) (agentId : String) (now : ℕ)
    (inputs : List (Input E)) : Accounted threatLevel config inputs
      (Mealy.outputs (runEventForwarder threatLevel config agentId) (.new now) inputs)
      (after threatLevel config agentId now inputs) := by
  refine Mealy.history_inv (P := Accounted threatLevel config) ?_ (fun _ _ _ i h => h.step i) inputs
  refine ⟨rfl, ⟨0, ⟨0, 0, rfl, rfl, rfl⟩, rfl⟩, ?_, by simp [Forwarder.new], rfl, fun _ => rfl⟩
  exact lt_max_of_lt_left zero_lt_one

/-- **Every event is accounted for.** At every point of every run: what was posted and what waits is what was received,
in the order of arrival; the counters add up; the batch is not full and has no urgent event in it; and it is empty once
the channel is closed. -/
theorem every_event_accounted (threatLevel : E → ThreatLevel) (config : ForwarderConfig) (agentId : String) (now : ℕ)
    (inputs : List (Input E)) :
    let f := after threatLevel config agentId now inputs
    posted threatLevel config agentId now inputs ++ f.batch = received inputs ∧
    UInt64.ofNat (received inputs).length =
      f.stats.eventsForwarded + f.stats.eventsDropped + UInt64.ofNat f.batch.length ∧
    ((received inputs).length < 2 ^ 64 → (received inputs).length =
      f.stats.eventsForwarded.toNat + f.stats.eventsDropped.toNat + f.batch.length) ∧
    f.batch.length < max 1 config.batchSize ∧
    (∀ e ∈ f.batch, threatLevel e ≠ .high ∧ threatLevel e ≠ .critical) ∧
    (inputs.any Input.isClose → f.batch = []) := by
  obtain ⟨hposted, ⟨n, ⟨nf, nd, hf, hd, rfl⟩, hlen⟩, hlt, hcalm, hrunning, hclosed⟩ :=
    accounted_run threatLevel config agentId now inputs
  refine ⟨hposted, ?_, fun hsmall => ?_, hlt, ?_, ?_⟩
  · rw [hf, hd, ← hlen, UInt64.ofNat_add, UInt64.ofNat_add]
  · have hnf : nf < UInt64.size := lt_of_le_of_lt (by omega) hsmall
    have hnd : nd < UInt64.size := lt_of_le_of_lt (by omega) hsmall
    rw [hf, hd, UInt64.toNat_ofNat_of_lt' hnf, UInt64.toNat_ofNat_of_lt' hnd, hlen]
  · intro e he
    have hurg := hcalm e he
    simp only [isUrgent, Bool.or_eq_false_iff, decide_eq_false_iff_not] at hurg
    exact ⟨hurg.2, hurg.1⟩
  · intro hc
    exact hclosed (by rw [hrunning, hc]; rfl)

end EventChannel

end ThorFirewall
