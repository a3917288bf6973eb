import ThorFirewall.Micro.EventForwarder

/-!
# What the forwarders of the micro-agents keep

An event that has been received should have been posted, or wait in the batch. The loops ignore the outcome of an urgent
post, two of them that of a batch as well, and all of them leave with the batch as it is.

- `kept_step_iff`: which rounds lose nothing;
- `forwarder_keeps_iff`: nothing is lost in a run exactly if none of its rounds loses something.
-/

namespace ThorFirewall.Micro

variable {F64 F32 E : Type} {a : Agent F64 E}

/-! ## Received and delivered -/

/-- The event that a round takes from the channel. -/
def Input.event : Input E → List E
  | .recv e _ => [e]
  | _ => []

/-- The post of the round, if there is one, succeeds. -/
def Input.sent : Input E → Bool
  | .recv _ sent | .tick sent => sent
  | .close => false

def Input.isClose : Input E → Bool
  | .close => true
  | _ => false

/-- The events received from the channel, until it is closed. -/
def received : List (Input E) → List E
  | [] => []
  | .recv e _ :: inputs => e :: received inputs
  | .tick _ :: inputs => received inputs
  | .close :: _ => []

def after (a : Agent F64 E) (inputs : List (Input E)) : Forwarder E := Mealy.after (eventForwarder a) .new inputs

/-- The events of the posts that succeeded. -/
def delivered (a : Agent F64 E) (inputs : List (Input E)) : List E :=
  (inputs.zip (Mealy.outputs (eventForwarder a) .new inputs)).flatMap fun round =>
    if round.1.sent then round.2.toList.flatMap (·.events) else []

/-- Every event received has been delivered or waits, and none waits once the loop has ended. -/
structure Kept (a : Agent F64 E) (inputs : List (Input E)) : Prop where
  perm : (received inputs).Perm (delivered a inputs ++ (after a inputs).batch)
  closed : (after a inputs).running = false → (after a inputs).batch = []

/-- The round loses nothing: an urgent post succeeds, and so does that of a batch that is not kept; nothing waits when
the channel is closed. -/
def RoundOk (a : Agent F64 E) (f : Forwarder E) (i : Input E) : Prop :=
  f.running = true → match i with
    | .recv e sent => a.urgent e = true → sent = true
    | .tick sent => a.keepsFailed = false → f.batch ≠ [] → sent = true
    | .close => f.batch = []

/-! ## One round -/

theorem delivered_concat (inputs : List (Input E)) (i : Input E) :
    delivered a (inputs ++ [i]) = delivered a inputs ++
      if i.sent then (eventForwarder a (after a inputs) i).2.toList.flatMap (·.events) else [] := by
  rw [delivered, Mealy.outputs_concat, List.zip_append (Mealy.length_outputs _ _ _).symm, List.flatMap_append]
  simp [delivered, after]

theorem after_concat (inputs : List (Input E)) (i : Input E) :
    after a (inputs ++ [i]) = (eventForwarder a (after a inputs) i).1 :=
  Mealy.after_concat _ _ _ _

theorem running_eventForwarder (f : Forwarder E) (i : Input E) :
    (eventForwarder a f i).1.running = (f.running && !i.isClose) := by
  cases i with
  | recv e sent | tick sent =>
    simp only [eventForwarder, Input.isClose]
    split_ifs <;> simp
  | close => simp [eventForwarder, Input.isClose]

/-- The loop runs until the channel is closed. -/
theorem running_after (inputs : List (Input E)) : (after a inputs).running = !inputs.any Input.isClose := by
  induction inputs using List.reverseRecOn with
  | nil => rfl
  | append_singleton inputs i ih =>
    rw [after_concat, running_eventForwarder, ih]
    simp

theorem received_concat (inputs : List (Input E)) (i : Input E) :
    received (inputs ++ [i]) = if inputs.any Input.isClose then received inputs else received inputs ++ i.event := by
  induction inputs with
  | nil => cases i <;> rfl
  | cons j inputs ih =>
    cases j with
    | recv e sent =>
      rw [List.cons_append, received, ih]
      simp only [List.any_cons, Input.isClose, Bool.false_or, received]
      split_ifs <;> rfl
    | tick sent =>
      rw [List.cons_append, received, ih]
      simp only [List.any_cons, Input.isClose, Bool.false_or, received]
    | close => simp [received, Input.isClose]

/-- After the end nothing changes. -/
theorem kept_concat_of_closed {inputs : List (Input E)} {i : Input E} (hend : (after a inputs).running = false) :
    Kept a (inputs ++ [i]) ↔ Kept a inputs := by
  have hround : eventForwarder a (after a inputs) i = (after a inputs, none) := by
    generalize after a inputs = f at hend
    obtain ⟨batch, running⟩ := f
    obtain rfl : running = false := hend
    cases i <;> rfl
  have hreceived : received (inputs ++ [i]) = received inputs := by
    have hclose : inputs.any Input.isClose = true := by simpa [hend] using running_after (a := a) inputs
    rw [received_concat, if_pos hclose]
  have hdelivered : delivered a (inputs ++ [i]) = delivered a inputs := by
    rw [delivered_concat, hround]
    simp
  have hafter : after a (inputs ++ [i]) = after a inputs := by rw [after_concat, hround]
  constructor
  · rintro ⟨hperm, hclosed⟩
    exact ⟨by rwa [hreceived, hdelivered, hafter] at hperm, by rwa [hafter] at hclosed⟩
  · rintro ⟨hperm, hclosed⟩
    exact ⟨by rwa [hreceived, hdelivered, hafter], by rwa [hafter]⟩

/-- What a round of an open loop must deliver or keep. -/
theorem kept_concat_of_open {inputs : List (Input E)} {i : Input E} (h : Kept a inputs)
    (hopen : (after a inputs).running = true) :
    Kept a (inputs ++ [i]) ↔
      ((after a inputs).batch ++ i.event).Perm
        ((if i.sent then (eventForwarder a (after a inputs) i).2.toList.flatMap (·.events) else []) ++
          (eventForwarder a (after a inputs) i).1.batch) ∧
      (i.isClose → (eventForwarder a (after a inputs) i).1.batch = []) := by
  have hreceived : received (inputs ++ [i]) = received inputs ++ i.event := by
    have hclose : inputs.any Input.isClose = false := by simpa [hopen] using running_after (a := a) inputs
    rw [received_concat, hclose, if_neg (by decide)]
  have hrunning : (after a (inputs ++ [i])).running = !i.isClose := by
    rw [after_concat, running_eventForwarder, hopen, Bool.true_and]
  have hperm : (received (inputs ++ [i])).Perm
      (delivered a (inputs ++ [i]) ++ (after a (inputs ++ [i])).batch) ↔
      ((after a inputs).batch ++ i.event).Perm
        ((if i.sent then (eventForwarder a (after a inputs) i).2.toList.flatMap (·.events) else []) ++
          (eventForwarder a (after a inputs) i).1.batch) := by
    have hbefore : (received inputs ++ i.event).Perm (delivered a inputs ++ ((after a inputs).batch ++ i.event)) := by
      rw [← List.append_assoc]
      exact h.perm.append_right _
    rw [hreceived, delivered_concat, after_concat, List.append_assoc]
    refine Iff.trans ?_ (List.perm_append_left_iff (delivered a inputs))
    exact ⟨hbefore.symm.trans, hbefore.trans⟩
  constructor
  · rintro ⟨hp, hclosed⟩
    refine ⟨hperm.1 hp, fun hi => ?_⟩
    rw [← after_concat]
    exact hclosed (by rw [hrunning, hi]; rfl)
  · rintro ⟨hp, hclosed⟩
    refine ⟨hperm.2 hp, fun hr => ?_⟩
    rw [after_concat]
    exact hclosed (by simpa [hr] using hrunning)

/-- **One round** keeps everything exactly if it loses nothing of its own. -/
theorem kept_step_iff {inputs : List (Input E)} (i : Input E) (h : Kept a inputs) :
    Kept a (inputs ++ [i]) ↔ RoundOk a (after a inputs) i := by
  cases hrun : (after a inputs).running with
  | false =>
    rw [kept_concat_of_closed hrun]
    exact iff_of_true h fun hopen => by rw [hrun] at hopen; cases hopen
  | true =>
    rw [kept_concat_of_open h hrun]
    simp only [RoundOk, hrun, forall_const]
    generalize hf : after a inputs = f
    rw [hf] at hrun
    obtain ⟨batch, running⟩ := f
    obtain rfl : running = true := hrun
    cases i with
    | recv e sent =>
      simp only [eventForwarder, Input.event, Input.sent, Input.isClose]
      cases a.urgent e <;> cases sent
      · simp
      · simp
      · have hlost : ¬ (batch ++ [e]).Perm batch := fun hp => by simpa using hp.length_eq
        simpa using hlost
      · simp
    | tick sent =>
      simp only [eventForwarder, Input.event, Input.sent, Input.isClose]
      cases batch with
      | nil => cases sent <;> simp
      | cons e batch => cases a.keepsFailed <;> cases sent <;> simp
    | close => simp [eventForwarder, Input.event, Input.sent, Input.isClose]

/-! ## Runs -/

theorem kept_nil : Kept a [] := ⟨List.Perm.refl _, fun _ => rfl⟩

/-- **The three forwarders.** At every point of a run everything received has been posted successfully or waits, and
nothing waits at the end, exactly if every urgent post succeeds, every batch that the web and the server agent post, and
the batch is empty when the channel is closed. -/
theorem forwarder_keeps_iff (ef : EventFloats F64 F32) (k : Kind) (inputs : List (Input (k.Event F64 F32))) :
    (∀ p, p <+: inputs → Kept (k.agent ef) p) ↔
      ∀ p i, p ++ [i] <+: inputs → RoundOk (k.agent ef) (after (k.agent ef) p) i :=
  List.forall_prefix_iff kept_nil (fun _ i h => kept_step_iff i h) inputs

/-- An urgent event whose post fails is gone. -/
theorem urgent_event_lost : ¬ ∀ (k : Kind) (inputs p : List (Input (k.Event ℚ ℚ))), p <+: inputs →
    Kept (k.agent exactEventFloats) p := by
  intro h
  have hperm := (h .net [.recv ⟨"e1", 0, "net-1", "10.0.0.1", "10.0.0.2", 40000, 443, "TCP", "XDP_DROP", "c2",
    "CRITICAL", 1, "thor_master_brain_v3_2026", "", "autonomous", none, none, none, none, none, none⟩ false] _
    List.prefix_rfl).perm.length_eq
  exact absurd hperm (by decide)

end ThorFirewall.Micro
