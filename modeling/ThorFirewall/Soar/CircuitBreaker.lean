import Mathlib
import ThorFirewall.Lib.FixedWindow

/-!
# The circuit breaker of automatic blocking (`soar/mod.rs`)

Before it blocks an address, the engine asks a circuit breaker, which allows a number of blocks in a window of five
minutes. The breaker is a fixed-window limit (`FixedWindow`) over a 32-bit counter that is incremented first and
decremented again when the call is denied. Calls of `auto_block_ip` run side by side: each looks its address up, asks the
breaker under the lock of the window, and inserts the address, and between these steps others add and remove addresses.

- `refines_step`: the breaker answers as the fixed-window limit does;
- `inserted_le`: no more addresses are inserted than calls allowed;
- `auto_block_bounded`: the bounds on the calls, the counter and the insertions.
-/

namespace ThorFirewall.Soar

/-! ## The breaker -/

structure CircuitBreaker where
  blockCount : UInt32
  windowStart : ℕ
  maxPerWindow : UInt32
  window : ℕ
  deriving DecidableEq

namespace CircuitBreaker

def new (maxPerWindow : UInt32) (now : ℕ) : CircuitBreaker where
  blockCount := 0
  windowStart := now
  maxPerWindow := maxPerWindow
  window := 300 * 10 ^ 9

/-- Reset the window if it expired. -/
def resetWindow (b : CircuitBreaker) (now : ℕ) : CircuitBreaker :=
  if b.window ≤ now - b.windowStart then { b with windowStart := now, blockCount := 0 } else b

/-- `blockCount.fetch_add(1)`. -/
def fetchAdd (b : CircuitBreaker) : CircuitBreaker × UInt32 :=
  ({ b with blockCount := b.blockCount + 1 }, b.blockCount)

/-- `blockCount.fetch_sub(1)`. -/
def fetchSub (b : CircuitBreaker) : CircuitBreaker := { b with blockCount := b.blockCount - 1 }

def checkAndIncrement (b : CircuitBreaker) (now : ℕ) : CircuitBreaker × Except UInt32 Unit :=
  let b := b.resetWindow now
  let (b, count) := b.fetchAdd
  if b.maxPerWindow ≤ count then (b.fetchSub, .error count) else (b, .ok ())

def currentCount (b : CircuitBreaker) : UInt32 := b.blockCount

/-- The answer of a call, with its time and the start of its window. -/
def answer (b : CircuitBreaker) (now : ℕ) : FixedWindow.Reply where
  time := now
  start := (b.checkAndIncrement now).1.windowStart
  granted := (b.checkAndIncrement now).2.isOk

/-- The breaker as a fixed-window limit. -/
def limit (b : CircuitBreaker) : FixedWindow.State := ⟨b.windowStart, b.blockCount.toNat⟩

variable {b : CircuitBreaker} {now : ℕ}

theorem resetWindow_limit : (b.resetWindow now).limit = FixedWindow.roll b.window b.limit now := by
  unfold resetWindow FixedWindow.roll limit
  split_ifs <;> rfl

/-- A denied call gives back what it took. -/
theorem checkAndIncrement_eq : b.checkAndIncrement now =
    if b.maxPerWindow ≤ (b.resetWindow now).blockCount then
      (b.resetWindow now, .error (b.resetWindow now).blockCount)
    else ({ b.resetWindow now with blockCount := (b.resetWindow now).blockCount + 1 }, .ok ()) := by
  have hmax : (b.resetWindow now).maxPerWindow = b.maxPerWindow := by
    unfold resetWindow
    split_ifs <;> rfl
  simp only [checkAndIncrement, fetchAdd, fetchSub, UInt32.add_sub_cancel]
  rw [← hmax]

/-- What a call leaves as it is. -/
theorem checkAndIncrement_params (b : CircuitBreaker) (now : ℕ) :
    (b.checkAndIncrement now).1.maxPerWindow = b.maxPerWindow ∧
    (b.checkAndIncrement now).1.window = b.window := by
  have hreset : (b.resetWindow now).maxPerWindow = b.maxPerWindow ∧ (b.resetWindow now).window = b.window := by
    unfold resetWindow
    split_ifs <;> exact ⟨rfl, rfl⟩
  rw [checkAndIncrement_eq]
  split_ifs <;> exact hreset

/-- **The breaker answers as the fixed-window limit does.** -/
theorem refines_step (b : CircuitBreaker) (now : ℕ) : ((b.checkAndIncrement now).1.limit, b.answer now) =
    FixedWindow.step b.maxPerWindow.toNat b.window b.limit now := by
  unfold FixedWindow.step answer
  rw [← resetWindow_limit, checkAndIncrement_eq]
  by_cases hlt : (b.resetWindow now).blockCount < b.maxPerWindow
  · have hcount := UInt32.lt_iff_toNat_lt.1 hlt
    have hsucc : ((b.resetWindow now).blockCount + 1).toNat = (b.resetWindow now).blockCount.toNat + 1 := by
      have := b.maxPerWindow.toNat_lt
      rw [UInt32.toNat_add, UInt32.toNat_one]
      omega
    rw [if_neg (UInt32.not_le.2 hlt)]
    simp only [limit, hcount, if_true, hsucc]
    rfl
  · have hcount := fun h => hlt (UInt32.lt_iff_toNat_lt.2 h)
    rw [if_pos (UInt32.not_lt.1 hlt)]
    exact (if_neg hcount).symm

/-- The counter stays within the limit, and a denied call leaves it as it was. -/
theorem checkAndIncrement_count (now : ℕ) (h : b.blockCount ≤ b.maxPerWindow) :
    (b.checkAndIncrement now).1.blockCount ≤ b.maxPerWindow ∧
      ((b.checkAndIncrement now).2.isOk = false → (b.checkAndIncrement now).1.blockCount = b.blockCount) := by
  have hreset : (b.resetWindow now).blockCount = 0 ∨ (b.resetWindow now).blockCount = b.blockCount := by
    unfold resetWindow
    split_ifs
    · exact .inl rfl
    · exact .inr rfl
  rw [checkAndIncrement_eq]
  split_ifs with hmax
  · -- a reset counter denies only when nothing is allowed
    have heq : (b.resetWindow now).blockCount = b.blockCount := by
      rcases hreset with h0 | heq
      · rw [h0] at hmax ⊢
        rw [← UInt32.toNat_inj]
        rw [UInt32.le_iff_toNat_le] at h hmax
        exact (Nat.le_zero.1 (h.trans hmax)).symm
      · exact heq
    exact ⟨heq ▸ h, fun _ => heq⟩
  · refine ⟨?_, fun hfalse => by cases hfalse⟩
    have hlt := UInt32.lt_iff_toNat_lt.1 (UInt32.not_le.1 hmax)
    have := b.maxPerWindow.toNat_lt
    rw [UInt32.le_iff_toNat_le]
    show ((b.resetWindow now).blockCount + 1).toNat ≤ _
    rw [UInt32.toNat_add, UInt32.toNat_one]
    omega

/-- The increment of a call does not overflow. -/
def NoWrap (b : CircuitBreaker) (now : ℕ) : Prop :=
  (b.resetWindow now).fetchAdd.1.blockCount.toNat = (b.resetWindow now).fetchAdd.2.toNat + 1

theorem noWrap (h : b.blockCount ≤ b.maxPerWindow) (hmax : b.maxPerWindow.toNat + 1 < 2 ^ 32) : b.NoWrap now := by
  have hreset : (b.resetWindow now).blockCount.toNat ≤ b.maxPerWindow.toNat := by
    unfold resetWindow
    split_ifs
    · exact Nat.zero_le _
    · exact UInt32.le_iff_toNat_le.1 h
  show ((b.resetWindow now).blockCount + 1).toNat = _
  rw [UInt32.toNat_add, UInt32.toNat_one]
  exact Nat.mod_eq_of_lt (by omega)

/-! ## Runs of the breaker -/

def step (b : CircuitBreaker) (now : ℕ) : CircuitBreaker × FixedWindow.Reply :=
  ((b.checkAndIncrement now).1, b.answer now)

/-- A run of the breaker is one of the limit. -/
theorem refines_run (b : CircuitBreaker) (times : List ℕ) :
    Mealy.outputs step b times = Mealy.outputs (FixedWindow.step b.maxPerWindow.toNat b.window) b.limit times := by
  induction times generalizing b with
  | nil => rfl
  | cons now times ih =>
    obtain ⟨hmax, hwindow⟩ := b.checkAndIncrement_params now
    simp only [Mealy.outputs, step]
    rw [ih, hmax, hwindow, ← refines_step b now]

theorem after_new (max : UInt32) (t₀ : ℕ) (times : List ℕ) :
    (Mealy.after step (new max t₀) times).blockCount ≤ max ∧
      (Mealy.after step (new max t₀) times).maxPerWindow = max := by
  refine @Mealy.after_inv _ _ _ step (fun b => b.blockCount ≤ max ∧ b.maxPerWindow = max) _ ⟨?_, rfl⟩ ?_ times
  · exact UInt32.le_iff_toNat_le.2 (Nat.zero_le _)
  · rintro b now ⟨hle, rfl⟩
    exact ⟨(checkAndIncrement_count now hle).1, (checkAndIncrement_params _ _).1⟩

end CircuitBreaker

/-! ## Automatic blocking -/

structure SoarEngine where
  circuitBreaker : CircuitBreaker
  whitelist : List String
  blockedIps : Finset String

namespace SoarEngine

/-- Simple prefix or exact match. -/
def isWhitelisted (e : SoarEngine) (ip : String) : Bool :=
  e.whitelist.any fun w => ip == w || (w.toList.rdropWhile (· = '*')).isPrefixOf ip.toList

/-- What comes before the circuit breaker: a result ends the call. -/
def lookUp (e : SoarEngine) (ip : String) : Option (Except String Unit) :=
  if e.isWhitelisted ip then some (.error (ip ++ " is in SOAR whitelist — skipping auto-block"))
  else if ip ∈ e.blockedIps then some (.ok ())
  else none

def askBreaker (e : SoarEngine) (now : ℕ) : SoarEngine × Except String Unit :=
  match e.circuitBreaker.checkAndIncrement now with
  | (b, .ok ()) => ({ e with circuitBreaker := b }, .ok ())
  | (b, .error count) => ({ e with circuitBreaker := b }, .error ("circuit_breaker_open: " ++ toString count ++
      " blocks in 5min (limit=" ++ toString e.circuitBreaker.maxPerWindow ++
      ").                      Set THOR_SOAR_BLOCK_LIMIT to increase."))

def insert (e : SoarEngine) (ip : String) : SoarEngine := { e with blockedIps := Insert.insert ip e.blockedIps }

/-- A call that nothing comes between. -/
def autoBlockIp (e : SoarEngine) (ip : String) (now : ℕ) : SoarEngine × Except String Unit :=
  match e.lookUp ip with
  | some result => (e, result)
  | none => match e.askBreaker now with
    | (e, .ok ()) => (e.insert ip, .ok ())
    | (e, .error message) => (e, .error message)

end SoarEngine

/-! ## Calls side by side -/

/-- The engine, the addresses that calls have looked up, and those that calls may insert, with the breaker's answer. -/
structure Calls where
  engine : SoarEngine
  lookedUp : List String
  allowed : List (String × FixedWindow.Reply)

/-- The steps of calls of `auto_block_ip`, and of others that add and remove addresses. -/
inductive Event
  | lookUp (ip : String)
  | askBreaker (ip : String) (now : ℕ)
  | insert (ip : String) (reply : FixedWindow.Reply)
  | add (ip : String)
  | remove (ip : String)

/-- The breaker answered, or an address that was not blocked is, by the call that had this answer. -/
inductive Effect
  | none
  | answered (reply : FixedWindow.Reply)
  | inserted (reply : FixedWindow.Reply)

namespace Calls

def start (maxPerWindow : UInt32) (now : ℕ) (whitelist : List String) (blockedIps : Finset String) : Calls where
  engine := ⟨.new maxPerWindow now, whitelist, blockedIps⟩
  lookedUp := []
  allowed := []

def step (c : Calls) : Event → Calls × Effect
  | .lookUp ip => (if c.engine.lookUp ip = none then { c with lookedUp := ip :: c.lookedUp } else c, .none)
  | .askBreaker ip now =>
    if ip ∈ c.lookedUp then
      let reply := c.engine.circuitBreaker.answer now
      let (engine, result) := c.engine.askBreaker now
      let c := { c with engine, lookedUp := c.lookedUp.erase ip }
      (if result.isOk then { c with allowed := (ip, reply) :: c.allowed } else c, .answered reply)
    else (c, .none)
  | .insert ip reply =>
    if (ip, reply) ∈ c.allowed then
      ({ c with engine := c.engine.insert ip, allowed := c.allowed.erase (ip, reply) },
        if ip ∈ c.engine.blockedIps then .none else .inserted reply)
    else (c, .none)
  | .add ip => ({ c with engine := c.engine.insert ip }, .none)
  | .remove ip => ({ c with engine := { c.engine with blockedIps := c.engine.blockedIps.erase ip } }, .none)

end Calls

namespace Effect

def answer? : Effect → Option FixedWindow.Reply
  | answered reply => some reply
  | _ => Option.none

def insertion? : Effect → Option FixedWindow.Reply
  | inserted reply => some reply
  | _ => Option.none

end Effect

/-- The answers of the breaker in a run. -/
def answers (effects : List Effect) : List FixedWindow.Reply := effects.filterMap Effect.answer?

/-- The answers of the calls that inserted a new address. -/
def insertions (effects : List Effect) : List FixedWindow.Reply := effects.filterMap Effect.insertion?

section Calls

variable {c : Calls} {e : Event}

theorem askBreaker_eq (engine : SoarEngine) (now : ℕ) :
    (engine.askBreaker now).1 = { engine with circuitBreaker := (engine.circuitBreaker.checkAndIncrement now).1 } ∧
      (engine.askBreaker now).2.isOk = (engine.circuitBreaker.checkAndIncrement now).2.isOk := by
  unfold SoarEngine.askBreaker
  rcases engine.circuitBreaker.checkAndIncrement now with ⟨b, _ | _⟩ <;> exact ⟨rfl, rfl⟩

/-- The steps of one call, with nothing between them, are `auto_block_ip`. -/
theorem autoBlockIp_eq (engine : SoarEngine) (ip : String) (now : ℕ) :
    (Mealy.after Calls.step ⟨engine, [], []⟩
      [.lookUp ip, .askBreaker ip now, .insert ip (engine.circuitBreaker.answer now)]).engine =
        (engine.autoBlockIp ip now).1 := by
  unfold SoarEngine.autoBlockIp
  cases hlook : engine.lookUp ip with
  | some result => simp [Mealy.after, Calls.step, hlook]
  | none =>
    rcases hask : engine.askBreaker now with ⟨engine', _ | _⟩ <;> simp [Mealy.after, Calls.step, hlook, hask, Except.isOk,
      Except.toBool]

/-- Only a step that asks the breaker changes it, and has its answer as effect. -/
theorem step_breaker (c : Calls) (e : Event) :
    (∃ now, (c.step e).2.answer? = some (c.engine.circuitBreaker.answer now) ∧
      (c.step e).1.engine.circuitBreaker = (c.engine.circuitBreaker.step now).1) ∨
    (c.step e).2.answer? = none ∧ (c.step e).1.engine.circuitBreaker = c.engine.circuitBreaker := by
  cases e with
  | lookUp ip =>
    refine .inr ⟨rfl, ?_⟩
    unfold Calls.step
    dsimp only
    split_ifs <;> rfl
  | askBreaker ip now =>
    unfold Calls.step
    dsimp only
    split_ifs
    · refine .inl ⟨now, rfl, ?_⟩
      rw [(askBreaker_eq c.engine now).1]
      rfl
    · refine .inl ⟨now, rfl, ?_⟩
      rw [(askBreaker_eq c.engine now).1]
      rfl
    · exact .inr ⟨rfl, rfl⟩
  | insert ip reply =>
    refine .inr ?_
    unfold Calls.step
    dsimp only
    split_ifs <;> exact ⟨rfl, rfl⟩
  | add ip => exact .inr ⟨rfl, rfl⟩
  | remove ip => exact .inr ⟨rfl, rfl⟩

/-- **The answers in a run are those of a run of the breaker.** -/
theorem answers_eq (c : Calls) (es : List Event) :
    answers (Mealy.outputs Calls.step c es) = Mealy.outputs CircuitBreaker.step c.engine.circuitBreaker
      ((answers (Mealy.outputs Calls.step c es)).map (·.time)) := by
  refine (@Mealy.history_inv _ _ _ Calls.step (fun _ os c' =>
    answers os = Mealy.outputs CircuitBreaker.step c.engine.circuitBreaker ((answers os).map (·.time)) ∧
      c'.engine.circuitBreaker =
        Mealy.after CircuitBreaker.step c.engine.circuitBreaker ((answers os).map (·.time))) c ⟨rfl, rfl⟩ ?_ es).1
  rintro _ os c' e ⟨hos, hbreaker⟩
  rcases step_breaker c' e with ⟨now, hanswer, hstep⟩ | ⟨hanswer, hstep⟩
  · have hconcat : answers (os ++ [(c'.step e).2]) = answers os ++ [c'.engine.circuitBreaker.answer now] := by
      simp only [answers, List.filterMap_append, List.filterMap_cons, hanswer, List.filterMap_nil]
    have htime : (c'.engine.circuitBreaker.answer now).time = now := rfl
    rw [hconcat, List.map_append, List.map_singleton, htime, Mealy.outputs_concat, Mealy.after_concat, ← hos,
      ← hbreaker]
    exact ⟨rfl, hstep⟩
  · have hconcat : answers (os ++ [(c'.step e).2]) = answers os := by
      simp only [answers, List.filterMap_append, List.filterMap_cons, hanswer, List.filterMap_nil, List.append_nil]
    rw [hconcat, hstep]
    exact ⟨hos, hbreaker⟩

/-- An insertion uses up an answer that allowed it. -/
theorem step_allowed (c : Calls) (e : Event) (p : FixedWindow.Reply → Bool) :
    (insertions [(c.step e).2]).countP p + ((c.step e).1.allowed.map (·.2)).countP p ≤
      (c.allowed.map (·.2)).countP p + FixedWindow.grants p (answers [(c.step e).2]) := by
  cases e with
  | lookUp ip =>
    unfold Calls.step
    dsimp only
    split_ifs <;> exact (Nat.zero_add _).le
  | askBreaker ip now =>
    have hok := (askBreaker_eq c.engine now).2
    unfold Calls.step
    dsimp only
    split_ifs with hmem hgranted
    · have hreply : (c.engine.circuitBreaker.answer now).granted = true := hok.symm.trans hgranted
      show 0 + List.countP p (c.engine.circuitBreaker.answer now :: _) ≤ _ + FixedWindow.grants p [_]
      rw [FixedWindow.grants, List.countP_cons, List.countP_singleton, hreply, Bool.true_and, Nat.zero_add]
    · exact (Nat.zero_add _).le.trans (Nat.le_add_right _ _)
    · exact (Nat.zero_add _).le
  | insert ip reply =>
    unfold Calls.step
    dsimp only
    by_cases hmem : (ip, reply) ∈ c.allowed
    · have hcount := ((List.perm_cons_erase hmem).map (·.2)).countP_eq p
      rw [List.map_cons, List.countP_cons] at hcount
      dsimp only at hcount
      rw [if_pos hmem]
      split_ifs
      · show 0 + List.countP p ((c.allowed.erase (ip, reply)).map (·.2)) ≤ _ + 0
        omega
      · show List.countP p [reply] + List.countP p ((c.allowed.erase (ip, reply)).map (·.2)) ≤ _ + 0
        rw [List.countP_singleton]
        omega
    · rw [if_neg hmem]
      exact (Nat.zero_add _).le
  | add ip => exact (Nat.zero_add _).le
  | remove ip => exact (Nat.zero_add _).le

/-- **No more addresses are inserted than calls allowed.** -/
theorem inserted_le (c : Calls) (hc : c.allowed = []) (es : List Event) (p : FixedWindow.Reply → Bool) :
    (insertions (Mealy.outputs Calls.step c es)).countP p ≤
      FixedWindow.grants p (answers (Mealy.outputs Calls.step c es)) := by
  have h := @Mealy.history_inv _ _ _ Calls.step (fun _ os c' =>
    (insertions os).countP p + (c'.allowed.map (·.2)).countP p ≤ FixedWindow.grants p (answers os)) c ?_ ?_ es
  · exact (Nat.le_add_right _ _).trans h
  · rw [hc]
    exact Nat.le_refl _
  · intro _ os c' e h
    have hstep := step_allowed c' e p
    unfold insertions answers FixedWindow.grants at *
    rw [List.filterMap_append, List.filterMap_append, List.countP_append, List.countP_append]
    omega

end Calls

/-! ## The bounds -/

/-- **Automatic blocking is rate-bounded.** In calls of the breaker at any times, in order: each window allows at most
the limit, and each interval of five minutes at most twice that; the counter stays within the limit, a denied call leaves
it as it was, and below the largest limit no increment overflows. In any run of calls that ask the breaker at these times,
no more addresses are inserted than were allowed, in any window and any interval. -/
theorem auto_block_bounded (maxPerWindow : UInt32) (t₀ : ℕ) (times : List ℕ) (hmono : (t₀ :: times).Pairwise (· ≤ ·)) :
    let start := CircuitBreaker.new maxPerWindow t₀
    let replies := Mealy.outputs CircuitBreaker.step start times
    (∀ window, FixedWindow.grants (fun r => r.start = window) replies ≤ maxPerWindow.toNat) ∧
    (∀ a, FixedWindow.grants (FixedWindow.within (300 * 10 ^ 9) a) replies ≤ 2 * maxPerWindow.toNat) ∧
    (∀ now, let b := Mealy.after CircuitBreaker.step start times
      (b.checkAndIncrement now).1.blockCount ≤ maxPerWindow ∧
      ((b.checkAndIncrement now).2.isOk = false → (b.checkAndIncrement now).1.blockCount = b.blockCount) ∧
      (maxPerWindow.toNat + 1 < 2 ^ 32 → b.NoWrap now)) ∧
    ∀ whitelist blockedIps events,
      let effects := Mealy.outputs Calls.step (Calls.start maxPerWindow t₀ whitelist blockedIps) events
      (answers effects).map (·.time) = times →
        (∀ p, (insertions effects).countP p ≤ FixedWindow.grants p replies) ∧
        (∀ window, (insertions effects).countP (fun r => r.start = window) ≤ maxPerWindow.toNat) ∧
        ∀ a, (insertions effects).countP (FixedWindow.within (300 * 10 ^ 9) a) ≤ 2 * maxPerWindow.toNat := by
  intro start replies
  have hpos : 0 < 300 * 10 ^ 9 := by decide
  have hwindow : ∀ window, FixedWindow.grants (fun r => r.start = window) replies ≤ maxPerWindow.toNat := by
    intro window
    rw [show replies = _ from CircuitBreaker.refines_run start times]
    exact FixedWindow.window_le hpos (Nat.zero_le _) times window
  have hinterval : ∀ a, FixedWindow.grants (FixedWindow.within (300 * 10 ^ 9) a) replies ≤ 2 * maxPerWindow.toNat := by
    intro a
    rw [show replies = _ from CircuitBreaker.refines_run start times]
    exact FixedWindow.interval_le hpos rfl hmono a
  refine ⟨hwindow, hinterval, fun now => ?_, ?_⟩
  · obtain ⟨hle, hmax⟩ := CircuitBreaker.after_new maxPerWindow t₀ times
    have hle' := hle.trans_eq hmax.symm
    obtain ⟨hcount, hdenied⟩ := CircuitBreaker.checkAndIncrement_count now hle'
    refine ⟨hcount.trans_eq hmax, hdenied, fun hlt => ?_⟩
    exact CircuitBreaker.noWrap hle' (hmax.symm ▸ hlt)
  · intro whitelist blockedIps events effects htimes
    have hinserted : ∀ p, (insertions effects).countP p ≤ FixedWindow.grants p replies := by
      intro p
      have hle := inserted_le (Calls.start maxPerWindow t₀ whitelist blockedIps) rfl events p
      rwa [answers_eq, htimes] at hle
    exact ⟨hinserted, fun window => (hinserted _).trans (hwindow window), fun a => (hinserted _).trans (hinterval a)⟩

theorem auto_block_bounded_two : FixedWindow.grants (FixedWindow.within (300 * 10 ^ 9) 1)
    (Mealy.outputs CircuitBreaker.step (.new 2 0) [1, 2, 3, 300 * 10 ^ 9]) ≤ 4 :=
  (auto_block_bounded 2 0 [1, 2, 3, 300 * 10 ^ 9] (by decide)).2.1 1

/-- At the largest limit, calls at one time count up to it. -/
theorem count_replicate (n : ℕ) (hn : n < 2 ^ 32) :
    Mealy.after CircuitBreaker.step (.new 4294967295 0) (List.replicate n 0) =
      ⟨UInt32.ofNat n, 0, 4294967295, 300 * 10 ^ 9⟩ := by
  induction n with
  | zero => rfl
  | succ n ih =>
    have hlt : ¬ 4294967295 ≤ UInt32.ofNat n := by
      rw [UInt32.le_iff_toNat_le, UInt32.toNat_ofNat_of_lt' (Nat.lt_of_succ_lt hn)]
      show ¬ 4294967295 ≤ n
      omega
    rw [List.replicate_succ', Mealy.after_concat, ih (Nat.lt_of_succ_lt hn)]
    show (CircuitBreaker.checkAndIncrement _ 0).1 = _
    rw [CircuitBreaker.checkAndIncrement_eq]
    refine (congrArg Prod.fst (if_neg hlt)).trans ?_
    rw [UInt32.ofNat_add]
    rfl

/-- A denied call overflows the counter before it takes its increment back. -/
theorem denied_wraps : ¬ ∀ (maxPerWindow : UInt32) (t₀ : ℕ) (times : List ℕ), (t₀ :: times).Pairwise (· ≤ ·) →
    ∀ now, (Mealy.after CircuitBreaker.step (.new maxPerWindow t₀) times).NoWrap now := by
  intro h
  obtain ⟨n, hn⟩ : ∃ n, n = 2 ^ 32 - 1 := ⟨_, rfl⟩
  have hmono : (0 :: List.replicate n 0 : List ℕ).Pairwise (· ≤ ·) :=
    List.pairwise_replicate (n := n + 1).2 (.inr (Nat.le_refl 0))
  have hwrap := h 4294967295 0 _ hmono 0
  rw [count_replicate n (by omega), hn] at hwrap
  unfold CircuitBreaker.NoWrap at hwrap
  exact absurd hwrap (by decide)

end ThorFirewall.Soar
