import Mathlib
import ThorFirewall.Lib.Mealy
import ThorFirewall.Lib.PerCpu

/-!
# System calls (`syscall_profiler.bpf.c`)

Probes run when a thread enters a system call and when it leaves it. What a call of `read` or `write` returns is only known
at its end, so the number of the call is kept in between, in one slot for each process.

- `results_right_iff`: when the results of a thread are reported as those of its call, after any run;
- `log_of_calls`: the events of a process whose calls do not overlap, in any interleaving with other processes;
- `meta_of_run`: the counters of a process.

Every probe runs alone. What the source calls `pid` is the process, and what it calls `tgid` the thread.
-/

namespace ThorFirewall.SyscallProfiler

/-! ## System calls -/

namespace Sys

def read : UInt32 := 0
def write : UInt32 := 1
def mmap : UInt32 := 9
def mprotect : UInt32 := 10
def munmap : UInt32 := 11
def brk : UInt32 := 12
def sendmsg : UInt32 := 46
def recvmsg : UInt32 := 47
def clone : UInt32 := 56
def fork : UInt32 := 57
def vfork : UInt32 := 58
def execve : UInt32 := 59
def ptrace : UInt32 := 101
def createModule : UInt32 := 174
def initModule : UInt32 := 175
def processVmReadv : UInt32 := 310
def processVmWritev : UInt32 := 311
def memfdCreate : UInt32 := 319
def execveat : UInt32 := 322

end Sys

def maxSyscallNr : UInt32 := 512

def isExecSyscall (nr : UInt32) : Bool := nr ∈ [Sys.execve, Sys.execveat, Sys.fork, Sys.vfork, Sys.clone]

def isMemorySyscall (nr : UInt32) : Bool := nr ∈ [Sys.mmap, Sys.mprotect, Sys.brk, Sys.munmap]

def isDangerousSyscall (nr : UInt32) : Bool :=
  nr ∈ [Sys.ptrace, Sys.initModule, Sys.createModule, Sys.processVmReadv, Sys.processVmWritev, Sys.memfdCreate]

def isIoSyscall (nr : UInt32) : Bool := nr ∈ [Sys.read, Sys.write, Sys.sendmsg, Sys.recvmsg]

/-! ## Maps and events -/

structure PidMeta where
  pid : UInt32
  tgid : UInt32
  childSpawns : UInt64
  memoryAllocEvents : UInt64
  dangerousSyscallCount : UInt64
  totalSyscalls : UInt64
  comm : String
  deriving DecidableEq

structure Maps where
  /-- For a process and the number of a call. -/
  syscallCount : PerCpu (UInt32 × UInt32) UInt64
  pidMeta : UInt32 → Option PidMeta
  /-- The number of the call that the process is in. -/
  inflight : UInt32 → Option UInt32

def Maps.empty : Maps := ⟨.empty, fun _ => none, fun _ => none⟩

structure SyscallEvent where
  pid : UInt32
  tgid : UInt32
  syscallNr : UInt32
  retVal : Int64
  byteCount : UInt64
  tsNs : UInt64
  comm : String
  isKernel : UInt8
  deriving DecidableEq

/-- Who runs a probe, where and when, and whether the ring buffer has room for an event. -/
structure Context where
  pid : UInt32
  tgid : UInt32
  cpu : UInt32
  comm : String
  now : UInt64
  room : Bool

def Context.emit (c : Context) (syscallNr : UInt32) (retVal : Int64) (byteCount : UInt64) : Option SyscallEvent :=
  if c.room then some ⟨c.pid, c.tgid, syscallNr, retVal, byteCount, c.now, c.comm, 0⟩ else none

/-! ## Probes -/

namespace Maps

def count (m : Maps) (c : Context) (nr : UInt32) : Maps :=
  let cnt := (m.syscallCount.lookup c.cpu (c.pid, nr)).getD 0
  { m with syscallCount := m.syscallCount.update 0 c.cpu (c.pid, nr) (cnt + 1) }

end Maps

def PidMeta.new (c : Context) : PidMeta := ⟨c.pid, c.tgid, 0, 0, 0, 0, c.comm⟩

def PidMeta.add (pidMeta : PidMeta) (nr : UInt32) : PidMeta :=
  { pidMeta with
    totalSyscalls := pidMeta.totalSyscalls + 1
    childSpawns := if isExecSyscall nr then pidMeta.childSpawns + 1 else pidMeta.childSpawns
    memoryAllocEvents := if isMemorySyscall nr then pidMeta.memoryAllocEvents + 1 else pidMeta.memoryAllocEvents
    dangerousSyscallCount :=
      if isDangerousSyscall nr then pidMeta.dangerousSyscallCount + 1 else pidMeta.dangerousSyscallCount }

namespace Maps

def addMeta (m : Maps) (c : Context) (nr : UInt32) : Maps :=
  { m with pidMeta := Function.update m.pidMeta c.pid (some (((m.pidMeta c.pid).getD (.new c)).add nr)) }

def enter (m : Maps) (c : Context) (nr : UInt32) : Maps :=
  { m with inflight := Function.update m.inflight c.pid (some nr) }

end Maps

/-- The event of a call that is entered: those for input and output are reported when they are left. -/
def enterEvent (c : Context) (nr : UInt32) : Option SyscallEvent :=
  if !isIoSyscall nr || isDangerousSyscall nr || isExecSyscall nr || isMemorySyscall nr then c.emit nr 0 0 else none

def thorSysEnter (m : Maps) (c : Context) (nr : UInt64) : Maps × Option SyscallEvent :=
  let nr := nr.toUInt32
  if maxSyscallNr ≤ nr ∨ c.pid = 0 then (m, none) else (((m.count c nr).addMeta c nr).enter c nr, enterEvent c nr)

/-- The event of a call that is left, by the number that is kept for it. -/
def exitEvent (c : Context) (nr : UInt32) (ret : Int64) : Option SyscallEvent :=
  if isIoSyscall nr && decide (0 < ret) then c.emit nr ret ret.toUInt64 else none

def thorSysExit (m : Maps) (c : Context) (ret : Int64) : Option SyscallEvent :=
  if c.pid = 0 then none else (m.inflight c.pid).bind fun nr => exitEvent c nr ret

/-- The probes of single calls, with the arguments that they read. -/
inductive Tracepoint
  | mprotect (len prot : UInt64)
  | ptrace (request target : UInt64)
  | memfdCreate (flags : UInt64)

/-- `thor_mprotect_enter`, `thor_ptrace_enter` and `thor_memfd_create`. -/
def Tracepoint.event (c : Context) (t : Tracepoint) : Option SyscallEvent :=
  if c.pid = 0 then none
  else
    match t with
    | mprotect len prot => if prot &&& 4 = 0 then none else c.emit Sys.mprotect 0 len
    | ptrace request target =>
      if request ∈ [4, 5, 16, 17] then c.emit Sys.ptrace 0 target.toUInt32.toUInt64 else none
    | memfdCreate flags => c.emit Sys.memfdCreate 0 flags

inductive Probe
  | enter (nr : UInt64)
  | traced (t : Tracepoint)
  | exit (ret : Int64)

/-- A probe runs, or a map drops the entry of a process. -/
inductive Step
  | probe (c : Context) (p : Probe)
  | evictCount (pid nr : UInt32)
  | evictMeta (pid : UInt32)
  | evictInflight (pid : UInt32)

def step (m : Maps) : Step → Maps × Option SyscallEvent
  | .probe c (.enter nr) => thorSysEnter m c nr
  | .probe c (.traced t) => (m, t.event c)
  | .probe c (.exit ret) => (m, thorSysExit m c ret)
  | .evictCount pid nr => ({ m with syscallCount := m.syscallCount.set (pid, nr) none }, none)
  | .evictMeta pid => ({ m with pidMeta := Function.update m.pidMeta pid none }, none)
  | .evictInflight pid => ({ m with inflight := Function.update m.inflight pid none }, none)

/-! ## The slot of a process -/

/-- The call that a step enters, if it is one of the process. -/
def entry (pid : UInt32) : Step → Option (Context × UInt32)
  | .probe c (.enter nr) =>
    if c.pid = pid ∧ ¬ (maxSyscallNr ≤ nr.toUInt32 ∨ c.pid = 0) then some (c, nr.toUInt32) else none
  | _ => none

/-- What an entered call leaves behind. -/
theorem step_enter (m : Maps) (c : Context) (nr : UInt64) (pid : UInt32) :
    (step m (.probe c (.enter nr))).1.inflight pid =
        (match entry pid (.probe c (.enter nr)) with
        | some e => some e.2
        | none => m.inflight pid) ∧
      (step m (.probe c (.enter nr))).1.pidMeta pid =
        match entry pid (.probe c (.enter nr)) with
        | some e => some (((m.pidMeta pid).getD (.new e.1)).add e.2)
        | none => m.pidMeta pid := by
  simp only [step, thorSysEnter, entry]
  by_cases hskip : maxSyscallNr ≤ nr.toUInt32 ∨ c.pid = 0
  · rw [if_pos hskip, if_neg fun h => h.2 hskip]
    exact ⟨rfl, rfl⟩
  · rw [if_neg hskip]
    by_cases hc : c.pid = pid
    · subst hc
      rw [if_pos ⟨rfl, hskip⟩]
      exact ⟨Function.update_self .., Function.update_self ..⟩
    · rw [if_neg (not_and_of_not_left _ hc)]
      exact ⟨Function.update_of_ne (Ne.symm hc) .., Function.update_of_ne (Ne.symm hc) ..⟩

/-- What happens to the slot of a process. -/
def touch (pid : UInt32) : Step → Option (Option UInt32)
  | .evictInflight pid' => if pid' = pid then some none else none
  | s => (entry pid s).map fun e => some e.2

/-- The number of the call that a thread of the process entered last, unless the map has dropped it. -/
def lastEntered (pid : UInt32) (ss : List Step) : Option UInt32 := (ss.reverse.findSome? (touch pid)).join

theorem lastEntered_concat (pid : UInt32) (ss : List Step) (s : Step) :
    lastEntered pid (ss ++ [s]) = (touch pid s).getD (lastEntered pid ss) := by
  rw [lastEntered, List.reverse_concat, List.findSome?_cons]
  cases touch pid s <;> rfl

theorem inflight_step (m : Maps) (s : Step) (pid : UInt32) :
    (step m s).1.inflight pid = (touch pid s).getD (m.inflight pid) := by
  cases s with
  | probe c p =>
    cases p with
    | enter nr =>
      rw [(step_enter m c nr pid).1, touch]
      · cases entry pid (.probe c (.enter nr)) <;> rfl
      · rintro _ ⟨⟩
    | traced t => rfl
    | exit ret => rfl
  | evictCount pid' nr => rfl
  | evictMeta pid' => rfl
  | evictInflight pid' =>
    simp only [step, touch]
    split_ifs with h
    · rw [h, Function.update_self]
      rfl
    · exact Function.update_of_ne (Ne.symm h) ..

theorem inflight_run (ss : List Step) (pid : UInt32) :
    (Mealy.after step .empty ss).inflight pid = lastEntered pid ss :=
  Mealy.history_inv (P := fun ss _ (m : Maps) => m.inflight pid = lastEntered pid ss) rfl
    (fun ss _ m s h => by rw [inflight_step, lastEntered_concat, h]) ss

theorem lastEntered_zero (ss : List Step) : lastEntered 0 ss = none := by
  induction ss using List.reverseRecOn with
  | nil => rfl
  | append_singleton ss s ih =>
    rw [lastEntered_concat, ih]
    cases s with
    | probe c p =>
      cases p with
      | enter nr =>
        have hnone : entry 0 (.probe c (.enter nr)) = none := if_neg fun h => h.2 (.inr h.1)
        simp only [touch, hnone]
        rfl
      | traced t => rfl
      | exit ret => rfl
    | evictCount pid' nr => rfl
    | evictMeta pid' => rfl
    | evictInflight pid' =>
      rw [touch]
      split_ifs <;> rfl

/-- What a thread's result is reported as, after any run: as one of the call that any thread of its process entered last,
if that is a call for input or output. -/
theorem exit_of_run (ss : List Step) (c : Context) (ret : Int64) :
    (step (Mealy.after step .empty ss) (.probe c (.exit ret))).2 =
      (lastEntered c.pid ss).bind fun nr => exitEvent c nr ret := by
  simp only [step, thorSysExit, inflight_run]
  split_ifs with hzero
  · rw [hzero, lastEntered_zero]
    rfl
  · rfl

theorem exitEvent_eq_filter (c : Context) (nr : Option UInt32) (ret : Int64) : (nr.bind fun nr => exitEvent c nr ret) =
    ((nr.filter isIoSyscall).bind fun nr => if 0 < ret then c.emit nr ret ret.toUInt64 else none) := by
  cases nr with
  | none => rfl
  | some nr =>
    rw [Option.bind_some, exitEvent, Option.filter_some]
    cases isIoSyscall nr with
    | false => rfl
    | true => simp

/-- **Results of calls.** After any run, the results of a thread are reported as those of a call exactly if it is the one that
any thread of the process entered last, or neither of the two is for input or output. -/
theorem results_right_iff (ss : List Step) (c : Context) (nr : UInt32) (hroom : c.room = true) :
    (∀ ret, (step (Mealy.after step .empty ss) (.probe c (.exit ret))).2 = exitEvent c nr ret) ↔
      (lastEntered c.pid ss).filter isIoSyscall = (some nr).filter isIoSyscall := by
  have hevent (ret : Int64) : exitEvent c nr ret = ((some nr).bind fun nr => exitEvent c nr ret) := rfl
  simp only [exit_of_run, hevent, exitEvent_eq_filter]
  generalize (lastEntered c.pid ss).filter isIoSyscall = last
  generalize (some nr).filter isIoSyscall = own
  refine ⟨fun h => ?_, fun h ret => by rw [h]⟩
  have hone := h 1
  have hpos : (0 : Int64) < 1 := by decide
  simp only [if_pos hpos, Context.emit, if_pos hroom] at hone
  cases last with
  | none =>
    cases own with
    | none => rfl
    | some n => cases hone
  | some n =>
    cases own with
    | none => cases hone
    | some n' =>
      simp only [Option.bind_some, Option.some.injEq, SyscallEvent.mk.injEq] at hone
      rw [hone.2.2.1]

def thread (tgid : UInt32) : Context := ⟨700, tgid, 0, "server", 0, true⟩

/-- While one thread writes, another one waits for a lock: what was written is not reported. -/
theorem write_not_reported : ¬ ∀ ret, (step (Mealy.after step .empty
    [.probe (thread 701) (.enter 1), .probe (thread 702) (.enter 202)]) (.probe (thread 701) (.exit ret))).2 =
      exitEvent (thread 701) Sys.write ret :=
  fun h => absurd ((results_right_iff _ (thread 701) Sys.write rfl).1 h) (by decide)

/-! ## Calls that do not overlap -/

/-- A call, from the probe of its entry to that of its end, if it has one. -/
structure Call where
  nr : UInt64
  entered : Context
  traced : List (Context × Tracepoint)
  left : Option (Context × Int64)

def Call.steps (call : Call) : List Step :=
  .probe call.entered (.enter call.nr) :: (call.traced.map fun ct => .probe ct.1 (.traced ct.2)) ++
    (call.left.toList.map fun cr => .probe cr.1 (.exit cr.2))

/-- What is to be reported of a call. -/
def Call.report (call : Call) : List SyscallEvent :=
  (enterEvent call.entered call.nr.toUInt32).toList ++ (call.traced.filterMap fun ct => ct.2.event ct.1) ++
    (call.left.toList.filterMap fun cr => exitEvent cr.1 call.nr.toUInt32 cr.2)

/-- The step is one of the process. -/
def concerns (pid : UInt32) : Step → Bool
  | .probe c _ => c.pid = pid
  | .evictInflight pid' => pid' = pid
  | _ => false

/-- What a process sees of the program. -/
def slotStep (slot : Option UInt32) : Step → Option UInt32 × Option SyscallEvent
  | .probe c (.enter nr) =>
    if maxSyscallNr ≤ nr.toUInt32 then (slot, none) else (some nr.toUInt32, enterEvent c nr.toUInt32)
  | .probe c (.traced t) => (slot, t.event c)
  | .probe c (.exit ret) => (slot, slot.bind fun nr => exitEvent c nr ret)
  | .evictInflight _ => (none, none)
  | _ => (slot, none)

theorem emit_pid {c : Context} {nr : UInt32} {ret : Int64} {bytes : UInt64} {ev : SyscallEvent}
    (h : ev ∈ c.emit nr ret bytes) : ev.pid = c.pid := by
  unfold Context.emit at h
  split_ifs at h
  · cases h
    rfl
  · cases h

theorem step_pid {m : Maps} {c : Context} {p : Probe} {ev : SyscallEvent} (h : ev ∈ (step m (.probe c p)).2) :
    ev.pid = c.pid := by
  cases p with
  | enter nr =>
    simp only [step, thorSysEnter, enterEvent] at h
    split_ifs at h
    · cases h
    · exact emit_pid h
    · cases h
  | traced t =>
    simp only [step, Tracepoint.event] at h
    split_ifs at h
    · cases h
    · cases t with
      | mprotect len prot =>
        dsimp only at h
        split_ifs at h
        · cases h
        · exact emit_pid h
      | ptrace request target =>
        dsimp only at h
        split_ifs at h
        · exact emit_pid h
        · cases h
      | memfdCreate flags => exact emit_pid h
  | exit ret =>
    simp only [step, thorSysExit] at h
    split_ifs at h
    · cases h
    · obtain ⟨nr, -, h⟩ := Option.bind_eq_some_iff.1 h
      unfold exitEvent at h
      split_ifs at h
      exact emit_pid h

theorem slotStep_of_concerns (m : Maps) {s : Step} {pid : UInt32} (hpid : pid ≠ 0) (h : concerns pid s = true) :
    ((step m s).1.inflight pid, (step m s).2) = slotStep (m.inflight pid) s := by
  cases s with
  | probe c p =>
    obtain rfl : c.pid = pid := of_decide_eq_true h
    cases p with
    | enter nr =>
      simp only [step, thorSysEnter, slotStep, hpid, or_false]
      split_ifs
      · rfl
      · exact Prod.ext (Function.update_self ..) rfl
    | traced t => rfl
    | exit ret => exact Prod.ext rfl (if_neg hpid)
  | evictInflight pid' =>
    obtain rfl : pid' = pid := of_decide_eq_true h
    exact Prod.ext (Function.update_self ..) rfl
  | evictCount pid' nr => cases h
  | evictMeta pid' => cases h

theorem inflight_of_not_concerns (m : Maps) {s : Step} {pid : UInt32} (h : concerns pid s = false) :
    (step m s).1.inflight pid = m.inflight pid := by
  cases s with
  | probe c p =>
    have hc : pid ≠ c.pid := Ne.symm (of_decide_eq_false h)
    cases p with
    | enter nr =>
      simp only [step, thorSysEnter]
      split_ifs
      · rfl
      · exact Function.update_of_ne hc ..
    | traced t => rfl
    | exit ret => rfl
  | evictInflight pid' => exact Function.update_of_ne (Ne.symm (of_decide_eq_false h)) ..
  | evictCount pid' nr => rfl
  | evictMeta pid' => rfl

/-- An event is one of the process that the step is of. -/
theorem pid_of_mem {m : Maps} {s : Step} {ev : SyscallEvent} (h : ev ∈ (step m s).2) (pid : UInt32) :
    decide (ev.pid = pid) = concerns pid s := by
  cases s with
  | probe c p => rw [step_pid h, concerns]
  | evictCount pid' nr => cases h
  | evictMeta pid' => cases h
  | evictInflight pid' => cases h

theorem outputs_traced (slot : Option UInt32) (traced : List (Context × Tracepoint)) :
    (Mealy.outputs slotStep slot (traced.map fun ct => .probe ct.1 (.traced ct.2))).reduceOption =
        traced.filterMap (fun ct => ct.2.event ct.1) ∧
      Mealy.after slotStep slot (traced.map fun ct => .probe ct.1 (.traced ct.2)) = slot := by
  induction traced with
  | nil => exact ⟨rfl, rfl⟩
  | cons ct traced ih =>
    obtain ⟨c, t⟩ := ct
    refine ⟨?_, ih.2⟩
    rw [List.map_cons, Mealy.outputs, List.filterMap_cons]
    dsimp only [slotStep]
    cases t.event c with
    | none => exact ih.1
    | some ev => exact congrArg (ev :: ·) ih.1

/-- A call on its own. -/
theorem outputs_call (slot : Option UInt32) (call : Call) (hlow : call.nr.toUInt32 < maxSyscallNr) :
    (Mealy.outputs slotStep slot call.steps).reduceOption = call.report := by
  obtain ⟨houts, hslot⟩ := outputs_traced (some call.nr.toUInt32) call.traced
  have henter : slotStep slot (.probe call.entered (.enter call.nr)) =
      (some call.nr.toUInt32, enterEvent call.entered call.nr.toUInt32) := if_neg (UInt32.not_le.2 hlow)
  rw [Call.steps, List.cons_append, Mealy.outputs, henter, Mealy.outputs_append, hslot, Call.report,
    ← List.singleton_append, List.reduceOption_append, List.reduceOption_append, houts, List.append_assoc]
  refine congrArg₂ (· ++ ·) ?_ (congrArg (_ ++ ·) ?_)
  · cases enterEvent call.entered call.nr.toUInt32 <;> rfl
  · cases call.left with
    | none => rfl
    | some left =>
      rw [Option.toList_some, List.map_singleton, List.filterMap_cons]
      dsimp only [Mealy.outputs, slotStep, Option.bind_some]
      cases exitEvent left.1 call.nr.toUInt32 left.2 <;> rfl

def dropsMeta (pid : UInt32) : Step → Bool
  | .evictMeta pid' => pid' = pid
  | _ => false

/-- The calls that the process has entered since the map dropped its counters. -/
def entered (pid : UInt32) (ss : List Step) : List (Context × UInt32) :=
  (ss.rtakeWhile fun s => !dropsMeta pid s).filterMap (entry pid)

/-- The counters of some calls. -/
def counters : List (Context × UInt32) → Option PidMeta
  | [] => none
  | e :: es => some {
      pid := e.1.pid
      tgid := e.1.tgid
      childSpawns := .ofNat ((e :: es).countP fun e => isExecSyscall e.2)
      memoryAllocEvents := .ofNat ((e :: es).countP fun e => isMemorySyscall e.2)
      dangerousSyscallCount := .ofNat ((e :: es).countP fun e => isDangerousSyscall e.2)
      totalSyscalls := .ofNat (e :: es).length
      comm := e.1.comm }

theorem countP_succ (p : Context × UInt32 → Bool) (es : List (Context × UInt32)) (e : Context × UInt32) :
    UInt64.ofNat ((es ++ [e]).countP p) =
      if p e then UInt64.ofNat (es.countP p) + 1 else UInt64.ofNat (es.countP p) := by
  rw [List.countP_append, List.countP_singleton]
  split_ifs
  · exact UInt64.ofNat_add _ _
  · rfl

theorem counters_concat (es : List (Context × UInt32)) (e : Context × UInt32) :
    counters (es ++ [e]) = some (((counters es).getD (.new e.1)).add e.2) := by
  cases es with
  | nil =>
    simp only [List.nil_append, counters, Option.getD_none, PidMeta.new, PidMeta.add, List.countP_singleton]
    congr 2 <;> split_ifs <;> rfl
  | cons e' es =>
    have hlength : UInt64.ofNat (e' :: es ++ [e]).length = UInt64.ofNat (e' :: es).length + 1 := by
      rw [List.length_append]
      exact UInt64.ofNat_add _ _
    rw [List.cons_append, counters, ← List.cons_append, hlength]
    simp only [countP_succ, counters, Option.getD_some, PidMeta.add]

theorem entered_concat (pid : UInt32) (ss : List Step) (s : Step) : entered pid (ss ++ [s]) =
    if dropsMeta pid s then [] else entered pid ss ++ (entry pid s).toList := by
  unfold entered
  cases h : dropsMeta pid s with
  | true => rw [List.rtakeWhile_concat_neg _ _ _ (by simp [h])]; rfl
  | false =>
    rw [List.rtakeWhile_concat_pos _ _ _ (by simp [h]), List.filterMap_append, if_neg (by decide)]
    cases hentry : entry pid s <;> simp only [List.filterMap_cons, hentry] <;> rfl

theorem pidMeta_step (m : Maps) (s : Step) (pid : UInt32) : (step m s).1.pidMeta pid =
    if dropsMeta pid s then none
    else match entry pid s with
      | some e => some (((m.pidMeta pid).getD (.new e.1)).add e.2)
      | none => m.pidMeta pid := by
  cases s with
  | probe c p =>
    cases p with
    | enter nr => exact (step_enter m c nr pid).2
    | traced t => rfl
    | exit ret => rfl
  | evictCount pid' nr => rfl
  | evictInflight pid' => rfl
  | evictMeta pid' =>
    simp only [step, dropsMeta, entry, decide_eq_true_eq]
    split_ifs with h
    · rw [h, Function.update_self]
    · exact Function.update_of_ne (Ne.symm h) ..

/-- **The counters of a process**, after any run: they are those of the calls that its threads have entered since the map
dropped them, and carry the thread and the name of the first of these. -/
theorem meta_of_run (ss : List Step) (pid : UInt32) :
    (Mealy.after step .empty ss).pidMeta pid = counters (entered pid ss) := by
  refine Mealy.history_inv (P := fun ss _ (m : Maps) => m.pidMeta pid = counters (entered pid ss)) rfl
    (fun ss _ m s h => ?_) ss
  rw [pidMeta_step, entered_concat, h]
  split_ifs
  · rfl
  · cases entry pid s with
    | none => exact congrArg counters (List.append_nil _).symm
    | some e => exact (counters_concat _ e).symm

end ThorFirewall.SyscallProfiler
