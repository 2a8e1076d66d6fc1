import OsKernel.Process.Pids
import OsKernel.Process.TimeSlices

/-
This file follows the clock of a process: the rest of its time slice and its
processor time. Only `do_timer` moves it, and only that of the current process.
-/

namespace OsKernel.Proc
open OsKernel.Library

variable {H : Type} {A : Allocator H} {base : Finset Addr} {s s' : Kernel H} {f f' : Fifo Addr}
  {m m' : Machine H} {op : Op} {p q : Addr}

/-- The clock of a process shows the ticks left of its slice and the ticks it has used. -/
structure Clock where
  priority : Nat
  left : Nat
  used : Nat

def Process.clock (p : Process) : Clock := ⟨p.priority, p.counter, p.cpuTime⟩

/-- A tick takes one from the slice and counts as used, in 64 bits. -/
def Clock.charge (c : Clock) : Clock := { c with left := c.left - 1, used := (c.used + 1) % 2 ^ 64 }

/-- The clock after `n` ticks from a full slice. -/
def Clock.after (priority n : Nat) : Clock :=
  ⟨priority, counterInitValues.getD priority 0 - n, n % 2 ^ 64⟩

theorem Clock.charge_after (priority n : Nat) : (Clock.after priority n).charge = Clock.after priority (n + 1) := by
  rw [after, charge, after, Nat.mod_add_mod]
  rfl

section Calls

/-- Two states agree in every clock and in every saved context. -/
structure Undisturbed (s s' : Kernel H) : Prop where
  clock : ∀ q, (s'.procs q).clock = (s.procs q).clock
  context : ∀ q, (s'.procs q).context = (s.procs q).context
  contexts : s'.contexts = s.contexts

theorem Undisturbed.trans {s₁ s₂ s₃ : Kernel H} (first : Undisturbed s₁ s₂) (second : Undisturbed s₂ s₃) :
    Undisturbed s₁ s₃ where
  clock q := (second.clock q).trans (first.clock q)
  context q := (second.context q).trans (first.context q)
  contexts := second.contexts.trans first.contexts

/-- A state with the same processes and contexts, such as one with another heap. -/
theorem undisturbed_of_procs (procs : s'.procs = s.procs) (contexts : s'.contexts = s.contexts) : Undisturbed s s' :=
  ⟨fun q => by rw [procs], fun q => by rw [procs], contexts⟩

theorem Rescheduled.undisturbed (same : Rescheduled s s') : Undisturbed s s' := by
  refine ⟨fun q => ?_, fun q => ?_, ?_⟩
  · have field := congrArg Process.clock (congrFun (congrArg Kernel.procs same) q)
    exact field
  · have field := congrArg Process.context (congrFun (congrArg Kernel.procs same) q)
    exact field
  · have field := congrArg Kernel.contexts same
    exact field

theorem tick_clock (s : Kernel H) (cur q : Addr) :
    ((tick s cur).procs q).clock = if q = cur then (s.procs q).clock.charge else (s.procs q).clock := by
  by_cases same : q = cur
  · have counter := tick_counter s cur
    rw [if_pos same, same, Process.clock, counter, tick, Kernel.onProc_self]
    rfl
  · rw [if_neg same, tick, Kernel.onProc_of_ne _ _ _ _ same]

theorem doTimer_clock {fuel : Nat} (ran : doTimer fuel s = some s') (q : Addr) :
    (s'.procs q).clock = if s.current = some q then (s.procs q).clock.charge else (s.procs q).clock := by
  unfold doTimer at ran
  cases current : s.current with
  | none =>
      rw [current] at ran
      obtain rfl := Option.some.inj ran
      rfl
  | some cur =>
      rw [current] at ran
      dsimp only at ran
      have ticked := tick_clock s cur q
      simp only [Option.some.injEq, eq_comm (a := cur)]
      rw [← ticked]
      split at ran
      · exact (schedule_rescheduled ran).undisturbed.clock q
      · rw [Option.some.inj ran]

theorem reap_undisturbed (s : Kernel H) (target : Addr) : Undisturbed s (reap A s target) := by
  have cleared (t : Kernel H) : (clearTask t target).procs = t.procs ∧ (clearTask t target).contexts = t.contexts := by
    unfold clearTask
    split <;> exact ⟨rfl, rfl⟩
  unfold reap
  refine undisturbed_of_procs ?_ ?_
  · rw [recount, Kernel.kfree, (cleared _).1]
    split <;> split <;> rfl
  · rw [recount, Kernel.kfree, (cleared _).2]
    split <;> split <;> rfl

theorem processWaitResume_undisturbed (s : Kernel H) (pid : Int) (want : Bool) :
    Undisturbed s (processWaitResume A s pid want).2 := by
  rcases processWaitResume_cases (A := A) s pid want with ⟨failed, _⟩ | ⟨target, _, _, _, _, collected⟩
  · rw [failed]
    exact undisturbed_of_procs rfl rfl
  · rw [collected]
    exact reap_undisturbed s target

/-- A wait blocks its caller or reaps its target, and disturbs nothing. -/
theorem processWait_undisturbed {fuel : Nat} {pid : Int} {want : Bool} {outcome : WaitOutcome}
    (ran : processWait A fuel s pid want = some (outcome, s')) : Undisturbed s s' := by
  have unchanged {value : WaitReturn} (returned : some (WaitOutcome.returned value, s) = some (outcome, s')) :
      Undisturbed s s' := by
    obtain ⟨_, rfl⟩ := Prod.mk.inj (Option.some.inj returned)
    exact undisturbed_of_procs rfl rfl
  unfold processWait at ran
  split at ran
  next => exact unchanged ran
  next cur _ =>
      split at ran
      next => exact unchanged ran
      next =>
          split at ran
          next => exact unchanged ran
          next =>
              split at ran
              next => exact unchanged ran
              next target _ =>
                  split at ran
                  next =>
                      simp only [Option.bind_eq_bind, Option.bind_eq_some_iff] at ran
                      obtain ⟨t, scheduled, finished⟩ := ran
                      have blocked := ((rescheduled_onProc s cur .blocked).trans
                        (schedule_rescheduled scheduled)).undisturbed
                      split at finished
                      next =>
                          obtain ⟨_, rfl⟩ := Prod.mk.inj (Option.some.inj finished)
                          exact blocked.trans (processWaitResume_undisturbed t pid want)
                      next =>
                          obtain ⟨_, rfl⟩ := Prod.mk.inj (Option.some.inj finished)
                          exact blocked
                  next =>
                      obtain ⟨_, rfl⟩ := Prod.mk.inj (Option.some.inj ran)
                      exact reap_undisturbed s target

/-- An exit disturbs nothing, since its process owns no memory map. -/
theorem processExit_undisturbed {fuel : Nat} {code : Int} {outcome : ExitOutcome} (inv : KernelInv A base s f)
    (ran : processExit A fuel s code = some (outcome, s')) : Undisturbed s s' := by
  simp only [processExit, inv.simulates.current] at ran
  split at ran
  next =>
      obtain ⟨_, rfl⟩ := Prod.mk.inj (Option.some.inj ran)
      exact undisturbed_of_procs rfl rfl
  next =>
      simp only [Option.bind_eq_bind, Option.bind_eq_some_iff, Option.pure_def, Option.some.injEq] at ran
      obtain ⟨t, removed, t', scheduled, result⟩ := ran
      obtain ⟨_, rfl⟩ := Prod.mk.inj result
      have exiting := inv.exiting code inv.simulates.current
      have contexts : (exitRelease A s f.current code).contexts = s.contexts := by
        rw [exitRelease_eq code (inv.owns.noMap f.current inv.current_inTable)]
        split <;> rfl
      have released : Undisturbed s (exitRelease A s f.current code) :=
        ⟨exiting.kept Process.clock fun _ => rfl, exiting.kept Process.context fun _ => rfl, contexts⟩
      exact released.trans (((schedulerRemove_relinked removed).rescheduled.trans (wakeWaiters_rescheduled t)).trans
        (schedule_rescheduled scheduled)).undisturbed

theorem processAdmit_clock (s : Kernel H) (p q : Addr) :
    ((processAdmit s p).procs q).clock = (s.procs q).clock := by
  have ready := rescheduled_onProc s p .ready
  have added := (schedulerAdd_relinked (installTask (processSetState s (some p) .ready) p) p).rescheduled
  obtain ⟨task, count, installed⟩ := installTask_eq (processSetState s (some p) .ready) p
  rw [processAdmit, added.undisturbed.clock q, installed]
  exact ready.undisturbed.clock q

/-- A creation keeps the clock of every task, and a new task starts with a full slice and no used time. -/
theorem processCreate_clock (table : TableOk s) (owns : Owns A base s) (entry : Option Addr) (arg priority : Nat) :
    (∀ q, s.InTable q → ((processCreate A s entry arg priority).2.procs q).clock = (s.procs q).clock) ∧
    ∀ q, ¬ s.InTable q → (processCreate A s entry arg priority).2.InTable q →
      ((processCreate A s entry arg priority).2.procs q).clock =
        Clock.after ((processCreate A s entry arg priority).2.procs q).priority 0 := by
  rcases processCreate_cases A s entry arg priority with ⟨_, failed⟩ | ⟨p, t, ready, result⟩
  · refine ⟨fun q member => ?_, fun q absent member => ?_⟩
    · rw [failed.procs q (owns.live_of_inTable member)]
    · exact absurd ((Kernel.inTable_congr failed.task q).mp member) absent
  · rw [result]
    obtain ⟨_, admitted⟩ := ready.admitted table owns
    obtain ⟨_, stack, ctx, regs, pending⟩ := ready
    refine ⟨fun q member => ?_, fun q absent member => ?_⟩
    · rw [processAdmit_clock, pending.others q (admitted.ne member)]
    · obtain rfl := ((admitted.inTable q).mp member).resolve_right absent
      rw [processAdmit_clock, processAdmit_priority, pending.process]
      rfl

end Calls

section Steps

/-- Every step of a FIFO run but a tick and a creation leaves the clocks and the contexts alone. -/
theorem KernelInv.undisturbed (inv : KernelInv A base m.kernel f) (taken : Disciplined A fifoAllow m op m')
    (noTick : op ≠ .doTimer) (noCreate : op.isCreate = false) : Undisturbed m.kernel m'.kernel := by
  obtain ⟨allowed, _, fuel, ran⟩ := taken
  cases op with
  | create entry arg priority => cases noCreate
  | schedule =>
      obtain ⟨s', scheduled, rfl⟩ := Option.map_eq_some_iff.mp ran
      exact (schedule_rescheduled scheduled).undisturbed
  | scheduleSjf => cases allowed
  | doTimer => exact absurd rfl noTick
  | wake p =>
      obtain rfl := Option.some.inj ran
      exact (schedulerWake_rescheduled m.kernel p).undisturbed
  | block =>
      obtain ⟨s', blocked, rfl⟩ := Option.map_eq_some_iff.mp ran
      rw [schedulerBlock, inv.simulates.current] at blocked
      exact ((rescheduled_onProc m.kernel f.current .blocked).trans (schedule_rescheduled blocked)).undisturbed
  | setState p state => cases allowed
  | exit code =>
      obtain ⟨⟨outcome, s'⟩, exited, rfl⟩ := Option.map_eq_some_iff.mp ran
      rw [Machine.finishExit_kernel]
      exact processExit_undisturbed inv exited
  | wait pid want =>
      obtain ⟨⟨outcome, s'⟩, waited, rfl⟩ := Option.map_eq_some_iff.mp ran
      have kept := processWait_undisturbed waited
      cases outcome with
      | returned value => exact kept
      | suspended => exact kept
  | resume =>
      rw [OsKernel.Proc.exec] at ran
      split at ran
      next pid want _ =>
          obtain rfl := Option.some.inj ran
          exact processWaitResume_undisturbed m.kernel pid want
      next => cases ran

/-- A step of a FIFO run moves the clock of the current process when it is a tick, and no other. -/
theorem KernelInv.clock (inv : KernelInv A base m.kernel f) (taken : Disciplined A fifoAllow m op m')
    (member : m.kernel.InTable q) : (m'.kernel.procs q).clock =
      if op = .doTimer ∧ m.kernel.current = some q then (m.kernel.procs q).clock.charge
      else (m.kernel.procs q).clock := by
  by_cases tick : op = .doTimer
  · subst tick
    obtain ⟨_, _, fuel, ran⟩ := taken
    obtain ⟨s', ticked, rfl⟩ := Option.map_eq_some_iff.mp ran
    simpa using doTimer_clock ticked q
  · rw [if_neg fun both => tick both.1]
    by_cases create : op.isCreate = true
    · cases op with
      | create entry arg priority =>
          obtain ⟨_, _, _, ran⟩ := taken
          obtain rfl := Option.some.inj ran
          exact (processCreate_clock inv.table inv.owns entry arg priority).1 q member
      | _ => cases create
    · exact (inv.undisturbed taken tick (Bool.eq_false_iff.mpr create)).clock q

/-- A step either keeps a task that was there, or brings in a task whose clock is new. -/
theorem KernelInv.clock_new (inv : KernelInv A base m.kernel f) (taken : Disciplined A fifoAllow m op m')
    (absent : ¬ m.kernel.InTable q) (member : m'.kernel.InTable q) :
    (m'.kernel.procs q).clock = Clock.after (m'.kernel.procs q).priority 0 := by
  have effect := (inv.step taken).2
  obtain ⟨_, _, fuel, ran⟩ := taken
  cases op with
  | create entry arg priority =>
      obtain rfl := Option.some.inj ran
      exact (processCreate_clock inv.table inv.owns entry arg priority).2 q absent member
  | _ =>
      cases effect.table inv with
      | same tasks _ _ _ => exact absurd ((Kernel.inTable_congr tasks q).mp member) absent
      | admitted create _ => cases create
      | reaped _ _ reaped => exact absurd ((reaped.inTable inv.table q).mp member).1 absent

end Steps

section Runs

/-- The meter counts the ticks of every task since the task entered the table. -/
structure Metered (H : Type) where
  machine : Machine H
  used : Addr → Nat

def Metered.start (m : Machine H) : Metered H := ⟨m, fun _ => 0⟩

/-- A tick counts for the process that is current when it comes. -/
def Metered.advance (r : Metered H) (op : Op) (m' : Machine H) : Metered H where
  machine := m'
  used := fun p =>
    if ¬ r.machine.kernel.InTable p then 0
    else if op = .doTimer ∧ r.machine.kernel.current = some p then r.used p + 1
    else r.used p

/-- A step of a FIFO run with its meter. -/
def MeteredStep (A : Allocator H) (r : Metered H) (op : Op) (r' : Metered H) : Prop :=
  ∃ m', Disciplined A fifoAllow r.machine op m' ∧ r' = r.advance op m'

/-- The processor time of a task is what the meter shows, and its counter is what is left of its first slice. -/
def Metered.Exact (r : Metered H) : Prop :=
  ∀ p, r.machine.kernel.InTable p →
    (r.machine.kernel.procs p).cpuTime = r.used p % 2 ^ 64 ∧
    (r.machine.kernel.procs p).counter =
      counterInitValues.getD (r.machine.kernel.procs p).priority 0 - r.used p

theorem Metered.exact_iff {r : Metered H} : r.Exact ↔ ∀ p, r.machine.kernel.InTable p →
    (r.machine.kernel.procs p).clock = Clock.after (r.machine.kernel.procs p).priority (r.used p) := by
  simp only [Exact, Process.clock, Clock.after, Clock.mk.injEq, true_and, and_comm]

theorem Metered.Exact.step {r r' : Metered H} (exact : r.Exact) (inv : KernelInv A base r.machine.kernel f)
    (taken : MeteredStep A r op r') : r'.Exact := by
  rw [exact_iff] at exact ⊢
  obtain ⟨m', step, rfl⟩ := taken
  intro p member
  change (m'.kernel.procs p).clock = Clock.after (m'.kernel.procs p).priority (if _ then _ else _)
  by_cases old : r.machine.kernel.InTable p
  · have moved := inv.clock step old
    rw [if_neg (not_not.mpr old)]
    split at moved
    next ticks =>
        rw [if_pos ticks, moved, exact p old, Clock.charge_after]
        have priority := congrArg Clock.priority moved
        change (m'.kernel.procs p).priority = (r.machine.kernel.procs p).priority at priority
        rw [priority]
    next silent =>
        rw [if_neg silent, moved, exact p old]
        have priority := congrArg Clock.priority moved
        change (m'.kernel.procs p).priority = (r.machine.kernel.procs p).priority at priority
        rw [priority]
  · rw [if_pos old]
    exact inv.clock_new step old member

variable {heap : H} {start : Machine H} {ops : List Op}

/-- Every run of the machine has a meter. -/
theorem exists_metered (run : Run (Disciplined A fifoAllow) start ops m) :
    ∃ r, Run (MeteredStep A) (.start start) ops r ∧ r.machine = m := by
  induction run with
  | nil => exact ⟨.start start, .nil, rfl⟩
  | @snoc ops m₁ m₂ op _ taken ih =>
      obtain ⟨r, earlier, rfl⟩ := ih
      exact ⟨r.advance op m₂, .snoc earlier ⟨m₂, taken, rfl⟩, rfl⟩

theorem Metered.run {r : Metered H} (run : Run (MeteredStep A) (.start start) ops r) :
    Run (Disciplined A fifoAllow) start ops r.machine := by
  induction run with
  | nil => exact .nil
  | snoc _ taken ih =>
      obtain ⟨m', step, rfl⟩ := taken
      exact .snoc ih step

/-- In every FIFO run each task is charged for exactly the ticks that found it current since it entered the table,
and its counter is what these ticks have left of the one slice it was given. -/
theorem fifo_run_metered (booted : Booted A heap start) (run : Run (Disciplined A fifoAllow) start ops m) :
    ∃ r, Run (MeteredStep A) (.start start) ops r ∧ r.machine = m ∧ r.Exact := by
  obtain ⟨r, metered, same⟩ := exists_metered run
  refine ⟨r, metered, same, metered.invariant (fun _ r => r.Exact) ?_ ?_⟩
  · obtain ⟨procs, contexts, kernel, initialised, rfl⟩ := booted
    obtain ⟨idle, stack, ctx, started⟩ := processInit_started initialised
    intro p member
    change kernel.InTable p at member
    change (kernel.procs p).cpuTime = 0 % 2 ^ 64 ∧
      (kernel.procs p).counter = counterInitValues.getD (kernel.procs p).priority 0 - 0
    rw [(started.inTable p).mp member, started.process]
    exact ⟨rfl, rfl⟩
  · intro ops r op r' earlier exact taken
    obtain ⟨f, inv⟩ := fifo_run_inv booted (Metered.run earlier)
    exact exact.step inv taken

/-- A process with three ticks uses them up, and a further tick leaves the counter at zero. -/
theorem fifo_run_metered_sample :
    ∃ m r, Run (Disciplined sampleAllocator fifoAllow) sampleStart
        [.create (some 7) 0 2, .doTimer, .doTimer, .doTimer, .doTimer, .doTimer, .doTimer] m ∧
      Run (MeteredStep sampleAllocator) (.start sampleStart)
        [.create (some 7) 0 2, .doTimer, .doTimer, .doTimer, .doTimer, .doTimer, .doTimer] r ∧
      r.machine = m ∧ r.Exact ∧ (m.kernel.procs 103).cpuTime = 4 ∧ (m.kernel.procs 103).counter = 0 := by
  obtain ⟨m, run, checked⟩ := exists_run sampleAllocator fifoAllow 20 sampleStart
    [.create (some 7) 0 2, .doTimer, .doTimer, .doTimer, .doTimer, .doTimer, .doTimer]
    (fun m => decide ((m.kernel.procs 103).cpuTime = 4 ∧ (m.kernel.procs 103).counter = 0)) (by decide +kernel)
  obtain ⟨r, metered, same, exact⟩ := fifo_run_metered sampleStart_booted run
  obtain ⟨time, left⟩ := of_decide_eq_true checked
  exact ⟨m, r, run, metered, same, exact, time, left⟩

end Runs

end OsKernel.Proc
