import OsKernel.Process.Monitoring

/-
This file runs the process subsystem and the monitor side by side.
Every FIFO run is a run of the monitor, whatever the allocator, and the monitor makes no call that the kernel refuses.
-/

namespace OsKernel.Proc
open OsKernel.Library

variable {H : Type} {A : Allocator H} {base : Finset Addr} {f f' : Fifo Addr} {m m' : Machine H} {a a' : Monitor}
  {op : Op} {call : Call} {reply : Answer}

/-- An operation as its caller sees it. -/
inductive Speaks (A : Allocator H) (m : Machine H) : Op → Call → Answer → Prop
  | create (entry : Option Addr) (arg priority : Nat) : Speaks A m (.create entry arg priority)
      (.create entry.isSome priority (memoryOf A m.kernel.heap)) (.pid (processCreate A m.kernel entry arg priority).1)
  | schedule : Speaks A m .schedule .yield .done
  | doTimer : Speaks A m .doTimer .tick .done
  | wake {p : Addr} {i : Fin 64} (held : At m.kernel p i) : Speaks A m (.wake p) (.wake i) .done
  | block : Speaks A m .block .block .done
  | exit (code : Int) : Speaks A m (.exit code) (.exit code) .done
  | wait {fuel : Nat} {pid : Int} {want : Bool} {outcome : WaitOutcome} {kernel : Kernel H}
      (ran : processWait A fuel m.kernel pid want = some (outcome, kernel)) :
      Speaks A m (.wait pid want) (.wait pid want) outcome.answer
  | resume {pid : Int} {want : Bool} (frame : m.frame = some (.wait pid want)) :
      Speaks A m .resume .resume (.waited (processWaitResume A m.kernel pid want).1)

/-- A step of a FIFO run as its caller sees it. -/
def Spoken (A : Allocator H) (m : Machine H) (event : Call × Answer) (m' : Machine H) : Prop :=
  ∃ op, Speaks A m op event.1 event.2 ∧ Disciplined A fifoAllow m op m'

/-- The memory of a creation is what the heap grants. -/
def Call.Fits (A : Allocator H) (heap : H) : Call → Prop
  | .create _ _ memory => memory = memoryOf A heap
  | _ => True

/-- The monitor shows a machine in order. -/
def Monitored (A : Allocator H) (base : Finset Addr) (m : Machine H) (a : Monitor) : Prop :=
  Housed m ∧ ∃ f, KernelInv A base m.kernel f ∧ Views m f a

section Steps

/-- The monitor can take every call that the kernel takes. -/
theorem Views.enabled (views : Views m f a) (speaks : Speaks A m op call reply)
    (allowed : fifoAllow m op = true) (enabled : m.Enabled op) : a.Enabled call := by
  have unframed (free : m.Free) : a.frame = none := views.frame.trans free.2
  cases speaks with
  | create => exact unframed enabled
  | schedule => exact unframed enabled
  | doTimer => exact trivial
  | wake held => exact ⟨unframed enabled.1, by rw [views.entry_some held]; rfl⟩
  | block =>
      refine ⟨unframed enabled, ?_⟩
      intro first
      have held := views.sched.current
      rw [first] at held
      exact of_decide_eq_true allowed (views.simulates.current.trans held.symm)
  | exit => exact unframed enabled
  | wait => exact unframed enabled
  | resume frame =>
      change a.frame.map Frame.isWait = some true
      rw [views.frame]
      exact enabled

/-- The monitor answers as the kernel does and shows its next state. -/
theorem Views.answer (views : Views m f a) (inv : KernelInv A base m.kernel f) (housed : Housed m)
    (speaks : Speaks A m op call reply) (taken : Disciplined A fifoAllow m op m') :
    ∃ f' a', Views m' f' a' ∧ a.answer call = (reply, a') := by
  obtain ⟨_, enabled, fuel, ran⟩ := taken
  cases speaks with
  | create entry arg priority =>
      obtain rfl := Option.some.inj ran
      exact views.create inv housed entry arg priority
  | schedule =>
      obtain ⟨kernel, scheduled, rfl⟩ := Option.map_eq_some_iff.mp ran
      exact ⟨_, _, views.yield inv scheduled, rfl⟩
  | doTimer =>
      obtain ⟨kernel, ticked, rfl⟩ := Option.map_eq_some_iff.mp ran
      obtain ⟨f', shown⟩ := views.tick inv ticked
      exact ⟨f', _, shown, rfl⟩
  | wake held =>
      obtain rfl := Option.some.inj ran
      exact ⟨_, _, views.wake inv held, rfl⟩
  | block =>
      obtain ⟨kernel, blocked, rfl⟩ := Option.map_eq_some_iff.mp ran
      rw [schedulerBlock, views.simulates.current] at blocked
      exact ⟨_, _, views.block inv blocked, rfl⟩
  | exit code =>
      obtain ⟨⟨outcome, kernel⟩, exited, rfl⟩ := Option.map_eq_some_iff.mp ran
      obtain ⟨f', shown⟩ := views.exit inv exited
      exact ⟨f', _, shown, rfl⟩
  | @wait fuel' pid want outcome kernel waited =>
      obtain ⟨result, ran', rfl⟩ := Option.map_eq_some_iff.mp ran
      obtain rfl := unique_of_mono (fun _ _ _ => processWait_mono) ran' waited
      exact views.wait inv (Machine.Free.frames enabled views.simulates.current) waited
  | @resume pid want frame =>
      rw [exec, frame] at ran
      obtain rfl := Option.some.inj ran
      obtain ⟨a', shown, answered⟩ := views.resume inv frame
      exact ⟨f, a', shown, answered⟩

/-- The process subsystem refines the monitor. -/
theorem monitored_refines (A : Allocator H) (base : Finset Addr) :
    Refines (Spoken A) Monitor.Step (Monitored A base) := by
  rintro m a event m' ⟨housed, f, inv, views⟩ ⟨op, speaks, taken⟩
  obtain ⟨f', a', shown, answered⟩ := views.answer inv housed speaks taken
  obtain ⟨⟨f'', kept⟩, effect⟩ := inv.step taken
  obtain rfl := shown.simulates.unique kept.simulates
  exact ⟨a', ⟨views.enabled speaks taken.1 taken.2.enabled, answered⟩, housed.step effect inv, f', kept, shown⟩

theorem frame_of_waiting {frame : Option Frame} (waiting : frame.map Frame.isWait = some true) :
    ∃ pid want, frame = some (.wait pid want) := by
  rcases frame with _ | (⟨pid, want⟩ | _)
  · cases waiting
  · exact ⟨pid, want, rfl⟩
  · cases waiting

/-- Every step of a FIFO run is a call with its answer. -/
theorem Disciplined.spoken (taken : Disciplined A fifoAllow m op m') :
    ∃ event, Spoken A m event m' := by
  obtain ⟨allowed, enabled, fuel, ran⟩ := id taken
  cases op with
  | create entry arg priority => exact ⟨(_, _), _, .create entry arg priority, taken⟩
  | schedule => exact ⟨(_, _), _, .schedule, taken⟩
  | scheduleSjf => cases allowed
  | doTimer => exact ⟨(_, _), _, .doTimer, taken⟩
  | wake p =>
      obtain ⟨i, held⟩ := enabled.2
      exact ⟨(_, _), _, .wake held, taken⟩
  | block => exact ⟨(_, _), _, .block, taken⟩
  | setState p state => cases allowed
  | exit code => exact ⟨(_, _), _, .exit code, taken⟩
  | wait pid want =>
      obtain ⟨⟨outcome, kernel⟩, waited, _⟩ := Option.map_eq_some_iff.mp ran
      exact ⟨(_, _), _, .wait waited, taken⟩
  | resume =>
      obtain ⟨pid, want, frame⟩ := frame_of_waiting enabled
      exact ⟨(_, _), _, .resume frame, taken⟩

/-- Every call that the monitor takes is an operation that the kernel takes. -/
theorem Views.operation (views : Views m f a) (ok : TableOk m.kernel) (enabled : a.Enabled call)
    (fits : call.Fits A m.kernel.heap) :
    ∃ op, fifoAllow m op = true ∧ m.Enabled op ∧
      ∀ m', Disciplined A fifoAllow m op m' → ∃ reply, Speaks A m op call reply := by
  have free (unframed : a.frame = none) : m.Free :=
    ⟨by rw [views.simulates.current]; rfl, views.frame.symm.trans unframed⟩
  cases call with
  | create entered priority memory =>
      obtain rfl : memory = memoryOf A m.kernel.heap := fits
      cases entered with
      | false => exact ⟨.create none 0 priority, rfl, free enabled, fun _ _ => ⟨_, .create none 0 priority⟩⟩
      | true => exact ⟨.create (some 0) 0 priority, rfl, free enabled, fun _ _ => ⟨_, .create (some 0) 0 priority⟩⟩
  | yield => exact ⟨.schedule, rfl, free enabled, fun _ _ => ⟨_, .schedule⟩⟩
  | tick => exact ⟨.doTimer, rfl, trivial, fun _ _ => ⟨_, .doTimer⟩⟩
  | wake i =>
      have used := enabled.2
      rw [views.entry, Option.isSome_map] at used
      obtain ⟨p, held⟩ := Option.isSome_iff_exists.mp used
      exact ⟨.wake p, rfl, ⟨free enabled.1, i, held⟩, fun _ _ => ⟨_, .wake held⟩⟩
  | block =>
      refine ⟨.block, ?_, free enabled.1, fun _ _ => ⟨_, .block⟩⟩
      apply decide_eq_true
      intro first
      rw [views.simulates.current] at first
      exact enabled.2 (ok.inj _ _ _ views.sched.current first.symm)
  | exit code => exact ⟨.exit code, rfl, free enabled, fun _ _ => ⟨_, .exit code⟩⟩
  | wait pid want =>
      refine ⟨.wait pid want, rfl, free enabled, ?_⟩
      rintro m' ⟨_, _, fuel, ran⟩
      obtain ⟨⟨outcome, kernel⟩, waited, _⟩ := Option.map_eq_some_iff.mp ran
      exact ⟨_, .wait waited⟩
  | resume =>
      have waiting : m.frame.map Frame.isWait = some true := by
        rw [← views.frame]
        exact enabled
      obtain ⟨pid, want, frame⟩ := frame_of_waiting waiting
      exact ⟨.resume, rfl, waiting, fun _ _ => ⟨_, .resume frame⟩⟩

/-- In a state that the monitor shows, the kernel gives the answers of the monitor and no others. -/
theorem Monitored.answers_iff (monitored : Monitored A base m a) (call : Call) (reply : Answer) :
    (∃ m', Spoken A m (call, reply) m') ↔ call.Fits A m.kernel.heap ∧ ∃ a', a.Step (call, reply) a' := by
  constructor
  · rintro ⟨m', spoken⟩
    obtain ⟨a', step, _⟩ := monitored_refines A base _ _ _ _ monitored spoken
    refine ⟨?_, a', step⟩
    obtain ⟨op, speaks, _⟩ := spoken
    cases speaks <;> trivial
  · rintro ⟨fits, a', step⟩
    obtain ⟨_, f, inv, views⟩ := id monitored
    obtain ⟨op, allowed, enabled, speaks⟩ := views.operation inv.table step.enabled fits
    obtain ⟨fuel, m', _, ran, _⟩ := inv.exec allowed enabled
    have taken : Disciplined A fifoAllow m op m' := ⟨allowed, enabled, fuel, ran⟩
    obtain ⟨reply', spoken⟩ := speaks m' taken
    obtain ⟨a'', step', _⟩ := monitored_refines A base _ _ (call, reply') _ monitored ⟨op, spoken, taken⟩
    obtain rfl : reply' = reply := congrArg Prod.fst (step'.answered.symm.trans step.answered)
    exact ⟨m', op, spoken, taken⟩

end Steps

section Runs

variable {K : Type} {B : Allocator K} {heap : H} {heap' : K} {start : Machine H} {start' m₁ : Machine K} {ops : List Op}
  {events events' : List (Call × Answer)}

/-- The monitor starts as the kernel does. -/
theorem booted_monitored (booted : Booted A heap start) : Monitored A (A.live heap) start .boot := by
  have housed := fifo_run_housed booted .nil
  obtain ⟨procs, contexts, kernel, initialised, rfl⟩ := booted
  obtain ⟨idle, stack, ctx, started⟩ := processInit_started initialised
  have inv := started.kernelInv
  refine ⟨housed, _, inv, inv.simulates, ?_, ⟨?_, .nil, ?_⟩, started.nextPid.symm⟩
  · intro i
    change Function.update (fun _ => none) 0 _ i = (kernel.task i).map _
    rw [started.task]
    by_cases first : i = 0
    · rw [first, Function.update_self, Function.update_self, Option.map_some, entryOf]
      simp only [Machine.start, started.process]
      rfl
    · rw [Function.update_of_ne first, Function.update_of_ne first, Option.map_none]
  · change kernel.task 0 = some idle
    rw [started.task, Function.update_self]
  · intro p i held
    obtain rfl := (started.inTable p).mp ⟨i, held⟩
    change (kernel.procs p).state = .running
    rw [started.process]
    rfl

/-- Every FIFO run is a run of calls with answers. -/
theorem fifo_run_spoken (run : Run (Disciplined A fifoAllow) start ops m) :
    ∃ events, Run (Spoken A) start events m := by
  induction run with
  | nil => exact ⟨[], .nil⟩
  | snoc _ taken ih =>
      obtain ⟨events, earlier⟩ := ih
      obtain ⟨event, spoken⟩ := taken.spoken
      exact ⟨events ++ [event], earlier.snoc spoken⟩

theorem Monitor.answers_step : Answers Monitor.Step := by
  intro a call reply reply' a₁ a₂ first second
  have same := first.answered.symm.trans second.answered
  exact Prod.ext_iff.mp same

/-- Every FIFO run is a run of the monitor, with the same calls and answers. In its last state the monitor shows the
tasks and the scheduler, and the kernel takes the calls of the monitor with its answers and no others. -/
theorem fifo_run_monitored (booted : Booted A heap start) (run : Run (Disciplined A fifoAllow) start ops m) :
    ∃ events a f, Run (Spoken A) start events m ∧ Run Monitor.Step .boot events a ∧ Views m f a ∧
      ∀ call reply, (∃ m', Spoken A m (call, reply) m') ↔
        call.Fits A m.kernel.heap ∧ ∃ a', a.Step (call, reply) a' := by
  obtain ⟨events, spoken⟩ := fifo_run_spoken run
  obtain ⟨a, shadow, monitored⟩ := (monitored_refines A _).run (booted_monitored booted) spoken
  obtain ⟨_, f, _, views⟩ := id monitored
  exact ⟨events, a, f, spoken, shadow, views, monitored.answers_iff⟩

/-- The sample creates a process, switches to it and lets it exit with code 5. -/
theorem fifo_run_monitored_sample : ∃ m events a f, m.log = [.exited 1 5] ∧
    Run (Spoken sampleAllocator) sampleStart events m ∧ Run Monitor.Step .boot events a ∧ Views m f a ∧
      ∀ call reply, (∃ m', Spoken sampleAllocator m (call, reply) m') ↔
        call.Fits sampleAllocator m.kernel.heap ∧ ∃ a', a.Step (call, reply) a' := by
  obtain ⟨m, run, checked⟩ := exists_run sampleAllocator fifoAllow 20 sampleStart
    [.create (some 7) 0 2, .schedule, .exit 5] (fun m => decide (m.log = [.exited 1 5])) (by decide +kernel)
  obtain ⟨events, a, f, spoken, shadow, views, answers⟩ := fifo_run_monitored sampleStart_booted run
  exact ⟨m, events, a, f, of_decide_eq_true checked, spoken, shadow, views, answers⟩

/-- Over any two allocators the same calls get the same answers and lead to the same view, as long as the same
creations get their memory. -/
theorem fifo_runs_agree (booted : Booted A heap start) (booted' : Booted B heap' start')
    (run : Run (Spoken A) start events m) (run' : Run (Spoken B) start' events' m₁)
    (same : events.map Prod.fst = events'.map Prod.fst) :
    events = events' ∧ ∃ a f f', Views m f a ∧ Views m₁ f' a := by
  obtain ⟨equal, a, ⟨_, f, _, views⟩, ⟨_, f', _, views'⟩⟩ := (monitored_refines A _).agree (monitored_refines B _)
    Monitor.answers_step (booted_monitored booted) (booted_monitored booted') run run' same
  exact ⟨equal, a, f, f', views, views'⟩

/-- The kernel after `process_init` over a heap that starts elsewhere. -/
def movedStart : Machine Tape :=
  .start (processInit sampleAllocator
    (Kernel.boot ⟨∅, 5000⟩ (fun _ => Process.zero) fun _ => Context.zero)).2

/-- Over heaps that start elsewhere a creation gets the same pid. -/
theorem fifo_runs_agree_sample : ∃ m m₁ events, Run (Spoken sampleAllocator) sampleStart events m ∧
    Run (Spoken sampleAllocator) movedStart events m₁ ∧ m.kernel.task 1 ≠ m₁.kernel.task 1 ∧
    ∃ a f f', Views m f a ∧ Views m₁ f' a := by
  have booted : Booted sampleAllocator ⟨∅, 5000⟩ movedStart := ⟨_, _, _, Prod.ext (by decide) rfl, rfl⟩
  have taken : Disciplined sampleAllocator fifoAllow sampleStart (.create (some 7) 0 2) _ :=
    ⟨rfl, by decide +kernel, 0, rfl⟩
  have taken' : Disciplined sampleAllocator fifoAllow movedStart (.create (some 7) 0 2) _ :=
    ⟨rfl, by decide +kernel, 0, rfl⟩
  have run : Run (Spoken sampleAllocator) sampleStart ([] ++ [(_, _)]) _ := .snoc .nil ⟨_, .create _ _ _, taken⟩
  have run' : Run (Spoken sampleAllocator) movedStart ([] ++ [(_, _)]) _ := .snoc .nil ⟨_, .create _ _ _, taken'⟩
  obtain ⟨same, views⟩ := fifo_runs_agree sampleStart_booted booted run run' (by decide +kernel)
  rw [← same] at run'
  exact ⟨_, _, _, run, run', by decide +kernel, views⟩

end Runs

end OsKernel.Proc
