import OsKernel.Process.FifoRuns

/-
This file says when a blocked process stays off the processor.
Blocking writes the state of a process and leaves its place in the queue alone,
so it is sound only for a process that is not queued, and for the current one
only when another process waits.
-/

namespace OsKernel.Proc
open OsKernel.Library

variable {H : Type} {A : Allocator H} {base : Finset Addr} {s s' : Kernel H} {f f' : Fifo Addr}
  {m m' : Machine H} {op : Op}

/-- The linked queue holds the ready tasks, and a blocked current process has a successor. -/
structure BlockInv (A : Allocator H) (base : Finset Addr) (s : Kernel H) (f : Fifo Addr) : Prop
    extends Linked s f where
  table : TableOk s
  owns : Owns A base s
  calm : f.status f.current = .blocked → f.queue ≠ []

/-- The state in which an operation calls `schedule()`. -/
inductive SchedulesAt (A : Allocator H) (m : Machine H) : Op → Kernel H → Prop
  | schedule : SchedulesAt A m .schedule m.kernel
  | doTimer {cur : Addr} (current : m.kernel.current = some cur)
      (spent : ((tick m.kernel cur).procs cur).counter = 0) :
      SchedulesAt A m .doTimer (tick m.kernel cur)
  | block {cur : Addr} (current : m.kernel.current = some cur) :
      SchedulesAt A m .block (blockCurrent m.kernel cur)
  | exit {code : Int} {cur : Addr} {fuel : Nat} {t : Kernel H} (current : m.kernel.current = some cur)
      (notIdle : (m.kernel.procs cur).pid ≠ 0)
      (removed : schedulerRemove fuel (exitRelease A m.kernel cur code) (some cur) = some t) :
      SchedulesAt A m (.exit code) (wakeWaiters t)

/-- The call of `schedule()` returns, and it neither dispatches nor keeps a blocked process. -/
def ScheduleSafe (s : Kernel H) : Prop :=
  (∃ fuel s', schedule fuel s = some s') ∧
    ∀ fuel s', schedule fuel s = some s' → ∃ cur, s'.current = some cur ∧
      (s'.procs cur).state ≠ .blocked ∧
      (s'.current ≠ s.current → (s.procs cur).state ≠ .blocked)

/-- The process stands in the new queue once, and nobody has left the queue. -/
def WokenOnce (before after : Kernel H) (p : Addr) : Prop :=
  ∃ queue queue', Represents before queue ∧ Represents after queue' ∧ queue'.count p = 1 ∧
    ∀ q ∈ queue, q ∈ queue'

/-- Every allowed operation schedules safely, and every wake-up adds its process once. -/
structure BlockSafe (A : Allocator H) (allow : Machine H → Op → Bool) (m : Machine H) : Prop where
  schedule : ∀ op s, allow m op = true → SchedulesAt A m op s → ScheduleSafe s
  wake : ∀ p, m.kernel.InTable p →
    (m.kernel.procs p).state = .blocked ∨ (m.kernel.procs p).state = .ready →
    WokenOnce m.kernel (schedulerWake m.kernel (some p)) p
  wakeLoop : ∀ code cur fuel t, m.kernel.current = some cur → (m.kernel.procs cur).pid ≠ 0 →
    schedulerRemove fuel (exitRelease A m.kernel cur code) (some cur) = some t →
    ∀ p, t.InTable p → (t.procs p).state = .blocked → 0 < (t.procs p).pid →
      WokenOnce t (wakeWaiters t) p

/-- Blocking meets only processes that are not ready, and the current one only when the queue is
not empty. -/
def blockAllow (m : Machine H) : Op → Bool
  | .block => decide ((m.kernel.current.all fun cur => (m.kernel.procs cur).state ≠ .ready) ∧
      m.kernel.readyQueue.head ≠ none)
  | .setState p state => decide (state = .blocked ∧ (m.kernel.procs p).state ≠ .ready ∧
      (m.kernel.current = some p → m.kernel.readyQueue.head ≠ none))
  | .scheduleSjf => false
  | .wait _ _ => false
  | .resume => false
  | _ => true

section Schedule

/-- After a call of the scheduler no blocked process is current. -/
theorem Fifo.Coherent.schedule_calm {tasks : Set Addr} (coherent : f.Coherent tasks)
    (calm : f.status f.current = .blocked → f.queue ≠ []) :
    f.schedule.status f.schedule.current ≠ .blocked := by
  cases queue : f.queue with
  | nil =>
      have same : f.schedule = f := by simp [Fifo.schedule, queue]
      rw [same]
      exact fun stopped => calm stopped queue
  | cons p rest =>
      by_cases head : f.current = p
      · have same : f.schedule = f := by simp [Fifo.schedule, queue, head]
        have ready := ((coherent.ready p).mp (by simp [queue])).2
        rw [same, head, ready]
        decide
      · rw [Fifo.schedule_cons queue head]
        split <;> simp

/-- The process that the scheduler makes current was ready. -/
theorem Fifo.Coherent.schedule_dispatches {tasks : Set Addr} (coherent : f.Coherent tasks)
    (moved : f.schedule.current ≠ f.current) : f.status f.schedule.current = .ready := by
  cases queue : f.queue with
  | nil => simp [Fifo.schedule, queue] at moved
  | cons p rest =>
      by_cases head : f.current = p
      · simp [Fifo.schedule, queue, head] at moved
      · have dispatched : f.schedule.current = p := by
          rw [Fifo.schedule_cons queue head]
          split <;> rfl
        rw [dispatched]
        exact ((coherent.ready p).mp (by simp [queue])).2

theorem Linked.scheduleSafe (linked : Linked s f)
    (calm : f.status f.current = .blocked → f.queue ≠ []) : ScheduleSafe s := by
  obtain ⟨fuel, t, ran, _, result⟩ := linked.schedule
  refine ⟨⟨fuel, t, ran⟩, ?_⟩
  intro other s' ran'
  obtain rfl := schedule_det ran ran'
  refine ⟨f.schedule.current, result.simulates.current, ?_, ?_⟩
  · rw [result.simulates.status]
    exact linked.coherent.schedule_calm calm
  · intro moved
    rw [result.simulates.current, linked.simulates.current] at moved
    rw [linked.simulates.status, linked.coherent.schedule_dispatches (by simpa using moved)]
    decide

/-- The invariant holds again after any call of the scheduler. -/
theorem BlockInv.ofSchedule (linked : Linked s f) (table : TableOk s) (owns : Owns A base s)
    (calm : f.status f.current = .blocked → f.queue ≠ []) :
    ∃ fuel s', schedule fuel s = some s' ∧ BlockInv A base s' f.schedule := by
  obtain ⟨fuel, s', ran, dispatch, result⟩ := linked.schedule
  refine ⟨fuel, s', ran, result, table.of_sameTasks dispatch.same, owns.of_sameTasks dispatch.same, ?_⟩
  exact fun stopped => absurd stopped (linked.coherent.schedule_calm calm)

end Schedule

section Operations

theorem BlockInv.queue_ne_nil (inv : BlockInv A base s f) (head : s.readyQueue.head ≠ none) :
    f.queue ≠ [] := by
  intro empty
  have ends := inv.simulates.queue.head_eq
  rw [empty] at ends
  exact head ends

theorem BlockInv.setBlocked (inv : BlockInv A base s f) {p : Addr}
    (unqueued : (s.procs p).state ≠ .ready)
    (successor : s.current = some p → s.readyQueue.head ≠ none) :
    BlockInv A base (processSetState s (some p) .blocked) (f.setStatus p .blocked) := by
  have same := (rescheduled_onProc s p .blocked).sameTasks
  rw [inv.simulates.status] at unqueued
  refine ⟨inv.toLinked.block unqueued, inv.table.of_sameTasks same, inv.owns.of_sameTasks same, ?_⟩
  intro stopped
  by_cases own : f.current = p
  · exact inv.queue_ne_nil (successor (own ▸ inv.simulates.current))
  · exact inv.calm (by simpa [Fifo.setStatus, own] using stopped)

/-- The exiting process leaves the queue, wherever it stands. -/
theorem BlockInv.exitRemove (inv : BlockInv A base s f) (code : Int) :
    ∃ fuel t, schedulerRemove fuel (exitRelease A s f.current code) (some f.current) = some t ∧
      Linked t ((f.setStatus f.current .terminated).remove f.current) ∧ TableOk t ∧ Owns A base t := by
  have member : s.InTable f.current := inv.coherent.present
  have exiting := exitRelease_exiting (A := A) code (inv.owns.noMap _ member)
  obtain ⟨t, removed, simulates⟩ := (exiting.simulates inv.simulates).remove f.current (Nat.le_refl _)
  have relinked := schedulerRemove_relinked removed
  refine ⟨_, t, removed, ⟨simulates, ?_⟩, (inv.table.exiting exiting).of_sameTasks relinked.sameTasks,
    (inv.owns.exitRelease code member).of_sameTasks relinked.sameTasks⟩
  simpa only [relinked.sameTasks.inTable, Kernel.inTable_congr exiting.task] using
    inv.coherent.retire f.current .terminated (by decide) (by decide)

/-- Before the exit schedules, its waiters are awake and the process has stopped. -/
theorem BlockInv.exitWake (inv : BlockInv A base s f) {code : Int} {cur : Addr} {fuel : Nat}
    {t : Kernel H} (current : s.current = some cur)
    (removed : schedulerRemove fuel (exitRelease A s cur code) (some cur) = some t) :
    ∃ g ws, Linked t g ∧ TableOk t ∧ Owns A base t ∧ Advance t (wakeWaiters t) ∧
      Linked (wakeWaiters t) (g.wakeAll ws) ∧ (g.wakeAll ws).status (g.wakeAll ws).current ≠ .blocked ∧
      ∀ p, t.InTable p → 0 < (t.procs p).pid → (g.wakeAll ws).status p ≠ .blocked := by
  obtain rfl := inv.simulates.eq_current current
  obtain ⟨other, t', removed', linked, table, owns⟩ := inv.exitRemove code
  obtain rfl := schedulerRemove_det removed removed'
  obtain ⟨ws, advance, woken, nobody⟩ := linked.wakeWaiters table
  refine ⟨_, ws, linked, table, owns, advance, woken, ?_, nobody⟩
  intro stopped
  have earlier := (Fifo.wakeAll_blocked ws stopped).1
  rw [Fifo.wakeAll_current] at earlier
  simp [Fifo.remove, Fifo.setStatus] at earlier

end Operations

section Safety

/-- A task that is ready after a wake-up stands in the queue once. -/
theorem Linked.count_of_ready (linked : Linked s f) {p : Addr} (member : s.InTable p)
    (ready : f.status p = .ready) : f.queue.count p = 1 :=
  List.count_eq_one_of_mem linked.coherent.nodup ((linked.coherent.ready p).mpr ⟨member, ready⟩)

theorem Linked.wokenOnce (linked : Linked s f) {p : Addr} (member : s.InTable p)
    (waiting : (s.procs p).state = .blocked ∨ (s.procs p).state = .ready) :
    WokenOnce s (schedulerWake s (some p)) p := by
  obtain ⟨advance, _, woken⟩ := linked.wake member
  refine ⟨f.queue, (f.wake p).queue, linked.simulates.queue, woken.simulates.queue, ?_,
    fun q queued => Fifo.mem_wake_queue queued⟩
  apply woken.count_of_ready ((advance.same.inTable p).mpr member)
  rw [linked.simulates.status] at waiting
  rcases waiting with blocked | ready
  · simp [Fifo.wake, blocked, Fifo.setStatus, Fifo.enqueue]
  · simp [Fifo.wake, ready]

theorem BlockInv.blockSafe (inv : BlockInv A base m.kernel f) : BlockSafe A blockAllow m := by
  refine ⟨?_, fun p member waiting => inv.toLinked.wokenOnce member waiting, ?_⟩
  · intro op s allowed scheduled
    cases scheduled with
    | schedule => exact inv.toLinked.scheduleSafe inv.calm
    | @doTimer cur _ _ => exact (inv.toLinked.retime cur _ rfl rfl rfl).2.2.scheduleSafe inv.calm
    | @block cur current =>
        obtain ⟨unqueued, head⟩ := of_decide_eq_true allowed
        have notReady : f.status cur ≠ .ready := by
          rw [← inv.simulates.status]
          simpa [current] using unqueued
        exact (inv.toLinked.block notReady).scheduleSafe fun _ => inv.queue_ne_nil head
    | exit current _ removed =>
        obtain ⟨g, ws, _, _, _, _, woken, awake, _⟩ := inv.exitWake current removed
        exact woken.scheduleSafe fun stopped => absurd stopped awake
  · intro code cur fuel t current _ removed p member stopped positive
    obtain ⟨g, ws, linked, _, _, advance, woken, _, nobody⟩ := inv.exitWake current removed
    refine ⟨g.queue, (g.wakeAll ws).queue, linked.simulates.queue, woken.simulates.queue, ?_,
      fun q queued => Fifo.mem_wakeAll_queue ws queued⟩
    apply woken.count_of_ready ((advance.same.inTable p).mpr member)
    rw [linked.simulates.status] at stopped
    exact Fifo.wakeAll_ready ws stopped (nobody p member positive)

end Safety

section Runs

theorem BlockInv.execExit (inv : BlockInv A base m.kernel f) (code : Int) :
    ∃ fuel m' f', exec A fuel m (.exit code) = some m' ∧ BlockInv A base m'.kernel f' := by
  have current := inv.simulates.current
  by_cases idle : (m.kernel.procs f.current).pid = 0
  · refine ⟨0, { m with kernel := m.kernel }, f, ?_, inv⟩
    simp only [exec, processExit, current, if_pos idle, Option.map_some, Machine.finishExit]
  · obtain ⟨fuel, t, removed, _⟩ := inv.exitRemove code
    obtain ⟨g, ws, _, table, owns, advance, woken, awake, _⟩ := inv.exitWake current removed
    obtain ⟨more, s', ran, kept⟩ := BlockInv.ofSchedule woken (table.of_sameTasks advance.same)
      (owns.of_sameTasks advance.same) fun stopped => absurd stopped awake
    have exited : processExit A (max fuel more) m.kernel code =
        some (if s'.current = some f.current then .returned else .switched, s') := by
      unfold processExit
      rw [current]
      dsimp only
      rw [if_neg idle, schedulerRemove_mono removed (Nat.le_max_left _ _)]
      simp only [Option.bind_eq_bind, Option.bind_some]
      rw [schedule_mono ran (Nat.le_max_right _ _)]
      rfl
    refine ⟨max fuel more, m.finishExit code
      (if s'.current = some f.current then .returned else .switched, s'), (g.wakeAll ws).schedule, ?_, ?_⟩
    · simp only [exec, exited, Option.map_some]
    · rw [Machine.finishExit_kernel]
      exact kept

theorem BlockInv.execCreate (inv : BlockInv A base m.kernel f) (entry : Option Addr) (arg priority : Nat) :
    ∃ fuel m' f', exec A fuel m (.create entry arg priority) = some m' ∧ BlockInv A base m'.kernel f' := by
  rcases processCreate_cases A m.kernel entry arg priority with ⟨_, failed⟩ | ⟨p, t, ready, result⟩
  · refine ⟨0, _, _, rfl, inv.toLinked.createFailed inv.owns failed,
      inv.table.createFailed inv.owns failed, inv.owns.createFailed failed, ?_⟩
    intro stopped
    apply inv.calm
    rw [← inv.simulates.status, ← failed.procs f.current
      (inv.owns.live_of_inTable inv.coherent.present)]
    exact stopped
  · refine ⟨0, { m with kernel := processAdmit t p }, admittedFifo f t p,
      by simp [OsKernel.Proc.exec, result], inv.toLinked.admit ready inv.table inv.owns,
      (ready.admitted inv.table inv.owns).1, ready.owns inv.table inv.owns, ?_⟩
    intro _
    simp [admittedFifo, Fifo.enqueue]

/-- A tick that ends the time slice is followed by a call of the scheduler. -/
theorem BlockInv.execTimer (inv : BlockInv A base m.kernel f) :
    ∃ fuel m' f', exec A fuel m .doTimer = some m' ∧ BlockInv A base m'.kernel f' := by
  have current := inv.simulates.current
  obtain ⟨_, ticked, linked⟩ := inv.toLinked.retime f.current
    (fun p => { p with
      cpuTime := (p.cpuTime + 1) % 2 ^ 64
      counter := if 0 < p.counter then p.counter - 1 else p.counter }) rfl rfl rfl
  have table := inv.table.of_sameTasks ticked.same
  have owns := inv.owns.of_sameTasks ticked.same
  by_cases spent : ((tick m.kernel f.current).procs f.current).counter = 0
  · obtain ⟨fuel, s', ran, kept⟩ := BlockInv.ofSchedule linked table owns inv.calm
    refine ⟨fuel, { m with kernel := s' }, _, ?_, kept⟩
    simp only [OsKernel.Proc.exec, OsKernel.Proc.doTimer, current, if_pos spent]
    exact congrArg (Option.map _) ran
  · refine ⟨0, { m with kernel := tick m.kernel f.current }, f, ?_, linked, table, owns, inv.calm⟩
    simp only [OsKernel.Proc.exec, OsKernel.Proc.doTimer, current, if_neg spent, Option.map_some]

theorem BlockInv.execWake (inv : BlockInv A base m.kernel f) {p : Addr} (present : m.kernel.InTable p) :
    ∃ fuel m' f', exec A fuel m (.wake p) = some m' ∧ BlockInv A base m'.kernel f' := by
  obtain ⟨advance, _, linked⟩ := inv.toLinked.wake present
  refine ⟨0, _, f.wake p, rfl, linked, inv.table.of_sameTasks advance.same,
    inv.owns.of_sameTasks advance.same, ?_⟩
  intro stopped
  rw [Fifo.wake_current] at stopped
  obtain ⟨q, queued⟩ := List.exists_mem_of_ne_nil _ (inv.calm (Fifo.wake_blocked stopped))
  exact List.ne_nil_of_mem (Fifo.mem_wake_queue queued)

/-- The caller of `scheduler_block` is not queued and leaves a successor. -/
theorem BlockInv.execBlock (inv : BlockInv A base m.kernel f) (allowed : blockAllow m .block = true) :
    ∃ fuel m' f', exec A fuel m .block = some m' ∧ BlockInv A base m'.kernel f' := by
  have current := inv.simulates.current
  obtain ⟨unqueued, head⟩ := of_decide_eq_true allowed
  have notReady : f.status f.current ≠ .ready := by
    rw [← inv.simulates.status]
    simpa [current] using unqueued
  have same := (rescheduled_onProc m.kernel f.current .blocked).sameTasks
  obtain ⟨fuel, s', ran, kept⟩ := BlockInv.ofSchedule (inv.toLinked.block notReady)
    (inv.table.of_sameTasks same) (inv.owns.of_sameTasks same) fun _ => inv.queue_ne_nil head
  refine ⟨fuel, { m with kernel := s' }, _, ?_, kept⟩
  simp only [OsKernel.Proc.exec, schedulerBlock, current]
  exact congrArg (Option.map _) ran

/-- Every allowed operation ends and keeps the invariant. -/
theorem BlockInv.exec (inv : BlockInv A base m.kernel f) (allowed : blockAllow m op = true)
    (enabled : m.Enabled op) :
    ∃ fuel m' f', exec A fuel m op = some m' ∧ BlockInv A base m'.kernel f' := by
  cases op with
  | create entry arg priority => exact inv.execCreate entry arg priority
  | schedule =>
      obtain ⟨fuel, s', ran, kept⟩ :=
        BlockInv.ofSchedule inv.toLinked inv.table inv.owns inv.calm
      exact ⟨fuel, { m with kernel := s' }, _, by simp [OsKernel.Proc.exec, ran], kept⟩
  | scheduleSjf => cases allowed
  | doTimer => exact inv.execTimer
  | wake p => exact inv.execWake enabled.2
  | block => exact inv.execBlock allowed
  | setState p state =>
      obtain ⟨rfl, unqueued, successor⟩ := of_decide_eq_true allowed
      exact ⟨0, _, _, rfl, inv.setBlocked unqueued successor⟩
  | exit code => exact inv.execExit code
  | wait pid want => cases allowed
  | resume => cases allowed

variable {heap : H} {start : Machine H} {ops : List Op}

theorem block_run_inv (booted : Booted A heap start)
    (run : Run (Disciplined A blockAllow) start ops m) :
    ∃ f, BlockInv A (A.live heap) m.kernel f := by
  refine run.invariant (fun _ m => ∃ f, BlockInv A (A.live heap) m.kernel f) ?_ ?_
  · obtain ⟨f, inv⟩ := fifo_run_inv booted .nil
    refine ⟨f, inv.toLinked, inv.table, inv.owns, ?_⟩
    intro stopped
    rw [inv.status_current] at stopped
    cases stopped
  · rintro _ s op s' _ ⟨f, inv⟩ ⟨allowed, enabled, fuel, ran⟩
    obtain ⟨_, _, f', ran', kept⟩ := inv.exec allowed enabled
    exact exec_det ran ran' ▸ ⟨f', kept⟩

/-- Where only processes off the queue are blocked, and the current one only with a successor, no
blocked process runs and every wake-up adds its process once. -/
theorem block_run_blockSafe (booted : Booted A heap start)
    (run : Run (Disciplined A blockAllow) start ops m) : BlockSafe A blockAllow m := by
  obtain ⟨f, inv⟩ := block_run_inv booted run
  exact inv.blockSafe

/-- A process is blocked, woken and blocked again. -/
theorem block_run_blockSafe_sample :
    ∃ m, Run (Disciplined sampleAllocator blockAllow) sampleStart
        [.create (some 7) 0 2, .schedule, .block, .wake 103, .schedule, .setState 103 .blocked,
          .schedule] m ∧ BlockSafe sampleAllocator blockAllow m := by
  obtain ⟨m, run, _⟩ := exists_run sampleAllocator blockAllow 20 sampleStart
    [.create (some 7) 0 2, .schedule, .block, .wake 103, .schedule, .setState 103 .blocked,
      .schedule] (fun _ => true) (by decide +kernel)
  exact ⟨m, run, block_run_blockSafe sampleStart_booted run⟩

/-- Any process may be blocked at any time, as in the example of the usage guide. -/
def anyBlockAllow (_ : Machine H) : Op → Bool
  | .setState _ state => decide (state = .blocked)
  | .scheduleSjf => false
  | .wait _ _ => false
  | .resume => false
  | _ => true

/-- A new process that is blocked in the queue is dispatched all the same. -/
theorem queuedBlock_dispatched :
    ∃ m, Run (Disciplined sampleAllocator anyBlockAllow) sampleStart
        [.create (some 7) 0 2, .setState 103 .blocked] m ∧
      ¬ BlockSafe sampleAllocator anyBlockAllow m := by
  obtain ⟨m, run, found⟩ := exists_run sampleAllocator anyBlockAllow 20 sampleStart
    [.create (some 7) 0 2, .setState 103 .blocked]
    (fun m => decide (m.kernel.current = some 100 ∧ (m.kernel.procs 103).state = .blocked ∧
      (schedule 20 m.kernel).any fun s => s.current = some 103)) (by decide +kernel)
  obtain ⟨current, blocked, dispatched⟩ := of_decide_eq_true found
  obtain ⟨s, ran, moved⟩ := (Option.any_eq_true _ _).mp dispatched
  refine ⟨m, run, fun safe => ?_⟩
  obtain ⟨cur, runs, _, ready⟩ := (safe.schedule .schedule _ rfl .schedule).2 20 s ran
  have target : s.current = some 103 := of_decide_eq_true moved
  have same : cur = 103 := Option.some.inj (runs.symm.trans target)
  subst same
  exact ready (by rw [target, current]; decide) blocked

end Runs

end OsKernel.Proc
