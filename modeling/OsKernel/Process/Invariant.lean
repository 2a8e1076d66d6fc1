import OsKernel.Process.Machine
import OsKernel.Process.Ownership
import OsKernel.Process.Simulation

/-
This file states the invariant of the process subsystem under the FIFO scheduler
and shows that every kernel function keeps it.
-/

namespace OsKernel.Proc
open OsKernel.Library

variable {H : Type} {A : Allocator H} {base : Finset Addr} {s s' : Kernel H} {f f' : Fifo Addr}

/-- The table is in order and owns its objects; only idle and the terminated tasks have no
register frame. -/
structure Stable (A : Allocator H) (base : Finset Addr) (s : Kernel H) : Prop where
  table : TableOk s
  owns : Owns A base s
  regs : ∀ p, s.InTable p →
    ((s.procs p).ptRegs = none ↔ s.task 0 = some p ∨ (s.procs p).state = .terminated)

/-- The linked queue holds the ready tasks of the table. -/
structure Linked (s : Kernel H) (f : Fifo Addr) : Prop where
  simulates : Simulates s f
  coherent : f.Coherent {p | s.InTable p}

/-- Besides, idle never misses its turn. -/
structure Served (s : Kernel H) (f : Fifo Addr) : Prop extends Linked s f where
  attends : ∀ i, s.task 0 = some i → f.Attends i

/-- The invariant between two operations. -/
structure KernelInv (A : Allocator H) (base : Finset Addr) (s : Kernel H) (f : Fifo Addr) : Prop
    extends Stable A base s, Served s f where
  active : f.Active

/-- Scheduling moves processes between ready and running and wakes some, and does nothing else. -/
structure Advance (s s' : Kernel H) : Prop where
  same : SameTasks s s'
  blocked : ∀ p, (s'.procs p).state = .blocked → (s.procs p).state = .blocked
  terminated : ∀ p, (s'.procs p).state = .terminated ↔ (s.procs p).state = .terminated

theorem Advance.refl (s : Kernel H) : Advance s s := ⟨.refl s, fun _ h => h, fun _ => Iff.rfl⟩

theorem Advance.trans {s₁ s₂ s₃ : Kernel H} (first : Advance s₁ s₂) (second : Advance s₂ s₃) :
    Advance s₁ s₃ where
  same := first.same.trans second.same
  blocked p stopped := first.blocked p (second.blocked p stopped)
  terminated p := (second.terminated p).trans (first.terminated p)

/-- Agreement of all states is an advance. -/
theorem Advance.of_state (same : SameTasks s s')
    (states : ∀ p, (s'.procs p).state = (s.procs p).state) : Advance s s' :=
  ⟨same, fun p stopped => by rwa [states p] at stopped, fun p => by rw [states p]⟩

/-- The statuses of the simulated schedulers decide whether a change is an advance. -/
theorem Advance.of_simulates (same : SameTasks s s') (before : Simulates s f)
    (after : Simulates s' f') (blocked : ∀ p, f'.status p = .blocked → f.status p = .blocked)
    (terminated : ∀ p, f'.status p = .terminated ↔ f.status p = .terminated) : Advance s s' where
  same := same
  blocked p := by
    rw [before.status, after.status]
    exact blocked p
  terminated p := by
    rw [before.status, after.status]
    exact terminated p

/-- Dispatching alone wakes nobody. -/
structure Dispatch (s s' : Kernel H) : Prop extends Advance s s' where
  unwoken : ∀ p, (s.procs p).state = .blocked → (s'.procs p).state = .blocked

theorem Dispatch.refl (s : Kernel H) : Dispatch s s := ⟨.refl s, fun _ h => h⟩

theorem Dispatch.trans {s₁ s₂ s₃ : Kernel H} (first : Dispatch s₁ s₂) (second : Dispatch s₂ s₃) :
    Dispatch s₁ s₃ :=
  ⟨first.toAdvance.trans second.toAdvance, fun p stopped => second.unwoken p (first.unwoken p stopped)⟩

theorem Stable.advance (stable : Stable A base s) (advance : Advance s s') : Stable A base s' where
  table := stable.table.of_sameTasks advance.same
  owns := stable.owns.of_sameTasks advance.same
  regs p member := by
    have field := congrArg Process.ptRegs (advance.same.identity p)
    change (s'.procs p).ptRegs = (s.procs p).ptRegs at field
    rw [field, advance.same.task, advance.terminated]
    exact stable.regs p ((advance.same.inTable p).mp member)

section Boot

variable {heap : H} {procs : Addr → Process} {contexts : Addr → Context}

/-- The idle process as `process_init` leaves it. -/
def idleProcess (stack ctx : Addr) : Process :=
  { Process.zero with state := .running, kernelStack := some stack, context := some ctx }

/-- A successful start leaves idle alone in the table, with three objects. -/
structure Started (A : Allocator H) (heap : H) (idle stack ctx : Addr) (s : Kernel H) : Prop where
  current : s.current = some idle
  task : s.task = Function.update (fun _ => none) 0 (some idle)
  taskCount : s.taskCount = 1
  readyQueue : s.readyQueue = ⟨none, none⟩
  strayFrees : s.strayFrees = []
  nextPid : s.nextPid = 1
  process : s.procs idle = idleProcess stack ctx
  nodup : [ctx, stack, idle].Nodup
  dead : ∀ a ∈ [ctx, stack, idle], a ∉ A.live heap
  live : ∀ a, a ∈ A.live s.heap ↔ a ∈ A.live heap ∨ a ∈ [ctx, stack, idle]

/-- A successful `process_init` replaces slot 0, the count, the queue and the current process in any state. -/
structure Restarted (A : Allocator H) (s : Kernel H) (idle stack ctx : Addr) (s' : Kernel H) : Prop where
  current : s'.current = some idle
  task : s'.task = Function.update s.task 0 (some idle)
  taskCount : s'.taskCount = 1
  readyQueue : s'.readyQueue = ⟨none, none⟩
  strayFrees : s'.strayFrees = s.strayFrees
  nextPid : s'.nextPid = s.nextPid
  process : s'.procs idle = idleProcess stack ctx
  nodup : [ctx, stack, idle].Nodup
  dead : ∀ a ∈ [ctx, stack, idle], a ∉ A.live s.heap
  live : ∀ a, a ∈ A.live s'.heap ↔ a ∈ A.live s.heap ∨ a ∈ [ctx, stack, idle]

theorem processInit_restarted (initialised : processInit A s = (true, s')) :
    ∃ idle stack ctx, Restarted A s idle stack ctx s' := by
  unfold processInit at initialised
  rcases first : s.kmalloc A sizeofProcess with ⟨_ | idle, s₁⟩
  · simp [first] at initialised
  · rw [first] at initialised
    dsimp only at initialised
    have begun := (Pending.start first).onProc fun _ => { Process.zero with state := .running }
    rcases second : Kernel.kmalloc A
      (s₁.onProc idle fun _ => { Process.zero with state := .running }) 4096 with ⟨_ | stack, s₂⟩
    · simp [second] at initialised
    · rw [second] at initialised
      dsimp only at initialised
      have stacked := (begun.issue second).onProc fun q => { q with kernelStack := some stack }
      rcases third : Kernel.kmalloc A (s₂.onProc idle fun q => { q with kernelStack := some stack })
        sizeofContext with ⟨_ | ctx, s₃⟩
      · simp [third] at initialised
      · rw [third] at initialised
        have built := (stacked.issue third).onProc fun q => { q with context := some ctx }
        simp only [Prod.mk.injEq, true_and] at initialised
        subst initialised
        refine ⟨idle, stack, ctx, rfl, ?_, rfl, rfl, built.strayFrees, built.nextPid, built.process,
          built.nodup, built.dead, built.live⟩
        have tasks := built.task
        exact congrArg (fun table : Fin 64 → Option Addr => Function.update table 0 (some idle)) tasks

theorem processInit_started
    (initialised : processInit A (Kernel.boot heap procs contexts) = (true, s)) :
    ∃ idle stack ctx, Started A heap idle stack ctx s := by
  obtain ⟨idle, stack, ctx, fresh⟩ := processInit_restarted initialised
  exact ⟨idle, stack, ctx, fresh.current, fresh.task, fresh.taskCount, fresh.readyQueue, fresh.strayFrees,
    fresh.nextPid, fresh.process, fresh.nodup, fresh.dead, fresh.live⟩

theorem Started.inTable {idle stack ctx : Addr} (started : Started A heap idle stack ctx s)
    (p : Addr) : s.InTable p ↔ p = idle := by
  unfold Kernel.InTable
  rw [started.task]
  constructor
  · rintro ⟨i, entry⟩
    by_cases first : i = 0
    · subst first
      simpa using entry.symm
    · simp [first] at entry
  · rintro rfl
    exact ⟨0, by simp⟩

/-- The invariant holds when `process_init` has succeeded. -/
theorem Started.kernelInv {idle stack ctx : Addr} (started : Started A heap idle stack ctx s) :
    KernelInv A (A.live heap) s ⟨idle, [], fun p => (s.procs p).state⟩ := by
  have first : s.task 0 = some idle := by simp [started.task]
  have only : ∀ i p, s.task i = some p → i = 0 := by
    intro i p entry
    by_contra other
    simp [started.task, other] at entry
  have listed : objects s idle = [idle, stack, ctx] := by
    simp [objects, started.process, idleProcess, Process.zero]
  have keys : {p | s.InTable p} = insert idle ∅ := by
    ext p
    simp [started.inTable]
  have running : (s.procs idle).state = .running := by rw [started.process]; rfl
  have process {p : Addr} (member : s.InTable p) : s.procs p = idleProcess stack ctx := by
    rw [(started.inTable p).mp member, started.process]
  refine ⟨⟨⟨⟨idle, first, by rw [started.process]; rfl⟩, by rw [started.taskCount]; decide, ?_,
    ⟨0, idle, first, by rw [started.taskCount]; rfl⟩, ?_⟩, ⟨?_, ?_, ?_, ?_, started.strayFrees⟩, ?_⟩,
    ⟨⟨⟨?_, started.current, fun _ => rfl⟩, ?_⟩, ?_⟩, running⟩
  · intro i p entry
    rw [only i p entry, started.taskCount]
    decide
  · intro i j p left right
    rw [only i p left, only j p right]
  · have permuted : ∀ a, a ∈ objects s idle ↔ a ∈ [ctx, stack, idle] := by
      intro a
      simp only [listed, List.mem_cons, List.not_mem_nil, or_false]
      tauto
    rw [keys]
    apply (Partition.empty (A.live heap) (objects s)).insert (k := idle) (Set.notMem_empty idle)
    · exact fun _ key => absurd key (Set.notMem_empty _)
    · rw [listed]
      have reversed := List.nodup_reverse.mpr started.nodup
      simpa using reversed
    · exact fun a member => started.dead a ((permuted a).mp member)
    · intro a
      rw [permuted]
      exact started.live a
  · intro p member
    rw [process member]
    rfl
  · intro p member
    rw [process member]
    rfl
  · intro p member
    rw [process member]
    rfl
  · intro p member
    rw [(started.inTable p).mp member, started.process]
    simp [first, idleProcess, Process.zero]
  · unfold Represents
    rw [started.readyQueue]
    exact Queue.empty _
  · refine ⟨List.nodup_nil, ?_, (started.inTable idle).mpr rfl, ?_⟩
    · intro p
      simp only [List.not_mem_nil, false_iff, not_and]
      intro member
      rw [(started.inTable p).mp member, running]
      decide
    · exact fun p member _ => (started.inTable p).mp member
  · intro i entry different
    rw [first] at entry
    exact absurd (Option.some.inj entry) different

end Boot

section Scheduling

/-- A call of `schedule()` that returns takes the abstract step. -/
theorem Simulates.of_schedule {fuel : Nat} (simulates : Simulates s f) (sound : f.Sound)
    (ran : OsKernel.Proc.schedule fuel s = some s') : Simulates s' f.schedule := by
  obtain ⟨t, ran', result⟩ := simulates.schedule sound (Nat.lt_succ_self f.queue.length)
  obtain rfl := schedule_det ran ran'
  exact result

/-- The scheduler always returns, and it wakes nobody. -/
theorem Linked.schedule (linked : Linked s f) :
    ∃ fuel s', schedule fuel s = some s' ∧ Dispatch s s' ∧ Linked s' f.schedule := by
  have sound := linked.coherent.sound
  obtain ⟨s', ran, simulates⟩ := linked.simulates.schedule sound (Nat.lt_succ_self f.queue.length)
  have kept := schedule_rescheduled ran
  have blocked := sound.schedule_status_iff .blocked (by decide) (by decide)
  have advance : Advance s s' := .of_simulates kept.sameTasks linked.simulates simulates
    (fun p => (blocked p).mp) (sound.schedule_status_iff .terminated (by decide) (by decide))
  have unwoken : ∀ p, (s.procs p).state = .blocked → (s'.procs p).state = .blocked := by
    intro p
    rw [linked.simulates.status, simulates.status]
    exact (blocked p).mpr
  refine ⟨_, s', ran, ⟨advance, unwoken⟩, simulates, ?_⟩
  simpa only [advance.same.inTable] using linked.coherent.schedule

theorem Served.schedule (served : Served s f)
    (idleRuns : ∀ i, s.task 0 = some i → f.current = i → f.Active) :
    ∃ fuel s', schedule fuel s = some s' ∧ Dispatch s s' ∧ Served s' f.schedule := by
  obtain ⟨fuel, s', ran, dispatch, linked⟩ := served.toLinked.schedule
  refine ⟨fuel, s', ran, dispatch, linked, ?_⟩
  intro i first
  rw [dispatch.same.task] at first
  exact (served.attends i first).schedule (idleRuns i first)

theorem KernelInv.status_current (inv : KernelInv A base s f) : f.status f.current = .running :=
  inv.active

theorem KernelInv.current_inTable (inv : KernelInv A base s f) : s.InTable f.current :=
  inv.coherent.present

/-- Idle is ready or running. -/
theorem KernelInv.idle_state (inv : KernelInv A base s f) {i : Addr} (first : s.task 0 = some i) :
    (s.procs i).state = .ready ∨ (s.procs i).state = .running := by
  rw [inv.simulates.status]
  by_cases current : f.current = i
  · exact Or.inr (current ▸ inv.active)
  · exact Or.inl ((inv.coherent.ready i).mp (inv.attends i first current)).2

theorem KernelInv.schedule (inv : KernelInv A base s f) :
    ∃ fuel s' f', schedule fuel s = some s' ∧ Dispatch s s' ∧ KernelInv A base s' f' := by
  obtain ⟨fuel, s', ran, dispatch, served⟩ := inv.toServed.schedule fun _ _ _ => inv.active
  exact ⟨fuel, s', _, ran, dispatch, inv.toStable.advance dispatch.toAdvance, served,
    inv.coherent.schedule_active_of_active inv.active⟩

/-- A write to the time fields of one process is invisible to the scheduler. -/
theorem Linked.retime (linked : Linked s f) (p : Addr) (write : Process → Process)
    (identity : (write (s.procs p)).identity = (s.procs p).identity)
    (state : (write (s.procs p)).state = (s.procs p).state)
    (next : (write (s.procs p)).next = (s.procs p).next) :
    (∀ q, ((s.onProc p write).procs q).state = (s.procs q).state) ∧
      Dispatch s (s.onProc p write) ∧ Linked (s.onProc p write) f := by
  have same : SameTasks s (s.onProc p write) := sameTasks_onProc s p write identity
  have simulates : Simulates (s.onProc p write) f := linked.simulates.onProc p write next state
  have states : ∀ q, ((s.onProc p write).procs q).state = (s.procs q).state := by
    intro q
    rw [simulates.status, linked.simulates.status]
  refine ⟨states, ⟨.of_state same states, fun q stopped => by rw [states q, stopped]⟩, simulates, ?_⟩
  simpa only [same.inTable] using linked.coherent

theorem KernelInv.retime (inv : KernelInv A base s f) (p : Addr) (write : Process → Process)
    (identity : (write (s.procs p)).identity = (s.procs p).identity)
    (state : (write (s.procs p)).state = (s.procs p).state)
    (next : (write (s.procs p)).next = (s.procs p).next) :
    (∀ q, ((s.onProc p write).procs q).state = (s.procs q).state) ∧
      Dispatch s (s.onProc p write) ∧ KernelInv A base (s.onProc p write) f := by
  obtain ⟨states, dispatch, linked⟩ := inv.toLinked.retime p write identity state next
  refine ⟨states, dispatch, inv.toStable.advance dispatch.toAdvance, ⟨linked, ?_⟩, inv.active⟩
  simpa only [dispatch.same.task] using inv.attends

/-- A tick is invisible to the scheduler. -/
theorem KernelInv.ticked (inv : KernelInv A base s f) :
    Dispatch s (tick s f.current) ∧ KernelInv A base (tick s f.current) f :=
  (inv.retime f.current _ rfl rfl rfl).2

theorem KernelInv.doTimer (inv : KernelInv A base s f) :
    ∃ fuel s' f', doTimer fuel s = some s' ∧ Dispatch s s' ∧ KernelInv A base s' f' := by
  obtain ⟨ticked, kept⟩ := inv.ticked
  unfold OsKernel.Proc.doTimer
  rw [inv.simulates.current]
  dsimp only
  by_cases spent : ((OsKernel.Proc.tick s f.current).procs f.current).counter = 0
  · obtain ⟨fuel, s', f', ran, dispatch, result⟩ := kept.schedule
    exact ⟨fuel, s', f', by rw [if_pos spent, ran], ticked.trans dispatch, result⟩
  · exact ⟨0, _, f, by rw [if_neg spent], ticked, kept⟩

theorem Linked.wake (linked : Linked s f) {p : Addr} (member : s.InTable p) :
    Advance s (schedulerWake s (some p)) ∧
      (∀ q, q ≠ p → ((schedulerWake s (some p)).procs q).state = (s.procs q).state) ∧
      Linked (schedulerWake s (some p)) (f.wake p) := by
  have simulates := linked.simulates.wake linked.coherent.sound p
  have kept := schedulerWake_rescheduled s p
  refine ⟨.of_simulates kept.sameTasks linked.simulates simulates (fun _ => Fifo.wake_blocked)
    (Fifo.wake_terminated p), ?_, simulates, ?_⟩
  · intro q different
    rw [simulates.status, linked.simulates.status, Fifo.wake_status_of_ne different]
  · simpa only [kept.sameTasks.inTable] using linked.coherent.wake (p := p) member

theorem KernelInv.wake (inv : KernelInv A base s f) {p : Addr} (member : s.InTable p) :
    Advance s (schedulerWake s (some p)) ∧
      (∀ q, q ≠ p → ((schedulerWake s (some p)).procs q).state = (s.procs q).state) ∧
      KernelInv A base (schedulerWake s (some p)) (f.wake p) := by
  obtain ⟨advance, others, linked⟩ := inv.toLinked.wake member
  have running := inv.status_current
  refine ⟨advance, others, inv.toStable.advance advance, ⟨linked, ?_⟩, ?_⟩
  · intro i first
    rw [advance.same.task] at first
    exact (inv.attends i first).wake
  · change (f.wake p).status (f.wake p).current = .running
    rw [Fifo.wake_current, Fifo.wake_status_of_not_blocked (by rw [running]; decide), running]

/-- A process that is not ready may be blocked. -/
theorem Linked.block (linked : Linked s f) {p : Addr} (unqueued : f.status p ≠ .ready) :
    Linked (s.onProc p fun q => { q with state := .blocked }) (f.setStatus p .blocked) := by
  have same := (rescheduled_onProc s p .blocked).sameTasks
  refine ⟨linked.simulates.setState p .blocked, ?_⟩
  simpa only [same.inTable] using linked.coherent.stop unqueued .blocked (by decide) (by decide)

/-- A process other than idle leaves somebody in the queue. -/
theorem KernelInv.queue_ne_nil (inv : KernelInv A base s f) (notIdle : s.task 0 ≠ some f.current) :
    f.queue ≠ [] := by
  obtain ⟨idle, first, _⟩ := inv.table.idle
  apply List.ne_nil_of_mem
  apply inv.attends idle first
  intro same
  exact notIdle (same ▸ first)

/-- A process other than idle may block; the scheduler then always finds another one. -/
theorem KernelInv.block (inv : KernelInv A base s f) (notIdle : s.task 0 ≠ some f.current) :
    ∃ fuel s' f', OsKernel.Proc.schedule fuel (blockCurrent s f.current) = some s' ∧
      Dispatch (blockCurrent s f.current) s' ∧ KernelInv A base s' f' ∧ f'.current ≠ f.current := by
  have same : SameTasks s (blockCurrent s f.current) :=
    (rescheduled_onProc s f.current .blocked).sameTasks
  have unqueued : f.status f.current ≠ .ready := by rw [inv.status_current]; decide
  have served : Served (blockCurrent s f.current) (f.setStatus f.current .blocked) := by
    refine ⟨inv.toLinked.block unqueued, ?_⟩
    intro i first
    rw [same.task] at first
    exact inv.attends i first
  have different : ∀ i, s.task 0 = some i → f.current ≠ i := by
    intro i first equal
    exact notIdle (equal ▸ first)
  obtain ⟨fuel, s', ran, dispatch, result⟩ := served.schedule
    fun i first equal => absurd equal (different i (by rwa [same.task] at first))
  have waiting : (f.setStatus f.current .blocked).queue ≠ [] := inv.queue_ne_nil notIdle
  have outside : f.current ∉ f.queue := inv.coherent.current_not_mem inv.active
  obtain ⟨active, moved⟩ := Fifo.schedule_active waiting outside
  have stable : Stable A base (blockCurrent s f.current) := by
    refine ⟨inv.table.of_sameTasks same, inv.owns.of_sameTasks same, ?_⟩
    intro p member
    have field := congrArg Process.ptRegs (same.identity p)
    change ((blockCurrent s f.current).procs p).ptRegs = (s.procs p).ptRegs at field
    rw [field, same.task, inv.regs p ((same.inTable p).mp member)]
    by_cases current : p = f.current
    · have running := inv.simulates.status f.current
      rw [inv.status_current] at running
      simp [current, blockCurrent, running]
    · simp [blockCurrent, current]
  exact ⟨fuel, s', _, ran, dispatch, ⟨stable.advance dispatch.toAdvance, result, active⟩, moved⟩

end Scheduling

section Exit

variable {code : Int}

theorem Exiting.simulates (exiting : Exiting s f.current code s') (simulates : Simulates s f) :
    Simulates s' (f.setStatus f.current .terminated) := by
  refine ⟨?_, exiting.current.trans simulates.current, ?_⟩
  · unfold Represents
    rw [exiting.links, exiting.readyQueue]
    exact simulates.queue
  · intro p
    by_cases same : p = f.current
    · simp [same, exiting.process, Fifo.setStatus]
    · simp [exiting.others p same, Fifo.setStatus, same, simulates.status p]

theorem Stable.exitRelease (stable : Stable A base s) (code : Int) {cur : Addr} (member : s.InTable cur) :
    Stable A base (exitRelease A s cur code) := by
  have exiting := exitRelease_exiting (A := A) code (stable.owns.noMap cur member)
  refine ⟨stable.table.exiting exiting, stable.owns.exitRelease code member, ?_⟩
  intro p present
  by_cases same : p = cur
  · rw [same, exiting.process]
    simp
  · rw [exiting.others p same, exiting.task]
    exact stable.regs p ((Kernel.inTable_congr exiting.task p).mp present)

theorem KernelInv.inTable_of_current (inv : KernelInv A base s f) {cur : Addr}
    (current : s.current = some cur) : s.InTable cur := by
  obtain rfl := inv.simulates.eq_current current
  exact inv.current_inTable

theorem KernelInv.running_of_current (inv : KernelInv A base s f) {cur : Addr}
    (current : s.current = some cur) : (s.procs cur).state = .running := by
  obtain rfl := inv.simulates.eq_current current
  rw [inv.simulates.status]
  exact inv.active

theorem KernelInv.exiting (inv : KernelInv A base s f) (code : Int) {cur : Addr}
    (current : s.current = some cur) : Exiting s cur code (OsKernel.Proc.exitRelease A s cur code) :=
  exitRelease_exiting code (inv.owns.noMap cur (inv.inTable_of_current current))

/-- The wake loop can reach every process of the table with a positive pid. -/
theorem TableOk.mem_wakeable (ok : TableOk s) {p : Addr} (member : s.InTable p)
    (positive : 0 < (s.procs p).pid) : p ∈ (taskRange s).filterMap (wakeable s) := by
  obtain ⟨i, entry⟩ := member
  rw [List.mem_filterMap]
  refine ⟨i, by simpa using ok.below i p entry, ?_⟩
  simp [wakeable, entry, positive]

theorem inTable_of_mem_wakeable {p : Addr} (member : p ∈ (taskRange s).filterMap (wakeable s)) :
    s.InTable p := by
  obtain ⟨i, _, found⟩ := List.mem_filterMap.mp member
  simp only [wakeable, Option.filter_eq_some_iff] at found
  exact ⟨i, found.1⟩

/-- The wake loop leaves no blocked process with a positive pid behind and drops nobody. -/
theorem Linked.wakeWaiters (linked : Linked s f) (ok : TableOk s) :
    ∃ ws, Advance s (wakeWaiters s) ∧ Linked (wakeWaiters s) (f.wakeAll ws) ∧
      ∀ p, s.InTable p → 0 < (s.procs p).pid → (f.wakeAll ws).status p ≠ .blocked := by
  have simulates := linked.simulates.wakeWaiters linked.coherent.sound
  have kept := wakeWaiters_rescheduled s
  refine ⟨_, .of_simulates kept.sameTasks linked.simulates simulates
    (fun p stopped => (Fifo.wakeAll_blocked _ stopped).1) (Fifo.wakeAll_terminated _),
    ⟨simulates, ?_⟩, ?_⟩
  · simpa only [kept.sameTasks.inTable] using
      linked.coherent.wakeAll _ fun p member => inTable_of_mem_wakeable member
  · intro p member positive stopped
    exact (Fifo.wakeAll_blocked _ stopped).2 (ok.mem_wakeable member positive)

theorem Served.wakeWaiters (served : Served s f) (ok : TableOk s) :
    ∃ ws, Advance s (wakeWaiters s) ∧ Served (wakeWaiters s) (f.wakeAll ws) ∧
      ∀ p, s.InTable p → 0 < (s.procs p).pid → (f.wakeAll ws).status p ≠ .blocked := by
  obtain ⟨ws, advance, linked, nobody⟩ := served.toLinked.wakeWaiters ok
  refine ⟨ws, advance, ⟨linked, ?_⟩, nobody⟩
  intro i first
  rw [advance.same.task] at first
  exact (served.attends i first).wakeAll ws

/-- A process other than idle does not stand in slot 0. -/
theorem KernelInv.ne_idle (inv : KernelInv A base s f) (notIdle : (s.procs f.current).pid ≠ 0) {i : Addr}
    (first : s.task 0 = some i) : f.current ≠ i := by
  intro equal
  obtain ⟨idle, slot, zero⟩ := inv.table.idle
  rw [first] at slot
  exact notIdle (by rw [equal, Option.some.inj slot, zero])

/-- The exiting process leaves the queue as it is, since it is not a member. -/
theorem KernelInv.exitRemove (inv : KernelInv A base s f) (code : Int) :
    ∃ s', schedulerRemove f.queue.length (exitRelease A s f.current code) (some f.current) = some s' ∧
      Relinked (exitRelease A s f.current code) s' ∧ Served s' (f.setStatus f.current .terminated) := by
  have exiting := inv.exiting code inv.simulates.current
  have removedEq : (f.setStatus f.current .terminated).remove f.current =
      f.setStatus f.current .terminated :=
    Fifo.remove_of_not_mem (inv.coherent.current_not_mem inv.active)
  obtain ⟨s', removed, unqueued⟩ :=
    (exiting.simulates inv.simulates).remove f.current (Nat.le_refl f.queue.length)
  have relinked := schedulerRemove_relinked removed
  rw [removedEq] at unqueued
  refine ⟨s', removed, relinked, ⟨unqueued, ?_⟩, ?_⟩
  · simpa only [relinked.sameTasks.inTable, Kernel.inTable_congr exiting.task] using inv.coherent.stop
      (by rw [inv.status_current]; decide) .terminated (by decide) (by decide)
  · intro i slot
    rw [relinked.sameTasks.task, exiting.task] at slot
    exact inv.attends i slot

/-- An exit by a process other than idle ends, switches away and wakes every waiter. -/
theorem KernelInv.exit (inv : KernelInv A base s f) (notIdle : (s.procs f.current).pid ≠ 0)
    (code : Int) :
    ∃ fuel s' f', processExit A fuel s code = some (.switched, s') ∧
      Advance (exitRelease A s f.current code) s' ∧ KernelInv A base s' f' ∧
      f'.current ≠ f.current ∧
      ∀ p, s.InTable p → 0 < (s.procs p).pid → (s'.procs p).state ≠ .blocked := by
  have exiting := inv.exiting code inv.simulates.current
  have stable := inv.toStable.exitRelease code inv.current_inTable
  obtain ⟨s₂, removed, relinked, served⟩ := inv.exitRemove code
  have first : Advance (exitRelease A s f.current code) s₂ :=
    .of_state relinked.sameTasks relinked.state
  obtain ⟨ws, second, woken, nobody⟩ := served.wakeWaiters (stable.advance first).table
  have current : ((f.setStatus f.current .terminated).wakeAll ws).current = f.current :=
    Fifo.wakeAll_current ws
  have dead : ((f.setStatus f.current .terminated).wakeAll ws).status
      ((f.setStatus f.current .terminated).wakeAll ws).current = .terminated := by
    rw [current, Fifo.wakeAll_terminated]
    simp [Fifo.setStatus]
  obtain ⟨fuel, s', ran, third, result⟩ := woken.schedule (by
    intro i slot equal
    rw [second.same.task, relinked.sameTasks.task, exiting.task] at slot
    exact absurd (current.symm.trans equal) (inv.ne_idle notIdle slot))
  obtain ⟨idle, slot, _⟩ := inv.table.idle
  have waiting : ((f.setStatus f.current .terminated).wakeAll ws).queue ≠ [] :=
    List.ne_nil_of_mem (Fifo.mem_wakeAll_queue ws (inv.attends idle slot (inv.ne_idle notIdle slot)))
  obtain ⟨active, moved⟩ := Fifo.schedule_active waiting
    (woken.coherent.not_mem_queue (by rw [dead]; decide))
  rw [current] at moved
  have advance := (first.trans second).trans third.toAdvance
  refine ⟨max f.queue.length fuel, s', _, ?_, advance, ⟨stable.advance advance, result, active⟩,
    moved, ?_⟩
  · unfold processExit
    rw [inv.simulates.current]
    dsimp only
    rw [if_neg notIdle, schedulerRemove_mono removed (Nat.le_max_left _ _)]
    simp only [Option.bind_eq_bind, Option.bind_some]
    rw [schedule_mono ran (Nat.le_max_right _ _)]
    simp only [Option.bind_some, result.simulates.current, Option.some.injEq, moved, ↓reduceIte]
    rfl
  · intro p present positive blocked
    have earlier := third.blocked p blocked
    rw [woken.simulates.status] at earlier
    have listed : s₂.InTable p := by
      rw [relinked.sameTasks.inTable p, Kernel.inTable_congr exiting.task]
      exact present
    refine nobody p listed ?_ earlier
    rw [relinked.sameTasks.pid p]
    by_cases same : p = f.current
    · rw [same, exiting.process, ← same]
      exact positive
    · rw [exiting.others p same]
      exact positive

end Exit

section Create

/-- Only the control blocks of the tasks matter to the scheduler. -/
theorem Linked.withProcs (linked : Linked s f) (current : s'.current = s.current)
    (ends : s'.readyQueue = s.readyQueue) (tasks : s'.task = s.task)
    (same : ∀ p, s.InTable p → s'.procs p = s.procs p) :
    Linked s' { f with status := fun p => (s'.procs p).state } := by
  have queued : ∀ p ∈ f.queue, s'.links p = s.links p := by
    intro p member
    simp only [Kernel.links, same p ((linked.coherent.ready p).mp member).1]
  have inTable := Kernel.inTable_congr tasks
  refine ⟨⟨?_, current.trans linked.simulates.current, fun _ => rfl⟩, ?_⟩
  · unfold Represents
    rw [ends]
    exact Queue.congr linked.simulates.queue queued
  · simp only [inTable]
    apply linked.coherent.withStatus
    intro p member
    rw [same p member, linked.simulates.status]

/-- A failed creation is invisible to the scheduler. -/
theorem Linked.createFailed (linked : Linked s f) (owns : Owns A base s)
    (failed : CreateFailed A s s') : Linked s' { f with status := fun p => (s'.procs p).state } :=
  linked.withProcs failed.current failed.readyQueue failed.task fun p member =>
    failed.procs p (owns.live_of_inTable member)

/-- A failed creation keeps the invariant. -/
theorem KernelInv.createFailed (inv : KernelInv A base s f) (failed : CreateFailed A s s') :
    ∃ f', KernelInv A base s' f' := by
  have same : ∀ p, s.InTable p → s'.procs p = s.procs p := fun p member =>
    failed.procs p (inv.owns.live_of_inTable member)
  have linked := inv.toLinked.createFailed inv.owns failed
  refine ⟨_, ⟨inv.table.createFailed inv.owns failed, inv.owns.createFailed failed, ?_⟩,
    ⟨linked, fun i first => inv.attends i (by rwa [failed.task] at first)⟩, ?_⟩
  · intro p member
    have present : s.InTable p := (Kernel.inTable_congr failed.task p).mp member
    rw [same p present, failed.task]
    exact inv.regs p present
  · change (s'.procs f.current).state = .running
    rw [same f.current inv.current_inTable, inv.simulates.status]
    exact inv.active

/-- The states after an admission: the new process is ready and the others are as before. -/
theorem processAdmit_state {priority : Nat} {p : Addr} {t : Kernel H}
    (ready : CreateReady A s priority p t) :
    ((processAdmit t p).procs p).state = .ready ∧
      ∀ q, q ≠ p → ((processAdmit t p).procs q).state = (s.procs q).state := by
  obtain ⟨_, _, _, _, pending⟩ := ready
  have added := schedulerAdd_relinked (installTask (processSetState t (some p) .ready) p) p
  obtain ⟨task, count, installed⟩ := installTask_eq (processSetState t (some p) .ready) p
  unfold processAdmit
  constructor
  · rw [added.state p, installed]
    simp [processSetState]
  · intro q different
    rw [added.state q, installed]
    simp [processSetState, different, pending.others q different]

/-- The abstract scheduler after an admission. -/
def admittedFifo (f : Fifo Addr) (t : Kernel H) (p : Addr) : Fifo Addr :=
  (({ f with status := fun q => (t.procs q).state } : Fifo Addr).setStatus p .ready).enqueue p

/-- The admitted process joins the queue. -/
theorem Linked.admit (linked : Linked s f) {priority : Nat} {p : Addr} {t : Kernel H}
    (ready : CreateReady A s priority p t) (ok : TableOk s) (owns : Owns A base s) :
    Linked (processAdmit t p) (admittedFifo f t p) := by
  obtain ⟨_, admitted⟩ := ready.admitted ok owns
  obtain ⟨_, _, _, _, pending⟩ := ready
  have kept : ∀ q, s.InTable q → q ≠ p := fun _ => admitted.ne
  have built := linked.withProcs pending.current pending.readyQueue pending.task
    fun q member => pending.others q (kept q member)
  have inTableT := Kernel.inTable_congr pending.task
  have outside : p ∉ f.queue := by
    intro member
    exact admitted.absent ((linked.coherent.ready p).mp member).1
  have prepared := built.simulates.setState p .ready
  have slotted : Simulates (installTask (processSetState t (some p) .ready) p)
      (({ f with status := fun q => (t.procs q).state } : Fifo Addr).setStatus p .ready) := by
    obtain ⟨task, count, installed⟩ := installTask_eq (processSetState t (some p) .ready) p
    rw [installed]
    exact ⟨prepared.queue, prepared.current, prepared.status⟩
  have coherent := built.coherent.admit (p := p) (by
    simpa only [Set.mem_ofPred_eq, inTableT] using admitted.absent)
  have keys : {q | (processAdmit t p).InTable q} = insert p {q | t.InTable q} := by
    ext q
    simp only [Set.mem_ofPred_eq, Set.mem_insert_iff, admitted.inTable, inTableT]
  exact ⟨slotted.add (p := p) outside, keys ▸ coherent⟩

/-- A creation that succeeds admits one ready process and keeps the invariant. -/
theorem KernelInv.admit (inv : KernelInv A base s f) {priority : Nat} {p : Addr} {t : Kernel H}
    (ready : CreateReady A s priority p t) : ∃ f', KernelInv A base (processAdmit t p) f' := by
  obtain ⟨table, admitted⟩ := ready.admitted inv.table inv.owns
  have owns := ready.owns inv.table inv.owns
  obtain ⟨newState, oldStates⟩ := processAdmit_state ready
  have kept : ∀ q, s.InTable q → q ≠ p := fun _ => admitted.ne
  have linked := inv.toLinked.admit ready inv.table inv.owns
  have zero := admitted.first inv.table
  refine ⟨_, ⟨table, owns, ?_⟩, ⟨linked, ?_⟩, ?_⟩
  · intro q member
    obtain ⟨idle, first, _⟩ := inv.table.idle
    rcases (admitted.inTable q).mp member with rfl | old
    · have some := admitted.regs
      rw [newState, zero, first]
      have different : idle ≠ q := fun equal => admitted.absent ⟨0, equal ▸ first⟩
      simp [Option.isSome_iff_ne_none.mp some, different]
    · have field := congrArg Process.ptRegs (admitted.others q (kept q old))
      change ((processAdmit t p).procs q).ptRegs = (s.procs q).ptRegs at field
      rw [field, zero, oldStates q (kept q old)]
      exact inv.regs q old
  · intro i first different
    rw [zero] at first
    exact List.mem_append_left _ (inv.attends i first different)
  · have different : f.current ≠ p := kept f.current inv.current_inTable
    change (admittedFifo f t p).status f.current = .running
    rw [← linked.simulates.status, oldStates f.current different, inv.simulates.status]
    exact inv.active

end Create

section Wait

/-- A terminated task can be reaped without touching the scheduler. -/
theorem KernelInv.reap (inv : KernelInv A base s f) {target : Addr} (member : s.InTable target)
    (dead : (s.procs target).state = .terminated) :
    Reaped s (reap A s target) target ∧ KernelInv A base (reap A s target) f := by
  have notIdle : s.task 0 ≠ some target := by
    intro first
    rcases inv.idle_state first with ready | running
    · rw [dead] at ready
      cases ready
    · rw [dead] at running
      cases running
  have noRegs : (s.procs target).ptRegs = none := (inv.regs target member).mpr (Or.inr dead)
  obtain ⟨table, owns, reaped⟩ := reap_spec inv.table inv.owns member notIdle noRegs
  have status : f.status target = .terminated := by rw [← inv.simulates.status, dead]
  have other : f.current ≠ target := by
    intro same
    have running := inv.status_current
    rw [same, status] at running
    cases running
  have zero : (OsKernel.Proc.reap A s target).task 0 = s.task 0 := by
    obtain ⟨i, entry, tasks⟩ := reaped.slot
    rw [tasks, Function.update_of_ne]
    intro equal
    exact notIdle (equal ▸ entry)
  have keys : {q | (OsKernel.Proc.reap A s target).InTable q} = {q | s.InTable q} \ {target} := by
    ext q
    exact reaped.inTable inv.table q
  have simulates : Simulates (OsKernel.Proc.reap A s target) f := by
    refine ⟨?_, reaped.current.trans inv.simulates.current, fun p => ?_⟩
    · unfold Represents Kernel.links
      rw [reaped.procs, reaped.readyQueue]
      exact inv.simulates.queue
    · rw [reaped.procs]
      exact inv.simulates.status p
  refine ⟨reaped, ⟨table, owns, ?_⟩, ⟨⟨simulates, ?_⟩, ?_⟩, inv.active⟩
  · intro p present
    rw [reaped.procs, zero]
    exact inv.regs p ((reaped.inTable inv.table p).mp present).1
  · rw [keys]
    exact inv.coherent.discard (by rw [status]; decide) other
  · intro i first
    rw [zero] at first
    exact inv.attends i first

/-- The second half either fails and changes nothing or reaps the target. -/
theorem processWaitResume_cases (s : Kernel H) (pid : Int) (want : Bool) :
    (processWaitResume A s pid want = (⟨-1, none⟩, s) ∧
      ∀ target, findTask s pid = some target → (s.procs target).state ≠ .terminated) ∨
    ∃ target, findTask s pid = some target ∧ s.InTable target ∧ (s.procs target).pid = pid ∧
      (s.procs target).state = .terminated ∧
      processWaitResume A s pid want =
        (⟨0, if want then some (s.procs target).exitCode else none⟩, OsKernel.Proc.reap A s target) := by
  unfold processWaitResume
  cases found : findTask s pid with
  | none => exact Or.inl ⟨rfl, fun _ clash => by cases clash⟩
  | some target =>
      dsimp only
      obtain ⟨member, matching⟩ := findTask_some found
      by_cases dead : (s.procs target).state = .terminated
      · right
        rw [if_neg (not_not.mpr dead)]
        exact ⟨target, rfl, member, matching, dead, rfl⟩
      · left
        rw [if_pos dead]
        refine ⟨rfl, ?_⟩
        intro p same
        rw [← Option.some.inj same]
        exact dead

/-- A call of `process_wait` fails at once, reaps at once, or blocks its caller on a live target. -/
theorem KernelInv.wait (inv : KernelInv A base s f) (pid : Int) (want : Bool) :
    (((s.procs f.current).pid = 0 ∨ (s.procs f.current).pid = pid ∨ findTask s pid = none) ∧
      ∀ fuel, processWait A fuel s pid want = some (.returned ⟨-1, none⟩, s)) ∨
    (∃ target, findTask s pid = some target ∧ (s.procs target).state = .terminated ∧
      ∀ fuel, processWait A fuel s pid want = some (.returned
        ⟨0, if want then some (s.procs target).exitCode else none⟩, OsKernel.Proc.reap A s target)) ∨
    ∃ target fuel s' f', findTask s pid = some target ∧ (s.procs target).state ≠ .terminated ∧
      (s.procs f.current).pid ≠ 0 ∧ (s.procs f.current).pid ≠ pid ∧
      processWait A fuel s pid want = some (.suspended, s') ∧
      Dispatch (blockCurrent s f.current) s' ∧ KernelInv A base s' f' ∧ f'.current ≠ f.current := by
  unfold processWait
  rw [inv.simulates.current]
  dsimp only
  by_cases idle : (s.procs f.current).pid = 0
  · refine Or.inl ⟨Or.inl idle, fun fuel => ?_⟩
    rw [if_pos idle]
  · by_cases own : (s.procs f.current).pid = pid
    · refine Or.inl ⟨Or.inr (Or.inl own), fun fuel => ?_⟩
      rw [if_neg idle, if_pos own]
    · cases found : findTask s pid with
      | none =>
          refine Or.inl ⟨Or.inr (Or.inr rfl), fun fuel => ?_⟩
          rw [if_neg idle, if_neg own]
      | some target =>
          right
          by_cases dead : (s.procs target).state = .terminated
          · left
            refine ⟨target, rfl, dead, ?_⟩
            intro fuel
            rw [if_neg idle, if_neg own]
            dsimp only
            rw [if_neg (not_not.mpr dead)]
            rfl
          · right
            have notIdle : s.task 0 ≠ some f.current := by
              intro first
              obtain ⟨i, slot, zero⟩ := inv.table.idle
              rw [first] at slot
              exact idle (by rw [Option.some.inj slot, zero])
            obtain ⟨fuel, s', f', ran, dispatch, kept, moved⟩ := inv.block notIdle
            refine ⟨target, fuel, s', f', rfl, dead, idle, own, ?_, dispatch, kept, moved⟩
            rw [if_neg idle, if_neg own]
            dsimp only
            rw [if_pos dead, ran]
            simp [kept.simulates.current, moved]

end Wait

end OsKernel.Proc
