import OsKernel.Process.FifoSafety
import OsKernel.Process.SjfPick

/-
This file mixes `schedule_sjf` with the FIFO scheduler.
`switch_to` moves the current process and two states and leaves the linked
queue alone, so the two schedulers agree only while it has nothing to switch to.
-/

namespace OsKernel.Proc
open OsKernel.Library

variable {H : Type} {A : Allocator H} {base : Finset Addr} {s s' : Kernel H} {f : Fifo Addr}

/-- The current process has pid 0, and no slot past the first holds a ready process. -/
def NothingToSwitch (s : Kernel H) : Prop :=
  (s.current.any fun cur => (s.procs cur).pid = 0) ∧
    ∀ i : Fin 64, i ≠ 0 → (s.task i).all fun p => (s.procs p).state ≠ .ready

instance (s : Kernel H) : Decidable (NothingToSwitch s) := inferInstanceAs (Decidable (_ ∧ _))

section Switch

/-- With nothing to switch to, nobody waits past slot 0. -/
theorem NothingToSwitch.nobody (idle : NothingToSwitch s) (i : Fin 64) (p : Addr) : ¬ Waiting s i p := by
  rintro ⟨past, _, entry, ready⟩
  have waiting := idle.2 i past
  simp [entry, ready] at waiting

/-- With nothing to switch to, `schedule_sjf` returns and changes nothing. -/
theorem NothingToSwitch.scheduleSjf (idle : NothingToSwitch s) : scheduleSjf 1 s = some s := by
  cases current : s.current with
  | none => simp [OsKernel.Proc.scheduleSjf, current]
  | some cur =>
      have zero : (s.procs cur).pid = 0 := by simpa [current] using idle.1
      rw [scheduleSjf_nobody current idle.nobody, if_neg (not_not.mpr zero)]

/-- New counters are invisible to the FIFO scheduler. -/
theorem KernelInv.recounted (inv : KernelInv A base s f) (counter : Addr → Nat) :
    KernelInv A base { s with procs := fun q => { s.procs q with counter := counter q } } f := by
  have same : SameTasks s { s with procs := fun q => { s.procs q with counter := counter q } } := rfl
  refine ⟨inv.toStable.advance (.of_state same fun _ => rfl), ⟨⟨?_, inv.coherent⟩, inv.attends⟩, inv.active⟩
  exact ⟨inv.simulates.queue, inv.simulates.current, inv.simulates.status⟩

/-- Otherwise `schedule_sjf`, if it returns, has switched to a process of the queue. -/
theorem KernelInv.scheduleSjf_switch {fuel : Nat} (inv : KernelInv A base s f)
    (busy : ¬ NothingToSwitch s) (returned : scheduleSjf fuel s = some s') :
    ∃ t n, KernelInv A base t f ∧ n ∈ f.queue ∧ s' = switchTo t (some n) := by
  induction fuel generalizing s with
  | zero => simp [scheduleSjf] at returned
  | succ fuel ih =>
      have current := inv.simulates.current
      by_cases nothing : sjfPick s = 0
      · by_cases waiting : ∃ i p, Waiting s i p
        · rw [scheduleSjf_refresh current nothing waiting, refreshSlices_eq] at returned
          exact ih (inv.recounted (freshSlice s)) busy returned
        · push Not at waiting
          -- Nobody is ready past slot 0, so the current process is not idle.
          have notIdle : (s.procs f.current).pid ≠ 0 := by
            intro zero
            refine busy ⟨by simp [current, zero], ?_⟩
            intro i notFirst
            cases entry : s.task i with
            | none => simp
            | some p => simpa using fun ready => waiting i p ⟨notFirst, inv.table.below i p entry, entry, ready⟩
          obtain ⟨idle, first, zero⟩ := inv.table.idle
          rw [scheduleSjf_nobody current waiting, if_pos notIdle, first, Option.some.injEq] at returned
          refine ⟨s, idle, inv, inv.attends idle first ?_, returned.symm⟩
          intro same
          exact notIdle (same ▸ zero)
      · rcases sjfPick_cases s with ⟨clash, _⟩ | ⟨p, _, shortest⟩
        · exact absurd clash nothing
        · obtain ⟨_, _, entry, ready⟩ := shortest.waiting
          rw [scheduleSjf_pick current nothing, entry, Option.some.injEq] at returned
          refine ⟨s, p, inv, ?_, returned.symm⟩
          rw [inv.coherent.ready, ← inv.simulates.status]
          exact ⟨⟨_, entry⟩, ready⟩

/-- A switch to a process of the queue leaves it in the queue. -/
theorem KernelInv.switchTo_broken (inv : KernelInv A base s f) {n : Addr} (queued : n ∈ f.queue) :
    Represents (switchTo s (some n)) f.queue ∧
      (switchTo s (some n)).current = some n ∧
      ((switchTo s (some n)).procs n).state = .running := by
  have different : f.current ≠ n := by
    intro same
    exact inv.coherent.current_not_mem inv.active (same ▸ queued)
  have running := inv.running_of_current inv.simulates.current
  have result : switchTo s (some n) =
      (({ s with current := some n }).onProc f.current fun p => { p with state := .ready }).onProc n
        fun p => { p with state := .running } := by
    simp only [switchTo, inv.simulates.current, if_neg different]
    rw [if_pos running]
  have moved : Represents { s with current := some n } f.queue := inv.simulates.queue
  rw [result]
  exact ⟨(moved.onProc f.current _ rfl).onProc n _ rfl, rfl, by simp⟩

end Switch

/-- The queue lists the ready tasks once each and not the current one, and a search of it ends. -/
structure Mixable (s : Kernel H) (queue : List Addr) : Prop where
  linked : Chain s.links s.readyQueue.head queue
  last : s.readyQueue.tail = queue.getLast?
  nodup : queue.Nodup
  ready : ∀ p, p ∈ queue ↔ s.InTable p ∧ (s.procs p).state = .ready
  outside : ∀ cur, s.current = some cur → cur ∉ queue
  ends : ∀ p, ∃ fuel s', schedulerRemove fuel s (some p) = some s'

theorem KernelInv.mixable (inv : KernelInv A base s f) : Mixable s f.queue := by
  obtain ⟨idle, queue⟩ := inv.queueInvariant
  refine ⟨queue.linked, queue.last, queue.nodup, queue.ready, ?_, ?_⟩
  · intro cur current
    rw [queue.current, Option.some.injEq] at current
    exact current ▸ queue.outside
  · intro p
    obtain ⟨s', removed, _⟩ := schedulerRemove_represents p inv.simulates.queue (le_refl _)
    exact ⟨_, s', removed⟩

/-- A call of `schedule_sjf` that returns keeps the queue exactly when it has nothing to switch. -/
theorem KernelInv.scheduleSjf_mixable {fuel : Nat} (inv : KernelInv A base s f)
    (returned : scheduleSjf fuel s = some s') : (∃ queue, Mixable s' queue) ↔ NothingToSwitch s := by
  constructor
  · rintro ⟨queue, mixable⟩
    by_contra busy
    obtain ⟨t, n, kept, queued, rfl⟩ := inv.scheduleSjf_switch busy returned
    obtain ⟨represented, _, running⟩ := kept.switchTo_broken queued
    have same : queue = f.queue := mixable.linked.unique represented.chain
    have ready := ((mixable.ready n).mp (same ▸ queued)).2
    rw [running] at ready
    cases ready
  · intro idle
    have same : s' = s := by
      have again := scheduleSjf_mono idle.scheduleSjf (Nat.le_max_left 1 fuel)
      have longer := scheduleSjf_mono returned (Nat.le_max_right 1 fuel)
      exact Option.some.inj (longer.symm.trans again)
    exact same ▸ ⟨f.queue, inv.mixable⟩

section Runs

variable {heap : H} {start m m' : Machine H} {ops : List Op} {op : Op}

/-- Both schedulers run, `schedule_sjf` only where it has nothing to switch and blocking only
outside idle. -/
def mixedAllow (m : Machine H) : Op → Bool
  | .scheduleSjf => decide (NothingToSwitch m.kernel)
  | op => fifoAllow m op

/-- An allowed operation is one of the FIFO scheduler or a `schedule_sjf` without effect. -/
theorem mixedAllow_cases (allowed : mixedAllow m op = true) :
    fifoAllow m op = true ∨ op = .scheduleSjf ∧ NothingToSwitch m.kernel := by
  cases op with
  | scheduleSjf => exact Or.inr ⟨rfl, of_decide_eq_true allowed⟩
  | _ => exact Or.inl allowed

theorem KernelInv.mixedStep (inv : KernelInv A base m.kernel f)
    (taken : Disciplined A mixedAllow m op m') : ∃ f', KernelInv A base m'.kernel f' := by
  obtain ⟨allowed, step⟩ := taken
  rcases mixedAllow_cases allowed with plain | ⟨rfl, idle⟩
  · exact (inv.step ⟨plain, step⟩).1
  · obtain ⟨_, fuel, ran⟩ := step
    have stays : OsKernel.Proc.exec A 1 m .scheduleSjf = some m := by
      simp [OsKernel.Proc.exec, idle.scheduleSjf]
    exact exec_det ran stays ▸ ⟨f, inv⟩

theorem mixed_run_inv (booted : Booted A heap start)
    (run : Run (Disciplined A mixedAllow) start ops m) :
    ∃ f, KernelInv A (A.live heap) m.kernel f := by
  refine run.invariant (fun _ m => ∃ f, KernelInv A (A.live heap) m.kernel f) ?_ ?_
  · exact fifo_run_inv booted .nil
  · intro _ _ _ _ _ holds taken
    obtain ⟨f, inv⟩ := holds
    exact inv.mixedStep taken

/-- Where every `schedule_sjf` has nothing to switch, the two schedulers can be mixed; a further
call that returns keeps the queue exactly under that condition. -/
theorem mixed_run_mixable (booted : Booted A heap start)
    (run : Run (Disciplined A mixedAllow) start ops m) :
    (∃ queue, Mixable m.kernel queue) ∧
      ∀ m', Step A m .scheduleSjf m' →
        ((∃ queue, Mixable m'.kernel queue) ↔ NothingToSwitch m.kernel) := by
  obtain ⟨f, inv⟩ := mixed_run_inv booted run
  refine ⟨⟨f.queue, inv.mixable⟩, ?_⟩
  rintro m' ⟨_, fuel, ran⟩
  simp only [exec, Option.map_eq_some_iff] at ran
  obtain ⟨kernel, returned, rfl⟩ := ran
  exact inv.scheduleSjf_mixable returned

theorem mixed_run_mixable_sample :
    ∃ m, Run (Disciplined sampleAllocator mixedAllow) sampleStart
        [.scheduleSjf, .create (some 7) 0 2, .schedule, .exit 3, .scheduleSjf, .doTimer] m ∧
      ∃ queue, Mixable m.kernel queue := by
  obtain ⟨m, run, _⟩ := exists_run sampleAllocator mixedAllow 20 sampleStart
    [.scheduleSjf, .create (some 7) 0 2, .schedule, .exit 3, .scheduleSjf, .doTimer]
    (fun _ => true) (by decide +kernel)
  exact ⟨m, run, (mixed_run_mixable sampleStart_booted run).1⟩

/-- Any call of the two schedulers is allowed, also blocking by idle. -/
def anyAllow (_ : Machine H) : Op → Bool
  | .setState _ _ => false
  | _ => true

/-- After one creation `schedule_sjf` runs a process that still stands in the queue. -/
theorem scheduleSjf_breaks_queue :
    ∃ m, Run (Disciplined sampleAllocator anyAllow) sampleStart
        [.create (some 7) 0 2, .scheduleSjf] m ∧ ¬ ∃ queue, Mixable m.kernel queue := by
  obtain ⟨m, run, found⟩ := exists_run sampleAllocator anyAllow 20 sampleStart
    [.create (some 7) 0 2, .scheduleSjf]
    (fun m => decide (m.kernel.current = some 103 ∧ m.kernel.readyQueue.head = some 103))
    (by decide +kernel)
  obtain ⟨current, head⟩ := of_decide_eq_true found
  refine ⟨m, run, ?_⟩
  rintro ⟨queue, mixable⟩
  have linked := mixable.linked
  rw [head] at linked
  cases queue with
  | nil => simp at linked
  | cons first rest =>
      have same : first = 103 := (Option.some.inj linked.1).symm
      exact mixable.outside 103 current (by simp [same])

/-- The call of `process_exit` makes another process current and never comes back. -/
def ExitSwitches (A : Allocator H) (s : Kernel H) (code : Int) : Prop :=
  (∃ fuel kernel, processExit A fuel s code = some (.switched, kernel) ∧
    kernel.current ≠ s.current) ∧
  ∀ fuel kernel, processExit A fuel s code ≠ some (.returned, kernel)

theorem KernelInv.exitSwitches (inv : KernelInv A base s f) {cur : Addr}
    (current : s.current = some cur) (notIdle : (s.procs cur).pid ≠ 0) (code : Int) :
    ExitSwitches A s code := by
  obtain rfl := inv.simulates.eq_current current
  obtain ⟨fuel, s', f', ran, _, kept, moved, _⟩ := inv.exit notIdle code
  refine ⟨⟨fuel, s', ran, ?_⟩, ?_⟩
  · rw [current, kept.simulates.current]
    simpa using moved
  · intro other kernel returned
    have left := processExit_mono ran (Nat.le_max_left fuel other)
    have right := processExit_mono returned (Nat.le_max_right fuel other)
    rw [left] at right
    simp at right

/-- Where idle never blocks and every `schedule_sjf` has nothing to switch, no exit falls through. -/
theorem mixed_run_exitSwitches (booted : Booted A heap start)
    (run : Run (Disciplined A mixedAllow) start ops m) :
    ∀ cur code, m.kernel.current = some cur → (m.kernel.procs cur).pid ≠ 0 →
      ExitSwitches A m.kernel code := by
  obtain ⟨f, inv⟩ := mixed_run_inv booted run
  exact fun cur code current notIdle => inv.exitSwitches current notIdle code

theorem mixed_run_exitSwitches_sample :
    ∃ m, Run (Disciplined sampleAllocator mixedAllow) sampleStart
        [.scheduleSjf, .create (some 7) 0 2, .schedule] m ∧ ExitSwitches sampleAllocator m.kernel 3 := by
  obtain ⟨m, run, found⟩ := exists_run sampleAllocator mixedAllow 20 sampleStart
    [.scheduleSjf, .create (some 7) 0 2, .schedule]
    (fun m => decide (m.kernel.current = some 103 ∧ (m.kernel.procs 103).pid ≠ 0))
    (by decide +kernel)
  obtain ⟨current, notIdle⟩ := of_decide_eq_true found
  exact ⟨m, run, mixed_run_exitSwitches sampleStart_booted run 103 3 current notIdle⟩

/-- Idle is not queued when `schedule_sjf` leaves it, so the exit of the new process falls through. -/
theorem scheduleSjf_exit_returns :
    ∃ m, Run (Disciplined sampleAllocator anyAllow) sampleStart
        [.create (some 7) 0 2, .scheduleSjf] m ∧ m.Enabled (.exit 3) ∧
      m.kernel.current = some 103 ∧ (m.kernel.procs 103).pid = 1 ∧
      ¬ ExitSwitches sampleAllocator m.kernel 3 := by
  obtain ⟨m, run, found⟩ := exists_run sampleAllocator anyAllow 20 sampleStart
    [.create (some 7) 0 2, .scheduleSjf]
    (fun m => decide (m.Enabled (.exit 3) ∧ m.kernel.current = some 103 ∧
      (m.kernel.procs 103).pid = 1 ∧
      (processExit sampleAllocator 20 m.kernel 3).any fun result => result.1 = .returned))
    (by decide +kernel)
  obtain ⟨enabled, current, number, finished⟩ := of_decide_eq_true found
  obtain ⟨⟨outcome, kernel⟩, returned, fell⟩ := (Option.any_eq_true _ _).mp finished
  obtain rfl : outcome = .returned := by simpa using fell
  exact ⟨m, run, enabled, current, number, fun switches => switches.2 20 kernel returned⟩

end Runs

end OsKernel.Proc
