import OsKernel.Process.SjfRuns

/-
This file says when `schedule_sjf` returns and when it leaves work behind.
The refresh gives priority 0 no time slice, and the scan never looks at the caller.
-/

namespace OsKernel.Proc
open OsKernel.Library

variable {H : Type} {A : Allocator H} {base : Finset Addr} {s s' : Kernel H} {cur : Addr}

/-- The call returns after at most one refresh of the time slices. -/
def SjfReturns (s : Kernel H) : Prop := ∃ s', scheduleSjf 2 s = some s'

/-- When somebody waits, one of the waiting processes has a priority other than 0. -/
def Servable (s : Kernel H) : Prop :=
  (∃ i p, Waiting s i p) → ∃ i p, Waiting s i p ∧ (s.procs p).priority ≠ 0

section Returns

/-- A waiting process without a time slice and at priority 0 gets none from the refresh. -/
def Starved (s : Kernel H) : Prop :=
  (∃ i p, Waiting s i p) ∧ ∀ i p, Waiting s i p → (s.procs p).counter = 0 ∧ (s.procs p).priority % 5 = 0

theorem Starved.refresh (starved : Starved s) : Starved (refreshSlices s).2 := by
  obtain ⟨waiting, spent⟩ := starved
  refine ⟨by simpa only [waiting_refreshSlices] using waiting, ?_⟩
  intro i p again
  have earlier := waiting_refreshSlices.mp again
  have zero := (spent i p earlier).2
  rw [refreshSlices_eq]
  refine ⟨?_, zero⟩
  dsimp only
  rw [freshSlice, if_pos ⟨i, earlier⟩, zero]
  rfl

/-- The recursion of a starved call never ends. -/
theorem Starved.scheduleSjf (starved : Starved s) (current : s.current = some cur) (fuel : Nat) :
    scheduleSjf fuel s = none := by
  induction fuel generalizing s with
  | zero => rfl
  | succ fuel ih =>
      have nothing : sjfPick s = 0 := by
        rcases sjfPick_cases s with ⟨zero, _⟩ | ⟨p, _, shortest⟩
        · exact zero
        · have spent := (starved.2 _ p shortest.waiting).1
          have positive := shortest.positive
          omega
      rw [scheduleSjf_refresh current nothing starved.1]
      exact ih starved.refresh (by rw [refreshSlices_eq]; exact current)

/-- A pick past slot 0 is a waiting process, and the switch makes it current. -/
theorem switchTo_pick (current : s.current = some cur) (picked : sjfPick s ≠ 0) :
    ∃ p, Waiting s (sjfPick s) p ∧ (switchTo s (s.task (sjfPick s))).current = some p := by
  rcases sjfPick_cases s with ⟨zero, _⟩ | ⟨p, _, shortest⟩
  · exact absurd zero picked
  · refine ⟨p, shortest.waiting, ?_⟩
    rw [shortest.waiting.2.2.1]
    by_cases same : cur = p
    · simp [switchTo, current, same]
    · rw [switchTo_eq current same]

/-- With a waiting process whose priority has a time slice, the call runs a waiting process. -/
theorem scheduleSjf_runs {i : Fin 64} {p : Addr} (current : s.current = some cur) (waiting : Waiting s i p)
    (entitled : (s.procs p).priority % 5 ≠ 0) :
    ∃ j q s', Waiting s j q ∧ scheduleSjf 2 s = some s' ∧ s'.current = some q := by
  by_cases picked : sjfPick s = 0
  · have renewed : (refreshSlices s).2.current = some cur := by
      rw [refreshSlices_eq]
      exact current
    obtain ⟨q, chosen, runs⟩ := switchTo_pick renewed (sjfPick_refreshSlices waiting entitled)
    refine ⟨_, q, _, waiting_refreshSlices.mp chosen, ?_, runs⟩
    rw [scheduleSjf_refresh current picked ⟨i, p, waiting⟩,
      scheduleSjf_pick renewed (sjfPick_refreshSlices waiting entitled)]
  · obtain ⟨q, chosen, runs⟩ := switchTo_pick current picked
    exact ⟨_, q, _, chosen, scheduleSjf_pick current picked 1, runs⟩

theorem SjfInv.scheduleSjf_runs {i : Fin 64} {p : Addr} (inv : SjfInv A base s) (waiting : Waiting s i p)
    (entitled : (s.procs p).priority ≠ 0) :
    ∃ j q s', Waiting s j q ∧ OsKernel.Proc.scheduleSjf 2 s = some s' ∧ s'.current = some q := by
  obtain ⟨_, _, current⟩ := inv.closed.current
  have range := (inv.paced p ⟨i, waiting.2.2.1⟩).1
  exact OsKernel.Proc.scheduleSjf_runs current waiting (by omega)

/-- A call returns exactly when nobody waits or one of the waiting has a priority other than 0. -/
theorem SjfInv.returns_iff (inv : SjfInv A base s) : SjfReturns s ↔ Servable s := by
  obtain ⟨cur, _, current⟩ := inv.closed.current
  constructor
  · rintro ⟨s', returned⟩ waiting
    by_contra none
    push Not at none
    have starved : Starved s := by
      refine ⟨waiting, ?_⟩
      intro i p waits
      have bound := (inv.paced p ⟨i, waits.2.2.1⟩).2
      rw [none i p waits] at bound ⊢
      exact ⟨Nat.le_zero.mp bound, rfl⟩
    rw [starved.scheduleSjf current] at returned
    cases returned
  · intro servable
    by_cases waiting : ∃ i p, Waiting s i p
    · obtain ⟨i, p, waits, entitled⟩ := servable waiting
      obtain ⟨_, _, s', _, returned, _⟩ := inv.scheduleSjf_runs waits entitled
      exact ⟨s', returned⟩
    · push Not at waiting
      exact ⟨_, scheduleSjf_nobody current waiting 1⟩

end Returns

theorem Entitled.servable (entitled : Entitled s) : Servable s := by
  rintro ⟨i, p, waiting⟩
  exact ⟨i, p, waiting, entitled i p waiting.1 waiting.2.2.1⟩

section Runs

variable {heap : H} {start m : Machine H} {ops : List Op}

/-- In every run `schedule_sjf` ends after at most one refresh exactly when nobody waits or a waiting process has
a priority other than 0, and so it always ends when no creation asks for priority 0. -/
theorem sjf_run_returns (booted : Booted A heap start) (run : Run (Disciplined A sjfAllow) start ops m) :
    (SjfReturns m.kernel ↔ Servable m.kernel) ∧
      ((∀ op ∈ ops, op.priority ≠ some 0) → SjfReturns m.kernel) := by
  obtain ⟨inv, entitled⟩ := sjf_run_inv booted run
  refine ⟨inv.returns_iff, ?_⟩
  intro nonzero
  exact inv.returns_iff.mpr (entitled nonzero).servable

/-- After the slices are used up, a call refreshes them once and returns. -/
theorem sjf_run_returns_sample : ∃ m, Run (Disciplined sampleAllocator sjfAllow) sampleStart
      [.create (some 7) 0 4, .create (some 7) 0 4, .scheduleSjf, .doTimer] m ∧ SjfReturns m.kernel := by
  obtain ⟨m, run, _⟩ := exists_run sampleAllocator sjfAllow 20 sampleStart
    [.create (some 7) 0 4, .create (some 7) 0 4, .scheduleSjf, .doTimer] (fun _ => true) (by decide +kernel)
  exact ⟨m, run, (sjf_run_returns sampleStart_booted run).2 (by decide)⟩

/-- With one ready process at priority 0 the recursion never ends. -/
theorem priorityZero_diverges : ∃ m, Run (Disciplined sampleAllocator sjfAllow) sampleStart
      [.create (some 7) 0 0] m ∧ m.Enabled .scheduleSjf ∧ ¬ SjfReturns m.kernel ∧
    ∀ fuel, scheduleSjf fuel m.kernel = none := by
  obtain ⟨m, run, checked⟩ := exists_run sampleAllocator sjfAllow 20 sampleStart [.create (some 7) 0 0]
    (fun m => decide (m.Enabled .scheduleSjf ∧ m.kernel.current = some 100 ∧ Waiting m.kernel 1 103 ∧
      ∀ i, (m.kernel.task i).all fun p => (m.kernel.procs p).counter = 0 ∧ (m.kernel.procs p).priority % 5 = 0))
    (by decide +kernel)
  obtain ⟨enabled, current, waiting, spent⟩ := of_decide_eq_true checked
  have starved : Starved m.kernel := by
    refine ⟨⟨1, 103, waiting⟩, ?_⟩
    intro i p waits
    exact of_all_tasks spent waits.2.2.1
  refine ⟨m, run, enabled, ?_, starved.scheduleSjf current⟩
  rintro ⟨s', returned⟩
  rw [starved.scheduleSjf current] at returned
  cases returned

end Runs

/-- Some task other than idle is ready or running. -/
def HasWork (s : Kernel H) : Prop :=
  ∃ i p, i ≠ 0 ∧ s.task i = some p ∧ ((s.procs p).state = .ready ∨ (s.procs p).state = .running)

/-- With work at the call, the call returns and idle is not current then. -/
def WorkConserving (s : Kernel H) : Prop :=
  HasWork s → ∃ fuel s', scheduleSjf fuel s = some s' ∧ s'.current ≠ s'.task 0

/-- Some task other than idle is ready, none is running, or the caller is one whose pid has wrapped round to 0. -/
def Conserves (s : Kernel H) : Prop :=
  (∃ i p, Waiting s i p) ∨ (∀ i p, i ≠ 0 → s.task i = some p → (s.procs p).state ≠ .running) ∨
    ∃ cur, s.current = some cur ∧ (s.procs cur).pid = 0 ∧ s.task 0 ≠ some cur

section Work

/-- With nobody else ready the call ends in idle, unless the caller passes for idle. -/
theorem SjfInv.scheduleSjf_idle {fuel : Nat} (inv : SjfInv A base s) (nobody : ∀ i p, ¬ Waiting s i p)
    (current : s.current = some cur) (returned : OsKernel.Proc.scheduleSjf fuel s = some s') :
    s'.current = s'.task 0 ↔ ((s.procs cur).pid = 0 → s.task 0 = some cur) := by
  obtain ⟨idle, first, zero⟩ := inv.table.idle
  have same := (inv.scheduleSjf returned).2.task
  have called := scheduleSjf_nobody current nobody 0
  have result : s' = if (s.procs cur).pid ≠ 0 then OsKernel.Proc.switchTo s (s.task 0) else s := by
    exact unique_of_mono (fun _ _ _ => scheduleSjf_mono) returned called
  by_cases pid : (s.procs cur).pid = 0
  · have stays : s' = s := by rw [result, if_neg (not_not.mpr pid)]
    rw [stays, current, forall_prop_of_true pid]
    exact eq_comm
  · have other : cur ≠ idle := fun clash => pid (clash ▸ zero)
    have moved : s'.current = some idle := by
      rw [result, if_pos pid, first, switchTo_eq current other]
    rw [moved, same, first]
    exact iff_of_true rfl fun clash => absurd clash pid

theorem SjfInv.workConserving_iff (inv : SjfInv A base s) (entitled : Entitled s) :
    WorkConserving s ↔ Conserves s := by
  obtain ⟨cur, _, current⟩ := inv.closed.current
  by_cases waiting : ∃ i p, Waiting s i p
  · refine iff_of_true ?_ (.inl waiting)
    intro _
    obtain ⟨i, p, waits, nonzero⟩ := entitled.servable waiting
    obtain ⟨j, q, s', chosen, returned, runs⟩ := inv.scheduleSjf_runs waits nonzero
    refine ⟨2, s', returned, ?_⟩
    rw [runs, (inv.scheduleSjf returned).2.task]
    intro clash
    exact chosen.1 (inv.table.inj j 0 q chosen.2.2.1 clash.symm)
  · push Not at waiting
    have running : HasWork s ↔ ∃ i p, i ≠ 0 ∧ s.task i = some p ∧ (s.procs p).state = .running := by
      constructor
      · rintro ⟨i, p, past, entry, ready | running⟩
        · exact absurd ⟨past, inv.table.below i p entry, entry, ready⟩ (waiting i p)
        · exact ⟨i, p, past, entry, running⟩
      · rintro ⟨i, p, past, entry, running⟩
        exact ⟨i, p, past, entry, .inr running⟩
    constructor
    · intro conserving
      by_cases work : HasWork s
      · obtain ⟨fuel, s', returned, busy⟩ := conserving work
        rw [Ne, inv.scheduleSjf_idle waiting current returned, Classical.not_imp] at busy
        exact .inr (.inr ⟨cur, current, busy⟩)
      · refine .inr (.inl ?_)
        intro i p past entry runs
        exact work (running.mpr ⟨i, p, past, entry, runs⟩)
    · rintro (clash | none | ⟨caller, same, wrapped⟩) work
      · obtain ⟨i, p, waits⟩ := clash
        exact absurd waits (waiting i p)
      · obtain ⟨i, p, past, entry, runs⟩ := running.mp work
        exact absurd runs (none i p past entry)
      · obtain rfl : cur = caller := Option.some.inj (current.symm.trans same)
        have returned := scheduleSjf_nobody current waiting 0
        refine ⟨1, _, returned, ?_⟩
        rw [Ne, inv.scheduleSjf_idle waiting current returned, Classical.not_imp]
        exact wrapped

end Work

section WorkRuns

variable {heap : H} {start m : Machine H} {ops : List Op}

/-- In every run with the priorities 1 to 4, `schedule_sjf` keeps the processor busy exactly when a task other than
idle is ready, none is running, or the caller passes for idle. -/
theorem sjf_run_workConserving (booted : Booted A heap start) (run : Run (Disciplined A sjfAllow) start ops m)
    (priorities : ∀ op ∈ ops, ∀ n, op.priority = some n → 1 ≤ n ∧ n ≤ 4) :
    WorkConserving m.kernel ↔ Conserves m.kernel := by
  obtain ⟨inv, entitled⟩ := sjf_run_inv booted run
  refine inv.workConserving_iff (entitled ?_)
  intro op listed zero
  have range := priorities op listed 0 zero
  omega

/-- Two processes are ready, and one of them runs after the call. -/
theorem sjf_run_workConserving_sample : ∃ m, Run (Disciplined sampleAllocator sjfAllow) sampleStart
      [.create (some 7) 0 2, .create (some 7) 0 3, .schedule] m ∧ HasWork m.kernel ∧ WorkConserving m.kernel := by
  obtain ⟨m, run, checked⟩ := exists_run sampleAllocator sjfAllow 20 sampleStart
    [.create (some 7) 0 2, .create (some 7) 0 3, .schedule] (fun m => decide (Waiting m.kernel 2 107))
    (by decide +kernel)
  have waiting := of_decide_eq_true checked
  have range : ∀ op ∈ [Op.create (some 7) 0 2, .create (some 7) 0 3, .schedule], ∀ n, op.priority = some n →
      1 ≤ n ∧ n ≤ 4 := by
    simp [Op.priority]
  exact ⟨m, run, ⟨2, 107, waiting.1, waiting.2.2.1, .inl waiting.2.2.2⟩,
    (sjf_run_workConserving sampleStart_booted run range).mpr (.inl ⟨2, 107, waiting⟩)⟩

/-- The only process calls `schedule_sjf` and has to give way to idle. -/
theorem onlyProcess_yields_to_idle : ∃ m, Run (Disciplined sampleAllocator sjfAllow) sampleStart
      [.create (some 7) 0 2, .schedule] m ∧ m.Enabled .scheduleSjf ∧ HasWork m.kernel ∧
    ¬ WorkConserving m.kernel := by
  obtain ⟨m, run, checked⟩ := exists_run sampleAllocator sjfAllow 20 sampleStart
    [.create (some 7) 0 2, .schedule]
    (fun m => decide (m.Enabled .scheduleSjf ∧ m.kernel.task 1 = some 103 ∧ (m.kernel.procs 103).state = .running ∧
      (scheduleSjf 2 m.kernel).any fun s => s.current = s.task 0)) (by decide +kernel)
  obtain ⟨enabled, entry, running, idle⟩ := of_decide_eq_true checked
  have work : HasWork m.kernel := ⟨1, 103, by decide, entry, .inr running⟩
  refine ⟨m, run, enabled, work, ?_⟩
  intro conserving
  obtain ⟨fuel, s', returned, busy⟩ := conserving work
  obtain ⟨t, called, ends⟩ := (Option.any_eq_true _ _).mp idle
  obtain rfl := unique_of_mono (fun _ _ _ => scheduleSjf_mono) returned called
  exact busy (of_decide_eq_true ends)

end WorkRuns

end OsKernel.Proc
