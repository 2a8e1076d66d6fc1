import OsKernel.Process.FifoRuns
import OsKernel.Process.SjfRuns

/-
This file counts the ticks that a dispatched process keeps the processor.
`do_timer` uses a time slice up and `schedule()` never renews it, so only the
first dispatch of a process finds its full slice.
-/

namespace OsKernel.Proc
open OsKernel.Library

variable {H : Type} {A : Allocator H} {base : Finset Addr} {s s' t : Kernel H} {f : Fifo Addr} {p : Addr}

/-- This relation leads to the state after a number of further ticks. -/
def Ticks : Nat → Kernel H → Kernel H → Prop
  | 0, s, s' => s' = s
  | n + 1, s, s' => ∃ fuel t, doTimer fuel s = some t ∧ Ticks n t s'

/-- The process is current until the last of the ticks, which takes it off the processor. -/
structure StaysFor (s : Kernel H) (p : Addr) (n : Nat) : Prop where
  returns : ∃ s', Ticks n s s'
  stays : ∀ k < n, ∀ s', Ticks k s s' → s'.current = some p
  leaves : ∀ s', Ticks n s s' → s'.current ≠ some p

section Stay

/-- A process leaves at one tick only. -/
theorem StaysFor.unique {n m : Nat} (first : StaysFor s p n) (second : StaysFor s p m) : n = m := by
  obtain ⟨s₁, early⟩ := first.returns
  obtain ⟨s₂, late⟩ := second.returns
  rcases Nat.lt_trichotomy n m with less | same | more
  · exact absurd (second.stays n less s₁ early) (first.leaves s₁ early)
  · exact same
  · exact absurd (first.stays m more s₂ late) (second.leaves s₂ late)

theorem StaysFor.iff_eq {n m : Nat} (length : StaysFor s p n) : StaysFor s p m ↔ m = n := by
  constructor
  · intro stays
    exact stays.unique length
  · rintro rfl
    exact length

theorem doTimer_det {first second : Nat} (left : doTimer first s = some s') (right : doTimer second s = some t) :
    s' = t := unique_of_mono (fun _ _ _ => doTimer_mono) left right

/-- A tick after which the process still runs is one more. -/
theorem StaysFor.succ {fuel n : Nat} (current : s.current = some p) (ticked : doTimer fuel s = some t)
    (stays : StaysFor t p n) : StaysFor s p (n + 1) := by
  obtain ⟨s', later⟩ := stays.returns
  refine ⟨⟨s', fuel, t, ticked, later⟩, ?_, ?_⟩
  · intro k less s' reached
    cases k with
    | zero =>
        obtain rfl : s' = s := reached
        exact current
    | succ k =>
        obtain ⟨_, t', again, rest⟩ := reached
        obtain rfl := doTimer_det ticked again
        exact stays.stays k (by omega) s' rest
  · rintro s' ⟨_, t', again, rest⟩
    obtain rfl := doTimer_det ticked again
    exact stays.leaves s' rest

/-- The tick lowers the counter of the current process, and of nobody else. -/
theorem tick_counter (s : Kernel H) (p : Addr) : ((tick s p).procs p).counter = (s.procs p).counter - 1 := by
  rw [tick, Kernel.onProc_self]
  dsimp only
  split <;> omega

/-- With an empty slice the next tick hands the processor to the head of the queue. -/
theorem KernelInv.lastTick (inv : KernelInv A base s f) (current : s.current = some p)
    (notIdle : s.task 0 ≠ some p) (spent : (s.procs p).counter ≤ 1) : StaysFor s p 1 := by
  obtain rfl := inv.simulates.eq_current current
  obtain ⟨_, ticked⟩ := inv.ticked
  have empty : ((OsKernel.Proc.tick s f.current).procs f.current).counter = 0 := by
    rw [tick_counter]
    omega
  obtain ⟨q, rest, queue⟩ := List.exists_cons_of_ne_nil (inv.queue_ne_nil notIdle)
  have other : f.current ≠ q := by
    intro same
    exact inv.coherent.current_not_mem inv.active (by rw [queue, same]; simp)
  have ticks : ∀ fuel, OsKernel.Proc.doTimer fuel s = OsKernel.Proc.schedule fuel (tick s f.current) := by
    intro fuel
    rw [OsKernel.Proc.doTimer, current]
    exact if_pos empty
  have moves : ∀ fuel t, OsKernel.Proc.doTimer fuel s = some t → t.current = some q := by
    intro fuel t ran
    rw [ticks] at ran
    rw [(ticked.simulates.of_schedule ticked.coherent.sound ran).current, Fifo.schedule_cons queue other]
    split <;> rfl
  obtain ⟨fuel, t, _, ran, _⟩ := ticked.schedule
  refine ⟨⟨t, fuel, t, (ticks fuel).trans ran, rfl⟩, ?_, ?_⟩
  · intro k less s' reached
    obtain rfl : k = 0 := by omega
    obtain rfl : s' = s := reached
    exact current
  · rintro s' ⟨fuel, t, again, rfl⟩
    rw [moves fuel s' again]
    simpa using Ne.symm other

/-- A dispatched process keeps the processor for its counter, and for one tick when the counter is zero. -/
theorem KernelInv.staysFor (inv : KernelInv A base s f) (current : s.current = some p)
    (notIdle : s.task 0 ≠ some p) : StaysFor s p (max (s.procs p).counter 1) := by
  generalize left : (s.procs p).counter = counter
  induction counter generalizing s with
  | zero => exact inv.lastTick current notIdle (by omega)
  | succ counter ih =>
      obtain rfl := inv.simulates.eq_current current
      by_cases last : counter = 0
      · subst last
        exact inv.lastTick current notIdle (by omega)
      · obtain ⟨_, ticked⟩ := inv.ticked
        have lower : ((OsKernel.Proc.tick s f.current).procs f.current).counter = counter := by
          rw [tick_counter, left]
          rfl
        have ran : OsKernel.Proc.doTimer 0 s = some (tick s f.current) := by
          rw [OsKernel.Proc.doTimer, current]
          exact if_neg (by rw [lower]; exact last)
        have further := ih ticked ticked.simulates.current notIdle lower
        rw [max_eq_left (by omega)] at further ⊢
        exact further.succ current ran

end Stay

/-- Every task past slot 0 has a priority from 1 to 4 and, unless it runs, a full or an empty slice. -/
def Sliced (s : Kernel H) : Prop :=
  ∀ i p, i ≠ 0 → s.task i = some p → (1 ≤ (s.procs p).priority ∧ (s.procs p).priority ≤ 4) ∧
    (s.current ≠ some p → (s.procs p).counter = 0 ∨
      (s.procs p).counter = counterInitValues.getD (s.procs p).priority 0)

section Step

/-- A tick changes the counter of the current process only, which is empty when the process has left. -/
theorem doTimer_counter {fuel : Nat} (ran : doTimer fuel s = some s') : SameTasks s s' ∧
    (∀ q, s.current ≠ some q → (s'.procs q).counter = (s.procs q).counter) ∧
    ∀ q, s.current = some q → s'.current ≠ some q → (s'.procs q).counter = 0 := by
  unfold doTimer at ran
  cases current : s.current with
  | none =>
      rw [current] at ran
      obtain rfl := Option.some.inj ran
      exact ⟨.refl s, fun _ _ => rfl, fun _ clash => by cases clash⟩
  | some cur =>
      rw [current] at ran
      dsimp only at ran
      have ticked := (tick_repaced s cur).same
      have kept : ∀ q, some cur ≠ some q → ((tick s cur).procs q).counter = (s.procs q).counter := by
        intro q other
        rw [tick, Kernel.onProc_of_ne _ _ _ _ fun same => other (congrArg some same.symm)]
      split at ran
      · rename_i empty
        have scheduled := schedule_rescheduled ran
        refine ⟨ticked.trans scheduled.sameTasks, ?_, ?_⟩
        · intro q other
          rw [scheduled.counter, kept q other]
        · rintro q ⟨⟩ _
          rw [scheduled.counter, empty]
      · obtain rfl := Option.some.inj ran
        refine ⟨ticked, kept, ?_⟩
        rintro q ⟨⟩ left
        exact absurd current left

theorem Sliced.doTimer {fuel : Nat} (sliced : Sliced s) (ran : doTimer fuel s = some s') : Sliced s' := by
  obtain ⟨same, kept, empty⟩ := doTimer_counter ran
  intro i q past entry
  rw [same.task] at entry
  obtain ⟨range, slice⟩ := sliced i q past entry
  rw [same.priority]
  refine ⟨range, ?_⟩
  intro off
  by_cases running : s.current = some q
  · exact .inl (empty q running off)
  · rw [kept q running]
    exact slice running

theorem Sliced.createFailed (sliced : Sliced s) (owns : Owns A base s) (failed : CreateFailed A s s') : Sliced s' := by
  intro i q past entry
  rw [failed.task] at entry
  rw [failed.current, failed.procs q (owns.live_of_inTable ⟨i, entry⟩)]
  exact sliced i q past entry

/-- A new process starts with a full slice. -/
theorem Sliced.admit {priority : Nat} (sliced : Sliced s) (table : TableOk s) (owns : Owns A base s)
    (ready : CreateReady A s priority p t) (range : 1 ≤ priority ∧ priority ≤ 4) : Sliced (processAdmit t p) := by
  obtain ⟨_, admitted⟩ := ready.admitted table owns
  obtain ⟨_, stack, ctx, regs, pending⟩ := ready
  intro i q past entry
  rw [processAdmit_priority, processAdmit_counter, admitted.current]
  by_cases new : q = p
  · have clamped : (builtProcess s.nextPid priority stack ctx regs).priority = priority := if_pos (by omega)
    have full : (builtProcess s.nextPid priority stack ctx regs).counter = counterInitValues.getD priority 0 :=
      congrArg (fun n => counterInitValues.getD n 0) clamped
    rw [new, pending.process, clamped, full]
    exact ⟨range, fun _ => .inr rfl⟩
  · rw [pending.others q new]
    exact sliced i q past (admitted.entry new entry)

end Step

/-- The priorities 1 to 4 have a time slice, and only priority 4 has one of a single tick. -/
theorem slice_range {n : Nat} (lower : 1 ≤ n) (upper : n ≤ 4) :
    0 < counterInitValues.getD n 0 ∧ (counterInitValues.getD n 0 = 1 ↔ n = 4) := by
  interval_cases n <;> decide

section Runs

variable {heap : H} {start m m' : Machine H} {ops : List Op} {op : Op}

/-- Creations with the priorities 1 to 4 and ticks, in any order. -/
def sliceAllow (_ : Machine H) : Op → Bool
  | .create _ _ priority => decide (1 ≤ priority ∧ priority ≤ 4)
  | .doTimer => true
  | _ => false

theorem fifoAllow_of_sliceAllow (allowed : sliceAllow m op = true) : fifoAllow m op = true := by
  cases op with
  | create => rfl
  | doTimer => rfl
  | _ => cases allowed

theorem Sliced.step (sliced : Sliced m.kernel) (inv : KernelInv A base m.kernel f)
    (taken : Disciplined A sliceAllow m op m') : Sliced m'.kernel := by
  obtain ⟨allowed, _, fuel, ran⟩ := taken
  cases op with
  | create entry arg priority =>
      obtain rfl := Option.some.inj ran
      rcases processCreate_cases A m.kernel entry arg priority with ⟨_, failed⟩ | ⟨p, t, ready, result⟩
      · exact sliced.createFailed inv.owns failed
      · rw [result]
        exact sliced.admit inv.table inv.owns ready (of_decide_eq_true allowed)
  | doTimer =>
      simp only [exec, Option.map_eq_some_iff] at ran
      obtain ⟨kernel, ticked, rfl⟩ := ran
      exact sliced.doTimer ticked
  | _ => cases allowed

theorem slice_run_inv (booted : Booted A heap start) (run : Run (Disciplined A sliceAllow) start ops m) :
    (∃ f, KernelInv A (A.live heap) m.kernel f) ∧ Sliced m.kernel := by
  refine run.invariant (fun _ m => (∃ f, KernelInv A (A.live heap) m.kernel f) ∧ Sliced m.kernel) ?_ ?_
  · refine ⟨fifo_run_inv booted .nil, ?_⟩
    obtain ⟨procs, contexts, kernel, initialised, rfl⟩ := booted
    obtain ⟨idle, stack, ctx, started⟩ := processInit_started initialised
    intro i p past entry
    change kernel.task i = some p at entry
    rw [started.task, Function.update_of_ne past] at entry
    cases entry
  · rintro _ m op m' _ ⟨⟨f, inv⟩, sliced⟩ taken
    exact ⟨(inv.step ⟨fifoAllow_of_sliceAllow taken.1, taken.2⟩).1, sliced.step inv taken⟩

/-- The tick hands the processor to a process other than idle. -/
structure Handover (s s' : Kernel H) (p : Addr) : Prop where
  ticked : ∃ fuel, doTimer fuel s = some s'
  dispatched : s'.current = some p
  before : s.current ≠ some p
  notIdle : s.task 0 ≠ some p

/-- In every run of creations with the priorities 1 to 4 and of ticks, a dispatched process keeps the processor for
the time slice of its priority exactly when it has not used its slice up before, or the slice is a single tick. -/
theorem slice_run_staysFor (booted : Booted A heap start) (run : Run (Disciplined A sliceAllow) start ops m)
    (handover : Handover m.kernel s' p) :
    StaysFor s' p (counterInitValues.getD (s'.procs p).priority 0) ↔
      (m.kernel.procs p).counter ≠ 0 ∨ (m.kernel.procs p).priority = 4 := by
  obtain ⟨⟨f, inv⟩, sliced⟩ := slice_run_inv booted run
  obtain ⟨⟨fuel, ticked⟩, dispatched, before, notIdle⟩ := handover
  have taken : Disciplined A fifoAllow m .doTimer { m with kernel := s' } :=
    ⟨rfl, trivial, fuel, by simp [exec, ticked]⟩
  obtain ⟨⟨f', kept⟩, _⟩ := inv.step taken
  obtain ⟨same, counter, _⟩ := doTimer_counter ticked
  obtain ⟨i, entry⟩ := kept.inTable_of_current dispatched
  have past : i ≠ 0 := by
    rintro rfl
    exact notIdle (same.task ▸ entry)
  obtain ⟨range, slice⟩ := sliced i p past (same.task ▸ entry)
  have length := kept.staysFor dispatched (by rw [same.task]; exact notIdle)
  rw [counter p before] at length
  obtain ⟨positive, one⟩ := slice_range range.1 range.2
  rw [same.priority, length.iff_eq, ← one]
  have full := slice before
  omega

/-- The first dispatch of a process with priority 2 lasts for its three ticks. -/
theorem slice_run_staysFor_sample : ∃ m s', Run (Disciplined sampleAllocator sliceAllow) sampleStart
      [.create (some 7) 0 2] m ∧ Handover m.kernel s' 103 ∧ StaysFor s' 103 3 := by
  obtain ⟨m, run, checked⟩ := exists_run sampleAllocator sliceAllow 20 sampleStart [.create (some 7) 0 2]
    (fun m => decide (m.kernel.current ≠ some 103 ∧ m.kernel.task 0 ≠ some 103 ∧ (m.kernel.procs 103).counter ≠ 0 ∧
      (doTimer 20 m.kernel).any fun s => s.current = some 103 ∧ (s.procs 103).priority = 2)) (by decide +kernel)
  obtain ⟨before, notIdle, full, next⟩ := of_decide_eq_true checked
  obtain ⟨s', ticked, found⟩ := (Option.any_eq_true _ _).mp next
  obtain ⟨dispatched, priority⟩ := of_decide_eq_true found
  have handover : Handover m.kernel s' 103 := ⟨⟨20, ticked⟩, dispatched, before, notIdle⟩
  have stays := (slice_run_staysFor sampleStart_booted run handover).mpr (.inl full)
  rw [priority] at stays
  exact ⟨m, s', run, handover, stays⟩

/-- The second dispatch of the same process lasts for one tick instead of three. -/
theorem secondDispatch_cut_short : ∃ m s', Run (Disciplined sampleAllocator sliceAllow) sampleStart
      [.create (some 7) 0 2, .doTimer, .doTimer, .doTimer, .doTimer] m ∧ Handover m.kernel s' 103 ∧
    (s'.procs 103).priority = 2 ∧ ¬ StaysFor s' 103 (counterInitValues.getD (s'.procs 103).priority 0) := by
  obtain ⟨m, run, checked⟩ := exists_run sampleAllocator sliceAllow 20 sampleStart
    [.create (some 7) 0 2, .doTimer, .doTimer, .doTimer, .doTimer]
    (fun m => decide (m.kernel.current ≠ some 103 ∧ m.kernel.task 0 ≠ some 103 ∧
      (doTimer 20 m.kernel).any fun s => s.current = some 103 ∧ (s.procs 103).priority = 2 ∧
        (doTimer 20 s).any fun later => later.current ≠ some 103)) (by decide +kernel)
  obtain ⟨before, notIdle, next⟩ := of_decide_eq_true checked
  obtain ⟨s', ticked, found⟩ := (Option.any_eq_true _ _).mp next
  obtain ⟨dispatched, priority, last⟩ := of_decide_eq_true found
  obtain ⟨later, again, left⟩ := (Option.any_eq_true _ _).mp last
  refine ⟨m, s', run, ⟨⟨20, ticked⟩, dispatched, before, notIdle⟩, priority, ?_⟩
  rw [priority]
  intro stays
  exact of_decide_eq_true left (stays.stays 1 (by decide) later ⟨20, later, again, rfl⟩)

end Runs

end OsKernel.Proc
