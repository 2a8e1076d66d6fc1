import OsKernel.Process.Delivery

/-
This file says when `process_wait` answers with the exit of its target.
The wake loop of `process_exit` does not look at what a blocked process waits
for, so the answer depends on who exits while the caller is blocked.
-/

namespace OsKernel.Proc
open OsKernel.Library

variable {H : Type} {A : Allocator H} {base : Finset Addr} {m m' : Machine H} {f f' : Fifo Addr}
  {op : Op} {w : Addr}

/-- The pid that a suspended `process_wait` of `w` waits for. -/
def Machine.target (m : Machine H) (w : Addr) : Option Int :=
  match m.frames w with
  | some (.wait pid _) => some pid
  | _ => none

/-- Nobody wakes `w` by hand, and a process other than idle that exits while `w` is blocked in
`process_wait` is the one that `w` waits for. -/
def awaitAllow (w : Addr) (m : Machine H) : Op → Bool
  | .wake p => decide (p ≠ w)
  | .exit _ => decide (m.currentPid = 0 ∨ (m.kernel.procs w).state ≠ .blocked ∨ m.target w = none ∨
      m.target w = some m.currentPid)
  | op => fifoAllow m op

theorem fifo_of_awaitAllow (allowed : awaitAllow w m op = true) : fifoAllow m op = true := by
  cases op with
  | wake p => rfl
  | exit code => rfl
  | _ => exact allowed

theorem exitPid_of_awaitAllow {code pid : Int} {want : Bool} {cur : Addr}
    (allowed : awaitAllow w m (.exit code) = true) (current : m.kernel.current = some cur)
    (notIdle : (m.kernel.procs cur).pid ≠ 0) (stopped : (m.kernel.procs w).state = .blocked)
    (waiting : m.frames w = some (.wait pid want)) : (m.kernel.procs cur).pid = pid := by
  have own : m.currentPid = (m.kernel.procs cur).pid := by simp only [Machine.currentPid, current]
  have target : m.target w = some pid := by simp only [Machine.target, waiting]
  rcases of_decide_eq_true allowed with idle | running | nobody | same
  · exact absurd (own.symm.trans idle) notIdle
  · exact absurd stopped running
  · rw [target] at nobody
    cases nobody
  · rw [target, own, Option.some.injEq] at same
    exact same.symm

/-- A waiter that is no longer blocked has a terminated target, or somebody else was served. -/
def Answerable (m : Machine H) (w : Addr) : Prop :=
  ∀ pid want, m.frames w = some (.wait pid want) → (m.kernel.procs w).state ≠ .blocked →
    (∃ t, m.kernel.Holds t pid ∧ (m.kernel.procs t).state = .terminated) ∨
      deliveries m.log pid ≠ []

/-- A terminated task stays until its exit is delivered. -/
theorem Effect.target_stays {t : Addr} {pid : Int} (effect : Effect A m op m')
    (inv : KernelInv A base m.kernel f) (held : m.kernel.Holds t pid)
    (ended : (m.kernel.procs t).state = .terminated) :
    (∃ t, m'.kernel.Holds t pid ∧ (m'.kernel.procs t).state = .terminated) ∨
      deliveries m'.log pid ≠ [] := by
  obtain ⟨member, number⟩ := held
  by_cases present : m'.kernel.InTable t
  · exact Or.inl ⟨t, ⟨present, ((effect.table inv).pid member).trans number⟩,
      (effect.terminated_stays inv member ended).1⟩
  · exact Or.inr (number ▸ effect.leaves inv member present)

theorem Answerable.step (holds : Answerable m w) (housed : Housed m)
    (inv : KernelInv A base m.kernel f) (allowed : awaitAllow w m op = true)
    (effect : Effect A m op m') : Answerable m' w := by
  intro pid want waiting awake
  rcases effect.wait_frame waiting with old | ⟨_, stopped, _⟩
  · have member : m.kernel.InTable w := housed w (by simp [old])
    by_cases blocked : (m.kernel.procs w).state = .blocked
    · rcases effect.woken_by inv member blocked with still | byHand | ⟨cur, code, current, exit, notIdle, ended⟩
      · exact absurd still awake
      · subst byHand
        exact absurd rfl (of_decide_eq_true allowed)
      · subst exit
        have number := exitPid_of_awaitAllow allowed current notIdle blocked old
        have present := inv.inTable_of_current current
        have running := inv.running_of_current current
        have table := effect.table inv
        refine Or.inl ⟨cur, ⟨table.stays inv.table present (by rw [running]; decide), ?_⟩, ended⟩
        exact (table.pid present).trans number
    · rcases holds pid want old blocked with ⟨t, held, ended⟩ | served
      · exact effect.target_stays inv held ended
      · right
        obtain ⟨events, grown⟩ := effect.log_grows
        rw [grown, deliveries_append]
        exact fun empty => served (List.append_eq_nil_iff.mp empty).1
  · exact absurd stopped awake

variable {heap : H} {start : Machine H} {ops : List Op}

theorem await_run_answerable (booted : Booted A heap start)
    (run : Run (Disciplined A (awaitAllow w)) start ops m) : Answerable m w := by
  refine run.invariant (fun _ m => Answerable m w) ?_ ?_
  · obtain ⟨_, _, _, _, rfl⟩ := booted
    intro pid want waiting
    cases waiting
  · intro _ s op s' earlier holds taken
    have plain := earlier.mono fun _ _ _ step =>
      (⟨fifo_of_awaitAllow step.1, step.2⟩ : Disciplined A fifoAllow _ _ _)
    obtain ⟨f, inv⟩ := fifo_run_inv booted plain
    exact holds.step (fifo_run_housed booted plain) inv taken.1 (inv.step ⟨fifo_of_awaitAllow taken.1, taken.2⟩).2

/-- The current process `w` finishes a call of `process_wait` that passed its checks: a second half
runs, or the call finds its target in the table. -/
def Machine.Awaits (m : Machine H) (w : Addr) (op : Op) (pid : Int) (want : Bool) : Prop :=
  op = .resume ∧ m.frames w = some (.wait pid want) ∨
    op = .wait pid want ∧ (m.kernel.procs w).pid ≠ 0 ∧ (m.kernel.procs w).pid ≠ pid ∧
      ∃ t, m.kernel.Holds t pid

/-- The call returns 0 and stores the code that its terminated target passed to `process_exit`. -/
def Answered (m : Machine H) (pid : Int) (want : Bool) (value : WaitReturn) : Prop :=
  ∃ t code, m.kernel.Holds t pid ∧ (m.kernel.procs t).state = .terminated ∧
    exits m.log pid = [code] ∧ value = ⟨0, if want then some code else none⟩

theorem Effect.answered {issued : Nat} {pid : Int} {want : Bool} {value : WaitReturn}
    (effect : Effect A m op m') (inv : KernelInv A base m.kernel f) (ledger : Ledger issued m)
    (answerable : Answerable m w) (current : m.kernel.current = some w)
    (call : m.Awaits w op pid want)
    (returned : m'.log = m.log ++ [.waited (some w) pid want value])
    (unserved : deliveries m.log pid = []) : Answered m pid want value := by
  have quiet (log : m'.log = m.log) : False := by
    rw [log] at returned
    simp at returned
  cases effect with
  | createFailed _ => exact (quiet rfl).elim
  | created _ _ _ => exact (quiet rfl).elim
  | dispatched _ _ => exact (quiet rfl).elim
  | woken _ _ => exact (quiet rfl).elim
  | blocked _ _ _ _ => exact (quiet rfl).elim
  | suspended _ _ _ _ _ _ _ => exact (quiet rfl).elim
  | exited _ _ _ _ _ => simp at returned
  | reaped _ _ found dead _ =>
      simp only [Machine.finishWait_log, List.append_cancel_left_eq, List.cons.injEq,
        Event.waited.injEq, and_true] at returned
      obtain ⟨_, rfl, rfl, rfl⟩ := returned
      have held := findTask_some found
      exact ⟨_, _, held, dead,
        ((ledger.account _).of_terminated ledger.numbered held dead).1, rfl⟩
  | waitFailed same _ refused =>
      simp only [Machine.finishWait_log, List.append_cancel_left_eq, List.cons.injEq,
        Event.waited.injEq, and_true] at returned
      obtain ⟨_, rfl, rfl, rfl⟩ := returned
      rw [current, Option.some.injEq] at same
      subst same
      -- Neither way to fail fits a call that passed its checks.
      exfalso
      rcases call with ⟨rfl, frame⟩ | ⟨rfl, notIdle, other, t, held⟩
      · rcases refused with ⟨_, alive⟩ | ⟨notResume, _⟩
        · have running := inv.running_of_current current
          rcases answerable _ _ frame (by rw [running]; decide) with ⟨t, held, ended⟩ | served
          · cases found : findTask m.kernel _ with
            | none => exact inv.table.findTask_none found t held.1 held.2
            | some target =>
                have match_ := findTask_some found
                have same := ledger.numbered.distinct target t match_.1 held.1
                  (match_.2.trans held.2.symm)
                exact alive target found (same ▸ ended)
          · exact served unserved
        · exact notResume rfl
      · rcases refused with ⟨clash, _⟩ | ⟨_, idle | own | missing⟩
        · cases clash
        · exact notIdle idle
        · exact other own
        · exact inv.table.findTask_none missing t held.1 held.2

/-- Unless somebody else was served first, every call of `process_wait` by `w` that returns is
answered, in every run with fewer than `2 ^ 31` creations in which `w` is left alone. -/
theorem await_run_answered {pid : Int} {want : Bool} {value : WaitReturn}
    (booted : Booted A heap start) (run : Run (Disciplined A (awaitAllow w)) start ops m)
    (few : ops.countP Op.isCreate < 2 ^ 31) (current : m.kernel.current = some w)
    (call : m.Awaits w op pid want) (taken : Disciplined A (awaitAllow w) m op m')
    (returned : m'.log = m.log ++ [.waited (some w) pid want value])
    (unserved : deliveries m.log pid = []) : Answered m pid want value := by
  have plain := run.mono fun _ _ _ step =>
      (⟨fifo_of_awaitAllow step.1, step.2⟩ : Disciplined A fifoAllow _ _ _)
  obtain ⟨f, inv⟩ := fifo_run_inv booted plain
  obtain ⟨issued, _, ledger⟩ := fifo_run_ledger booted plain few
  exact (inv.step ⟨fifo_of_awaitAllow taken.1, taken.2⟩).2.answered inv ledger (await_run_answerable booted run)
    current call returned unserved

/-- A waiter and its target: the second half of the wait answers with the code 5. -/
theorem await_run_answered_sample :
    ∃ m m', Run (Disciplined sampleAllocator (awaitAllow 103)) sampleStart
        [.create (some 7) 0 2, .create (some 7) 0 2, .schedule, .wait 2 true, .exit 5, .schedule] m ∧
      Disciplined sampleAllocator (awaitAllow 103) m .resume m' ∧ Answered m 2 true ⟨0, some 5⟩ := by
  obtain ⟨m, run, ready⟩ := exists_run sampleAllocator (awaitAllow 103) 20 sampleStart
    [.create (some 7) 0 2, .create (some 7) 0 2, .schedule, .wait 2 true, .exit 5, .schedule]
    (fun m => decide (m.kernel.current = some 103 ∧ m.frames 103 = some (.wait 2 true) ∧
      deliveries m.log 2 = [] ∧ (next sampleAllocator (awaitAllow 103) 0 m .resume).any fun m' =>
        m'.log = m.log ++ [.waited (some 103) 2 true ⟨0, some 5⟩])) (by decide +kernel)
  obtain ⟨current, frame, unserved, finished⟩ := of_decide_eq_true ready
  obtain ⟨m', taken, returned⟩ := (Option.any_eq_true _ _).mp finished
  exact ⟨m, m', run, next_sound _ _ _ taken, await_run_answered sampleStart_booted run (by decide)
    current (Or.inl ⟨rfl, frame⟩) (next_sound _ _ _ taken) (of_decide_eq_true returned) unserved⟩

/-- The exit of a third process wakes the waiter of process 2, whose wait then fails although its
target runs on and nobody has reaped it. -/
theorem foreignExit_breaks_wait :
    ∃ m m', Run (Disciplined sampleAllocator fifoAllow) sampleStart
        [.create (some 7) 0 2, .create (some 7) 0 2, .create (some 7) 0 2, .schedule, .wait 2 true,
          .schedule, .exit 5, .schedule, .schedule] m ∧
      Disciplined sampleAllocator fifoAllow m .resume m' ∧
      m.kernel.current = some 103 ∧ m.Awaits 103 .resume 2 true ∧ deliveries m.log 2 = [] ∧
      m'.log = m.log ++ [.waited (some 103) 2 true ⟨-1, none⟩] ∧
      ¬ Answered m 2 true ⟨-1, none⟩ ∧ (m.kernel.procs 107).pid = 2 ∧
      (m.kernel.procs 107).state = .ready := by
  obtain ⟨m, run, ready⟩ := exists_run sampleAllocator fifoAllow 20 sampleStart
    [.create (some 7) 0 2, .create (some 7) 0 2, .create (some 7) 0 2, .schedule, .wait 2 true,
      .schedule, .exit 5, .schedule, .schedule]
    (fun m => decide (m.kernel.current = some 103 ∧ m.frames 103 = some (.wait 2 true) ∧
      deliveries m.log 2 = [] ∧ (m.kernel.procs 107).pid = 2 ∧
      (m.kernel.procs 107).state = .ready ∧ (next sampleAllocator fifoAllow 0 m .resume).any fun m' =>
        m'.log = m.log ++ [.waited (some 103) 2 true ⟨-1, none⟩])) (by decide +kernel)
  obtain ⟨current, frame, unserved, number, waits, finished⟩ := of_decide_eq_true ready
  obtain ⟨m', taken, returned⟩ := (Option.any_eq_true _ _).mp finished
  refine ⟨m, m', run, next_sound _ _ _ taken, current, Or.inl ⟨rfl, frame⟩, unserved,
    of_decide_eq_true returned, ?_, number, waits⟩
  rintro ⟨t, code, _, _, _, clash⟩
  simp at clash

end OsKernel.Proc
