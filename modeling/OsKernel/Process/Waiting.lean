import OsKernel.Process.Transitions

/-
This file shows that no wake-up is lost: a process that is still blocked inside
`process_wait` has a target that can still wake it.
-/

namespace OsKernel.Proc
open OsKernel.Library

variable {H : Type} {A : Allocator H} {base : Finset Addr} {m m' : Machine H} {f f' : Fifo Addr}
  {op : Op}

/-- Every task that is blocked in `process_wait` waits for a task that has not terminated. -/
def NoLostWakeup (m : Machine H) : Prop :=
  ∀ p pid want, m.kernel.InTable p → m.frames p = some (.wait pid want) →
    (m.kernel.procs p).state = .blocked →
    ∃ t, m.kernel.InTable t ∧ (m.kernel.procs t).pid = pid ∧ (m.kernel.procs t).state ≠ .terminated

/-- A blocked task is not idle, so its pid is positive. -/
theorem KernelInv.pid_pos_of_blocked {s : Kernel H} (inv : KernelInv A base s f) {issued : Nat}
    (numbered : Numbered issued s) {p : Addr} (member : s.InTable p)
    (stopped : (s.procs p).state = .blocked) : 0 < (s.procs p).pid := by
  have bounds := numbered.range p member
  rcases eq_or_lt_of_le bounds.1 with zero | positive
  · rcases inv.idle_state (numbered.idle p member zero.symm) with ready | running
    · rw [stopped] at ready
      cases ready
    · rw [stopped] at running
      cases running
  · exact positive

theorem NoLostWakeup.step (holds : NoLostWakeup m) (housed : Housed m)
    (inv : KernelInv A base m.kernel f) {issued : Nat} (numbered : Numbered issued m.kernel)
    (effect : Effect A m op m') : NoLostWakeup m' := by
  intro p pid want _ waiting stopped
  have table := effect.table inv
  -- A live target of the old state stays one, unless its exit wakes `p`.
  have survives {t : Addr} (present : m.kernel.InTable t) (number : (m.kernel.procs t).pid = pid)
      (alive : (m.kernel.procs t).state ≠ .terminated)
      (kept : (m'.kernel.procs t).state ≠ .terminated) :
      ∃ t, m'.kernel.InTable t ∧ (m'.kernel.procs t).pid = pid ∧
        (m'.kernel.procs t).state ≠ .terminated :=
    ⟨t, table.stays inv.table present alive, (table.pid present).trans number, kept⟩
  rcases effect.wait_frame waiting with old | ⟨current, _, t, found, other, alive⟩
  · have member : m.kernel.InTable p := housed p (by simp [old])
    have earlier : (m.kernel.procs p).state = .blocked := by
      rcases effect.blocked_origin inv member stopped with before | ⟨_, free⟩
      · exact before
      · rw [old] at free
        cases free
    obtain ⟨t, present, number, alive⟩ := holds p pid want member old earlier
    refine survives present number alive ?_
    intro dead
    rcases effect.terminated_origin inv present dead with already | ⟨_, _, woken⟩
    · exact alive already
    · exact woken p member (inv.pid_pos_of_blocked numbered member earlier) stopped
  · obtain ⟨present, number⟩ := findTask_some found
    refine survives present number alive ?_
    intro dead
    rcases effect.terminated_origin inv present dead with already | ⟨running, _⟩
    · exact alive already
    · rw [current, Option.some.injEq] at running
      exact other running.symm

variable {heap : H} {start : Machine H} {ops : List Op}

/-- No FIFO run with fewer than `2 ^ 31` creations loses a wake-up. -/
theorem fifo_run_noLostWakeup (booted : Booted A heap start)
    (run : Run (Disciplined A fifoAllow) start ops m) (few : ops.countP Op.isCreate < 2 ^ 31) :
    NoLostWakeup m := by
  revert few
  refine run.invariant (fun ops m => ops.countP Op.isCreate < 2 ^ 31 → NoLostWakeup m) ?_ ?_
  · intro _
    obtain ⟨_, _, _, _, rfl⟩ := booted
    intro p pid want _ waiting
    cases waiting
  · intro ops s op s' earlier holds taken few
    rw [List.countP_append] at few
    obtain ⟨f, inv⟩ := fifo_run_inv booted earlier
    obtain ⟨issued, _, numbered⟩ := fifo_run_numbered booted earlier (by omega)
    exact (holds (by omega)).step (fifo_run_housed booted earlier) inv numbered (inv.step taken).2

/-- A run in which one process is blocked in `process_wait`. -/
theorem fifo_run_noLostWakeup_sample :
    ∃ m, Run (Disciplined sampleAllocator fifoAllow) sampleStart
        [.create (some 7) 0 2, .create (some 7) 0 2, .schedule, .wait 2 true] m ∧
      m.frames 103 = some (.wait 2 true) ∧ NoLostWakeup m := by
  obtain ⟨m, run, waiting⟩ := exists_run sampleAllocator fifoAllow 20 sampleStart
    [.create (some 7) 0 2, .create (some 7) 0 2, .schedule, .wait 2 true]
    (fun m => m.frames 103 == some (.wait 2 true)) (by decide +kernel)
  exact ⟨m, run, by simpa using waiting,
    fifo_run_noLostWakeup sampleStart_booted run (by decide)⟩

/-- The task `p` is blocked in a wait for `pid`, and every task with that pid has terminated. -/
def Stranded (m : Machine H) (p : Addr) (pid : Int) : Prop :=
  m.kernel.InTable p ∧ m.frames p = some (.wait pid true) ∧ (m.kernel.procs p).state = .blocked ∧
    ∀ i, (m.kernel.task i).all fun t =>
      (m.kernel.procs t).pid ≠ pid ∨ (m.kernel.procs t).state = .terminated

instance (m : Machine H) (p : Addr) (pid : Int) : Decidable (Stranded m p pid) :=
  inferInstanceAs (Decidable (_ ∧ _ ∧ _ ∧ _))

theorem Stranded.lost {p : Addr} {pid : Int} (stranded : Stranded m p pid) : ¬ NoLostWakeup m := by
  obtain ⟨member, waiting, stopped, gone⟩ := stranded
  intro holds
  obtain ⟨t, ⟨i, entry⟩, number, alive⟩ := holds p pid true member waiting stopped
  have checked := gone i
  simp [entry, number, alive] at checked

/-- Once `pid_t` has wrapped, the exit of a target skips a waiter with a negative pid. -/
theorem negativePid_lostWakeup :
    ∃ ops m, Run (Disciplined (refusingAllocator (2 ^ 31 - 1)) fifoAllow) (refused 0) ops m ∧
      Booted (refusingAllocator (2 ^ 31 - 1)) ⟨∅, 100⟩ (refused 0) ∧ ¬ NoLostWakeup m := by
  have before := refused_run (Nat.le_refl (2 ^ 31 - 1))
  obtain ⟨m, after, stranded⟩ := exists_run (refusingAllocator (2 ^ 31 - 1)) fifoAllow 20
    (refused (2 ^ 31 - 1))
    [.create (some 7) 0 2, .create (some 7) 0 2, .schedule, .wait (-2147483647) true, .exit 5]
    (fun m => decide (Stranded m 4294967397 (-2147483647))) (by decide +kernel)
  exact ⟨_, m, before.append after, refused_booted _, (of_decide_eq_true stranded).lost⟩

end OsKernel.Proc
