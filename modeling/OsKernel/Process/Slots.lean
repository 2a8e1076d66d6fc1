import OsKernel.Process.FifoRuns

/-
This file proves when a creation finds room although a slot of the task table is free.
The limit check of `process_create` reads `task_count`, which only falls when the last slot is reaped.
-/

namespace OsKernel.Proc
open OsKernel.Library

variable {H : Type} {A : Allocator H} {base : Finset Addr} {f : Fifo Addr}

/-- The number of entries of the task table that are not null. -/
def usedSlots (s : Kernel H) : Nat := (Finset.univ.filter fun i => (s.task i).isSome).card

/-- The call returns the positive pid of a new ready process in a slot that was free. -/
def Creates (A : Allocator H) (s : Kernel H) (entry : Option Addr) (arg priority : Nat) : Prop :=
  0 < (processCreate A s entry arg priority).1 ∧ ∃ p,
    Admitted s (processCreate A s entry arg priority).2 p ∧
    ((processCreate A s entry arg priority).2.procs p).pid = (processCreate A s entry arg priority).1 ∧
    ((processCreate A s entry arg priority).2.procs p).state = .ready

/-- The limit is reached exactly when the last slot is used. -/
theorem TableOk.taskCount_lt_iff {s : Kernel H} (ok : TableOk s) : s.taskCount < 64 ↔ s.task 63 = none := by
  constructor
  · intro room
    cases entry : s.task 63 with
    | none => rfl
    | some p =>
        have inside : 63 < s.taskCount := ok.below 63 p entry
        omega
  · intro empty
    by_contra full
    obtain ⟨i, p, entry, last⟩ := ok.top
    have within := ok.countLe
    have same : i = 63 := Fin.ext (by
      change i.val = 63
      omega)
    rw [same, empty] at entry
    cases entry

/-- With enough memory a creation succeeds exactly when the last slot is free and the next pid is positive. -/
theorem KernelInv.creates_iff {s : Kernel H} (inv : KernelInv A base s f) (entry : Addr) (arg priority : Nat)
    (served : allocates A s.heap createSizes = true) :
    Creates A s (some entry) arg priority ↔ s.task 63 = none ∧ 0 < s.nextPid := by
  rw [← inv.table.taskCount_lt_iff]
  rcases processCreate_outcome A s (some entry) arg priority with
    ⟨refused, failed, _⟩ | ⟨granted, p, t, ready, created⟩
  · have full : 64 ≤ s.taskCount := by
      rcases refused with null | full | unserved
      · cases null
      · exact full
      · rw [served] at unserved
        cases unserved
    constructor
    · intro creates
      have positive := creates.1
      rw [failed] at positive
      omega
    · intro condition
      omega
  · obtain ⟨_, admitted⟩ := ready.admitted inv.table inv.owns
    have room : s.taskCount < 64 := ready.1
    rw [Creates, created]
    constructor
    · intro creates
      exact ⟨room, creates.1⟩
    · intro condition
      exact ⟨condition.2, p, admitted, admitted.pid, (processAdmit_state ready).1⟩

/-- In every FIFO run a creation with a free slot and enough memory succeeds exactly when
the last slot is free and the next pid is positive. -/
theorem fifo_run_creates_iff {heap : H} {start m : Machine H} {ops : List Op} (booted : Booted A heap start)
    (run : Run (Disciplined A fifoAllow) start ops m) (entry : Addr) (arg priority : Nat) :
    usedSlots m.kernel < 64 → allocates A m.kernel.heap createSizes = true →
      (Creates A m.kernel (some entry) arg priority ↔ m.kernel.task 63 = none ∧ 0 < m.kernel.nextPid) := by
  intro _ served
  obtain ⟨f, inv⟩ := fifo_run_inv booted run
  exact inv.creates_iff entry arg priority served

/-- After a reap at the end of the table the next creation takes the slot again. -/
theorem fifo_run_creates_iff_sample : ∃ m, Run (Disciplined sampleAllocator fifoAllow) sampleStart
      [.create (some 7) 0 2, .create (some 7) 0 2, .schedule, .wait 2 true, .exit 5, .schedule, .resume] m ∧
    usedSlots m.kernel = 2 ∧ Creates sampleAllocator m.kernel (some 7) 0 2 := by
  obtain ⟨m, run, checked⟩ := exists_run sampleAllocator fifoAllow 20 sampleStart
    [.create (some 7) 0 2, .create (some 7) 0 2, .schedule, .wait 2 true, .exit 5, .schedule, .resume]
    (fun m => decide (usedSlots m.kernel = 2 ∧ allocates sampleAllocator m.kernel.heap createSizes = true ∧
      m.kernel.task 63 = none ∧ 0 < m.kernel.nextPid)) (by decide +kernel)
  obtain ⟨used, served, condition⟩ := of_decide_eq_true checked
  exact ⟨m, run, used, (fifo_run_creates_iff sampleStart_booted run 7 0 2 (by omega) served).mpr condition⟩

/-- The table is filled, and then the second process exits and is reaped by the third. -/
def fillAndReap : List Op :=
  List.replicate 63 (.create (some 7) 0 2) ++ [.schedule, .schedule, .exit 0, .wait 2 true]

/-- With 63 used slots the next creation fails for the lack of a slot. -/
theorem reapedSlot_lost : ∃ m, Run (Disciplined sampleAllocator fifoAllow) sampleStart fillAndReap m ∧
    usedSlots m.kernel = 63 ∧ allocates sampleAllocator m.kernel.heap createSizes = true ∧
    ¬ Creates sampleAllocator m.kernel (some 7) 0 2 := by
  obtain ⟨m, run, checked⟩ := exists_run sampleAllocator fifoAllow 70 sampleStart fillAndReap
    (fun m => decide (usedSlots m.kernel = 63 ∧ allocates sampleAllocator m.kernel.heap createSizes = true ∧
      (processCreate sampleAllocator m.kernel (some 7) 0 2).1 = -1)) (by decide +kernel)
  obtain ⟨used, served, failed⟩ := of_decide_eq_true checked
  refine ⟨m, run, used, served, ?_⟩
  intro creates
  have positive := creates.1
  rw [failed] at positive
  omega

end OsKernel.Proc
