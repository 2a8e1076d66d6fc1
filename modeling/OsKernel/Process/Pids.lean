import OsKernel.Process.FifoRuns

/-
This file follows the process identifiers and the task table through a FIFO run.
-/

namespace OsKernel.Proc
open OsKernel.Library

variable {H : Type} {A : Allocator H} {base : Finset Addr} {m m' : Machine H} {f : Fifo Addr} {op : Op}

/-- The first `issued` identifiers are used up, and each task has its own. -/
structure Numbered (issued : Nat) (s : Kernel H) : Prop where
  nextPid : s.nextPid = wrapPid (issued + 1)
  range : ∀ p, s.InTable p → 0 ≤ (s.procs p).pid ∧ (s.procs p).pid ≤ issued
  idle : ∀ p, s.InTable p → (s.procs p).pid = 0 → s.task 0 = some p
  distinct : ∀ p q, s.InTable p → s.InTable q → (s.procs p).pid = (s.procs q).pid → p = q

/-- A step leaves the table alone, admits one process or reaps one. -/
inductive TableEffect (s : Kernel H) (op : Op) (s' : Kernel H) : Prop
  | same (tasks : s'.task = s.task) (count : s'.taskCount = s.taskCount)
      (pids : ∀ p, s.InTable p → (s'.procs p).pid = (s.procs p).pid)
      (nextPid : s'.nextPid = s.nextPid ∨
        op.isCreate = true ∧ s'.nextPid = wrapPid (s.nextPid + 1))
  | admitted (create : op.isCreate = true) {p : Addr} (admitted : Admitted s s' p)
  | reaped (other : op.isCreate = false) {target : Addr}
      (dead : (s.procs target).state = .terminated) (reaped : Reaped s s' target)

theorem TableEffect.of_sameTasks {s s' : Kernel H} (same : SameTasks s s') : TableEffect s op s' :=
  .same same.task same.taskCount (fun p _ => same.pid p) (Or.inl same.nextPid)

theorem Machine.Waits.not_create {pid : Int} {want : Bool} (call : m.Waits op pid want) :
    op.isCreate = false := by
  rcases call with rfl | ⟨rfl, _⟩
  · rfl
  · rfl

theorem Effect.table (effect : Effect A m op m') (inv : KernelInv A base m.kernel f) :
    TableEffect m.kernel op m'.kernel := by
  cases effect with
  | createFailed failed =>
      refine .same failed.task failed.taskCount ?_ ?_
      · intro p member
        rw [failed.procs p (inv.owns.live_of_inTable member)]
      · exact failed.nextPid.imp_right fun counted => ⟨rfl, counted⟩
  | created admitted _ _ => exact .admitted rfl admitted
  | dispatched _ dispatch => exact .of_sameTasks dispatch.same
  | woken advance _ => exact .of_sameTasks advance.same
  | blocked _ _ _ advance =>
      exact .of_sameTasks ((rescheduled_onProc _ _ .blocked).sameTasks.trans advance.same)
  | suspended _ _ _ _ _ _ advance =>
      exact .of_sameTasks ((rescheduled_onProc _ _ .blocked).sameTasks.trans advance.same)
  | @exited code cur kernel current _ _ advance _ =>
      have exiting := inv.exiting code current
      refine .same (advance.same.task.trans exiting.task)
        (advance.same.taskCount.trans exiting.taskCount) ?_
        (Or.inl (advance.same.nextPid.trans exiting.nextPid))
      intro p _
      rw [advance.same.pid p]
      exact exiting.kept Process.pid (fun _ => rfl) p
  | waitFailed _ _ _ => exact .of_sameTasks (.refl _)
  | reaped _ call _ dead reaped => exact .reaped call.not_create dead reaped

/-- The new process of an admission takes the next identifier. -/
theorem Numbered.admit {issued : Nat} {s s' : Kernel H} {p : Addr} (numbered : Numbered issued s)
    (ok : TableOk s) (admitted : Admitted s s' p) (room : issued + 1 < 2 ^ 31) :
    Numbered (issued + 1) s' := by
  have unwrapped : wrapPid ((issued : Int) + 1) = issued + 1 := wrapPid_eq _ (by omega) (by omega)
  have next : s.nextPid = issued + 1 := numbered.nextPid.trans unwrapped
  have kept : ∀ q, s.InTable q → q ≠ p := fun _ => admitted.ne
  have pids : ∀ q, s.InTable q → (s'.procs q).pid = (s.procs q).pid := by
    intro q member
    have field := congrArg Process.pid (admitted.others q (kept q member))
    exact field
  have new : (s'.procs p).pid = issued + 1 := admitted.pid.trans next
  exact {
    nextPid := by
      rw [admitted.nextPid, next]
      push_cast
      rfl
    range := by
      intro q member
      rcases (admitted.inTable q).mp member with rfl | old
      · rw [new]
        push_cast
        omega
      · rw [pids q old]
        have bounds := numbered.range q old
        push_cast
        omega
    idle := by
      intro q member isZero
      rw [admitted.first ok]
      rcases (admitted.inTable q).mp member with rfl | old
      · omega
      · exact numbered.idle q old (by rw [← pids q old, isZero])
    distinct := by
      intro q r left right equal
      rcases (admitted.inTable q).mp left with rfl | oldLeft
      · rcases (admitted.inTable r).mp right with rfl | oldRight
        · rfl
        · have bounds := numbered.range r oldRight
          rw [new, pids r oldRight] at equal
          omega
      · rcases (admitted.inTable r).mp right with rfl | oldRight
        · have bounds := numbered.range q oldLeft
          rw [new, pids q oldLeft] at equal
          omega
        · rw [pids q oldLeft, pids r oldRight] at equal
          exact numbered.distinct q r oldLeft oldRight equal }

theorem Numbered.reap {issued : Nat} {s s' : Kernel H} {target : Addr}
    (numbered : Numbered issued s) (ok : TableOk s) (kept : TableOk s')
    (reaped : Reaped s s' target) : Numbered issued s' := by
  have older : ∀ q, s'.InTable q → s.InTable q := fun q member =>
    ((reaped.inTable ok q).mp member).1
  exact {
    nextPid := reaped.nextPid.trans numbered.nextPid
    range := by
      intro q member
      rw [reaped.procs]
      exact numbered.range q (older q member)
    idle := by
      intro q member isZero
      rw [reaped.procs] at isZero
      obtain ⟨idle, first, zero⟩ := kept.idle
      rw [reaped.procs] at zero
      rw [first, numbered.distinct idle q (older idle ⟨0, first⟩) (older q member) (by omega)]
    distinct := by
      intro q r left right equal
      rw [reaped.procs] at equal
      exact numbered.distinct q r (older q left) (older r right) equal }

/-- One step uses up at most one identifier, and only a creation does. -/
theorem Numbered.step {issued : Nat} (numbered : Numbered issued m.kernel) (ok : TableOk m.kernel)
    (kept : TableOk m'.kernel) (effect : TableEffect m.kernel op m'.kernel)
    (room : op.isCreate = true → issued + 1 < 2 ^ 31) :
    Numbered issued m'.kernel ∨ op.isCreate = true ∧ Numbered (issued + 1) m'.kernel := by
  cases effect with
  | same tasks _ pids nextPid =>
      have inTable := Kernel.inTable_congr tasks
      have idle : ∀ p, m'.kernel.InTable p → (m'.kernel.procs p).pid = 0 →
          m'.kernel.task 0 = some p := by
        intro p member zero
        rw [pids p ((inTable p).mp member)] at zero
        rw [tasks]
        exact numbered.idle p ((inTable p).mp member) zero
      have distinct : ∀ p q, m'.kernel.InTable p → m'.kernel.InTable q →
          (m'.kernel.procs p).pid = (m'.kernel.procs q).pid → p = q := by
        intro p q left right equal
        rw [inTable] at left right
        rw [pids p left, pids q right] at equal
        exact numbered.distinct p q left right equal
      rcases nextPid with unchanged | ⟨create, counted⟩
      · refine Or.inl ⟨unchanged.trans numbered.nextPid, ?_, idle, distinct⟩
        intro p member
        rw [pids p ((inTable p).mp member)]
        exact numbered.range p ((inTable p).mp member)
      · refine Or.inr ⟨create, ?_, ?_, idle, distinct⟩
        · have unwrapped : wrapPid ((issued : Int) + 1) = issued + 1 :=
            wrapPid_eq _ (by omega) (by have := room create; omega)
          rw [counted, numbered.nextPid, unwrapped]
          push_cast
          rfl
        · intro p member
          rw [pids p ((inTable p).mp member)]
          have bounds := numbered.range p ((inTable p).mp member)
          push_cast
          omega
  | admitted create admitted => exact Or.inr ⟨create, numbered.admit ok admitted (room create)⟩
  | reaped _ _ reaped => exact Or.inl (numbered.reap ok kept reaped)

/-- After `process_init` no identifier but that of idle is used. -/
theorem Started.numbered {heap : H} {s : Kernel H} {idle stack ctx : Addr}
    (started : Started A heap idle stack ctx s) : Numbered 0 s := by
  refine ⟨by rw [started.nextPid]; rfl, ?_, ?_, ?_⟩
  · intro p member
    rw [(started.inTable p).mp member, started.process]
    exact ⟨le_refl _, le_refl _⟩
  · intro p member _
    rw [(started.inTable p).mp member, started.task]
    simp
  · intro p q left right _
    rw [(started.inTable p).mp left, (started.inTable q).mp right]

variable {heap : H} {start : Machine H} {ops : List Op}

/-- As long as `pid_t` does not overflow, at most one identifier is used for each creation. -/
theorem fifo_run_numbered (booted : Booted A heap start)
    (run : Run (Disciplined A fifoAllow) start ops m) (few : ops.countP Op.isCreate < 2 ^ 31) :
    ∃ issued ≤ ops.countP Op.isCreate, Numbered issued m.kernel := by
  revert few
  refine run.invariant (fun ops m => ops.countP Op.isCreate < 2 ^ 31 →
    ∃ issued ≤ ops.countP Op.isCreate, Numbered issued m.kernel) ?_ ?_
  · intro _
    obtain ⟨procs, contexts, kernel, initialised, rfl⟩ := booted
    obtain ⟨idle, stack, ctx, started⟩ := processInit_started initialised
    exact ⟨0, Nat.zero_le _, started.numbered⟩
  · intro labels s op s' earlier holds taken few
    rw [List.countP_append, List.countP_singleton] at few ⊢
    obtain ⟨issued, bounded, numbered⟩ := holds (by omega)
    obtain ⟨f, inv⟩ := fifo_run_inv booted earlier
    obtain ⟨⟨f', inv'⟩, effect⟩ := inv.step taken
    have result := numbered.step inv.table inv'.table (effect.table inv) fun create => by
      rw [if_pos create] at few
      omega
    rcases result with same | ⟨create, more⟩
    · exact ⟨issued, by omega, same⟩
    · exact ⟨issued + 1, by rw [if_pos create]; omega, more⟩

section Overflow

/-- This allocator serves `process_init` and then refuses the kernel stacks of `count` creations,
whose control blocks all get the same address. -/
def refusingAllocator (count : Nat) : Allocator Tape :=
  tapeAllocator fun clock =>
    if clock < 103 then some clock
    else if clock < 103 + 2 * count then if clock % 2 = 1 then some 103 else none
    else some clock

/-- The machine after `process_init` and `n` creations that fail for want of a kernel stack. -/
def refused (n : Nat) : Machine Tape :=
  .start
    { nextPid := wrapPid (n + 1)
      current := some 100
      task := Function.update (fun _ => none) 0 (some 100)
      taskCount := 1
      readyQueue := ⟨none, none⟩
      procs := Function.update (Function.update (fun _ => Process.zero) 100 (idleProcess 101 102)) 103
        (newProcess (wrapPid n) 2)
      contexts := fun _ => Context.zero
      heap := ⟨{102, 101, 100}, 103 + 2 * n⟩
      strayFrees := [] }

theorem refused_booted (count : Nat) : Booted (refusingAllocator count) ⟨∅, 100⟩ (refused 0) := by
  refine ⟨Function.update (fun _ => Process.zero) 103 (newProcess 0 2), fun _ => Context.zero,
    (refused 0).kernel, ?_, rfl⟩
  have first : (1 : Int) = wrapPid 1 := rfl
  have blocks : Function.update (Function.update (fun _ => Process.zero) 103 (newProcess 0 2)) 100
      (idleProcess 101 102) =
      Function.update (Function.update (fun _ => Process.zero) 100 (idleProcess 101 102)) 103
        (newProcess (wrapPid 0) 2) := Function.update_comm (by decide) _ _ _
  simp only [processInit, Kernel.kmalloc, refusingAllocator, tapeAllocator, Tape.kmalloc, Kernel.boot,
    Kernel.onProc, schedulerInit]
  simpa [refused, Machine.start, idleProcess] using And.intro first blocks

theorem wrapPid_succ (value : Int) : wrapPid (wrapPid value + 1) = wrapPid (value + 1) := by
  unfold wrapPid
  omega

/-- The control block of a doomed creation is granted. -/
theorem refusingAllocator_first {count n : Nat} (early : n < count) {live : Finset Addr}
    (dead : 103 ∉ live) (size : Nat) :
    (refusingAllocator count).kmalloc ⟨live, 103 + 2 * n⟩ size =
      (some 103, ⟨insert 103 live, 103 + 2 * n + 1⟩) := by
  have past : ¬ 103 + 2 * n < 103 := by omega
  have inside : 103 + 2 * n < 103 + 2 * count := by omega
  have odd : (103 + 2 * n) % 2 = 1 := by omega
  simp only [refusingAllocator, tapeAllocator, Tape.kmalloc, if_neg past, if_pos inside, if_pos odd,
    if_neg dead]

/-- Its kernel stack is refused. -/
theorem refusingAllocator_second {count n : Nat} (early : n < count) (live : Finset Addr)
    (size : Nat) :
    (refusingAllocator count).kmalloc ⟨live, 103 + 2 * n + 1⟩ size =
      (none, ⟨live, 103 + 2 * (n + 1)⟩) := by
  have past : ¬ 103 + 2 * n + 1 < 103 := by omega
  have inside : 103 + 2 * n + 1 < 103 + 2 * count := by omega
  have even : ¬ (103 + 2 * n + 1) % 2 = 1 := by omega
  simp only [refusingAllocator, tapeAllocator, Tape.kmalloc, if_neg past, if_pos inside, if_neg even]
  rfl

/-- Each such creation uses up one identifier and changes nothing else. -/
theorem refused_step {count n : Nat} (early : n < count) :
    Disciplined (refusingAllocator count) fifoAllow (refused n) (.create (some 7) 0 2)
      (refused (n + 1)) := by
  have dead : 103 ∉ ({102, 101, 100} : Finset Addr) := by decide
  have counted : wrapPid (wrapPid ((n : Int) + 1) + 1) = wrapPid ((n + 1 : Nat) + 1) := by
    rw [wrapPid_succ]
    push_cast
    rfl
  have issued := refusingAllocator_first early dead sizeofProcess
  have missing := refusingAllocator_second early (insert 103 {102, 101, 100}) 4096
  refine ⟨rfl, ⟨rfl, rfl⟩, 0, ?_⟩
  simp only [exec, processCreate, Kernel.kmalloc, refused, Machine.start, issued, Kernel.onProc, missing]
  rw [if_neg (by decide)]
  simpa [Kernel.kfree, refusingAllocator, tapeAllocator, Tape.kfree] using counted

theorem refused_run {count n : Nat} (early : n ≤ count) :
    Run (Disciplined (refusingAllocator count) fifoAllow) (refused 0)
      (List.replicate n (.create (some 7) 0 2)) (refused n) := by
  induction n with
  | zero => exact .nil
  | succ n ih =>
      rw [List.replicate_succ']
      exact .snoc (ih (by omega)) (refused_step (by omega))

theorem refused_countP (n : Nat) :
    (List.replicate n (Op.create (some 7) 0 2)).countP Op.isCreate = n := by
  rw [List.countP_replicate]
  rfl

end Overflow

end OsKernel.Proc
