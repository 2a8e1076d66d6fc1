import OsKernel.Process.Pids

/-
This file follows the task table through a FIFO run.
Each successful creation adds one entry, each successful wait removes one, and
nothing else touches the table.
-/

namespace OsKernel.Proc
open OsKernel.Library

variable {H : Type} {A : Allocator H} {heap : H} {start m : Machine H} {ops : List Op}

/-- Idle stands first, the count ends at the last entry, and every entry has its own pid. -/
structure TableInvariant (s : Kernel H) : Prop where
  idle : ∃ idle, s.task 0 = some idle ∧ (s.procs idle).pid = 0
  count : 1 ≤ s.taskCount ∧ s.taskCount ≤ 64
  top : ∃ i, (s.task i).isSome ∧ i.val + 1 = s.taskCount
  below : ∀ i, (s.task i).isSome → i.val + 1 ≤ s.taskCount
  once : ∀ i j p, s.task i = some p → s.task j = some p → i = j
  distinct : ∀ i j p q, s.task i = some p → s.task j = some q →
    (s.procs p).pid = (s.procs q).pid → i = j
  pids : ∀ i p, s.task i = some p → (s.procs p).pid < s.nextPid

/-- A creation that passes its checks finds a free slot and adds one entry, and one that fails
adds none. -/
structure CreateHistory (A : Allocator H) (s : Kernel H) : Prop where
  slot : ∀ priority p t, CreateReady A s priority p t → (freeSlot t).isSome
  success : ∀ entry arg priority, (processCreate A s entry arg priority).1 ≠ -1 →
    ∃ i p, s.task i = none ∧ ¬ s.InTable p ∧
      (processCreate A s entry arg priority).2.task = Function.update s.task i (some p) ∧
      ((processCreate A s entry arg priority).2.procs p).pid = (processCreate A s entry arg priority).1
  failure : ∀ entry arg priority, (processCreate A s entry arg priority).1 = -1 →
    (processCreate A s entry arg priority).2.task = s.task ∧
      (processCreate A s entry arg priority).2.taskCount = s.taskCount

/-- A wait that returns 0 removes the entry of its target, and no other operation but a creation
changes the table. -/
structure WaitHistory (m : Machine H) (op : Op) (m' : Machine H) : Prop where
  success : ∀ pid want value, m'.log = m.log ++ [.waited m.kernel.current pid want value] →
    value.result = 0 → ∃ i p, m.kernel.task i = some p ∧ (m.kernel.procs p).pid = pid ∧
      m'.kernel.task = Function.update m.kernel.task i none
  failure : (∀ pid want value, m'.log = m.log ++ [.waited m.kernel.current pid want value] →
    value.result ≠ 0) → m'.kernel.task = m.kernel.task ∧ m'.kernel.taskCount = m.kernel.taskCount

theorem Numbered.tableInvariant {issued : Nat} {s : Kernel H} (numbered : Numbered issued s)
    (ok : TableOk s) (few : issued + 1 < 2 ^ 31) : TableInvariant s := by
  have next : s.nextPid = issued + 1 :=
    numbered.nextPid.trans (wrapPid_eq _ (by omega) (by omega))
  exact {
    idle := ok.idle
    count := ⟨ok.countPos, ok.countLe⟩
    top := by
      obtain ⟨i, p, entry, last⟩ := ok.top
      exact ⟨i, by simp [entry], last⟩
    below := by
      intro i used
      obtain ⟨p, entry⟩ := Option.isSome_iff_exists.mp used
      exact ok.below i p entry
    once := ok.inj
    distinct := by
      intro i j p q left right equal
      have same := numbered.distinct p q ⟨i, left⟩ ⟨j, right⟩ equal
      exact ok.inj i j q (same ▸ left) right
    pids := by
      intro i p entry
      have bounds := numbered.range p ⟨i, entry⟩
      omega }

theorem KernelInv.createHistory {base : Finset Addr} {s : Kernel H} {f : Fifo Addr}
    (inv : KernelInv A base s f) (positive : 0 < s.nextPid) : CreateHistory A s := by
  exact {
    slot := by
      intro priority p t ready
      obtain ⟨room, _, _, _, pending⟩ := ready
      obtain ⟨i, found, _⟩ := inv.table.freeSlot_exists room
      have same : freeSlot t = freeSlot s := by simp only [freeSlot, pending.task]
      simp [same, found]
    success := by
      intro entry arg priority done
      rcases processCreate_cases A s entry arg priority with ⟨failed, _⟩ | ⟨p, t, ready, result⟩
      · exact absurd failed done
      · obtain ⟨_, admitted⟩ := ready.admitted inv.table inv.owns
        obtain ⟨i, free, tasks⟩ := admitted.slot
        rw [result]
        exact ⟨i, p, free, admitted.absent, tasks, admitted.pid⟩
    failure := by
      intro entry arg priority failed
      rcases processCreate_cases A s entry arg priority with ⟨_, kept⟩ | ⟨p, t, _, result⟩
      · exact ⟨kept.task, kept.taskCount⟩
      · rw [result] at failed
        have negative : s.nextPid = -1 := failed
        omega }

theorem Effect.waitHistory {base : Finset Addr} {m m' : Machine H} {f : Fifo Addr} {op : Op}
    (effect : Effect A m op m') (inv : KernelInv A base m.kernel f) (other : op.isCreate = false) :
    WaitHistory m op m' := by
  have silent (log : m'.log = m.log) (tasks : m'.kernel.task = m.kernel.task)
      (count : m'.kernel.taskCount = m.kernel.taskCount) : WaitHistory m op m' := by
    refine ⟨?_, fun _ => ⟨tasks, count⟩⟩
    intro pid want value appended
    rw [log] at appended
    simp at appended
  cases effect with
  | createFailed _ => simp [Op.isCreate] at other
  | created _ _ _ => simp [Op.isCreate] at other
  | dispatched _ dispatch => exact silent rfl dispatch.same.task dispatch.same.taskCount
  | woken advance _ => exact silent rfl advance.same.task advance.same.taskCount
  | blocked _ _ _ advance => exact silent rfl advance.same.task advance.same.taskCount
  | suspended _ _ _ _ _ _ advance => exact silent rfl advance.same.task advance.same.taskCount
  | @exited code cur _ current _ _ advance _ =>
      have exiting := inv.exiting code current
      refine ⟨?_, fun _ => ⟨advance.same.task.trans exiting.task,
        advance.same.taskCount.trans exiting.taskCount⟩⟩
      intro pid want value appended
      simp at appended
  | waitFailed _ _ _ =>
      refine ⟨?_, fun _ => ⟨rfl, rfl⟩⟩
      intro pid want value appended zero
      simp only [Machine.finishWait, List.append_cancel_left_eq, List.cons.injEq, Event.waited.injEq,
        and_true] at appended
      rw [← appended.2.2.2] at zero
      simp at zero
  | reaped current call found _ reaped =>
      obtain ⟨i, entry, tasks⟩ := reaped.slot
      refine ⟨?_, ?_⟩
      · intro pid want value appended _
        simp only [Machine.finishWait, List.append_cancel_left_eq, List.cons.injEq,
          Event.waited.injEq, and_true] at appended
        rw [← appended.2.1]
        exact ⟨i, _, entry, (findTask_some found).2, tasks⟩
      · intro none
        exact absurd rfl (none _ _ _ rfl)

/-- The table is in order in every state of every FIFO run with fewer than `2 ^ 31 - 1` creations,
and every further step changes it as it should. -/
theorem fifo_run_tableInvariant (booted : Booted A heap start)
    (run : Run (Disciplined A fifoAllow) start ops m)
    (few : ops.countP Op.isCreate < 2 ^ 31 - 1) :
    TableInvariant m.kernel ∧ CreateHistory A m.kernel ∧
      ∀ op m', op.isCreate = false → Disciplined A fifoAllow m op m' → WaitHistory m op m' := by
  obtain ⟨f, inv⟩ := fifo_run_inv booted run
  obtain ⟨issued, bounded, numbered⟩ := fifo_run_numbered booted run (by omega)
  have next : m.kernel.nextPid = issued + 1 :=
    numbered.nextPid.trans (wrapPid_eq _ (by omega) (by omega))
  refine ⟨numbered.tableInvariant inv.table (by omega), inv.createHistory (by omega), ?_⟩
  intro op m' other taken
  exact (inv.step taken).2.waitHistory inv other

/-- A run with three creations, an exit and a reap. -/
theorem fifo_run_tableInvariant_sample :
    ∃ m, Run (Disciplined sampleAllocator fifoAllow) sampleStart
        [.create (some 7) 0 2, .create (some 7) 0 2, .create none 0 1, .schedule, .wait 2 true,
          .exit 5, .schedule, .resume] m ∧ TableInvariant m.kernel := by
  obtain ⟨m, run, _⟩ := exists_run sampleAllocator fifoAllow 20 sampleStart
    [.create (some 7) 0 2, .create (some 7) 0 2, .create none 0 1, .schedule, .wait 2 true, .exit 5,
      .schedule, .resume] (fun _ => true) (by decide +kernel)
  exact ⟨m, run, (fifo_run_tableInvariant sampleStart_booted run (by decide)).1⟩

/-- A counter that has wrapped is not above idle's pid. -/
theorem refused_overflow {n : Nat} (last : n + 1 = 2 ^ 31) :
    (refused n).kernel.task 0 = some 100 ∧
      ¬ ((refused n).kernel.procs 100).pid < (refused n).kernel.nextPid := by
  have process : (refused n).kernel.procs 100 = idleProcess 101 102 := by
    simp [refused, Machine.start]
  have wrapped : (refused n).kernel.nextPid = -2 ^ 31 := by
    change wrapPid ((n : Int) + 1) = _
    unfold wrapPid
    omega
  refine ⟨by simp [refused, Machine.start], ?_⟩
  rw [process, wrapped]
  decide

/-- After `2 ^ 31 - 1` creations the counter has wrapped, and idle's pid is not below it. -/
theorem nextPid_overflow :
    ∃ ops m, Run (Disciplined (refusingAllocator (2 ^ 31 - 1)) fifoAllow) (refused 0) ops m ∧
      Booted (refusingAllocator (2 ^ 31 - 1)) ⟨∅, 100⟩ (refused 0) ∧
      ops.countP Op.isCreate < 2 ^ 31 ∧
      ∃ p, m.kernel.task 0 = some p ∧ ¬ (m.kernel.procs p).pid < m.kernel.nextPid := by
  have spent (n : Nat) (last : n + 1 = 2 ^ 31) :
      ∃ ops m, Run (Disciplined (refusingAllocator n) fifoAllow) (refused 0) ops m ∧
        Booted (refusingAllocator n) ⟨∅, 100⟩ (refused 0) ∧ ops.countP Op.isCreate < 2 ^ 31 ∧
        ∃ p, m.kernel.task 0 = some p ∧ ¬ (m.kernel.procs p).pid < m.kernel.nextPid := by
    refine ⟨_, _, refused_run (Nat.le_refl n), refused_booted n, ?_, 100, refused_overflow last⟩
    rw [refused_countP]
    omega
  exact spent (2 ^ 31 - 1) (by decide)

end OsKernel.Proc
