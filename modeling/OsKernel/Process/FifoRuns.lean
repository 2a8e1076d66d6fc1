import OsKernel.Process.Invariant

/-
This file runs the machine under the FIFO scheduler.
Each step has one of a few effects, and every step keeps the kernel invariant.
-/

namespace OsKernel.Proc
open OsKernel.Library

variable {H : Type} {A : Allocator H} {base : Finset Addr} {m m' : Machine H} {f : Fifo Addr} {op : Op}

/-- A FIFO run calls neither `schedule_sjf` nor `process_set_state`, and idle never blocks. -/
def fifoAllow (m : Machine H) : Op → Bool
  | .scheduleSjf => false
  | .setState _ _ => false
  | .block => decide (m.kernel.current ≠ m.kernel.task 0)
  | _ => true

/-- The operation is a call of `process_wait` or the second half of a suspended one. -/
def Machine.Waits (m : Machine H) (op : Op) (pid : Int) (want : Bool) : Prop :=
  op = .wait pid want ∨ op = .resume ∧ m.frame = some (.wait pid want)

/-- A wait fails at once for a bad target, and late when the target has not terminated. -/
def Machine.WaitRefused (m : Machine H) (cur : Addr) (op : Op) (pid : Int) : Prop :=
  op = .resume ∧ (∀ target, findTask m.kernel pid = some target →
      (m.kernel.procs target).state ≠ .terminated) ∨
    op ≠ .resume ∧ ((m.kernel.procs cur).pid = 0 ∨ (m.kernel.procs cur).pid = pid ∨
      findTask m.kernel pid = none)

/-- One step of a FIFO run does one of these things and nothing else. -/
inductive Effect (A : Allocator H) (m : Machine H) : Op → Machine H → Prop
  | createFailed {entry : Option Addr} {arg priority : Nat} {kernel : Kernel H}
      (failed : CreateFailed A m.kernel kernel) :
      Effect A m (.create entry arg priority) { m with kernel := kernel }
  | created {entry : Option Addr} {arg priority : Nat} {kernel : Kernel H} {p : Addr}
      (admitted : Admitted m.kernel kernel p) (ready : (kernel.procs p).state = .ready)
      (states : ∀ q, q ≠ p → (kernel.procs q).state = (m.kernel.procs q).state) :
      Effect A m (.create entry arg priority) { m with kernel := kernel }
  | dispatched {op : Op} {kernel : Kernel H} (other : op.isCreate = false)
      (dispatch : Dispatch m.kernel kernel) : Effect A m op { m with kernel := kernel }
  | woken {p : Addr} {kernel : Kernel H} (advance : Advance m.kernel kernel)
      (others : ∀ q, q ≠ p → (kernel.procs q).state = (m.kernel.procs q).state) :
      Effect A m (.wake p) { m with kernel := kernel }
  | blocked {cur : Addr} {kernel : Kernel H} (current : m.kernel.current = some cur)
      (free : m.frames cur = none) (notIdle : m.kernel.task 0 ≠ some cur)
      (dispatch : Dispatch (blockCurrent m.kernel cur) kernel) :
      Effect A m .block { m with kernel := kernel }
  | exited {code : Int} {cur : Addr} {kernel : Kernel H} (current : m.kernel.current = some cur)
      (free : m.frames cur = none) (notIdle : (m.kernel.procs cur).pid ≠ 0)
      (advance : Advance (exitRelease A m.kernel cur code) kernel)
      (woken : ∀ p, m.kernel.InTable p → 0 < (m.kernel.procs p).pid →
        (kernel.procs p).state ≠ .blocked) :
      Effect A m (.exit code) ⟨kernel, Function.update m.frames cur (some .exitLoop),
        m.log ++ [.exited (m.kernel.procs cur).pid code]⟩
  | waitFailed {op : Op} {pid : Int} {want : Bool} {cur : Addr}
      (current : m.kernel.current = some cur) (call : m.Waits op pid want)
      (refused : m.WaitRefused cur op pid) :
      Effect A m op (m.finishWait pid want (⟨-1, none⟩, m.kernel))
  | reaped {op : Op} {pid : Int} {want : Bool} {cur target : Addr} {kernel : Kernel H}
      (current : m.kernel.current = some cur) (call : m.Waits op pid want)
      (found : findTask m.kernel pid = some target)
      (dead : (m.kernel.procs target).state = .terminated)
      (reaped : Reaped m.kernel kernel target) :
      Effect A m op (m.finishWait pid want
        (⟨0, if want then some (m.kernel.procs target).exitCode else none⟩, kernel))
  | suspended {pid : Int} {want : Bool} {cur target : Addr} {kernel : Kernel H}
      (current : m.kernel.current = some cur) (free : m.frames cur = none)
      (notIdle : (m.kernel.procs cur).pid ≠ 0) (other : (m.kernel.procs cur).pid ≠ pid)
      (found : findTask m.kernel pid = some target)
      (alive : (m.kernel.procs target).state ≠ .terminated)
      (dispatch : Dispatch (blockCurrent m.kernel cur) kernel) :
      Effect A m (.wait pid want) { m with
        kernel := kernel
        frames := Function.update m.frames cur (some (.wait pid want)) }

theorem Machine.Free.frames {cur : Addr} (free : m.Free) (current : m.kernel.current = some cur) :
    m.frames cur = none := by
  have pending := free.2
  rwa [Machine.frame, current] at pending

theorem KernelInv.execCreate (inv : KernelInv A base m.kernel f) (entry : Option Addr)
    (arg priority : Nat) :
    ∃ f', KernelInv A base (processCreate A m.kernel entry arg priority).2 f' ∧
      Effect A m (.create entry arg priority)
        { m with kernel := (processCreate A m.kernel entry arg priority).2 } := by
  rcases processCreate_cases A m.kernel entry arg priority with ⟨_, failed⟩ | ⟨p, t, ready, result⟩
  · obtain ⟨f', kept⟩ := inv.createFailed failed
    exact ⟨f', kept, .createFailed failed⟩
  · rw [result]
    obtain ⟨f', kept⟩ := inv.admit ready
    obtain ⟨_, admitted⟩ := ready.admitted inv.table inv.owns
    obtain ⟨newState, oldStates⟩ := processAdmit_state ready
    exact ⟨f', kept, .created admitted newState oldStates⟩

theorem KernelInv.execExit (inv : KernelInv A base m.kernel f) (free : m.Free) (code : Int) :
    ∃ fuel m' f', exec A fuel m (.exit code) = some m' ∧ KernelInv A base m'.kernel f' ∧
      Effect A m (.exit code) m' := by
  have current := inv.simulates.current
  by_cases idle : (m.kernel.procs f.current).pid = 0
  · refine ⟨0, { m with kernel := m.kernel }, f, ?_, inv, .dispatched rfl (.refl _)⟩
    simp only [exec, processExit, current, if_pos idle, Option.map_some, Machine.finishExit]
  · obtain ⟨fuel, s', f', ran, advance, kept, _, woken⟩ := inv.exit idle code
    refine ⟨fuel, _, f', ?_, kept, .exited current (free.frames current) idle advance woken⟩
    simp only [exec, ran, Option.map_some, Machine.finishExit, setFrame, current, Machine.currentPid]

theorem KernelInv.execWait (inv : KernelInv A base m.kernel f) (free : m.Free) (pid : Int)
    (want : Bool) :
    ∃ fuel m' f', exec A fuel m (.wait pid want) = some m' ∧ KernelInv A base m'.kernel f' ∧
      Effect A m (.wait pid want) m' := by
  have current := inv.simulates.current
  rcases inv.wait pid want with ⟨refused, failed⟩ | ⟨target, found, dead, collected⟩ |
    ⟨target, fuel, s', f', found, alive, notIdle, other, ran, advance, kept, _⟩
  · refine ⟨0, m.finishWait pid want (⟨-1, none⟩, m.kernel), f, ?_, inv,
      .waitFailed current (Or.inl rfl) (Or.inr ⟨by simp, refused⟩)⟩
    simp only [exec, failed, Option.map_some, Machine.startWait]
  · obtain ⟨reaped, kept⟩ := inv.reap (findTask_some found).1 dead
    refine ⟨0, _, f, ?_, kept, .reaped current (Or.inl rfl) found dead reaped⟩
    simp only [exec, collected, Option.map_some, Machine.startWait]
  · refine ⟨fuel, _, f', ?_, kept,
      .suspended current (free.frames current) notIdle other found alive advance⟩
    simp only [exec, ran, Option.map_some, Machine.startWait, setFrame, current]

theorem KernelInv.execResume (inv : KernelInv A base m.kernel f) {pid : Int} {want : Bool}
    (frame : m.frame = some (.wait pid want)) :
    ∃ f', KernelInv A base (processWaitResume A m.kernel pid want).2 f' ∧
      Effect A m .resume (m.finishWait pid want (processWaitResume A m.kernel pid want)) := by
  have current := inv.simulates.current
  rcases processWaitResume_cases (A := A) m.kernel pid want with
    ⟨failed, alive⟩ | ⟨target, found, member, _, dead, collected⟩
  · rw [failed]
    exact ⟨f, inv, .waitFailed current (Or.inr ⟨rfl, frame⟩) (Or.inl ⟨rfl, alive⟩)⟩
  · rw [collected]
    obtain ⟨reaped, kept⟩ := inv.reap member dead
    exact ⟨f, kept, .reaped current (Or.inr ⟨rfl, frame⟩) found dead reaped⟩

/-- Every allowed operation ends, keeps the invariant and has one of the effects. -/
theorem KernelInv.exec (inv : KernelInv A base m.kernel f) (allowed : fifoAllow m op = true)
    (enabled : m.Enabled op) :
    ∃ fuel m' f', exec A fuel m op = some m' ∧ KernelInv A base m'.kernel f' ∧ Effect A m op m' := by
  cases op with
  | create entry arg priority =>
      obtain ⟨f', kept, effect⟩ := inv.execCreate entry arg priority
      exact ⟨0, _, f', rfl, kept, effect⟩
  | schedule =>
      obtain ⟨fuel, s', f', ran, dispatch, kept⟩ := inv.schedule
      exact ⟨fuel, { m with kernel := s' }, f', by simp [OsKernel.Proc.exec, ran], kept,
        .dispatched rfl dispatch⟩
  | scheduleSjf => cases allowed
  | doTimer =>
      obtain ⟨fuel, s', f', ran, dispatch, kept⟩ := inv.doTimer
      exact ⟨fuel, { m with kernel := s' }, f', by simp [OsKernel.Proc.exec, ran], kept,
        .dispatched rfl dispatch⟩
  | wake p =>
      obtain ⟨advance, others, kept⟩ := inv.wake enabled.2
      exact ⟨0, _, _, rfl, kept, .woken advance others⟩
  | block =>
      have current := inv.simulates.current
      have notIdle : m.kernel.task 0 ≠ some f.current := by
        intro first
        exact of_decide_eq_true allowed (current.trans first.symm)
      obtain ⟨fuel, s', f', ran, advance, kept, _⟩ := inv.block notIdle
      refine ⟨fuel, { m with kernel := s' }, f', ?_, kept,
        .blocked current (Machine.Free.frames enabled current) notIdle advance⟩
      simp [OsKernel.Proc.exec, schedulerBlock, current, ran]
  | setState p state => cases allowed
  | exit code => exact inv.execExit enabled code
  | wait pid want => exact inv.execWait enabled pid want
  | resume =>
      have waiting : m.frame.map Frame.isWait = some true := enabled
      rcases pending : m.frame with _ | (⟨pid, want⟩ | _)
      · simp [pending] at waiting
      · obtain ⟨f', kept, effect⟩ := inv.execResume pending
        exact ⟨0, _, f', by simp [OsKernel.Proc.exec, pending], kept, effect⟩
      · simp [pending, Frame.isWait] at waiting

/-- A step of a FIFO run keeps the invariant and has one of the effects. -/
theorem KernelInv.step (inv : KernelInv A base m.kernel f)
    (taken : Disciplined A fifoAllow m op m') :
    (∃ f', KernelInv A base m'.kernel f') ∧ Effect A m op m' := by
  obtain ⟨allowed, enabled, fuel, ran⟩ := taken
  obtain ⟨_, m'', f', ran', kept, effect⟩ := inv.exec allowed enabled
  obtain rfl := exec_det ran ran'
  exact ⟨⟨f', kept⟩, effect⟩

variable {heap : H} {start : Machine H} {ops : List Op}

/-- The invariant holds in every state of every FIFO run. -/
theorem fifo_run_inv (booted : Booted A heap start)
    (run : Run (Disciplined A fifoAllow) start ops m) :
    ∃ f, KernelInv A (A.live heap) m.kernel f := by
  refine run.invariant (fun _ m => ∃ f, KernelInv A (A.live heap) m.kernel f) ?_ ?_
  · obtain ⟨procs, contexts, kernel, initialised, rfl⟩ := booted
    obtain ⟨idle, stack, ctx, started⟩ := processInit_started initialised
    exact ⟨_, started.kernelInv⟩
  · intro _ _ _ _ _ holds taken
    obtain ⟨f, inv⟩ := holds
    exact (inv.step taken).1

end OsKernel.Proc
