import OsKernel.Process.Pids

/-
This file says what one step of a FIFO run can do to a single process: to its
place in the table, its state, its exit code and its suspended call.
-/

namespace OsKernel.Proc
open OsKernel.Library

variable {H : Type} {A : Allocator H} {base : Finset Addr} {m m' : Machine H} {f : Fifo Addr}
  {op : Op} {p : Addr}

section Table

/-- A task leaves the table only after it has terminated. -/
theorem TableEffect.stays {s s' : Kernel H} (effect : TableEffect s op s') (ok : TableOk s)
    (member : s.InTable p) (alive : (s.procs p).state ≠ .terminated) : s'.InTable p := by
  cases effect with
  | same tasks _ _ _ => exact (Kernel.inTable_congr tasks p).mpr member
  | admitted _ admitted => exact (admitted.inTable p).mpr (Or.inr member)
  | reaped _ dead reaped =>
      refine (reaped.inTable ok p).mpr ⟨member, ?_⟩
      intro same
      exact alive (same ▸ dead)

/-- A task keeps its pid as long as it is in the table. -/
theorem TableEffect.pid {s s' : Kernel H} (effect : TableEffect s op s') (member : s.InTable p) :
    (s'.procs p).pid = (s.procs p).pid := by
  cases effect with
  | same _ _ pids _ => exact pids p member
  | admitted _ admitted =>
      have field := congrArg Process.pid (admitted.others p (admitted.ne member))
      exact field
  | reaped _ _ reaped => rw [reaped.procs]

end Table

section State

/-- Blocking the running process terminates nobody. -/
theorem Dispatch.blockCurrent_terminated {s s' : Kernel H} {cur : Addr}
    (dispatch : Dispatch (blockCurrent s cur) s') (running : (s.procs cur).state = .running) :
    (s'.procs p).state = .terminated ↔ (s.procs p).state = .terminated := by
  rw [dispatch.terminated]
  by_cases same : p = cur
  · simp [same, blockCurrent, running]
  · simp [same, blockCurrent]

theorem blockCurrent_of_ne {s : Kernel H} {cur : Addr} (different : p ≠ cur) :
    (blockCurrent s cur).procs p = s.procs p := by
  simp [blockCurrent, different]

theorem blockCurrent_exitCode (s : Kernel H) (cur p : Addr) :
    ((blockCurrent s cur).procs p).exitCode = (s.procs p).exitCode := by
  by_cases same : p = cur
  · simp [same, blockCurrent]
  · simp [same, blockCurrent]

/-- A terminated task stays terminated and keeps its exit code. -/
theorem Effect.terminated_stays (effect : Effect A m op m') (inv : KernelInv A base m.kernel f)
    (member : m.kernel.InTable p) (dead : (m.kernel.procs p).state = .terminated) :
    (m'.kernel.procs p).state = .terminated ∧
      (m'.kernel.procs p).exitCode = (m.kernel.procs p).exitCode := by
  cases effect with
  | createFailed failed =>
      rw [failed.procs p (inv.owns.live_of_inTable member)]
      exact ⟨dead, rfl⟩
  | @created _ _ _ _ q admitted _ states =>
      have different : p ≠ q := admitted.ne member
      have field := congrArg Process.exitCode (admitted.others p different)
      exact ⟨(states p different).trans dead, field⟩
  | dispatched _ dispatch => exact ⟨(dispatch.terminated p).mpr dead, dispatch.same.exitCode p⟩
  | woken advance _ => exact ⟨(advance.terminated p).mpr dead, advance.same.exitCode p⟩
  | blocked current _ _ dispatch =>
      exact ⟨(dispatch.blockCurrent_terminated (inv.running_of_current current)).mpr dead,
        (dispatch.same.exitCode p).trans (blockCurrent_exitCode _ _ p)⟩
  | suspended current _ _ _ _ _ dispatch =>
      exact ⟨(dispatch.blockCurrent_terminated (inv.running_of_current current)).mpr dead,
        (dispatch.same.exitCode p).trans (blockCurrent_exitCode _ _ p)⟩
  | @exited code cur _ current _ _ advance _ =>
      have running := inv.running_of_current current
      have different : p ≠ cur := by
        intro same
        rw [same, running] at dead
        cases dead
      have exiting := inv.exiting code current
      rw [advance.terminated, advance.same.exitCode, exiting.others p different]
      exact ⟨dead, rfl⟩
  | waitFailed _ _ _ => exact ⟨dead, rfl⟩
  | reaped _ _ _ _ reaped =>
      rw [Machine.finishWait_kernel, reaped.procs]
      exact ⟨dead, rfl⟩

/-- A task terminates only by its own exit, which then leaves no other task blocked. -/
theorem Effect.terminated_origin (effect : Effect A m op m') (inv : KernelInv A base m.kernel f)
    (member : m.kernel.InTable p) (dead : (m'.kernel.procs p).state = .terminated) :
    (m.kernel.procs p).state = .terminated ∨
      m.kernel.current = some p ∧ (∃ code, op = .exit code ∧
        (m'.kernel.procs p).exitCode = code ∧
        m'.log = m.log ++ [.exited (m.kernel.procs p).pid code]) ∧
      ∀ q, m.kernel.InTable q → 0 < (m.kernel.procs q).pid → (m'.kernel.procs q).state ≠ .blocked := by
  cases effect with
  | createFailed failed =>
      rw [failed.procs p (inv.owns.live_of_inTable member)] at dead
      exact Or.inl dead
  | @created _ _ _ _ q admitted _ states =>
      have different : p ≠ q := admitted.ne member
      exact Or.inl ((states p different).symm.trans dead)
  | dispatched _ dispatch => exact Or.inl ((dispatch.terminated p).mp dead)
  | woken advance _ => exact Or.inl ((advance.terminated p).mp dead)
  | blocked current _ _ dispatch =>
      exact Or.inl ((dispatch.blockCurrent_terminated (inv.running_of_current current)).mp dead)
  | suspended current _ _ _ _ _ dispatch =>
      exact Or.inl ((dispatch.blockCurrent_terminated (inv.running_of_current current)).mp dead)
  | @exited code cur _ current _ _ advance woken =>
      have exiting := inv.exiting code current
      by_cases same : p = cur
      · subst same
        refine Or.inr ⟨current, ⟨code, rfl, ?_, rfl⟩, woken⟩
        rw [advance.same.exitCode, exiting.process]
      · rw [advance.terminated, exiting.others p same] at dead
        exact Or.inl dead
  | waitFailed _ _ _ => exact Or.inl dead
  | reaped _ _ _ _ reaped =>
      rw [Machine.finishWait_kernel, reaped.procs] at dead
      exact Or.inl dead

/-- A process that is blocked after its dispatcher blocked itself was blocked before, or is that process. -/
theorem Dispatch.blockCurrent_blocked {s s' : Kernel H} {cur : Addr} (dispatch : Dispatch (blockCurrent s cur) s')
    (stopped : (s'.procs p).state = .blocked) : (s.procs p).state = .blocked ∨ p = cur := by
  by_cases same : p = cur
  · exact Or.inr same
  · have earlier := dispatch.blocked p stopped
    rw [blockCurrent_of_ne same] at earlier
    exact Or.inl earlier

/-- Only the current process, when it has no suspended call, becomes blocked. -/
theorem Effect.blocked_origin (effect : Effect A m op m') (inv : KernelInv A base m.kernel f)
    (member : m.kernel.InTable p) (stopped : (m'.kernel.procs p).state = .blocked) :
    (m.kernel.procs p).state = .blocked ∨ m.kernel.current = some p ∧ m.frames p = none := by
  cases effect with
  | createFailed failed =>
      rw [failed.procs p (inv.owns.live_of_inTable member)] at stopped
      exact Or.inl stopped
  | @created _ _ _ _ q admitted _ states =>
      have different : p ≠ q := admitted.ne member
      exact Or.inl ((states p different).symm.trans stopped)
  | dispatched _ dispatch => exact Or.inl (dispatch.blocked p stopped)
  | woken advance _ => exact Or.inl (advance.blocked p stopped)
  | blocked current free _ dispatch =>
      rcases dispatch.blockCurrent_blocked stopped with earlier | rfl
      · exact Or.inl earlier
      · exact Or.inr ⟨current, free⟩
  | suspended current free _ _ _ _ dispatch =>
      rcases dispatch.blockCurrent_blocked stopped with earlier | rfl
      · exact Or.inl earlier
      · exact Or.inr ⟨current, free⟩
  | @exited code cur _ current _ _ advance _ =>
      have exiting := inv.exiting code current
      have earlier := advance.blocked p stopped
      by_cases same : p = cur
      · rw [same, exiting.process] at earlier
        cases earlier
      · rw [exiting.others p same] at earlier
        exact Or.inl earlier
  | waitFailed _ _ _ => exact Or.inl stopped
  | reaped _ _ _ _ reaped =>
      rw [Machine.finishWait_kernel, reaped.procs] at stopped
      exact Or.inl stopped

/-- A blocked task is woken only by `scheduler_wake` or by the exit of the current process. -/
theorem Effect.woken_by (effect : Effect A m op m') (inv : KernelInv A base m.kernel f)
    (member : m.kernel.InTable p) (stopped : (m.kernel.procs p).state = .blocked) :
    (m'.kernel.procs p).state = .blocked ∨ op = .wake p ∨
      ∃ cur code, m.kernel.current = some cur ∧ op = .exit code ∧
        (m.kernel.procs cur).pid ≠ 0 ∧ (m'.kernel.procs cur).state = .terminated := by
  have passive {cur : Addr} (current : m.kernel.current = some cur) : p ≠ cur := by
    intro same
    rw [same, inv.running_of_current current] at stopped
    cases stopped
  cases effect with
  | createFailed failed =>
      rw [failed.procs p (inv.owns.live_of_inTable member)]
      exact Or.inl stopped
  | @created _ _ _ _ q admitted _ states =>
      have different : p ≠ q := admitted.ne member
      exact Or.inl ((states p different).trans stopped)
  | dispatched _ dispatch => exact Or.inl (dispatch.unwoken p stopped)
  | @woken q _ _ others =>
      by_cases same : p = q
      · exact Or.inr (Or.inl (by rw [same]))
      · exact Or.inl ((others p same).trans stopped)
  | blocked current _ _ dispatch =>
      refine Or.inl (dispatch.unwoken p ?_)
      rw [blockCurrent_of_ne (passive current)]
      exact stopped
  | suspended current _ _ _ _ _ dispatch =>
      refine Or.inl (dispatch.unwoken p ?_)
      rw [blockCurrent_of_ne (passive current)]
      exact stopped
  | @exited code cur _ current _ notIdle advance _ =>
      refine Or.inr (Or.inr ⟨cur, code, current, rfl, notIdle, ?_⟩)
      rw [advance.terminated, (inv.exiting code current).process]
  | waitFailed _ _ _ => exact Or.inl stopped
  | reaped _ _ _ _ reaped =>
      rw [Machine.finishWait_kernel, reaped.procs]
      exact Or.inl stopped

end State

section Frames

theorem setFrame_some {frames : Addr → Option Frame} {cur : Addr} {frame : Frame}
    (kept : setFrame frames (some cur) none p = some frame) : frames p = some frame ∧ p ≠ cur := by
  by_cases same : p = cur
  · simp [setFrame, same] at kept
  · simp only [setFrame, Function.update_of_ne same] at kept
    exact ⟨kept, same⟩

theorem keepFrames_some {s : Kernel H} {frames : Addr → Option Frame} {frame : Frame}
    (kept : keepFrames s frames p = some frame) : s.InTable p ∧ frames p = some frame := by
  unfold keepFrames at kept
  split at kept
  · rename_i member
    exact ⟨member, kept⟩
  · cases kept

/-- After a finished wait, the frames left belong to other tasks of the table. -/
theorem Machine.finishWait_frames {pid : Int} {want : Bool} {done : WaitReturn × Kernel H}
    {cur : Addr} {frame : Frame} (current : m.kernel.current = some cur)
    (kept : (m.finishWait pid want done).frames p = some frame) :
    done.2.InTable p ∧ m.frames p = some frame ∧ p ≠ cur := by
  obtain ⟨member, inner⟩ := keepFrames_some kept
  rw [current] at inner
  exact ⟨member, setFrame_some inner⟩

/-- A wait frame is old, or the current process has just put it up for a live target. -/
theorem Effect.wait_frame (effect : Effect A m op m') {pid : Int} {want : Bool}
    (waiting : m'.frames p = some (.wait pid want)) :
    m.frames p = some (.wait pid want) ∨
      m.kernel.current = some p ∧ (m'.kernel.procs p).state = .blocked ∧
        ∃ t, findTask m.kernel pid = some t ∧ t ≠ p ∧ (m.kernel.procs t).state ≠ .terminated := by
  cases effect with
  | createFailed _ => exact Or.inl waiting
  | created _ _ _ => exact Or.inl waiting
  | dispatched _ _ => exact Or.inl waiting
  | woken _ _ => exact Or.inl waiting
  | blocked _ _ _ _ => exact Or.inl waiting
  | @exited _ cur _ _ _ _ _ _ =>
      by_cases same : p = cur
      · simp [same] at waiting
      · simp only [Function.update_of_ne same] at waiting
        exact Or.inl waiting
  | waitFailed current _ _ => exact Or.inl (Machine.finishWait_frames current waiting).2.1
  | reaped current _ _ _ _ => exact Or.inl (Machine.finishWait_frames current waiting).2.1
  | @suspended pid' want' cur target _ current _ _ other found alive dispatch =>
      by_cases same : p = cur
      · subst same
        simp only [Function.update_self, Option.some.injEq, Frame.wait.injEq] at waiting
        obtain ⟨rfl, rfl⟩ := waiting
        refine Or.inr ⟨current, dispatch.unwoken p (by simp [blockCurrent]), target, found, ?_, alive⟩
        intro equal
        exact other (equal ▸ (findTask_some found).2)
      · simp only [Function.update_of_ne same] at waiting
        exact Or.inl waiting

/-- Only tasks of the table have suspended calls. -/
def Housed (m : Machine H) : Prop := ∀ p, m.frames p ≠ none → m.kernel.InTable p

/-- A changed frame of the current process keeps the frames in the table. -/
theorem Housed.inTable_of_update (housed : Housed m) (inv : KernelInv A base m.kernel f) {cur : Addr}
    (current : m.kernel.current = some cur) {frame : Option Frame}
    (pending : Function.update m.frames cur frame p ≠ none) : m.kernel.InTable p := by
  by_cases same : p = cur
  · exact same ▸ inv.inTable_of_current current
  · rw [Function.update_of_ne same] at pending
    exact housed p pending

theorem Housed.step (housed : Housed m) (effect : Effect A m op m')
    (inv : KernelInv A base m.kernel f) : Housed m' := by
  intro p pending
  cases effect with
  | createFailed failed => exact (Kernel.inTable_congr failed.task p).mpr (housed p pending)
  | created admitted _ _ => exact (admitted.inTable p).mpr (Or.inr (housed p pending))
  | dispatched _ dispatch => exact (dispatch.same.inTable p).mpr (housed p pending)
  | woken advance _ => exact (advance.same.inTable p).mpr (housed p pending)
  | blocked _ _ _ dispatch => exact (dispatch.same.inTable p).mpr (housed p pending)
  | @exited code _ _ current _ _ advance _ =>
      have exiting := inv.exiting code current
      exact (Kernel.inTable_congr (advance.same.task.trans exiting.task) p).mpr
        (housed.inTable_of_update inv current pending)
  | waitFailed current _ _ =>
      obtain ⟨frame, held⟩ := Option.ne_none_iff_exists'.mp pending
      exact (Machine.finishWait_frames current held).1
  | reaped current _ _ _ _ =>
      obtain ⟨frame, held⟩ := Option.ne_none_iff_exists'.mp pending
      exact (Machine.finishWait_frames current held).1
  | suspended current _ _ _ _ _ dispatch =>
      exact (dispatch.same.inTable p).mpr (housed.inTable_of_update inv current pending)

variable {heap : H} {start : Machine H} {ops : List Op}

theorem fifo_run_housed (booted : Booted A heap start)
    (run : Run (Disciplined A fifoAllow) start ops m) : Housed m := by
  refine run.invariant (fun _ m => Housed m) ?_ ?_
  · obtain ⟨_, _, _, _, rfl⟩ := booted
    intro p pending
    exact absurd rfl pending
  · intro _ _ _ _ earlier housed taken
    obtain ⟨f, inv⟩ := fifo_run_inv booted earlier
    exact housed.step (inv.step taken).2 inv

end Frames

end OsKernel.Proc
