import OsKernel.Library.Simulations
import OsKernel.Process.Monitor
import OsKernel.Process.Transitions

/-
This file shows that the process subsystem and the monitor answer every call alike.
The processes of the table stand for the slots that hold them.
-/

namespace OsKernel.Proc
open OsKernel.Library

variable {H : Type} {A : Allocator H} {base : Finset Addr} {s s' : Kernel H} {f f' : Fifo Addr} {m m' : Machine H}
  {a a' : Monitor} {op : Op} {p : Addr} {i : Fin 64}

/-- The slot holds the process. -/
def At (s : Kernel H) (p : Addr) (i : Fin 64) : Prop := s.task i = some p

theorem TableOk.biUnique (ok : TableOk s) : Relator.BiUnique (At s) :=
  ⟨fun _ _ _ left right => Option.some.inj (Eq.trans (Eq.symm left) right), fun p i j left right => ok.inj i j p left right⟩

/-- What callers can learn of a process. -/
def entryOf (m : Machine H) (p : Addr) : Entry :=
  ⟨(m.kernel.procs p).pid, (m.kernel.procs p).exitCode, (m.kernel.procs p).clock, m.frames p⟩

/-- The monitor shows the tasks, the scheduler and the next pid of the machine. -/
structure Views (m : Machine H) (f : Fifo Addr) (a : Monitor) : Prop where
  simulates : Simulates m.kernel f
  entry : ∀ i, a.entry i = (m.kernel.task i).map (entryOf m)
  sched : f.Mirrors (At m.kernel) a.sched
  nextPid : a.nextPid = m.kernel.nextPid

section Reading

variable (views : Views m f a)

include views

theorem Views.entry_some (held : At m.kernel p i) : a.entry i = some (entryOf m p) := by
  rw [views.entry, held, Option.map_some]

theorem Views.entry_current : a.entry a.sched.current = some (entryOf m f.current) :=
  views.entry_some views.sched.current

/-- Both know the same suspended call of the current process. -/
theorem Views.frame : a.frame = m.frame := by
  rw [Monitor.frame, views.entry_current, Machine.frame, views.simulates.current]
  rfl

theorem Views.current_any (check : Entry → Bool) :
    (a.entry a.sched.current).any check = check (entryOf m f.current) := by
  rw [views.entry_current, Option.any_some]

end Reading

section Lookup

/-- The lookup is a search of all slots. -/
theorem TableOk.findTask_eq (ok : TableOk s) (pid : Int) : findTask s pid =
    ((List.finRange 64).find? fun i => (s.task i).any fun p => (s.procs p).pid = pid).bind s.task := by
  unfold findTask taskRange
  induction List.finRange 64 with
  | nil => rfl
  | cons i rest ih =>
      cases entry : s.task i with
      | none =>
          rw [List.find?_cons_of_neg (by simp [entry]), ← ih]
          by_cases inside : i.val < s.taskCount
          · rw [List.filter_cons_of_pos (by simpa using inside), List.findSome?_cons, entry]
          · rw [List.filter_cons_of_neg (by simpa using inside)]
      | some p =>
          have inside := ok.below i p entry
          rw [List.filter_cons_of_pos (by simpa using inside), List.findSome?_cons, entry]
          by_cases matching : (s.procs p).pid = pid
          · rw [List.find?_cons_of_pos (by simp [entry, matching]), Option.bind_some, entry]
            simp [matching]
          · rw [List.find?_cons_of_neg (by simp [entry, matching]), ← ih]
            simp [matching]

theorem Views.lookup (views : Views m f a) (ok : TableOk m.kernel) (pid : Int) :
    findTask m.kernel pid = (a.lookup pid).bind m.kernel.task := by
  rw [ok.findTask_eq, Monitor.lookup]
  simp only [views.entry, Option.any_map]
  rfl

theorem Views.lookup_none (views : Views m f a) (ok : TableOk m.kernel) {pid : Int} (missing : a.lookup pid = none) :
    findTask m.kernel pid = none := by
  rw [views.lookup ok, missing, Option.bind_none]

/-- The slot of a pid holds the process that the kernel finds. -/
theorem Views.lookup_some (views : Views m f a) (ok : TableOk m.kernel) {pid : Int} (found : a.lookup pid = some i) :
    ∃ p, findTask m.kernel pid = some p ∧ At m.kernel p i := by
  have used := List.find?_some found
  rw [views.entry, Option.any_map, Option.any_eq_true] at used
  obtain ⟨p, held, _⟩ := used
  refine ⟨p, ?_, held⟩
  rw [views.lookup ok, found, Option.bind_some, held]

end Lookup

section Changes

/-- A change of the scheduler alone. -/
theorem Views.reschedule (views : Views m f a) (same : Rescheduled m.kernel s') (simulates : Simulates s' f')
    {sched : Fifo (Fin 64)} (mirrors : f'.Mirrors (At m.kernel) sched) :
    Views { m with kernel := s' } f' { a with sched := sched } where
  simulates := simulates
  entry i := by
    rw [views.entry, same.sameTasks.task]
    congr 1
    funext p
    simp only [entryOf, same.sameTasks.pid p, same.sameTasks.exitCode p, same.undisturbed.clock p]
  sched := by
    have tasks : At s' = At m.kernel := by
      funext p i
      rw [At, At, same.sameTasks.task]
    rw [tasks]
    exact mirrors
  nextPid := views.nextPid.trans same.sameTasks.nextPid.symm

/-- A change of what callers can learn of the current process. -/
theorem Views.onCurrent (views : Views m f a) (ok : TableOk m.kernel) (write : Entry → Entry)
    (tasks : m'.kernel.task = m.kernel.task) (nextPid : m'.kernel.nextPid = m.kernel.nextPid)
    (others : ∀ p, p ≠ f.current → entryOf m' p = entryOf m p)
    (own : entryOf m' f.current = write (entryOf m f.current)) (simulates : Simulates m'.kernel f')
    {sched : Fifo (Fin 64)} (mirrors : f'.Mirrors (At m.kernel) sched) :
    Views m' f' { a.onCurrent write with sched := sched } where
  simulates := simulates
  entry i := by
    have current := views.sched.current
    rw [tasks]
    change Function.update a.entry a.sched.current ((a.entry a.sched.current).map write) i = _
    by_cases same : i = a.sched.current
    · rw [same, Function.update_self, views.entry_current, current, Option.map_some, Option.map_some, own]
    · rw [Function.update_of_ne same, views.entry]
      cases entry : m.kernel.task i with
      | none => rfl
      | some p =>
          have different : p ≠ f.current := by
            rintro rfl
            exact same (ok.inj _ _ _ entry current)
          rw [Option.map_some, Option.map_some, others p different]
  sched := by
    have same : At m'.kernel = At m.kernel := by
      funext p i
      rw [At, At, tasks]
    rw [same]
    exact mirrors
  nextPid := views.nextPid.trans nextPid.symm

end Changes

section Scheduling

theorem Views.yield (views : Views m f a) (inv : KernelInv A base m.kernel f) {fuel : Nat}
    (ran : schedule fuel m.kernel = some s') : Views { m with kernel := s' } f.schedule a.yield :=
  views.reschedule (schedule_rescheduled ran) (views.simulates.of_schedule inv.coherent.sound ran)
    (views.sched.schedule inv.table.biUnique)

theorem Views.wake (views : Views m f a) (inv : KernelInv A base m.kernel f) (held : At m.kernel p i) :
    Views { m with kernel := schedulerWake m.kernel (some p) } (f.wake p) (a.wake i) :=
  views.reschedule (schedulerWake_rescheduled m.kernel p) (views.simulates.wake inv.coherent.sound p)
    (views.sched.wake inv.table.biUnique held)

theorem Views.block (views : Views m f a) (inv : KernelInv A base m.kernel f) {fuel : Nat}
    (ran : schedule fuel (blockCurrent m.kernel f.current) = some s') :
    Views { m with kernel := s' } (f.setStatus f.current .blocked).schedule a.block := by
  have unqueued : f.status f.current ≠ .ready := by rw [inv.status_current]; decide
  have linked := inv.toLinked.block unqueued
  have blocked := views.sched.setStatus inv.table.biUnique views.sched.current .blocked
  exact views.reschedule ((rescheduled_onProc m.kernel f.current .blocked).trans (schedule_rescheduled ran))
    (linked.simulates.of_schedule linked.coherent.sound ran) (blocked.schedule inv.table.biUnique)

/-- A tick charges the current process, and the monitor sees when its slice is used up. -/
theorem Views.tick (views : Views m f a) (inv : KernelInv A base m.kernel f) {fuel : Nat}
    (ran : doTimer fuel m.kernel = some s') : ∃ f', Views { m with kernel := s' } f' a.tick := by
  have kept := inv.ticked.2
  have ticked : Views { m with kernel := OsKernel.Proc.tick m.kernel f.current } f
      (a.onCurrent fun e => { e with clock := e.clock.charge }) := by
    have others : ∀ p, p ≠ f.current →
        entryOf { m with kernel := OsKernel.Proc.tick m.kernel f.current } p = entryOf m p := by
      intro p different
      simp only [entryOf, OsKernel.Proc.tick, Kernel.onProc_of_ne _ _ _ _ different]
    have clock := tick_clock m.kernel f.current f.current
    rw [if_pos rfl] at clock
    apply views.onCurrent inv.table _ (by rfl) (by rfl) others ?_ kept.simulates views.sched
    simp only [entryOf, clock, inv.ticked.1.same.pid, inv.ticked.1.same.exitCode]
  have spent := ticked.current_any fun e => e.clock.left = 0
  change _ = decide (((OsKernel.Proc.tick m.kernel f.current).procs f.current).counter = 0) at spent
  unfold doTimer at ran
  rw [views.simulates.current] at ran
  dsimp only at ran
  rw [Monitor.tick, spent]
  split at ran
  next empty =>
      rw [if_pos (decide_eq_true empty)]
      exact ⟨_, ticked.yield kept ran⟩
  next left =>
      obtain rfl := Option.some.inj ran
      rw [if_neg fun spent => left (of_decide_eq_true spent)]
      exact ⟨f, ticked⟩

end Scheduling

section Exit

/-- The exit visits the same tasks as the monitor, in the same order. -/
theorem Views.wakeable (views : Views m f a) (ok : TableOk m.kernel) :
    List.Forall₂ (At m.kernel) ((taskRange m.kernel).filterMap (wakeable m.kernel)) a.wakeable := by
  unfold taskRange Monitor.wakeable
  induction List.finRange 64 with
  | nil => exact .nil
  | cons i rest ih =>
      cases entry : m.kernel.task i with
      | none =>
          have nobody : OsKernel.Proc.wakeable m.kernel i = none := by simp [OsKernel.Proc.wakeable, entry]
          rw [List.filter_cons_of_neg (p := fun i => (a.entry i).any _) (by simp [views.entry, entry])]
          by_cases inside : i.val < m.kernel.taskCount
          · rw [List.filter_cons_of_pos (by simpa using inside), List.filterMap_cons_none nobody]
            exact ih
          · rw [List.filter_cons_of_neg (by simpa using inside)]
            exact ih
      | some p =>
          have inside := ok.below i p entry
          rw [List.filter_cons_of_pos (by simpa using inside)]
          by_cases positive : 0 < (m.kernel.procs p).pid
          · have woken : OsKernel.Proc.wakeable m.kernel i = some p := by
              simp [OsKernel.Proc.wakeable, entry, positive]
            rw [List.filterMap_cons_some woken,
              List.filter_cons_of_pos (by simpa [views.entry, entry, entryOf] using positive)]
            exact .cons entry ih
          · have spared : OsKernel.Proc.wakeable m.kernel i = none := by
              rw [OsKernel.Proc.wakeable, entry, Option.filter_some, if_neg (by simpa using positive)]
            rw [List.filterMap_cons_none spared,
              List.filter_cons_of_neg (by simpa [views.entry, entry, entryOf] using positive)]
            exact ih

/-- A task that exits leaves the processor, and the monitor retires it. -/
theorem Views.retire (views : Views m f a) (inv : KernelInv A base m.kernel f) {code : Int} {fuel fuel' : Nat}
    {t : Kernel H} (removed : schedulerRemove fuel (exitRelease A m.kernel f.current code) (some f.current) = some t)
    (ran : schedule fuel' (wakeWaiters t) = some s') (log : List Event) :
    ∃ f', Views ⟨s', Function.update m.frames f.current (some .exitLoop), log⟩ f' (a.retire code) := by
  have exiting := inv.exiting code inv.simulates.current
  obtain ⟨_, removed', relinked, served⟩ := inv.exitRemove code
  obtain rfl := schedulerRemove_det removed removed'
  have woken := served.simulates.wakeWaiters served.coherent.sound
  have same : Rescheduled (exitRelease A m.kernel f.current code) s' :=
    (relinked.rescheduled.trans (wakeWaiters_rescheduled t)).trans (schedule_rescheduled ran)
  have visited : (taskRange t).filterMap (OsKernel.Proc.wakeable t) =
      (taskRange m.kernel).filterMap (OsKernel.Proc.wakeable m.kernel) := by
    have candidates : OsKernel.Proc.wakeable (exitRelease A m.kernel f.current code) =
        OsKernel.Proc.wakeable m.kernel := by
      funext i
      simp only [OsKernel.Proc.wakeable, exiting.task, exiting.kept Process.pid fun _ => rfl]
    rw [relinked.sameTasks.wakeable, candidates, taskRange, relinked.sameTasks.taskCount, exiting.taskCount, taskRange]
  rw [visited] at woken
  have unique := inv.table.biUnique
  have mirrors := ((views.sched.setStatus unique views.sched.current .terminated).wakeAll unique
    (views.wakeable inv.table)).schedule unique
  have others : ∀ p, p ≠ f.current →
      entryOf ⟨s', Function.update m.frames f.current (some .exitLoop), log⟩ p = entryOf m p := by
    intro p different
    simp only [entryOf, same.sameTasks.pid, same.sameTasks.exitCode, same.undisturbed.clock,
      exiting.others p different, Function.update_of_ne different]
  refine ⟨_, views.onCurrent inv.table _ (by exact same.sameTasks.task.trans exiting.task)
    (by exact same.sameTasks.nextPid.trans exiting.nextPid) others ?_
    (woken.of_schedule (served.coherent.sound.wakeAll _) ran) mirrors⟩
  simp only [entryOf, same.sameTasks.pid, same.sameTasks.exitCode, same.undisturbed.clock, exiting.process,
    Function.update_self]
  rfl

/-- A call of `process_exit` is refused to idle, and otherwise retires its caller. -/
theorem Views.exit (views : Views m f a) (inv : KernelInv A base m.kernel f) {fuel : Nat} {code : Int}
    {outcome : ExitOutcome} (ran : processExit A fuel m.kernel code = some (outcome, s')) :
    ∃ f', Views (m.finishExit code (outcome, s')) f' (a.exit code) := by
  have checked := views.current_any fun e => e.pid = 0
  change _ = decide ((m.kernel.procs f.current).pid = 0) at checked
  unfold processExit at ran
  rw [views.simulates.current] at ran
  dsimp only at ran
  rw [Monitor.exit, checked]
  split at ran
  next idle =>
      obtain ⟨rfl, rfl⟩ := Prod.ext_iff.mp (Option.some.inj ran)
      rw [if_pos (decide_eq_true idle)]
      exact ⟨f, views⟩
  next notIdle =>
      simp only [Option.bind_eq_bind, Option.bind_eq_some_iff] at ran
      obtain ⟨t, removed, t', scheduled, rest⟩ := ran
      obtain ⟨stopped, rfl⟩ := Prod.ext_iff.mp (Option.some.inj rest)
      rw [if_neg fun idle => notIdle (of_decide_eq_true idle)]
      have frames : Proc.setFrame m.frames m.kernel.current (some .exitLoop) =
          Function.update m.frames f.current (some .exitLoop) := by
        rw [views.simulates.current]
        rfl
      have gone : m.finishExit code (outcome, t') = ⟨t', Function.update m.frames f.current (some .exitLoop),
          m.log ++ [.exited m.currentPid code]⟩ := by
        rw [← frames]
        change _ = outcome at stopped
        rw [← stopped]
        split <;> rfl
      rw [gone]
      exact views.retire inv removed scheduled _

end Exit

section Wait

/-- A task that is reaped leaves its slot. -/
theorem Views.reap (views : Views m f a) (inv : KernelInv A base m.kernel f) (held : At m.kernel p i)
    (dead : (m.kernel.procs p).state = .terminated) (log : List Event) :
    Views ⟨OsKernel.Proc.reap A m.kernel p, keepFrames (OsKernel.Proc.reap A m.kernel p) m.frames, log⟩ f
      { a with entry := Function.update a.entry i none } := by
  obtain ⟨reaped, kept⟩ := inv.reap ⟨i, held⟩ dead
  obtain ⟨j, entry, tasks⟩ := reaped.slot
  obtain rfl := inv.table.inj j i p entry held
  have stays {q : Addr} {k : Fin 64} (other : k ≠ j) (used : At m.kernel q k) :
      At (OsKernel.Proc.reap A m.kernel p) q k := by
    rw [At, tasks, Function.update_of_ne other]
    exact used
  have alive {q : Addr} {k : Fin 64} (used : At m.kernel q k) (status : f.status q ≠ .terminated) : k ≠ j := by
    rintro rfl
    obtain rfl := Option.some.inj (Eq.trans (Eq.symm used) held)
    exact status ((inv.simulates.status q).symm.trans dead)
  refine ⟨kept.simulates, ?_, ?_, views.nextPid.trans reaped.nextPid.symm⟩
  · intro k
    dsimp only
    rw [tasks]
    by_cases same : k = j
    · rw [same, Function.update_self, Function.update_self, Option.map_none]
    · rw [Function.update_of_ne same, Function.update_of_ne same, views.entry]
      cases used : m.kernel.task k with
      | none => rfl
      | some q =>
          have member : (OsKernel.Proc.reap A m.kernel p).InTable q := ⟨k, stays same used⟩
          simp only [Option.map_some, entryOf, reaped.procs, keepFrames, if_pos member]
  · apply views.sched.rename
    · exact stays (alive views.sched.current (by rw [inv.status_current]; decide)) views.sched.current
    · intro q queued k used
      have ready := inv.coherent.sound q queued
      exact stays (alive used (by rw [ready]; decide)) used
    · intro q k used
      have other : k ≠ j := by
        rintro rfl
        rw [At, tasks, Function.update_self] at used
        cases used
      rw [At, tasks, Function.update_of_ne other] at used
      exact views.sched.status q k used

/-- Forgetting the frames outside the table changes nothing that callers can learn. -/
theorem Views.keepFrames (views : Views m f a) (log : List Event) :
    Views ⟨m.kernel, Proc.keepFrames m.kernel m.frames, log⟩ f a where
  simulates := views.simulates
  entry i := by
    rw [views.entry]
    cases used : m.kernel.task i with
    | none => rfl
    | some q =>
        have member : m.kernel.InTable q := ⟨i, used⟩
        simp only [Option.map_some, entryOf, Proc.keepFrames, if_pos member]
  sched := views.sched
  nextPid := views.nextPid

/-- The second half of a wait gives the value that the monitor gives. -/
theorem Views.collect (views : Views m f a) (inv : KernelInv A base m.kernel f) (pid : Int) (want : Bool)
    (log : List Event) :
    (a.collect pid want).1 = (processWaitResume A m.kernel pid want).1 ∧
      Views ⟨(processWaitResume A m.kernel pid want).2,
        Proc.keepFrames (processWaitResume A m.kernel pid want).2 m.frames, log⟩ f (a.collect pid want).2 := by
  have failed := views.keepFrames log
  unfold processWaitResume Monitor.collect
  cases found : a.lookup pid with
  | none =>
      rw [views.lookup_none inv.table found]
      exact ⟨rfl, failed⟩
  | some i =>
      obtain ⟨p, target, held⟩ := views.lookup_some inv.table found
      rw [target]
      dsimp only
      rw [← views.sched.status p i held, ← inv.simulates.status p]
      split
      next => exact ⟨rfl, failed⟩
      next dead =>
          refine ⟨?_, views.reap inv held (not_not.mp dead) log⟩
          rw [views.entry_some held]
          rfl

/-- The value of a call of `process_wait`, or that its caller is suspended. -/
def WaitOutcome.answer : WaitOutcome → Answer
  | .returned value => .waited value
  | .suspended => .suspended

/-- A call of `process_wait` is refused, or ends like its second half, or gives up the processor. -/
theorem processWait_ran {fuel : Nat} {cur : Addr} {pid : Int} {want : Bool} {outcome : WaitOutcome}
    (current : s.current = some cur) (ran : processWait A fuel s pid want = some (outcome, s')) :
    (((s.procs cur).pid = 0 ∨ (s.procs cur).pid = pid) ∧ outcome = .returned ⟨-1, none⟩ ∧ s' = s) ∨
    (¬ ((s.procs cur).pid = 0 ∨ (s.procs cur).pid = pid) ∧
      ((∀ target, findTask s pid = some target → (s.procs target).state = .terminated) ∧
        outcome = .returned (processWaitResume A s pid want).1 ∧ s' = (processWaitResume A s pid want).2 ∨
      ∃ target t, findTask s pid = some target ∧ (s.procs target).state ≠ .terminated ∧
        schedule fuel (blockCurrent s cur) = some t ∧ (t.current ≠ some cur → outcome = .suspended ∧ s' = t))) := by
  have ended {x : WaitOutcome × Kernel H} (same : some x = some (outcome, s')) : outcome = x.1 ∧ s' = x.2 := by
    obtain rfl := Option.some.inj same
    exact ⟨rfl, rfl⟩
  unfold processWait at ran
  rw [current] at ran
  dsimp only at ran
  by_cases refused : (s.procs cur).pid = 0 ∨ (s.procs cur).pid = pid
  · refine .inl ⟨refused, ?_⟩
    rcases refused with idle | own
    · rw [if_pos idle] at ran
      exact ended ran
    · rw [if_pos own, ite_self] at ran
      exact ended ran
  · obtain ⟨notIdle, other⟩ := not_or.mp refused
    refine .inr ⟨refused, ?_⟩
    rw [if_neg notIdle, if_neg other] at ran
    unfold processWaitResume
    cases found : findTask s pid with
    | none =>
        rw [found] at ran
        exact .inl ⟨fun _ clash => (by cases clash), ended ran⟩
    | some target =>
        rw [found] at ran
        dsimp only at ran ⊢
        by_cases dead : (s.procs target).state = .terminated
        · rw [if_neg (not_not.mpr dead)] at ran ⊢
          refine .inl ⟨?_, ended ran⟩
          rintro _ ⟨⟩
          exact dead
        · rw [if_pos dead] at ran
          simp only [Option.bind_eq_bind, Option.bind_eq_some_iff] at ran
          obtain ⟨t, scheduled, rest⟩ := ran
          refine .inr ⟨target, t, rfl, dead, scheduled, ?_⟩
          intro moved
          rw [if_neg moved] at rest
          exact ended rest

/-- The current process gets another suspended call. -/
theorem Views.setFrame (views : Views m f a) (ok : TableOk m.kernel) (frame : Option Frame) :
    Views { m with frames := Function.update m.frames f.current frame } f
      (a.onCurrent fun e => { e with pending := frame }) := by
  have others : ∀ p, p ≠ f.current →
      entryOf { m with frames := Function.update m.frames f.current frame } p = entryOf m p := by
    intro p different
    simp only [entryOf, Function.update_of_ne different]
  apply views.onCurrent ok _ (by rfl) (by rfl) others ?_ views.simulates views.sched
  simp only [entryOf, Function.update_self]

theorem Views.alive_iff (views : Views m f a) (ok : TableOk m.kernel) (pid : Int) :
    a.alive pid = true ↔ ∃ target, findTask m.kernel pid = some target ∧ (m.kernel.procs target).state ≠ .terminated := by
  unfold Monitor.alive
  cases found : a.lookup pid with
  | none =>
      rw [views.lookup_none ok found]
      simp
  | some i =>
      obtain ⟨p, target, held⟩ := views.lookup_some ok found
      rw [target]
      simp [← views.sched.status p i held, ← views.simulates.status p]

/-- A caller without a frame has none to give up. -/
theorem Views.setFrame_eq (views : Views m f a) (free : m.frames f.current = none) :
    Proc.setFrame m.frames m.kernel.current none = m.frames := by
  rw [views.simulates.current]
  exact Function.update_eq_self_iff.mpr free.symm

/-- A call of `process_wait` answers as the monitor does. -/
theorem Views.wait (views : Views m f a) (inv : KernelInv A base m.kernel f) (free : m.frames f.current = none)
    {fuel : Nat} {pid : Int} {want : Bool} {outcome : WaitOutcome}
    (ran : processWait A fuel m.kernel pid want = some (outcome, s')) :
    ∃ f' a', Views (m.startWait pid want (outcome, s')) f' a' ∧ a.wait pid want = (outcome.answer, a') := by
  have checked := views.current_any fun e => e.pid = 0 ∨ e.pid = pid
  change _ = decide ((m.kernel.procs f.current).pid = 0 ∨ (m.kernel.procs f.current).pid = pid) at checked
  unfold Monitor.wait
  rw [checked]
  rcases processWait_ran views.simulates.current ran with ⟨refused, rfl, rfl⟩ | ⟨granted, rest⟩
  · rw [if_pos (decide_eq_true refused)]
    refine ⟨f, a, ?_, rfl⟩
    rw [Machine.startWait, Machine.finishWait, views.setFrame_eq free]
    exact views.keepFrames _
  · rw [if_neg fun refused => granted (of_decide_eq_true refused)]
    rcases rest with ⟨dead, rfl, rfl⟩ | ⟨target, t, found, alive, scheduled, suspends⟩
    · have settled : ¬ a.alive pid = true := by
        rw [views.alive_iff inv.table]
        rintro ⟨target, found, alive⟩
        exact alive (dead target found)
      rw [if_neg settled, (views.collect inv pid want m.log).1]
      refine ⟨f, _, ?_, rfl⟩
      rw [Machine.startWait, Machine.finishWait, views.setFrame_eq free]
      exact (views.collect inv pid want _).2
    · have waiting : a.alive pid = true := (views.alive_iff inv.table pid).mpr ⟨target, found, alive⟩
      have notIdle : m.kernel.task 0 ≠ some f.current := by
        intro first
        obtain ⟨idle, slot, zero⟩ := inv.table.idle
        rw [first] at slot
        exact granted (.inl (by rw [Option.some.inj slot, zero]))
      obtain ⟨_, t', f', ran', _, kept, moved⟩ := inv.block notIdle
      obtain rfl := schedule_det scheduled ran'
      obtain ⟨rfl, rfl⟩ := suspends (by rw [kept.simulates.current]; simpa using moved)
      rw [if_pos waiting]
      have blocked := (views.setFrame inv.table (some (.wait pid want))).block inv scheduled
      refine ⟨(f.setStatus f.current .blocked).schedule, _, ?_, rfl⟩
      rw [Machine.startWait, views.simulates.current]
      exact blocked

/-- A suspended wait that ends answers as the monitor does. -/
theorem Views.resume (views : Views m f a) (inv : KernelInv A base m.kernel f) {pid : Int} {want : Bool}
    (frame : m.frame = some (.wait pid want)) : ∃ a',
      Views (m.finishWait pid want (processWaitResume A m.kernel pid want)) f a' ∧
        a.resume = (.waited (processWaitResume A m.kernel pid want).1, a') := by
  have cleared := views.setFrame inv.table none
  unfold Monitor.resume
  rw [views.frame, frame]
  dsimp only
  rw [(cleared.collect inv pid want m.log).1]
  refine ⟨_, ?_, rfl⟩
  rw [Machine.finishWait, views.simulates.current]
  exact (cleared.collect inv pid want _).2

end Wait

section Create

variable {entry : Option Addr} {arg priority : Nat}

/-- What the heap grants to the next creation. -/
def memoryOf (A : Allocator H) (heap : H) : Memory :=
  if (A.kmalloc heap sizeofProcess).1 = none then .refused
  else if allocates A heap createSizes = true then .granted
  else .late

theorem processAdmit_nextPid (s : Kernel H) (p : Addr) : (processAdmit s p).nextPid = s.nextPid := by
  have added := schedulerAdd_relinked (installTask (processSetState s (some p) .ready) p) p
  obtain ⟨task, count, installed⟩ := installTask_eq (processSetState s (some p) .ready) p
  rw [processAdmit, added.sameTasks.nextPid, installed]
  rfl

/-- The new process stands in the first free slot. -/
theorem processAdmit_task (found : freeSlot s = some i) (p : Addr) :
    (processAdmit s p).task = Function.update s.task i (some p) := by
  have added := schedulerAdd_relinked (installTask (processSetState s (some p) .ready) p) p
  have same : freeSlot (processSetState s (some p) .ready) = some i := found
  rw [processAdmit, added.sameTasks.task, installTask, same]
  rfl

/-- A creation uses up a pid as soon as it has a control block. -/
theorem processCreate_nextPid (A : Allocator H) (s : Kernel H) (entry : Option Addr) (arg priority : Nat) :
    (processCreate A s entry arg priority).2.nextPid =
      if entry = none ∨ 64 ≤ s.taskCount ∨ (A.kmalloc s.heap sizeofProcess).1 = none then s.nextPid
      else wrapPid (s.nextPid + 1) := by
  have kmalloc_nextPid {s t : Kernel H} {size : Nat} {answer : Option Addr} (asked : s.kmalloc A size = (answer, t)) :
      t.nextPid = s.nextPid := by
    rw [Kernel.kmalloc, Prod.mk.injEq] at asked
    rw [← asked.2]
  unfold processCreate
  cases entry with
  | none => rw [if_pos (.inl rfl)]
  | some entry =>
      dsimp only
      by_cases full : 64 ≤ s.taskCount
      · rw [if_pos full, if_pos (.inr (.inl full))]
      · rw [if_neg full]
        rcases first : s.kmalloc A sizeofProcess with ⟨_ | p, s₁⟩
        · have refused : (A.kmalloc s.heap sizeofProcess).1 = none := congrArg Prod.fst first
          rw [if_pos (.inr (.inr refused))]
          exact kmalloc_nextPid first
        · have served : (A.kmalloc s.heap sizeofProcess).1 = some p := congrArg Prod.fst first
          rw [if_neg (by simp [full, served]), ← kmalloc_nextPid first]
          dsimp only
          split
          next second => exact kmalloc_nextPid second
          next stack s₂ second =>
              split
              next third => exact (kmalloc_nextPid third).trans (kmalloc_nextPid second)
              next ctx s₃ third =>
                  split
                  next fourth =>
                      exact (kmalloc_nextPid fourth).trans ((kmalloc_nextPid third).trans (kmalloc_nextPid second))
                  next regs s₄ fourth =>
                      rw [processAdmit_nextPid]
                      exact (kmalloc_nextPid fourth).trans ((kmalloc_nextPid third).trans (kmalloc_nextPid second))

theorem Views.free (views : Views m f a) (found : freeSlot m.kernel = some i) : a.free = i := by
  have same : ((List.finRange 64).find? fun i => (a.entry i).isNone) = freeSlot m.kernel := by
    simp only [views.entry, Option.isNone_map]
    rfl
  rw [Monitor.free, same, found, Option.getD_some]

/-- What callers learn of a process that a creation has just admitted. -/
theorem CreateReady.entryOf {t : Kernel H} (ready : CreateReady A m.kernel priority p t) (ok : TableOk m.kernel)
    (owns : Owns A base m.kernel) (unframed : m.frames p = none) :
    entryOf { m with kernel := processAdmit t p } p =
      ⟨m.kernel.nextPid, 0, Clock.after (if priority < 5 then priority else 4) 0, none⟩ := by
  obtain ⟨_, admitted⟩ := ready.admitted ok owns
  obtain ⟨_, stack, ctx, regs, pending⟩ := ready
  have code := congrArg Process.exitCode (processAdmit_identity t p p)
  rw [pending.process] at code
  have clock := processAdmit_clock t p p
  rw [pending.process] at clock
  rw [Proc.entryOf, admitted.pid, clock, unframed]
  exact congrArg (fun code => (⟨m.kernel.nextPid, code, _, none⟩ : Entry)) code

/-- A creation keeps what callers know of the other tasks. -/
theorem CreateReady.entryOf_others {t : Kernel H} (ready : CreateReady A m.kernel priority p t) {q : Addr}
    (other : q ≠ p) : Proc.entryOf { m with kernel := processAdmit t p } q = Proc.entryOf m q := by
  obtain ⟨_, stack, ctx, regs, pending⟩ := ready
  have identity := processAdmit_identity t p q
  have pid := congrArg Process.pid identity
  have code := congrArg Process.exitCode identity
  change ((processAdmit t p).procs q).pid = (t.procs q).pid at pid
  change ((processAdmit t p).procs q).exitCode = (t.procs q).exitCode at code
  simp only [Proc.entryOf, pid, code, processAdmit_clock, pending.others q other]

/-- The admitted process enters the monitor. -/
theorem Views.enter (views : Views m f a) (inv : KernelInv A base m.kernel f) (housed : Housed m) {t : Kernel H}
    (ready : CreateReady A m.kernel priority p t) :
    ∃ f', Views { m with kernel := processAdmit t p } f' (a.enter priority) := by
  have absent := ready.absent inv.owns
  obtain ⟨_, admitted⟩ := ready.admitted inv.table inv.owns
  have linked := inv.toLinked.admit ready inv.table inv.owns
  obtain ⟨room, stack, ctx, regs, pending⟩ := id ready
  obtain ⟨i, found, unused, _⟩ := inv.table.freeSlot_exists room
  have tasks : (processAdmit t p).task = Function.update m.kernel.task i (some p) := by
    rw [← pending.task]
    apply processAdmit_task
    rw [← found, freeSlot, freeSlot, pending.task]
  have unframed : m.frames p = none := by
    by_contra framed
    exact absent (housed p framed)
  have stays {q : Addr} {k : Fin 64} (used : At m.kernel q k) : q ≠ p ∧ At (processAdmit t p) q k := by
    have other : k ≠ i := by
      rintro rfl
      rw [At, unused] at used
      cases used
    refine ⟨fun same => absent ⟨k, same ▸ used⟩, ?_⟩
    rw [At, tasks, Function.update_of_ne other]
    exact used
  have new : At (processAdmit t p) p i := by rw [At, tasks, Function.update_self]
  refine ⟨admittedFifo f t p, linked.simulates, ?_, ⟨?_, ?_, ?_⟩, ?_⟩
  · intro k
    rw [Monitor.enter, views.free found]
    dsimp only
    rw [tasks]
    by_cases same : k = i
    · rw [same, Function.update_self, Function.update_self, Option.map_some,
        ready.entryOf inv.table inv.owns unframed, views.nextPid]
    · rw [Function.update_of_ne same, Function.update_of_ne same, views.entry]
      cases used : m.kernel.task k with
      | none => rfl
      | some q => rw [Option.map_some, Option.map_some, ready.entryOf_others (stays used).1]
  · exact (stays views.sched.current).2
  · rw [Monitor.enter, views.free found]
    exact List.rel_append (views.sched.queue.imp fun q k used => (stays used).2) (.cons new .nil)
  · intro q k used
    rw [Monitor.enter, views.free found]
    change Function.update (fun q => (t.procs q).state) p .ready q =
      Function.update a.sched.status i .ready k
    by_cases same : k = i
    · obtain rfl : q = p := by
        rw [At, tasks, same, Function.update_self] at used
        exact (Option.some.inj used).symm
      rw [same, Function.update_self, Function.update_self]
    · have old : At m.kernel q k := by
        rw [At, tasks, Function.update_of_ne same] at used
        exact used
      rw [Function.update_of_ne same, Function.update_of_ne (stays old).1, pending.others q (stays old).1,
        views.simulates.status, views.sched.status q k old]
  · rw [Monitor.enter, views.nextPid]
    exact admitted.nextPid.symm

/-- A creation that fails can only use up a pid. -/
theorem Views.createFailed (views : Views m f a) (inv : KernelInv A base m.kernel f)
    (failed : CreateFailed A m.kernel s') : ∃ f', Views { m with kernel := s' } f' { a with nextPid := s'.nextPid } := by
  have linked := inv.toLinked.createFailed inv.owns failed
  have kept {q : Addr} {k : Fin 64} (used : At m.kernel q k) : s'.procs q = m.kernel.procs q :=
    failed.procs q (inv.owns.live_of_inTable ⟨k, used⟩)
  have tasks : At s' = At m.kernel := by
    funext q k
    rw [At, At, failed.task]
  refine ⟨_, linked.simulates, ?_, ?_, rfl⟩
  · intro k
    rw [failed.task, views.entry]
    cases used : m.kernel.task k with
    | none => rfl
    | some q => simp only [Option.map_some, entryOf, kept used]
  · rw [tasks]
    apply views.sched.withStatus
    intro q k used
    rw [kept used, views.simulates.status]

/-- A call of `process_create` answers as the monitor does, which only asks what the memory grants. -/
theorem Views.create (views : Views m f a) (inv : KernelInv A base m.kernel f) (housed : Housed m)
    (entry : Option Addr) (arg priority : Nat) :
    ∃ f' a', Views { m with kernel := (processCreate A m.kernel entry arg priority).2 } f' a' ∧
      a.create entry.isSome priority (memoryOf A m.kernel.heap) =
        (.pid (processCreate A m.kernel entry arg priority).1, a') := by
  have noEntry : entry.isSome = false ↔ entry = none := Option.isSome_eq_false_iff.trans Option.isNone_iff_eq_none
  have full : (a.entry 63).isSome ↔ 64 ≤ m.kernel.taskCount := by
    rw [← Nat.not_lt, inv.table.taskCount_lt_iff, views.entry, Option.isSome_map, ← ne_eq, Option.ne_none_iff_isSome]
  have nothing : memoryOf A m.kernel.heap = .refused ↔ (A.kmalloc m.kernel.heap sizeofProcess).1 = none := by
    unfold memoryOf
    split
    next none => exact ⟨fun _ => none, fun _ => rfl⟩
    next some => split <;> exact ⟨fun clash => (by cases clash), fun none => absurd none some⟩
  have nextPid := processCreate_nextPid A m.kernel entry arg priority
  unfold Monitor.create
  simp only [noEntry, full, nothing]
  rcases processCreate_outcome A m.kernel entry arg priority with
    ⟨refused, value, undone⟩ | ⟨granted, p, t, ready, created⟩
  · obtain ⟨f', kept⟩ := views.createFailed inv undone.toCreateFailed
    rw [value]
    split at nextPid
    next early =>
        rw [if_pos early]
        rw [nextPid, ← views.nextPid] at kept
        exact ⟨f', a, kept, rfl⟩
    next late =>
        have unserved : memoryOf A m.kernel.heap = .late := by
          obtain ⟨entered, room, some⟩ := not_or.mp late |>.imp_right not_or.mp
          have short := (refused.resolve_left entered).resolve_left room
          rw [memoryOf, if_neg some, if_neg (by rw [short]; decide)]
        rw [if_neg late, if_pos unserved]
        rw [nextPid, ← views.nextPid] at kept
        exact ⟨f', _, kept, rfl⟩
  · obtain ⟨entered, rest⟩ := not_or.mp granted
    obtain ⟨room, served⟩ := not_or.mp rest
    have served : allocates A m.kernel.heap createSizes = true := by simpa using served
    have some : (A.kmalloc m.kernel.heap sizeofProcess).1 ≠ none := by
      rw [createSizes, allocates, Bool.and_eq_true] at served
      exact Option.ne_none_iff_isSome.mpr served.1
    have whole : memoryOf A m.kernel.heap ≠ .late := by
      rw [memoryOf, if_neg some, if_pos served]
      decide
    obtain ⟨f', entered'⟩ := views.enter inv housed ready
    rw [if_neg (by simp [entered, some, Nat.not_le.mp room]), if_neg whole, created, views.nextPid]
    exact ⟨f', _, entered', rfl⟩

end Create

end OsKernel.Proc
