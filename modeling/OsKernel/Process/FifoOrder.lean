import OsKernel.Library.Turns
import OsKernel.Process.FifoRuns

/-
This file shows that the ready queue is served in the order in which it was joined.
The order law is about whole runs, and the round of the consecutive calls of
`schedule()` follows from the same rotation of the queue.
-/

namespace OsKernel.Proc
open OsKernel.Library

namespace Fifo

variable {α : Type*} {f f₁ f₂ : Fifo α} {new new₁ new₂ : List α}

/-- The processor stays with its process or goes to the first of the list, and `new` joins the list. -/
inductive Serves (f : Fifo α) (new : List α) (f' : Fifo α) : Prop
  | stays (current : f'.current = f.current) (queue : f'.queue = f.queue ++ new)
  | passes {p : α} {rest : List α} (front : f.queue = p :: rest) (current : f'.current = p)
      (moved : p ≠ f.current) (queue : f'.queue = rest ++ new)

/-- A call of the scheduler follows the processes that joined before it. -/
theorem Serves.after (serves : f₁.Serves new₂ f₂) (waiting : f.queue ≠ []) (current : f₁.current = f.current)
    (queue : f₁.queue = f.queue ++ new₁) : f.Serves (new₁ ++ new₂) f₂ := by
  cases serves with
  | stays same longer =>
      refine .stays (same.trans current) ?_
      rw [longer, queue, List.append_assoc]
  | @passes p rest front next moved shorter =>
      cases old : f.queue with
      | nil => exact absurd old waiting
      | cons q others =>
          rw [queue, old, List.cons_append, List.cons.injEq] at front
          obtain ⟨rfl, tail⟩ := front
          rw [current] at moved
          refine .passes old next moved ?_
          rw [shorter, ← tail, List.append_assoc]

/-- The new members are those that did not wait before. -/
theorem Serves.mem_new {p : α} (serves : f.Serves new f₁) (nodup : f₁.queue.Nodup)
    (outside : f₁.current ∉ f₁.queue) : p ∈ new ↔ p ∈ f₁.queue ∧ p ∉ f.queue := by
  cases serves with
  | stays _ longer =>
      rw [longer] at nodup ⊢
      have apart := (List.nodup_append.mp nodup).2.2
      rw [List.mem_append]
      constructor
      · intro joined
        exact ⟨.inr joined, fun old => apart p old p joined rfl⟩
      · intro member
        exact member.1.resolve_left member.2
  | passes front current _ shorter =>
      rw [shorter] at nodup
      rw [shorter, current, List.mem_append, not_or] at outside
      have apart := (List.nodup_append.mp nodup).2.2
      rw [shorter, front, List.mem_append, List.mem_cons, not_or]
      constructor
      · intro joined
        refine ⟨.inr joined, ?_, fun old => apart p old p joined rfl⟩
        intro first
        exact outside.2 (first ▸ joined)
      · intro member
        exact member.1.resolve_left member.2.2

variable [DecidableEq α]

/-- The scheduler passes the processor on, and only a running process goes back to the list. -/
theorem serves_schedule (outside : f.current ∉ f.queue) :
    ∃ new, new.Sublist [f.current] ∧ (¬ f.Active → new = []) ∧ f.Serves new f.schedule := by
  cases queue : f.queue with
  | nil =>
      have same : f.schedule = f := by simp [schedule, queue]
      refine ⟨[], List.nil_sublist _, fun _ => rfl, .stays ?_ ?_⟩
      · rw [same]
      · rw [same, List.append_nil]
  | cons p rest =>
      rw [queue, List.mem_cons, not_or] at outside
      rw [schedule_cons queue outside.1]
      split
      next active =>
          exact ⟨[f.current], List.Sublist.refl _, fun stopped => absurd active stopped,
            .passes queue rfl (Ne.symm outside.1) rfl⟩
      next =>
          refine ⟨[], List.nil_sublist _, fun _ => rfl, .passes queue rfl (Ne.symm outside.1) ?_⟩
          rw [List.append_nil]

/-- A wake-up adds at most its process. -/
theorem wake_queue (f : Fifo α) (p : α) :
    ∃ new, new.Sublist [p] ∧ (f.wake p).queue = f.queue ++ new := by
  unfold wake
  split
  next => exact ⟨[p], List.Sublist.refl _, rfl⟩
  next => exact ⟨[], List.nil_sublist _, (List.append_nil _).symm⟩

/-- The woken processes join the list in the order in which they are woken. -/
theorem wakeAll_queue (f : Fifo α) (ps : List α) :
    ∃ new, new.Sublist ps ∧ (f.wakeAll ps).queue = f.queue ++ new := by
  induction ps generalizing f with
  | nil => exact ⟨[], List.Sublist.refl _, (List.append_nil _).symm⟩
  | cons p rest ih =>
      obtain ⟨first, own, woken⟩ := f.wake_queue p
      obtain ⟨others, later, result⟩ := ih (f.wake p)
      refine ⟨first ++ others, own.append later, ?_⟩
      rw [wakeAll_cons, result, woken, List.append_assoc]

/-- A process that has terminated joins nothing; the woken ones join, and the first of the list follows. -/
theorem serves_exit (ps : List α) (sound : f.Sound) (dead : f.status f.current = .terminated)
    (waiting : f.queue ≠ []) : ∃ new, new.Sublist ps ∧ f.Serves new (f.wakeAll ps).schedule := by
  have current : (f.wakeAll ps).current = f.current := wakeAll_current ps
  have status : (f.wakeAll ps).status (f.wakeAll ps).current = .terminated := by
    rw [current, wakeAll_terminated, dead]
  have outside : (f.wakeAll ps).current ∉ (f.wakeAll ps).queue :=
    (sound.wakeAll ps).not_mem_queue (by rw [status]; decide)
  have stopped : ¬ (f.wakeAll ps).Active := by
    rw [Active, status]
    decide
  obtain ⟨joined, woken, queue⟩ := f.wakeAll_queue ps
  obtain ⟨new, _, nobody, serves⟩ := serves_schedule outside
  refine ⟨joined ++ new, ?_, serves.after waiting current queue⟩
  rw [nobody stopped, List.append_nil]
  exact woken

/-- After `k` calls of the scheduler the processor and the list have turned by `k` places. -/
structure Rotated (f : Fifo α) (k : Nat) (f' : Fifo α) : Prop where
  order : f'.current :: f'.queue = (f.current :: f.queue).rotate k
  status : ∀ p, f'.status p =
    if p = f'.current then .running else if p ∈ f'.queue then .ready else f.status p

theorem rotated_start (active : f.Active) (sound : f.Sound) : f.Rotated 0 f where
  order := (List.rotate_zero _).symm
  status p := by
    by_cases current : p = f.current
    · rw [if_pos current, current]
      exact active
    · rw [if_neg current]
      by_cases member : p ∈ f.queue
      · rw [if_pos member, sound p member]
      · rw [if_neg member]

/-- A call of the scheduler turns by one more place. -/
theorem Rotated.schedule {k : Nat} (rotated : f.Rotated k f₁) (outside : f₁.current ∉ f₁.queue)
    (waiting : f₁.queue ≠ []) : f.Rotated (k + 1) f₁.schedule := by
  cases queue : f₁.queue with
  | nil => exact absurd queue waiting
  | cons p rest =>
      have order := rotated.order
      rw [queue] at order outside
      have different : f₁.current ≠ p := by
        intro same
        exact outside (by simp [same])
      have running : f₁.status f₁.current = .running := by
        rw [rotated.status, if_pos rfl]
      rw [schedule_cons queue different, if_pos running]
      refine ⟨?_, ?_⟩
      · rw [← List.rotate_rotate, ← order]
        rfl
      · intro q
        show Function.update (Function.update f₁.status f₁.current .ready) p .running q =
          if q = p then .running else if q ∈ rest ++ [f₁.current] then .ready else f.status q
        by_cases head : q = p
        · rw [if_pos head, head, Function.update_self]
        · rw [if_neg head, Function.update_of_ne head]
          by_cases current : q = f₁.current
          · rw [current, Function.update_self, if_pos (by simp)]
          · rw [Function.update_of_ne current, rotated.status, if_neg current, queue]
            simp [head, current]

/-- A whole round leads back to the start. -/
theorem Rotated.eq_of_round (rotated : f.Rotated (f.queue.length + 1) f₁) (start : f.Rotated 0 f) : f₁ = f := by
  have order := rotated.order
  rw [← List.length_cons, List.rotate_length, List.cons.injEq] at order
  obtain ⟨current, queue⟩ := order
  have status : f₁.status = f.status := by
    funext p
    rw [rotated.status, current, queue, ← start.status]
  cases f₁
  cases f
  simp_all

end Fifo

variable {H : Type} {A : Allocator H} {base : Finset Addr} {s s' : Kernel H} {f f' : Fifo Addr}
  {m m' : Machine H} {op : Op}

/-- The walk follows the links over at most `fuel` nodes. -/
def linkedFrom (s : Kernel H) : Nat → Option Addr → List Addr
  | fuel + 1, some p => p :: linkedFrom s fuel (s.procs p).next
  | _, _ => []

/-- The ready queue as its links show it; it holds tasks only, and the table has 64 slots. -/
def readyList (s : Kernel H) : List Addr := linkedFrom s 64 s.readyQueue.head

/-- The tasks in the order of their slots. -/
def taskList (s : Kernel H) : List Addr := (List.finRange 64).filterMap s.task

/-- The processes that stand in the queue after a step and did not before.
Only the loop of `process_exit` adds more than one, and it visits the slots in order. -/
def arrivals (s s' : Kernel H) : List Addr :=
  (taskList s').filter fun p => p ∈ readyList s' ∧ p ∉ readyList s

/-- The process that a step dispatches. -/
def dispatches (s s' : Kernel H) : List Addr := if s'.current = s.current then [] else s'.current.toList

/-- The record keeps who joined the queue and who was dispatched, in order. -/
structure Recorded (H : Type) where
  machine : Machine H
  joined : List Addr
  dispatched : List Addr

def Recorded.start (m : Machine H) : Recorded H := ⟨m, [], []⟩

def Recorded.advance (r : Recorded H) (m' : Machine H) : Recorded H where
  machine := m'
  joined := r.joined ++ arrivals r.machine.kernel m'.kernel
  dispatched := r.dispatched ++ dispatches r.machine.kernel m'.kernel

/-- A step of a FIFO run with its record. -/
def RecordedStep (A : Allocator H) (r : Recorded H) (op : Op) (r' : Recorded H) : Prop :=
  ∃ m', Disciplined A fifoAllow r.machine op m' ∧ r' = r.advance m'

/-- These are `count` consecutive calls of `schedule()`. -/
def scheduleTimes (fuel : Nat) : Nat → Kernel H → Option (Kernel H)
  | 0, s => some s
  | count + 1, s => (scheduleTimes fuel count s).bind (schedule fuel)

/-- Consecutive calls dispatch the waiting processes in order and then the current one again,
which ends where the round began. -/
def RoundRobin (s : Kernel H) : Prop :=
  ∀ cur waiting fuel, s.current = some cur → readyList s = waiting → waiting ≠ [] → waiting.length < fuel →
    (∀ k p, waiting[k]? = some p → ∃ s', scheduleTimes fuel (k + 1) s = some s' ∧ s'.current = some p ∧
      (s'.procs p).state = .running) ∧
    ∃ s', scheduleTimes fuel (waiting.length + 1) s = some s' ∧ s'.current = some cur ∧
      Represents s' waiting ∧ readyList s' = waiting ∧ ∀ p, (s'.procs p).state = (s.procs p).state

/-- Processes are dispatched in the order in which they last joined the queue. -/
structure FifoOrder (A : Allocator H) (r : Recorded H) : Prop where
  listed : Represents r.machine.kernel (readyList r.machine.kernel)
  served : r.joined = r.dispatched ++ readyList r.machine.kernel
  notOvertaken : ∀ ops r', Run (RecordedStep A) r ops r' → ∃ later, r'.dispatched = r.dispatched ++ later ∧
    ∀ p q, p ∈ readyList r.machine.kernel → q ∈ readyList r.machine.kernel → LastBefore r.joined p q →
      q ∈ later → ∃ before after, later = before ++ q :: after ∧ p ∈ before ∧ q ∉ before
  round : RoundRobin r.machine.kernel

section Lists

theorem linkedFrom_eq {start : Option Addr} {nodes : List Addr} {fuel : Nat}
    (chain : Chain s.links start nodes) (enough : nodes.length ≤ fuel) : linkedFrom s fuel start = nodes := by
  induction nodes generalizing start fuel with
  | nil =>
      have empty : start = none := chain
      rw [empty]
      cases fuel <;> rfl
  | cons p rest ih =>
      cases fuel with
      | zero => simp at enough
      | succ fuel =>
          have tail : linkedFrom s fuel (s.procs p).next = rest := ih chain.2 (Nat.le_of_succ_le_succ enough)
          rw [chain.1, linkedFrom, tail]

theorem mem_taskList {p : Addr} : p ∈ taskList s ↔ s.InTable p := by
  simp [taskList, Kernel.InTable]

theorem TableOk.nodup_taskList (ok : TableOk s) : (taskList s).Nodup := by
  apply List.Nodup.filterMap
  · intro i j p left right
    exact ok.inj i j p left right
  · exact List.nodup_finRange 64

/-- The links show exactly the list that they represent. -/
theorem Linked.readyList_eq (linked : Linked s f) : readyList s = f.queue := by
  have short : f.queue.length ≤ (taskList s).length := by
    apply List.Subperm.length_le
    apply linked.coherent.nodup.subperm
    intro p member
    exact mem_taskList.mpr ((linked.coherent.ready p).mp member).1
  have slots : (taskList s).length ≤ 64 := by
    have bound := List.length_filterMap_le s.task (List.finRange 64)
    rwa [List.length_finRange] at bound
  exact linkedFrom_eq linked.simulates.queue.chain (short.trans slots)

end Lists

section Steps

/-- The new state serves the old list, and its new members stand in the order of their slots. -/
def Turned (f : Fifo Addr) (s' : Kernel H) : Prop :=
  ∃ f' new, Simulates s' f' ∧ f.Serves new f' ∧ new.Sublist (taskList s')

/-- A step that serves the list is a turn of the queue. -/
theorem KernelInv.turn (inv : KernelInv A base s f) (inv' : KernelInv A base s' f') (turned : Turned f s') :
    Turn (readyList s) (arrivals s s') (dispatches s s') (readyList s') := by
  obtain ⟨g, new, simulates, serves, slots⟩ := turned
  obtain rfl := simulates.unique inv'.simulates
  have before := inv.toLinked.readyList_eq
  have after := inv'.toLinked.readyList_eq
  have joined : arrivals s s' = new := by
    unfold arrivals
    rw [before, after]
    calc (taskList s').filter (fun p => decide (p ∈ g.queue ∧ p ∉ f.queue))
        = (taskList s').filter (fun p => decide (p ∈ new)) := by
          congr 1
          funext p
          apply decide_eq_decide.mpr
          exact (serves.mem_new inv'.coherent.nodup (inv'.coherent.current_not_mem inv'.active)).symm
      _ = new := filter_mem_of_sublist inv'.table.nodup_taskList slots
  unfold Turn dispatches
  rw [joined, before, after, inv.simulates.current, inv'.simulates.current]
  cases serves with
  | stays current queue => simp [current, queue]
  | passes front current moved queue => simp [front, current, moved, queue]

/-- A state with the same queue and the same current process has turned by nothing. -/
theorem Turned.refl (simulates : Simulates s f') (current : f'.current = f.current)
    (queue : f'.queue = f.queue) : Turned f s := by
  refine ⟨f', [], simulates, .stays current ?_, List.nil_sublist _⟩
  rw [queue, List.append_nil]

theorem singleton_taskList {p : Addr} (member : s.InTable p) : [p].Sublist (taskList s) := by
  rw [List.singleton_sublist]
  exact mem_taskList.mpr member

theorem SameTasks.taskList_eq (same : SameTasks s s') : taskList s' = taskList s := by
  unfold taskList
  rw [same.task]

theorem KernelInv.turned_schedule {fuel : Nat} (inv : KernelInv A base s f)
    (ran : OsKernel.Proc.schedule fuel s = some s') : Turned f s' := by
  have result := inv.simulates.of_schedule inv.coherent.sound ran
  obtain ⟨new, own, _, serves⟩ := Fifo.serves_schedule (inv.coherent.current_not_mem inv.active)
  refine ⟨_, new, result, serves, own.trans ?_⟩
  rw [(schedule_rescheduled ran).sameTasks.taskList_eq]
  exact singleton_taskList inv.current_inTable

theorem KernelInv.turned_doTimer {fuel : Nat} (inv : KernelInv A base s f)
    (ran : OsKernel.Proc.doTimer fuel s = some s') : Turned f s' := by
  obtain ⟨_, ticked⟩ := inv.ticked
  simp only [OsKernel.Proc.doTimer, inv.simulates.current] at ran
  split at ran
  next => exact ticked.turned_schedule ran
  next =>
      obtain rfl := Option.some.inj ran
      exact .refl ticked.simulates rfl rfl

theorem KernelInv.turned_wake (inv : KernelInv A base s f) {p : Addr} (member : s.InTable p) :
    Turned f (schedulerWake s (some p)) := by
  obtain ⟨advance, _, woken⟩ := inv.wake member
  obtain ⟨new, own, queue⟩ := f.wake_queue p
  refine ⟨_, new, woken.simulates, .stays (Fifo.wake_current f p) queue, own.trans ?_⟩
  exact singleton_taskList ((advance.same.inTable p).mpr member)

/-- A process that blocks joins nothing, and the first of the queue follows it. -/
theorem KernelInv.turned_block {fuel : Nat} (inv : KernelInv A base s f)
    (notIdle : s.task 0 ≠ some f.current)
    (ran : OsKernel.Proc.schedule fuel (blockCurrent s f.current) = some s') :
    Turned f s' ∧ s'.current ≠ some f.current := by
  have waiting := inv.queue_ne_nil notIdle
  have outside := inv.coherent.current_not_mem inv.active
  have linked := inv.toLinked.block (p := f.current) (by rw [inv.status_current]; decide)
  have result := linked.simulates.of_schedule linked.coherent.sound ran
  obtain ⟨new, own, _, serves⟩ := Fifo.serves_schedule (f := f.setStatus f.current .blocked) outside
  have same := (rescheduled_onProc s f.current .blocked).trans (schedule_rescheduled ran)
  refine ⟨⟨_, [] ++ new, result, serves.after waiting rfl (List.append_nil _).symm, own.trans ?_⟩, ?_⟩
  · rw [same.sameTasks.taskList_eq]
    exact singleton_taskList inv.current_inTable
  · rw [result.current, ne_eq, Option.some.injEq]
    exact (Fifo.schedule_active (f := f.setStatus f.current .blocked) waiting outside).2

/-- The wake loop visits tasks in the order of their slots. -/
theorem wakeable_sublist (s : Kernel H) :
    ((taskRange s).filterMap (wakeable s)).Sublist (taskList s) := by
  have visited : (taskRange s).filterMap (wakeable s) =
      ((taskRange s).filterMap s.task).filter fun p => 0 < (s.procs p).pid := by
    rw [List.filter_filterMap]
    rfl
  rw [visited]
  exact List.filter_sublist.trans (List.filter_sublist.filterMap s.task)

/-- An exit adds the woken processes behind the queue, and the first of the queue follows it. -/
theorem KernelInv.turned_exit {fuel : Nat} {code : Int} {outcome : ExitOutcome} (inv : KernelInv A base s f)
    (ran : processExit A fuel s code = some (outcome, s')) : Turned f s' := by
  simp only [processExit, inv.simulates.current] at ran
  split at ran
  next =>
      obtain ⟨_, rfl⟩ := Prod.mk.inj (Option.some.inj ran)
      exact .refl inv.simulates rfl rfl
  next notIdle =>
      simp only [Option.bind_eq_bind, Option.bind_eq_some_iff, Option.pure_def, Option.some.injEq] at ran
      obtain ⟨t, removed, t', scheduled, result⟩ := ran
      obtain ⟨_, rfl⟩ := Prod.mk.inj result
      have waiting : f.queue ≠ [] := inv.queue_ne_nil fun slot => inv.ne_idle notIdle slot rfl
      -- The removal finds nothing, since the exiting process is not queued.
      obtain ⟨u, removed', _, served⟩ := inv.exitRemove code
      obtain rfl := schedulerRemove_det removed' removed
      have woken := served.simulates.wakeWaiters served.coherent.sound
      have sound := Fifo.Sound.wakeAll ((taskRange u).filterMap (wakeable u)) served.coherent.sound
      have final := woken.of_schedule sound scheduled
      obtain ⟨new, slots, serves⟩ := Fifo.serves_exit ((taskRange u).filterMap (wakeable u))
        served.coherent.sound (Function.update_self _ _ _) waiting
      refine ⟨_, new, final, serves.after waiting rfl (List.append_nil _).symm, slots.trans ?_⟩
      rw [((wakeWaiters_rescheduled u).trans (schedule_rescheduled scheduled)).sameTasks.taskList_eq]
      exact wakeable_sublist u

theorem KernelInv.turned_create (inv : KernelInv A base s f) (entry : Option Addr) (arg priority : Nat) :
    Turned f (processCreate A s entry arg priority).2 := by
  rcases processCreate_cases A s entry arg priority with ⟨_, failed⟩ | ⟨p, t, ready, result⟩
  · exact .refl (inv.toLinked.createFailed inv.owns failed).simulates rfl rfl
  · rw [result]
    obtain ⟨_, admitted⟩ := ready.admitted inv.table inv.owns
    have linked := inv.toLinked.admit ready inv.table inv.owns
    refine ⟨_, [p], linked.simulates, .stays rfl rfl, singleton_taskList ?_⟩
    exact (admitted.inTable p).mpr (.inl rfl)

theorem KernelInv.turned_reap (inv : KernelInv A base s f) {target : Addr} (member : s.InTable target)
    (dead : (s.procs target).state = .terminated) : Turned f (OsKernel.Proc.reap A s target) := by
  obtain ⟨_, kept⟩ := inv.reap member dead
  exact .refl kept.simulates rfl rfl

theorem KernelInv.turned_resume (inv : KernelInv A base s f) (pid : Int) (want : Bool) :
    Turned f (processWaitResume A s pid want).2 := by
  rcases processWaitResume_cases (A := A) s pid want with ⟨failed, _⟩ | ⟨target, _, member, _, dead, collected⟩
  · rw [failed]
    exact .refl inv.simulates rfl rfl
  · rw [collected]
    exact inv.turned_reap member dead

/-- A wait changes nothing, reaps its target, or blocks its caller. -/
theorem KernelInv.turned_wait {fuel : Nat} {pid : Int} {want : Bool} {outcome : WaitOutcome}
    (inv : KernelInv A base s f) (ran : processWait A fuel s pid want = some (outcome, s')) : Turned f s' := by
  have unchanged {value : WaitReturn}
      (returned : some (WaitOutcome.returned value, s) = some (outcome, s')) : Turned f s' := by
    obtain ⟨_, rfl⟩ := Prod.mk.inj (Option.some.inj returned)
    exact .refl inv.simulates rfl rfl
  simp only [processWait, inv.simulates.current] at ran
  split at ran
  next => exact unchanged ran
  next notIdle =>
      split at ran
      next => exact unchanged ran
      next =>
          split at ran
          next => exact unchanged ran
          next target found =>
              split at ran
              next =>
                  simp only [Option.bind_eq_bind, Option.bind_eq_some_iff] at ran
                  obtain ⟨t, scheduled, finished⟩ := ran
                  obtain ⟨turned, moved⟩ :=
                    inv.turned_block (fun slot => inv.ne_idle notIdle slot rfl) scheduled
                  rw [if_neg moved] at finished
                  obtain ⟨_, rfl⟩ := Prod.mk.inj (Option.some.inj finished)
                  exact turned
              next dead =>
                  obtain ⟨_, rfl⟩ := Prod.mk.inj (Option.some.inj ran)
                  exact inv.turned_reap (findTask_some found).1 (not_not.mp dead)

/-- Every step of a FIFO run serves the queue. -/
theorem KernelInv.turned (inv : KernelInv A base m.kernel f) (taken : Disciplined A fifoAllow m op m') :
    Turned f m'.kernel := by
  obtain ⟨allowed, enabled, fuel, ran⟩ := taken
  cases op with
  | create entry arg priority =>
      obtain rfl := Option.some.inj ran
      exact inv.turned_create entry arg priority
  | schedule =>
      obtain ⟨s', scheduled, rfl⟩ := Option.map_eq_some_iff.mp ran
      exact inv.turned_schedule scheduled
  | scheduleSjf => cases allowed
  | doTimer =>
      obtain ⟨s', ticked, rfl⟩ := Option.map_eq_some_iff.mp ran
      exact inv.turned_doTimer ticked
  | wake p =>
      obtain rfl := Option.some.inj ran
      exact inv.turned_wake enabled.2
  | block =>
      obtain ⟨s', blocked, rfl⟩ := Option.map_eq_some_iff.mp ran
      rw [schedulerBlock, inv.simulates.current] at blocked
      have notIdle : m.kernel.task 0 ≠ some f.current := by
        intro first
        exact of_decide_eq_true allowed (inv.simulates.current.trans first.symm)
      exact (inv.turned_block notIdle blocked).1
  | setState p state => cases allowed
  | exit code =>
      obtain ⟨⟨outcome, s'⟩, exited, rfl⟩ := Option.map_eq_some_iff.mp ran
      rw [Machine.finishExit_kernel]
      exact inv.turned_exit exited
  | wait pid want =>
      obtain ⟨⟨outcome, s'⟩, waited, rfl⟩ := Option.map_eq_some_iff.mp ran
      have turned := inv.turned_wait waited
      cases outcome with
      | returned value => exact turned
      | suspended => exact turned
  | resume =>
      rw [OsKernel.Proc.exec] at ran
      split at ran
      next pid want _ =>
          obtain rfl := Option.some.inj ran
          exact inv.turned_resume pid want
      next => cases ran

end Steps

section Rounds

/-- With enough fuel a call of `schedule()` returns and keeps the queue linked. -/
theorem Linked.schedule_of_fuel {fuel : Nat} (linked : Linked s f) (enough : f.queue.length < fuel) :
    ∃ s', OsKernel.Proc.schedule fuel s = some s' ∧ Linked s' f.schedule := by
  obtain ⟨s', ran, simulates⟩ := linked.simulates.schedule linked.coherent.sound enough
  refine ⟨s', ran, simulates, ?_⟩
  simpa only [(schedule_rescheduled ran).sameTasks.inTable] using linked.coherent.schedule

/-- Consecutive calls of `schedule()` turn the queue place by place. -/
theorem Linked.rotation {fuel : Nat} (linked : Linked s f) (active : f.Active) (waiting : f.queue ≠ [])
    (enough : f.queue.length < fuel) (k : Nat) :
    ∃ s' f', scheduleTimes fuel k s = some s' ∧ Linked s' f' ∧ f.Rotated k f' := by
  induction k with
  | zero => exact ⟨s, f, rfl, linked, Fifo.rotated_start active linked.coherent.sound⟩
  | succ k ih =>
      obtain ⟨s₁, f₁, ran, linked₁, rotated⟩ := ih
      have length : f₁.queue.length = f.queue.length := by
        have whole := congrArg List.length rotated.order
        rw [List.length_rotate, List.length_cons, List.length_cons] at whole
        omega
      have nonempty : f₁.queue ≠ [] := by
        intro empty
        rw [empty] at length
        exact waiting (List.length_eq_zero_iff.mp length.symm)
      have active₁ : f₁.Active := by
        rw [Fifo.Active, rotated.status, if_pos rfl]
      have enough₁ : f₁.queue.length < fuel := by omega
      obtain ⟨s₂, next, linked₂⟩ := linked₁.schedule_of_fuel enough₁
      refine ⟨s₂, f₁.schedule, ?_, linked₂,
        rotated.schedule (linked₁.coherent.current_not_mem active₁) nonempty⟩
      rw [scheduleTimes, ran, Option.bind_some, next]

theorem KernelInv.roundRobin (inv : KernelInv A base s f) : RoundRobin s := by
  intro cur waiting fuel current queue nonempty enough
  rw [inv.toLinked.readyList_eq] at queue
  obtain rfl := inv.simulates.eq_current current
  subst queue
  have rotation := inv.toLinked.rotation inv.active nonempty enough
  refine ⟨?_, ?_⟩
  · intro k p place
    obtain ⟨s', f', ran, linked, rotated⟩ := rotation (k + 1)
    have inside : k < f.queue.length := (List.getElem?_eq_some_iff.mp place).1
    have front : f'.current = p := by
      have head := congrArg List.head? rotated.order
      rw [List.head?_cons, List.head?_rotate (by rw [List.length_cons]; omega), List.getElem?_cons_succ,
        place] at head
      exact Option.some.inj head
    refine ⟨s', ran, by rw [linked.simulates.current, front], ?_⟩
    rw [linked.simulates.status, rotated.status, if_pos front.symm]
  · obtain ⟨s', f', ran, linked, rotated⟩ := rotation (f.queue.length + 1)
    obtain rfl := rotated.eq_of_round (Fifo.rotated_start inv.active inv.coherent.sound)
    refine ⟨s', ran, linked.simulates.current, linked.simulates.queue, linked.readyList_eq, ?_⟩
    intro p
    rw [linked.simulates.status, inv.simulates.status]

end Rounds

section Records

variable {heap : H} {start : Machine H} {ops : List Op} {r r' : Recorded H}

/-- Every run of the machine has a record. -/
theorem exists_recorded (run : Run (Disciplined A fifoAllow) start ops m) :
    ∃ r, Run (RecordedStep A) (.start start) ops r ∧ r.machine = m := by
  induction run with
  | nil => exact ⟨.start start, .nil, rfl⟩
  | @snoc ops m₁ m₂ op _ taken ih =>
      obtain ⟨r, earlier, rfl⟩ := ih
      exact ⟨r.advance m₂, .snoc earlier ⟨m₂, taken, rfl⟩, rfl⟩

/-- What a run adds to the record is one turn of the queue. -/
theorem KernelInv.recorded (inv : KernelInv A base r.machine.kernel f)
    (run : Run (RecordedStep A) r ops r') :
    ∃ f' new later, KernelInv A base r'.machine.kernel f' ∧ r'.joined = r.joined ++ new ∧
      r'.dispatched = r.dispatched ++ later ∧
      Turn (readyList r.machine.kernel) new later (readyList r'.machine.kernel) := by
  induction run with
  | nil => exact ⟨f, [], [], inv, (List.append_nil _).symm, (List.append_nil _).symm, Turn.refl _⟩
  | snoc _ taken ih =>
      obtain ⟨f₁, new, later, inv₁, joined, dispatched, turn⟩ := ih
      obtain ⟨m', step, rfl⟩ := taken
      obtain ⟨⟨f', inv'⟩, _⟩ := inv₁.step step
      have next := inv₁.turn inv' (inv₁.turned step)
      refine ⟨f', _, _, inv', ?_, ?_, turn.trans next⟩
      · rw [Recorded.advance, joined, List.append_assoc]
      · rw [Recorded.advance, dispatched, List.append_assoc]

/-- A record that agrees with the queue follows the FIFO order from then on. -/
theorem KernelInv.fifoOrder (inv : KernelInv A base r.machine.kernel f)
    (served : r.joined = r.dispatched ++ readyList r.machine.kernel) : FifoOrder A r where
  listed := by
    rw [inv.toLinked.readyList_eq]
    exact inv.simulates.queue
  served := served
  notOvertaken := by
    intro ops r' run
    obtain ⟨_, new, later, _, _, dispatched, turn⟩ := inv.recorded run
    refine ⟨later, dispatched, ?_⟩
    intro p q waiting _ last taken
    have nodup : (readyList r.machine.kernel).Nodup := by
      rw [inv.toLinked.readyList_eq]
      exact inv.coherent.nodup
    rw [served] at last
    obtain ⟨front, back, split, ahead, behind⟩ := last.split waiting nodup
    rw [split] at turn
    exact turn.served_before ahead behind taken
  round := inv.roundRobin

/-- In every FIFO run processes are dispatched in the order in which they last joined the queue. -/
theorem fifo_run_order (booted : Booted A heap start) (run : Run (Disciplined A fifoAllow) start ops m) :
    ∃ r, Run (RecordedStep A) (.start start) ops r ∧ r.machine = m ∧ FifoOrder A r := by
  obtain ⟨procs, contexts, kernel, initialised, rfl⟩ := booted
  obtain ⟨idle, stack, ctx, started⟩ := processInit_started initialised
  have empty : readyList kernel = [] := started.kernelInv.toLinked.readyList_eq
  obtain ⟨r, recorded, same⟩ := exists_recorded run
  obtain ⟨f', new, later, inv, joined, dispatched, turn⟩ :=
    KernelInv.recorded (r := .start (.start kernel)) started.kernelInv recorded
  refine ⟨r, recorded, same, inv.fifoOrder ?_⟩
  change Turn (readyList kernel) new later _ at turn
  rw [empty] at turn
  rw [joined, dispatched]
  exact turn

/-- A wait, an exit with its wake-ups and a reap keep the order, with two processes in the queue. -/
theorem fifo_run_order_sample :
    ∃ m, Run (Disciplined sampleAllocator fifoAllow) sampleStart
        [.create (some 7) 0 2, .create (some 7) 0 2, .create (some 7) 0 2, .schedule, .wait 2 true, .exit 5,
          .schedule, .schedule, .resume] m ∧ (readyList m.kernel).length = 2 ∧
      ∃ r, Run (RecordedStep sampleAllocator) (.start sampleStart)
        [.create (some 7) 0 2, .create (some 7) 0 2, .create (some 7) 0 2, .schedule, .wait 2 true, .exit 5,
          .schedule, .schedule, .resume] r ∧ r.machine = m ∧ FifoOrder sampleAllocator r := by
  obtain ⟨m, run, checked⟩ := exists_run sampleAllocator fifoAllow 20 sampleStart
    [.create (some 7) 0 2, .create (some 7) 0 2, .create (some 7) 0 2, .schedule, .wait 2 true, .exit 5,
      .schedule, .schedule, .resume] (fun m => decide ((readyList m.kernel).length = 2)) (by decide +kernel)
  exact ⟨m, run, of_decide_eq_true checked, fifo_run_order sampleStart_booted run⟩

end Records

end OsKernel.Proc
