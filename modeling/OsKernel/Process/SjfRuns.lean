import OsKernel.Process.Invariant
import OsKernel.Process.SjfPick

/-
This file runs both schedulers in any order.
A switch by `schedule_sjf` leaves a running process in the ready queue, so the queue may name
processes twice; what survives is that every pointer of it stays inside the task table.
-/

namespace OsKernel.Proc
open OsKernel.Library

variable {H : Type} {A : Allocator H} {base : Finset Addr} {s s' : Kernel H}

/-- The current process, the ends of the queue and the links of the tasks are tasks. -/
structure Closed (tasks : Set Addr) (s : Kernel H) : Prop where
  current : ∃ cur ∈ tasks, s.current = some cur
  head : ∀ p, s.readyQueue.head = some p → p ∈ tasks
  tail : ∀ p, s.readyQueue.tail = some p → p ∈ tasks
  links : ∀ p ∈ tasks, ∀ q, s.links p = some q → q ∈ tasks

section Closed

variable {tasks : Set Addr} {p : Addr}

/-- The current process, the ends and the links of the tasks are all that matters. -/
theorem Closed.congr (closed : Closed tasks s) (current : s'.current = s.current)
    (ends : s'.readyQueue = s.readyQueue) (links : ∀ p ∈ tasks, s'.links p = s.links p) : Closed tasks s' where
  current := by simpa only [current] using closed.current
  head := by simpa only [ends] using closed.head
  tail := by simpa only [ends] using closed.tail
  links p member q next := closed.links p member q ((links p member).symm.trans next)

/-- A write that keeps the link of its process keeps everything inside. -/
theorem Closed.onProc (closed : Closed tasks s) (p : Addr) (f : Process → Process)
    (keeps : (f (s.procs p)).next = (s.procs p).next) : Closed tasks (s.onProc p f) := by
  refine closed.congr rfl rfl ?_
  intro q _
  rw [links_onProc_of_keeps s p f keeps]

theorem Closed.link (closed : Closed tasks s) (p : Addr) (link : Option Addr)
    (inside : ∀ q, link = some q → q ∈ tasks) : Closed tasks (s.onProc p fun q => { q with next := link }) := by
  refine ⟨closed.current, closed.head, closed.tail, ?_⟩
  rw [links_onProc_next]
  intro q member r found
  by_cases same : q = p
  · rw [same, Function.update_self] at found
    exact inside r found
  · rw [Function.update_of_ne same] at found
    exact closed.links q member r found

theorem Closed.recount (closed : Closed tasks s) (counter : Addr → Nat) :
    Closed tasks { s with procs := fun q => { s.procs q with counter := counter q } } :=
  ⟨closed.current, closed.head, closed.tail, closed.links⟩

theorem Closed.ends (closed : Closed tasks s) {ends : ReadyQueue} (head : ∀ p, ends.head = some p → p ∈ tasks)
    (tail : ∀ p, ends.tail = some p → p ∈ tasks) : Closed tasks { s with readyQueue := ends } :=
  ⟨closed.current, head, tail, closed.links⟩

theorem Closed.moved (closed : Closed tasks s) (member : p ∈ tasks) : Closed tasks { s with current := some p } :=
  ⟨⟨p, member, rfl⟩, closed.head, closed.tail, closed.links⟩

theorem Closed.add (closed : Closed tasks s) (member : p ∈ tasks) : Closed tasks (schedulerAdd s (some p)) := by
  have only : ∀ q, some p = some q → q ∈ tasks := by
    rintro q ⟨⟩
    exact member
  have cleared := closed.link p none (by simp)
  unfold schedulerAdd
  dsimp only
  split
  · exact cleared.ends only only
  · rename_i head tail first _
    exact (cleared.link tail (some p) only).ends (fun q same => cleared.head q (first.trans same)) only
  · exact cleared

/-- The search follows links, so what it meets is a task. -/
theorem Closed.unlink {fuel : Nat} {cur : Addr} (closed : Closed tasks s) (member : cur ∈ tasks)
    (found : unlinkFrom fuel s p cur = some s') : Closed tasks s' := by
  rcases unlinkFrom_cases closed.links member found with rfl | ⟨c, inside, behind, rfl⟩
  · exact closed
  · have written := closed.link c (s.links p) (closed.links p (closed.links c inside p behind))
    apply written.ends
    · exact written.head
    · intro q last
      dsimp only at last
      split at last
      next => exact Option.some.inj last ▸ inside
      next => exact closed.tail q last

theorem Closed.remove {fuel : Nat} (closed : Closed tasks s)
    (removed : schedulerRemove fuel s (some p) = some s') : Closed tasks s' := by
  unfold schedulerRemove at removed
  cases first : s.readyQueue.head with
  | none =>
      rw [first] at removed
      exact Option.some.inj removed ▸ closed
  | some head =>
      have inside := closed.head head first
      rw [first] at removed
      dsimp only at removed
      split at removed
      · rename_i same
        refine Option.some.inj removed ▸ closed.ends ?_ ?_
        · exact fun q next => closed.links p (same ▸ inside) q next
        · intro q last
          dsimp only at last
          split at last
          · cases last
          · exact closed.tail q last
      · exact closed.unlink inside removed

theorem Closed.next (closed : Closed tasks s) (found : schedulerNext s = some p) : p ∈ tasks := by
  obtain ⟨cur, member, current⟩ := closed.current
  unfold schedulerNext at found
  split at found
  · rename_i head first
    exact Option.some.inj found ▸ closed.head head first
  · rw [current] at found
    exact Option.some.inj found ▸ member

theorem Closed.requeue (closed : Closed tasks s) : Closed tasks (requeueCurrent s) := by
  obtain ⟨cur, member, current⟩ := closed.current
  unfold requeueCurrent
  rw [current]
  dsimp only
  split
  · exact (closed.onProc cur (fun p => { p with state := .ready }) rfl).add member
  · exact closed

theorem Closed.schedule {fuel : Nat} (closed : Closed tasks s) (ran : schedule fuel s = some s') :
    Closed tasks s' := by
  unfold OsKernel.Proc.schedule at ran
  dsimp only at ran
  split at ran
  · exact Option.some.inj ran ▸ closed
  · split at ran
    · exact Option.some.inj ran ▸ closed.requeue
    · rename_i n chosen
      have written := closed.requeue.onProc n (fun p => { p with state := .running }) rfl
      exact (written.moved (closed.next chosen)).remove ran

theorem Closed.wakeSlot (closed : Closed tasks s) (i : Fin 64) (listed : ∀ p, s.task i = some p → p ∈ tasks) :
    Closed tasks (wakeSlot s i) := by
  unfold OsKernel.Proc.wakeSlot
  split
  · rename_i p entry
    split
    · unfold schedulerWake
      dsimp only
      split
      · exact (closed.onProc p (fun p => { p with state := .ready }) rfl).add (listed p entry)
      · exact closed
    · exact closed
  · exact closed

/-- The wake loop adds tasks only. -/
theorem Closed.wakeWaiters (closed : Closed tasks s) (listed : ∀ i p, s.task i = some p → p ∈ tasks) :
    Closed tasks (wakeWaiters s) := by
  unfold OsKernel.Proc.wakeWaiters
  generalize taskRange s = slots
  induction slots generalizing s with
  | nil => exact closed
  | cons i rest ih =>
      have same := (wakeSlot_rescheduled s i).sameTasks.task
      exact ih (closed.wakeSlot i (listed i)) (by rw [same]; exact listed)

theorem Closed.switchTo (closed : Closed tasks s) {next : Option Addr} (inside : ∀ p, next = some p → p ∈ tasks) :
    Closed tasks (switchTo s next) := by
  unfold OsKernel.Proc.switchTo
  split
  · exact closed
  · exact closed
  · rename_i n prev _
    split
    · exact closed
    · have moved := closed.moved (inside n rfl)
      dsimp only
      split
      · exact (moved.onProc prev (fun p => { p with state := .ready }) rfl).onProc n
          (fun p => { p with state := .running }) rfl
      · exact moved.onProc n (fun p => { p with state := .running }) rfl

end Closed

/-- The priority is in range and the counter does not exceed its time slice. -/
def Paced (p : Process) : Prop := p.priority < 5 ∧ p.counter ≤ counterInitValues.getD p.priority 0

/-- No task past slot 0 has priority 0. -/
def Entitled (s : Kernel H) : Prop := ∀ i p, i ≠ 0 → s.task i = some p → (s.procs p).priority ≠ 0

/-- Every pointer stays inside the table, and every task keeps to its time slice. -/
structure SjfInv (A : Allocator H) (base : Finset Addr) (s : Kernel H) : Prop where
  table : TableOk s
  owns : Owns A base s
  closed : Closed {p | s.InTable p} s
  paced : ∀ p, s.InTable p → Paced (s.procs p)

/-- The tasks stay, and no counter grows past a new time slice. -/
structure Repaced (s s' : Kernel H) : Prop where
  same : SameTasks s s'
  counter : ∀ p, (s'.procs p).counter ≤ (s.procs p).counter ∨
    (s'.procs p).counter ≤ counterInitValues.getD ((s.procs p).priority % 5) 0

section Repaced

theorem switchTo_rescheduled (s : Kernel H) (next : Option Addr) : Rescheduled s (switchTo s next) := by
  unfold switchTo
  split
  · exact .refl s
  · exact .refl s
  · split
    · exact .refl s
    · rename_i n prev _ _
      dsimp only
      split
      · exact (rescheduled_onProc { s with current := some n } prev .ready).trans (rescheduled_onProc _ n .running)
      · exact rescheduled_onProc { s with current := some n } n .running

theorem SameTasks.priority (same : SameTasks s s') (p : Addr) : (s'.procs p).priority = (s.procs p).priority := by
  have field := congrArg Process.priority (same.identity p)
  exact field

theorem Rescheduled.counter (same : Rescheduled s s') (p : Addr) : (s'.procs p).counter = (s.procs p).counter := by
  have field := congrArg Process.counter (congrFun (congrArg Kernel.procs same) p)
  exact field

theorem Rescheduled.repaced (same : Rescheduled s s') : Repaced s s' :=
  ⟨same.sameTasks, fun p => .inl (le_of_eq (same.counter p))⟩

theorem Paced.repaced (repaced : Repaced s s') {p : Addr} (paced : Paced (s.procs p)) : Paced (s'.procs p) := by
  obtain ⟨range, bound⟩ := paced
  have counter := repaced.counter p
  rw [Nat.mod_eq_of_lt range] at counter
  rw [Paced, repaced.same.priority p]
  exact ⟨range, by omega⟩

theorem Entitled.of_sameTasks (entitled : Entitled s) (same : SameTasks s s') : Entitled s' := by
  intro i p past entry
  rw [same.task] at entry
  rw [same.priority p]
  exact entitled i p past entry

/-- An operation that moves no task keeps the invariant. -/
theorem SjfInv.repaced (inv : SjfInv A base s) (repaced : Repaced s s') (closed : Closed {p | s.InTable p} s') :
    SjfInv A base s' := by
  have keys : {p | s'.InTable p} = {p | s.InTable p} := Set.ext repaced.same.inTable
  refine ⟨inv.table.of_sameTasks repaced.same, inv.owns.of_sameTasks repaced.same, keys ▸ closed, ?_⟩
  intro p member
  exact (inv.paced p ((repaced.same.inTable p).mp member)).repaced repaced

theorem tick_repaced (s : Kernel H) (cur : Addr) : Repaced s (tick s cur) := by
  refine ⟨sameTasks_onProc s cur _ rfl, ?_⟩
  intro p
  by_cases same : p = cur
  · subst same
    rw [tick, Kernel.onProc_self]
    dsimp only
    split
    · exact .inl (Nat.sub_le _ _)
    · exact .inl (le_refl _)
  · rw [tick, Kernel.onProc_of_ne _ _ _ _ same]
    exact .inl (le_refl _)

theorem refreshSlices_repaced (s : Kernel H) : Repaced s (refreshSlices s).2 := by
  rw [refreshSlices_eq]
  refine ⟨rfl, ?_⟩
  intro p
  dsimp only
  unfold freshSlice
  split
  · exact .inr (le_refl _)
  · exact .inl (le_refl _)

end Repaced

section Calls

variable {fuel : Nat}

theorem SjfInv.schedule (inv : SjfInv A base s) (ran : schedule fuel s = some s') : SjfInv A base s' :=
  inv.repaced (schedule_rescheduled ran).repaced (inv.closed.schedule ran)

theorem SjfInv.doTimer (inv : SjfInv A base s) (ran : doTimer fuel s = some s') :
    SjfInv A base s' ∧ SameTasks s s' := by
  obtain ⟨cur, _, current⟩ := inv.closed.current
  have ticked := inv.repaced (tick_repaced s cur) (inv.closed.onProc cur _ rfl)
  unfold OsKernel.Proc.doTimer at ran
  rw [current] at ran
  dsimp only at ran
  split at ran
  · exact ⟨ticked.schedule ran, (tick_repaced s cur).same.trans (schedule_rescheduled ran).sameTasks⟩
  · exact Option.some.inj ran ▸ ⟨ticked, (tick_repaced s cur).same⟩

theorem SjfInv.switchTo (inv : SjfInv A base s) (i : Fin 64) :
    SjfInv A base (switchTo s (s.task i)) ∧ SameTasks s (switchTo s (s.task i)) := by
  have switched := switchTo_rescheduled s (s.task i)
  exact ⟨inv.repaced switched.repaced (inv.closed.switchTo fun p entry => ⟨i, entry⟩), switched.sameTasks⟩

/-- Each call refreshes the slices some times and then switches or returns. -/
theorem SjfInv.scheduleSjf (inv : SjfInv A base s) (ran : scheduleSjf fuel s = some s') :
    SjfInv A base s' ∧ SameTasks s s' := by
  induction fuel generalizing s with
  | zero => simp [OsKernel.Proc.scheduleSjf] at ran
  | succ fuel ih =>
      obtain ⟨cur, _, current⟩ := inv.closed.current
      have refreshed := refreshSlices_repaced s
      have closed : Closed {p | s.InTable p} (refreshSlices s).2 := by
        rw [refreshSlices_eq]
        exact inv.closed.recount (freshSlice s)
      unfold OsKernel.Proc.scheduleSjf at ran
      rw [current] at ran
      dsimp only at ran
      split at ran
      · split at ran
        · obtain ⟨kept, same⟩ := ih (inv.repaced refreshed closed) ran
          exact ⟨kept, refreshed.same.trans same⟩
        · split at ran
          · exact Option.some.inj ran ▸ inv.switchTo 0
          · exact Option.some.inj ran ▸ ⟨inv, .refl s⟩
      · exact Option.some.inj ran ▸ inv.switchTo (sjfPick s)

end Calls

section Exit

variable {cur : Addr} {code : Int}

theorem Entitled.exiting (entitled : Entitled s) (exiting : Exiting s cur code s') : Entitled s' := by
  intro i p past entry
  rw [exiting.task] at entry
  rw [exiting.kept Process.priority (fun _ => rfl) p]
  exact entitled i p past entry

theorem SjfInv.exitRelease (inv : SjfInv A base s) (member : s.InTable cur) (code : Int) :
    SjfInv A base (exitRelease A s cur code) ∧ Exiting s cur code (exitRelease A s cur code) := by
  have exiting := exitRelease_exiting (A := A) code (inv.owns.noMap cur member)
  have inTable := Kernel.inTable_congr exiting.task
  have keys : {p | (OsKernel.Proc.exitRelease A s cur code).InTable p} = {p | s.InTable p} := Set.ext inTable
  refine ⟨⟨inv.table.exiting exiting, inv.owns.exitRelease code member, ?_, ?_⟩, exiting⟩
  · rw [keys]
    refine inv.closed.congr exiting.current exiting.readyQueue ?_
    intro p _
    rw [exiting.links]
  · intro p present
    rw [Paced, exiting.kept Process.priority (fun _ => rfl) p, exiting.kept Process.counter (fun _ => rfl) p]
    exact inv.paced p ((inTable p).mp present)

theorem SjfInv.wakeWaiters (inv : SjfInv A base s) : SjfInv A base (wakeWaiters s) ∧ SameTasks s (wakeWaiters s) := by
  have same := wakeWaiters_rescheduled s
  have closed := inv.closed.wakeWaiters fun i p entry => ⟨i, entry⟩
  exact ⟨inv.repaced same.repaced closed, same.sameTasks⟩

/-- An exit releases the caller, takes it out of the queue, wakes the waiters and schedules. -/
theorem SjfInv.exit {fuel : Nat} {outcome : ExitOutcome} (inv : SjfInv A base s)
    (ran : processExit A fuel s code = some (outcome, s')) :
    SjfInv A base s' ∧ (Entitled s → Entitled s') := by
  obtain ⟨cur, member, current⟩ := inv.closed.current
  unfold processExit at ran
  rw [current] at ran
  dsimp only at ran
  split at ran
  · obtain ⟨_, rfl⟩ := Prod.mk.inj (Option.some.inj ran)
    exact ⟨inv, id⟩
  · simp only [Option.bind_eq_bind, Option.bind_eq_some_iff] at ran
    obtain ⟨removed, first, scheduled, second, result⟩ := ran
    obtain ⟨_, rfl⟩ := Prod.mk.inj (Option.some.inj result)
    obtain ⟨released, exiting⟩ := inv.exitRelease member code
    have unlinked := schedulerRemove_relinked first
    have left := released.repaced unlinked.rescheduled.repaced (released.closed.remove first)
    obtain ⟨woken, wakes⟩ := left.wakeWaiters
    refine ⟨woken.schedule second, ?_⟩
    intro entitled
    have later := (unlinked.sameTasks.trans wakes).trans (schedule_rescheduled second).sameTasks
    exact (entitled.exiting exiting).of_sameTasks later

end Exit

section Create

variable {t : Kernel H} {p : Addr} {priority : Nat}

theorem SjfInv.createFailed (inv : SjfInv A base s) (failed : CreateFailed A s s') :
    SjfInv A base s' ∧ (Entitled s → Entitled s') := by
  have inTable := Kernel.inTable_congr failed.task
  have same : ∀ q, s.InTable q → s'.procs q = s.procs q :=
    fun q member => failed.procs q (inv.owns.live_of_inTable member)
  have keys : {q | s'.InTable q} = {q | s.InTable q} := Set.ext inTable
  refine ⟨⟨inv.table.createFailed inv.owns failed, inv.owns.createFailed failed, ?_, ?_⟩, ?_⟩
  · rw [keys]
    refine inv.closed.congr failed.current failed.readyQueue ?_
    intro q member
    rw [Kernel.links, Kernel.links, same q member]
  · intro q present
    rw [same q ((inTable q).mp present)]
    exact inv.paced q ((inTable q).mp present)
  · intro entitled i q past entry
    rw [failed.task] at entry
    rw [same q ⟨i, entry⟩]
    exact entitled i q past entry

theorem processAdmit_counter (s : Kernel H) (p q : Addr) :
    ((processAdmit s p).procs q).counter = (s.procs q).counter := by
  have ready := rescheduled_onProc s p .ready
  have added := (schedulerAdd_relinked (installTask (processSetState s (some p) .ready) p) p).rescheduled
  obtain ⟨task, count, installed⟩ := installTask_eq (processSetState s (some p) .ready) p
  rw [processAdmit, added.counter q, installed]
  exact ready.counter q

theorem processAdmit_priority (s : Kernel H) (p q : Addr) :
    ((processAdmit s p).procs q).priority = (s.procs q).priority := by
  have field := congrArg Process.priority (processAdmit_identity s p q)
  exact field

/-- A new process starts with the full slice of its priority. -/
theorem newProcess_paced (pid : Int) (priority : Nat) : Paced (newProcess pid priority) := by
  unfold newProcess Paced
  dsimp only
  split
  · exact ⟨by omega, le_refl _⟩
  · exact ⟨by omega, le_refl _⟩

/-- A new process has no link, and only its own link, priority and counter are new. -/
theorem SjfInv.admit (inv : SjfInv A base s) (ready : CreateReady A s priority p t) :
    SjfInv A base (processAdmit t p) ∧ (priority ≠ 0 → Entitled s → Entitled (processAdmit t p)) := by
  obtain ⟨table, admitted⟩ := ready.admitted inv.table inv.owns
  have owns := ready.owns inv.table inv.owns
  obtain ⟨_, stack, ctx, regs, pending⟩ := ready
  have kept : ∀ q, s.InTable q → q ≠ p := fun _ => admitted.ne
  have keys : {q | (processAdmit t p).InTable q} = insert p {q | s.InTable q} := Set.ext admitted.inTable
  have closed : Closed (insert p {q | s.InTable q}) t := by
    obtain ⟨cur, member, current⟩ := inv.closed.current
    refine ⟨⟨cur, .inr member, pending.current.trans current⟩, ?_, ?_, ?_⟩
    · rw [pending.readyQueue]
      exact fun q first => .inr (inv.closed.head q first)
    · rw [pending.readyQueue]
      exact fun q last => .inr (inv.closed.tail q last)
    · intro q listed r next
      rcases listed with rfl | old
      · rw [Kernel.links, pending.process] at next
        cases next
      · rw [Kernel.links, pending.others q (kept q old)] at next
        exact .inr (inv.closed.links q old r next)
  have queued : Closed (insert p {q | s.InTable q}) (processAdmit t p) := by
    have prepared := closed.onProc p (fun q => { q with state := .ready }) rfl
    obtain ⟨task, count, installed⟩ := installTask_eq (processSetState t (some p) .ready) p
    have slotted : Closed (insert p {q | s.InTable q}) (installTask (processSetState t (some p) .ready) p) := by
      rw [installed]
      exact prepared.congr rfl rfl fun _ _ => rfl
    exact slotted.add (Set.mem_insert p _)
  refine ⟨⟨table, owns, keys ▸ queued, ?_⟩, ?_⟩
  · intro q member
    rw [Paced, processAdmit_priority, processAdmit_counter]
    rcases (admitted.inTable q).mp member with rfl | old
    · rw [pending.process]
      exact newProcess_paced s.nextPid priority
    · rw [pending.others q (kept q old)]
      exact inv.paced q old
  · intro nonzero entitled i q past entry
    rw [processAdmit_priority]
    by_cases new : q = p
    · rw [new, pending.process]
      change (if priority < 5 then priority else 4) ≠ 0
      split <;> omega
    · rw [pending.others q new]
      exact entitled i q past (admitted.entry new entry)

end Create

section Runs

variable {heap : H} {start m m' : Machine H} {ops : List Op} {op : Op}

/-- Creations, both schedulers, the timer and exits run in any order. -/
def sjfAllow (_ : Machine H) : Op → Bool
  | .create _ _ _ => true
  | .schedule => true
  | .scheduleSjf => true
  | .doTimer => true
  | .exit _ => true
  | _ => false

/-- The priority that an operation asks for. -/
def Op.priority : Op → Option Nat
  | .create _ _ priority => some priority
  | _ => none

theorem SjfInv.step (inv : SjfInv A base m.kernel) (taken : Disciplined A sjfAllow m op m') :
    SjfInv A base m'.kernel ∧ (op.priority ≠ some 0 → Entitled m.kernel → Entitled m'.kernel) := by
  obtain ⟨allowed, _, fuel, ran⟩ := taken
  cases op with
  | create entry arg priority =>
      obtain rfl := Option.some.inj ran
      rcases processCreate_cases A m.kernel entry arg priority with ⟨_, failed⟩ | ⟨p, t, ready, result⟩
      · obtain ⟨kept, entitled⟩ := inv.createFailed failed
        exact ⟨kept, fun _ => entitled⟩
      · obtain ⟨kept, entitled⟩ := inv.admit ready
        rw [result]
        refine ⟨kept, ?_⟩
        intro nonzero
        exact entitled fun zero => nonzero (congrArg some zero)
  | schedule =>
      simp only [exec, Option.map_eq_some_iff] at ran
      obtain ⟨kernel, scheduled, rfl⟩ := ran
      exact ⟨inv.schedule scheduled, fun _ entitled => entitled.of_sameTasks (schedule_rescheduled scheduled).sameTasks⟩
  | scheduleSjf =>
      simp only [exec, Option.map_eq_some_iff] at ran
      obtain ⟨kernel, scheduled, rfl⟩ := ran
      obtain ⟨kept, same⟩ := inv.scheduleSjf scheduled
      exact ⟨kept, fun _ entitled => entitled.of_sameTasks same⟩
  | doTimer =>
      simp only [exec, Option.map_eq_some_iff] at ran
      obtain ⟨kernel, ticked, rfl⟩ := ran
      obtain ⟨kept, same⟩ := inv.doTimer ticked
      exact ⟨kept, fun _ entitled => entitled.of_sameTasks same⟩
  | exit code =>
      simp only [exec, Option.map_eq_some_iff] at ran
      obtain ⟨result, exited, rfl⟩ := ran
      obtain ⟨kept, entitled⟩ := inv.exit exited
      rw [Machine.finishExit_kernel]
      exact ⟨kept, fun _ => entitled⟩
  | wake => cases allowed
  | block => cases allowed
  | setState => cases allowed
  | wait => cases allowed
  | resume => cases allowed

theorem Started.sjfInv {idle stack ctx : Addr} (started : Started A heap idle stack ctx s) :
    SjfInv A (A.live heap) s ∧ Entitled s := by
  have inv := started.kernelInv
  refine ⟨⟨inv.table, inv.owns, ⟨⟨idle, (started.inTable idle).mpr rfl, started.current⟩, ?_, ?_, ?_⟩, ?_⟩, ?_⟩
  · simp [started.readyQueue]
  · simp [started.readyQueue]
  · intro p member q next
    rw [Kernel.links, (started.inTable p).mp member, started.process] at next
    cases next
  · intro p member
    rw [(started.inTable p).mp member, started.process]
    exact ⟨by simp [idleProcess, Process.zero], by simp [idleProcess, Process.zero]⟩
  · intro i p past entry
    rw [started.task, Function.update_of_ne past] at entry
    cases entry

/-- Along every run the invariant holds, and without a creation at priority 0 no task has priority 0. -/
theorem sjf_run_inv (booted : Booted A heap start) (run : Run (Disciplined A sjfAllow) start ops m) :
    SjfInv A (A.live heap) m.kernel ∧ ((∀ op ∈ ops, op.priority ≠ some 0) → Entitled m.kernel) := by
  refine run.invariant (fun ops m => SjfInv A (A.live heap) m.kernel ∧
    ((∀ op ∈ ops, op.priority ≠ some 0) → Entitled m.kernel)) ?_ ?_
  · obtain ⟨procs, contexts, kernel, initialised, rfl⟩ := booted
    obtain ⟨idle, stack, ctx, started⟩ := processInit_started initialised
    obtain ⟨inv, entitled⟩ := started.sjfInv
    exact ⟨inv, fun _ => entitled⟩
  · intro ops m op m' _ holds taken
    obtain ⟨inv, entitled⟩ := holds
    obtain ⟨kept, later⟩ := inv.step taken
    refine ⟨kept, ?_⟩
    intro nonzero
    exact later (nonzero op (by simp)) (entitled fun earlier listed => nonzero earlier (by simp [listed]))

end Runs

end OsKernel.Proc
