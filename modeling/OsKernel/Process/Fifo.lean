import OsKernel.Process.Kernel

/-
This file states what the scheduler of `scheduler.c` is for.
One process runs, the ready ones stand in a list, and the list is served in order.
-/

namespace OsKernel.Proc

variable {α : Type*} [DecidableEq α]

/-- The abstract scheduler knows the running process, the waiting ones and every status. -/
structure Fifo (α : Type*) where
  current : α
  queue : List α
  status : α → ProcessState

namespace Fifo

def setStatus (f : Fifo α) (p : α) (status : ProcessState) : Fifo α :=
  { f with status := Function.update f.status p status }

def enqueue (f : Fifo α) (p : α) : Fifo α := { f with queue := f.queue ++ [p] }

/-- A running process goes back to the end of the list. -/
def requeue (f : Fifo α) : Fifo α :=
  if f.status f.current = .running then (f.setStatus f.current .ready).enqueue f.current else f

def dispatch (f : Fifo α) (p : α) : Fifo α :=
  { f.setStatus p .running with current := p, queue := f.queue.erase p }

/-- The first process of the list runs next. -/
def schedule (f : Fifo α) : Fifo α :=
  match f.queue with
  | [] => f
  | p :: _ => if f.current = p then f else f.requeue.dispatch p

/-- A blocked process joins the list. -/
def wake (f : Fifo α) (p : α) : Fifo α :=
  if f.status p = .blocked then (f.setStatus p .ready).enqueue p else f

/-- Each process of the list is woken in turn. -/
def wakeAll (f : Fifo α) (ps : List α) : Fifo α := ps.foldl wake f

def remove (f : Fifo α) (p : α) : Fifo α := { f with queue := f.queue.erase p }

/-- Every waiting process is ready. -/
def Sound (f : Fifo α) : Prop := ∀ p ∈ f.queue, f.status p = .ready

/-- The list holds each ready task once, and no task but the current one runs. -/
structure Coherent (tasks : Set α) (f : Fifo α) : Prop where
  nodup : f.queue.Nodup
  ready : ∀ p, p ∈ f.queue ↔ p ∈ tasks ∧ f.status p = .ready
  present : f.current ∈ tasks
  single : ∀ p ∈ tasks, f.status p = .running → p = f.current

/-- The current process really runs. -/
def Active (f : Fifo α) : Prop := f.status f.current = .running

/-- The idle task runs or waits for its turn. -/
def Attends (f : Fifo α) (idle : α) : Prop := f.current ≠ idle → idle ∈ f.queue

variable {tasks : Set α} {f : Fifo α}

omit [DecidableEq α] in
theorem Sound.not_mem_queue (sound : f.Sound) {p : α} (other : f.status p ≠ .ready) :
    p ∉ f.queue := fun member => other (sound p member)

omit [DecidableEq α] in
theorem Coherent.sound (coherent : Coherent tasks f) : f.Sound :=
  fun p member => ((coherent.ready p).mp member).2

omit [DecidableEq α] in
/-- The list never names a task that is not ready. -/
theorem Coherent.not_mem_queue (coherent : Coherent tasks f) {p : α} (other : f.status p ≠ .ready) :
    p ∉ f.queue := coherent.sound.not_mem_queue other

omit [DecidableEq α] in
theorem Coherent.current_not_mem (coherent : Coherent tasks f) (active : f.Active) :
    f.current ∉ f.queue :=
  coherent.not_mem_queue (by rw [show f.status f.current = .running from active]; decide)

/-- A nonempty list hands the processor to its first process. -/
theorem schedule_cons {p : α} {rest : List α} (queue : f.queue = p :: rest)
    (different : f.current ≠ p) :
    f.schedule =
      if f.status f.current = .running then
        ⟨p, rest ++ [f.current],
          Function.update (Function.update f.status f.current .ready) p .running⟩
      else ⟨p, rest, Function.update f.status p .running⟩ := by
  unfold schedule
  rw [queue]
  dsimp only
  rw [if_neg different]
  unfold requeue
  split
  · simp [dispatch, enqueue, setStatus, queue]
  · simp [dispatch, setStatus, queue]

/-- Scheduling keeps the list coherent, in whatever status the current process is. -/
theorem Coherent.schedule (coherent : Coherent tasks f) : Coherent tasks f.schedule := by
  cases queue : f.queue with
  | nil =>
      have same : f.schedule = f := by simp [Fifo.schedule, queue]
      rwa [same]
  | cons p rest =>
    by_cases different : f.current = p
    · have same : f.schedule = f := by simp [Fifo.schedule, queue, different]
      rwa [same]
    · have head := (coherent.ready p).mp (by simp [queue])
      have apart : (p :: rest).Nodup := queue ▸ coherent.nodup
      have members : ∀ q, q ∈ p :: rest ↔ q ∈ tasks ∧ f.status q = .ready := by
        intro q
        rw [← queue]
        exact coherent.ready q
      rw [schedule_cons queue different]
      by_cases running : f.status f.current = .running
      · rw [if_pos running]
        refine ⟨?_, ?_, head.1, ?_⟩
        · have inner := (List.nodup_cons.mp apart).2
          have outside : f.current ∉ p :: rest := queue ▸ coherent.current_not_mem running
          have last : f.current ∉ rest := fun member => outside (List.mem_cons_of_mem p member)
          simpa using inner.concat last
        · intro q
          by_cases isHead : q = p
          · subst isHead
            simp [Ne.symm different, (List.nodup_cons.mp apart).1]
          · by_cases isCurrent : q = f.current
            · subst isCurrent
              simp [isHead, coherent.present]
            · have old := members q
              simp only [List.mem_cons, isHead, false_or] at old
              simp [isHead, isCurrent, old]
        · intro q member runs
          by_cases isHead : q = p
          · exact isHead
          · by_cases isCurrent : q = f.current
            · subst isCurrent
              simp [isHead] at runs
            · simp only [Function.update_of_ne isHead, Function.update_of_ne isCurrent] at runs
              exact absurd (coherent.single q member runs) isCurrent
      · rw [if_neg running]
        refine ⟨(List.nodup_cons.mp apart).2, ?_, head.1, ?_⟩
        · intro q
          by_cases isHead : q = p
          · subst isHead
            simp [(List.nodup_cons.mp apart).1]
          · have old := members q
            simp only [List.mem_cons, isHead, false_or] at old
            simp [isHead, old]
        · intro q member runs
          by_cases isHead : q = p
          · exact isHead
          · simp only [Function.update_of_ne isHead] at runs
            have same := coherent.single q member runs
            exact absurd (same ▸ runs) running

/-- A process that is dispatched runs. -/
theorem schedule_active (waiting : f.queue ≠ []) (outside : f.current ∉ f.queue) :
    f.schedule.Active ∧ f.schedule.current ≠ f.current := by
  cases queue : f.queue with
  | nil => exact absurd queue waiting
  | cons p rest =>
      have different : f.current ≠ p := by
        intro same
        exact outside (by simp [queue, same])
      rw [schedule_cons queue different]
      split
      · exact ⟨by simp [Active], different.symm⟩
      · exact ⟨by simp [Active], different.symm⟩

/-- An active process stays active when nothing waits. -/
theorem Coherent.schedule_active_of_active (coherent : Coherent tasks f) (active : f.Active) :
    f.schedule.Active := by
  by_cases waiting : f.queue = []
  · simpa [Fifo.schedule, waiting] using active
  · exact (schedule_active waiting (coherent.current_not_mem active)).1

/-- The idle task goes back to the list when it is preempted. -/
theorem Attends.schedule {idle : α} (attends : f.Attends idle)
    (idleRuns : f.current = idle → f.Active) : f.schedule.Attends idle := by
  cases queue : f.queue with
  | nil =>
      have same : f.schedule = f := by simp [Fifo.schedule, queue]
      rwa [same]
  | cons p rest =>
      by_cases same : f.current = p
      · have unchanged : f.schedule = f := by simp [Fifo.schedule, queue, same]
        rwa [unchanged]
      · rw [schedule_cons queue same]
        by_cases isIdle : f.current = idle
        · have running : f.status f.current = .running := idleRuns isIdle
          rw [if_pos running]
          intro _
          simp [isIdle]
        · have member : idle ∈ p :: rest := queue ▸ attends isIdle
          split
          · intro different
            rcases List.mem_cons.mp member with head | later
            · exact absurd head.symm different
            · simp [later]
          · intro different
            rcases List.mem_cons.mp member with head | later
            · exact absurd head.symm different
            · exact later

/-- Waking a task keeps the list coherent. -/
theorem Coherent.wake (coherent : Coherent tasks f) {p : α} (member : p ∈ tasks) :
    Coherent tasks (f.wake p) := by
  unfold Fifo.wake
  split
  · rename_i blocked
    have outside : p ∉ f.queue := coherent.not_mem_queue (by rw [blocked]; decide)
    refine ⟨?_, ?_, coherent.present, ?_⟩
    · simpa [setStatus, enqueue] using coherent.nodup.concat outside
    · intro q
      simp only [setStatus, enqueue, List.mem_append, List.mem_singleton]
      by_cases same : q = p
      · subst same
        simp [member]
      · simp [same, coherent.ready q]
    · intro q task runs
      by_cases same : q = p
      · subst same
        simp [setStatus, enqueue] at runs
      · simp only [setStatus, enqueue, Function.update_of_ne same] at runs
        exact coherent.single q task runs
  · exact coherent

/-- Waking keeps every waiting process ready. -/
theorem Sound.wake (sound : f.Sound) (p : α) : (f.wake p).Sound := by
  unfold Fifo.wake
  split
  · intro q member
    by_cases same : q = p
    · subst same
      simp [setStatus, enqueue]
    · simp only [setStatus, enqueue, List.mem_append, List.mem_singleton, same, or_false] at member
      simpa [setStatus, enqueue, same] using sound q member
  · exact sound

@[simp] theorem wake_current (f : Fifo α) (p : α) : (f.wake p).current = f.current := by
  unfold Fifo.wake
  split <;> rfl

/-- Waking changes no status but that of a blocked process. -/
theorem wake_status_of_not_blocked {p q : α} (other : f.status q ≠ .blocked) :
    (f.wake p).status q = f.status q := by
  unfold Fifo.wake
  split
  · rename_i blocked
    have different : q ≠ p := by
      intro same
      exact other (same ▸ blocked)
    simp [setStatus, enqueue, different]
  · rfl

theorem wake_status_of_ne {p q : α} (different : q ≠ p) : (f.wake p).status q = f.status q := by
  unfold Fifo.wake
  split
  · simp [setStatus, enqueue, different]
  · rfl

/-- Waking drops nobody from the list. -/
theorem mem_wake_queue {p q : α} (member : q ∈ f.queue) : q ∈ (f.wake p).queue := by
  unfold Fifo.wake
  split
  · simp [setStatus, enqueue, member]
  · exact member

theorem Attends.wake {idle p : α} (attends : f.Attends idle) : (f.wake p).Attends idle := by
  intro different
  exact mem_wake_queue (attends (by simpa using different))

/-- A task that is not in the list may stop in any status that is not ready and not running. -/
theorem Coherent.stop (coherent : Coherent tasks f) {p : α} (unqueued : f.status p ≠ .ready)
    (status : ProcessState) (notReady : status ≠ .ready) (notRunning : status ≠ .running) :
    Coherent tasks (f.setStatus p status) := by
  have outside := coherent.not_mem_queue unqueued
  refine ⟨coherent.nodup, ?_, coherent.present, ?_⟩
  · intro q
    by_cases same : q = p
    · subst same
      simp [setStatus, outside, notReady]
    · simp [setStatus, same, coherent.ready q]
  · intro q task runs
    by_cases same : q = p
    · subst same
      simp [setStatus, notRunning] at runs
    · simp only [setStatus, Function.update_of_ne same] at runs
      exact coherent.single q task runs

/-- A task may stop and leave the list at once. -/
theorem Coherent.retire (coherent : Coherent tasks f) (p : α) (status : ProcessState)
    (notReady : status ≠ .ready) (notRunning : status ≠ .running) :
    Coherent tasks ((f.setStatus p status).remove p) := by
  refine ⟨coherent.nodup.erase p, ?_, coherent.present, ?_⟩
  · intro q
    by_cases same : q = p
    · subst same
      simp [setStatus, remove, notReady, coherent.nodup.not_mem_erase]
    · simp [setStatus, remove, same, coherent.ready q]
  · intro q task runs
    by_cases same : q = p
    · subst same
      simp [setStatus, remove, notRunning] at runs
    · simp only [setStatus, remove, Function.update_of_ne same] at runs
      exact coherent.single q task runs

/-- A new task joins the table and the list together. -/
theorem Coherent.admit (coherent : Coherent tasks f) {p : α} (fresh : p ∉ tasks) :
    Coherent (insert p tasks) ((f.setStatus p .ready).enqueue p) := by
  have outside : p ∉ f.queue := fun member => fresh ((coherent.ready p).mp member).1
  have other : f.current ≠ p := fun same => fresh (same ▸ coherent.present)
  refine ⟨?_, ?_, Set.mem_insert_of_mem p coherent.present, ?_⟩
  · simpa [setStatus, enqueue] using coherent.nodup.concat outside
  · intro q
    by_cases same : q = p
    · subst same
      simp [setStatus, enqueue]
    · simp [setStatus, enqueue, same, coherent.ready q]
  · intro q task runs
    by_cases same : q = p
    · subst same
      simp [setStatus, enqueue] at runs
    · simp only [setStatus, enqueue, Function.update_of_ne same] at runs
      exact coherent.single q (task.resolve_left same) runs

omit [DecidableEq α] in
/-- A task that neither waits nor runs can leave the table. -/
theorem Coherent.discard (coherent : Coherent tasks f) {p : α} (notReady : f.status p ≠ .ready)
    (other : f.current ≠ p) : Coherent (tasks \ {p}) f := by
  refine ⟨coherent.nodup, ?_, ⟨coherent.present, other⟩, ?_⟩
  · intro q
    rw [coherent.ready q]
    constructor
    · rintro ⟨member, ready⟩
      refine ⟨⟨member, ?_⟩, ready⟩
      intro same
      exact notReady (Set.mem_singleton_iff.mp same ▸ ready)
    · rintro ⟨member, ready⟩
      exact ⟨member.1, ready⟩
  · intro q task runs
    exact coherent.single q task.1 runs

omit [DecidableEq α] in
/-- Only the statuses of the tasks matter. -/
theorem Coherent.withStatus (coherent : Coherent tasks f) {status : α → ProcessState}
    (same : ∀ p ∈ tasks, status p = f.status p) : Coherent tasks { f with status := status } where
  nodup := coherent.nodup
  ready p := by
    rw [coherent.ready p]
    exact and_congr_right fun member => by simp only [same p member]
  present := coherent.present
  single p member runs := coherent.single p member ((same p member).symm.trans runs)

/-- Removing a process that is not in the list changes nothing. -/
theorem remove_of_not_mem {p : α} (outside : p ∉ f.queue) : f.remove p = f := by
  unfold Fifo.remove
  rw [List.erase_of_not_mem outside]

/-- A status outside the list survives a call of the scheduler, unless it is the running one. -/
theorem schedule_status {p : α} (outside : p ∉ f.queue)
    (stopped : p = f.current → f.status p ≠ .running) : f.schedule.status p = f.status p := by
  cases queue : f.queue with
  | nil => simp [schedule, queue]
  | cons n rest =>
      by_cases same : f.current = n
      · simp [schedule, queue, same]
      · have different : p ≠ n := by
          intro equal
          exact outside (by simp [queue, equal])
        rw [schedule_cons queue same]
        split
        · rename_i running
          have other : p ≠ f.current := fun equal => stopped equal (equal.symm ▸ running)
          simp [different, other]
        · simp [different]

/-- The scheduler blocks nobody and terminates nobody. -/
theorem Sound.schedule_status_iff (sound : f.Sound) (status : ProcessState)
    (notReady : status ≠ .ready) (notRunning : status ≠ .running) (p : α) :
    f.schedule.status p = status ↔ f.status p = status := by
  by_cases idle : p ∉ f.queue ∧ (p = f.current → f.status p ≠ .running)
  · rw [schedule_status idle.1 idle.2]
  · have before : f.status p ≠ status := by
      intro same
      apply idle
      refine ⟨sound.not_mem_queue (same ▸ notReady), fun _ running => notRunning ?_⟩
      rw [← same, running]
    have after : f.schedule.status p = .ready ∨ f.schedule.status p = .running ∨
        f.schedule.status p = f.status p := by
      cases queue : f.queue with
      | nil => simp [schedule, queue]
      | cons n rest =>
          by_cases same : f.current = n
          · simp [schedule, queue, same]
          · rw [schedule_cons queue same]
            by_cases head : p = n
            · split <;> simp [head]
            · by_cases current : p = f.current
              · split <;> simp [current, same]
              · split <;> simp [head, current]
    constructor
    · intro equal
      rcases after with ready | running | unchanged
      · exact absurd (equal.symm.trans ready) notReady
      · exact absurd (equal.symm.trans running) notRunning
      · exact absurd (unchanged.symm.trans equal) before
    · intro equal
      exact absurd equal before

/-- A wake-up blocks nobody. -/
theorem wake_blocked {p q : α} (stopped : (f.wake p).status q = .blocked) :
    f.status q = .blocked := by
  unfold wake at stopped
  split at stopped
  · by_cases same : q = p
    · simp [setStatus, enqueue, same] at stopped
    · simpa [setStatus, enqueue, same] using stopped
  · exact stopped

theorem wake_terminated (p q : α) :
    (f.wake p).status q = .terminated ↔ f.status q = .terminated := by
  unfold wake
  split
  · rename_i blocked
    by_cases same : q = p
    · simp [setStatus, enqueue, same, blocked]
    · simp [setStatus, enqueue, same]
  · exact Iff.rfl

/-- A process that was to be woken is not blocked afterwards. -/
theorem wake_self (p : α) : (f.wake p).status p ≠ .blocked := by
  unfold wake
  split
  · simp [setStatus, enqueue]
  · assumption

section WakeAll

variable (ps : List α)

@[simp] theorem wakeAll_nil : f.wakeAll [] = f := rfl

@[simp] theorem wakeAll_cons (p : α) : f.wakeAll (p :: ps) = (f.wake p).wakeAll ps := rfl

theorem wakeAll_current : (f.wakeAll ps).current = f.current := by
  induction ps generalizing f with
  | nil => rfl
  | cons p rest ih => rw [wakeAll_cons, ih, wake_current]

theorem Coherent.wakeAll (coherent : Coherent tasks f) (members : ∀ p ∈ ps, p ∈ tasks) :
    Coherent tasks (f.wakeAll ps) := by
  induction ps generalizing f with
  | nil => exact coherent
  | cons p rest ih =>
      exact ih (coherent.wake (members p (by simp))) fun q later => members q (by simp [later])

theorem Sound.wakeAll (sound : f.Sound) : (f.wakeAll ps).Sound := by
  induction ps generalizing f with
  | nil => exact sound
  | cons p rest ih => exact ih (sound.wake p)

theorem mem_wakeAll_queue {q : α} (member : q ∈ f.queue) : q ∈ (f.wakeAll ps).queue := by
  induction ps generalizing f with
  | nil => exact member
  | cons p rest ih => exact ih (mem_wake_queue member)

theorem wakeAll_blocked {q : α} (stopped : (f.wakeAll ps).status q = .blocked) :
    f.status q = .blocked ∧ q ∉ ps := by
  induction ps generalizing f with
  | nil => exact ⟨stopped, by simp⟩
  | cons p rest ih =>
      obtain ⟨earlier, outside⟩ := ih stopped
      refine ⟨wake_blocked earlier, ?_⟩
      simp only [List.mem_cons, not_or]
      refine ⟨?_, outside⟩
      intro same
      rw [same] at earlier
      exact wake_self p earlier

theorem wakeAll_status_of_not_blocked {q : α} (other : f.status q ≠ .blocked) :
    (f.wakeAll ps).status q = f.status q := by
  induction ps generalizing f with
  | nil => rfl
  | cons p rest ih =>
      have same := wake_status_of_not_blocked (p := p) other
      rw [wakeAll_cons, ih (by rwa [same]), same]

/-- A blocked process that the loop wakes is ready afterwards. -/
theorem wakeAll_ready {q : α} (waiting : f.status q = .blocked)
    (woken : (f.wakeAll ps).status q ≠ .blocked) : (f.wakeAll ps).status q = .ready := by
  induction ps generalizing f with
  | nil => exact absurd waiting woken
  | cons p rest ih =>
      rw [wakeAll_cons] at woken ⊢
      by_cases same : q = p
      · subst same
        have ready : (f.wake q).status q = .ready := by simp [wake, waiting, setStatus, enqueue]
        rw [wakeAll_status_of_not_blocked rest (by rw [ready]; decide), ready]
      · exact ih ((wake_status_of_ne same).trans waiting) woken

theorem wakeAll_terminated (q : α) :
    (f.wakeAll ps).status q = .terminated ↔ f.status q = .terminated := by
  induction ps generalizing f with
  | nil => exact Iff.rfl
  | cons p rest ih => rw [wakeAll_cons, ih, wake_terminated]

theorem Attends.wakeAll {idle : α} (attends : f.Attends idle) : (f.wakeAll ps).Attends idle := by
  intro different
  exact mem_wakeAll_queue ps (attends (by rwa [wakeAll_current] at different))

end WakeAll

end Fifo

end OsKernel.Proc
