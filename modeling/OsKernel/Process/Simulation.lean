import OsKernel.Process.Fifo
import OsKernel.Process.ReadyQueue

/-
This file shows that the linked queue of `scheduler.c` simulates the abstract scheduler.
-/

namespace OsKernel.Proc
open OsKernel.Library

variable {H : Type}

/-- The state holds the abstract list in its links and the abstract statuses in its fields. -/
structure Simulates (s : Kernel H) (f : Fifo Addr) : Prop where
  queue : Represents s f.queue
  current : s.current = some f.current
  status : ∀ p, (s.procs p).state = f.status p

theorem Simulates.eq_current {s : Kernel H} {f : Fifo Addr} {p : Addr} (simulates : Simulates s f)
    (current : s.current = some p) : f.current = p := Option.some.inj (simulates.current.symm.trans current)

/-- A state simulates one scheduler only. -/
theorem Simulates.unique {s : Kernel H} {f f' : Fifo Addr} (first : Simulates s f) (second : Simulates s f') : f = f' := by
  have current := first.eq_current second.current
  have queue : f.queue = f'.queue := Represents.unique first.queue second.queue
  have status : f.status = f'.status := by
    funext p
    rw [← first.status, second.status]
  cases f
  cases f'
  simp_all

/-- Agreement up to the links keeps the status and the current process. -/
theorem Simulates.relink {s s' : Kernel H} {f : Fifo Addr} (simulates : Simulates s f)
    (same : Relinked s s') {queue : List Addr} (represented : Represents s' queue) :
    Simulates s' { f with queue := queue } where
  queue := represented
  current := same.current.trans simulates.current
  status p := (same.state p).trans (simulates.status p)

theorem Simulates.setState {s : Kernel H} {f : Fifo Addr} (simulates : Simulates s f) (p : Addr)
    (state : ProcessState) :
    Simulates (s.onProc p fun q => { q with state := state }) (f.setStatus p state) where
  queue := simulates.queue.onProc p _ rfl
  current := simulates.current
  status q := by
    by_cases same : q = p
    · subst same
      simp [Fifo.setStatus]
    · simp [Fifo.setStatus, same, simulates.status q]

/-- A write that keeps the link and the state is invisible to the scheduler. -/
theorem Simulates.onProc {s : Kernel H} {f : Fifo Addr} (simulates : Simulates s f) (p : Addr)
    (g : Process → Process) (link : (g (s.procs p)).next = (s.procs p).next)
    (state : (g (s.procs p)).state = (s.procs p).state) : Simulates (s.onProc p g) f where
  queue := simulates.queue.onProc p g link
  current := simulates.current
  status q := by
    by_cases same : q = p
    · subst same
      simp [state, simulates.status q]
    · simp [same, simulates.status q]

theorem Simulates.add {s : Kernel H} {f : Fifo Addr} {p : Addr} (simulates : Simulates s f)
    (fresh : p ∉ f.queue) : Simulates (schedulerAdd s (some p)) (f.enqueue p) :=
  simulates.relink (schedulerAdd_relinked s p) (schedulerAdd_represents simulates.queue fresh)

/-- Removal always ends and drops the process from the list. -/
theorem Simulates.remove {s : Kernel H} {f : Fifo Addr} {fuel : Nat} (simulates : Simulates s f)
    (p : Addr) (enough : f.queue.length ≤ fuel) :
    ∃ s', schedulerRemove fuel s (some p) = some s' ∧ Simulates s' (f.remove p) := by
  obtain ⟨s', removed, represented⟩ := schedulerRemove_represents p simulates.queue enough
  exact ⟨s', removed, simulates.relink (schedulerRemove_relinked removed) represented⟩

theorem Simulates.requeue {s : Kernel H} {f : Fifo Addr} (simulates : Simulates s f)
    (sound : f.Sound) : Simulates (requeueCurrent s) f.requeue := by
  unfold requeueCurrent Fifo.requeue
  rw [simulates.current]
  dsimp only
  rw [simulates.status f.current]
  split
  · rename_i running
    have outside : f.current ∉ f.queue := sound.not_mem_queue (by rw [running]; decide)
    exact (simulates.setState f.current .ready).add outside
  · exact simulates

/-- The code of `schedule()` ends and takes the abstract step. -/
theorem Simulates.schedule {s : Kernel H} {f : Fifo Addr} {fuel : Nat} (simulates : Simulates s f)
    (sound : f.Sound) (enough : f.queue.length < fuel) :
    ∃ s', schedule fuel s = some s' ∧ Simulates s' f.schedule := by
  unfold OsKernel.Proc.schedule schedulerNext Fifo.schedule
  have head := simulates.queue.head_eq
  cases queue : f.queue with
  | nil =>
      rw [queue] at head
      simp only [head, List.head?_nil, ↓reduceIte]
      exact ⟨s, rfl, simulates⟩
  | cons p rest =>
      rw [queue] at head
      simp only [head, List.head?_cons, simulates.current, Option.some.injEq]
      by_cases same : f.current = p
      · simp only [same, ↓reduceIte]
        exact ⟨s, rfl, simulates⟩
      · rw [if_neg same, if_neg same]
        have runs := (simulates.requeue sound).setState p .running
        have moved : Simulates
            { (requeueCurrent s).onProc p fun q => { q with state := .running } with
              current := some p }
            { f.requeue.setStatus p .running with current := p } :=
          ⟨runs.queue, rfl, runs.status⟩
        have length : f.requeue.queue.length ≤ fuel := by
          unfold Fifo.requeue
          split
          · simp only [Fifo.enqueue, Fifo.setStatus, List.length_append, List.length_singleton]
            omega
          · omega
        exact moved.remove p length

theorem Simulates.wake {s : Kernel H} {f : Fifo Addr} (simulates : Simulates s f)
    (sound : f.Sound) (p : Addr) :
    Simulates (schedulerWake s (some p)) (f.wake p) := by
  unfold schedulerWake Fifo.wake
  dsimp only
  rw [simulates.status p]
  split
  · rename_i blocked
    have outside : p ∉ f.queue := sound.not_mem_queue (by rw [blocked]; decide)
    exact (simulates.setState p .ready).add outside
  · exact simulates

/-- The process of a slot that the wake loop may wake. -/
def wakeable (s : Kernel H) (i : Fin 64) : Option Addr :=
  (s.task i).filter fun p => 0 < (s.procs p).pid

theorem SameTasks.wakeable {s s' : Kernel H} (same : SameTasks s s') : wakeable s' = wakeable s := by
  funext i
  simp only [OsKernel.Proc.wakeable, same.task, same.pid]

/-- One round of the loop wakes at most the process of its slot. -/
theorem wakeSlot_eq (s : Kernel H) (i : Fin 64) :
    wakeSlot s i = (wakeable s i).elim s fun p => schedulerWake s (some p) := by
  unfold wakeSlot wakeable
  cases s.task i with
  | none => rfl
  | some p =>
      by_cases positive : 0 < (s.procs p).pid
      · simp only [positive, and_true, Option.filter_some, decide_true, ↓reduceIte, Option.elim_some]
        split
        · rfl
        · rename_i other
          simp [schedulerWake, other]
      · simp [positive, Option.filter_some]

/-- The wake loop takes one abstract wake-up for each slot it visits. -/
theorem Simulates.wakeSlots {s : Kernel H} {f : Fifo Addr} (simulates : Simulates s f)
    (sound : f.Sound) (slots : List (Fin 64)) :
    Simulates (slots.foldl wakeSlot s) (f.wakeAll (slots.filterMap (wakeable s))) := by
  induction slots generalizing s f with
  | nil => exact simulates
  | cons i rest ih =>
      rw [List.foldl_cons, wakeSlot_eq]
      cases found : OsKernel.Proc.wakeable s i with
      | none =>
          rw [List.filterMap_cons_none found]
          exact ih simulates sound
      | some p =>
          rw [List.filterMap_cons_some found]
          have result := ih (simulates.wake sound p) (sound.wake p)
          rw [(schedulerWake_rescheduled s p).sameTasks.wakeable] at result
          exact result

theorem Simulates.wakeWaiters {s : Kernel H} {f : Fifo Addr} (simulates : Simulates s f)
    (sound : f.Sound) :
    Simulates (wakeWaiters s) (f.wakeAll ((taskRange s).filterMap (wakeable s))) :=
  simulates.wakeSlots sound (taskRange s)

end OsKernel.Proc
