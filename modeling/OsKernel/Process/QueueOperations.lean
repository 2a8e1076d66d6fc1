import OsKernel.Process.Machine
import OsKernel.Process.ReadyQueue

/-
This file states what each operation of `scheduler.c` does to the list that a ready queue represents.
-/

namespace OsKernel.Proc
open OsKernel.Library

variable {H : Type}

/-- Outside the queue only the link of `p` may have changed. -/
def KeepsLinks (s s' : Kernel H) (queue : List Addr) (p : Addr) : Prop :=
  ∀ x, x ∉ queue → x ≠ p → (s'.procs x).next = (s.procs x).next

/-- The three operations append, delete and read the first element of the represented list. -/
structure ListOperations (s : Kernel H) (queue : List Addr) (p : Addr) : Prop where
  adds : p ∉ queue → Represents (schedulerAdd s (some p)) (queue ++ [p]) ∧
    KeepsLinks s (schedulerAdd s (some p)) queue p
  removes : ∃ s', (∀ fuel, queue.length ≤ fuel → schedulerRemove fuel s (some p) = some s') ∧
    Represents s' (queue.erase p) ∧ KeepsLinks s s' queue p ∧ (p ∉ queue → s' = s)
  next : schedulerNext s = if queue = [] then s.current else queue.head?

section Operations

variable {s s' : Kernel H} {queue before rest : List Addr} {p cur x : Addr} {fuel : Nat}

/-- A write to the link of another process keeps a link. -/
theorem next_onProc_of_ne {q : Addr} {link : Option Addr} (different : x ≠ q) :
    ((s.onProc q fun r => { r with next := link }).procs x).next = (s.procs x).next := by
  rw [Kernel.onProc_of_ne _ _ _ _ different]

/-- The tail of a queue is queued. -/
theorem Represents.tail_mem {last : Addr} (represented : Represents s queue)
    (tail : s.readyQueue.tail = some last) : last ∈ queue :=
  List.mem_of_getLast? (represented.last.symm.trans tail)

/-- Adding writes the links of the tail and of the new process. -/
theorem schedulerAdd_keepsLinks (represented : Represents s queue) :
    KeepsLinks s (schedulerAdd s (some p)) queue p := by
  intro x outside different
  have cleared : ((s.onProc p fun r => { r with next := none }).procs x).next = (s.procs x).next :=
    next_onProc_of_ne different
  unfold schedulerAdd
  simp only [Kernel.onProc_readyQueue]
  split
  next => exact cleared
  next head last _ tail =>
      have apart : x ≠ last := fun same => outside (same ▸ represented.tail_mem tail)
      exact (next_onProc_of_ne apart).trans cleared
  next => exact cleared

/-- Behind the first element the search removes a process. -/
theorem schedulerRemove_behind {head : Addr} (first : s.readyQueue.head = some head) (other : head ≠ p) :
    schedulerRemove fuel s (some p) = unlinkFrom fuel s p head := by
  simp only [schedulerRemove, first]
  exact if_neg other

/-- Removing deletes a process from the list and keeps all links outside. -/
theorem schedulerRemove_list (represented : Represents s queue) (p : Addr) :
    ∃ s', (∀ fuel, queue.length ≤ fuel → schedulerRemove fuel s (some p) = some s') ∧
      Represents s' (queue.erase p) ∧ KeepsLinks s s' queue p ∧ (p ∉ queue → s' = s) := by
  cases queue with
  | nil =>
      have empty : s.readyQueue.head = none := represented.chain
      refine ⟨s, ?_, represented, fun _ _ _ => rfl, fun _ => rfl⟩
      intro fuel _
      simp only [schedulerRemove, empty]
  | cons head rest =>
      have first : s.readyQueue.head = some head := represented.chain.1
      by_cases same : head = p
      · subst same
        have removed (fuel : Nat) : schedulerRemove fuel s (some head) = some { s with
            readyQueue := ⟨s.links head, if s.links head = none then none else s.readyQueue.tail⟩ } := by
          simp only [schedulerRemove, first, if_true]
          rfl
        rw [List.erase_cons_head]
        exact ⟨_, fun fuel _ => removed fuel, Queue.dequeue represented, fun _ _ _ => rfl,
          fun absent => absurd List.mem_cons_self absent⟩
      · obtain ⟨s', removed, shorter⟩ := schedulerRemove_represents p represented (Nat.le_refl _)
        have searched := (schedulerRemove_behind first same).symm.trans removed
        have visited : head ∈ {x | x ∈ head :: rest} := List.mem_cons_self
        have follows : ∀ x ∈ {x | x ∈ head :: rest}, ∀ y, s.links x = some y → y ∈ {x | x ∈ head :: rest} :=
          fun x member y linked => represented.chain.next_mem member linked
        refine ⟨s', fun fuel enough => schedulerRemove_mono removed enough, shorter, ?_⟩
        rcases unlinkFrom_cases follows visited searched with rfl | ⟨c, listed, behind, rfl⟩
        · exact ⟨fun _ _ _ => rfl, fun _ => rfl⟩
        · refine ⟨?_, fun absent => absurd (represented.chain.next_mem listed behind) absent⟩
          intro x outside _
          have apart : x ≠ c := fun here => outside (here ▸ listed)
          exact next_onProc_of_ne apart

/-- The next process is the first of the list, or the current one. -/
theorem schedulerNext_list (represented : Represents s queue) :
    schedulerNext s = if queue = [] then s.current else queue.head? := by
  have head := represented.head_eq
  cases queue with
  | nil => simp [schedulerNext, head]
  | cons first rest => simp [schedulerNext, head]

end Operations

/-- The linked ready queue implements the list operations, for every process. -/
theorem readyQueue_listOperations {s : Kernel H} {queue : List Addr} (represented : Represents s queue) (p : Addr) :
    ListOperations s queue p where
  adds fresh := ⟨schedulerAdd_represents represented fresh, schedulerAdd_keepsLinks represented⟩
  removes := schedulerRemove_list represented p
  next := schedulerNext_list represented

/-- In the sample the processes 1 and 2 are queued. -/
def sampleQueue : Kernel Unit :=
  { Kernel.boot () (fun p => { Process.zero with next := if p = 1 then some 2 else none }) fun _ => Context.zero with
    readyQueue := ⟨some 1, some 2⟩ }

/-- The sample removes the last process. -/
theorem readyQueue_listOperations_sample : Represents sampleQueue [1, 2] ∧ ListOperations sampleQueue [1, 2] 2 := by
  have represented : Represents sampleQueue [1, 2] := ⟨⟨rfl, rfl, rfl⟩, rfl, by decide⟩
  exact ⟨represented, readyQueue_listOperations represented 2⟩

end OsKernel.Proc
