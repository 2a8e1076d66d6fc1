import OsKernel.Process.Fifo
import Mathlib.Data.List.Forall2

/-
This file compares two abstract schedulers whose processes have different names.
Every operation of the scheduler takes related schedulers to related schedulers.
-/

namespace OsKernel.Proc

variable {α β : Type*} {R R' : α → β → Prop}

/-- Related lists lose related elements at the same place. -/
theorem forall₂_erase [DecidableEq α] [DecidableEq β] (unique : Relator.BiUnique R) {a : α} {b : β} (related : R a b)
    {l : List α} {l' : List β} (lists : List.Forall₂ R l l') : List.Forall₂ R (l.erase a) (l'.erase b) := by
  induction lists with
  | nil => exact .nil
  | @cons c d rest rest' head tail ih =>
      by_cases same : c = a
      · obtain rfl := same
        obtain rfl := unique.2 head related
        rw [List.erase_cons_head, List.erase_cons_head]
        exact tail
      · have other : d ≠ b := by
          rintro rfl
          exact same (unique.1 head related)
        rw [List.erase_cons_tail (by simpa using same), List.erase_cons_tail (by simpa using other)]
        exact .cons head ih

namespace Fifo

/-- Both schedulers run related processes, queue related lists and know the same statuses. -/
structure Mirrors (R : α → β → Prop) (f : Fifo α) (g : Fifo β) : Prop where
  current : R f.current g.current
  queue : List.Forall₂ R f.queue g.queue
  status : ∀ a b, R a b → f.status a = g.status b

variable {f : Fifo α} {g : Fifo β} {a : α} {b : β}

/-- Another relation takes over when it relates the current and the queued processes alike. -/
theorem Mirrors.rename (mirrors : Mirrors R f g) (current : R' f.current g.current)
    (queue : ∀ a ∈ f.queue, ∀ b, R a b → R' a b) (status : ∀ a b, R' a b → f.status a = g.status b) :
    Mirrors R' f g where
  current := current
  queue := ((List.forall₂_and_left _ _).mpr ⟨queue, mirrors.queue⟩).imp fun _ b both => both.1 b both.2
  status := status

/-- Only the statuses of related processes matter. -/
theorem Mirrors.withStatus (mirrors : Mirrors R f g) {status : α → ProcessState}
    (same : ∀ a b, R a b → status a = f.status a) : Mirrors R { f with status := status } g where
  current := mirrors.current
  queue := mirrors.queue
  status a b related := (same a b related).trans (mirrors.status a b related)

section Operations

variable [DecidableEq α] [DecidableEq β] (unique : Relator.BiUnique R)

include unique

theorem Mirrors.setStatus (mirrors : Mirrors R f g) (related : R a b) (status : ProcessState) :
    Mirrors R (f.setStatus a status) (g.setStatus b status) where
  current := mirrors.current
  queue := mirrors.queue
  status c d pair := by
    have names : c = a ↔ d = b := Relator.rel_eq unique pair related
    unfold Fifo.setStatus
    simp only [Function.update_apply, names, mirrors.status c d pair]

theorem Mirrors.remove (mirrors : Mirrors R f g) (related : R a b) : Mirrors R (f.remove a) (g.remove b) where
  current := mirrors.current
  queue := forall₂_erase unique related mirrors.queue
  status := mirrors.status

omit [DecidableEq α] [DecidableEq β] unique in
theorem Mirrors.enqueue (mirrors : Mirrors R f g) (related : R a b) : Mirrors R (f.enqueue a) (g.enqueue b) where
  current := mirrors.current
  queue := List.rel_append mirrors.queue (.cons related .nil)
  status := mirrors.status

theorem Mirrors.requeue (mirrors : Mirrors R f g) : Mirrors R f.requeue g.requeue := by
  unfold Fifo.requeue
  rw [mirrors.status _ _ mirrors.current]
  split
  · exact (mirrors.setStatus unique mirrors.current .ready).enqueue mirrors.current
  · exact mirrors

theorem Mirrors.dispatch (mirrors : Mirrors R f g) (related : R a b) : Mirrors R (f.dispatch a) (g.dispatch b) where
  current := related
  queue := forall₂_erase unique related mirrors.queue
  status := (mirrors.setStatus unique related .running).status

theorem Mirrors.schedule (mirrors : Mirrors R f g) : Mirrors R f.schedule g.schedule := by
  have queues := mirrors.queue
  unfold Fifo.schedule
  cases first : f.queue with
  | nil =>
      rw [first, List.forall₂_nil_left_iff] at queues
      rw [queues]
      exact mirrors
  | cons p rest =>
      rw [first, List.forall₂_cons_left_iff] at queues
      obtain ⟨q, rest', related, _, second⟩ := queues
      have names : f.current = p ↔ g.current = q := Relator.rel_eq unique mirrors.current related
      rw [second]
      simp only [names]
      split
      · exact mirrors
      · exact (mirrors.requeue unique).dispatch unique related

theorem Mirrors.wake (mirrors : Mirrors R f g) (related : R a b) : Mirrors R (f.wake a) (g.wake b) := by
  unfold Fifo.wake
  rw [mirrors.status a b related]
  split
  · exact (mirrors.setStatus unique related .ready).enqueue related
  · exact mirrors

theorem Mirrors.wakeAll {ps : List α} {qs : List β} (mirrors : Mirrors R f g) (related : List.Forall₂ R ps qs) :
    Mirrors R (f.wakeAll ps) (g.wakeAll qs) := by
  induction related generalizing f g with
  | nil => exact mirrors
  | cons head _ ih => exact ih (mirrors.wake unique head)

end Operations

end Fifo

end OsKernel.Proc
