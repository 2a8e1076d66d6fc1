import Mathlib.Data.List.Nodup
import Mathlib.Tactic

/-
This file gives the order law of a list that is served at its front and joined at its end.
-/

namespace OsKernel.Library

variable {α : Type*}

/-- The list `queue` becomes `queue'` when `served` leaves at the front and `joined` comes at the end. -/
def Turn (queue joined served queue' : List α) : Prop := queue ++ joined = served ++ queue'

variable {queue queue' queue'' joined joined' served served' : List α}

theorem Turn.refl (queue : List α) : Turn queue [] [] queue := List.append_nil queue

/-- Turns compose, and so do their records. -/
theorem Turn.trans (first : Turn queue joined served queue') (second : Turn queue' joined' served' queue'') :
    Turn queue (joined ++ joined') (served ++ served') queue'' := by
  unfold Turn at first second ⊢
  calc queue ++ (joined ++ joined') = (queue ++ joined) ++ joined' := (List.append_assoc _ _ _).symm
    _ = served ++ (queue' ++ joined') := by rw [first, List.append_assoc]
    _ = (served ++ served') ++ queue'' := by rw [second, List.append_assoc]

/-- Whoever stands in front of another one is served before it. -/
theorem Turn.served_before {front back : List α} {p q : α} (turn : Turn (front ++ back) joined served queue')
    (ahead : p ∈ front) (behind : q ∉ front) (taken : q ∈ served) :
    ∃ before after, served = before ++ q :: after ∧ p ∈ before ∧ q ∉ before := by
  unfold Turn at turn
  rw [List.append_assoc] at turn
  rcases List.append_eq_append_iff.mp turn with ⟨more, longer, _⟩ | ⟨more, shorter, _⟩
  · have later : q ∈ more := by
      rw [longer, List.mem_append] at taken
      exact taken.resolve_left behind
    obtain ⟨before, after, split, first⟩ := List.eq_append_cons_of_mem later
    refine ⟨front ++ before, after, ?_, List.mem_append_left _ ahead, ?_⟩
    · rw [longer, split, List.append_assoc]
    · rw [List.mem_append, not_or]
      exact ⟨behind, first⟩
  · rw [shorter, List.mem_append, not_or] at behind
    exact absurd taken behind.1

/-- The last entry of `p` stands before the last entry of `q`. -/
def LastBefore (record : List α) (p q : α) : Prop :=
  ∃ before after, record = before ++ after ∧ p ∉ after ∧ q ∈ after

/-- At the end of a record the order of the last entries is the order of the list. -/
theorem LastBefore.split {record : List α} {p q : α} (last : LastBefore (record ++ queue) p q)
    (member : p ∈ queue) (nodup : queue.Nodup) :
    ∃ front back, queue = front ++ back ∧ p ∈ front ∧ q ∉ front := by
  obtain ⟨before, after, parts, absent, present⟩ := last
  rcases List.append_eq_append_iff.mp parts with ⟨front, _, same⟩ | ⟨more, _, same⟩
  · rw [same] at nodup member
    refine ⟨front, after, same, ?_, ?_⟩
    · rw [List.mem_append] at member
      exact member.resolve_right absent
    · intro twice
      exact (List.nodup_append.mp nodup).2.2 q twice q present rfl
  · rw [same, List.mem_append, not_or] at absent
    exact absurd member absent.2

/-- A selection from a list without repetition is found again by its members. -/
theorem filter_mem_of_sublist [DecidableEq α] {l selection : List α} (nodup : l.Nodup)
    (chosen : selection.Sublist l) : l.filter (· ∈ selection) = selection := by
  have own : selection.filter (· ∈ selection) = selection :=
    List.filter_eq_self.mpr fun p member => decide_eq_true member
  have included : selection.Sublist (l.filter (· ∈ selection)) := by
    have filtered := chosen.filter (· ∈ selection)
    rwa [own] at filtered
  symm
  apply included.eq_of_length_le
  apply List.Subperm.length_le
  apply (nodup.filter _).subperm
  intro p member
  exact of_decide_eq_true (List.mem_filter.mp member).2

end OsKernel.Library
