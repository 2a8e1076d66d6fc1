import Mathlib.Data.Set.Basic
import Mathlib.Tactic

/-
This file gives a contest that the foremost wins who has not won it just before.
-/

namespace OsKernel.Library

variable {α : Type*} {ahead : α → α → Prop} {field : Set α} {a a' b last winner : α}

/-- The leader of a field stands ahead of everybody else in it. -/
def Leads (ahead : α → α → Prop) (field : Set α) (a : α) : Prop := a ∈ field ∧ ∀ x ∈ field, x ≠ a → ahead a x

theorem Leads.unique (asymm : ∀ x y, ahead x y → ¬ ahead y x) (first : Leads ahead field a)
    (again : Leads ahead field a') : a = a' := by
  by_contra different
  exact asymm _ _ (first.2 a' again.1 (Ne.symm different)) (again.2 a first.1 different)

/-- Without somebody else the leader still leads. -/
theorem Leads.diff (first : Leads ahead field a) (other : last ≠ a) : Leads ahead (field \ {last}) a :=
  ⟨⟨first.1, fun same => other (Set.mem_singleton_iff.mp same).symm⟩, fun x member => first.2 x member.1⟩

/-- The first and the second of a field. -/
structure Rivals (ahead : α → α → Prop) (field : Set α) (a b : α) : Prop where
  first : Leads ahead field a
  second : Leads ahead (field \ {a}) b

theorem Rivals.ne (rivals : Rivals ahead field a b) : b ≠ a := rivals.second.1.2

/-- Whoever won last, the next winner is one of the two rivals. -/
theorem Rivals.next [DecidableEq α] (rivals : Rivals ahead field a b) (asymm : ∀ x y, ahead x y → ¬ ahead y x)
    (won : Leads ahead (field \ {last}) winner) : winner = if last = a then b else a := by
  split
  next same => exact won.unique asymm (same ▸ rivals.second)
  next other => exact won.unique asymm (rivals.first.diff other)

end OsKernel.Library
