import Mathlib.Tactic

/-
This file collects the rules for runs of a labelled transition relation.
-/

namespace OsKernel.Library

variable {S L : Type*}

/-- A run lists its labels in the order in which the steps were taken. -/
inductive Run (step : S → L → S → Prop) (start : S) : List L → S → Prop
  | nil : Run step start [] start
  | snoc {labels : List L} {s s' : S} {label : L} :
      Run step start labels s → step s label s' → Run step start (labels ++ [label]) s'

/-- A property that holds initially and survives every step holds after every run. -/
theorem Run.invariant {step : S → L → S → Prop} {start : S} (holds : List L → S → Prop)
    (initial : holds [] start)
    (preserved : ∀ labels s label s', Run step start labels s → holds labels s →
      step s label s' → holds (labels ++ [label]) s')
    {labels : List L} {s : S} (run : Run step start labels s) : holds labels s := by
  induction run with
  | nil => exact initial
  | snoc earlier taken ih => exact preserved _ _ _ _ earlier ih taken

/-- A run of a relation is a run of every larger relation. -/
theorem Run.mono {step larger : S → L → S → Prop} {start : S}
    (included : ∀ s label s', step s label s' → larger s label s')
    {labels : List L} {s : S} (run : Run step start labels s) : Run larger start labels s := by
  induction run with
  | nil => exact .nil
  | snoc _ taken ih => exact .snoc ih (included _ _ _ taken)

/-- Two runs compose when the second starts where the first ends. -/
theorem Run.append {step : S → L → S → Prop} {start middle final : S} {first second : List L}
    (before : Run step start first middle) (after : Run step middle second final) :
    Run step start (first ++ second) final := by
  induction after with
  | nil => simpa using before
  | snoc _ taken ih => simpa [List.append_assoc] using Run.snoc ih taken

/-- A replay applies a partial next-state function to each label in turn. -/
def replay (next : S → L → Option S) : S → List L → Option S
  | s, [] => some s
  | s, label :: rest => (next s label).bind fun s' => replay next s' rest

/-- A successful replay is a run. -/
theorem run_of_replay {step : S → L → S → Prop} {next : S → L → Option S}
    (sound : ∀ s label s', next s label = some s' → step s label s')
    {labels : List L} {start final : S} (replayed : replay next start labels = some final) :
    Run step start labels final := by
  induction labels generalizing start with
  | nil =>
      simp only [replay, Option.some.injEq] at replayed
      subst replayed
      exact .nil
  | cons label rest ih =>
      simp only [replay, Option.bind_eq_some_iff] at replayed
      obtain ⟨middle, first, remaining⟩ := replayed
      have single : Run step start [label] middle := .snoc .nil (sound _ _ _ first)
      exact single.append (ih remaining)

end OsKernel.Library
