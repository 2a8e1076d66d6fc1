import OsKernel.Library.Runs

/-
This file relates two transition systems with the same events.
An event is an input together with the output that answers it.
-/

namespace OsKernel.Library

variable {σ σ' τ ε ι ο : Type*} {low : σ → ε → σ → Prop} {high : τ → ε → τ → Prop} {related : σ → τ → Prop}

/-- Every step of the low system is a step of the high one, with the same event and to a related state. -/
def Refines (low : σ → ε → σ → Prop) (high : τ → ε → τ → Prop) (related : σ → τ → Prop) : Prop :=
  ∀ s t e s', related s t → low s e s' → ∃ t', high t e t' ∧ related s' t'

/-- A refinement of steps is a refinement of runs. -/
theorem Refines.run (refines : Refines low high related) {s s' : σ} {t : τ} {events : List ε} (first : related s t)
    (run : Run low s events s') : ∃ t', Run high t events t' ∧ related s' t' := by
  induction run with
  | nil => exact ⟨t, .nil, first⟩
  | snoc _ taken ih =>
      obtain ⟨t₁, earlier, middle⟩ := ih
      obtain ⟨t₂, step, last⟩ := refines _ _ _ _ middle taken
      exact ⟨t₂, earlier.snoc step, last⟩

/-- The input decides the output and the next state. -/
def Answers (high : τ → ι × ο → τ → Prop) : Prop :=
  ∀ t input output output' t₁ t₂, high t (input, output) t₁ → high t (input, output') t₂ →
    output = output' ∧ t₁ = t₂

/-- The inputs decide the outputs and the final state of a run. -/
theorem Answers.run {high : τ → ι × ο → τ → Prop} (answers : Answers high) {t t₁ t₂ : τ} {events events' : List (ι × ο)}
    (first : Run high t events t₁) (second : Run high t events' t₂)
    (same : events.map Prod.fst = events'.map Prod.fst) : events = events' ∧ t₁ = t₂ := by
  induction first generalizing events' t₂ with
  | nil =>
      cases second with
      | nil => exact ⟨rfl, rfl⟩
      | snoc => simp at same
  | @snoc earlier u u' event run taken ih =>
      cases second with
      | nil => simp at same
      | @snoc earlier' v _ event' run' taken' =>
          rw [List.map_append, List.map_append] at same
          obtain ⟨before, last⟩ := List.append_inj' same rfl
          obtain ⟨rfl, rfl⟩ := ih run' before
          obtain ⟨input, output⟩ := event
          obtain ⟨input', output'⟩ := event'
          obtain rfl : input = input' := by simpa using last
          obtain ⟨rfl, rfl⟩ := answers _ _ _ _ _ _ taken taken'
          exact ⟨rfl, rfl⟩

/-- Two systems that refine one such system answer the same inputs alike. -/
theorem Refines.agree {low : σ → ι × ο → σ → Prop} {low' : σ' → ι × ο → σ' → Prop} {high : τ → ι × ο → τ → Prop}
    {related : σ → τ → Prop} {related' : σ' → τ → Prop} (refines : Refines low high related)
    (refines' : Refines low' high related') (answers : Answers high) {s s₁ : σ} {s' s₁' : σ'} {t : τ}
    {events events' : List (ι × ο)} (first : related s t) (first' : related' s' t) (run : Run low s events s₁)
    (run' : Run low' s' events' s₁') (same : events.map Prod.fst = events'.map Prod.fst) :
    events = events' ∧ ∃ t₁, related s₁ t₁ ∧ related' s₁' t₁ := by
  obtain ⟨t₁, high₁, last⟩ := refines.run first run
  obtain ⟨t₂, high₂, last'⟩ := refines'.run first' run'
  obtain ⟨events, rfl⟩ := answers.run high₁ high₂ same
  exact ⟨events, t₁, last, last'⟩

section Silent

variable {δ : Type*} {observe : ε → Option δ} {spec : τ → δ → τ → Prop}

/-- Every observed step of the low system is a step of the high one, and every silent step keeps the high state. -/
def Simulates (low : σ → ε → σ → Prop) (observe : ε → Option δ) (spec : τ → δ → τ → Prop)
    (related : σ → τ → Prop) : Prop :=
  ∀ s t e s', related s t → low s e s' →
    (observe e = none ∧ related s' t) ∨ ∃ d t', observe e = some d ∧ spec t d t' ∧ related s' t'

/-- A simulation of steps is a simulation of runs, and the high system sees what was observed. -/
theorem Simulates.run (simulates : Simulates low observe spec related) {s s' : σ} {t : τ} {events : List ε}
    (first : related s t) (run : Run low s events s') :
    ∃ t', Run spec t (events.filterMap observe) t' ∧ related s' t' := by
  induction run with
  | nil => exact ⟨t, .nil, first⟩
  | snoc _ taken ih =>
      obtain ⟨t₁, earlier, middle⟩ := ih
      rw [List.filterMap_append]
      rcases simulates _ _ _ _ middle taken with ⟨silent, last⟩ | ⟨d, t₂, seen, step, last⟩
      · rw [List.filterMap_cons_none silent, List.filterMap_nil, List.append_nil]
        exact ⟨t₁, earlier, last⟩
      · rw [List.filterMap_cons_some seen, List.filterMap_nil]
        exact ⟨t₂, earlier.snoc step, last⟩

end Silent

end OsKernel.Library
