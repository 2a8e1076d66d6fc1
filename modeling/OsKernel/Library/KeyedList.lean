import Mathlib.Tactic

/-
This file reads a list of items with pairwise different keys as a map from keys to items.
-/

namespace OsKernel.Library

variable {α κ : Type*} {key : α → κ} {items other : List α} {item : α} {k : κ}

/-- No two items of the list have the same key. -/
def DistinctKeys (key : α → κ) (items : List α) : Prop := (items.map key).Nodup

/-- A new key in front keeps the keys different. -/
theorem DistinctKeys.cons (distinct : DistinctKeys key items) (fresh : ∀ x ∈ items, key x ≠ key item) :
    DistinctKeys key (item :: items) := by
  rw [DistinctKeys, List.map_cons, List.nodup_cons, List.mem_map]
  refine ⟨?_, distinct⟩
  rintro ⟨x, member, same⟩
  exact fresh x member same

theorem DistinctKeys.nodup (distinct : DistinctKeys key items) : items.Nodup := List.Nodup.of_map key distinct

variable [DecidableEq κ]

/-- The first item with a key. -/
def lookup (key : α → κ) (items : List α) (k : κ) : Option α := items.find? fun x => key x = k

@[simp] theorem lookup_nil : lookup key [] k = none := rfl

theorem lookup_cons : lookup key (item :: items) k = if key item = k then some item else lookup key items k := by
  by_cases same : key item = k
  · rw [if_pos same, lookup, List.find?_cons_of_pos (by simpa using same)]
  · rw [if_neg same, lookup, List.find?_cons_of_neg (by simpa using same)]
    rfl

theorem lookup_eq_none_iff : lookup key items k = none ↔ ∀ x ∈ items, key x ≠ k := by
  simp [lookup, List.find?_eq_none]

/-- A lookup finds the one item with the key. -/
theorem DistinctKeys.lookup_eq_some_iff (distinct : DistinctKeys key items) :
    lookup key items k = some item ↔ item ∈ items ∧ key item = k := by
  constructor
  · intro found
    have passed := List.find?_some found
    exact ⟨List.mem_of_find?_eq_some found, by simpa using passed⟩
  · rintro ⟨member, rfl⟩
    cases found : lookup key items (key item) with
    | none => exact absurd rfl (lookup_eq_none_iff.mp found item member)
    | some x =>
        have passed := List.find?_some found
        have same : x = item :=
          List.inj_on_of_nodup_map distinct (List.mem_of_find?_eq_some found) member (by simpa using passed)
        rw [same]

/-- A lookup depends on the items and not on their order. -/
theorem DistinctKeys.lookup_congr (distinct : DistinctKeys key items) (distinct' : DistinctKeys key other)
    (same : ∀ x, x ∈ other ↔ x ∈ items) : lookup key other k = lookup key items k := by
  apply Option.ext
  intro x
  rw [distinct.lookup_eq_some_iff, distinct'.lookup_eq_some_iff, same]

end OsKernel.Library
