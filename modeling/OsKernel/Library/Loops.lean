import Mathlib.Tactic

/-
This file gives counting loops whose body may fail, and the rule of their invariants.
-/

namespace OsKernel.Library

variable {S : Type*}

/-- The body runs for `count` consecutive indices from `low` on. -/
def forLoop (body : Nat → S → Option S) : Nat → Nat → S → Option S
  | _, 0, s => some s
  | low, count + 1, s => (body low s).bind fun s' => forLoop body (low + 1) count s'

/-- A loop whose body keeps an indexed invariant ends in a state that satisfies it. -/
theorem forLoop_invariant (body : Nat → S → Option S) (holds : Nat → S → Prop) (low count : Nat) (s : S)
    (initial : holds low s)
    (preserved : ∀ i s, low ≤ i → i < low + count → holds i s → ∃ s', body i s = some s' ∧ holds (i + 1) s') :
    ∃ s', forLoop body low count s = some s' ∧ holds (low + count) s' := by
  induction count generalizing low s with
  | zero => exact ⟨s, rfl, initial⟩
  | succ count ih =>
      obtain ⟨middle, first, reached⟩ := preserved low s (Nat.le_refl low) (by omega) initial
      obtain ⟨final, rest, kept⟩ := ih (low + 1) middle reached (by
        intro i s' lower upper
        exact preserved i s' (by omega) (by omega))
      refine ⟨final, ?_, ?_⟩
      · rw [forLoop, first, Option.bind_some, rest]
      · rwa [Nat.add_right_comm] at kept

section Search

variable {p : Nat → Bool} {low count : Nat}

/-- The loop stops at the first index that passes the test. -/
def search (p : Nat → Bool) : Nat → Nat → Option Nat
  | _, 0 => none
  | low, count + 1 => if p low then some low else search p (low + 1) count

/-- A found index passes the test, and no index before it does. -/
theorem search_some {i : Nat} (found : search p low count = some i) :
    low ≤ i ∧ i < low + count ∧ p i = true ∧ ∀ j, low ≤ j → j < i → p j = false := by
  induction count generalizing low with
  | zero => cases found
  | succ count ih =>
      rw [search] at found
      split at found
      next passed =>
          obtain rfl := Option.some.inj found
          exact ⟨Nat.le_refl _, by omega, passed, fun j lower upper => by omega⟩
      next failed =>
          obtain ⟨lower, upper, passed, before⟩ := ih found
          refine ⟨by omega, by omega, passed, ?_⟩
          intro j first last
          by_cases here : j = low
          · rw [here]
            exact Bool.eq_false_of_not_eq_true failed
          · exact before j (by omega) last

/-- A search that finds nothing has tested every index. -/
theorem search_none (missed : search p low count = none) {j : Nat} (lower : low ≤ j) (upper : j < low + count) :
    p j = false := by
  induction count generalizing low with
  | zero => omega
  | succ count ih =>
      rw [search] at missed
      split at missed
      next => cases missed
      next failed =>
          by_cases here : j = low
          · rw [here]
            exact Bool.eq_false_of_not_eq_true failed
          · exact ih missed (by omega) (by omega)

end Search

section Minimum

/-- The loop keeps the first index whose key is below all keys seen before it. -/
def leastKey (key : Nat → Option Nat) : Nat → Nat → Nat → Option Nat → Option Nat
  | _, 0, _, best => best
  | low, count + 1, bound, best =>
      match key low with
      | none => leastKey key (low + 1) count bound best
      | some k =>
          if k < bound then leastKey key (low + 1) count k (some low) else leastKey key (low + 1) count bound best

/-- The loop ends with the old choice when no key is below the bound, and else with a least key. -/
theorem leastKey_spec (key : Nat → Option Nat) (low count bound : Nat) (best : Option Nat) :
    (leastKey key low count bound best = best ∧
      ∀ j k, low ≤ j → j < low + count → key j = some k → bound ≤ k) ∨
    ∃ i k, leastKey key low count bound best = some i ∧ low ≤ i ∧ i < low + count ∧ key i = some k ∧
      k < bound ∧ ∀ j l, low ≤ j → j < low + count → key j = some l → k ≤ l := by
  induction count generalizing low bound best with
  | zero => exact .inl ⟨rfl, fun j k lower upper => by omega⟩
  | succ count ih =>
      -- A later index keeps its bounds when the range starts one index earlier.
      have later {b : Nat} (here : ∀ k, key low = some k → b ≤ k)
          (rest : ∀ j k, low + 1 ≤ j → j < low + 1 + count → key j = some k → b ≤ k) :
          ∀ j k, low ≤ j → j < low + (count + 1) → key j = some k → b ≤ k := by
        intro j k lower upper found
        by_cases same : j = low
        · exact here k (same ▸ found)
        · exact rest j k (by omega) (by omega) found
      rw [leastKey]
      split
      next missing =>
          have none (b k : Nat) (found : key low = some k) : b ≤ k := by
            rw [missing] at found
            cases found
          rcases ih (low + 1) bound best with ⟨same, above⟩ | ⟨i, k, same, lower, upper, rest⟩
          · exact .inl ⟨same, later (none bound) above⟩
          · exact .inr ⟨i, k, same, by omega, by omega, rest.1, rest.2.1, later (none k) rest.2.2⟩
      next k found =>
          have own (b : Nat) (below : b ≤ k) (l : Nat) (again : key low = some l) : b ≤ l := by
            rw [found] at again
            obtain rfl := Option.some.inj again
            exact below
          split
          next below =>
              right
              rcases ih (low + 1) k (some low) with
                ⟨same, above⟩ | ⟨i, l, same, lower, upper, named, smaller, rest⟩
              · exact ⟨low, k, same, Nat.le_refl _, by omega, found, below, later (own k (Nat.le_refl k)) above⟩
              · exact ⟨i, l, same, by omega, by omega, named, by omega, later (own l (by omega)) rest⟩
          next above =>
              rcases ih (low + 1) bound best with
                ⟨same, high⟩ | ⟨i, l, same, lower, upper, named, smaller, rest⟩
              · exact .inl ⟨same, later (own bound (by omega)) high⟩
              · exact .inr ⟨i, l, same, by omega, by omega, named, smaller, later (own l (by omega)) rest⟩

end Minimum

section Scan

variable {α : Type*}

/-- The scan keeps an item whose key is below the best one so far. -/
def keepLeast (key : α → Option Nat) (best : α × Nat) (a : α) : α × Nat :=
  match key a with
  | none => best
  | some k => if k < best.2 then (a, k) else best

/-- The scan ends with its start value when no key is below it, and else with the first least key. -/
theorem foldl_keepLeast (key : α → Option Nat) (items : List α) (best : α × Nat) :
    (items.foldl (keepLeast key) best = best ∧ ∀ a ∈ items, ∀ k, key a = some k → best.2 ≤ k) ∨
    ∃ before a after k, items = before ++ a :: after ∧ key a = some k ∧ k < best.2 ∧
      items.foldl (keepLeast key) best = (a, k) ∧ (∀ b ∈ before, ∀ l, key b = some l → k < l) ∧
      ∀ b ∈ after, ∀ l, key b = some l → k ≤ l := by
  induction items generalizing best with
  | nil => exact .inl ⟨rfl, fun a member => absurd member List.not_mem_nil⟩
  | cons first rest ih =>
      rw [List.foldl_cons]
      by_cases better : ∃ k, key first = some k ∧ k < best.2
      · obtain ⟨k, found, below⟩ := better
        have kept : keepLeast key best first = (first, k) := by simp [keepLeast, found, below]
        right
        rw [kept]
        rcases ih (first, k) with ⟨same, above⟩ | ⟨before, a, after, l, shape, named, smaller, same, less, least⟩
        · exact ⟨[], first, rest, k, rfl, found, below, same, by simp, above⟩
        · have lower : l < k := smaller
          refine ⟨first :: before, a, after, l, by rw [shape]; rfl, named, lower.trans below, same, ?_, least⟩
          intro b member m known
          rcases List.mem_cons.mp member with rfl | earlier
          · rw [found] at known
            obtain rfl := Option.some.inj known
            exact lower
          · exact less b earlier m known
      · have kept : keepLeast key best first = best := by
          cases found : key first with
          | none => simp [keepLeast, found]
          | some k =>
              have above : ¬ k < best.2 := fun below => better ⟨k, found, below⟩
              simp [keepLeast, found, above]
        have bound : ∀ k, key first = some k → best.2 ≤ k := by
          intro k found
          by_contra below
          exact better ⟨k, found, by omega⟩
        rw [kept]
        rcases ih best with ⟨same, above⟩ | ⟨before, a, after, l, shape, named, smaller, same, less, least⟩
        · refine .inl ⟨same, ?_⟩
          intro a member k found
          rcases List.mem_cons.mp member with rfl | later
          · exact bound k found
          · exact above a later k found
        · refine .inr ⟨first :: before, a, after, l, by rw [shape]; rfl, named, smaller, same, ?_, least⟩
          intro b member m known
          rcases List.mem_cons.mp member with rfl | earlier
          · exact lt_of_lt_of_le smaller (bound m known)
          · exact less b earlier m known

end Scan

end OsKernel.Library
