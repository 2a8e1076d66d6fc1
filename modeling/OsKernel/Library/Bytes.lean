import Mathlib.Tactic

/-
This file gives a byte memory with little-endian words of any width.
-/

namespace OsKernel.Library

/-- A memory assigns one byte to every address. -/
abbrev Bytes := Nat → UInt8

/-- A load reads `width` bytes, the lowest first. -/
def load (m : Bytes) : Nat → Nat → Nat
  | _, 0 => 0
  | a, width + 1 => (m a).toNat + 256 * load m (a + 1) width

/-- A store replaces `width` bytes by the lowest bytes of the value. -/
def store (m : Bytes) (a width v : Nat) : Bytes :=
  fun x => if a ≤ x ∧ x < a + width then UInt8.ofNat (v / 256 ^ (x - a)) else m x

theorem store_inside {m : Bytes} {a width v x : Nat} (lower : a ≤ x) (upper : x < a + width) :
    store m a width v x = UInt8.ofNat (v / 256 ^ (x - a)) := if_pos ⟨lower, upper⟩

theorem store_outside {m : Bytes} {a width v x : Nat} (outside : x < a ∨ a + width ≤ x) :
    store m a width v x = m x := if_neg (by omega)

/-- Only the loaded bytes matter. -/
theorem load_congr {m m' : Bytes} {a width : Nat}
    (same : ∀ x, a ≤ x → x < a + width → m' x = m x) : load m' a width = load m a width := by
  induction width generalizing a with
  | zero => rfl
  | succ width ih =>
      have rest : load m' (a + 1) width = load m (a + 1) width := by
        apply ih
        intro x lower upper
        exact same x (by omega) (by omega)
      simp only [load]
      rw [same a (by omega) (by omega), rest]

/-- A load fits into its width. -/
theorem load_lt (m : Bytes) (a width : Nat) : load m a width < 256 ^ width := by
  induction width generalizing a with
  | zero => simp [load]
  | succ width ih =>
      have low := (m a).toNat_lt
      have high := ih (a + 1)
      rw [load, pow_succ']
      omega

/-- A load returns what was stored, cut to the width. -/
theorem load_store_same (m : Bytes) (a width v : Nat) :
    load (store m a width v) a width = v % 256 ^ width := by
  induction width generalizing a v with
  | zero => simp [load, Nat.mod_one]
  | succ width ih =>
      have rest : load (store m a (width + 1) v) (a + 1) width =
          load (store m (a + 1) width (v / 256)) (a + 1) width := by
        apply load_congr
        intro x lower upper
        have shift : x - a = x - (a + 1) + 1 := by omega
        rw [store_inside (by omega) (by omega), store_inside (by omega) (by omega), shift,
          pow_succ', Nat.div_div_eq_div_mul]
      have lowest : (store m a (width + 1) v a).toNat = v % 256 := by
        rw [store_inside (le_refl a) (by omega)]
        simp
      simp only [load]
      rw [lowest, rest, ih, pow_succ', Nat.mod_mul]

/-- A load ignores a store to other bytes. -/
theorem load_store_apart {m : Bytes} {a b width span v : Nat}
    (apart : a + width ≤ b ∨ b + span ≤ a) : load (store m b span v) a width = load m a width := by
  apply load_congr
  intro x lower upper
  apply store_outside
  omega

section Bounded

variable {size index : Nat} {m : Bytes}

/-- A read of an array fails beyond its size. -/
def fetch (size : Nat) (m : Bytes) (index : Nat) : Option UInt8 := if index < size then some (m index) else none

/-- A write of an array fails beyond its size. -/
def put (size : Nat) (m : Bytes) (index : Nat) (v : UInt8) : Option Bytes :=
  if index < size then some (Function.update m index v) else none

theorem fetch_eq (inside : index < size) : fetch size m index = some (m index) := if_pos inside

theorem put_eq {v : UInt8} (inside : index < size) : put size m index v = some (Function.update m index v) :=
  if_pos inside

end Bounded

end OsKernel.Library
