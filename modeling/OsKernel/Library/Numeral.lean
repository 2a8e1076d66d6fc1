import Mathlib.Data.Nat.Digits.Lemmas
import Mathlib.Tactic

/-
This file says what a numeral of a base up to sixteen is, and that the digits of a number form one.
-/

namespace OsKernel.Library

/-- The value of a character, if it is a lower-case hexadecimal digit. -/
def digitValue (c : UInt8) : Option Nat :=
  if 0x30 ≤ c.toNat ∧ c.toNat ≤ 0x39 then some (c.toNat - 0x30)
  else if 0x61 ≤ c.toNat ∧ c.toNat ≤ 0x66 then some (c.toNat - 0x61 + 10)
  else none

/-- The number that a text stands for. -/
def decode (base : Nat) (text : List UInt8) : Nat :=
  text.foldl (fun n c => n * base + (digitValue c).getD 0) 0

/-- A canonical numeral has only digits of the base and no leading zero. -/
structure Canonical (base : Nat) (text : List UInt8) (n : Nat) : Prop where
  nonempty : text ≠ []
  digits : ∀ c ∈ text, ∃ v, v < base ∧ digitValue c = some v
  leading : text.head? = some 0x30 → text = [0x30]
  value : decode base text = n

/-- The character of a digit. -/
def digitChar (d : Nat) : UInt8 := UInt8.ofNat (if d > 9 then d - 10 + 0x61 else d + 0x30)

section Digits

variable {base d n : Nat}

theorem digitValue_digitChar (small : d < 16) : digitValue (digitChar d) = some d := by
  revert d
  decide

/-- Decoding the characters of digits gives the number back. -/
theorem decode_map (digits : List Nat) (small : ∀ d ∈ digits, d < 16) :
    decode base (digits.reverse.map digitChar) = Nat.ofDigits base digits := by
  induction digits with
  | nil => rfl
  | cons d rest ih =>
      have known := ih fun e member => small e (List.mem_cons_of_mem d member)
      rw [decode] at known ⊢
      rw [List.reverse_cons, List.map_append, List.foldl_append, known, Nat.ofDigits_cons]
      simp only [List.map_cons, List.map_nil, List.foldl_cons, List.foldl_nil,
        digitValue_digitChar (small d List.mem_cons_self), Option.getD_some]
      ring

/-- The characters of the digits of a positive number form its numeral. -/
theorem canonical_digits (lower : 2 ≤ base) (upper : base ≤ 16) (positive : 0 < n) :
    Canonical base ((Nat.digits base n).reverse.map digitChar) n := by
  have nonzero : n ≠ 0 := by omega
  have filled : Nat.digits base n ≠ [] := Nat.digits_ne_nil_iff_ne_zero.mpr nonzero
  have below : ∀ d ∈ Nat.digits base n, d < base := fun d member => Nat.digits_lt_base lower member
  refine ⟨by simpa using filled, ?_, ?_, ?_⟩
  · intro c member
    obtain ⟨d, listed, rfl⟩ := List.mem_map.mp member
    have small := below d (List.mem_reverse.mp listed)
    exact ⟨d, small, digitValue_digitChar (by omega)⟩
  · intro zero
    exfalso
    have last := Nat.getLast_digit_ne_zero base nonzero
    rw [List.head?_map, List.head?_reverse, List.getLast?_eq_getLast_of_ne_nil filled] at zero
    have small := below _ (List.getLast_mem filled)
    have same : digitChar ((Nat.digits base n).getLast filled) = 0x30 := Option.some.inj zero
    have value := digitValue_digitChar (d := (Nat.digits base n).getLast filled) (by omega)
    rw [same] at value
    exact last (Option.some.inj value).symm
  · rw [decode_map _ fun d member => by have small := below d member; omega]
    exact Nat.ofDigits_digits base n

end Digits

end OsKernel.Library
