import OsKernel.Library.Bytes
import OsKernel.Library.Numeral
import Mathlib.Data.List.GetD

/-
This file models `itoa` of `printk.c` and decides for which numbers it writes their numeral.
-/

namespace OsKernel.Printk
open Library

/-- An `int` has 32 bits and wraps. -/
def wrapInt (v : Int) : Int := (v + 2 ^ 31) % 2 ^ 32 - 2 ^ 31

/-- The character that is stored for a remainder. -/
def remChar (rem : Int) : UInt8 := UInt8.ofInt (if rem > 9 then rem - 10 + 0x61 else rem + 0x30)

/-- The loop stores one character for each division. A write outside the buffer fails. -/
def digitLoop (size : Nat) (base : Int) : Nat → Int → Nat → Bytes → Option (Nat × Bytes)
  | 0, _, _, _ => none
  | fuel + 1, num, i, str =>
      if num = 0 then some (i, str)
      else (put size str i (remChar (num.tmod base))).bind fun str =>
        digitLoop size base fuel (num.tdiv base) (i + 1) str

/-- The loop swaps the two ends and moves inward. -/
def reverseLoop (size : Nat) : Nat → Nat → Nat → Bytes → Option Bytes
  | 0, _, _, _ => none
  | fuel + 1, j, k, str =>
      if j < k then do
        let temp ← fetch size str j
        let last ← fetch size str k
        let str ← put size str j last
        let str ← put size str k temp
        reverseLoop size fuel (j + 1) (k - 1) str
      else some str

/-- The sign and the end are written, and the text is reversed. -/
def finish (size : Nat) (isNegative : Bool) (i : Nat) (str : Bytes) : Option Bytes := do
  let str ← if isNegative then put size str i 0x2D else some str
  let i := if isNegative then i + 1 else i
  let str ← put size str i 0
  reverseLoop size (size + 1) 0 (i - 1) str

/-- `itoa` writes the digits from the last to the first, the sign and the end, and reverses them.
Each turn of a loop writes to another place, so the buffer's size bounds the number of turns. -/
def itoa (size : Nat) (num : Int) (str : Bytes) (base : Int) : Option Bytes :=
  if num = 0 then (put size str 0 0x30).bind fun str => put size str 1 0
  else
    let isNegative := decide (num < 0 ∧ base = 10)
    let num := if isNegative then wrapInt (-num) else num
    (digitLoop size base (size + 1) num 0 str).bind fun r => finish size isNegative r.1 r.2

/-- The text and its terminating null are at the start of the buffer. -/
def Stored (m : Bytes) (text : List UInt8) : Prop := ∀ k, k ≤ text.length → m k = text.getD k 0

section Loops

variable {size base i j k fuel m : Nat} {str : Bytes} {s : Int} {c : UInt8}

/-- A text is written from an index on. -/
def overlay (str : Bytes) : Nat → List UInt8 → Bytes
  | _, [] => str
  | i, c :: rest => overlay (Function.update str i c) (i + 1) rest

theorem overlay_apply (str : Bytes) (i : Nat) (text : List UInt8) (x : Nat) :
    overlay str i text x = if i ≤ x ∧ x < i + text.length then text.getD (x - i) 0 else str x := by
  induction text generalizing str i with
  | nil =>
      rw [overlay, if_neg]
      rw [List.length_nil]
      omega
  | cons c rest ih =>
      rw [overlay, ih, List.length_cons]
      by_cases here : x = i
      · rw [here, if_neg (by omega), if_pos (by omega), Function.update_self, Nat.sub_self, List.getD_cons_zero]
      · by_cases inside : i + 1 ≤ x ∧ x < i + 1 + rest.length
        · obtain ⟨n, rfl⟩ : ∃ n, x = i + 1 + n := ⟨x - (i + 1), by omega⟩
          rw [if_pos inside, if_pos (by omega), Nat.add_sub_cancel_left, Nat.add_assoc, Nat.add_sub_cancel_left,
            Nat.add_comm 1 n, List.getD_cons_succ]
        · rw [if_neg inside, if_neg (by omega), Function.update_of_ne here]

/-- A signed division by a base takes the last digit of the amount. -/
theorem tmod_signed (sign : s = 1 ∨ s = -1) : (s * (m : Int)).tmod base = s * ((m % base : Nat) : Int) := by
  have plain : (m : Int).tmod base = (m % base : Nat) := Int.tmod_eq_emod_of_nonneg (Int.natCast_nonneg m)
  rcases sign with rfl | rfl
  · rw [one_mul, one_mul, plain]
  · rw [neg_one_mul, neg_one_mul, Int.neg_tmod, plain]

theorem tdiv_signed (sign : s = 1 ∨ s = -1) : (s * (m : Int)).tdiv base = s * ((m / base : Nat) : Int) := by
  have plain : (m : Int).tdiv base = (m / base : Nat) := Int.tdiv_eq_ediv_of_nonneg (Int.natCast_nonneg m)
  rcases sign with rfl | rfl
  · rw [one_mul, one_mul, plain]
  · rw [neg_one_mul, neg_one_mul, Int.neg_tdiv, plain]

/-- The characters of the digits of an amount, the last digit first. -/
def remChars (s : Int) (base m : Nat) : List UInt8 := (Nat.digits base m).map fun d : Nat => remChar (s * (d : Int))

/-- The loop writes the characters of all digits. -/
theorem digitLoop_eq (lower : 2 ≤ base) (sign : s = 1 ∨ s = -1) (enough : (Nat.digits base m).length < fuel)
    (room : i + (Nat.digits base m).length ≤ size) :
    digitLoop size base fuel (s * m) i str =
      some (i + (Nat.digits base m).length, overlay str i (remChars s base m)) := by
  induction fuel generalizing m i str with
  | zero => omega
  | succ fuel ih =>
      by_cases zero : m = 0
      · simp [digitLoop, zero, remChars, overlay]
      · have digits := Nat.digits_def' (by omega : 1 < base) (by omega : 0 < m)
        have nonzero : s * (m : Int) ≠ 0 := by
          rcases sign with rfl | rfl <;> omega
        rw [digits, List.length_cons] at enough room ⊢
        rw [digitLoop, if_neg nonzero, put_eq (by omega), Option.bind_some, tdiv_signed sign, tmod_signed sign,
          ih (by omega) (by omega)]
        rw [remChars, remChars, digits, List.map_cons, overlay]
        congr 2
        omega

/-- The loop reverses the range between its two ends. -/
theorem reverseLoop_eq (room : k < size) (enough : k + 1 < fuel + j) (order : j ≤ k + 1) :
    ∃ str', reverseLoop size fuel j k str = some str' ∧
      ∀ x, str' x = if j ≤ x ∧ x ≤ k then str (j + k - x) else str x := by
  induction fuel generalizing j k str with
  | zero => omega
  | succ fuel ih =>
      rw [reverseLoop]
      by_cases inner : j < k
      · rw [if_pos inner, fetch_eq (by omega), fetch_eq room]
        simp only [Option.bind_eq_bind, Option.bind_some, put_eq (show j < size by omega), put_eq room]
        obtain ⟨str', ended, reversed⟩ : ∃ str', reverseLoop size fuel (j + 1) (k - 1)
            (Function.update (Function.update str j (str k)) k (str j)) = some str' ∧ _ :=
          ih (by omega) (by omega) (by omega)
        refine ⟨str', ended, ?_⟩
        intro x
        rw [reversed x]
        by_cases between : j + 1 ≤ x ∧ x ≤ k - 1
        · rw [if_pos between, if_pos (by omega), Function.update_of_ne (by omega), Function.update_of_ne (by omega)]
          congr 1
          omega
        · rw [if_neg between]
          by_cases last : x = k
          · rw [last, Function.update_self, if_pos (by omega), Nat.add_sub_cancel]
          · rw [Function.update_of_ne last]
            by_cases first : x = j
            · rw [first, Function.update_self, if_pos (by omega), Nat.add_sub_cancel_left]
            · rw [Function.update_of_ne first, if_neg (by omega)]
      · rw [if_neg inner]
        refine ⟨str, rfl, ?_⟩
        intro x
        split
        next both =>
            congr 1
            omega
        next => rfl

/-- The text that the three parts of `itoa` leave behind. -/
theorem stored_reversed {text : List UInt8} {m : Bytes} (room : text.length < size) (filled : text ≠ [])
    (written : ∀ x, x < text.length → m x = text.getD x 0) (ended : m text.length = 0) :
    ∃ str', reverseLoop size (size + 1) 0 (text.length - 1) m = some str' ∧ Stored str' text.reverse := by
  have positive : 0 < text.length := List.length_pos_iff.mpr filled
  obtain ⟨str', finished, reversed⟩ : ∃ str', reverseLoop size (size + 1) 0 (text.length - 1) m = some str' ∧ _ :=
    reverseLoop_eq (by omega) (by omega) (by omega)
  refine ⟨str', finished, ?_⟩
  intro x inside
  rw [List.length_reverse] at inside
  rw [reversed x]
  by_cases last : x = text.length
  · rw [if_neg (by omega), last, ended, List.getD_eq_default]
    rw [List.length_reverse]
  · rw [if_pos (by omega), written _ (by omega), List.getD_reverse x (by omega)]
    congr 1
    omega

/-- The text of the loop is finished by its sign and its end. -/
theorem finish_stored {text : List UInt8} {m : Bytes} (isNegative : Bool) (room : text.length + 1 < size)
    (filled : text ≠ []) (written : ∀ x, x < text.length → m x = text.getD x 0) :
    ∃ str', finish size isNegative text.length m = some str' ∧
      Stored str' ((if isNegative then [0x2D] else []) ++ text.reverse) := by
  cases isNegative with
  | false =>
      obtain ⟨str', finished, stored⟩ : ∃ str', reverseLoop size (size + 1) 0 (text.length - 1)
          (Function.update m text.length 0) = some str' ∧ Stored str' text.reverse := by
        apply stored_reversed (by omega) filled
        · intro x inside
          rw [Function.update_of_ne (by omega), written x inside]
        · exact Function.update_self _ _ _
      refine ⟨str', ?_, stored⟩
      have place : text.length < size := by omega
      simpa [finish, put_eq place] using finished
  | true =>
      obtain ⟨str', finished, stored⟩ : ∃ str', reverseLoop size (size + 1) 0 ((text ++ [0x2D]).length - 1)
          (Function.update (Function.update m text.length 0x2D) (text.length + 1) 0) = some str' ∧
            Stored str' (text ++ [0x2D]).reverse := by
        apply stored_reversed
        · rw [List.length_append]
          exact room
        · simp
        · intro x inside
          rw [List.length_append, List.length_singleton] at inside
          rw [Function.update_of_ne (by omega)]
          by_cases last : x = text.length
          · rw [last, Function.update_self, List.getD_append_right _ _ _ _ (Nat.le_refl _), Nat.sub_self]
            rfl
          · rw [Function.update_of_ne last, written x (by omega), List.getD_append _ _ _ _ (by omega)]
        · rw [List.length_append]
          exact Function.update_self _ _ _
      refine ⟨str', ?_, ?_⟩
      · have place : text.length < size := by omega
        simpa [finish, put_eq place, put_eq room] using finished
      · simpa using stored

end Loops

/-- The text of `itoa` for an amount with its sign and its base. -/
def spelled (s : Int) (base m : Nat) (isNegative : Bool) : List UInt8 :=
  (if isNegative then [0x2D] else []) ++ (remChars s base m).reverse

section Spelling

variable {size base m : Nat} {num s : Int}

/-- `itoa` stores the spelled text when it fits. -/
theorem itoa_stored (str : Bytes) (lower : 2 ≤ base) (sign : s = 1 ∨ s = -1) (nonzero : num ≠ 0)
    (amount : (if decide (num < 0 ∧ (base : Int) = 10) then wrapInt (-num) else num) = s * m) (positive : 0 < m)
    (room : (Nat.digits base m).length + 2 ≤ size) :
    ∃ str', itoa size num str base = some str' ∧
      Stored str' (spelled s base m (decide (num < 0 ∧ (base : Int) = 10))) := by
  have length : (remChars s base m).length = (Nat.digits base m).length := List.length_map _
  have filled : remChars s base m ≠ [] := by
    intro empty
    rw [remChars, List.map_eq_nil_iff, Nat.digits_eq_nil_iff_eq_zero] at empty
    omega
  have looped : digitLoop size base (size + 1) (s * m) 0 str =
      some ((remChars s base m).length, overlay str 0 (remChars s base m)) := by
    rw [digitLoop_eq lower sign (by omega) (by omega), Nat.zero_add, length]
  obtain ⟨str', finished, stored⟩ := finish_stored (m := overlay str 0 (remChars s base m))
    (decide (num < 0 ∧ (base : Int) = 10)) (by omega : (remChars s base m).length + 1 < size) filled (by
      intro x inside
      rw [overlay_apply, if_pos (by omega), Nat.sub_zero])
  refine ⟨str', ?_, stored⟩
  simp only [itoa]
  rw [if_neg nonzero, amount, looped, Option.bind_some]
  exact finished

/-- The digits of a positive amount are spelled as digits. -/
theorem remChars_one (lower : 2 ≤ base) (upper : base ≤ 16) :
    (remChars 1 base m).reverse = (Nat.digits base m).reverse.map digitChar := by
  rw [remChars, List.map_reverse]
  congr 1
  apply List.map_congr_left
  intro d member
  have small : d < 16 := lt_of_lt_of_le (Nat.digits_lt_base lower member) upper
  have same : ∀ d : Nat, d < 16 → remChar (1 * (d : Int)) = digitChar d := by decide
  exact same d small

/-- The first character of a negative amount is no digit. -/
theorem remChars_neg (lower : 2 ≤ base) (upper : base ≤ 16) (positive : 0 < m) :
    digitValue ((remChars (-1) base m).reverse.getD 0 0) = none := by
  have nonzero : m ≠ 0 := by omega
  have filled : Nat.digits base m ≠ [] := Nat.digits_ne_nil_iff_ne_zero.mpr nonzero
  have last := Nat.getLast_digit_ne_zero base nonzero
  have small : (Nat.digits base m).getLast filled < base := Nat.digits_lt_base lower (List.getLast_mem filled)
  have strange : ∀ d : Nat, d < 16 → d ≠ 0 → digitValue (remChar (-1 * (d : Int))) = none := by decide
  have first : (remChars (-1) base m).reverse.head? =
      some (remChar (-1 * ((Nat.digits base m).getLast filled : Int))) := by
    rw [List.head?_reverse, remChars, List.getLast?_map, List.getLast?_eq_getLast_of_ne_nil filled]
    rfl
  obtain ⟨rest, shape⟩ := List.head?_eq_some_iff.mp first
  rw [shape, List.getD_cons_zero]
  exact strange _ (by omega) last

/-- The digits of a 32-bit amount fit the buffer with their sign and their end. -/
theorem digits_fit (lower : 10 ≤ base) (bounded : m ≤ 2 ^ 32) : (Nat.digits base m).length + 2 ≤ 32 := by
  have short : (Nat.digits base m).length ≤ 10 := by
    rw [Nat.digits_length_le_iff (by omega)]
    exact lt_of_le_of_lt bounded (lt_of_lt_of_le (by norm_num) (Nat.pow_le_pow_left lower 10))
  omega

end Spelling

/-- The text is the decimal numeral of the number, with a sign in front of a negative one. -/
def DecimalNumeral (text : List UInt8) (num : Int) : Prop :=
  if num < 0 then ∃ digits, text = 0x2D :: digits ∧ Canonical 10 digits (-num).toNat
  else Canonical 10 text num.toNat

/-- The text is the hexadecimal numeral of the number taken without a sign. -/
def HexNumeral (text : List UInt8) (num : Int) : Prop := Canonical 16 text (num % 2 ^ 32).toNat

/-- `itoa` returns, within the buffer, with a text of the given kind. -/
def Encodes (numeral : List UInt8 → Int → Prop) (base num : Int) : Prop :=
  ∀ str, ∃ str' text, itoa 32 num str base = some str' ∧ Stored str' text ∧ text.length < 32 ∧ numeral text num

section Encoding

variable {base m : Nat} {num s : Int}

/-- Zero is written as one digit. -/
theorem itoa_zero (str : Bytes) (base : Int) : ∃ str', itoa 32 0 str base = some str' ∧ Stored str' [0x30] := by
  refine ⟨Function.update (Function.update str 0 0x30) 1 0, rfl, ?_⟩
  intro k inside
  rw [List.length_singleton] at inside
  interval_cases k
  · rfl
  · rfl

theorem canonical_zero (base : Nat) (positive : 0 < base) : Canonical base [0x30] 0 := by
  refine ⟨by simp, ?_, fun _ => rfl, by simp [decode, digitValue]⟩
  intro c member
  rw [List.mem_singleton.mp member]
  exact ⟨0, positive, by decide⟩

theorem spelled_length (isNegative : Bool) (lower : 10 ≤ base) (bounded : m ≤ 2 ^ 32) :
    (spelled s base m isNegative).length < 32 := by
  have fits := digits_fit lower bounded
  have length : (remChars s base m).length = (Nat.digits base m).length := List.length_map _
  rw [spelled, List.length_append, List.length_reverse, length]
  split
  · rw [List.length_singleton]
    omega
  · rw [List.length_nil]
    omega

/-- No character is null. -/
theorem zero_notMem_spelled (sign : s = 1 ∨ s = -1) (lower : 2 ≤ base) (upper : base ≤ 16) (isNegative : Bool) :
    0 ∉ spelled s base m isNegative := by
  have visible : ∀ d : Nat, d < 16 → remChar (1 * (d : Int)) ≠ 0 ∧ remChar (-1 * (d : Int)) ≠ 0 := by decide
  rw [spelled, List.mem_append, List.mem_reverse, remChars, List.mem_map]
  rintro (flag | ⟨d, member, null⟩)
  · cases isNegative <;> simp at flag
  · have small : d < 16 := lt_of_lt_of_le (Nat.digits_lt_base lower member) upper
    rcases sign with rfl | rfl
    · exact (visible d small).1 null
    · exact (visible d small).2 null

/-- `itoa` returns for every number, and its text does not depend on the buffer. -/
theorem itoa_total (lower : -2 ^ 31 ≤ num) (upper : num < 2 ^ 31) (known : base = 10 ∨ base = 16) :
    ∃ text : List UInt8, text.length < 32 ∧ 0 ∉ text ∧
      ∀ str, ∃ str', itoa 32 num str base = some str' ∧ Stored str' text := by
  by_cases zero : num = 0
  · subst zero
    exact ⟨[0x30], by simp, by decide, fun str => itoa_zero str base⟩
  · generalize amount : (if decide (num < 0 ∧ (base : Int) = 10) then wrapInt (-num) else num) = n
    have bounds : n ≠ 0 ∧ -2 ^ 31 ≤ n ∧ n ≤ 2 ^ 31 := by
      rw [← amount]
      split
      · rw [wrapInt]
        omega
      · omega
    obtain ⟨s, sign, signed⟩ : ∃ s : Int, (s = 1 ∨ s = -1) ∧ n = s * (n.natAbs : Int) := by
      rcases Int.natAbs_eq n with positive | negative
      · exact ⟨1, .inl rfl, by omega⟩
      · exact ⟨-1, .inr rfl, by omega⟩
    refine ⟨spelled s base n.natAbs (decide (num < 0 ∧ (base : Int) = 10)), spelled_length _ (by omega) (by omega),
      zero_notMem_spelled sign (by omega) (by omega) _, ?_⟩
    intro str
    exact itoa_stored str (by omega) sign zero (amount.trans signed) (by omega) (digits_fit (by omega) (by omega))

/-- A number that is spelled with a positive amount is encoded by the spelled text. -/
theorem encodes_of_spelled {numeral : List UInt8 → Int → Prop} (base m : Nat) (lower : 10 ≤ base)
    (bounded : m ≤ 2 ^ 32) (positive : 0 < m) (nonzero : num ≠ 0)
    (amount : (if decide (num < 0 ∧ (base : Int) = 10) then wrapInt (-num) else num) = 1 * (m : Int))
    (right : numeral (spelled 1 base m (decide (num < 0 ∧ (base : Int) = 10))) num) : Encodes numeral base num := by
  intro str
  obtain ⟨str', ended, stored⟩ := itoa_stored str (by omega) (.inl rfl) nonzero amount positive
    (digits_fit lower bounded)
  exact ⟨str', _, ended, stored, spelled_length _ lower bounded, right⟩

/-- A number that is not negative is encoded in both bases. -/
theorem encodes_nonneg (upper : num < 2 ^ 31) (sign : 0 ≤ num) :
    Encodes DecimalNumeral 10 num ∧ Encodes HexNumeral 16 num := by
  have positive : ¬ num < 0 := by omega
  have hex : (num % 2 ^ 32).toNat = num.toNat := by omega
  by_cases zero : num = 0
  · subst zero
    refine ⟨?_, ?_⟩
    · intro str
      obtain ⟨str', ended, stored⟩ := itoa_zero str 10
      refine ⟨str', [0x30], ended, stored, by simp, ?_⟩
      rw [DecimalNumeral, if_neg (by omega)]
      exact canonical_zero 10 (by norm_num)
    · intro str
      obtain ⟨str', ended, stored⟩ := itoa_zero str 16
      exact ⟨str', [0x30], ended, stored, by simp, canonical_zero 16 (by norm_num)⟩
  · refine ⟨?_, ?_⟩
    · apply encodes_of_spelled 10 num.toNat (by omega) (by omega) (by omega) zero
      · simp [positive]
        omega
      · rw [DecimalNumeral, if_neg positive, spelled]
        simp only [positive, false_and, decide_false, Bool.false_eq_true, if_false, List.nil_append]
        rw [remChars_one (by norm_num) (by norm_num)]
        exact canonical_digits (by norm_num) (by norm_num) (by omega)
    · apply encodes_of_spelled 16 num.toNat (by omega) (by omega) (by omega) zero
      · simp [positive]
        omega
      · rw [HexNumeral, hex, spelled]
        simp only [positive, false_and, decide_false, Bool.false_eq_true, if_false, List.nil_append]
        rw [remChars_one (by norm_num) (by norm_num)]
        exact canonical_digits (by norm_num) (by norm_num) (by omega)

/-- A negative number that can be negated is encoded in base ten. -/
theorem encodes_negative (sign : num < 0) (lower : -2 ^ 31 < num) : Encodes DecimalNumeral 10 num := by
  have flag : decide (num < 0 ∧ ((10 : Nat) : Int) = 10) = true := by simp [sign]
  apply encodes_of_spelled 10 (-num).toNat (by omega) (by omega) (by omega) (by omega)
  · rw [flag, if_pos rfl, wrapInt]
    omega
  · rw [DecimalNumeral, if_pos sign, flag, spelled, if_pos rfl]
    refine ⟨_, rfl, ?_⟩
    rw [remChars_one (by norm_num) (by norm_num)]
    exact canonical_digits (by norm_num) (by norm_num) (by omega)

/-- Two texts in one buffer have the same characters. -/
theorem Stored.getD_eq {str : Bytes} {first second : List UInt8} {k : Nat} (left : Stored str first)
    (right : Stored str second) (inside : k ≤ first.length) (within : k ≤ second.length) :
    first.getD k 0 = second.getD k 0 := by
  rw [← left k inside, right k within]

/-- The first digit of a canonical numeral is a digit. -/
theorem canonical_first {text : List UInt8} {n : Nat} (canonical : Canonical base text n) :
    digitValue (text.getD 0 0) ≠ none := by
  obtain ⟨c, rest, rfl⟩ := List.exists_cons_of_ne_nil canonical.nonempty
  obtain ⟨v, _, value⟩ := canonical.digits c List.mem_cons_self
  rw [List.getD_cons_zero, value]
  simp

/-- A negative number is spelled with negative remainders in base sixteen. -/
theorem itoa_hex_negative (str : Bytes) (sign : num < 0) (lower : -2 ^ 31 ≤ num) :
    ∃ str', itoa 32 num str 16 = some str' ∧ Stored str' (remChars (-1) 16 (-num).toNat).reverse := by
  have flag : decide (num < 0 ∧ ((16 : Nat) : Int) = 10) = false := by simp
  have amount : (if decide (num < 0 ∧ ((16 : Nat) : Int) = 10) then wrapInt (-num) else num) =
      -1 * ((-num).toNat : Int) := by
    rw [flag, if_neg (by simp)]
    omega
  obtain ⟨str', ended, stored⟩ := itoa_stored str (by norm_num) (.inr rfl) (by omega) amount (by omega)
    (digits_fit (by norm_num) (by omega))
  rw [flag] at stored
  exact ⟨str', ended, stored⟩

/-- The least number stays negative in base ten. -/
theorem itoa_least (str : Bytes) :
    ∃ str', itoa 32 (-2 ^ 31) str 10 = some str' ∧ Stored str' (0x2D :: (remChars (-1) 10 (2 ^ 31)).reverse) := by
  have amount : (if decide (-2 ^ 31 < 0 ∧ ((10 : Nat) : Int) = 10) then wrapInt (-(-2 ^ 31)) else -2 ^ 31) =
      -1 * ((2 ^ 31 : Nat) : Int) := by decide
  exact itoa_stored str (by norm_num) (.inr rfl) (by norm_num) amount (by norm_num)
    (digits_fit (by norm_num) (by norm_num))

/-- A negative number is not encoded in base sixteen. -/
theorem not_encodes_hex (sign : num < 0) (lower : -2 ^ 31 ≤ num) : ¬ Encodes HexNumeral 16 num := by
  intro encodes
  obtain ⟨str', text, ended, stored, _, numeral⟩ := encodes fun _ => 0
  obtain ⟨str'', again, spelt⟩ := itoa_hex_negative (fun _ => 0) sign lower
  obtain rfl := Option.some.inj (ended.symm.trans again)
  apply canonical_first numeral
  rw [stored.getD_eq spelt (Nat.zero_le _) (Nat.zero_le _)]
  exact remChars_neg (by norm_num) (by norm_num) (by omega)

/-- The least number is not encoded in base ten. -/
theorem not_encodes_least : ¬ Encodes DecimalNumeral 10 (-2 ^ 31) := by
  intro encodes
  obtain ⟨str', text, ended, stored, _, numeral⟩ := encodes fun _ => 0
  obtain ⟨str'', again, spelt⟩ := itoa_least fun _ => 0
  obtain rfl := Option.some.inj (ended.symm.trans again)
  rw [DecimalNumeral, if_pos (by norm_num)] at numeral
  obtain ⟨digits, rfl, canonical⟩ := numeral
  apply canonical_first canonical
  have same := stored.getD_eq spelt (k := 1) (by simp) (by simp)
  rw [List.getD_cons_succ, List.getD_cons_succ] at same
  rw [same]
  exact remChars_neg (by norm_num) (by norm_num) (by norm_num)

end Encoding

/-- `itoa` writes the decimal numeral of all numbers but the least one, and the hexadecimal numeral of
those that are not negative. -/
theorem itoa_encodes_iff (num : Int) (lower : -2 ^ 31 ≤ num) (upper : num < 2 ^ 31) :
    (Encodes DecimalNumeral 10 num ↔ num ≠ -2 ^ 31) ∧ (Encodes HexNumeral 16 num ↔ 0 ≤ num) := by
  refine ⟨⟨?_, ?_⟩, ⟨?_, ?_⟩⟩
  · rintro encodes rfl
    exact not_encodes_least encodes
  · intro other
    by_cases sign : 0 ≤ num
    · exact (encodes_nonneg upper sign).1
    · exact encodes_negative (by omega) (by omega)
  · intro encodes
    by_contra sign
    exact not_encodes_hex (by omega) lower encodes
  · intro sign
    exact (encodes_nonneg upper sign).2

/-- The sample is negative and has two digits. -/
theorem itoa_encodes_sample : Encodes DecimalNumeral 10 (-42) ∧ ¬ Encodes HexNumeral 16 (-42) :=
  ⟨(itoa_encodes_iff (-42) (by norm_num) (by norm_num)).1.mpr (by norm_num),
    fun encodes => absurd ((itoa_encodes_iff (-42) (by norm_num) (by norm_num)).2.mp encodes) (by norm_num)⟩

/-- The number -1 is not written as eight hexadecimal digits. -/
theorem minus_one_misspelled : ¬ ∀ num : Int, -2 ^ 31 ≤ num → num < 2 ^ 31 →
    Encodes DecimalNumeral 10 num ∧ Encodes HexNumeral 16 num := by
  intro all
  exact not_encodes_hex (by norm_num) (by norm_num) (all (-1) (by norm_num) (by norm_num)).2

end OsKernel.Printk
