import OsKernel.Drivers.Itoa
import OsKernel.Drivers.Keyboard

/-
This file models `read_input` of `keyboard.c` over the characters that `get_key` returns.
Its chain of tests stores a backspace that finds an empty line, and the next such backspace deletes it again.
-/

namespace OsKernel.Keyboard
open Library

/-- The caller's buffer with the index `i`, the indices written so far, and the characters echoed. -/
structure Line where
  buffer : Bytes
  index : Nat
  writes : List Nat
  screen : List UInt8

/-- A call still waits for a key, or it has returned and some keys are left. -/
inductive Outcome
  | waiting (line : Line)
  | returned (line : Line) (rest : List UInt8)

def Outcome.line : Outcome → Line
  | .waiting line => line
  | .returned line _ => line

/-- The assignment `buffer[i] = c`. -/
def Line.write (l : Line) (c : UInt8) : Line :=
  { l with buffer := Function.update l.buffer l.index c, writes := l.writes ++ [l.index] }

/-- The branch that steps back, and clears the character on the screen. -/
def Line.erase (l : Line) : Line :=
  { l with index := l.index - 1, screen := l.screen ++ [0x08, 0x20, 0x08] }

/-- The branch that keeps a character, and shows it. -/
def Line.push (l : Line) (c : UInt8) : Line :=
  { l.write c with index := l.index + 1, screen := l.screen ++ [c] }

/-- The loop of `read_input` takes one key in every turn. -/
def readLoop (size : Nat) : List UInt8 → Line → Outcome
  | [], l => .waiting l
  | c :: keys, l =>
      if c = 0x0A ∨ size - 1 ≤ l.index then .returned (l.write 0) keys
      else if c = 0x08 ∧ 0 < l.index then readLoop size keys l.erase
      else readLoop size keys (l.push c)

/-- `read_input` starts at the front of a buffer with any contents. -/
def readInput (size : Nat) (contents : Bytes) (keys : List UInt8) : Outcome :=
  readLoop size keys ⟨contents, 0, [], []⟩

/-- A line editor deletes the last character on a backspace, and appends any other key. -/
def edit (line : List UInt8) (c : UInt8) : List UInt8 := if c = 0x08 then line.dropLast else line ++ [c]

/-- The line that the keys spell. -/
def edited (keys : List UInt8) : List UInt8 := keys.foldl edit []

/-- The backspaces among the keys that find the edited line empty. -/
def blanksFrom (line : List UInt8) : List UInt8 → Nat
  | [] => 0
  | c :: keys => (if c = 0x08 ∧ line = [] then 1 else 0) + blanksFrom (edit line c) keys

def blanks (keys : List UInt8) : Nat := blanksFrom [] keys

/-- The call consumes the newline behind the keys and leaves the edited line in the buffer. -/
def EditsLine (size : Nat) (contents : Bytes) (keys rest : List UInt8) : Prop :=
  ∃ l, readInput size contents (keys ++ 0x0A :: rest) = .returned l rest ∧ Printk.Stored l.buffer (edited keys)

/-- After any keys, in the call or behind it, no index from the size on was written. -/
def WritesInside (size : Nat) (contents : Bytes) (keys : List UInt8) : Prop :=
  ∀ k ∈ (readInput size contents keys).line.writes, k < size

/-- The keys before the newline never let the edited line grow to the size less one. -/
def Fits (size : Nat) (keys : List UInt8) : Prop := ∀ p, p <+: keys → (edited p).length < size - 1

/-- Backspaces on an empty line come in pairs, and one more character fits between the two of a pair. -/
structure Paired (size : Nat) (keys : List UInt8) : Prop where
  even : Even (blanks keys)
  room : ∀ p, p <+: keys → Odd (blanks p) → (edited p).length + 1 < size - 1

section Bounds

variable {size : Nat} {c : UInt8} {l : Line}

/-- The index is inside the buffer and so were all writes. -/
structure Inside (size : Nat) (l : Line) : Prop where
  index : l.index < size
  writes : ∀ k ∈ l.writes, k < size

theorem Inside.write (inside : Inside size l) (c : UInt8) : Inside size (l.write c) := by
  refine ⟨inside.index, ?_⟩
  intro k member
  simp only [Line.write, List.mem_append, List.mem_singleton] at member
  rcases member with old | rfl
  · exact inside.writes k old
  · exact inside.index

theorem Inside.erase (inside : Inside size l) : Inside size l.erase :=
  ⟨Nat.lt_of_le_of_lt (Nat.sub_le _ _) inside.index, inside.writes⟩

theorem Inside.push (inside : Inside size l) (room : l.index < size - 1) (c : UInt8) : Inside size (l.push c) := by
  refine ⟨?_, (inside.write c).writes⟩
  simp only [Line.push]
  omega

/-- Every turn keeps the index and the writes inside the buffer. -/
theorem readLoop_inside (keys : List UInt8) (inside : Inside size l) : Inside size (readLoop size keys l).line := by
  induction keys generalizing l with
  | nil => exact inside
  | cons c keys ih =>
      rw [readLoop]
      split
      next => exact inside.write 0
      next going =>
          split
          next => exact ih inside.erase
          next => exact ih (inside.push (by omega) c)

end Bounds

section Contents

variable {size : Nat} {c : UInt8} {l : Line} {line keys : List UInt8}

/-- The characters before the index are a line. -/
structure Holds (l : Line) (line : List UInt8) : Prop where
  index : l.index = line.length
  chars : ∀ k, k < line.length → l.buffer k = line.getD k 0

/-- What a turn makes of a line: a backspace on an empty line is kept as a character. -/
def keep (line : List UInt8) (c : UInt8) : List UInt8 :=
  if c = 0x08 ∧ 0 < line.length then line.dropLast else line ++ [c]

/-- A fresh call holds the empty line. -/
theorem holds_fresh (contents : Bytes) : Holds ⟨contents, 0, [], []⟩ [] :=
  ⟨rfl, fun k inside => absurd inside (Nat.not_lt_zero k)⟩

theorem Holds.erase (holds : Holds l line) : Holds l.erase line.dropLast := by
  constructor
  · rw [List.length_dropLast, ← holds.index]
    rfl
  · intro k inside
    rw [List.length_dropLast] at inside
    change l.buffer k = _
    rw [holds.chars k (by omega), List.getD_eq_getElem _ _ (by omega),
      List.getD_eq_getElem _ _ (by rw [List.length_dropLast]; exact inside), List.getElem_dropLast]

theorem Holds.push (holds : Holds l line) (c : UInt8) : Holds (l.push c) (line ++ [c]) := by
  constructor
  · rw [List.length_append, ← holds.index]
    rfl
  · intro k inside
    rw [List.length_append, List.length_singleton] at inside
    change Function.update l.buffer l.index c k = _
    by_cases last : k = l.index
    · rw [last, Function.update_self, holds.index]
      simp
    · have before : k < line.length := by
        rw [holds.index] at last
        omega
      rw [Function.update_of_ne last, holds.chars k before, List.getD_append _ _ _ _ before]

/-- The null behind the line makes it a string. -/
theorem Holds.terminated (holds : Holds l line) : Printk.Stored (l.write 0).buffer line := by
  intro k inside
  change Function.update l.buffer l.index 0 k = _
  by_cases last : k = l.index
  · rw [last, Function.update_self, holds.index, List.getD_eq_default _ _ (Nat.le_refl _)]
  · have before : k < line.length := by
      rw [holds.index] at last
      omega
    rw [Function.update_of_ne last, holds.chars k before]

/-- A turn with room takes a key to the line that it makes. -/
theorem readLoop_keep (holds : Holds l line) (other : c ≠ 0x0A) (room : line.length < size - 1) :
    ∃ l', readLoop size (c :: keys) l = readLoop size keys l' ∧ Holds l' (keep line c) := by
  have going : ¬ (c = 0x0A ∨ size - 1 ≤ l.index) := by
    rw [holds.index]
    exact not_or.mpr ⟨other, Nat.not_le.mpr room⟩
  rw [readLoop, if_neg going, keep, holds.index]
  split
  next => exact ⟨l.erase, rfl, holds.erase⟩
  next => exact ⟨l.push c, rfl, holds.push c⟩

/-- While there is room, the keys before a newline are folded into the line. -/
theorem readLoop_fold (more : List UInt8) (holds : Holds l line) (plain : 0x0A ∉ keys)
    (room : ∀ p c q, keys = p ++ c :: q → (p.foldl keep line).length < size - 1) :
    ∃ l', readLoop size (keys ++ more) l = readLoop size more l' ∧ Holds l' (keys.foldl keep line) := by
  induction keys generalizing l line with
  | nil => exact ⟨l, rfl, holds⟩
  | cons c keys ih =>
      rw [List.mem_cons, not_or] at plain
      obtain ⟨l₁, first, holds₁⟩ : ∃ l', readLoop size (c :: (keys ++ more)) l = readLoop size (keys ++ more) l' ∧
          Holds l' (keep line c) := readLoop_keep holds (Ne.symm plain.1) (room [] c keys rfl)
      obtain ⟨l₂, second, holds₂⟩ := ih holds₁ plain.2 (by
        intro p d q cut
        exact room (c :: p) d q (by rw [cut]; rfl))
      exact ⟨l₂, first.trans second, holds₂⟩

/-- A line that is full before one of the keys makes the call return at that key or earlier. -/
theorem readLoop_early (more : List UInt8) (holds : Holds l line) (plain : 0x0A ∉ keys)
    (full : ∃ p c q, keys = p ++ c :: q ∧ size - 1 ≤ (p.foldl keep line).length) :
    ∃ l' left, readLoop size (keys ++ more) l = .returned l' (left ++ more) := by
  induction keys generalizing l line with
  | nil =>
      obtain ⟨p, c, q, cut, _⟩ := full
      simp at cut
  | cons c keys ih =>
      rw [List.mem_cons, not_or] at plain
      by_cases room : line.length < size - 1
      · obtain ⟨l', same, holds'⟩ : ∃ l', readLoop size (c :: (keys ++ more)) l = readLoop size (keys ++ more) l' ∧
            Holds l' (keep line c) := readLoop_keep holds (Ne.symm plain.1) room
        obtain ⟨p, d, q, cut, long⟩ := full
        cases p with
        | nil => exact absurd room (Nat.not_lt.mpr long)
        | cons b p =>
            obtain ⟨rfl, tail⟩ := List.cons.inj cut
            rw [List.cons_append, same]
            exact ih holds' plain.2 ⟨p, d, q, tail, long⟩
      · refine ⟨l.write 0, keys, ?_⟩
        rw [List.cons_append, readLoop, if_pos]
        rw [holds.index]
        omega

/-- The newline ends the call and the line is a string. -/
theorem readLoop_newline (size : Nat) (l : Line) (rest : List UInt8) :
    readLoop size (0x0A :: rest) l = .returned (l.write 0) rest := by
  rw [readLoop, if_pos (.inl rfl)]

end Contents

section Stray

variable {size n : Nat} {contents : Bytes} {line keys rest : List UInt8}

/-- An odd number of backspaces on an empty line leaves one of them in front of the line. -/
def stray (n : Nat) : List UInt8 := if Odd n then [0x08] else []

/-- A backspace that finds no edited line is kept, and the next one deletes it. -/
theorem keep_stray_nil (n : Nat) : keep (stray n) 0x08 = stray (n + 1) := by
  by_cases odd : Odd n
  · have even : ¬ Odd (n + 1) := by
      rw [Nat.not_odd_iff_even]
      exact odd.add_one
    rw [stray, stray, if_pos odd, if_neg even]
    rfl
  · have next : Odd (n + 1) := (Nat.not_odd_iff_even.mp odd).add_one
    rw [stray, stray, if_neg odd, if_pos next]
    rfl

/-- One key makes the same change to both lines, except for a backspace on an empty line. -/
theorem keep_stray (n : Nat) (line : List UInt8) (c : UInt8) :
    keep (stray n ++ line) c = stray (n + if c = 0x08 ∧ line = [] then 1 else 0) ++ edit line c := by
  by_cases back : c = 0x08
  · by_cases empty : line = []
    · rw [if_pos ⟨back, empty⟩, back, empty, List.append_nil, keep_stray_nil]
      exact (List.append_nil _).symm
    · have long : 0 < (stray n ++ line).length := by
        rw [List.length_append]
        have := List.length_pos_iff.mpr empty
        omega
      rw [if_neg fun both => empty both.2, Nat.add_zero, keep, if_pos ⟨back, long⟩, edit, if_pos back,
        List.dropLast_append_of_ne_nil empty]
  · rw [if_neg fun both => back both.1, Nat.add_zero, keep, if_neg fun both => back both.1, edit, if_neg back,
      List.append_assoc]

/-- The loop keeps the edited line, with a stray backspace in front of it after an odd number of blanks. -/
theorem foldl_keep_stray (n : Nat) (line keys : List UInt8) :
    keys.foldl keep (stray n ++ line) = stray (n + blanksFrom line keys) ++ keys.foldl edit line := by
  induction keys generalizing n line with
  | nil => rfl
  | cons c keys ih =>
      rw [List.foldl_cons, List.foldl_cons, keep_stray, ih, blanksFrom, Nat.add_assoc]

theorem foldl_keep (keys : List UInt8) : keys.foldl keep [] = stray (blanks keys) ++ edited keys := by
  have general := foldl_keep_stray 0 [] keys
  rwa [Nat.zero_add] at general

/-- An edited line holds no backspace. -/
theorem backspace_notMem_foldl (clean : 0x08 ∉ line) (keys : List UInt8) : 0x08 ∉ keys.foldl edit line := by
  induction keys generalizing line with
  | nil => exact clean
  | cons c keys ih =>
      apply ih
      rw [edit]
      split
      next => exact fun member => clean (List.mem_of_mem_dropLast member)
      next other =>
          rw [List.mem_append, List.mem_singleton, not_or]
          exact ⟨clean, Ne.symm other⟩

/-- A buffer with a stray backspace in front is not the edited line. -/
theorem stray_not_stored {m : Bytes} (odd : Odd n) (left : Printk.Stored m (stray n ++ edited keys)) :
    ¬ Printk.Stored m (edited keys) := by
  intro right
  have front : m 0 = 0x08 := by
    rw [left 0 (Nat.zero_le _), stray, if_pos odd]
    rfl
  have first := right 0 (Nat.zero_le _)
  rw [front] at first
  cases spelled : edited keys with
  | nil =>
      rw [spelled] at first
      exact absurd first (by decide)
  | cons c line =>
      apply backspace_notMem_foldl List.not_mem_nil keys
      rw [spelled, List.getD_cons_zero] at first
      change 0x08 ∈ edited keys
      rw [spelled, ← first]
      exact List.mem_cons_self

/-- A call that has room before every key returns at the newline with the folded line. -/
theorem readInput_fold (contents : Bytes) (rest : List UInt8) (plain : 0x0A ∉ keys)
    (room : ∀ p c q, keys = p ++ c :: q → (p.foldl keep []).length < size - 1) :
    ∃ l, readInput size contents (keys ++ 0x0A :: rest) = .returned l rest ∧
      Printk.Stored l.buffer (stray (blanks keys) ++ edited keys) := by
  obtain ⟨l, same, holds⟩ := readLoop_fold (0x0A :: rest) (holds_fresh contents) plain room
  rw [foldl_keep] at holds
  exact ⟨l.write 0, same.trans (readLoop_newline size l rest), holds.terminated⟩

/-- The driver delivers no newline, so a call with room still waits after every run of the driver. -/
theorem run_leaves_readInput_waiting {initial : Bytes} {ops : List Op} {s : Session}
    (run : Run Step (start initial) ops s) (contents : Bytes)
    (room : ∀ p c q, s.returned = p ++ c :: q → (p.foldl keep []).length < size - 1) :
    ∃ l, readInput size contents s.returned = .waiting l := by
  have plain : 0x0A ∉ s.returned := fun member => (run_sound run).stored (List.mem_append_left _ member)
  obtain ⟨l, same, _⟩ := readLoop_fold [] (holds_fresh contents) plain room
  rw [List.append_nil] at same
  exact ⟨l, same⟩

/-- A call that consumes the newline had room before every key. -/
theorem EditsLine.room (edits : EditsLine size contents keys rest) (plain : 0x0A ∉ keys) :
    ∀ p c q, keys = p ++ c :: q → (p.foldl keep []).length < size - 1 := by
  intro p c q cut
  by_contra full
  obtain ⟨early, left, returned⟩ :=
    readLoop_early (0x0A :: rest) (holds_fresh contents) plain ⟨p, c, q, cut, Nat.not_lt.mp full⟩
  obtain ⟨l, ended, _⟩ := edits
  have same : left ++ 0x0A :: rest = rest := by
    have both := returned.symm.trans ended
    injection both
  have lengths := congrArg List.length same
  rw [List.length_append, List.length_cons] at lengths
  omega

/-- A call whose blanks are paired edits the line. -/
theorem Paired.editsLine (paired : Paired size keys) (contents : Bytes) (rest : List UInt8) (plain : 0x0A ∉ keys)
    (fits : Fits size keys) : EditsLine size contents keys rest := by
  have room : ∀ p c q, keys = p ++ c :: q → (p.foldl keep []).length < size - 1 := by
    intro p c q cut
    have front : p <+: keys := ⟨c :: q, cut.symm⟩
    rw [foldl_keep, stray, List.length_append]
    split
    next odd =>
        have short := paired.room p front odd
        rw [List.length_singleton]
        omega
    next => simpa using fits p front
  have even : ¬ Odd (blanks keys) := Nat.not_odd_iff_even.mpr paired.even
  obtain ⟨l, ended, stored⟩ := readInput_fold contents rest plain room
  rw [stray, if_neg even, List.nil_append] at stored
  exact ⟨l, ended, stored⟩

/-- A call that edits the line has its blanks paired. -/
theorem EditsLine.paired (edits : EditsLine size contents keys rest) (plain : 0x0A ∉ keys) : Paired size keys := by
  have room := edits.room plain
  obtain ⟨l, ended, stored⟩ := readInput_fold contents rest plain room
  obtain ⟨l', again, right⟩ := edits
  have same : l = l' := by
    have both := ended.symm.trans again
    injection both
  have even : ¬ Odd (blanks keys) := fun odd => stray_not_stored odd (same ▸ stored) right
  refine ⟨Nat.not_odd_iff_even.mp even, ?_⟩
  rintro p ⟨tail, cut⟩ odd
  cases tail with
  | nil =>
      rw [List.append_nil] at cut
      exact absurd (cut ▸ odd) even
  | cons c q =>
      have long := room p c q cut.symm
      rw [foldl_keep, stray, if_pos odd, List.length_append, List.length_singleton] at long
      omega

end Stray

/-- `read_input` never writes outside its buffer, and it edits a line exactly when its blanks are paired. -/
theorem readInput_editsLine_iff (size : Nat) (contents : Bytes) (least : 2 ≤ size) :
    (∀ keys, WritesInside size contents keys) ∧
      ∀ keys rest, 0x0A ∉ keys → Fits size keys → (EditsLine size contents keys rest ↔ Paired size keys) := by
  constructor
  · intro keys
    have fresh : Inside size ⟨contents, 0, [], []⟩ :=
      ⟨Nat.lt_of_lt_of_le Nat.two_pos least, fun k member => absurd member List.not_mem_nil⟩
    exact (readLoop_inside keys fresh).writes
  · intro keys rest plain fits
    constructor
    · intro edits
      exact edits.paired plain
    · intro paired
      exact paired.editsLine contents rest plain fits

/-- The sample types two backspaces on an empty line, then two letters, and deletes the second. -/
theorem readInput_editsLine_sample :
    EditsLine 16 (fun _ => 0) [0x08, 0x08, 0x61, 0x62, 0x08] [0x63] ∧
      edited [0x08, 0x08, 0x61, 0x62, 0x08] = [0x61] := by
  have prefixes : ∀ p ∈ [0x08, 0x08, 0x61, 0x62, (0x08 : UInt8)].inits,
      (edited p).length < 16 - 1 ∧ (Odd (blanks p) → (edited p).length + 1 < 16 - 1) := by decide
  have both := readInput_editsLine_iff 16 (fun _ => 0) (by decide)
  refine ⟨(both.2 _ [0x63] (by decide) ?_).mpr ⟨by decide, ?_⟩, by decide⟩
  · intro p front
    exact (prefixes p ((List.mem_inits _ _).mpr front)).1
  · intro p front odd
    exact (prefixes p ((List.mem_inits _ _).mpr front)).2 odd

/-- A backspace at the start of the line stays in front of the letter. -/
theorem first_backspace_kept : ¬ ∀ size contents, 2 ≤ size → (∀ keys, WritesInside size contents keys) ∧
    ∀ keys rest, 0x0A ∉ keys → Fits size keys → EditsLine size contents keys rest := by
  intro all
  have prefixes : ∀ p ∈ [0x08, (0x61 : UInt8)].inits, (edited p).length < 16 - 1 := by decide
  obtain ⟨l, ended, stored⟩ := (all 16 (fun _ => 0) (by decide)).2 [0x08, 0x61] [] (by decide)
    fun p front => prefixes p ((List.mem_inits _ _).mpr front)
  have kept : (readInput 16 (fun _ => 0) [0x08, 0x61, 0x0A]).line.buffer 0 = 0x08 := by decide
  have shown : l.buffer 0 = 0x61 := stored 0 (Nat.zero_le _)
  rw [show [0x08, 0x61, 0x0A] = [0x08, (0x61 : UInt8)] ++ 0x0A :: [] from rfl, ended] at kept
  rw [Outcome.line, shown] at kept
  exact absurd kept (by decide)

end OsKernel.Keyboard
