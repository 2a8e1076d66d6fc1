import OsKernel.Memory.Heap

/-
This file says what the pointer surgery of `heap.c` does to every header.
-/

namespace OsKernel.Mm
open Library

section Absorb

variable {h : Heap} {left right x : Nat} {f : Field}

/-- The absorbed header is still read as it was after the left one is written. -/
theorem get_next_set_left (order : left + 32 ≤ right) (h : Heap) (g : Field) (v : Nat) :
    (h.set g left v).get .next right = h.get .next right := by
  have other : right ≠ left := by omega
  rw [get_set (.inr (.inr order)), if_neg fun same => other same.1]

/-- Absorbing a block writes the size and the link of one header and one link back. -/
theorem get_absorb (order : left + 32 ≤ right) (fits : left < 2 ^ 64) (self : Separate x left)
    (link : h.get .next right ≠ 0 → Separate x (h.get .next right)) :
    (absorb h left right).get f x =
      if x = h.get .next right ∧ h.get .next right ≠ 0 ∧ f = .prev then left
      else if x = left ∧ f = .next then h.get .next right
      else if x = left ∧ f = .size then (h.get .size left + (h.get .size right + 32)) % 2 ^ 32
      else h.get f x := by
  have narrow : left % 2 ^ 64 = left := Nat.mod_eq_of_lt fits
  simp only [absorb, get_next_set_left order]
  rw [get_linkBack link, get_set self, get_set self]
  simp only [narrow]
  cases f <;> simp [Field.width]

theorem absorb_lastBlock (order : left + 32 ≤ right) :
    (absorb h left right).lastBlock = if h.get .next right = 0 then left else h.lastBlock := by
  simp [absorb, get_next_set_left order]

@[simp] theorem absorb_firstBlock : (absorb h left right).firstBlock = h.firstBlock := by
  simp [absorb]

@[simp] theorem absorb_heapStart : (absorb h left right).heapStart = h.heapStart := by
  simp [absorb]

@[simp] theorem absorb_heapEnd : (absorb h left right).heapEnd = h.heapEnd := by
  simp [absorb]

@[simp] theorem absorb_heapSize : (absorb h left right).heapSize = h.heapSize := by
  simp [absorb]

@[simp] theorem absorb_freeSize : (absorb h left right).freeSize = h.freeSize := by
  simp [absorb]

end Absorb

section Split

variable {h : Heap} {current size x : Nat} {f : Field}

/-- The rest of a split block starts behind the kept bytes. -/
def newBlock (current size : Nat) : Nat := current + 32 + size

/-- The header of a free block. -/
def freeHeader (size next prev : Nat) : Field → Nat
  | .size => size
  | .magic => heapMagic
  | .isFree => 1
  | .next => next
  | .prev => prev

/-- The rest of a split block and its header lie inside the block. -/
structure Splits (h : Heap) (current size : Nat) : Prop where
  room : size + 32 ≤ h.get .size current
  bound : current + 32 + h.get .size current ≤ 2 ^ 64
  small : h.get .size current < 2 ^ 32

/-- The address of the rest does not wrap. -/
theorem Splits.address (splits : Splits h current size) :
    add64 (add64 current 32) size = newBlock current size := by
  obtain ⟨room, bound, small⟩ := splits
  rw [add64, add64, newBlock]
  omega

/-- The size of the rest does not wrap. -/
theorem Splits.remainder (splits : Splits h current size) :
    sub64 (sub64 (h.get .size current) size) 32 = h.get .size current - size - 32 := by
  obtain ⟨room, bound, small⟩ := splits
  rw [sub64, sub64]
  omega

/-- The link of the split block is read before it is overwritten, and again from the rest. -/
theorem splitBlock_eq (splits : Splits h current size) :
    splitBlock h current size =
      (((((((h.set .size (newBlock current size) (h.get .size current - size - 32)).set
        .magic (newBlock current size) heapMagic).set
        .isFree (newBlock current size) 1).set
        .next (newBlock current size) (h.get .next current)).set
        .prev (newBlock current size) current).set
        .size current size).set
        .next current (newBlock current size)).linkBack (h.get .next current) (newBlock current size) := by
  have order : current + 32 ≤ newBlock current size := Nat.le_add_right _ _
  have other : newBlock current size ≠ current := by omega
  have ahead : Separate current (newBlock current size) := .inr (.inl order)
  have behind : Separate (newBlock current size) current := .inr (.inr order)
  have itself : Separate (newBlock current size) (newBlock current size) := .inl rfl
  have linkCurrent (h : Heap) (g : Field) (v : Nat) :
      (h.set g (newBlock current size) v).get .next current = h.get .next current := by
    rw [get_set ahead, if_neg fun same => other same.1.symm]
  have linkRest (h : Heap) (g : Field) (v : Nat) :
      (h.set g current v).get .next (newBlock current size) = h.get .next (newBlock current size) := by
    rw [get_set behind, if_neg fun same => other same.1]
  have linkSelf (h : Heap) (g : Field) (v : Nat) :
      (h.set g (newBlock current size) v).get .next (newBlock current size) =
        if .next = g then v % 2 ^ 64 else h.get .next (newBlock current size) := by
    rw [get_set itself]
    simp [Field.width]
  rw [splitBlock, splits.address, splits.remainder]
  simp [linkCurrent, linkRest, linkSelf]

/-- Splitting a block writes two headers and one link back. -/
theorem get_splitBlock (splits : Splits h current size) (self : Separate x current)
    (rest : Separate x (newBlock current size))
    (link : h.get .next current ≠ 0 → Separate x (h.get .next current)) :
    (splitBlock h current size).get f x =
      if x = h.get .next current ∧ h.get .next current ≠ 0 ∧ f = .prev then newBlock current size
      else if x = current ∧ f = .next then newBlock current size
      else if x = current ∧ f = .size then size
      else if x = newBlock current size then
        freeHeader (h.get .size current - size - 32) (h.get .next current) current f
      else h.get f x := by
  obtain ⟨room, bound, small⟩ := id splits
  have wide : newBlock current size < 0x10000000000000000 := by
    rw [newBlock]
    omega
  have near : newBlock current size % 0x10000000000000000 = newBlock current size := Nat.mod_eq_of_lt wide
  have back : current % 0x10000000000000000 = current := Nat.mod_eq_of_lt (by omega)
  have kept : size % 0x100000000 = size := Nat.mod_eq_of_lt (by omega)
  have left : (h.get .size current - size - 32) % 0x100000000 = h.get .size current - size - 32 :=
    Nat.mod_eq_of_lt (by omega)
  rw [splitBlock_eq splits, get_linkBack link]
  simp only [get_set self, get_set rest]
  cases f <;> simp [Field.width, near, back, kept, left, freeHeader, heapMagic]

@[simp] theorem splitBlock_firstBlock : (splitBlock h current size).firstBlock = h.firstBlock := by
  simp [splitBlock]

theorem splitBlock_lastBlock (splits : Splits h current size) : (splitBlock h current size).lastBlock =
    if h.get .next current = 0 then newBlock current size else h.lastBlock := by
  simp [splitBlock_eq splits]

@[simp] theorem splitBlock_heapStart : (splitBlock h current size).heapStart = h.heapStart := by
  simp [splitBlock]

@[simp] theorem splitBlock_heapEnd : (splitBlock h current size).heapEnd = h.heapEnd := by
  simp [splitBlock]

@[simp] theorem splitBlock_heapSize : (splitBlock h current size).heapSize = h.heapSize := by
  simp [splitBlock]

@[simp] theorem splitBlock_freeSize : (splitBlock h current size).freeSize = h.freeSize := by
  simp [splitBlock]

end Split

end OsKernel.Mm
