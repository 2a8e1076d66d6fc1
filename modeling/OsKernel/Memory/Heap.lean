import OsKernel.Library.Bytes

/-
This file models the kernel heap of `heap.c` over a byte memory.
An address is a 64-bit number, and `NULL` is the address zero.
-/

namespace OsKernel.Mm
open Library

/-- Each field of `block_header_t` has an offset and a width. -/
inductive Field
  | size
  | magic
  | isFree
  | next
  | prev
  deriving DecidableEq

/-- The offsets follow the x86_64 layout, in which a header takes 32 bytes. -/
def Field.offset : Field → Nat
  | .size => 0
  | .magic => 4
  | .isFree => 8
  | .next => 16
  | .prev => 24

/-- The widths of `uint32_t`, `uint8_t` and pointer fields. -/
def Field.width : Field → Nat
  | .size => 4
  | .magic => 4
  | .isFree => 1
  | .next => 8
  | .prev => 8

/-- The value `HEAP_MAGIC` marks a header. -/
def heapMagic : Nat := 0x12345678

/-- The heap manager together with the memory that holds the headers. -/
structure Heap where
  firstBlock : Nat
  lastBlock : Nat
  heapStart : Nat
  heapEnd : Nat
  heapSize : Nat
  freeSize : Nat
  mem : Bytes

/-- Reads a header field. -/
def Heap.get (h : Heap) (f : Field) (block : Nat) : Nat := load h.mem (block + f.offset) f.width

/-- Writes a header field, cut to its width. -/
def Heap.set (h : Heap) (f : Field) (block v : Nat) : Heap :=
  { h with mem := store h.mem (block + f.offset) f.width v }

/-- The 64-bit sum. -/
def add64 (a b : Nat) : Nat := (a + b) % 2 ^ 64

/-- The 64-bit difference. -/
def sub64 (a b : Nat) : Nat := (a + (2 ^ 64 - b % 2 ^ 64)) % 2 ^ 64

/-- The start is moved up by this distance. -/
def adjust (start : Nat) : Nat := if start % 16 = 0 then 0 else 16 - start % 16

/-- The size that remains after both alignments. -/
def usable (start size : Nat) : Nat := sub64 size (adjust start) / 16 * 16

/-- `heap_init` makes one free block of the aligned range. -/
def heapInit (h : Heap) (start size : Nat) : Heap :=
  let start' := add64 start (adjust start)
  let size' := usable start size
  let h := { h with heapStart := start', heapEnd := add64 start' size', heapSize := size', freeSize := size' }
  let h := h.set .size start' (sub64 size' 32)
  let h := h.set .magic start' heapMagic
  let h := h.set .isFree start' 1
  let h := h.set .next start' 0
  let h := h.set .prev start' 0
  { h with firstBlock := start', lastBlock := start' }

/-- The request is rounded up to 16 bytes in 64-bit arithmetic. -/
def alignUp (size : Nat) : Nat := add64 size 15 / 16 * 16

/-- The search returns the first fitting block, or zero, or nothing when the fuel runs out. -/
def findFit (h : Heap) (size : Nat) : Nat → Nat → Option Nat
  | 0, _ => none
  | fuel + 1, current =>
      if current = 0 then some 0
      else if h.get .isFree current ≠ 0 ∧ size ≤ h.get .size current then some current
      else findFit h size fuel (h.get .next current)

/-- The link back to a block is redirected, or the block is the last one. -/
def Heap.linkBack (h : Heap) (next block : Nat) : Heap :=
  if next ≠ 0 then h.set .prev next block else { h with lastBlock := block }

/-- The block is cut behind `size` bytes, and the rest becomes a free block. -/
def splitBlock (h : Heap) (current size : Nat) : Heap :=
  let newBlock := add64 (add64 current 32) size
  let h := h.set .size newBlock (sub64 (sub64 (h.get .size current) size) 32)
  let h := h.set .magic newBlock heapMagic
  let h := h.set .isFree newBlock 1
  let h := h.set .next newBlock (h.get .next current)
  let h := h.set .prev newBlock current
  let h := h.set .size current size
  let h := h.set .next current newBlock
  h.linkBack (h.get .next newBlock) newBlock

/-- The block is marked as allocated, and the free size shrinks by it. -/
def takeBlock (h : Heap) (current : Nat) : Heap :=
  let h := h.set .isFree current 0
  { h with freeSize := sub64 h.freeSize (h.get .size current + 32) }

/-- `kmalloc` serves the first fit, split when it is much too large. -/
def kmalloc (fuel : Nat) (h : Heap) (n : Nat) : Option (Nat × Heap) :=
  let size := alignUp n
  (findFit h size fuel h.firstBlock).map fun current =>
    if current = 0 then (0, h)
    else
      let h := if h.get .size current > add64 (add64 size 32) 16 then splitBlock h current size else h
      (add64 current 32, takeBlock h current)

/-- The left block takes over the right one and its link. -/
def absorb (h : Heap) (left right : Nat) : Heap :=
  let h := h.set .size left (h.get .size left + (h.get .size right + 32))
  let h := h.set .next left (h.get .next right)
  h.linkBack (h.get .next right) left

/-- A neighbour counts when the link is not null and its block is free. -/
def Heap.isFreeBlock (h : Heap) (block : Nat) : Bool := block ≠ 0 ∧ h.get .isFree block ≠ 0

/-- The block is marked as free, and the free size grows by it. -/
def freeBlock (h : Heap) (block : Nat) : Heap :=
  let h := h.set .isFree block 1
  { h with freeSize := add64 h.freeSize (h.get .size block + 32) }

/-- The freed block absorbs the block behind it. -/
def mergeNext (h : Heap) (block : Nat) : Heap :=
  if h.isFreeBlock (h.get .next block) then absorb h block (h.get .next block) else h

/-- The freed block is absorbed by the block in front of it. -/
def mergePrev (h : Heap) (block : Nat) : Heap :=
  if h.isFreeBlock (h.get .prev block) then absorb h (h.get .prev block) block else h

/-- `kfree` ignores null and a header without the magic value. -/
def kfree (h : Heap) (ptr : Nat) : Heap :=
  if ptr = 0 then h
  else
    let block := sub64 ptr 32
    if h.get .magic block ≠ heapMagic then h
    else mergePrev (mergeNext (freeBlock h block) block) block

/-- `heap_stats` reports the total and the free size. -/
def heapStats (h : Heap) : Nat × Nat := (h.heapSize, h.freeSize)

section Access

variable {h : Heap} {f g : Field} {a b v : Nat}

@[simp] theorem set_firstBlock : (h.set f a v).firstBlock = h.firstBlock := rfl
@[simp] theorem set_lastBlock : (h.set f a v).lastBlock = h.lastBlock := rfl
@[simp] theorem set_heapStart : (h.set f a v).heapStart = h.heapStart := rfl
@[simp] theorem set_heapEnd : (h.set f a v).heapEnd = h.heapEnd := rfl
@[simp] theorem set_heapSize : (h.set f a v).heapSize = h.heapSize := rfl
@[simp] theorem set_freeSize : (h.set f a v).freeSize = h.freeSize := rfl

@[simp] theorem takeBlock_heapStart : (takeBlock h a).heapStart = h.heapStart := by
  rw [takeBlock, set_heapStart]
@[simp] theorem takeBlock_heapSize : (takeBlock h a).heapSize = h.heapSize := by
  rw [takeBlock, set_heapSize]
@[simp] theorem freeBlock_heapStart : (freeBlock h a).heapStart = h.heapStart := by
  rw [freeBlock, set_heapStart]
@[simp] theorem freeBlock_heapSize : (freeBlock h a).heapSize = h.heapSize := by
  rw [freeBlock, set_heapSize]

/-- A field lies inside its header. -/
theorem Field.inside (f : Field) : f.offset + f.width ≤ 32 := by
  cases f <;> decide

/-- The fields of one header do not overlap. -/
theorem Field.apart (different : f ≠ g) :
    f.offset + f.width ≤ g.offset ∨ g.offset + g.width ≤ f.offset := by
  cases f <;> cases g <;> first | exact absurd rfl different | decide

/-- Two headers are the same or do not overlap. -/
def Separate (a b : Nat) : Prop := a = b ∨ a + 32 ≤ b ∨ b + 32 ≤ a

/-- Only the bytes of the header matter. -/
theorem get_congr {h' : Heap} (same : ∀ x, a ≤ x → x < a + 32 → h'.mem x = h.mem x) :
    h'.get f a = h.get f a := by
  apply load_congr
  intro x lower upper
  have inside := f.inside
  exact same x (by omega) (by omega)

/-- A write changes the one field that it names. -/
theorem get_set (separate : Separate a b) :
    (h.set g b v).get f a = if a = b ∧ f = g then v % 256 ^ f.width else h.get f a := by
  split
  next same =>
      obtain ⟨rfl, rfl⟩ := same
      exact load_store_same _ _ _ _
  next different =>
      apply load_store_apart
      rcases separate with rfl | apart
      · have fields : f.offset + f.width ≤ g.offset ∨ g.offset + g.width ≤ f.offset :=
          Field.apart fun same => different ⟨rfl, same⟩
        omega
      · have first := f.inside
        have second := g.inside
        omega

/-- A link field reads back as it is. -/
@[simp] theorem get_next_mod : h.get .next a % 0x10000000000000000 = h.get .next a := by
  have bound : h.get .next a < 256 ^ 8 := load_lt _ _ _
  omega

@[simp] theorem linkBack_firstBlock : (h.linkBack a b).firstBlock = h.firstBlock := by
  rw [Heap.linkBack]
  split <;> rfl

@[simp] theorem linkBack_heapStart : (h.linkBack a b).heapStart = h.heapStart := by
  rw [Heap.linkBack]
  split <;> rfl

@[simp] theorem linkBack_heapEnd : (h.linkBack a b).heapEnd = h.heapEnd := by
  rw [Heap.linkBack]
  split <;> rfl

@[simp] theorem linkBack_heapSize : (h.linkBack a b).heapSize = h.heapSize := by
  rw [Heap.linkBack]
  split <;> rfl

@[simp] theorem linkBack_freeSize : (h.linkBack a b).freeSize = h.freeSize := by
  rw [Heap.linkBack]
  split <;> rfl

@[simp] theorem linkBack_lastBlock :
    (h.linkBack a b).lastBlock = if a = 0 then b else h.lastBlock := by
  by_cases null : a = 0
  · simp [Heap.linkBack, null]
  · simp [Heap.linkBack, null]

/-- The link back is the only field that changes. -/
theorem get_linkBack {x : Nat} (separate : a ≠ 0 → Separate x a) :
    (h.linkBack a b).get f x = if x = a ∧ a ≠ 0 ∧ f = .prev then b % 2 ^ 64 else h.get f x := by
  rw [Heap.linkBack]
  split
  next linked =>
      rw [get_set (separate linked)]
      split
      next named =>
          rw [if_pos ⟨named.1, linked, named.2⟩, named.2]
          norm_num [Field.width]
      next other => rw [if_neg fun named => other ⟨named.1, named.2.2⟩]
  next last =>
      rw [if_neg fun named => last named.2.1]
      rfl

end Access

end OsKernel.Mm
