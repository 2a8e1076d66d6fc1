import OsKernel.Memory.HeapSafety

/-
This file decides for which regions `heap_init` manages only the memory that it was given.
The alignment may wrap below zero, and the size field of the first header keeps 32 bits.
-/

namespace OsKernel.Mm
open Library

/-- The number of bytes between the two ends of the heap, in 64-bit arithmetic. -/
def managed (h : Heap) : Nat := sub64 h.heapEnd h.heapStart

/-- A block lies in the region with its header and its payload. -/
def BlockInside (h : Heap) (start size p : Nat) : Prop := start + 32 ≤ p ∧ p + blockSize h p ≤ start + size

/-- `heap_init` and the later calls of `kmalloc` stay in the given region. -/
structure StaysInside (h : Heap) (start size : Nat) : Prop where
  lower : start ≤ (heapInit h start size).heapStart
  upper : (heapInit h start size).heapStart + managed (heapInit h start size) ≤ start + size
  header : 32 ≤ managed (heapInit h start size)
  extent : add64 ((heapInit h start size).firstBlock + 32)
    ((heapInit h start size).get .size (heapInit h start size).firstBlock) = (heapInit h start size).heapEnd
  served : ∀ requests c, Run Step (boot h start size) (List.map Op.kmalloc requests) c →
    ∀ p ∈ c.live, BlockInside c.heap start size p

section Region

variable {h : Heap} {start size : Nat}

/-- The managed range has the aligned size. -/
theorem managed_heapInit : managed (heapInit h start size) = usable start size := by
  have bound : usable start size < 2 ^ 64 :=
    lt_of_le_of_lt (Nat.div_mul_le_self _ 16) (Nat.mod_lt _ (by norm_num))
  have placed : add64 start (adjust start) < 2 ^ 64 := Nat.mod_lt _ (by norm_num)
  change sub64 (add64 (add64 start (adjust start)) (usable start size)) (add64 start (adjust start)) = _
  generalize add64 start (adjust start) = origin at placed ⊢
  rw [sub64, add64]
  omega

/-- The size field of the first header keeps 32 bits of the remaining size. -/
theorem get_size_heapInit : (heapInit h start size).get .size (heapInit h start size).firstBlock =
    sub64 (usable start size) 32 % 2 ^ 32 := by
  have first : (heapInit h start size).firstBlock = add64 start (adjust start) := rfl
  rw [first]
  change Heap.get (Heap.set (Heap.set (Heap.set (Heap.set (Heap.set _ _ _ _) _ _ _) _ _ _) _ _ _) _ _ _) .size _ = _
  simp only [get_set (.inl rfl)]
  simp [Field.width]

/-- The adjustment is below one unit. -/
theorem adjust_lt (start : Nat) : adjust start < 16 := by
  rw [adjust]
  split <;> omega

/-- A region that holds the adjustment loses it and the last partial unit. -/
theorem usable_eq (held : adjust start ≤ size) (bounded : size < 2 ^ 64) :
    usable start size = (size - adjust start) / 16 * 16 := by
  have small := adjust_lt start
  have plain : sub64 size (adjust start) = size - adjust start := by
    rw [sub64]
    omega
  rw [usable, plain]

/-- A region of the admitted sizes is valid. -/
theorem validRegion_of_sizes (positive : 0 < start) (bounded : start + size ≤ 2 ^ 64)
    (least : adjust start + 32 ≤ size) (most : size < adjust start + 2 ^ 32 + 32) : ValidRegion start size := by
  have rest : usable start size = (size - adjust start) / 16 * 16 := usable_eq (by omega) (by omega)
  exact ⟨positive, by omega, by omega, by omega⟩

/-- A valid region inside the given one keeps every block inside. -/
theorem ValidRegion.staysInside (valid : ValidRegion start size) (held : adjust start ≤ size)
    (bounded : start + size ≤ 2 ^ 64) : StaysInside h start size := by
  have positive := valid.positive
  have rest : usable start size = (size - adjust start) / 16 * 16 := usable_eq held (by omega)
  have origin : (heapInit h start size).heapStart = start + adjust start := valid.start_eq
  have first : (heapInit h start size).firstBlock = start + adjust start := valid.start_eq
  refine ⟨?_, ?_, ?_, ?_, ?_⟩
  · omega
  · rw [origin, managed_heapInit]
    omega
  · rw [managed_heapInit]
    exact valid.least
  · have least := valid.least
    have field := get_heapInit (h := h) valid .size
    rw [first, field, (heapInit_holds valid).ends]
    change (start + adjust start + 32 + (usable start size - 32)) % 2 ^ 64 =
      ((heapInit h start size).heapStart + usable start size) % 2 ^ 64
    rw [origin]
    congr 1
    omega
  · intro requests c run p member
    obtain ⟨blocks, good, _⟩ := (boot_good valid).run run
    obtain ⟨same, length⟩ := run_region run
    have region : c.heap.heapStart = start + adjust start ∧ c.heap.heapSize = usable start size :=
      ⟨same.trans origin, length⟩
    obtain ⟨b, listed, _, rfl, _, extent⟩ := good.block_of_live member
    have within := good.holds.tiles.within listed
    refine ⟨?_, ?_⟩
    · omega
    · rw [extent]
      omega

/-- A region that is smaller than the adjustment is left at once. -/
theorem StaysInside.held (stays : StaysInside h start size) (positive : 0 < start)
    (bounded : start + size ≤ 2 ^ 64) : adjust start ≤ size := by
  by_contra short
  have lower := stays.lower
  have upper := stays.upper
  have aligned := adjust_aligned start
  have small := adjust_lt start
  change start ≤ (start + adjust start) % 2 ^ 64 at lower
  change (start + adjust start) % 2 ^ 64 + _ ≤ start + size at upper
  -- The aligned start is past the region, or it wraps to the address zero.
  omega

/-- The header fits, and its size field is not cut, only for the admitted sizes. -/
theorem StaysInside.sizes (stays : StaysInside h start size) (positive : 0 < start)
    (bounded : start + size ≤ 2 ^ 64) :
    adjust start + 32 ≤ size ∧ size < adjust start + 2 ^ 32 + 32 := by
  have held := stays.held positive bounded
  have rest := usable_eq held (by omega)
  have header := stays.header
  rw [managed_heapInit] at header
  refine ⟨by omega, ?_⟩
  have extent := stays.extent
  rw [get_size_heapInit] at extent
  have plain : sub64 (usable start size) 32 = usable start size - 32 := by
    rw [sub64]
    omega
  rw [plain] at extent
  change ((start + adjust start) % 2 ^ 64 + 32 + (usable start size - 32) % 2 ^ 32) % 2 ^ 64 =
    ((start + adjust start) % 2 ^ 64 + usable start size) % 2 ^ 64 at extent
  omega

end Region

/-- `heap_init` stays inside exactly when the region holds a header and the size field holds the rest. -/
theorem heapInit_staysInside_iff (h : Heap) (start size : Nat) (positive : 0 < start)
    (bounded : start + size ≤ 2 ^ 64) :
    StaysInside h start size ↔ adjust start + 32 ≤ size ∧ size < adjust start + 2 ^ 32 + 32 := by
  constructor
  · intro stays
    exact stays.sizes positive bounded
  · rintro ⟨least, most⟩
    exact (validRegion_of_sizes positive bounded least most).staysInside (by omega) bounded

/-- The sample region holds the header and a few blocks. -/
theorem heapInit_staysInside_sample : StaysInside blankHeap 4104 65536 :=
  (heapInit_staysInside_iff blankHeap 4104 65536 (by decide) (by decide)).mpr (by decide)

/-- A region of four bytes makes the heap cover almost all addresses. -/
theorem tiny_region_escapes : ¬ ∀ h start size, 0 < start → start + size ≤ 2 ^ 64 → StaysInside h start size := by
  intro all
  have stays := all blankHeap 4104 4 (by decide) (by decide)
  exact absurd stays.upper (by decide)

end OsKernel.Mm
