import OsKernel.Library.Runs
import OsKernel.Memory.HeapRefinement

/-
This file proves the heap invariant over all runs of `kmalloc`, `kfree` and client writes.
-/

namespace OsKernel.Mm
open Library

/-- The given range is usable after alignment and does not wrap. -/
structure ValidRegion (start size : Nat) : Prop where
  positive : 0 < start
  least : 32 ≤ usable start size
  most : usable start size ≤ 2 ^ 32 + 16
  bounded : start + adjust start + usable start size ≤ 2 ^ 64

/-- A client knows the heap and the pointers that it holds. -/
structure Client where
  heap : Heap
  live : Finset Nat

/-- The size of the block behind a pointer. -/
def blockSize (h : Heap) (p : Nat) : Nat := h.get .size (sub64 p 32)

/-- A client calls the allocator or writes memory. -/
inductive Op
  | kmalloc (n : Nat)
  | kfree (p : Nat)
  | write (mem : Bytes)

/-- A write of the clients changes nothing of the heap outside the live payloads. -/
def Permitted (c : Client) (mem : Bytes) : Prop :=
  ∀ x, c.heap.heapStart ≤ x → x < c.heap.heapStart + c.heap.heapSize →
    (∀ p ∈ c.live, ¬ (p ≤ x ∧ x < p + blockSize c.heap p)) → mem x = c.heap.mem x

/-- A client frees null or a live pointer, and a pointer lives from `kmalloc` to `kfree`. -/
inductive Step : Client → Op → Client → Prop
  | kmalloc {c : Client} {n fuel p : Nat} {h : Heap} (served : Mm.kmalloc fuel c.heap n = some (p, h)) :
      Step c (.kmalloc n) ⟨h, if p = 0 then c.live else insert p c.live⟩
  | kfree {c : Client} {p : Nat} (allowed : p = 0 ∨ p ∈ c.live) :
      Step c (.kfree p) ⟨Mm.kfree c.heap p, c.live.erase p⟩
  | write {c : Client} {mem : Bytes} (permitted : Permitted c mem) :
      Step c (.write mem) ⟨{ c.heap with mem := mem }, c.live⟩

/-- A client starts with no pointer on a fresh heap. -/
def boot (h : Heap) (start size : Nat) : Client := ⟨heapInit h start size, ∅⟩

/-- The block list of a run is aligned and coalesced, and its allocated blocks are the live ones. -/
structure Good (c : Client) (blocks : List Block) : Prop where
  holds : Holds c.heap blocks
  coalesced : Coalesced blocks
  sizes : ∀ b ∈ blocks, 16 ∣ b.size
  start : 16 ∣ c.heap.heapStart
  live : ∀ p, p ∈ c.live ↔ ∃ b ∈ blocks, b.free = false ∧ p = b.addr + 32 ∧ p < 2 ^ 64

section Start

variable {h : Heap} {start size : Nat}

theorem adjust_aligned (start : Nat) : 16 ∣ start + adjust start := by
  rw [adjust]
  split <;> omega

theorem ValidRegion.start_eq (valid : ValidRegion start size) :
    add64 start (adjust start) = start + adjust start := by
  have least := valid.least
  have bounded := valid.bounded
  exact Nat.mod_eq_of_lt (by omega)

/-- The header of a fresh heap. -/
theorem get_heapInit (valid : ValidRegion start size) (f : Field) :
    (heapInit h start size).get f (start + adjust start) = freeHeader (usable start size - 32) 0 0 f := by
  have least := valid.least
  have most := valid.most
  have rest : sub64 (usable start size) 32 % 0x100000000 = usable start size - 32 := by
    rw [sub64]
    omega
  -- The last writes to the manager do not touch the memory.
  change Heap.get (Heap.set (Heap.set (Heap.set (Heap.set (Heap.set _ _ _ _) _ _ _) _ _ _) _ _ _) _ _ _) f _ = _
  rw [valid.start_eq]
  simp only [get_set (.inl rfl)]
  cases f <;> simp [Field.width, freeHeader, heapMagic, rest]

/-- A fresh heap is one free block. -/
theorem heapInit_holds (valid : ValidRegion start size) :
    Holds (heapInit h start size) [⟨start + adjust start, usable start size - 32, true⟩] := by
  obtain ⟨positive, least, most, bounded⟩ := id valid
  have origin : (heapInit h start size).heapStart = start + adjust start := valid.start_eq
  have extent : (heapInit h start size).heapSize = usable start size := rfl
  have whole : 32 + (usable start size - 32) = usable start size := by omega
  exact {
    links := ⟨get_heapInit valid .prev, get_heapInit valid .next, trivial⟩
    first := valid.start_eq
    last := valid.start_eq
    headers := by
      intro b member
      rw [List.mem_singleton.mp member]
      exact ⟨get_heapInit valid .size, get_heapInit valid .magic, get_heapInit valid .isFree⟩
    account := by
      change usable start size = _
      simp only [freeBytes_cons, freeBytes_nil, if_true]
      omega
    tiles := by
      rw [origin, extent, tiles_cons, tiles_nil, Nat.add_assoc, whole]
      exact ⟨rfl, rfl⟩
    positive := by omega
    bounded := by omega
    limited := by omega
    ends := rfl }

/-- A fresh client meets the invariant. -/
theorem boot_good (valid : ValidRegion start size) :
    Good (boot h start size) [⟨start + adjust start, usable start size - 32, true⟩] := by
  refine ⟨heapInit_holds valid, List.isChain_singleton _, ?_, ?_, ?_⟩
  · intro b member
    rw [List.mem_singleton.mp member]
    exact Nat.dvd_sub (Nat.dvd_mul_left 16 _) (by norm_num)
  · change 16 ∣ add64 start (adjust start)
    rw [valid.start_eq]
    exact adjust_aligned start
  · intro p
    constructor
    · intro member
      exact absurd member (Finset.notMem_empty p)
    · rintro ⟨b, member, taken, _⟩
      rw [List.mem_singleton.mp member] at taken
      cases taken

end Start

section Steps

variable {c c' : Client} {blocks : List Block} {op : Op}

/-- Rounding yields a multiple of 16. -/
theorem alignUp_dvd (n : Nat) : 16 ∣ alignUp n := Nat.dvd_mul_left 16 _

/-- Every block of the list stays until it is freed. -/
def Survives (op : Op) (blocks blocks' : List Block) : Prop :=
  ∀ b ∈ blocks, b.free = false → op ≠ .kfree (b.addr + 32) → b ∈ blocks'

/-- A live pointer leads to its block. -/
theorem Good.block_of_live {p : Nat} (good : Good c blocks) (member : p ∈ c.live) :
    ∃ b ∈ blocks, b.free = false ∧ p = b.addr + 32 ∧ p < 2 ^ 64 ∧ blockSize c.heap p = b.size := by
  obtain ⟨b, listed, taken, rfl, fits⟩ := (good.live p).mp member
  have header : sub64 (b.addr + 32) 32 = b.addr := by
    rw [sub64]
    omega
  refine ⟨b, listed, taken, rfl, fits, ?_⟩
  rw [blockSize, header]
  exact (good.holds.headers b listed).size

/-- Carving adds the pointer that `kmalloc` returns, unless it wraps to null. -/
theorem Good.live_carve {left right : List Block} {b : Block} {size : Nat}
    (good : Good c (left ++ b :: right)) (free : b.free) (q : Nat) :
    (q ∈ if add64 b.addr 32 = 0 then c.live else insert (add64 b.addr 32) c.live) ↔
      ∃ d ∈ left ++ carve 32 16 size b ++ right, d.free = false ∧ q = d.addr + 32 ∧ q < 2 ^ 64 := by
  have issued : (∃ d ∈ left ++ carve 32 16 size b ++ right, d.free = false ∧ q = d.addr + 32 ∧ q < 2 ^ 64) ↔
      q ∈ c.live ∨ (q = b.addr + 32 ∧ q < 2 ^ 64) := by
    rw [good.live q]
    constructor
    · rintro ⟨d, inside, flag, same, bound⟩
      rcases (mem_carve_allocated free flag).mp inside with known | rfl
      · exact .inl ⟨d, known, flag, same, bound⟩
      · exact .inr ⟨by simpa using same, bound⟩
    · rintro (⟨d, known, flag, same, bound⟩ | ⟨same, bound⟩)
      · exact ⟨d, (mem_carve_allocated free flag).mpr (.inl known), flag, same, bound⟩
      · exact ⟨taken 32 16 size b, (mem_carve_allocated free taken_free).mpr (.inr rfl), taken_free,
          by simpa using same, bound⟩
  have within : 0 < b.addr ∧ b.addr + 32 + b.size ≤ 2 ^ 64 ∧ b.size < 2 ^ 32 := good.holds.within (by simp)
  rw [issued]
  by_cases wraps : b.addr + 32 = 2 ^ 64
  · have null : add64 b.addr 32 = 0 := by
      rw [add64, wraps, Nat.mod_self]
    rw [if_pos null]
    constructor
    · exact .inl
    · rintro (known | ⟨same, bound⟩)
      · exact known
      · omega
  · have plain : add64 b.addr 32 = b.addr + 32 := Nat.mod_eq_of_lt (by omega)
    rw [plain, if_neg (by omega), Finset.mem_insert]
    constructor
    · rintro (rfl | known)
      · exact .inr ⟨rfl, by omega⟩
      · exact .inl known
    · rintro (known | ⟨same, _⟩)
      · exact .inr known
      · exact .inl same

/-- A call of `kmalloc` keeps the invariant. -/
theorem Good.kmalloc {n fuel p : Nat} {h : Heap} (good : Good c blocks)
    (served : Mm.kmalloc fuel c.heap n = some (p, h)) :
    ∃ blocks', Good ⟨h, if p = 0 then c.live else insert p c.live⟩ blocks' ∧
      Survives (.kmalloc n) blocks blocks' := by
  rcases kmalloc_refines good.holds served with ⟨_, rfl, rfl⟩ | ⟨a, blocks', taken, rfl, holds⟩
  · exact ⟨blocks, good, fun b member _ _ => member⟩
  · obtain ⟨left, b, right, rfl, -, fits, rfl, rfl⟩ := allocate_eq_some taken
    refine ⟨_, ⟨holds, good.coalesced.carve fits.1, ?_, ?_, ?_⟩, ?_⟩
    · exact dvd_carve (alignUp_dvd n) (by norm_num) good.sizes
    · rw [(kmalloc_region served).1]
      exact good.start
    · exact good.live_carve fits.1
    · intro d member flag _
      exact (mem_carve_allocated fits.1 flag).mpr (.inl member)

/-- Null is never live. -/
theorem Good.zero_notMem (good : Good c blocks) : 0 ∉ c.live := by
  intro member
  obtain ⟨b, _, _, null, _⟩ := good.block_of_live member
  omega

/-- A free of a live pointer releases its block. -/
theorem Good.kfree_live {p : Nat} (good : Good c blocks) (member : p ∈ c.live) :
    Good ⟨Mm.kfree c.heap p, c.live.erase p⟩ (release 32 (p - 32) blocks) := by
  obtain ⟨b, listed, taken, rfl, fits, _⟩ := good.block_of_live member
  rw [Nat.add_sub_cancel]
  refine ⟨kfree_refines good.holds good.coalesced listed taken fits, coalesced_coalesce _, ?_, ?_, ?_⟩
  · apply forall_mem_coalesce
    · intro x y first second
      exact Nat.dvd_add (Nat.dvd_add first (by norm_num)) second
    · intro x inside
      obtain ⟨y, known, rfl⟩ := List.mem_map.mp inside
      have multiple := good.sizes y known
      split
      · exact multiple
      · exact multiple
  · rw [(kfree_region c.heap _).1]
    exact good.start
  · intro q
    simp only [Finset.mem_erase, good.live q]
    constructor
    · rintro ⟨other, d, inside, flag, rfl, bound⟩
      exact ⟨d, (mem_release_allocated flag).mpr ⟨inside, by omega⟩, flag, rfl, bound⟩
    · rintro ⟨d, inside, flag, rfl, bound⟩
      have remains := (mem_release_allocated flag).mp inside
      exact ⟨by omega, d, remains.1, flag, rfl, bound⟩

/-- A call of `kfree` keeps the invariant. -/
theorem Good.kfree {p : Nat} (good : Good c blocks) (allowed : p = 0 ∨ p ∈ c.live) :
    ∃ blocks', Good ⟨Mm.kfree c.heap p, c.live.erase p⟩ blocks' ∧ Survives (.kfree p) blocks blocks' := by
  rcases allowed with rfl | member
  · rw [Finset.erase_eq_of_notMem good.zero_notMem]
    exact ⟨blocks, good, fun b member _ _ => member⟩
  · refine ⟨_, good.kfree_live member, ?_⟩
    obtain ⟨b, _, _, rfl, _, _⟩ := good.block_of_live member
    intro d inside flag other
    refine (mem_release_allocated flag).mpr ⟨inside, ?_⟩
    intro same
    exact other (by rw [same, Nat.add_sub_cancel])

/-- A permitted write keeps every header. -/
theorem Good.write {mem : Bytes} (good : Good c blocks) (permitted : Permitted c mem) :
    Good ⟨{ c.heap with mem := mem }, c.live⟩ blocks := by
  refine ⟨?_, good.coalesced, good.sizes, good.start, good.live⟩
  apply good.holds.congr _ rfl
  intro b listed f
  apply get_congr
  intro x lower upper
  have inside := good.holds.tiles.within listed
  apply permitted x (by omega) (by omega)
  intro p member
  obtain ⟨d, known, _, rfl, _, extent⟩ := good.block_of_live member
  rcases good.holds.tiles.separate known listed with rfl | apart
  · omega
  · omega

/-- Every step keeps the invariant and the blocks that it does not free. -/
theorem Good.step (good : Good c blocks) (step : Step c op c') :
    ∃ blocks', Good c' blocks' ∧ Survives op blocks blocks' := by
  cases step with
  | kmalloc served => exact good.kmalloc served
  | kfree allowed => exact good.kfree allowed
  | write permitted => exact ⟨blocks, good.write permitted, fun b member _ _ => member⟩

/-- Every step keeps the range of the heap. -/
theorem Step.region (step : Step c op c') :
    c'.heap.heapStart = c.heap.heapStart ∧ c'.heap.heapSize = c.heap.heapSize := by
  cases step with
  | kmalloc served => exact kmalloc_region served
  | kfree allowed => exact kfree_region _ _
  | write permitted => exact ⟨rfl, rfl⟩

end Steps

section Runs

variable {c c' : Client} {blocks : List Block} {ops : List Op}

/-- Every run keeps the invariant and the blocks that it does not free. -/
theorem Good.run (good : Good c blocks) (run : Run Step c ops c') :
    ∃ blocks', Good c' blocks' ∧
      ∀ b ∈ blocks, b.free = false → Op.kfree (b.addr + 32) ∉ ops → b ∈ blocks' := by
  induction run with
  | nil => exact ⟨blocks, good, fun b member _ _ => member⟩
  | snoc _ step ih =>
      obtain ⟨middle, reached, kept⟩ := ih
      obtain ⟨blocks', final, survives⟩ := reached.step step
      refine ⟨blocks', final, ?_⟩
      intro b member taken unfreed
      rw [List.mem_append, List.mem_singleton, not_or] at unfreed
      exact survives b (kept b member taken unfreed.1) taken (Ne.symm unfreed.2)

/-- Every run keeps the range of the heap. -/
theorem run_region (run : Run Step c ops c') :
    c'.heap.heapStart = c.heap.heapStart ∧ c'.heap.heapSize = c.heap.heapSize := by
  induction run with
  | nil => exact ⟨rfl, rfl⟩
  | snoc _ step ih =>
      obtain ⟨start, size⟩ := step.region
      exact ⟨start.trans ih.1, size.trans ih.2⟩

end Runs

end OsKernel.Mm
