import OsKernel.Memory.HeapBlocks

/-
This file proves that `kmalloc` is first fit and that `kfree` is a release of the block list.
-/

namespace OsKernel.Mm
open Library

section Search

variable {h : Heap} {left right : List Block} {size fuel : Nat}

/-- The scan tests a block as first fit does. -/
theorem Describes.fits_iff {b : Block} (described : Describes h b) :
    (h.get .isFree b.addr ≠ 0 ∧ size ≤ h.get .size b.addr) ↔ Fits size b := by
  rw [described.flag, described.size, Fits]
  cases b.free <;> simp

/-- One round of the scan looks at the next block of the list. -/
theorem findFit_succ {b : Block} (holds : Holds h (left ++ b :: right)) :
    findFit h size (fuel + 1) b.addr = if Fits size b then some b.addr
      else findFit h size fuel ((right.map Block.addr).head?.getD 0) := by
  have positive : 0 < b.addr := (holds.within (by simp)).1
  have same : (h.get .isFree b.addr ≠ 0 ∧ size ≤ h.get .size b.addr) = Fits size b :=
    propext (holds.headers b (by simp)).fits_iff
  rw [findFit, if_neg (by omega), holds.next_eq]
  simp only [same]

/-- A scan that ends has found the first fit, or zero when there is none. -/
theorem findFit_eq {found : Nat} (holds : Holds h (left ++ right))
    (ended : findFit h size fuel ((right.map Block.addr).head?.getD 0) = some found) :
    found = ((allocate 32 16 size right).map Prod.fst).getD 0 := by
  induction right generalizing left fuel with
  | nil =>
      cases fuel with
      | zero => cases ended
      | succ fuel => exact (Option.some.inj ended).symm
  | cons b rest ih =>
      cases fuel with
      | zero => cases ended
      | succ fuel =>
          change findFit h size (fuel + 1) b.addr = some found at ended
          rw [findFit_succ holds] at ended
          rw [allocate]
          split at ended
          next fits =>
              rw [if_pos fits]
              exact (Option.some.inj ended).symm
          next misses =>
              have shifted : Holds h ((left ++ [b]) ++ rest) := by rwa [List.append_assoc]
              rw [if_neg misses, ih shifted ended, Option.map_map]
              rfl

/-- A scan with more fuel than blocks ends. -/
theorem findFit_ends (holds : Holds h (left ++ right)) (enough : right.length < fuel) :
    ∃ found, findFit h size fuel ((right.map Block.addr).head?.getD 0) = some found := by
  induction right generalizing left fuel with
  | nil =>
      cases fuel with
      | zero => simp at enough
      | succ fuel => exact ⟨0, rfl⟩
  | cons b rest ih =>
      cases fuel with
      | zero => simp at enough
      | succ fuel =>
          have shifted : Holds h ((left ++ [b]) ++ rest) := by rwa [List.append_assoc]
          change ∃ found, findFit h size (fuel + 1) b.addr = some found
          rw [findFit_succ holds]
          split
          · exact ⟨b.addr, rfl⟩
          · exact ih shifted (Nat.lt_of_succ_lt_succ enough)

end Search

section Allocate

variable {h h' : Heap} {blocks left right : List Block} {b : Block} {size n p fuel : Nat}

/-- A fitting block is split when it is much too large, and then taken. -/
theorem Holds.carve (holds : Holds h (left ++ b :: right)) (fits : Fits size b) :
    Holds (Mm.takeBlock (if h.get .size b.addr > add64 (add64 size 32) 16 then Mm.splitBlock h b.addr size
      else h) b.addr) (left ++ Library.carve 32 16 size b ++ right) := by
  obtain ⟨free, large⟩ := fits
  have small : b.size < 2 ^ 32 := (holds.within (by simp)).2.2
  have sum : add64 (add64 size 32) 16 = size + 32 + 16 := by
    rw [add64, add64]
    omega
  rw [sum, (holds.headers b (by simp)).size, Library.carve, taken, remainder]
  by_cases excess : size + 32 + 16 < b.size
  · have split : Holds (Mm.splitBlock h b.addr size) (left ++ halves size b ++ right) :=
      holds.splitBlock (by omega) free
    rw [if_pos excess, if_pos excess, if_pos excess, List.append_assoc]
    rw [halves, List.append_assoc] at split
    exact split.takeBlock rfl
  · rw [if_neg excess, if_neg excess, if_neg excess, List.append_assoc]
    exact holds.takeBlock free

/-- `kmalloc` is first fit on the block list, and a failed call changes nothing. -/
theorem kmalloc_refines (holds : Holds h blocks) (served : kmalloc fuel h n = some (p, h')) :
    (allocate 32 16 (alignUp n) blocks = none ∧ p = 0 ∧ h' = h) ∨
      ∃ a blocks', allocate 32 16 (alignUp n) blocks = some (a, blocks') ∧ p = add64 a 32 ∧
        Holds h' blocks' := by
  rw [kmalloc, Option.map_eq_some_iff] at served
  obtain ⟨current, found, result⟩ := served
  rw [holds.first] at found
  have listed : Holds h ([] ++ blocks) := holds
  have target := findFit_eq listed found
  cases taken : allocate 32 16 (alignUp n) blocks with
  | none =>
      rw [taken] at target
      have null : current = 0 := target
      rw [if_pos null] at result
      obtain ⟨rfl, rfl⟩ := Prod.mk.inj result
      exact .inl ⟨rfl, rfl, rfl⟩
  | some answer =>
      obtain ⟨a, blocks'⟩ := answer
      rw [taken] at target
      have named : current = a := target
      obtain ⟨left, b, right, rfl, -, fits, rfl, rfl⟩ := allocate_eq_some taken
      have positive : 0 < b.addr := (holds.within (by simp)).1
      rw [if_neg (by omega), named] at result
      obtain ⟨rfl, rfl⟩ := Prod.mk.inj result
      exact .inr ⟨b.addr, _, rfl, rfl, holds.carve fits⟩

/-- `kmalloc` returns within as many rounds as the heap can hold headers. -/
theorem kmalloc_returns (holds : Holds h blocks) (enough : h.heapSize / 32 < fuel) (n : Nat) :
    ∃ p h', kmalloc fuel h n = some (p, h') := by
  have long := holds.tiles.length_le
  have listed : Holds h ([] ++ blocks) := holds
  have short : blocks.length < fuel := by omega
  obtain ⟨found, ended⟩ : ∃ found, findFit h (alignUp n) fuel ((blocks.map Block.addr).head?.getD 0) =
    some found := findFit_ends listed short
  rw [← holds.first] at ended
  rw [kmalloc, ended]
  exact ⟨_, _, rfl⟩

/-- A served call keeps the range of the heap. -/
theorem kmalloc_region (served : kmalloc fuel h n = some (p, h')) :
    h'.heapStart = h.heapStart ∧ h'.heapSize = h.heapSize := by
  rw [kmalloc, Option.map_eq_some_iff] at served
  obtain ⟨current, _, result⟩ := served
  split at result
  · obtain ⟨_, rfl⟩ := Prod.mk.inj result
    exact ⟨rfl, rfl⟩
  · obtain ⟨_, rfl⟩ := Prod.mk.inj result
    rw [takeBlock_heapStart, takeBlock_heapSize]
    split
    · exact ⟨splitBlock_heapStart, splitBlock_heapSize⟩
    · exact ⟨rfl, rfl⟩

end Allocate

section Release

variable {h : Heap} {blocks left right : List Block} {a b : Block}

/-- A free block is recognised by its header. -/
theorem Holds.isFreeBlock_eq (holds : Holds h blocks) (member : b ∈ blocks) :
    h.isFreeBlock b.addr = b.free := by
  have positive : 0 < b.addr := (holds.within member).1
  have present : b.addr ≠ 0 := by omega
  rw [Heap.isFreeBlock, (holds.headers b member).flag]
  cases b.free <;> simp [present]

/-- Null is no free block. -/
theorem isFreeBlock_zero : h.isFreeBlock 0 = false := by
  simp [Heap.isFreeBlock]

/-- Merging forward glues the block to the one behind it. -/
theorem Holds.mergeNext (holds : Holds h (left ++ b :: right)) (free : b.free) :
    Holds (Mm.mergeNext h b.addr) (left ++ glue 32 b right) := by
  rw [Mm.mergeNext]
  obtain ⟨rfl, null⟩ | ⟨c, rest, rfl, named, _⟩ := holds.next_cases
  · rw [null, isFreeBlock_zero]
    exact holds
  · rw [named, holds.isFreeBlock_eq (b := c) (by simp), glue]
    by_cases both : c.free
    · rw [if_pos both, if_pos ⟨free, both⟩]
      exact holds.absorb free both
    · rw [if_neg both, if_neg fun flags => both flags.2]
      exact holds

/-- Merging backward glues the block to the one in front of it. -/
theorem Holds.mergePrev (holds : Holds h (left ++ a :: b :: right)) (free : b.free) :
    Holds (Mm.mergePrev h b.addr) (left ++ glue 32 a (b :: right)) := by
  have named : h.get .prev b.addr = a.addr := by
    rw [holds.shift.prev_eq]
    simp
  rw [Mm.mergePrev, named, holds.isFreeBlock_eq (b := a) (by simp), glue]
  by_cases both : a.free
  · rw [if_pos both, if_pos ⟨both, free⟩]
    exact holds.absorb both free
  · rw [if_neg both, if_neg fun flags => both flags.1]
    exact holds

/-- The first block has nothing in front to merge with. -/
theorem Holds.mergePrev_first (holds : Holds h (b :: right)) : Mm.mergePrev h b.addr = h := by
  have listed : Holds h ([] ++ b :: right) := holds
  have null : h.get .prev b.addr = 0 := listed.prev_eq
  rw [Mm.mergePrev, null, isFreeBlock_zero]
  rfl

/-- The header of a live pointer is found and valid. -/
theorem Holds.kfree_eq (holds : Holds h blocks) (member : b ∈ blocks) (fits : b.addr + 32 < 2 ^ 64) :
    kfree h (b.addr + 32) =
      Mm.mergePrev (Mm.mergeNext (Mm.freeBlock h b.addr) b.addr) b.addr := by
  have header : sub64 (b.addr + 32) 32 = b.addr := by
    rw [sub64]
    omega
  rw [kfree, if_neg (by omega), header, if_neg]
  exact not_not.mpr (holds.headers b member).magic

/-- `kfree` of an allocated block releases it in the block list. -/
theorem kfree_refines (holds : Holds h blocks) (chain : Coalesced blocks) (member : b ∈ blocks)
    (taken : b.free = false) (fits : b.addr + 32 < 2 ^ 64) :
    Holds (kfree h (b.addr + 32)) (release 32 b.addr blocks) := by
  rw [holds.kfree_eq member fits]
  obtain ⟨left, right, rfl⟩ := List.append_of_mem member
  have freed := (holds.freeBlock taken).mergeNext rfl
  obtain ⟨c, others, shape, same, free⟩ := glue_eq_cons 32 { b with free := true } right
  rw [shape] at freed
  change c.addr = b.addr at same
  cases left using List.reverseRecOn with
  | nil =>
      rw [List.nil_append, release_head (by omega) holds.tiles chain, shape, ← same]
      rw [← same] at freed
      rw [Holds.mergePrev_first freed]
      exact freed
  | append_singleton front a _ =>
      rw [List.append_assoc] at holds chain freed ⊢
      change Holds _ (front ++ a :: c :: others) at freed
      change Holds _ (release 32 b.addr (front ++ a :: b :: right))
      rw [release_inner (by omega) holds.tiles chain, shape, ← same]
      rw [← same] at freed
      exact freed.mergePrev free

/-- A free keeps the range of the heap. -/
theorem kfree_region (h : Heap) (p : Nat) :
    (kfree h p).heapStart = h.heapStart ∧ (kfree h p).heapSize = h.heapSize := by
  have forward (g : Heap) (block : Nat) : (Mm.mergeNext g block).heapStart = g.heapStart ∧
      (Mm.mergeNext g block).heapSize = g.heapSize := by
    rw [Mm.mergeNext]
    split
    · exact ⟨absorb_heapStart, absorb_heapSize⟩
    · exact ⟨rfl, rfl⟩
  have backward (g : Heap) (block : Nat) : (Mm.mergePrev g block).heapStart = g.heapStart ∧
      (Mm.mergePrev g block).heapSize = g.heapSize := by
    rw [Mm.mergePrev]
    split
    · exact ⟨absorb_heapStart, absorb_heapSize⟩
    · exact ⟨rfl, rfl⟩
  rw [kfree]
  split
  · exact ⟨rfl, rfl⟩
  · dsimp only
    split
    · exact ⟨rfl, rfl⟩
    · rw [(backward _ _).1, (backward _ _).2, (forward _ _).1, (forward _ _).2]
      exact ⟨freeBlock_heapStart, freeBlock_heapSize⟩

end Release

end OsKernel.Mm
