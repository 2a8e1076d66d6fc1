import OsKernel.Memory.HeapSafety

/-
This file proves that the free size reported by `heap_stats` is exact in every run.
-/

namespace OsKernel.Mm
open Library

/-- The walk collects the blocks along the `next` links, or nothing when the fuel runs out. -/
def walk (h : Heap) : Nat → Nat → Option (List Nat)
  | 0, _ => none
  | fuel + 1, block =>
      if block = 0 then some [] else (walk h fuel (h.get .next block)).map fun rest => block :: rest

/-- The sizes of the free blocks with their headers. -/
def freeTotal (h : Heap) (nodes : List Nat) : Nat :=
  (nodes.map fun a => if h.get .isFree a ≠ 0 then h.get .size a + 32 else 0).sum

/-- The sizes of the allocated blocks with their headers. -/
def allocatedTotal (h : Heap) (nodes : List Nat) : Nat :=
  (nodes.map fun a => if h.get .isFree a ≠ 0 then 0 else h.get .size a + 32).sum

/-- The reported free size is the sum over the list, and no update of it wraps. -/
structure AccountExact (c : Client) : Prop where
  totals : ∃ nodes, walk c.heap (c.heap.heapSize / 32 + 1) c.heap.firstBlock = some nodes ∧
    (heapStats c.heap).2 = freeTotal c.heap nodes ∧
    (heapStats c.heap).2 + allocatedTotal c.heap nodes = c.heap.heapSize
  taken : ∀ fuel n p h, kmalloc fuel c.heap n = some (p, h) → (p = 0 ∧ h = c.heap) ∨
    ∃ block, p = add64 block 32 ∧ h.get .isFree block = 0 ∧
      h.freeSize + (h.get .size block + 32) = c.heap.freeSize
  returned : ∀ p ∈ c.live, (kfree c.heap p).freeSize = c.heap.freeSize + (blockSize c.heap p + 32) ∧
    c.heap.freeSize + (blockSize c.heap p + 32) ≤ c.heap.heapSize
  bounded : c.heap.freeSize < 2 ^ 64

section Totals

variable {h : Heap} {blocks left right : List Block} {fuel : Nat}

/-- With more fuel than blocks the walk lists the blocks. -/
theorem walk_eq (fuel : Nat) (holds : Holds h (left ++ right)) (enough : right.length < fuel) :
    walk h fuel ((right.map Block.addr).head?.getD 0) = some (right.map Block.addr) := by
  induction right generalizing left fuel with
  | nil =>
      cases fuel with
      | zero => simp at enough
      | succ fuel => rfl
  | cons b rest ih =>
      cases fuel with
      | zero => simp at enough
      | succ fuel =>
          have positive : 0 < b.addr := (holds.within (by simp)).1
          have shifted : Holds h ((left ++ [b]) ++ rest) := by rwa [List.append_assoc]
          have later := ih fuel shifted (Nat.lt_of_succ_lt_succ enough)
          change walk h (fuel + 1) b.addr = some (b.addr :: rest.map Block.addr)
          rw [walk, if_neg (by omega), holds.next_eq, later]
          rfl

/-- The walk from the first block lists all blocks. -/
theorem Holds.walk_firstBlock (holds : Holds h blocks) :
    walk h (h.heapSize / 32 + 1) h.firstBlock = some (blocks.map Block.addr) := by
  have long := holds.tiles.length_le
  have listed : Holds h ([] ++ blocks) := holds
  have walked := walk_eq (h.heapSize / 32 + 1) listed (by omega)
  rwa [← holds.first] at walked

/-- The headers of the list give the flags and the sizes of the block list. -/
theorem Holds.map_headers {β : Type} (holds : Holds h blocks) (value : Nat → Nat → β) :
    (blocks.map Block.addr).map (fun a => value (h.get .isFree a) (h.get .size a)) =
      blocks.map fun b => value b.free.toNat b.size := by
  rw [List.map_map]
  apply List.map_congr_left
  intro b member
  have described := holds.headers b member
  rw [Function.comp_apply, described.flag, described.size]

theorem Holds.freeTotal_eq (holds : Holds h blocks) :
    freeTotal h (blocks.map Block.addr) = freeBytes 32 blocks := by
  rw [freeTotal, freeBytes, holds.map_headers fun flag size => if flag ≠ 0 then size + 32 else 0]
  simp

theorem Holds.allocatedTotal_eq (holds : Holds h blocks) :
    allocatedTotal h (blocks.map Block.addr) = allocatedBytes 32 blocks := by
  rw [allocatedTotal, allocatedBytes, holds.map_headers fun flag size => if flag ≠ 0 then 0 else size + 32]
  simp

/-- A served request lowers the free size by the block that it returns. -/
theorem Holds.freeSize_kmalloc {n p : Nat} {h' : Heap} (holds : Holds h blocks)
    (served : kmalloc fuel h n = some (p, h')) : (p = 0 ∧ h' = h) ∨
      ∃ block, p = add64 block 32 ∧ h'.get .isFree block = 0 ∧
        h'.freeSize + (h'.get .size block + 32) = h.freeSize := by
  rcases kmalloc_refines holds served with ⟨_, rfl, rfl⟩ | ⟨a, blocks', allocated, rfl, holds'⟩
  · exact .inl ⟨rfl, rfl⟩
  · obtain ⟨left, b, right, rfl, -, fits, rfl, rfl⟩ := allocate_eq_some allocated
    have described : Describes h' (taken 32 16 (alignUp n) b) := holds'.headers _ (by simp [Library.carve])
    have size := described.size
    have flag := described.flag
    rw [taken_addr] at size flag
    refine .inr ⟨b.addr, rfl, by rw [flag, taken_free]; rfl, ?_⟩
    have balance := freeBytes_carve 32 16 fits
    rw [holds'.account, holds.account, size]
    simp only [freeBytes_append, freeBytes_cons, fits.1, if_true]
    omega

/-- A free raises the free size by the block that it gives back. -/
theorem Good.freeSize_kfree {c : Client} {p : Nat} (good : Good c blocks) (member : p ∈ c.live) :
    (Mm.kfree c.heap p).freeSize = c.heap.freeSize + (blockSize c.heap p + 32) ∧
      c.heap.freeSize + (blockSize c.heap p + 32) ≤ c.heap.heapSize := by
  obtain ⟨b, listed, held, rfl, fits, extent⟩ := good.block_of_live member
  have released := kfree_refines good.holds good.coalesced listed held fits
  obtain ⟨left, right, rfl⟩ := List.append_of_mem listed
  have total := freeBytes_release (by norm_num) good.holds.tiles held
  have inside := released.tiles.freeBytes_le
  rw [(kfree_region c.heap _).1, (kfree_region c.heap _).2] at inside
  rw [released.account, good.holds.account, extent]
  exact ⟨total, by omega⟩

/-- A heap in order keeps exact accounts. -/
theorem Good.accountExact {c : Client} (good : Good c blocks) : AccountExact c where
  totals := by
    have filled := good.holds.tiles.freeBytes_add
    refine ⟨_, good.holds.walk_firstBlock, ?_, ?_⟩
    · rw [good.holds.freeTotal_eq]
      exact good.holds.account
    · change c.heap.freeSize + _ = _
      rw [good.holds.allocatedTotal_eq, good.holds.account]
      omega
  taken := by
    intro fuel n p h served
    exact good.holds.freeSize_kmalloc served
  returned := by
    intro p member
    exact good.freeSize_kfree member
  bounded := by
    have inside := good.holds.tiles.freeBytes_le
    have limited := good.holds.limited
    rw [good.holds.account]
    omega

end Totals

/-- In every run from a valid `heap_init` the accounts are exact. -/
theorem heap_run_account {h : Heap} {start size : Nat} {ops : List Op} {c : Client}
    (valid : ValidRegion start size) (run : Run Step (boot h start size) ops c) : AccountExact c := by
  obtain ⟨blocks, good, _⟩ := (boot_good valid).run run
  exact good.accountExact

/-- The sample splits the heap and merges it again. -/
theorem heap_run_account_sample : ∃ c, Run Step (boot blankHeap 4096 65536) [.kmalloc 100, .kfree 4128] c ∧
    AccountExact c := by
  have valid : ValidRegion 4096 65536 := ⟨by decide, by decide, by decide, by decide⟩
  have answer : (kmalloc 2 (heapInit blankHeap 4096 65536) 100).map Prod.fst = some 4128 := by decide +kernel
  obtain ⟨⟨p, h⟩, served, same⟩ := Option.map_eq_some_iff.mp answer
  obtain rfl : p = 4128 := same
  obtain ⟨c, run⟩ := run_kmalloc_kfree (c := boot blankHeap 4096 65536) served (by norm_num)
  exact ⟨c, run, heap_run_account valid run⟩

/-- Where the range wraps, a split can put a header at null, and its bytes leave the list. -/
theorem wrapping_region_drifts : ∃ start size c, 0 < start ∧ 32 ≤ usable start size ∧
    usable start size ≤ 2 ^ 32 + 16 ∧ Run Step (boot blankHeap start size) [.kmalloc 16] c ∧
    ¬ AccountExact c := by
  let start := 0xffffffffffffffd0
  have answer : (kmalloc 2 (heapInit blankHeap start 128) 16).map
      (fun r => (r.2.freeSize, walk r.2 5 r.2.firstBlock, freeTotal r.2 [start], r.2.heapSize)) =
        some (80, some [start], 0, 128) := by decide +kernel
  obtain ⟨⟨p, h⟩, served, found⟩ := Option.map_eq_some_iff.mp answer
  obtain ⟨free, walked, counted, extent⟩ : h.freeSize = 80 ∧ walk h 5 h.firstBlock = some [start] ∧
      freeTotal h [start] = 0 ∧ h.heapSize = 128 := by
    simpa using found
  have run := Run.snoc .nil (Step.kmalloc (c := boot blankHeap start 128) served)
  refine ⟨start, 128, _, by decide, by decide, by decide, run, ?_⟩
  intro exact
  obtain ⟨nodes, listed, total, _⟩ := exact.totals
  change walk h (h.heapSize / 32 + 1) h.firstBlock = some nodes at listed
  change h.freeSize = freeTotal h nodes at total
  rw [extent, walked] at listed
  obtain rfl := Option.some.inj listed
  omega

end OsKernel.Mm
