import OsKernel.Memory.HeapRuns

/-
This file states the heap invariant in the terms of the code and proves it over all runs.
-/

namespace OsKernel.Mm
open Library

/-- The nodes are the blocks from `first_block` on, and they tile the heap in address order. -/
structure HeapInvariant (h : Heap) (nodes : List Nat) : Prop where
  first : nodes.head? = some h.firstBlock
  last : nodes.getLast? = some h.lastBlock
  links : Linked (h.get .next) (h.get .prev) 0 nodes 0
  forward : ∀ a ∈ nodes, h.get .next a ≠ 0 → h.get .next a ∈ nodes ∧ h.get .prev (h.get .next a) = a
  backward : ∀ a ∈ nodes, h.get .prev a ≠ 0 → h.get .prev a ∈ nodes ∧ h.get .next (h.get .prev a) = a
  increasing : nodes.Pairwise (· < ·)
  start : h.firstBlock = h.heapStart
  tiling : ∀ a ∈ nodes, a + 32 + h.get .size a =
    if h.get .next a = 0 then h.heapStart + h.heapSize else h.get .next a
  ends : h.heapEnd = (h.heapStart + h.heapSize) % 2 ^ 64
  sizes : ∀ a ∈ nodes, 16 ∣ h.get .size a
  magic : ∀ a ∈ nodes, h.get .magic a = heapMagic
  coalesced : ∀ a ∈ nodes, h.get .next a ≠ 0 →
    ¬ (h.get .isFree a ≠ 0 ∧ h.get .isFree (h.get .next a) ≠ 0)

/-- The payloads of live pointers are aligned, inside the heap, and apart from each other and all headers. -/
structure PayloadsApart (c : Client) (nodes : List Nat) : Prop where
  allocated : ∀ p ∈ c.live, ∃ a ∈ nodes, p = a + 32 ∧ c.heap.get .isFree a = 0
  aligned : ∀ p ∈ c.live, 16 ∣ p
  inside : ∀ p ∈ c.live, c.heap.heapStart ≤ p ∧
    p + blockSize c.heap p ≤ c.heap.heapStart + c.heap.heapSize
  disjoint : ∀ p ∈ c.live, ∀ q ∈ c.live, p ≠ q →
    p + blockSize c.heap p ≤ q ∨ q + blockSize c.heap q ≤ p
  headers : ∀ p ∈ c.live, ∀ a ∈ nodes, p + blockSize c.heap p ≤ a ∨ a + 32 ≤ p

/-- A heap of a run is in order, every request returns, and a block keeps its size until it is freed. -/
structure HeapSafe (start size : Nat) (c : Client) : Prop where
  ordered : ∃ nodes, HeapInvariant c.heap nodes ∧ PayloadsApart c nodes
  origin : c.heap.heapStart = start + adjust start
  extent : c.heap.heapSize = usable start size
  returns : ∀ n, ∃ p h, kmalloc (c.heap.heapSize / 32 + 1) c.heap n = some (p, h)
  stable : ∀ later c', Run Step c later c' → ∀ p ∈ c.live, Op.kfree p ∉ later →
    p ∈ c'.live ∧ blockSize c'.heap p = blockSize c.heap p

section Invariant

variable {h : Heap} {c : Client} {blocks left right : List Block} {b : Block}

/-- A tiling of a header's length at least is not empty. -/
theorem Holds.ne_nil (holds : Holds h blocks) (large : 0 < h.heapSize) : blocks ≠ [] := by
  rintro rfl
  have empty : h.heapStart = h.heapStart + h.heapSize := holds.tiles
  omega

/-- A block ends where the next one starts, or where the heap ends. -/
theorem Holds.tiling (holds : Holds h blocks) (member : b ∈ blocks) :
    b.addr + 32 + b.size =
      if h.get .next b.addr = 0 then h.heapStart + h.heapSize else h.get .next b.addr := by
  obtain ⟨left, right, rfl⟩ := List.append_of_mem member
  obtain ⟨middle, _, placed, later⟩ := tiles_append.mp holds.tiles
  obtain ⟨rfl, null⟩ | ⟨d, rest, rfl, named, positive⟩ := holds.next_cases
  · have ends : middle + 32 + b.size = h.heapStart + h.heapSize := later
    rw [if_pos null]
    omega
  · have start : d.addr = middle + 32 + b.size := later.1
    rw [named, if_neg (by omega)]
    omega

/-- Two linked neighbours are not both free. -/
theorem Holds.coalesced (holds : Holds h blocks) (chain : Coalesced blocks) (member : b ∈ blocks)
    (linked : h.get .next b.addr ≠ 0) :
    ¬ (h.get .isFree b.addr ≠ 0 ∧ h.get .isFree (h.get .next b.addr) ≠ 0) := by
  obtain ⟨left, right, rfl⟩ := List.append_of_mem member
  obtain ⟨_, null⟩ | ⟨d, rest, rfl, named, _⟩ := holds.next_cases
  · exact absurd null linked
  · have apart := (coalesced_cons.mp chain.right).1 d rfl
    rw [named, (holds.headers b (by simp)).flag, (holds.headers d (by simp)).flag]
    simpa using apart

/-- A property of all blocks is a property of all nodes. -/
theorem forall_node {good : Nat → Prop} (all : ∀ b ∈ blocks, good b.addr) :
    ∀ a ∈ blocks.map Block.addr, good a := by
  intro a member
  obtain ⟨b, listed, rfl⟩ := List.mem_map.mp member
  exact all b listed

/-- The block list of a run gives the invariant of the code. -/
theorem Good.heapInvariant (good : Good c blocks) (large : 0 < c.heap.heapSize) :
    HeapInvariant c.heap (blocks.map Block.addr) := by
  have holds := good.holds
  obtain ⟨b, rest, rfl⟩ := List.exists_cons_of_ne_nil (holds.ne_nil large)
  have described {d : Block} (listed : d ∈ b :: rest) := holds.headers d listed
  exact {
    first := by
      rw [holds.first]
      rfl
    last := by
      rw [holds.last]
      simp [List.getLast?_cons]
    links := holds.links
    forward := fun a member linked => (holds.links.prev_next member).resolve_left linked
    backward := fun a member linked => (holds.links.next_prev member).resolve_left linked
    increasing := by
      rw [List.pairwise_map]
      apply holds.tiles.ordered.imp
      intro x y order
      omega
    start := by
      rw [holds.first]
      exact holds.tiles.1
    tiling := by
      apply forall_node
      intro d listed
      rw [(described listed).size]
      exact holds.tiling listed
    ends := holds.ends
    sizes := by
      apply forall_node
      intro d listed
      rw [(described listed).size]
      exact good.sizes d listed
    magic := forall_node fun d listed => (described listed).magic
    coalesced := forall_node fun d listed linked => holds.coalesced good.coalesced listed linked }

/-- The live payloads of a run are apart. -/
theorem Good.payloadsApart (good : Good c blocks) : PayloadsApart c (blocks.map Block.addr) where
  allocated := by
    intro p member
    obtain ⟨b, listed, taken, same, _⟩ := good.block_of_live member
    refine ⟨b.addr, List.mem_map_of_mem listed, same, ?_⟩
    rw [(good.holds.headers b listed).flag, taken]
    rfl
  aligned := by
    intro p member
    obtain ⟨b, listed, _, same, _⟩ := good.block_of_live member
    have multiple : 16 ∣ b.addr :=
      good.holds.tiles.dvd_addr (by norm_num) good.start good.sizes b listed
    omega
  inside := by
    intro p member
    obtain ⟨b, listed, _, same, _, extent⟩ := good.block_of_live member
    have within := good.holds.tiles.within listed
    omega
  disjoint := by
    intro p first q second different
    obtain ⟨b, listed, _, same, _, extent⟩ := good.block_of_live first
    obtain ⟨d, known, _, equal, _, length⟩ := good.block_of_live second
    rcases good.holds.tiles.separate listed known with rfl | apart
    · omega
    · omega
  headers := by
    intro p member
    obtain ⟨b, listed, _, same, _, extent⟩ := good.block_of_live member
    apply forall_node
    intro d known
    rcases good.holds.tiles.separate listed known with rfl | apart
    · omega
    · omega

/-- A block keeps its size in every later run that does not free it. -/
theorem Good.stable {c' : Client} {later : List Op} {p : Nat} (good : Good c blocks) (run : Run Step c later c')
    (member : p ∈ c.live) (unfreed : Op.kfree p ∉ later) :
    p ∈ c'.live ∧ blockSize c'.heap p = blockSize c.heap p := by
  obtain ⟨b, listed, taken, rfl, bound, extent⟩ := good.block_of_live member
  obtain ⟨blocks', final, kept⟩ := good.run run
  have remains : b ∈ blocks' := kept b listed taken unfreed
  have lives : b.addr + 32 ∈ c'.live := (final.live _).mpr ⟨b, remains, taken, rfl, bound⟩
  obtain ⟨d, known, _, same, _, length⟩ := final.block_of_live lives
  have equal : b = d := final.holds.tiles.eq_of_addr (by norm_num) remains known (by omega)
  exact ⟨lives, by rw [length, extent, equal]⟩

end Invariant

/-- In every run from a valid `heap_init` the heap stays in order. -/
theorem heap_run_safe {h : Heap} {start size : Nat} {ops : List Op} {c : Client}
    (valid : ValidRegion start size) (run : Run Step (boot h start size) ops c) : HeapSafe start size c := by
  obtain ⟨blocks, good, _⟩ := (boot_good valid).run run
  obtain ⟨origin, extent⟩ := run_region run
  have initial : (boot h start size).heap.heapStart = start + adjust start := valid.start_eq
  have whole : c.heap.heapSize = usable start size := extent
  have large : 0 < c.heap.heapSize := by
    have least := valid.least
    omega
  refine ⟨⟨_, good.heapInvariant large, good.payloadsApart⟩, origin.trans initial, whole, ?_, ?_⟩
  · exact kmalloc_returns good.holds (Nat.lt_succ_self _)
  · intro later c' further p member unfreed
    exact good.stable further member unfreed

/-- A served pointer may be freed at once. -/
theorem run_kmalloc_kfree {c : Client} {n fuel p : Nat} {h : Heap}
    (served : kmalloc fuel c.heap n = some (p, h)) (issued : p ≠ 0) :
    ∃ c', Run Step c [.kmalloc n, .kfree p] c' := by
  have allocated : Step c (.kmalloc n) ⟨h, if p = 0 then c.live else insert p c.live⟩ := .kmalloc served
  rw [if_neg issued] at allocated
  have freed : Step ⟨h, insert p c.live⟩ (.kfree p) ⟨kfree h p, (insert p c.live).erase p⟩ :=
    .kfree (.inr (Finset.mem_insert_self p c.live))
  exact ⟨_, Run.snoc (Run.snoc .nil allocated) freed⟩

/-- A manager that is all zero over zeroed memory. -/
def blankHeap : Heap := ⟨0, 0, 0, 0, 0, 0, fun _ => 0⟩

/-- The sample allocates a block, splits the heap, and frees the block again. -/
theorem heap_run_safe_sample : ∃ c, Run Step (boot blankHeap 4096 65536) [.kmalloc 100, .kfree 4128] c ∧
    HeapSafe 4096 65536 c := by
  have valid : ValidRegion 4096 65536 := ⟨by decide, by decide, by decide, by decide⟩
  have answer : (kmalloc 2 (heapInit blankHeap 4096 65536) 100).map Prod.fst = some 4128 := by decide +kernel
  obtain ⟨⟨p, h⟩, served, same⟩ := Option.map_eq_some_iff.mp answer
  obtain rfl : p = 4128 := same
  obtain ⟨c, run⟩ := run_kmalloc_kfree (c := boot blankHeap 4096 65536) served (by norm_num)
  exact ⟨c, run, heap_run_safe valid run⟩

end OsKernel.Mm
