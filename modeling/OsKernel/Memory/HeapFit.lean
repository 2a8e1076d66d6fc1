import OsKernel.Memory.HeapDrain

/-
This file proves that `kmalloc` is exact first fit and that `kfree` of its result undoes it.
-/

namespace OsKernel.Mm
open Library

/-- The request rounded up to 16 bytes, without the wrap of the 64-bit sum. -/
def rounded (n : Nat) : Nat := (n + 15) / 16 * 16

/-- A block of the list can serve the request. -/
def FitsAt (h : Heap) (n a : Nat) : Prop := h.get .isFree a ≠ 0 ∧ rounded n ≤ h.get .size a

/-- The blocks of a heap are found along the links from the first block. -/
def Lists (h : Heap) (nodes : List Nat) : Prop := walk h (h.heapSize / 32 + 1) h.firstBlock = some nodes

/-- The found block is allocated, and what is too much of it becomes a free block behind it. -/
structure Carved (h h' : Heap) (n a : Nat) (left right : List Nat) : Prop where
  allocated : h'.get .isFree a = 0
  cut : rounded n + 48 < h.get .size a → h'.get .size a = rounded n ∧
    Lists h' (left ++ a :: (a + 32 + rounded n) :: right) ∧
    h'.get .size (a + 32 + rounded n) = h.get .size a - rounded n - 32 ∧
    h'.get .isFree (a + 32 + rounded n) = 1
  whole : h.get .size a ≤ rounded n + 48 → h'.get .size a = h.get .size a ∧ Lists h' (left ++ a :: right)
  others : ∀ d ∈ left ++ right, h'.get .size d = h.get .size d ∧ h'.get .isFree d = h.get .isFree d

/-- A request fails exactly when no block fits, and else takes the lowest block that fits. -/
structure FirstFit (h h' : Heap) (n p : Nat) (nodes : List Nat) : Prop where
  refused : p = 0 ↔ ∀ a ∈ nodes, ¬ FitsAt h n a
  unchanged : p = 0 → h' = h
  served : p ≠ 0 → ∃ left a right, nodes = left ++ a :: right ∧ p = a + 32 ∧ FitsAt h n a ∧
    (∀ d ∈ nodes, FitsAt h n d → a ≤ d) ∧ Carved h h' n a left right

section Requests

variable {h h' : Heap} {blocks left right : List Block} {b : Block} {n p fuel : Nat}

/-- Up to `2^64 - 16` the sum of the rounding does not wrap. -/
theorem alignUp_eq_rounded (small : n ≤ 2 ^ 64 - 16) : alignUp n = rounded n := by
  rw [alignUp, rounded, add64, Nat.mod_eq_of_lt (by omega)]

/-- A heap lists the addresses of its blocks. -/
theorem Holds.lists (holds : Holds h blocks) : Lists h (blocks.map Block.addr) := holds.walk_firstBlock

/-- The header of a block says whether it fits. -/
theorem Holds.fitsAt_iff (holds : Holds h blocks) (member : b ∈ blocks) :
    FitsAt h n b.addr ↔ Fits (rounded n) b := (holds.headers b member).fits_iff

/-- A carved list is what the heap lists after a served request. -/
theorem Holds.carved (holds : Holds h (left ++ b :: right))
    (holds' : Holds h' (left ++ Library.carve 32 16 (rounded n) b ++ right)) :
    Carved h h' n b.addr (left.map Block.addr) (right.map Block.addr) := by
  have size : h.get .size b.addr = b.size := (holds.headers b (by simp)).size
  have found : Describes h' (taken 32 16 (rounded n) b) := holds'.headers _ (by simp [Library.carve])
  have nodes := holds'.lists
  exact {
    allocated := by
      have flag := found.flag
      rwa [taken_addr, taken_free] at flag
    cut := by
      intro excess
      have large : rounded n + 32 + 16 < b.size := by omega
      have near := found.size
      rw [taken_addr, taken, if_pos large] at near
      rw [Library.carve, remainder, if_pos large] at holds' nodes
      have far : Describes h' ⟨b.addr + 32 + rounded n, b.size - rounded n - 32, true⟩ :=
        holds'.headers _ (by simp)
      refine ⟨near, ?_, ?_, far.flag⟩
      · simpa using nodes
      · rw [size]
        exact far.size
    whole := by
      intro close
      have tight : ¬ rounded n + 32 + 16 < b.size := by omega
      have near := found.size
      rw [taken_addr, taken, if_neg tight] at near
      rw [Library.carve, remainder, if_neg tight] at nodes
      refine ⟨near.trans size.symm, ?_⟩
      simpa using nodes
    others := by
      rw [← List.map_append]
      apply forall_node
      intro d member
      have old : Describes h d := holds.headers d (by
        simp only [List.mem_append, List.mem_cons] at member ⊢
        tauto)
      have new : Describes h' d := holds'.headers d (by
        simp only [List.mem_append] at member ⊢
        tauto)
      exact ⟨new.size.trans old.size.symm, new.flag.trans old.flag.symm⟩ }

/-- On an addressable list `kmalloc` is exact first fit. -/
theorem Holds.firstFit (holds : Holds h blocks) (known : Addressable blocks) (small : n ≤ 2 ^ 64 - 16)
    (answered : kmalloc fuel h n = some (p, h')) : FirstFit h h' n p (blocks.map Block.addr) := by
  have outcome := kmalloc_refines holds answered
  rw [alignUp_eq_rounded small] at outcome
  rcases outcome with ⟨refused, rfl, rfl⟩ | ⟨a, blocks', allocated, rfl, holds'⟩
  · have missed := allocate_eq_none.mp refused
    refine ⟨?_, fun _ => rfl, fun issued => absurd rfl issued⟩
    simp only [true_iff]
    apply forall_node
    intro b member
    rw [holds.fitsAt_iff member]
    exact missed b member
  · obtain ⟨left, b, right, rfl, skipped, fits, rfl, rfl⟩ := allocate_eq_some allocated
    have bound : b.addr + 32 < 2 ^ 64 := known b (by simp)
    have address : add64 b.addr 32 = b.addr + 32 := Nat.mod_eq_of_lt bound
    have serves : FitsAt h n b.addr := (holds.fitsAt_iff (by simp)).mpr fits
    rw [address]
    refine ⟨?_, fun null => by omega, ?_⟩
    · constructor
      · intro null
        omega
      · intro none
        exact absurd serves (none b.addr (by simp))
    · intro _
      refine ⟨left.map Block.addr, b.addr, right.map Block.addr, by simp, rfl, serves, ?_, holds.carved holds'⟩
      apply forall_node
      intro d member suits
      rw [holds.fitsAt_iff member] at suits
      simp only [List.mem_append, List.mem_cons] at member
      obtain ⟨_, later, _⟩ := List.pairwise_append.mp holds.tiles.ordered
      rcases member with before | rfl | behind
      · exact absurd suits (skipped d before)
      · exact le_refl _
      · have order := List.rel_of_pairwise_cons later behind
        omega

end Requests

/-- A heap answers a request by first fit. -/
structure ServesFirstFit (h : Heap) (n : Nat) : Prop where
  returns : ∃ p h', kmalloc (h.heapSize / 32 + 1) h n = some (p, h')
  exact : ∀ fuel p h', kmalloc fuel h n = some (p, h') → ∃ nodes, Lists h nodes ∧ FirstFit h h' n p nodes

/-- In every run from a valid `heap_init` a request that does not wrap is served by exact first fit. -/
theorem heap_run_firstFit {h : Heap} {start size n : Nat} {ops : List Op} {c : Client}
    (valid : ValidRegion start size) (inner : ¬ LastHeader start size)
    (run : Run Step (boot h start size) ops c) (small : n ≤ 2 ^ 64 - 16) : ServesFirstFit c.heap n := by
  obtain ⟨blocks, good, known⟩ := (boot_good valid).addressable_run (valid.addressable inner) run
  refine ⟨kmalloc_returns good.holds (Nat.lt_succ_self _) n, ?_⟩
  intro fuel p h' answered
  exact ⟨_, good.holds.lists, good.holds.firstFit known small answered⟩

/-- The sample cuts the fresh heap and then takes the freed front again, whole. -/
theorem heap_run_firstFit_sample : ∃ c,
    Run Step (boot blankHeap 4096 65536) [.kmalloc 100, .kmalloc 20, .kfree 4128] c ∧ ServesFirstFit c.heap 90 := by
  have valid : ValidRegion 4096 65536 := ⟨by decide, by decide, by decide, by decide⟩
  have answer : ((kmalloc 2 (heapInit blankHeap 4096 65536) 100).bind fun r =>
      (kmalloc 3 r.2 20).map fun r' => (r.1, r'.1)) = some (4128, 4272) := by decide +kernel
  obtain ⟨⟨p, h⟩, served, rest⟩ := Option.bind_eq_some_iff.mp answer
  obtain ⟨⟨q, h'⟩, later, same⟩ := Option.map_eq_some_iff.mp rest
  obtain ⟨rfl, rfl⟩ : p = 4128 ∧ q = 4272 := Prod.mk.inj same
  have first : Step (boot blankHeap 4096 65536) (.kmalloc 100) _ := .kmalloc served
  have second : Step ⟨h, {4128}⟩ (.kmalloc 20) _ := .kmalloc later
  have third : Step ⟨h', {4272, 4128}⟩ (.kfree 4128) _ := .kfree (.inr (by simp))
  have run := Run.snoc (Run.snoc (Run.snoc .nil first) second) third
  have inner : ¬ LastHeader 4096 65536 := fun last => absurd last.2 (by decide)
  exact ⟨_, run, heap_run_firstFit valid inner run (by norm_num)⟩

/-- The last header of the address space fits a request of no bytes, which is answered by null. -/
theorem lastHeader_answers_null : ∃ start size, ValidRegion start size ∧
    ¬ ServesFirstFit (boot blankHeap start size).heap 0 := by
  let start := 0xffffffffffffffe0
  have valid : ValidRegion start 32 := ⟨by decide, by decide, by decide, by decide⟩
  have answer : (kmalloc 2 (heapInit blankHeap start 32) 0).map Prod.fst = some 0 := by decide +kernel
  obtain ⟨⟨p, h⟩, served, same⟩ := Option.map_eq_some_iff.mp answer
  obtain rfl : p = 0 := same
  refine ⟨start, 32, valid, ?_⟩
  intro fit
  obtain ⟨nodes, listed, first⟩ := fit.exact 2 0 h served
  have single : Lists (heapInit blankHeap start 32) [start] := by
    unfold Lists
    decide +kernel
  obtain rfl := Option.some.inj (listed.symm.trans single)
  apply first.refused.mp rfl start (by simp)
  unfold FitsAt
  decide +kernel

/-- A release of the block just served gives the block list before the request back. -/
theorem Good.kmalloc_release {c : Client} {blocks : List Block} {n p fuel : Nat} {h : Heap} (good : Good c blocks)
    (answered : Mm.kmalloc fuel c.heap n = some (p, h)) (issued : p ≠ 0) :
    ∃ blocks', Good ⟨h, insert p c.live⟩ blocks' ∧ release 32 (p - 32) blocks' = blocks := by
  obtain ⟨blocks', next, _⟩ := good.kmalloc answered
  rw [if_neg issued] at next
  refine ⟨blocks', next, ?_⟩
  rcases kmalloc_refines good.holds answered with ⟨_, null, _⟩ | ⟨a, carved, allocated, named, holds⟩
  · exact absurd null issued
  · obtain rfl := holds.unique next.holds
    obtain ⟨left, b, right, rfl, _, fits, rfl, rfl⟩ := allocate_eq_some allocated
    have within : 0 < b.addr ∧ b.addr + 32 + b.size ≤ 2 ^ 64 ∧ b.size < 2 ^ 32 := good.holds.within (by simp)
    have address : p - 32 = b.addr := by
      rw [named, add64] at issued ⊢
      omega
    rw [address]
    exact release_carve (by norm_num) fits.1 good.coalesced holds.tiles

/-- A request that is answered by null changes nothing where every block has an address for its payload. -/
theorem Holds.kmalloc_null {h h' : Heap} {blocks : List Block} {n fuel : Nat} (holds : Holds h blocks)
    (answered : kmalloc fuel h n = some (0, h')) (known : ∀ b ∈ blocks, Fits (alignUp n) b → b.addr + 32 < 2 ^ 64) :
    h' = h := by
  rcases kmalloc_refines holds answered with ⟨_, _, same⟩ | ⟨a, blocks', allocated, null, _⟩
  · exact same
  · obtain ⟨left, b, right, rfl, _, fits, rfl, rfl⟩ := allocate_eq_some allocated
    have bound : b.addr + 32 < 2 ^ 64 := known b (by simp) fits
    rw [add64, Nat.mod_eq_of_lt bound] at null
    omega

/-- The calls give the state before them back. -/
theorem Good.kfree_kmalloc {c : Client} {blocks : List Block} {n p fuel : Nat} {h : Heap} (good : Good c blocks)
    (known : Addressable blocks) (answered : Mm.kmalloc fuel c.heap n = some (p, h)) :
    heapState (Mm.kfree h p) = heapState c.heap := by
  by_cases null : p = 0
  · subst null
    rw [good.holds.kmalloc_null answered fun b member _ => known b member]
    rfl
  · obtain ⟨blocks', next, restored⟩ := good.kmalloc_release answered null
    have freed := next.kfree_live (Finset.mem_insert_self p c.live)
    rw [restored] at freed
    obtain ⟨origin, extent⟩ := kmalloc_region answered
    obtain ⟨start, size⟩ := kfree_region h p
    exact freed.holds.heapState_eq good.holds (start.trans origin) (size.trans extent)

/-- A free of the pointer just served restores the manager and every header along the block list. -/
structure KfreeUndoes (h : Heap) (n : Nat) : Prop where
  returns : ∃ p h', kmalloc (h.heapSize / 32 + 1) h n = some (p, h')
  restored : ∀ fuel p h', kmalloc fuel h n = some (p, h') → heapState (kfree h' p) = heapState h

/-- In every run from a valid `heap_init` a free undoes the request just served. -/
theorem heap_run_kfreeUndoes {h : Heap} {start size : Nat} {ops : List Op} {c : Client}
    (valid : ValidRegion start size) (inner : ¬ LastHeader start size)
    (run : Run Step (boot h start size) ops c) (n : Nat) : KfreeUndoes c.heap n := by
  obtain ⟨blocks, good, known⟩ := (boot_good valid).addressable_run (valid.addressable inner) run
  refine ⟨kmalloc_returns good.holds (Nat.lt_succ_self _) n, ?_⟩
  intro fuel p h' answered
  exact good.kfree_kmalloc known answered

/-- The sample cuts the fresh heap, and the next request is undone. -/
theorem heap_run_kfreeUndoes_sample : ∃ c, Run Step (boot blankHeap 4096 65536) [.kmalloc 100] c ∧
    KfreeUndoes c.heap 20 := by
  have valid : ValidRegion 4096 65536 := ⟨by decide, by decide, by decide, by decide⟩
  have answer : (kmalloc 2 (heapInit blankHeap 4096 65536) 100).isSome := by decide +kernel
  obtain ⟨⟨p, h⟩, served⟩ := Option.isSome_iff_exists.mp answer
  have run := Run.snoc .nil (Step.kmalloc (c := boot blankHeap 4096 65536) served)
  have inner : ¬ LastHeader 4096 65536 := fun last => absurd last.2 (by decide)
  exact ⟨_, run, heap_run_kfreeUndoes valid inner run 20⟩

/-- The block of the last header is taken and answered by null, and no free gives it back. -/
theorem lastHeader_not_undone : ∃ start size, ValidRegion start size ∧
    ¬ KfreeUndoes (boot blankHeap start size).heap 0 := by
  let start := 0xffffffffffffffe0
  have valid : ValidRegion start 32 := ⟨by decide, by decide, by decide, by decide⟩
  have answer : (kmalloc 2 (heapInit blankHeap start 32) 0).map
      (fun r => (r.1, decide (heapState r.2 = heapState (heapInit blankHeap start 32)))) =
        some (0, false) := by decide +kernel
  obtain ⟨⟨p, h⟩, served, found⟩ := Option.map_eq_some_iff.mp answer
  obtain ⟨rfl, different⟩ := Prod.mk.inj found
  refine ⟨start, 32, valid, ?_⟩
  intro undoes
  exact of_decide_eq_false different (undoes.restored 2 0 h served)

end OsKernel.Mm
