import OsKernel.Memory.Allocator
import OsKernel.Memory.HeapFit

/-
This file shows that `heap.c` is an allocator as the process subsystem expects it.
-/

namespace OsKernel.Mm
open Library

/-- A pointer that `kmalloc` returns is not live yet. -/
theorem Good.fresh {c : Client} {blocks : List Block} {n fuel p : Nat} {h : Heap} (good : Good c blocks)
    (served : Mm.kmalloc fuel c.heap n = some (p, h)) (issued : p ≠ 0) : p ∉ c.live := by
  intro member
  obtain ⟨d, known, taken, same, bound, _⟩ := good.block_of_live member
  rcases kmalloc_refines good.holds served with ⟨_, null, _⟩ | ⟨a, blocks', carved, named, _⟩
  · exact issued null
  · obtain ⟨left, b, right, rfl, -, fits, rfl, -⟩ := allocate_eq_some carved
    have within : 0 < b.addr ∧ b.addr + 32 + b.size ≤ 2 ^ 64 ∧ b.size < 2 ^ 32 := good.holds.within (by simp)
    have place : p = b.addr + 32 := by
      rw [named, add64] at issued ⊢
      omega
    have equal : b = d := good.holds.tiles.eq_of_addr (by norm_num) (by simp) known (by omega)
    have free : b.free := fits.1
    rw [equal, taken] at free
    cases free

/-- A heap in order comes with the pointers that live in it. -/
structure OrderedHeap extends Client where
  ordered : ∃ blocks, Good toClient blocks

/-- A valid range starts as a heap in order. -/
def OrderedHeap.boot (h : Heap) {start size : Nat} (valid : ValidRegion start size) : OrderedHeap :=
  ⟨Mm.boot h start size, _, boot_good valid⟩

/-- A served request leads to a heap in order. -/
def OrderedHeap.serve (v : OrderedHeap) {n fuel p : Nat} {h : Heap}
    (served : Mm.kmalloc fuel v.heap n = some (p, h)) : OrderedHeap where
  heap := h
  live := if p = 0 then v.live else insert p v.live
  ordered := by
    obtain ⟨blocks, good⟩ := v.ordered
    obtain ⟨blocks', next, _⟩ := good.kmalloc served
    exact ⟨blocks', next⟩

/-- A request runs the scan with enough fuel, and a null result is a failure. -/
def OrderedHeap.kmalloc (v : OrderedHeap) (n : Nat) : Option Addr × OrderedHeap :=
  match served : Mm.kmalloc (v.heap.heapSize / 32 + 1) v.heap n with
  | none => (none, v)
  | some (p, _) => (if p = 0 then none else some p, v.serve served)

/-- A permitted free leads to a heap in order. -/
def OrderedHeap.drop (v : OrderedHeap) {p : Addr} (allowed : p = 0 ∨ p ∈ v.live) : OrderedHeap where
  heap := Mm.kfree v.heap p
  live := v.live.erase p
  ordered := by
    obtain ⟨blocks, good⟩ := v.ordered
    obtain ⟨blocks', next, _⟩ := good.kfree allowed
    exact ⟨blocks', next⟩

/-- Null and live pointers are freed, and no other pointer is passed. -/
def OrderedHeap.kfree (v : OrderedHeap) (p : Addr) : OrderedHeap :=
  if allowed : p = 0 ∨ p ∈ v.live then v.drop allowed else v

/-- Every request is one call of the source, which always returns. -/
theorem OrderedHeap.kmalloc_eq (v : OrderedHeap) (n : Nat) :
    ∃ p h, ∃ served : Mm.kmalloc (v.heap.heapSize / 32 + 1) v.heap n = some (p, h),
      v.kmalloc n = (if p = 0 then none else some p, v.serve served) := by
  obtain ⟨blocks, good⟩ := v.ordered
  obtain ⟨p, h, served⟩ := kmalloc_returns good.holds (Nat.lt_succ_self _) n
  refine ⟨p, h, served, ?_⟩
  rw [OrderedHeap.kmalloc]
  split
  next failed => cases failed.symm.trans served
  next q g answered =>
      obtain ⟨rfl, rfl⟩ := Prod.mk.inj (Option.some.inj (answered.symm.trans served))
      rfl

/-- The heap meets every expectation of the process subsystem. -/
def heapAllocator : Allocator OrderedHeap where
  kmalloc := OrderedHeap.kmalloc
  kfree := OrderedHeap.kfree
  live v := v.live
  kmalloc_some := by
    intro v n p v' issued
    obtain ⟨q, h, served, result⟩ := v.kmalloc_eq n
    obtain ⟨answer, state⟩ := Prod.mk.inj (result.symm.trans issued)
    by_cases null : q = 0
    · simp [null] at answer
    · rw [if_neg null] at answer
      obtain rfl : q = p := Option.some.inj answer
      obtain ⟨blocks, good⟩ := v.ordered
      refine ⟨good.fresh served null, ?_⟩
      rw [← state]
      exact if_neg null
  kmalloc_none := by
    intro v n v' refused
    obtain ⟨q, h, served, result⟩ := v.kmalloc_eq n
    obtain ⟨answer, state⟩ := Prod.mk.inj (result.symm.trans refused)
    by_cases null : q = 0
    · rw [← state]
      exact if_pos null
    · simp [null] at answer
  kfree_live := by
    intro v p member
    have freed : v.kfree p = v.drop (.inr member) := dif_pos (.inr member)
    rw [freed]
    rfl

/-- Released one after the other, the objects give the list `origin` back. -/
def UnwindsTo (origin : List Block) : List Addr → List Block → Prop
  | [], blocks => blocks = origin
  | a :: rest, blocks => UnwindsTo origin rest (release 32 (a - 32) blocks)

/-- The heap holds the objects of `got` on top of the block list `origin` of the heap `h`. -/
structure Stacked (h : Heap) (origin : List Block) (got : List Addr) (v : OrderedHeap) : Prop where
  listed : ∃ blocks, Good v.toClient blocks ∧ UnwindsTo origin got blocks
  nodup : got.Nodup
  live : ∀ a ∈ got, a ∈ v.live
  region : v.heap.heapStart = h.heapStart ∧ v.heap.heapSize = h.heapSize

/-- A request of some bytes is never answered by a block that has no address for its payload. -/
theorem Holds.kmalloc_null_of_pos {h h' : Heap} {blocks : List Block} {n fuel : Nat} (holds : Holds h blocks)
    (positive : 0 < n) (small : n ≤ 2 ^ 64 - 16) (answered : Mm.kmalloc fuel h n = some (0, h')) : h' = h := by
  apply holds.kmalloc_null answered
  intro b member fits
  have large : alignUp n ≤ b.size := fits.2
  have within : 0 < b.addr ∧ b.addr + 32 + b.size ≤ 2 ^ 64 ∧ b.size < 2 ^ 32 := holds.within member
  rw [alignUp_eq_rounded small, rounded] at large
  omega

/-- Requests of some bytes and frees in the reverse order keep what a heap holds on top of a block list. -/
theorem heapAllocator_unwinding {sizes : List Nat} (h : Heap) (origin : List Block)
    (plain : ∀ n ∈ sizes, 0 < n ∧ n ≤ 2 ^ 64 - 16) : Unwinding heapAllocator sizes (Stacked h origin) where
  issue := by
    intro got v v' n a _ stacked issued
    obtain ⟨blocks, good, unwinds⟩ := stacked.listed
    obtain ⟨p, g, served, result⟩ := v.kmalloc_eq n
    obtain ⟨answer, state⟩ := Prod.mk.inj (result.symm.trans issued)
    by_cases null : p = 0
    · simp [null] at answer
    · rw [if_neg null] at answer
      obtain rfl : p = a := Option.some.inj answer
      obtain ⟨blocks', next, restored⟩ := good.kmalloc_release served null
      have fresh := good.fresh served null
      have client : v'.toClient = ⟨g, insert p v.live⟩ := by
        rw [← state]
        simp [OrderedHeap.serve, null]
      obtain ⟨start, size⟩ := kmalloc_region served
      have live : v'.live = insert p v.live := congrArg Client.live client
      have heap : v'.heap = g := congrArg Client.heap client
      refine ⟨⟨blocks', client ▸ next, ?_⟩, ?_, ?_, ?_⟩
      · change UnwindsTo origin got (release 32 (p - 32) blocks')
        rw [restored]
        exact unwinds
      · exact List.nodup_cons.mpr ⟨fun member => fresh (stacked.live p member), stacked.nodup⟩
      · intro b member
        rw [live, Finset.mem_insert]
        rcases List.mem_cons.mp member with rfl | old
        · exact .inl rfl
        · exact .inr (stacked.live b old)
      · rw [heap]
        exact ⟨start.trans stacked.region.1, size.trans stacked.region.2⟩
  refuse := by
    intro got v v' n listed stacked refused
    obtain ⟨blocks, good, unwinds⟩ := stacked.listed
    obtain ⟨p, g, served, result⟩ := v.kmalloc_eq n
    obtain ⟨answer, state⟩ := Prod.mk.inj (result.symm.trans refused)
    by_cases null : p = 0
    · subst null
      obtain ⟨positive, small⟩ := plain n listed
      have same := good.holds.kmalloc_null_of_pos positive small served
      have client : v'.toClient = v.toClient := by
        rw [← state, OrderedHeap.serve]
        simp [same]
      have live : v'.live = v.live := congrArg Client.live client
      have heap : v'.heap = v.heap := congrArg Client.heap client
      refine ⟨⟨blocks, client ▸ good, unwinds⟩, stacked.nodup, ?_, ?_⟩
      · rw [live]
        exact stacked.live
      · rw [heap]
        exact stacked.region
    · simp [null] at answer
  free := by
    intro got v a stacked
    obtain ⟨blocks, good, unwinds⟩ := stacked.listed
    obtain ⟨outside, nodup⟩ := List.nodup_cons.mp stacked.nodup
    have member : a ∈ v.live := stacked.live a (by simp)
    have freed : v.kfree a = v.drop (.inr member) := dif_pos (.inr member)
    obtain ⟨start, size⟩ := kfree_region v.heap a
    change Stacked h origin got (v.kfree a)
    rw [freed]
    refine ⟨⟨_, good.kfree_live member, unwinds⟩, nodup, ?_, start.trans stacked.region.1, size.trans stacked.region.2⟩
    intro b held
    have different : b ≠ a := fun same => outside (same ▸ held)
    exact Finset.mem_erase.mpr ⟨different, stacked.live b (by simp [held])⟩

/-- When everything is given back, the heap is in the state before. -/
theorem Stacked.heapState_eq {v v' : OrderedHeap} {blocks : List Block} (good : Good v.toClient blocks)
    (stacked : Stacked v.heap blocks [] v') : heapState v'.heap = heapState v.heap := by
  obtain ⟨blocks', next, rfl⟩ := stacked.listed
  exact next.holds.heapState_eq good.holds stacked.region.1 stacked.region.2

end OsKernel.Mm
