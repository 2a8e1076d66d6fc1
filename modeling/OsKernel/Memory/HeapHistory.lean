import OsKernel.Library.Layouts
import OsKernel.Memory.HeapDrain

/-
This file proves that the state of the heap depends on its live blocks and not on the calls that led to them.
-/

namespace OsKernel.Mm
open Library

section Live

variable {c c' : Client} {blocks blocks' : List Block}

/-- The same live pointers with the same sizes stand for the same allocated blocks. -/
theorem Good.allocated_subset (good : Good c blocks) (good' : Good c' blocks') (known : Addressable blocks)
    (live : ∀ p, p ∈ c.live → p ∈ c'.live) (sizes : ∀ p ∈ c.live, blockSize c.heap p = blockSize c'.heap p)
    {d : Block} (taken : d.free = false) (member : d ∈ blocks) : d ∈ blocks' := by
  have held : d.addr + 32 ∈ c.live := (good.live _).mpr ⟨d, member, taken, rfl, known d member⟩
  obtain ⟨e, listed, flag, place, _, size⟩ := good.block_of_live held
  obtain ⟨e', listed', flag', place', _, size'⟩ := good'.block_of_live (live _ held)
  have own : e = d := good.holds.tiles.eq_of_addr (by decide) listed member (by omega)
  have length : e'.size = e.size := by rw [← size', ← size, sizes _ held]
  have addr : e'.addr = e.addr := by omega
  obtain rfl : e' = e := by
    obtain ⟨_, _, _⟩ := e
    obtain ⟨_, _, _⟩ := e'
    simp only at length addr flag flag'
    rw [length, addr, flag, flag']
  exact own ▸ listed'

/-- Two heaps over one range with the same live blocks are in the same state. -/
theorem Good.heapState_eq (good : Good c blocks) (good' : Good c' blocks') (known : Addressable blocks)
    (known' : Addressable blocks') (start : c.heap.heapStart = c'.heap.heapStart)
    (size : c.heap.heapSize = c'.heap.heapSize) (live : c.live = c'.live)
    (sizes : ∀ p ∈ c.live, blockSize c.heap p = blockSize c'.heap p) : heapState c.heap = heapState c'.heap := by
  have range : Tiles 32 c.heap.heapStart (c.heap.heapStart + c.heap.heapSize) blocks' := by
    rw [start, size]
    exact good'.holds.tiles
  have same : blocks = blocks' := by
    apply Coalesced.ext (by decide) good.holds.tiles range good.coalesced good'.coalesced
    intro d taken
    constructor
    · exact good.allocated_subset good' known (fun p member => live ▸ member) sizes taken
    · apply good'.allocated_subset good known' (fun p member => live.symm ▸ member) _ taken
      intro p member
      exact (sizes p (live.symm ▸ member)).symm
  subst same
  exact good.holds.heapState_eq good'.holds start size

end Live

section Runs

variable {h h' : Heap} {start size : Nat} {ops ops' : List Op} {c c' : Client}

/-- Two runs over one range that end with the same live blocks end in the same state, whatever the calls were. -/
theorem heap_runs_same_state (valid : ValidRegion start size) (inner : ¬ LastHeader start size)
    (run : Run Step (boot h start size) ops c) (run' : Run Step (boot h' start size) ops' c')
    (live : c.live = c'.live) (sizes : ∀ p ∈ c.live, blockSize c.heap p = blockSize c'.heap p) :
    heapState c.heap = heapState c'.heap := by
  obtain ⟨blocks, good, known⟩ := (boot_good valid).addressable_run (valid.addressable inner) run
  obtain ⟨blocks', good', known'⟩ := (boot_good valid).addressable_run (valid.addressable inner) run'
  obtain ⟨first, whole⟩ := run_region run
  obtain ⟨first', whole'⟩ := run_region run'
  exact good.heapState_eq good' known known' (first.trans first'.symm) (whole.trans whole'.symm) live sizes

/-- A second request is served behind the first block and taken back. -/
theorem serve_and_free : ∃ h₁ h₂, Step (boot blankHeap 4096 65536) (.kmalloc 100) ⟨h₁, {4128}⟩ ∧
    Run Step ⟨h₁, {4128}⟩ [.kmalloc 20, .kfree 4272] ⟨h₂, {4128}⟩ ∧ blockSize h₂ 4128 = blockSize h₁ 4128 := by
  have answer : ((kmalloc 2 (heapInit blankHeap 4096 65536) 100).bind fun r => (kmalloc 3 r.2 20).map fun r' =>
      (r.1, r'.1, blockSize (kfree r'.2 4272) 4128, blockSize r.2 4128)) = some (4128, 4272, 112, 112) := by
    decide +kernel
  obtain ⟨⟨p, h₁⟩, served, rest⟩ := Option.bind_eq_some_iff.mp answer
  obtain ⟨⟨q, h₂⟩, later, same⟩ := Option.map_eq_some_iff.mp rest
  obtain ⟨rfl, rfl, size, size'⟩ : p = 4128 ∧ q = 4272 ∧ _ = 112 ∧ _ = 112 := by simpa using same
  have first : Step (boot blankHeap 4096 65536) (.kmalloc 100) _ := .kmalloc served
  have second : Step ⟨h₁, {4128}⟩ (.kmalloc 20) _ := .kmalloc later
  have third : Step ⟨h₂, {4272, 4128}⟩ (.kfree 4272) _ := .kfree (.inr (by simp))
  have left : ({4272, 4128} : Finset Nat).erase 4272 = {4128} := by decide
  have run := (Run.nil.snoc second).snoc third
  rw [left] at run
  exact ⟨h₁, kfree h₂ 4272, first, run, size.trans size'.symm⟩

theorem inner_sample : ¬ LastHeader 4096 65536 := by
  rw [LastHeader]
  decide

/-- A heap that served a second request and took it back is as if it had never been asked. -/
theorem heap_runs_same_state_sample : ∃ c c',
    Run Step (boot blankHeap 4096 65536) ([.kmalloc 100] ++ [.kmalloc 20, .kfree 4272]) c ∧
    Run Step (boot blankHeap 4096 65536) [.kmalloc 100] c' ∧ heapState c.heap = heapState c'.heap := by
  have valid : ValidRegion 4096 65536 := ⟨by decide, by decide, by decide, by decide⟩
  obtain ⟨h₁, h₂, first, further, size⟩ := serve_and_free
  have run := Run.nil.snoc first
  refine ⟨_, _, run.append further, run, heap_runs_same_state valid inner_sample (run.append further) run rfl ?_⟩
  intro p member
  obtain rfl := Finset.mem_singleton.mp member
  exact size

end Runs

section Balance

variable {c c' : Client} {blocks : List Block} {ops : List Op}

end Balance

end OsKernel.Mm
