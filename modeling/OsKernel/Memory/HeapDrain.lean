import OsKernel.Memory.HeapAccounting

/-
This file proves that the order of frees does not matter and that freeing everything restores the fresh heap.
-/

namespace OsKernel.Mm
open Library

/-- What a header says. -/
structure Header where
  addr : Nat
  size : Nat
  magic : Nat
  isFree : Nat
  next : Nat
  prev : Nat
  deriving DecidableEq

/-- The heap manager and the headers along the block list. -/
structure HeapState where
  firstBlock : Nat
  lastBlock : Nat
  heapStart : Nat
  heapEnd : Nat
  heapSize : Nat
  freeSize : Nat
  blocks : Option (List Header)
  deriving DecidableEq

def readHeader (h : Heap) (a : Nat) : Header :=
  ⟨a, h.get .size a, h.get .magic a, h.get .isFree a, h.get .next a, h.get .prev a⟩

/-- The state leaves out the payloads and the stale headers in them. -/
def heapState (h : Heap) : HeapState :=
  ⟨h.firstBlock, h.lastBlock, h.heapStart, h.heapEnd, h.heapSize, h.freeSize,
    (walk h (h.heapSize / 32 + 1) h.firstBlock).map fun nodes => nodes.map (readHeader h)⟩

/-- The pointers are freed from left to right. -/
def freeAll (h : Heap) (ps : List Nat) : Heap := ps.foldl kfree h

section States

variable {h h' : Heap} {blocks blocks' : List Block}

/-- The state lists the headers of the blocks. -/
theorem Holds.heapState_blocks (holds : Holds h blocks) :
    (heapState h).blocks = some ((blocks.map Block.addr).map (readHeader h)) := by
  rw [heapState, holds.walk_firstBlock]
  rfl

/-- The block list determines every header field. -/
theorem Holds.get_eq {b : Block} (holds : Holds h blocks) (holds' : Holds h' blocks) (member : b ∈ blocks)
    (f : Field) : h.get f b.addr = h'.get f b.addr := by
  have described := holds.headers b member
  have described' := holds'.headers b member
  obtain ⟨left, right, rfl⟩ := List.append_of_mem member
  cases f with
  | size => rw [described.size, described'.size]
  | magic => rw [described.magic, described'.magic]
  | isFree => rw [described.flag, described'.flag]
  | next => rw [holds.next_eq, holds'.next_eq]
  | prev => rw [holds.prev_eq, holds'.prev_eq]

/-- Two heaps over one range with one block list are in the same state. -/
theorem Holds.heapState_eq (holds : Holds h blocks) (holds' : Holds h' blocks)
    (start : h.heapStart = h'.heapStart) (size : h.heapSize = h'.heapSize) : heapState h = heapState h' := by
  have headers : (heapState h).blocks = (heapState h').blocks := by
    rw [holds.heapState_blocks, holds'.heapState_blocks]
    congr 1
    apply List.map_congr_left
    apply forall_node
    intro b member
    have same := holds.get_eq holds' member
    simp only [readHeader, same]
  have first : h.firstBlock = h'.firstBlock := holds.first.trans holds'.first.symm
  have last : h.lastBlock = h'.lastBlock := holds.last.trans holds'.last.symm
  have free : h.freeSize = h'.freeSize := holds.account.trans holds'.account.symm
  have ends : h.heapEnd = h'.heapEnd := by rw [holds.ends, holds'.ends, start, size]
  change HeapState.mk _ _ _ _ _ _ (heapState h).blocks = HeapState.mk _ _ _ _ _ _ (heapState h').blocks
  rw [headers, first, last, free, ends, start, size]

/-- A heap holds one block list only. -/
theorem Holds.unique (holds : Holds h blocks) (holds' : Holds h blocks') : blocks = blocks' := by
  have addrs : blocks.map Block.addr = blocks'.map Block.addr := by
    have first := holds.heapState_blocks
    rw [holds'.heapState_blocks] at first
    have lists := Option.some.inj first
    have injective : Function.Injective (readHeader h) := fun a b same => congrArg Header.addr same
    exact (List.map_injective_iff.mpr injective lists).symm
  have known (b : Block) (described : Describes h b) :
      b = ⟨b.addr, h.get .size b.addr, decide (h.get .isFree b.addr ≠ 0)⟩ := by
    rw [described.size, described.flag]
    obtain ⟨addr, size, free⟩ := b
    cases free <;> rfl
  calc blocks
      = (blocks.map Block.addr).map fun a => ⟨a, h.get .size a, decide (h.get .isFree a ≠ 0)⟩ := by
        rw [List.map_map]
        conv_lhs => rw [← List.map_id blocks]
        exact List.map_congr_left fun b member => known b (holds.headers b member)
    _ = (blocks'.map Block.addr).map fun a => ⟨a, h.get .size a, decide (h.get .isFree a ≠ 0)⟩ := by rw [addrs]
    _ = blocks' := by
        rw [List.map_map]
        conv_rhs => rw [← List.map_id blocks']
        exact (List.map_congr_left fun b member => known b (holds'.headers b member)).symm

end States

section Order

variable {c c' : Client} {blocks : List Block} {ps qs : List Nat}

/-- Freeing a list of live pointers releases their blocks in turn. -/
theorem Good.freeAll (good : Good c blocks) (distinct : ps.Nodup) (live : ∀ p ∈ ps, p ∈ c.live) :
    Good ⟨Mm.freeAll c.heap ps, ps.foldl (fun left p => left.erase p) c.live⟩
      (ps.foldl (fun left p => release 32 (p - 32) left) blocks) := by
  induction ps generalizing c blocks with
  | nil => exact good
  | cons p rest ih =>
      obtain ⟨fresh, later⟩ := List.nodup_cons.mp distinct
      apply ih (good.kfree_live (live p (by simp))) later
      intro q member
      have different : q ≠ p := fun same => fresh (same ▸ member)
      exact Finset.mem_erase.mpr ⟨different, live q (by simp [member])⟩

/-- The frees of a list keep the range of the heap. -/
theorem freeAll_region (h : Heap) (ps : List Nat) :
    (freeAll h ps).heapStart = h.heapStart ∧ (freeAll h ps).heapSize = h.heapSize := by
  induction ps generalizing h with
  | nil => exact ⟨rfl, rfl⟩
  | cons p rest ih =>
      obtain ⟨start, size⟩ := ih (kfree h p)
      obtain ⟨origin, extent⟩ := kfree_region h p
      exact ⟨start.trans origin, size.trans extent⟩

/-- Two orders of frees lead to one state. -/
theorem Good.freeAll_perm (good : Good c blocks) (order : ps.Perm qs) (distinct : ps.Nodup)
    (live : ∀ p ∈ ps, p ∈ c.live) : heapState (Mm.freeAll c.heap ps) = heapState (Mm.freeAll c.heap qs) := by
  have first := (good.freeAll distinct live).holds
  have second := (good.freeAll (order.nodup_iff.mp distinct) fun p member =>
    live p (order.mem_iff.mpr member)).holds
  have same : ps.foldl (fun left p => release 32 (p - 32) left) blocks =
      qs.foldl (fun left p => release 32 (p - 32) left) blocks := by
    apply order.foldl_eq'
    intro p _ q _ left
    exact release_comm _ _ left
  rw [same] at first
  obtain ⟨start, size⟩ := freeAll_region c.heap ps
  obtain ⟨start', size'⟩ := freeAll_region c.heap qs
  exact first.heapState_eq second (start.trans start'.symm) (size.trans size'.symm)

/-- What is left of the live pointers after freeing a list of them. -/
theorem mem_foldl_erase {q : Nat} {live : Finset Nat} :
    q ∈ ps.foldl (fun left p => left.erase p) live ↔ q ∈ live ∧ q ∉ ps := by
  induction ps generalizing live with
  | nil => simp
  | cons p rest ih =>
      rw [List.foldl_cons, ih, Finset.mem_erase, List.mem_cons]
      tauto

end Order

section Addresses

variable {c c' : Client} {blocks blocks' : List Block} {op : Op}

/-- No payload starts at the very end of the address space, so every allocated block has a pointer. -/
def Addressable (blocks : List Block) : Prop := ∀ b ∈ blocks, b.addr + 32 < 2 ^ 64

theorem Addressable.release {a : Nat} (known : Addressable blocks) :
    Addressable (Library.release 32 a blocks) := by
  apply forall_mem_coalesce
  · intro x y first _
    exact first
  · intro x inside
    obtain ⟨y, member, rfl⟩ := List.mem_map.mp inside
    have bound := known y member
    split
    · exact bound
    · exact bound

theorem Addressable.releases {ps : List Nat} (known : Addressable blocks) :
    Addressable (ps.foldl (fun left p => Library.release 32 (p - 32) left) blocks) := by
  induction ps generalizing blocks with
  | nil => exact known
  | cons p rest ih => exact ih known.release

/-- A remainder is more than 16 bytes long, so it does not start at the end either. -/
theorem Addressable.carve {h : Heap} {left right : List Block} {b : Block} {size : Nat}
    (holds : Holds h (left ++ b :: right)) (known : Addressable (left ++ b :: right)) :
    Addressable (left ++ Library.carve 32 16 size b ++ right) := by
  have first : b.addr + 32 < 2 ^ 64 := known b (by simp)
  have bound : b.addr + 32 + b.size ≤ 2 ^ 64 := (holds.within (by simp)).2.1
  intro d member
  simp only [Library.carve, List.mem_append, List.mem_cons] at member
  rcases member with (before | rfl | rest) | behind
  · exact known d (by simp [before])
  · rw [taken_addr]
    exact first
  · rw [remainder] at rest
    split at rest
    next excess =>
        rw [List.mem_singleton.mp rest]
        change b.addr + 32 + size + 32 < 2 ^ 64
        omega
    next => cases rest
  · exact known d (by simp [behind])

/-- Every step keeps the blocks addressable. -/
theorem Good.addressable_step (good : Good c blocks) (known : Addressable blocks) (step : Step c op c')
    (final : Good c' blocks') : Addressable blocks' := by
  cases step with
  | kmalloc served =>
      rcases kmalloc_refines good.holds served with ⟨_, _, rfl⟩ | ⟨a, carved, allocated, _, holds⟩
      · rwa [← good.holds.unique final.holds]
      · rw [← holds.unique final.holds]
        obtain ⟨left, b, right, rfl, _, _, _, rfl⟩ := allocate_eq_some allocated
        exact known.carve good.holds
  | kfree allowed =>
      rcases allowed with rfl | member
      · rwa [← good.holds.unique final.holds]
      · rw [← (good.kfree_live member).holds.unique final.holds]
        exact known.release
  | write permitted => rwa [← (good.write permitted).holds.unique final.holds]

/-- Every run that starts addressable stays so. -/
theorem Good.addressable_run {ops : List Op} (good : Good c blocks) (known : Addressable blocks)
    (run : Run Step c ops c') : ∃ blocks', Good c' blocks' ∧ Addressable blocks' := by
  apply run.invariant (fun _ s => ∃ blocks', Good s blocks' ∧ Addressable blocks') ⟨blocks, good, known⟩
  rintro _ s op s' _ ⟨middle, reached, kept⟩ step
  obtain ⟨blocks', final, _⟩ := reached.step step
  exact ⟨blocks', final, reached.addressable_step kept step final⟩

end Addresses

/-- The region is the one header that ends at the end of the address space. -/
def LastHeader (start size : Nat) : Prop := usable start size = 32 ∧ start + adjust start + 32 = 2 ^ 64

/-- Only the last header of the address space starts a payload at its end. -/
theorem ValidRegion.addressable {start size : Nat} (valid : ValidRegion start size)
    (inner : ¬ LastHeader start size) : Addressable [⟨start + adjust start, usable start size - 32, true⟩] := by
  obtain ⟨_, least, _, bounded⟩ := valid
  intro b member
  rw [List.mem_singleton.mp member]
  change start + adjust start + 32 < 2 ^ 64
  rw [LastHeader] at inner
  omega

/-- When nothing is live, the heap is one free block. -/
theorem Good.drained {c : Client} {blocks : List Block} (good : Good c blocks) (known : Addressable blocks)
    (large : 0 < c.heap.heapSize) (empty : ∀ p, p ∉ c.live) :
    blocks = [⟨c.heap.heapStart, c.heap.heapSize - 32, true⟩] := by
  have free : ∀ b ∈ blocks, b.free := by
    intro b member
    by_contra held
    exact empty (b.addr + 32) ((good.live _).mpr ⟨b, member, by simpa using held, rfl, known b member⟩)
  obtain ⟨b, rest, rfl⟩ := List.exists_cons_of_ne_nil (good.holds.ne_nil large)
  obtain rfl := good.coalesced.eq_singleton free
  obtain ⟨origin, extent⟩ := good.holds.tiles
  rw [tiles_nil] at extent
  have flag : b.free = true := free b (by simp)
  obtain ⟨addr, size, _⟩ := b
  simp only at origin extent flag
  have length : size = c.heap.heapSize - 32 := by omega
  rw [origin, length, flag]

/-- A fresh heap lists its one block. -/
theorem heapState_heapInit {h : Heap} {start size : Nat} (valid : ValidRegion start size) :
    (heapState (heapInit h start size)).blocks =
      some [⟨start + adjust start, usable start size - 32, heapMagic, 1, 0, 0⟩] := by
  have fields := get_heapInit (h := h) valid
  rw [(heapInit_holds valid).heapState_blocks]
  simp [readHeader, fields, freeHeader]

/-- The frees of live pointers commute, and freeing all of them gives the fresh heap back. -/
structure FreesCommute (h : Heap) (start size : Nat) (c : Client) : Prop where
  order : ∀ ps qs : List Nat, ps.Perm qs → ps.Nodup → (∀ p ∈ ps, p ∈ c.live) →
    heapState (freeAll c.heap ps) = heapState (freeAll c.heap qs)
  drain : ¬ LastHeader start size → ∀ ps : List Nat, ps.Nodup → (∀ p, p ∈ ps ↔ p ∈ c.live) →
    heapState (freeAll c.heap ps) = heapState (heapInit h start size) ∧
    (heapState (freeAll c.heap ps)).blocks =
      some [⟨start + adjust start, usable start size - 32, heapMagic, 1, 0, 0⟩]

/-- In every run from a valid `heap_init` frees commute and drain the heap. -/
theorem heap_run_freesCommute {h : Heap} {start size : Nat} {ops : List Op} {c : Client}
    (valid : ValidRegion start size) (run : Run Step (boot h start size) ops c) :
    FreesCommute h start size c where
  order := by
    intro ps qs order distinct live
    obtain ⟨blocks, good, _⟩ := (boot_good valid).run run
    exact good.freeAll_perm order distinct live
  drain := by
    intro inner ps distinct all
    obtain ⟨blocks, good, known⟩ := (boot_good valid).addressable_run (valid.addressable inner) run
    have final := good.freeAll distinct fun p member => (all p).mp member
    have least := valid.least
    obtain ⟨origin, extent⟩ := run_region run
    obtain ⟨start', size'⟩ := freeAll_region c.heap ps
    have first : (freeAll c.heap ps).heapStart = (heapInit h start size).heapStart := start'.trans origin
    have whole : (freeAll c.heap ps).heapSize = (heapInit h start size).heapSize := size'.trans extent
    have begins : (freeAll c.heap ps).heapStart = start + adjust start := first.trans valid.start_eq
    have length : (freeAll c.heap ps).heapSize = usable start size := whole
    have one := final.drained known.releases (lt_of_lt_of_eq (by omega) length.symm) (by
      intro p member
      obtain ⟨held, rest⟩ := mem_foldl_erase.mp member
      exact rest ((all p).mpr held))
    have single : Holds (freeAll c.heap ps) [⟨start + adjust start, usable start size - 32, true⟩] := by
      rw [← begins, ← length, ← one]
      exact final.holds
    have same := single.heapState_eq (heapInit_holds valid) first whole
    rw [same]
    exact ⟨rfl, heapState_heapInit valid⟩

/-- The sample frees two blocks in both orders. -/
theorem heap_run_freesCommute_sample : ∃ c,
    Run Step (boot blankHeap 4096 65536) [.kmalloc 100, .kmalloc 20] c ∧ c.live = {4128, 4272} ∧
    FreesCommute blankHeap 4096 65536 c := by
  have valid : ValidRegion 4096 65536 := ⟨by decide, by decide, by decide, by decide⟩
  have answer : ((kmalloc 2 (heapInit blankHeap 4096 65536) 100).bind fun r =>
      (kmalloc 3 r.2 20).map fun r' => (r.1, r'.1)) = some (4128, 4272) := by decide +kernel
  obtain ⟨⟨p, h⟩, served, rest⟩ := Option.bind_eq_some_iff.mp answer
  obtain ⟨⟨q, h'⟩, later, same⟩ := Option.map_eq_some_iff.mp rest
  obtain ⟨rfl, rfl⟩ : p = 4128 ∧ q = 4272 := Prod.mk.inj same
  have first : Step (boot blankHeap 4096 65536) (.kmalloc 100) _ := .kmalloc served
  have second : Step ⟨h, {4128}⟩ (.kmalloc 20) _ := .kmalloc later
  have run := Run.snoc (Run.snoc .nil first) second
  exact ⟨_, run, Finset.pair_comm 4272 4128, heap_run_freesCommute valid run⟩

/-- The one block of the last header is allocated at null, so no free gives it back. -/
theorem lastHeader_keeps_block : ∃ start size c, ValidRegion start size ∧
    Run Step (boot blankHeap start size) [.kmalloc 0] c ∧
    ∃ ps : List Nat, ps.Nodup ∧ (∀ p, p ∈ ps ↔ p ∈ c.live) ∧
      heapState (freeAll c.heap ps) ≠ heapState (heapInit blankHeap start size) := by
  let start := 0xffffffffffffffe0
  have valid : ValidRegion start 32 := ⟨by decide, by decide, by decide, by decide⟩
  have answer : (kmalloc 2 (heapInit blankHeap start 32) 0).map
      (fun r => (r.1, decide (heapState r.2 = heapState (heapInit blankHeap start 32)))) =
        some (0, false) := by decide +kernel
  obtain ⟨⟨p, h⟩, served, found⟩ := Option.map_eq_some_iff.mp answer
  obtain ⟨rfl, different⟩ := Prod.mk.inj found
  have run := Run.snoc .nil (Step.kmalloc (c := boot blankHeap start 32) served)
  refine ⟨start, 32, _, valid, run, [], List.nodup_nil, ?_, ?_⟩
  · intro p
    exact ⟨fun member => absurd member List.not_mem_nil, fun member => absurd member (Finset.notMem_empty p)⟩
  · exact of_decide_eq_false different

end OsKernel.Mm
