import OsKernel.Fs.CacheFailure

/-
This file decides when a get returns a block whose buffer is as large as the request.
The allocator is extended by a record of the sizes that were requested.
-/

namespace OsKernel.Cache
open Library

variable {H : Type} {A : Allocator H}

/-- A served request is recorded under its address. -/
def recordSize (sizes : Addr → Nat) (size : Nat) : Option Addr → Addr → Nat
  | none => sizes
  | some p => Function.update sizes p size

/-- An allocator with the requested size of each address. -/
def sizedAllocator (A : Allocator H) : Allocator (H × (Addr → Nat)) where
  kmalloc h size := ((A.kmalloc h.1 size).1, (A.kmalloc h.1 size).2, recordSize h.2 size (A.kmalloc h.1 size).1)
  kfree h p := (A.kfree h.1 p, h.2)
  live h := A.live h.1
  kmalloc_some := by
    intro h size p h' issued
    obtain ⟨answer, rfl⟩ := Prod.mk.inj issued
    exact A.kmalloc_some (Prod.ext answer rfl)
  kmalloc_none := by
    intro h size h' refused
    obtain ⟨answer, rfl⟩ := Prod.mk.inj refused
    exact A.kmalloc_none (Prod.ext answer rfl)
  kfree_live := fun member => A.kfree_live member

/-- The answer to a request has the id, and its buffer was requested with at least the size. -/
def LargeEnough (A : Allocator H) (s : Manager (H × (Addr → Nat))) (blockId size : Nat) : Prop :=
  ∀ a s', cacheGetBlock (sizedAllocator A) s blockId size = (some a, s') →
    (s'.block a).blockId = blockId ∧ ∃ d, (s'.block a).data = some d ∧ d ∈ A.live s'.heap.1 ∧ size ≤ s'.heap.2 d

/-- Every resident buffer was requested with the size of its block. -/
def SizesRecorded (s : Manager (H × (Addr → Nat))) : Prop :=
  ∀ i a d, s.blocks i = some a → (s.block a).data = some d → s.heap.2 d = (s.block a).size

section Records

variable {s s' room : Manager (H × (Addr → Nat))} {a d : Addr} {i j blockId size : Nat} {r : Option Addr}

/-- A request changes the record of the issued address only. -/
theorem record_some {h h' : H × (Addr → Nat)} (issued : (sizedAllocator A).kmalloc h size = (some a, h')) :
    h'.2 = Function.update h.2 a size := by
  obtain ⟨answer, rfl⟩ := Prod.mk.inj issued
  change recordSize h.2 size (A.kmalloc h.1 size).1 = _
  rw [answer]
  rfl

theorem record_none {h h' : H × (Addr → Nat)} (refused : (sizedAllocator A).kmalloc h size = (none, h')) :
    h'.2 = h.2 := by
  obtain ⟨answer, rfl⟩ := Prod.mk.inj refused
  change recordSize h.2 size (A.kmalloc h.1 size).1 = _
  rw [answer]
  rfl

/-- A free keeps the record. -/
theorem record_evict : (evict (sizedAllocator A) s i a).heap.2 = s.heap.2 := by
  change (freePointer (sizedAllocator A) s.heap (s.block a).data).2 = _
  cases (s.block a).data <;> rfl

/-- Making room keeps the records of the blocks that stay. -/
theorem SizesRecorded.makeRoom (recorded : SizesRecorded s)
    (made : Cache.makeRoom (sizedAllocator A) s = some room) : SizesRecorded room := by
  rcases makeRoom_some made with ⟨_, rfl⟩ | ⟨_, i, a, _, _, rfl, _⟩
  · exact recorded
  · intro j b d held stored
    rw [record_evict]
    exact recorded j b d (evict_blocks.mp held).2 stored

/-- The record of a live buffer survives a request. -/
theorem record_live {h h' : H × (Addr → Nat)} (issued : (sizedAllocator A).kmalloc h size = (some a, h'))
    (live : d ∈ (sizedAllocator A).live h) : h'.2 d = h.2 d := by
  rw [record_some issued, Function.update_of_ne]
  rintro rfl
  exact ((sizedAllocator A).kmalloc_some issued).1 live

/-- Every result of a get keeps the records. -/
theorem SizesRecorded.get (recorded : SizesRecorded s) (table : Table (sizedAllocator A) s)
    (result : GetResult (sizedAllocator A) s blockId size r s') : SizesRecorded s' := by
  have counted : SizesRecorded (countMiss s) := recorded
  cases result with
  | @hit i a held named =>
      intro j b d resident stored
      rw [touch_block] at stored ⊢
      split at stored
      next same =>
          rw [if_pos same]
          exact recorded j a d (same ▸ resident) stored
      next other =>
          rw [if_neg other]
          exact recorded j b d resident stored
  | refused absent full => exact counted
  | noBlock absent made failed =>
      intro j b d held stored
      rw [← counted.makeRoom made j b d held stored, record_none failed]
  | @noData room a h h' absent made granted failed =>
      have tabled := table.countMiss.makeRoom made
      have fresh := ((sizedAllocator A).kmalloc_some granted).1
      intro j b d held stored
      simp only [tabled.update_fresh fresh held] at stored ⊢
      obtain ⟨e, known, live⟩ := tabled.data held
      obtain rfl : e = d := Option.some.inj (known.symm.trans stored)
      rw [← counted.makeRoom made j b e held stored]
      change h'.2 e = _
      rw [record_none failed, record_live granted live]
  | @added room a d h h' absent made granted filled =>
      have tabled := table.countMiss.makeRoom made
      obtain ⟨k, added⟩ := added_of_kmalloc blockId (table.countMiss.room_empty made) granted filled
      intro j b e held stored
      rw [addBlock_heap]
      change h'.2 e = _
      rcases added.data_cases tabled held stored with ⟨_, rfl, rfl⟩ | ⟨old, known, live⟩
      · rw [record_some filled, Function.update_self, added.block_new]
      · have more : e ∈ (sizedAllocator A).live h := by
          rw [((sizedAllocator A).kmalloc_some granted).2]
          exact Finset.mem_insert_of_mem live
        rw [added.block_old tabled old, ← counted.makeRoom made j b e old known,
          record_live filled more, record_live granted live]

/-- Nothing but a get changes the sizes. -/
theorem SizesRecorded.alike (recorded : SizesRecorded s) (alike : Alike s s') : SizesRecorded s' := by
  intro i a d held stored
  rw [alike.blocks] at held
  rw [alike.data] at stored
  rw [alike.heap, alike.sizes]
  exact recorded i a d held stored

/-- Every step keeps the records. -/
theorem SizesRecorded.step {op : Op} (recorded : SizesRecorded s) (table : Table (sizedAllocator A) s)
    (taken : Step (sizedAllocator A) s op s') : SizesRecorded s' := by
  cases taken with
  | get answered => exact recorded.get table (table.get_result answered)
  | release resident => exact recorded.alike (alike_release _)
  | markDirty resident => exact recorded.alike (alike_markDirty _)
  | syncBlock resident => exact recorded.alike (alike_syncBlock _)
  | syncAll => exact recorded.alike alike_syncAll

/-- Every run keeps the records. -/
theorem run_recorded {s₀ : Manager (H × (Addr → Nat))} {ops : List Op}
    (run : Run (Step (sizedAllocator A)) (cacheInit s₀) ops s) : SizesRecorded s := by
  apply run.invariant fun _ s => SizesRecorded s
  · intro i a d held
    cases held
  · intro _ s₁ op s₂ earlier recorded taken
    exact recorded.step (run_table earlier) taken

/-- A get is answered by a large enough block exactly when no smaller block with the id is resident. -/
theorem SizesRecorded.largeEnough_iff (recorded : SizesRecorded s) (table : Table (sizedAllocator A) s) :
    LargeEnough A s blockId size ↔
      ∀ i a, s.blocks i = some a → (s.block a).blockId = blockId → size ≤ (s.block a).size := by
  constructor
  · intro large i a held named
    have found : findCacheBlock s blockId = some a := table.find_iff.mpr ⟨i, held, named⟩
    have answered : cacheGetBlock (sizedAllocator A) s blockId size = (some a, touch s a) := by
      simp only [cacheGetBlock, found]
    obtain ⟨_, d, stored, _, enough⟩ := large a (touch s a) answered
    rw [touch_block, if_pos rfl] at stored
    change size ≤ s.heap.2 d at enough
    rwa [recorded i a d held stored] at enough
  · intro fits a s' answered
    have result := table.get_result answered
    cases result with
    | @hit i a held named =>
        obtain ⟨d, stored, live⟩ := table.data held
        rw [touch_block, if_pos rfl]
        refine ⟨named, d, stored, live, ?_⟩
        change size ≤ s.heap.2 d
        rw [recorded i a d held stored]
        exact fits i a held named
    | @added room a d h h' absent made granted filled =>
        obtain ⟨k, added⟩ := added_of_kmalloc blockId (table.countMiss.room_empty made) granted filled
        rw [added.block_new]
        refine ⟨rfl, d, rfl, ?_, ?_⟩
        · have live := added.live
          change A.live _ = _ at live
          rw [live]
          exact Finset.mem_insert_self _ _
        · rw [addBlock_heap]
          change size ≤ h'.2 d
          rw [record_some filled, Function.update_self]

end Records

/-- A get of a run is answered by a large enough block exactly when no smaller block with the id is resident. -/
theorem get_largeEnough_iff {s₀ s : Manager (H × (Addr → Nat))} {ops : List Op} (blockId size : Nat)
    (run : Run (Step (sizedAllocator A)) (cacheInit s₀) ops s) : LargeEnough A s blockId size ↔
      ∀ i a, s.blocks i = some a → (s.block a).blockId = blockId → size ≤ (s.block a).size :=
  (run_recorded run).largeEnough_iff (run_table run)

/-- The sample manager with an empty record. -/
def sizedManager : Manager (Tape × (Addr → Nat)) :=
  ⟨fun _ => none, 0, 0, 0, 0, fun _ => ⟨0, none, 0, .clean, 0, 0, none, none⟩, ⟨∅, 0⟩, fun _ => 0⟩

/-- A get of the sample, replayed to its result. -/
theorem sized_get {s : Manager (Tape × (Addr → Nat))} (blockId size : Nat) :
    Step (sizedAllocator sampleAllocator) s
      (.get blockId size (cacheGetBlock (sizedAllocator sampleAllocator) s blockId size).1)
      (cacheGetBlock (sizedAllocator sampleAllocator) s blockId size).2 := .get rfl

/-- The sample asks for no more than the resident block holds. -/
theorem get_largeEnough_sample : ∃ s, Run (Step (sizedAllocator sampleAllocator)) (cacheInit sizedManager)
    [.get 7 4096 (some 1)] s ∧ LargeEnough sampleAllocator s 7 512 := by
  have run : Run (Step (sizedAllocator sampleAllocator)) (cacheInit sizedManager) [.get 7 4096 (some 1)] _ :=
    .snoc .nil (sized_get 7 4096)
  refine ⟨_, run, (get_largeEnough_iff 7 512 run).mpr ?_⟩
  intro i a held named
  have found := (run_table run).find_iff.mpr ⟨i, held, named⟩
  obtain rfl : 1 = a := Option.some.inj found
  decide

/-- A second get with a larger size is answered by the small block. -/
theorem larger_get_hits_small_block : ∃ s, Run (Step (sizedAllocator sampleAllocator)) (cacheInit sizedManager)
    [.get 7 512 (some 1)] s ∧ ¬ LargeEnough sampleAllocator s 7 4096 := by
  have run : Run (Step (sizedAllocator sampleAllocator)) (cacheInit sizedManager) [.get 7 512 (some 1)] _ :=
    .snoc .nil (sized_get 7 512)
  refine ⟨_, run, ?_⟩
  intro large
  obtain ⟨_, d, stored, _, enough⟩ := large 1 _ rfl
  obtain rfl : 2 = d := Option.some.inj stored
  exact absurd enough (by decide)

end OsKernel.Cache
