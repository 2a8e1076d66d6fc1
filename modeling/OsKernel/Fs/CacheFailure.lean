import OsKernel.Fs.CacheTable

/-
This file decides what a failing `cache_get_block` loses, and when the cache evicts or refuses.
The victim is freed before the new block is allocated, and `block_count` never decreases.
-/

namespace OsKernel.Cache
open Library

variable {H : Type} {A : Allocator H} {s s' room : Manager H} {a : Addr} {i blockId size : Nat} {r : Option Addr}

/-- The resident blocks and all counters but that of the misses are unchanged. -/
structure Undisturbed (A : Allocator H) (s s' : Manager H) : Prop where
  blocks : s'.blocks = s.blocks
  blockCount : s'.blockCount = s.blockCount
  hitCount : s'.hitCount = s.hitCount
  accessTime : s'.accessTime = s.accessTime
  objects : ∀ i a, s.blocks i = some a → s'.block a = s.block a
  live : ∀ i a, s.blocks i = some a → a ∈ A.live s'.heap ∧ ∀ d ∈ (s.block a).data, d ∈ A.live s'.heap

/-- A get that returns null leaves the cache undisturbed. -/
def LosesNothing (A : Allocator H) (s : Manager H) (blockId size : Nat) : Prop :=
  ∀ s', cacheGetBlock A s blockId size = (none, s') → Undisturbed A s s'

/-- Once the oldest unreferenced block is freed, both requests for the new block are served. -/
def Replaceable (A : Allocator H) (s : Manager H) (size : Nat) : Prop :=
  ∀ i a, oldestIndex s = some i → s.blocks i = some a →
    allocates A (evict A s i a).heap [sizeofCacheBlock, size] = true

/-- Some slot of the array is null. -/
def HasNull (s : Manager H) : Prop := ∃ i, i < 256 ∧ s.blocks i = none

/-- One of the requests that the get makes is refused. -/
def AllocationFails (A : Allocator H) (s : Manager H) (size : Nat) : Prop :=
  ∃ room, makeRoom A (countMiss s) = some room ∧ allocates A room.heap [sizeofCacheBlock, size] = false

/-- A get that misses evicts a block, or returns null without a failed request, only in a full cache. -/
structure EvictsOnlyFull (A : Allocator H) (s : Manager H) (blockId size : Nat) : Prop where
  spares : HasNull s → ∀ i a, s.blocks i = some a → (cacheGetBlock A s blockId size).2.blocks i = some a ∧
    (cacheGetBlock A s blockId size).2.block a = s.block a
  serves : HasNull s → ¬ AllocationFails A s size → (cacheGetBlock A s blockId size).1 ≠ none
  refuses : (cacheGetBlock A s blockId size).1 = none → ¬ AllocationFails A s size →
    ∀ i, i < 256 → ∃ a, s.blocks i = some a ∧ 0 < (s.block a).referenceCount

/-- The scan finds a block that it may evict. -/
def HasVictim (s : Manager H) : Prop :=
  ∃ i a, s.blocks i = some a ∧ (s.block a).referenceCount = 0 ∧ (s.block a).lastAccess < 2 ^ 64 - 1

/-- The count is below the capacity, or no slot is null and the scan finds a block or all are referenced. -/
def CountsSlots (s : Manager H) : Prop :=
  s.blockCount < 256 ∨
    ¬ HasNull s ∧ (HasVictim s ∨ ∀ i a, s.blocks i = some a → 0 < (s.block a).referenceCount)

section Room

/-- Room is there already, or it is made by evicting the block of the scan. -/
theorem makeRoom_chosen (made : makeRoom A s = some room) : (s.blockCount < 256 ∧ room = s) ∨
    (256 ≤ s.blockCount ∧ ∃ i a, oldestIndex s = some i ∧ s.blocks i = some a ∧ room = evict A s i a) := by
  unfold makeRoom at made
  split at made
  next full =>
      split at made
      next => cases made
      next i chosen =>
          split at made
          next => cases made
          next a held =>
              obtain rfl := Option.some.inj made
              exact .inr ⟨full, i, a, chosen, held, rfl⟩
  next below =>
      obtain rfl := Option.some.inj made
      rw [maxCacheBlocks] at below
      exact .inl ⟨by omega, rfl⟩

/-- The block of the scan is evicted from a full cache. -/
theorem makeRoom_evict (full : 256 ≤ s.blockCount) (chosen : oldestIndex s = some i) (held : s.blocks i = some a) :
    makeRoom A s = some (evict A s i a) := by
  have reached : s.blockCount ≥ maxCacheBlocks := full
  simp only [makeRoom, if_pos reached, chosen, held]

/-- A refused request is one of the two. -/
theorem allocates_noBlock {heap h : H} {size : Nat} (failed : A.kmalloc heap sizeofCacheBlock = (none, h)) :
    allocates A heap [sizeofCacheBlock, size] = false := by
  simp [allocates, failed]

theorem allocates_noData {heap h h' : H} {size : Nat} (granted : A.kmalloc heap sizeofCacheBlock = (some a, h))
    (failed : A.kmalloc h size = (none, h')) : allocates A heap [sizeofCacheBlock, size] = false := by
  simp [allocates, granted, failed]

theorem allocates_both {heap h h' : H} {size : Nat} {d : Addr}
    (granted : A.kmalloc heap sizeofCacheBlock = (some a, h)) (filled : A.kmalloc h size = (some d, h')) :
    allocates A heap [sizeofCacheBlock, size] = true := by
  simp [allocates, granted, filled]

end Room

section Losses

/-- A state with the old slots and objects is undisturbed when its table is in order. -/
theorem Table.undisturbed (table : Table A s') (blocks : s'.blocks = s.blocks)
    (blockCount : s'.blockCount = s.blockCount) (hitCount : s'.hitCount = s.hitCount)
    (accessTime : s'.accessTime = s.accessTime)
    (objects : ∀ i a, s.blocks i = some a → s'.block a = s.block a) : Undisturbed A s s' := by
  refine ⟨blocks, blockCount, hitCount, accessTime, objects, ?_⟩
  intro i a held
  have resident : s'.blocks i = some a := blocks ▸ held
  obtain ⟨d, stored, inside⟩ := table.data resident
  refine ⟨table.live resident, ?_⟩
  intro e known
  rw [← objects i a held, stored] at known
  exact Option.mem_some_iff.mp known ▸ inside

/-- A get that returns null missed. -/
theorem GetResult.absent_of_none (result : GetResult A s blockId size none s') : Absent s blockId := by
  cases result with
  | refused absent _ => exact absent
  | noBlock absent _ _ => exact absent
  | noData absent _ _ _ => exact absent

/-- A get that returns null without an eviction disturbs nothing. -/
theorem Table.undisturbed_get (table : Table A s) (result : GetResult A s blockId size none s')
    (kept : ∀ room : Manager H, Cache.makeRoom A (Cache.countMiss s) = some room →
      allocates A room.heap [sizeofCacheBlock, size] = false → room = Cache.countMiss s) : Undisturbed A s s' := by
  have later := table.get result
  cases result with
  | refused absent full => exact later.undisturbed rfl rfl rfl rfl fun _ _ _ => rfl
  | @noBlock room h absent made failed =>
      obtain rfl := kept room made (allocates_noBlock failed)
      exact later.undisturbed rfl rfl rfl rfl fun _ _ _ => rfl
  | @noData room b h h' absent made granted failed =>
      obtain rfl := kept room made (allocates_noData granted failed)
      have fresh := (A.kmalloc_some granted).1
      exact later.undisturbed rfl rfl rfl rfl fun i a held => table.countMiss.update_fresh fresh held

/-- A get that evicts and then fails loses the evicted block. -/
theorem Table.loses_victim (table : Table A s) (absent : Absent s blockId) (full : 256 ≤ s.blockCount)
    (chosen : oldestIndex s = some i) (held : s.blocks i = some a)
    (fails : allocates A (Cache.evict A s i a).heap [sizeofCacheBlock, size] = false) :
    ∃ s', cacheGetBlock A s blockId size = (none, s') ∧ s'.blocks = Function.update s.blocks i none ∧
      s'.blockCount = s.blockCount ∧ ∀ j b, s'.blocks j = some b → s'.block b = s.block b := by
  have evicted : Cache.makeRoom A (Cache.countMiss s) = some (Cache.evict A (Cache.countMiss s) i a) := makeRoom_evict full chosen held
  rcases answered : cacheGetBlock A s blockId size with ⟨r, s'⟩
  cases table.get_result answered with
  | hit resident named => exact absurd named (absent _ _ resident)
  | refused _ none =>
      rw [evicted] at none
      cases none
  | noBlock _ made failed =>
      obtain rfl := Option.some.inj (evicted.symm.trans made)
      exact ⟨_, rfl, rfl, rfl, fun _ _ _ => rfl⟩
  | noData _ made granted failed =>
      obtain rfl := Option.some.inj (evicted.symm.trans made)
      have fresh := (A.kmalloc_some granted).1
      exact ⟨_, rfl, rfl, rfl, fun j b resident => (table.countMiss.evict held).update_fresh fresh resident⟩
  | added _ made granted filled =>
      obtain rfl := Option.some.inj (evicted.symm.trans made)
      have served := allocates_both granted filled
      change allocates A (Cache.evict A s i a).heap _ = true at served
      rw [fails] at served
      cases served

/-- A failing get loses nothing exactly when it does not evict, or does not fail after it. -/
theorem Table.losesNothing_iff (table : Table A s) :
    LosesNothing A s blockId size ↔ ¬ Absent s blockId ∨ s.blockCount < 256 ∨ Replaceable A s size := by
  constructor
  · intro safe
    by_contra risky
    simp only [not_or, not_not, not_lt] at risky
    obtain ⟨absent, full, irreplaceable⟩ := risky
    simp only [Replaceable, not_forall, Bool.not_eq_true] at irreplaceable
    obtain ⟨i, a, chosen, held, fails⟩ := irreplaceable
    obtain ⟨s', answered, lost, _⟩ := table.loses_victim absent full chosen held fails
    have same := congrFun (safe s' answered).blocks i
    rw [lost, Function.update_self, held] at same
    cases same
  · intro condition s' answered
    have result := table.get_result answered
    apply table.undisturbed_get result
    intro room made fails
    rcases makeRoom_chosen made with ⟨_, same⟩ | ⟨full, i, a, chosen, held, rfl⟩
    · exact same
    · rcases condition with present | below | replaceable
      · exact absurd result.absent_of_none present
      · change 256 ≤ s.blockCount at full
        omega
      · have served := replaceable i a chosen held
        change allocates A (Cache.evict A s i a).heap _ = false at fails
        rw [fails] at served
        cases served

end Losses

section Fullness

/-- A get of an absent id counts a miss and allocates. -/
theorem Table.get_missed (table : Table A s) (absent : Absent s blockId) :
    cacheGetBlock A s blockId size = allocateCacheBlock A (Cache.countMiss s) blockId size := by
  have missed : findCacheBlock s blockId = none := by
    rw [Option.eq_none_iff_forall_ne_some]
    intro a found
    obtain ⟨i, held, named⟩ := table.find_iff.mp found
    exact absent i a held named
  simp only [cacheGetBlock, missed]

/-- A get that misses and finds no block to evict returns null at once. -/
theorem Table.get_refused (table : Table A s) (absent : Absent s blockId)
    (refused : Cache.makeRoom A (Cache.countMiss s) = none) :
    cacheGetBlock A s blockId size = (none, Cache.countMiss s) := by
  rw [table.get_missed absent]
  simp only [allocateCacheBlock, refused]

/-- A get that misses and is served adds the block. -/
theorem Table.get_served {h h' : H} {d : Addr} (table : Table A s) (absent : Absent s blockId)
    (made : Cache.makeRoom A (Cache.countMiss s) = some room)
    (granted : A.kmalloc room.heap sizeofCacheBlock = (some a, h)) (filled : A.kmalloc h size = (some d, h')) :
    cacheGetBlock A s blockId size = (some a, addBlock (initBlock { room with heap := h' } a d blockId size) a) := by
  rw [table.get_missed absent]
  simp only [allocateCacheBlock, made, granted, filled]

/-- A get that returns null without a failed request found no block to evict. -/
theorem Table.refused_of_none (table : Table A s) (null : (cacheGetBlock A s blockId size).1 = none)
    (served : ¬ AllocationFails A s size) : Cache.makeRoom A (Cache.countMiss s) = none := by
  rcases answered : cacheGetBlock A s blockId size with ⟨r, s'⟩
  rw [answered] at null
  obtain rfl : r = none := null
  cases table.get_result answered with
  | refused _ full => exact full
  | noBlock _ made failed => exact absurd ⟨_, made, allocates_noBlock failed⟩ served
  | noData _ made granted failed => exact absurd ⟨_, made, allocates_noData granted failed⟩ served

/-- No request is made when there is no block to evict. -/
theorem not_allocationFails (refused : makeRoom A (countMiss s) = none) : ¬ AllocationFails A s size := by
  rintro ⟨room, made, _⟩
  rw [refused] at made
  cases made

/-- A block that may be evicted is found by the scan. -/
theorem HasVictim.makeRoom_ne_none (table : Table A s) (victim : HasVictim s) :
    makeRoom A (countMiss s) ≠ none := by
  intro refused
  obtain ⟨i, a, held, idle, early⟩ := victim
  have late := (makeRoom_none refused).2 i a (table.index_lt held) held idle
  change 2 ^ 64 - 1 ≤ (s.block a).lastAccess at late
  omega

/-- A scan that finds a block finds one that may be evicted. -/
theorem makeRoom_victim (full : 256 ≤ s.blockCount) (found : makeRoom A (countMiss s) ≠ none) : HasVictim s := by
  obtain ⟨room, made⟩ := Option.ne_none_iff_exists'.mp found
  rcases makeRoom_chosen made with ⟨below, _⟩ | ⟨_, i, a, chosen, held, _⟩
  · change s.blockCount < 256 at below
    omega
  · rcases leastKey_spec (idleTime s) 0 s.blockCount 0xFFFFFFFFFFFFFFFF none with
      ⟨nothing, _⟩ | ⟨j, k, same, _, _, key, early, _⟩
    · exact absurd (nothing.symm.trans chosen) (by simp)
    · obtain rfl : j = i := Option.some.inj (same.symm.trans chosen)
      change s.blocks j = some a at held
      rw [idleTime, held] at key
      simp only [Option.ite_none_right_eq_some, Option.some.injEq] at key
      exact ⟨j, a, held, key.1, by omega⟩

/-- The slots below the capacity keep their blocks while the count is below it. -/
theorem Table.spares_below (table : Table A s) (absent : Absent s blockId) (below : s.blockCount < 256)
    (held : s.blocks i = some a) : (cacheGetBlock A s blockId size).2.blocks i = some a ∧
      (cacheGetBlock A s blockId size).2.block a = s.block a := by
  have kept {room : Manager H} (made : Cache.makeRoom A (Cache.countMiss s) = some room) :
      room = Cache.countMiss s := by
    rcases makeRoom_chosen made with ⟨_, same⟩ | ⟨full, _⟩
    · exact same
    · change 256 ≤ s.blockCount at full
      omega
  rcases answered : cacheGetBlock A s blockId size with ⟨r, s'⟩
  cases table.get_result answered with
  | hit resident named => exact absurd named (absent _ _ resident)
  | refused _ none => exact ⟨held, rfl⟩
  | noBlock _ made failed =>
      obtain rfl := kept made
      exact ⟨held, rfl⟩
  | noData _ made granted failed =>
      obtain rfl := kept made
      exact ⟨held, table.countMiss.update_fresh (A.kmalloc_some granted).1 held⟩
  | added _ made granted filled =>
      obtain ⟨j, added⟩ := added_of_kmalloc blockId (table.countMiss.room_empty made) granted filled
      obtain rfl := kept made
      refine ⟨?_, added.block_old table.countMiss held⟩
      rw [added.blocks, if_neg]
      · exact held
      · rintro rfl
        exact absurd (added.empty.symm.trans held) (by simp)

/-- A victim of the scan leaves the cache. -/
theorem Table.victim_leaves (size : Nat) (table : Table A s) (absent : Absent s blockId) (full : 256 ≤ s.blockCount)
    (found : Cache.makeRoom A (Cache.countMiss s) ≠ none) : ∃ i a, s.blocks i = some a ∧
      ¬ ((cacheGetBlock A s blockId size).2.blocks i = some a ∧
        (cacheGetBlock A s blockId size).2.block a = s.block a) := by
  obtain ⟨room, made⟩ := Option.ne_none_iff_exists'.mp found
  rcases makeRoom_chosen made with ⟨below, _⟩ | ⟨_, i, a, _, held, rfl⟩
  · change s.blockCount < 256 at below
    omega
  · refine ⟨i, a, held, ?_⟩
    rintro ⟨stays, object⟩
    rcases answered : cacheGetBlock A s blockId size with ⟨r, s'⟩
    rw [answered] at stays object
    have gone : (Cache.evict A (Cache.countMiss s) i a).blocks i = none := Function.update_self _ _ _
    cases table.get_result answered with
    | hit resident named => exact absurd named (absent _ _ resident)
    | refused _ none =>
        rw [made] at none
        cases none
    | noBlock _ again failed =>
        obtain rfl := Option.some.inj (made.symm.trans again)
        exact absurd (gone.symm.trans stays) (by simp)
    | noData _ again granted failed =>
        obtain rfl := Option.some.inj (made.symm.trans again)
        exact absurd (gone.symm.trans stays) (by simp)
    | added _ again granted filled =>
        obtain ⟨j, added⟩ := added_of_kmalloc blockId (table.countMiss.room_empty again) granted filled
        obtain rfl := Option.some.inj (made.symm.trans again)
        -- The allocator may issue the freed address again, but the new object has another id.
        rcases added.cases stays with ⟨_, rfl⟩ | ⟨_, old⟩
        · rw [added.block_new] at object
          exact absent i a held (congrArg CacheBlock.blockId object).symm
        · exact absurd (gone.symm.trans old) (by simp)

/-- The cache evicts and refuses only when it is full exactly when the count tells the null slots. -/
theorem Table.evictsOnlyFull_iff (table : Table A s) (absent : Absent s blockId) :
    EvictsOnlyFull A s blockId size ↔ CountsSlots s := by
  constructor
  · intro only
    by_cases below : s.blockCount < 256
    · exact .inl below
    · right
      have full : 256 ≤ s.blockCount := by omega
      refine ⟨?_, ?_⟩
      · intro null
        by_cases refused : Cache.makeRoom A (Cache.countMiss s) = none
        · apply only.serves null (not_allocationFails refused)
          rw [table.get_refused absent refused]
        · obtain ⟨i, a, held, gone⟩ := table.victim_leaves size absent full refused
          exact gone (only.spares null i a held)
      · by_cases refused : Cache.makeRoom A (Cache.countMiss s) = none
        · right
          intro i a held
          have index := table.index_lt held
          have bounded := table.bounded
          have null : (cacheGetBlock A s blockId size).1 = none := by rw [table.get_refused absent refused]
          obtain ⟨b, known, used⟩ := only.refuses null (not_allocationFails refused) i (by omega)
          obtain rfl := Option.some.inj (known.symm.trans held)
          exact used
        · left
          exact makeRoom_victim full refused
  · rintro (below | ⟨filled, rest⟩)
    · have room : Cache.makeRoom A (Cache.countMiss s) ≠ none := by
        intro refused
        have full := (makeRoom_none refused).1
        change 256 ≤ s.blockCount at full
        omega
      exact {
        spares := fun _ i a held => table.spares_below absent below held
        serves := fun _ served null => room (table.refused_of_none null served)
        refuses := fun null served => absurd (table.refused_of_none null served) room }
    · refine ⟨fun null => absurd null filled, fun null => absurd null filled, ?_⟩
      intro null served i index
      obtain ⟨a, held⟩ := Option.ne_none_iff_exists'.mp fun empty => filled ⟨i, index, empty⟩
      rcases rest with victim | used
      · exact absurd (table.refused_of_none null served) (victim.makeRoom_ne_none table)
      · exact ⟨a, held, used i a held⟩

end Fullness

/-- Every run keeps the table. -/
theorem run_table {s₀ : Manager H} {ops : List Op} (run : Run (Step A) (cacheInit s₀) ops s) : Table A s := by
  apply run.invariant fun _ s => Table A s
  · exact table_cacheInit A s₀
  · intro _ s₁ op s₂ _ table taken
    exact table.step taken

section Fill

/-- The allocator issues the addresses in turn, and fails once after 256 blocks with their data. -/
def failingAllocator : Allocator Tape := tapeAllocator fun n => if n = 512 then none else some (n + 1)

/-- The gets that fill the first slots. -/
def fillOps (n : Nat) : List Op := (List.range n).map fun i => .get i 512 (some (2 * i + 1))

/-- The first slots hold one referenced block each. -/
structure Filled (n : Nat) (s : Manager Tape) : Prop where
  blockCount : s.blockCount = n
  clock : s.heap.clock = 2 * n
  live : ∀ x : Nat, x ∈ s.heap.live → x ≤ 2 * n
  accessTime : s.accessTime = n
  slot : ∀ i, i < n → s.blocks i = some (2 * i + 1)
  object : ∀ i, i < n → (s.block (2 * i + 1)).blockId = i ∧ (s.block (2 * i + 1)).referenceCount = 1 ∧
    (s.block (2 * i + 1)).lastAccess = i + 1

theorem addBlock_heap (s : Manager H) (a : Addr) : (addBlock s a).heap = s.heap := by
  unfold addBlock
  split <;> rfl

theorem failing_serves {t : Tape} (size : Nat) (other : t.clock ≠ 512) (fresh : t.clock + 1 ∉ t.live) :
    failingAllocator.kmalloc t size = (some (t.clock + 1), ⟨insert (t.clock + 1) t.live, t.clock + 1⟩) := by
  simp [failingAllocator, tapeAllocator, Tape.kmalloc, other, fresh]

theorem failing_fails {t : Tape} (size : Nat) (last : t.clock = 512) :
    failingAllocator.kmalloc t size = (none, { t with clock := 513 }) := by
  simp [failingAllocator, tapeAllocator, Tape.kmalloc, last]

variable {s s' : Manager Tape} {n : Nat}

/-- The ids of a filled cache are below the number of its blocks. -/
theorem Filled.absent (filled : Filled n s) (table : Table failingAllocator s) {k : Nat} (above : n ≤ k) :
    Absent s k := by
  intro i a held named
  have index := table.index_lt held
  rw [filled.blockCount] at index
  obtain rfl := Option.some.inj ((filled.slot i index).symm.trans held)
  have known := (filled.object i index).1
  omega

/-- Both requests of the next get are granted. -/
theorem Filled.granted (filled : Filled n s) (below : n < 256) :
    failingAllocator.kmalloc s.heap sizeofCacheBlock =
        (some (2 * n + 1), ⟨insert (2 * n + 1) s.heap.live, 2 * n + 1⟩) ∧
      failingAllocator.kmalloc ⟨insert (2 * n + 1) s.heap.live, 2 * n + 1⟩ 512 =
        (some (2 * n + 1 + 1), ⟨insert (2 * n + 1 + 1) (insert (2 * n + 1) s.heap.live), 2 * n + 1 + 1⟩) := by
  have clock := filled.clock
  have unissued (k : Nat) (later : 2 * n < k) : k ∉ s.heap.live := by
    intro member
    have early := filled.live k member
    omega
  have first := failing_serves (t := s.heap) sizeofCacheBlock (by omega) (unissued _ (by omega))
  rw [clock] at first
  have second := failing_serves (t := ⟨insert (2 * n + 1) s.heap.live, 2 * n + 1⟩) 512
    (by simp only; omega) (by simp [unissued (2 * n + 1 + 1) (by omega)])
  exact ⟨first, second⟩

/-- The slot behind the filled ones is the first null slot. -/
theorem Filled.place {a d : Addr} {j : Nat} (filled : Filled n s) (table : Table failingAllocator s)
    (added : Added failingAllocator (countMiss s) s' a d j n 512) : j = n := by
  have empty : s.blocks j = none := added.empty
  have first : ∀ k, k < j → s.blocks k ≠ none := added.first
  by_contra other
  rcases Nat.lt_or_gt_of_ne other with before | behind
  · rw [filled.slot j before] at empty
    cases empty
  · exact first n behind (table.beyond n filled.blockCount.le)

/-- The time of the next access does not wrap. -/
theorem Filled.tick (filled : Filled n s) (below : n < 256) : Cache.tick (countMiss s) = n + 1 := by
  change (s.accessTime + 1) % 2 ^ 64 = _
  rw [filled.accessTime]
  omega

/-- A block added to the next slot keeps the earlier slots filled. -/
theorem Filled.added {d : Addr} (filled : Filled n s) (table : Table failingAllocator s) (below : n < 256)
    (heap : s'.heap = ⟨insert (2 * n + 1 + 1) (insert (2 * n + 1) s.heap.live), 2 * n + 1 + 1⟩)
    (added : Added failingAllocator (countMiss s) s' (2 * n + 1) d n n 512) : Filled (n + 1) s' := by
  constructor
  · have reached : n ≥ (countMiss s).blockCount := filled.blockCount.le
    rw [added.blockCount, if_pos reached]
  · rw [heap]
    change 2 * n + 1 + 1 = _
    omega
  · intro x member
    rw [heap] at member
    simp only [Finset.mem_insert] at member
    rcases member with rfl | rfl | old
    · omega
    · omega
    · have early := filled.live x old
      omega
  · rw [added.accessTime, filled.tick below]
  · intro i index
    rw [added.blocks]
    split
    next same => rw [same]
    next other => exact filled.slot i (by omega)
  · intro i index
    by_cases new : i = n
    · subst new
      rw [added.block_new]
      exact ⟨rfl, rfl, filled.tick below⟩
    · have old : s.blocks i = some (2 * i + 1) := filled.slot i (by omega)
      rw [added.block_old table.countMiss old]
      exact filled.object i (by omega)

/-- A get of a new id fills the next slot. -/
theorem Filled.get (filled : Filled n s) (table : Table failingAllocator s) (below : n < 256) :
    ∃ s', cacheGetBlock failingAllocator s n 512 = (some (2 * n + 1), s') ∧ Filled (n + 1) s' := by
  obtain ⟨first, second⟩ := filled.granted below
  have made : makeRoom failingAllocator (countMiss s) = some (countMiss s) := by
    have small : ¬ s.blockCount ≥ maxCacheBlocks := by
      rw [filled.blockCount, maxCacheBlocks]
      omega
    exact if_neg small
  obtain ⟨j, added⟩ := added_of_kmalloc n (table.countMiss.room_empty made) first second
  obtain rfl := filled.place table added
  have answered := table.get_served (filled.absent table (Nat.le_refl j)) made first second
  exact ⟨_, answered, filled.added table below (addBlock_heap _ _) added⟩

/-- The gets fill the cache. -/
theorem fill_run (n : Nat) (fits : n ≤ 256) : ∃ s,
    Run (Step failingAllocator) (cacheInit sampleManager) (fillOps n) s ∧ Filled n s := by
  induction n with
  | zero => exact ⟨_, .nil, rfl, rfl, by simp [cacheInit, sampleManager], rfl, by simp, by simp⟩
  | succ n ih =>
      obtain ⟨s, run, filled⟩ := ih (by omega)
      obtain ⟨s', answered, more⟩ := filled.get (run_table run) (by omega)
      refine ⟨s', ?_, more⟩
      rw [fillOps, List.range_succ, List.map_append]
      exact run.snoc (.get answered)

/-- A full cache whose first block was released, before the request that fails. -/
structure FirstIdle (s : Manager Tape) : Prop where
  blockCount : s.blockCount = 256
  clock : s.heap.clock = 512
  victim : HasVictim s
  absent : ∀ k, 256 ≤ k → Absent s k

/-- The filled cache reaches such a state by one release. -/
theorem firstIdle_run : ∃ s, Run (Step failingAllocator) (cacheInit sampleManager)
    (fillOps 256 ++ [.release (some 1)]) s ∧ FirstIdle s := by
  obtain ⟨s, run, filled⟩ := fill_run 256 (Nat.le_refl 256)
  have first : s.blocks 0 = some 1 := filled.slot 0 (by norm_num)
  obtain ⟨_, referenced, stamp⟩ := filled.object 0 (by norm_num)
  have resident : Resident s (some 1) := fun a same => ⟨0, Option.mem_some_iff.mp same ▸ first⟩
  have alike := alike_release (s := s) (some 1)
  refine ⟨_, run.snoc (.release resident), ?_, ?_, ?_, ?_⟩
  · rw [alike.blockCount, filled.blockCount]
  · rw [alike.heap, filled.clock]
  · refine ⟨0, 1, by rw [alike.blocks, first], ?_, ?_⟩
    · change (s.block 1).referenceCount = 1 at referenced
      simp [cacheReleaseBlock, referenced, setBlock]
    · rw [alike.stamps]
      change (s.block 1).lastAccess = 1 at stamp
      omega
  · intro k above i a held
    rw [alike.blocks] at held
    rw [alike.ids]
    exact filled.absent (run_table run) above i a held

/-- The next get of a new id evicts a block and fails. -/
theorem FirstIdle.fails (idle : FirstIdle s) (table : Table failingAllocator s) : ∃ i a,
    oldestIndex s = some i ∧ s.blocks i = some a ∧
      allocates failingAllocator (evict failingAllocator s i a).heap [sizeofCacheBlock, 512] = false := by
  obtain ⟨room, made⟩ := Option.ne_none_iff_exists'.mp (idle.victim.makeRoom_ne_none table)
  rcases makeRoom_chosen made with ⟨below, _⟩ | ⟨_, i, a, chosen, held, _⟩
  · change s.blockCount < 256 at below
    have full := idle.blockCount
    omega
  · have unchanged : (evict failingAllocator s i a).heap.clock = s.heap.clock := by
      change (freePointer failingAllocator s.heap (s.block a).data).clock = _
      cases (s.block a).data <;> rfl
    exact ⟨i, a, chosen, held, allocates_noBlock (failing_fails _ (unchanged.trans idle.clock))⟩

end Fill

/-- A failing get of a run loses nothing exactly when it does not evict, or does not fail after it. -/
theorem get_losesNothing_iff {s₀ s : Manager H} {ops : List Op} (blockId size : Nat)
    (run : Run (Step A) (cacheInit s₀) ops s) :
    LosesNothing A s blockId size ↔ ¬ Absent s blockId ∨ s.blockCount < 256 ∨ Replaceable A s size :=
  (run_table run).losesNothing_iff

/-- The sample's second get fails and keeps the first block. -/
theorem get_losesNothing_sample : ∃ s,
    Run (Step sampleAllocator) (cacheInit sampleManager) [.get 7 512 (some 1)] s ∧
      (cacheGetBlock sampleAllocator s 9 512).1 = none ∧ LosesNothing sampleAllocator s 9 512 := by
  have run : Run (Step sampleAllocator) (cacheInit sampleManager) [.get 7 512 (some 1)] _ :=
    .snoc .nil (sample_get 7 512)
  have below : (cacheGetBlock sampleAllocator (cacheInit sampleManager) 7 512).2.blockCount < 256 := by decide
  exact ⟨_, run, rfl, (get_losesNothing_iff 9 512 run).mpr (.inr (.inl below))⟩

/-- In a full cache the get evicts a block before it runs out of memory. -/
theorem failing_get_loses_block : ∃ s, Run (Step failingAllocator) (cacheInit sampleManager)
    (fillOps 256 ++ [.release (some 1)]) s ∧ ¬ LosesNothing failingAllocator s 999 512 := by
  obtain ⟨s, run, idle⟩ := firstIdle_run
  obtain ⟨i, a, chosen, held, fails⟩ := idle.fails (run_table run)
  refine ⟨s, run, ?_⟩
  rw [(run_table run).losesNothing_iff]
  rintro (present | below | replaceable)
  · exact present (idle.absent 999 (by norm_num))
  · have full := idle.blockCount
    omega
  · rw [replaceable i a chosen held] at fails
    cases fails

/-- A miss of a run evicts and refuses only in a full cache exactly when the count tells the null slots. -/
theorem get_evictsOnlyFull_iff {s₀ s : Manager H} {ops : List Op} (blockId size : Nat)
    (run : Run (Step A) (cacheInit s₀) ops s) (missed : Absent s blockId) :
    EvictsOnlyFull A s blockId size ↔ CountsSlots s :=
  (run_table run).evictsOnlyFull_iff missed

/-- The sample misses with one block resident. -/
theorem get_evictsOnlyFull_sample : ∃ s,
    Run (Step sampleAllocator) (cacheInit sampleManager) [.get 7 512 (some 1)] s ∧
      EvictsOnlyFull sampleAllocator s 9 512 := by
  have run : Run (Step sampleAllocator) (cacheInit sampleManager) [.get 7 512 (some 1)] _ :=
    .snoc .nil (sample_get 7 512)
  have below : (cacheGetBlock sampleAllocator (cacheInit sampleManager) 7 512).2.blockCount < 256 := by decide
  have missed : findCacheBlock (cacheGetBlock sampleAllocator (cacheInit sampleManager) 7 512).2 9 = none := by
    decide
  exact ⟨_, run, (get_evictsOnlyFull_iff 9 512 run fun _ _ held => (run_table run).find_none missed held).mpr
    (.inl below)⟩

/-- After an eviction without a new block the cache refuses a get although a slot is null. -/
theorem null_slot_refused : ∃ s, Run (Step failingAllocator) (cacheInit sampleManager)
    (fillOps 256 ++ [.release (some 1)] ++ [.get 999 512 none]) s ∧ Absent s 1000 ∧
      ¬ EvictsOnlyFull failingAllocator s 1000 512 := by
  obtain ⟨s, run, idle⟩ := firstIdle_run
  have table := run_table run
  obtain ⟨i, a, chosen, held, fails⟩ := idle.fails table
  have index := table.index_lt held
  obtain ⟨s', answered, slots, count, objects⟩ :=
    table.loses_victim (idle.absent 999 (by norm_num)) idle.blockCount.ge chosen held fails
  have later := run.snoc (.get answered)
  have absent : Absent s' 1000 := by
    intro j b resident
    rw [objects j b resident]
    rw [slots, Function.update_apply] at resident
    split at resident
    next => cases resident
    next => exact idle.absent 1000 (by norm_num) j b resident
  refine ⟨s', later, absent, ?_⟩
  rw [(run_table later).evictsOnlyFull_iff absent]
  rintro (below | ⟨filled, _⟩)
  · have full := idle.blockCount
    omega
  · have full := idle.blockCount
    exact filled ⟨i, by omega, by rw [slots, Function.update_self]⟩

end OsKernel.Cache
