import OsKernel.Fs.Cache

/-
This file proves the invariants of the cache table over all runs.
-/

namespace OsKernel.Cache
open Library

variable {H : Type} {A : Allocator H} {s s' room : Manager H} {a b d : Addr} {i j blockId size : Nat}

/-- The resident blocks have different ids, and their objects and data are live and apart. -/
structure Table (A : Allocator H) (s : Manager H) : Prop where
  bounded : s.blockCount ≤ 256
  beyond : ∀ i, s.blockCount ≤ i → s.blocks i = none
  ids : ∀ {i j a b}, s.blocks i = some a → s.blocks j = some b →
    (s.block a).blockId = (s.block b).blockId → i = j
  live : ∀ {i a}, s.blocks i = some a → a ∈ A.live s.heap
  data : ∀ {i a}, s.blocks i = some a → ∃ d, (s.block a).data = some d ∧ d ∈ A.live s.heap
  apart : ∀ {i j a b d}, s.blocks i = some a → s.blocks j = some b → (s.block a).data = some d → d ≠ b
  buffers : ∀ {i j a b d}, s.blocks i = some a → s.blocks j = some b →
    (s.block a).data = some d → (s.block b).data = some d → i = j

/-- The resident blocks have different access times, none of them in the future. -/
structure Stamped (s : Manager H) : Prop where
  distinct : ∀ {i j a b}, s.blocks i = some a → s.blocks j = some b →
    (s.block a).lastAccess = (s.block b).lastAccess → i = j
  past : ∀ {i a}, s.blocks i = some a → (s.block a).lastAccess ≤ s.accessTime

/-- Two managers agree in everything but reference counts and status fields. -/
structure Alike (s s' : Manager H) : Prop where
  blocks : s'.blocks = s.blocks
  blockCount : s'.blockCount = s.blockCount
  hitCount : s'.hitCount = s.hitCount
  missCount : s'.missCount = s.missCount
  accessTime : s'.accessTime = s.accessTime
  heap : s'.heap = s.heap
  ids : ∀ a, (s'.block a).blockId = (s.block a).blockId
  data : ∀ a, (s'.block a).data = (s.block a).data
  sizes : ∀ a, (s'.block a).size = (s.block a).size
  stamps : ∀ a, (s'.block a).lastAccess = (s.block a).lastAccess

section Residents

/-- A resident slot is below the count. -/
theorem Table.index_lt (table : Table A s) (held : s.blocks i = some a) : i < s.blockCount := by
  by_contra above
  rw [table.beyond i (by omega)] at held
  cases held

/-- An object is in one slot only. -/
theorem Table.slot_unique (table : Table A s) (first : s.blocks i = some a) (second : s.blocks j = some a) : i = j :=
  table.ids first second rfl

/-- The search finds exactly the resident block with the id. -/
theorem Table.find_iff (table : Table A s) :
    findCacheBlock s blockId = some a ↔ ∃ i, s.blocks i = some a ∧ (s.block a).blockId = blockId := by
  constructor
  · intro found
    obtain ⟨i, searched, held⟩ := Option.bind_eq_some_iff.mp found
    have passed := (search_some searched).2.2.1
    rw [hasId, held] at passed
    exact ⟨i, held, of_decide_eq_true passed⟩
  · rintro ⟨i, held, named⟩
    have below := table.index_lt held
    cases searched : search (hasId s blockId) 0 s.blockCount with
    | none =>
        have failed := search_none searched (Nat.zero_le i) (by omega)
        rw [hasId, held] at failed
        simp [named] at failed
    | some j =>
        have passed := (search_some searched).2.2.1
        rw [hasId] at passed
        split at passed
        next => cases passed
        next b other =>
            have same : i = j := table.ids held other (named.trans (of_decide_eq_true passed).symm)
            rw [findCacheBlock, searched]
            rw [same] at held
            exact held

theorem Table.find_none (table : Table A s) (missed : findCacheBlock s blockId = none) (held : s.blocks i = some a) :
    (s.block a).blockId ≠ blockId := by
  intro named
  rw [table.find_iff.mpr ⟨i, held, named⟩] at missed
  cases missed

end Residents

section Frames

theorem Alike.refl (s : Manager H) : Alike s s :=
  ⟨rfl, rfl, rfl, rfl, rfl, rfl, fun _ => rfl, fun _ => rfl, fun _ => rfl, fun _ => rfl⟩

/-- A block object that keeps its id, data, size and time changes nothing else. -/
theorem alike_setBlock {b : CacheBlock} (ids : b.blockId = (s.block a).blockId) (data : b.data = (s.block a).data)
    (sizes : b.size = (s.block a).size) (stamps : b.lastAccess = (s.block a).lastAccess) :
    Alike s (setBlock s a b) := by
  have fields (x : Addr) : (setBlock s a b).block x = if x = a then b else s.block x :=
    Function.update_apply _ _ _ _
  refine ⟨rfl, rfl, rfl, rfl, rfl, rfl, ?_, ?_, ?_, ?_⟩
  all_goals
    intro x
    rw [fields]
    split
    next same => simp [same, ids, data, sizes, stamps]
    next => rfl

theorem alike_release (p : Option Addr) : Alike s (cacheReleaseBlock s p) := by
  unfold cacheReleaseBlock
  split
  · exact Alike.refl s
  · split
    · exact alike_setBlock rfl rfl rfl rfl
    · exact Alike.refl s

theorem alike_markDirty (p : Option Addr) : Alike s (cacheMarkDirty s p) := by
  unfold cacheMarkDirty
  split
  · exact Alike.refl s
  · exact alike_setBlock rfl rfl rfl rfl

theorem alike_syncBlock (p : Option Addr) : Alike s (cacheSyncBlock s p).2 := by
  unfold cacheSyncBlock
  split
  · exact Alike.refl s
  · split
    · exact Alike.refl s
    · exact alike_setBlock rfl rfl rfl rfl

/-- The table looks at slots, ids, data and live pointers only. -/
theorem Table.congr (table : Table A s) (blocks : s'.blocks = s.blocks) (count : s'.blockCount = s.blockCount)
    (live : A.live s'.heap = A.live s.heap)
    (fields : ∀ i a, s.blocks i = some a →
      (s'.block a).blockId = (s.block a).blockId ∧ (s'.block a).data = (s.block a).data) : Table A s' := by
  constructor
  · rw [count]
    exact table.bounded
  · rw [blocks, count]
    exact table.beyond
  · intro i j a b first second
    rw [blocks] at first second
    rw [(fields i a first).1, (fields j b second).1]
    exact table.ids first second
  · intro i a held
    rw [blocks] at held
    rw [live]
    exact table.live held
  · intro i a held
    rw [blocks] at held
    rw [live, (fields i a held).2]
    exact table.data held
  · intro i j a b d first second
    rw [blocks] at first second
    rw [(fields i a first).2]
    exact table.apart first second
  · intro i j a b d first second
    rw [blocks] at first second
    rw [(fields i a first).2, (fields j b second).2]
    exact table.buffers first second

theorem Table.alike (table : Table A s) (alike : Alike s s') : Table A s' :=
  table.congr alike.blocks alike.blockCount (congrArg A.live alike.heap) fun _ a _ => ⟨alike.ids a, alike.data a⟩

theorem Stamped.alike (stamped : Stamped s) (alike : Alike s s') : Stamped s' := by
  constructor
  · intro i j a b first second
    rw [alike.blocks] at first second
    rw [alike.stamps, alike.stamps]
    exact stamped.distinct first second
  · intro i a held
    rw [alike.blocks] at held
    rw [alike.stamps, alike.accessTime]
    exact stamped.past held

end Frames

section Get

/-- No resident block has the id. -/
def Absent (s : Manager H) (blockId : Nat) : Prop := ∀ i a, s.blocks i = some a → (s.block a).blockId ≠ blockId

/-- What a get can do: hit, find no block to evict, fail one of its allocations, or add a block. -/
inductive GetResult (A : Allocator H) (s : Manager H) (blockId size : Nat) : Option Addr → Manager H → Prop
  | hit {i : Nat} {a : Addr} (held : s.blocks i = some a) (named : (s.block a).blockId = blockId) :
      GetResult A s blockId size (some a) (touch s a)
  | refused (absent : Absent s blockId) (full : makeRoom A (countMiss s) = none) :
      GetResult A s blockId size none (countMiss s)
  | noBlock {room : Manager H} {h : H} (absent : Absent s blockId) (made : makeRoom A (countMiss s) = some room)
      (failed : A.kmalloc room.heap sizeofCacheBlock = (none, h)) :
      GetResult A s blockId size none { room with heap := h }
  | noData {room : Manager H} {a : Addr} {h h' : H} (absent : Absent s blockId)
      (made : makeRoom A (countMiss s) = some room)
      (granted : A.kmalloc room.heap sizeofCacheBlock = (some a, h)) (failed : A.kmalloc h size = (none, h')) :
      GetResult A s blockId size none
        { room with heap := A.kfree h' a, block := Function.update room.block a { room.block a with data := none } }
  | added {room : Manager H} {a d : Addr} {h h' : H} (absent : Absent s blockId)
      (made : makeRoom A (countMiss s) = some room)
      (granted : A.kmalloc room.heap sizeofCacheBlock = (some a, h)) (filled : A.kmalloc h size = (some d, h')) :
      GetResult A s blockId size (some a) (addBlock (initBlock { room with heap := h' } a d blockId size) a)

/-- A get does one of these. -/
theorem Table.get_result {r : Option Addr} (table : Table A s)
    (answered : cacheGetBlock A s blockId size = (r, s')) : GetResult A s blockId size r s' := by
  unfold cacheGetBlock at answered
  split at answered
  next a found =>
      obtain ⟨rfl, rfl⟩ := Prod.mk.inj answered
      obtain ⟨i, held, named⟩ := table.find_iff.mp found
      exact .hit held named
  next missed =>
      have absent : Absent s blockId := fun i a held => table.find_none missed held
      unfold allocateCacheBlock at answered
      split at answered
      next full =>
          obtain ⟨rfl, rfl⟩ := Prod.mk.inj answered
          exact .refused absent full
      next room made =>
          split at answered
          next h failed =>
              obtain ⟨rfl, rfl⟩ := Prod.mk.inj answered
              exact .noBlock absent made failed
          next a h granted =>
              split at answered
              next h' failed =>
                  obtain ⟨rfl, rfl⟩ := Prod.mk.inj answered
                  exact .noData absent made granted failed
              next d h' filled =>
                  obtain ⟨rfl, rfl⟩ := Prod.mk.inj answered
                  exact .added absent made granted filled

/-- Room is there already, or it is made by evicting the oldest unreferenced block. -/
theorem makeRoom_some (made : makeRoom A s = some room) :
    (s.blockCount < 256 ∧ room = s) ∨
    (256 ≤ s.blockCount ∧ ∃ i a, s.blocks i = some a ∧ (s.block a).referenceCount = 0 ∧ room = evict A s i a ∧
      ∀ j b, j < s.blockCount → s.blocks j = some b → (s.block b).referenceCount = 0 →
        (s.block a).lastAccess ≤ (s.block b).lastAccess) := by
  unfold makeRoom at made
  split at made
  next full =>
      right
      refine ⟨full, ?_⟩
      split at made
      next => cases made
      next i chosen =>
          rcases leastKey_spec (idleTime s) 0 s.blockCount 0xFFFFFFFFFFFFFFFF none with
            ⟨nothing, _⟩ | ⟨i', k, same, _, _, key, _, least⟩
          · rw [oldestIndex, nothing] at chosen
            cases chosen
          · rw [oldestIndex, same] at chosen
            obtain rfl := Option.some.inj chosen
            split at made
            next => cases made
            next a held =>
                obtain rfl := Option.some.inj made
                rw [idleTime, held] at key
                simp only [Option.ite_none_right_eq_some, Option.some.injEq] at key
                obtain ⟨idle, rfl⟩ := key
                refine ⟨i', a, held, idle, rfl, ?_⟩
                intro j b below other unused
                apply least j _ (Nat.zero_le j) (by omega)
                rw [idleTime, other]
                exact if_pos unused
  next room' =>
      obtain rfl := Option.some.inj made
      rw [maxCacheBlocks] at room'
      exact .inl ⟨by omega, rfl⟩

/-- There is nothing to evict when every block is referenced, or has the last possible time. -/
theorem makeRoom_none (refused : makeRoom A s = none) : 256 ≤ s.blockCount ∧
    ∀ i a, i < s.blockCount → s.blocks i = some a → (s.block a).referenceCount = 0 →
      2 ^ 64 - 1 ≤ (s.block a).lastAccess := by
  unfold makeRoom at refused
  split at refused
  next full =>
      refine ⟨full, ?_⟩
      rcases leastKey_spec (idleTime s) 0 s.blockCount 0xFFFFFFFFFFFFFFFF none with
        ⟨_, above⟩ | ⟨i', k, same, _, _, key, _⟩
      · intro i a below held unused
        apply above i _ (Nat.zero_le i) (by omega)
        rw [idleTime, held]
        exact if_pos unused
      · rw [oldestIndex, same] at refused
        simp only at refused
        split at refused
        next empty =>
            rw [idleTime, empty] at key
            cases key
        next => cases refused
  next => cases refused

end Get

section Changes

theorem Table.countMiss (table : Table A s) : Table A (Cache.countMiss s) :=
  table.congr rfl rfl rfl fun _ _ _ => ⟨rfl, rfl⟩

theorem Stamped.countMiss (stamped : Stamped s) : Stamped (Cache.countMiss s) :=
  ⟨stamped.distinct, stamped.past⟩

/-- A touched block keeps its id, data and size. -/
theorem touch_block (x : Addr) : (touch s a).block x = if x = a then
    { s.block a with lastAccess := tick s, referenceCount := ((s.block a).referenceCount + 1) % 2 ^ 32 }
    else s.block x := Function.update_apply _ _ _ _

theorem Table.touch (table : Table A s) : Table A (Cache.touch s a) := by
  refine table.congr rfl rfl rfl ?_
  intro i x _
  rw [touch_block]
  split
  next same =>
      rw [same]
      exact ⟨rfl, rfl⟩
  next => exact ⟨rfl, rfl⟩

theorem tick_eq (early : s.accessTime + 1 < 2 ^ 64) : tick s = s.accessTime + 1 := Nat.mod_eq_of_lt early

/-- Only the touched block has a new time. -/
theorem touch_lastAccess (early : s.accessTime + 1 < 2 ^ 64) (x : Addr) : ((Cache.touch s a).block x).lastAccess =
    if x = a then s.accessTime + 1 else (s.block x).lastAccess := by
  rw [touch_block]
  split
  next => exact tick_eq early
  next => rfl

/-- The renewed time is later than all others. -/
theorem Stamped.touch (stamped : Stamped s) (table : Table A s) (early : s.accessTime + 1 < 2 ^ 64) :
    Stamped (Cache.touch s a) := by
  have time : (Cache.touch s a).accessTime = s.accessTime + 1 := tick_eq early
  have stamp := touch_lastAccess (a := a) early
  constructor
  · intro j k x y first second same
    change s.blocks j = some x at first
    change s.blocks k = some y at second
    have past := stamped.past first
    have bound := stamped.past second
    rw [stamp, stamp] at same
    by_cases left : x = a
    · by_cases right : y = a
      · rw [left] at first
        rw [right] at second
        exact table.slot_unique first second
      · rw [if_pos left, if_neg right] at same
        omega
    · by_cases right : y = a
      · rw [if_neg left, if_pos right] at same
        omega
      · rw [if_neg left, if_neg right] at same
        exact stamped.distinct first second same
  · intro j x first
    change s.blocks j = some x at first
    have past := stamped.past first
    rw [stamp, time]
    split
    · exact Nat.le_refl _
    · omega

/-- The other slots stay. -/
theorem evict_blocks : (evict A s i a).blocks j = some b ↔ j ≠ i ∧ s.blocks j = some b := by
  change Function.update s.blocks i none j = some b ↔ _
  rw [Function.update_apply]
  split
  next same => simp [same]
  next other => simp [other]

/-- An eviction frees exactly the block and its data. -/
theorem Table.evict_live (table : Table A s) (held : s.blocks i = some a) (stored : (s.block a).data = some d) :
    A.live (evict A s i a).heap = ((A.live s.heap).erase d).erase a := by
  obtain ⟨d', same, inside⟩ := table.data held
  obtain rfl : d' = d := Option.some.inj (same.symm.trans stored)
  have different : d' ≠ a := table.apart held held stored
  have first : A.live (A.kfree s.heap d') = (A.live s.heap).erase d' := A.kfree_live inside
  change A.live (A.kfree (freePointer A s.heap (s.block a).data) a) = _
  rw [stored]
  change A.live (A.kfree (A.kfree s.heap d') a) = _
  rw [A.kfree_live, first]
  rw [first]
  exact Finset.mem_erase.mpr ⟨different.symm, table.live held⟩

theorem Table.evict (table : Table A s) (held : s.blocks i = some a) : Table A (Cache.evict A s i a) := by
  obtain ⟨d, stored, _⟩ := table.data held
  have live := table.evict_live held stored
  constructor
  · exact table.bounded
  · intro k above
    by_contra filled
    obtain ⟨x, other⟩ := Option.ne_none_iff_exists'.mp filled
    have resident := (evict_blocks.mp other).2
    rw [table.beyond k above] at resident
    cases resident
  · intro k l x y first second
    exact table.ids (evict_blocks.mp first).2 (evict_blocks.mp second).2
  · intro k x other
    obtain ⟨different, resident⟩ := evict_blocks.mp other
    rw [live]
    refine Finset.mem_erase.mpr ⟨?_, Finset.mem_erase.mpr ⟨?_, table.live resident⟩⟩
    · rintro rfl
      exact different (table.slot_unique resident held)
    · exact (table.apart held resident stored).symm
  · intro k x other
    obtain ⟨different, resident⟩ := evict_blocks.mp other
    obtain ⟨e, known, inside⟩ := table.data resident
    refine ⟨e, known, ?_⟩
    rw [live]
    refine Finset.mem_erase.mpr ⟨table.apart resident held known, Finset.mem_erase.mpr ⟨?_, inside⟩⟩
    rintro rfl
    exact different (table.buffers resident held known stored)
  · intro k l x y e first second
    exact table.apart (evict_blocks.mp first).2 (evict_blocks.mp second).2
  · intro k l x y e first second
    exact table.buffers (evict_blocks.mp first).2 (evict_blocks.mp second).2

theorem Stamped.evict (stamped : Stamped s) : Stamped (Cache.evict A s i a) := by
  constructor
  · intro k l x y first second
    exact stamped.distinct (evict_blocks.mp first).2 (evict_blocks.mp second).2
  · intro k x other
    exact stamped.past (evict_blocks.mp other).2

/-- A null slot below 256 receives the block. -/
theorem addBlock_eq (empty : ∃ i, i < 256 ∧ s.blocks i = none) :
    ∃ j, j < 256 ∧ s.blocks j = none ∧ (∀ k, k < j → s.blocks k ≠ none) ∧
      addBlock s a = { s with blocks := Function.update s.blocks j (some a),
                              blockCount := if j ≥ s.blockCount then j + 1 else s.blockCount } := by
  obtain ⟨i, below, null⟩ := empty
  unfold addBlock
  split
  next missed =>
      have filled := search_none missed (Nat.zero_le i) (by rw [maxCacheBlocks]; omega)
      rw [null] at filled
      cases filled
  next j found =>
      obtain ⟨_, upper, passed, before⟩ := search_some found
      rw [maxCacheBlocks] at upper
      refine ⟨j, by omega, Option.isNone_iff_eq_none.mp passed, ?_, rfl⟩
      intro k earlier null
      have filled := before k (Nat.zero_le k) earlier
      rw [null] at filled
      cases filled

/-- There is a null slot once room is made. -/
theorem Table.room_empty (table : Table A s) (made : makeRoom A s = some room) :
    ∃ i, i < 256 ∧ room.blocks i = none := by
  rcases makeRoom_some made with ⟨below, rfl⟩ | ⟨_, i, a, held, _, rfl, _⟩
  · exact ⟨room.blockCount, below, table.beyond _ (Nat.le_refl _)⟩
  · have index := table.index_lt held
    have bounded := table.bounded
    exact ⟨i, by omega, Function.update_self _ _ _⟩

theorem Table.makeRoom (table : Table A s) (made : Cache.makeRoom A s = some room) : Table A room := by
  rcases makeRoom_some made with ⟨_, rfl⟩ | ⟨_, i, a, held, _, rfl, _⟩
  · exact table
  · exact table.evict held

theorem Stamped.makeRoom (stamped : Stamped s) (made : Cache.makeRoom A s = some room) : Stamped room := by
  rcases makeRoom_some made with ⟨_, rfl⟩ | ⟨_, i, a, held, _, rfl, _⟩
  · exact stamped
  · exact stamped.evict

theorem makeRoom_absent (absent : Absent s blockId) (made : makeRoom A s = some room) : Absent room blockId := by
  rcases makeRoom_some made with ⟨_, rfl⟩ | ⟨_, i, a, held, _, rfl, _⟩
  · exact absent
  · intro j b other
    exact absent j b (evict_blocks.mp other).2

theorem makeRoom_accessTime (made : makeRoom A s = some room) : room.accessTime = s.accessTime := by
  rcases makeRoom_some made with ⟨_, rfl⟩ | ⟨_, i, a, held, _, rfl, _⟩
  · rfl
  · rfl

/-- A failed allocation of the block changes nothing in the table. -/
theorem Table.noBlock {h : H} (table : Table A s) (failed : A.kmalloc s.heap sizeofCacheBlock = (none, h)) :
    Table A { s with heap := h } :=
  table.congr rfl rfl (A.kmalloc_none failed) fun _ _ _ => ⟨rfl, rfl⟩

/-- An object that is not live is no resident block. -/
theorem Table.update_fresh {c : CacheBlock} (table : Table A s) (fresh : a ∉ A.live s.heap)
    (held : s.blocks i = some b) : Function.update s.block a c b = s.block b := by
  apply Function.update_of_ne
  rintro rfl
  exact fresh (table.live held)

/-- A failed allocation of the data gives the block back. -/
theorem Table.noData {h h' : H} {c : CacheBlock} (table : Table A s)
    (granted : A.kmalloc s.heap sizeofCacheBlock = (some a, h)) (failed : A.kmalloc h size = (none, h')) :
    Table A { s with heap := A.kfree h' a, block := Function.update s.block a c } := by
  obtain ⟨fresh, more⟩ := A.kmalloc_some granted
  have same : A.live h' = insert a (A.live s.heap) := (A.kmalloc_none failed).trans more
  have live : A.live (A.kfree h' a) = A.live s.heap := by
    rw [A.kfree_live (by rw [same]; exact Finset.mem_insert_self _ _), same, Finset.erase_insert fresh]
  refine table.congr rfl rfl live ?_
  intro i b held
  simp only [table.update_fresh fresh held, and_self]

/-- A new block with its data is added to a null slot. -/
structure Added (A : Allocator H) (room s' : Manager H) (a d : Addr) (j blockId size : Nat) : Prop where
  index : j < 256
  empty : room.blocks j = none
  first : ∀ k, k < j → room.blocks k ≠ none
  blocks : ∀ k, s'.blocks k = if k = j then some a else room.blocks k
  blockCount : s'.blockCount = if j ≥ room.blockCount then j + 1 else room.blockCount
  hitCount : s'.hitCount = room.hitCount
  missCount : s'.missCount = room.missCount
  accessTime : s'.accessTime = tick room
  block : ∀ x, s'.block x = if x = a then ⟨blockId, some d, size, .clean, 1, tick room, none, none⟩ else room.block x
  fresh : a ∉ A.live room.heap
  unused : d ∉ A.live room.heap
  different : d ≠ a
  live : A.live s'.heap = insert d (insert a (A.live room.heap))

/-- Two allocations that succeed add the block. -/
theorem added_of_kmalloc (blockId : Nat) {h h' : H} (empty : ∃ i, i < 256 ∧ room.blocks i = none)
    (granted : A.kmalloc room.heap sizeofCacheBlock = (some a, h)) (filled : A.kmalloc h size = (some d, h')) :
    ∃ j, Added A room (addBlock (initBlock { room with heap := h' } a d blockId size) a) a d j blockId size := by
  obtain ⟨fresh, more⟩ := A.kmalloc_some granted
  obtain ⟨unused, most⟩ := A.kmalloc_some filled
  rw [more, Finset.mem_insert, not_or] at unused
  obtain ⟨j, index, null, first, placed⟩ :=
    addBlock_eq (s := initBlock { room with heap := h' } a d blockId size) (a := a) empty
  rw [placed]
  refine ⟨j, index, null, first, ?_, rfl, rfl, rfl, rfl, ?_, fresh, unused.2, unused.1, ?_⟩
  · intro k
    exact Function.update_apply _ _ _ _
  · intro x
    exact Function.update_apply _ _ _ _
  · rw [← more]
    exact most

/-- A resident block is the new one or an old one. -/
theorem Added.cases (added : Added A room s' a d j blockId size) (held : s'.blocks i = some b) :
    (i = j ∧ b = a) ∨ (i ≠ j ∧ room.blocks i = some b) := by
  rw [added.blocks] at held
  split at held
  next same => exact .inl ⟨same, (Option.some.inj held).symm⟩
  next other => exact .inr ⟨other, held⟩

theorem Added.block_new (added : Added A room s' a d j blockId size) :
    s'.block a = ⟨blockId, some d, size, .clean, 1, tick room, none, none⟩ := by
  rw [added.block, if_pos rfl]

theorem Added.block_old (added : Added A room s' a d j blockId size) (table : Table A room)
    (held : room.blocks i = some b) : s'.block b = room.block b := by
  rw [added.block, if_neg]
  rintro rfl
  exact added.fresh (table.live held)

/-- A resident buffer is the new one or an old one, which is live. -/
theorem Added.data_cases {e : Addr} (added : Added A room s' a d j blockId size) (table : Table A room)
    (held : s'.blocks i = some b) (known : (s'.block b).data = some e) :
    (i = j ∧ b = a ∧ e = d) ∨
      (room.blocks i = some b ∧ (room.block b).data = some e ∧ e ∈ A.live room.heap) := by
  rcases added.cases held with ⟨rfl, rfl⟩ | ⟨_, old⟩
  · rw [added.block_new] at known
    exact .inl ⟨rfl, rfl, (Option.some.inj known).symm⟩
  · rw [added.block_old table old] at known
    obtain ⟨f, stored, inside⟩ := table.data old
    obtain rfl : f = e := Option.some.inj (stored.symm.trans known)
    exact .inr ⟨old, known, inside⟩

theorem Table.added (table : Table A room) (absent : Absent room blockId)
    (added : Added A room s' a d j blockId size) : Table A s' where
  bounded := by
    have index := added.index
    have bounded := table.bounded
    rw [added.blockCount]
    split
    · omega
    · exact bounded
  beyond := by
    intro i above
    rw [added.blockCount] at above
    rw [added.blocks, if_neg]
    · split at above
      · exact table.beyond i (by omega)
      · exact table.beyond i above
    · rintro rfl
      split at above
      · omega
      · omega
  ids := by
    intro i k x y first second same
    rcases added.cases first with ⟨rfl, rfl⟩ | ⟨_, left⟩
    · rcases added.cases second with ⟨rfl, rfl⟩ | ⟨_, right⟩
      · rfl
      · rw [added.block_new, added.block_old table right] at same
        exact absurd same.symm (absent k y right)
    · rcases added.cases second with ⟨rfl, rfl⟩ | ⟨_, right⟩
      · rw [added.block_new, added.block_old table left] at same
        exact absurd same (absent i x left)
      · rw [added.block_old table left, added.block_old table right] at same
        exact table.ids left right same
  live := by
    intro i x held
    rw [added.live, Finset.mem_insert, Finset.mem_insert]
    rcases added.cases held with ⟨_, rfl⟩ | ⟨_, old⟩
    · exact .inr (.inl rfl)
    · exact .inr (.inr (table.live old))
  data := by
    intro i x held
    rw [added.live]
    rcases added.cases held with ⟨_, rfl⟩ | ⟨_, old⟩
    · exact ⟨d, by rw [added.block_new], Finset.mem_insert_self _ _⟩
    · obtain ⟨e, known, inside⟩ := table.data old
      refine ⟨e, by rw [added.block_old table old, known], ?_⟩
      exact Finset.mem_insert_of_mem (Finset.mem_insert_of_mem inside)
  apart := by
    intro i k x y e first second known
    rcases added.data_cases table first known with ⟨_, _, rfl⟩ | ⟨left, stored, inside⟩
    · rcases added.cases second with ⟨_, rfl⟩ | ⟨_, right⟩
      · exact added.different
      · rintro rfl
        exact added.unused (table.live right)
    · rcases added.cases second with ⟨_, rfl⟩ | ⟨_, right⟩
      · rintro rfl
        exact added.fresh inside
      · exact table.apart left right stored
  buffers := by
    intro i k x y e first second known again
    rcases added.data_cases table first known with ⟨rfl, _, rfl⟩ | ⟨left, stored, inside⟩
    · rcases added.data_cases table second again with ⟨rfl, _, _⟩ | ⟨_, _, present⟩
      · rfl
      · exact absurd present added.unused
    · rcases added.data_cases table second again with ⟨_, _, rfl⟩ | ⟨right, kept, _⟩
      · exact absurd inside added.unused
      · exact table.buffers left right stored kept

/-- The new block has the latest time. -/
theorem Stamped.added (stamped : Stamped room) (table : Table A room) (early : room.accessTime + 1 < 2 ^ 64)
    (added : Added A room s' a d j blockId size) : Stamped s' := by
  have time : tick room = room.accessTime + 1 := tick_eq early
  have new : (s'.block a).lastAccess = room.accessTime + 1 := by
    rw [added.block_new]
    exact time
  have old {i : Nat} {b : Addr} (held : room.blocks i = some b) :
      (s'.block b).lastAccess = (room.block b).lastAccess ∧ (room.block b).lastAccess ≤ room.accessTime := by
    rw [added.block_old table held]
    exact ⟨rfl, stamped.past held⟩
  constructor
  · intro i k x y first second same
    rcases added.cases first with ⟨rfl, rfl⟩ | ⟨_, left⟩
    · rcases added.cases second with ⟨rfl, rfl⟩ | ⟨_, right⟩
      · rfl
      · have other := old right
        omega
    · rcases added.cases second with ⟨rfl, rfl⟩ | ⟨_, right⟩
      · have other := old left
        omega
      · rw [(old left).1, (old right).1] at same
        exact stamped.distinct left right same
  · intro i x held
    rw [added.accessTime, time]
    rcases added.cases held with ⟨_, rfl⟩ | ⟨_, before⟩
    · exact new.le
    · have other := old before
      omega

end Changes

section Steps

variable {op : Op}

/-- Every result of a get keeps the table. -/
theorem Table.get {r : Option Addr} (table : Table A s) (result : GetResult A s blockId size r s') : Table A s' := by
  cases result with
  | hit held named => exact table.touch
  | refused absent full => exact table.countMiss
  | noBlock absent made failed => exact (table.countMiss.makeRoom made).noBlock failed
  | noData absent made granted failed => exact (table.countMiss.makeRoom made).noData granted failed
  | added absent made granted filled =>
      have before := table.countMiss.makeRoom made
      obtain ⟨j, added⟩ := added_of_kmalloc blockId (table.countMiss.room_empty made) granted filled
      have missed : Absent (Cache.countMiss s) blockId := absent
      exact before.added (makeRoom_absent missed made) added

/-- Every result of a get keeps the times and advances the clock by one at most. -/
theorem Stamped.get {r : Option Addr} (stamped : Stamped s) (table : Table A s)
    (early : s.accessTime + 1 < 2 ^ 64) (result : GetResult A s blockId size r s') :
    Stamped s' ∧ s'.accessTime ≤ s.accessTime + 1 := by
  cases result with
  | hit held named => exact ⟨stamped.touch table early, (tick_eq early).le⟩
  | refused absent full => exact ⟨stamped.countMiss, Nat.le_succ _⟩
  | noBlock absent made failed =>
      have before := stamped.countMiss.makeRoom made
      exact ⟨⟨before.distinct, before.past⟩, (makeRoom_accessTime made).le.trans (Nat.le_succ _)⟩
  | @noData room a h h' absent made granted failed =>
      have before := stamped.countMiss.makeRoom made
      have tabled := table.countMiss.makeRoom made
      have fresh := (A.kmalloc_some granted).1
      refine ⟨⟨?_, ?_⟩, (makeRoom_accessTime made).le.trans (Nat.le_succ _)⟩
      · intro i j x y first second
        simp only [tabled.update_fresh fresh first, tabled.update_fresh fresh second]
        exact before.distinct first second
      · intro i x held
        simp only [tabled.update_fresh fresh held]
        exact before.past held
  | @added room a d h h' absent made granted filled =>
      have before := stamped.countMiss.makeRoom made
      have tabled := table.countMiss.makeRoom made
      have time : room.accessTime = (Cache.countMiss s).accessTime := makeRoom_accessTime made
      change room.accessTime = s.accessTime at time
      obtain ⟨j, added⟩ := added_of_kmalloc blockId (table.countMiss.room_empty made) granted filled
      rw [← time] at early ⊢
      refine ⟨before.added tabled early added, ?_⟩
      rw [added.accessTime, tick_eq early]

/-- Only status fields differ. -/
def withStatus (s : Manager H) (status : Addr → Status) : Manager H :=
  { s with block := fun a => { s.block a with status := status a } }

/-- A dirty block is cleaned. -/
theorem cacheSyncBlock_dirty (dirty : (s.block a).status = .dirty) :
    cacheSyncBlock s (some a) = (0, withStatus s (Function.update (fun x => (s.block x).status) a .clean)) := by
  have blocks : Function.update s.block a { s.block a with status := .clean } =
      fun x => { s.block x with status := Function.update (fun x => (s.block x).status) a .clean x } := by
    funext x
    by_cases same : x = a
    · rw [same, Function.update_self, Function.update_self]
    · rw [Function.update_of_ne same, Function.update_of_ne same]
  rw [cacheSyncBlock, if_neg (not_not.mpr dirty), setBlock, blocks]
  rfl

/-- The loop over the slots cleans every dirty block and changes nothing else. -/
theorem syncFrom_spec (s : Manager H) (i count : Nat) : ∃ status, syncFrom i count s = (0, withStatus s status) ∧
    (∀ j a, i ≤ j → j < i + count → s.blocks j = some a → status a = .clean) ∧
    (∀ a, (s.block a).status = .clean → status a = .clean) ∧
    ∀ a, (∀ j, s.blocks j ≠ some a) → status a = (s.block a).status := by
  induction count generalizing i s with
  | zero => exact ⟨fun a => (s.block a).status, rfl, fun j a lower upper => by omega, fun _ same => same, fun _ _ => rfl⟩
  | succ count ih =>
      -- The slot at hand is clean afterwards, and the others follow by induction.
      have extend {status : Addr → Status} (here : ∀ a, s.blocks i = some a → status a = .clean)
          (rest : ∀ j a, i + 1 ≤ j → j < i + 1 + count → s.blocks j = some a → status a = .clean) :
          ∀ j a, i ≤ j → j < i + (count + 1) → s.blocks j = some a → status a = .clean := by
        intro j a lower upper held
        by_cases same : j = i
        · exact here a (same ▸ held)
        · exact rest j a (by omega) (by omega) held
      rw [syncFrom]
      split
      next empty =>
          obtain ⟨status, ended, cleaned, kept, others⟩ := ih (i := i + 1) (s := s)
          refine ⟨status, ended, extend ?_ cleaned, kept, others⟩
          intro a held
          rw [empty] at held
          cases held
      next a held =>
          split
          next dirty =>
              rw [cacheSyncBlock_dirty dirty]
              obtain ⟨status, ended, cleaned, kept, others⟩ := ih (i := i + 1)
                (s := withStatus s (Function.update (fun x => (s.block x).status) a .clean))
              refine ⟨status, ended, extend ?_ cleaned, ?_, ?_⟩
              · intro b same
                obtain rfl : a = b := Option.some.inj (held.symm.trans same)
                apply kept a
                change Function.update (fun x => (s.block x).status) a .clean a = _
                exact Function.update_self _ _ _
              · intro b clean
                apply kept b
                change Function.update (fun x => (s.block x).status) a .clean b = _
                rw [Function.update_apply]
                split
                · rfl
                · exact clean
              · intro b absent
                rw [others b absent]
                apply Function.update_of_ne
                rintro rfl
                exact absent i held
          next clean =>
              obtain ⟨status, ended, cleaned, kept, others⟩ := ih (i := i + 1) (s := s)
              refine ⟨status, ended, extend ?_ cleaned, kept, others⟩
              intro b same
              obtain rfl : a = b := Option.some.inj (held.symm.trans same)
              apply kept
              cases state : (s.block a).status with
              | clean => rfl
              | dirty => exact absurd state clean

theorem alike_withStatus (status : Addr → Status) : Alike s (withStatus s status) :=
  ⟨rfl, rfl, rfl, rfl, rfl, rfl, fun _ => rfl, fun _ => rfl, fun _ => rfl, fun _ => rfl⟩

theorem alike_syncAll : Alike s (cacheSyncAll s).2 := by
  obtain ⟨status, ended, _⟩ := syncFrom_spec s 0 s.blockCount
  rw [cacheSyncAll, ended]
  exact alike_withStatus status

/-- Every step keeps the table. -/
theorem Table.step (table : Table A s) (taken : Step A s op s') : Table A s' := by
  cases taken with
  | get answered => exact table.get (table.get_result answered)
  | release resident => exact table.alike (alike_release _)
  | markDirty resident => exact table.alike (alike_markDirty _)
  | syncBlock resident => exact table.alike (alike_syncBlock _)
  | syncAll => exact table.alike alike_syncAll

/-- Every step keeps the times, and only a get advances the clock. -/
theorem Stamped.step (stamped : Stamped s) (table : Table A s) (early : s.accessTime + 1 < 2 ^ 64)
    (taken : Step A s op s') : Stamped s' ∧ s'.accessTime ≤ s.accessTime + [op].countP Op.isGet := by
  have still {s₁ : Manager H} (alike : Alike s s₁) (n : Nat) : Stamped s₁ ∧ s₁.accessTime ≤ s.accessTime + n :=
    ⟨stamped.alike alike, by rw [alike.accessTime]; omega⟩
  cases taken with
  | get answered => exact stamped.get table early (table.get_result answered)
  | release resident => exact still (alike_release _) _
  | markDirty resident => exact still (alike_markDirty _) _
  | syncBlock resident => exact still (alike_syncBlock _) _
  | syncAll => exact still alike_syncAll _

/-- A fresh cache meets the invariants. -/
theorem table_cacheInit (A : Allocator H) (s : Manager H) : Table A (cacheInit s) where
  bounded := Nat.zero_le _
  beyond := fun _ _ => rfl
  ids := fun first => nomatch first
  live := fun first => nomatch first
  data := fun first => nomatch first
  apart := fun first => nomatch first
  buffers := fun first => nomatch first

theorem stamped_cacheInit (s : Manager H) : Stamped (cacheInit s) :=
  ⟨(fun first => nomatch first), (fun first => nomatch first)⟩

end Steps

/-- The table is consistent, the search is complete, and a sync of all blocks cleans them. -/
structure TableSafe (s : Manager H) : Prop where
  bounded : s.blockCount ≤ 256
  beyond : ∀ i, s.blockCount ≤ i → s.blocks i = none
  ids : ∀ i j a b, s.blocks i = some a → s.blocks j = some b → i ≠ j →
    (s.block a).blockId ≠ (s.block b).blockId ∧ a ≠ b
  stamps : ∀ i j a b, s.blocks i = some a → s.blocks j = some b → i ≠ j →
    (s.block a).lastAccess ≠ (s.block b).lastAccess
  past : ∀ i a, s.blocks i = some a → (s.block a).lastAccess ≤ s.accessTime
  found : ∀ blockId a, findCacheBlock s blockId = some a ↔ ∃ i, s.blocks i = some a ∧ (s.block a).blockId = blockId
  missed : ∀ blockId, findCacheBlock s blockId = none ↔ ¬ ∃ i a, s.blocks i = some a ∧ (s.block a).blockId = blockId
  synced : ∃ status, cacheSyncAll s = (0, withStatus s status) ∧ (∀ i a, s.blocks i = some a → status a = .clean) ∧
    ∀ a, (∀ i, s.blocks i ≠ some a) → status a = (s.block a).status

/-- The two invariants give all parts. -/
theorem Table.safe (table : Table A s) (stamped : Stamped s) : TableSafe s where
  bounded := table.bounded
  beyond := table.beyond
  ids := by
    intro i j a b first second different
    refine ⟨fun same => different (table.ids first second same), ?_⟩
    rintro rfl
    exact different (table.slot_unique first second)
  stamps := fun i j a b first second different same => different (stamped.distinct first second same)
  past := fun i a held => stamped.past held
  found := fun blockId a => table.find_iff
  missed := by
    intro blockId
    rw [Option.eq_none_iff_forall_ne_some]
    constructor
    · rintro none ⟨i, a, held, named⟩
      exact none a (table.find_iff.mpr ⟨i, held, named⟩)
    · intro absent a found
      obtain ⟨i, held, named⟩ := table.find_iff.mp found
      exact absent ⟨i, a, held, named⟩
  synced := by
    obtain ⟨status, ended, cleaned, _, others⟩ := syncFrom_spec s 0 s.blockCount
    refine ⟨status, ended, ?_, others⟩
    intro i a held
    have below := table.index_lt held
    exact cleaned i a (Nat.zero_le i) (by omega) held

/-- Every run with few gets keeps the table and the times, and the clock counts no more than the gets. -/
theorem run_stamped {A : Allocator H} {s₀ s : Manager H} {ops : List Op}
    (run : Run (Step A) (cacheInit s₀) ops s) (few : ops.countP Op.isGet < 2 ^ 64 - 1) :
    Table A s ∧ Stamped s ∧ s.accessTime ≤ ops.countP Op.isGet := by
  revert few
  apply run.invariant fun ops s => ops.countP Op.isGet < 2 ^ 64 - 1 →
    Table A s ∧ Stamped s ∧ s.accessTime ≤ ops.countP Op.isGet
  · intro _
    exact ⟨table_cacheInit A s₀, stamped_cacheInit s₀, Nat.zero_le _⟩
  · intro earlier s₁ op s₂ _ known taken fewer
    rw [List.countP_append] at fewer ⊢
    obtain ⟨table, stamped, time⟩ := known (by omega)
    obtain ⟨later, clock⟩ := stamped.step table (by omega) taken
    exact ⟨table.step taken, later, by omega⟩

/-- In every run with fewer than 2^64 - 1 gets the table is safe. -/
theorem cache_run_table {A : Allocator H} {s₀ s : Manager H} {ops : List Op}
    (run : Run (Step A) (cacheInit s₀) ops s) (few : ops.countP Op.isGet < 2 ^ 64 - 1) : TableSafe s := by
  obtain ⟨table, stamped, _⟩ := run_stamped run few
  exact table.safe stamped

/-- The sample's allocator issues the addresses in turn, and its fourth answer is a failure. -/
def sampleAllocator : Allocator Tape := tapeAllocator fun n => if n = 3 then none else some (n + 1)

/-- A manager with any contents before `cache_init`. -/
def sampleManager : Manager Tape :=
  ⟨fun _ => none, 0, 0, 0, 0, fun _ => ⟨0, none, 0, .clean, 0, 0, none, none⟩, ⟨∅, 0⟩⟩

/-- A get of the sample, replayed to its result. -/
theorem sample_get {s : Manager Tape} (blockId size : Nat) :
    Step sampleAllocator s (.get blockId size (cacheGetBlock sampleAllocator s blockId size).1)
      (cacheGetBlock sampleAllocator s blockId size).2 := .get rfl

/-- The sample adds a block, fails to add another, and hits the first. -/
theorem cache_run_table_sample : ∃ s,
    Run (Step sampleAllocator) (cacheInit sampleManager)
      [.get 7 512 (some 1), .get 9 512 none, .get 7 512 (some 1), .syncAll] s ∧
    s.hitCount = 1 ∧ s.missCount = 2 ∧ TableSafe s := by
  have run : Run (Step sampleAllocator) (cacheInit sampleManager)
      [.get 7 512 (some 1), .get 9 512 none, .get 7 512 (some 1), .syncAll] _ :=
    .snoc (.snoc (.snoc (.snoc .nil (sample_get 7 512)) (sample_get 9 512)) (sample_get 7 512)) .syncAll
  exact ⟨_, run, rfl, rfl, cache_run_table run (by decide)⟩

end OsKernel.Cache
