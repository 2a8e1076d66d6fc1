import OsKernel.Library.Lru
import OsKernel.Fs.CachePins

/-
This file proves that the block cache is a least-recently-used cache of capacity 256.
-/

namespace OsKernel.Cache
open Library

variable {H : Type} {A : Allocator H} {s s' room : Manager H} {held : List Token} {order : List Addr} {a b d : Addr}
  {i j blockId size : Nat}

/-- The entry of a resident block. -/
def entryOf (s : Manager H) (a : Addr) : Entry Nat Addr := ⟨(s.block a).blockId, a, (s.block a).referenceCount⟩

/-- The list holds exactly the resident blocks, from the oldest get to the latest. -/
structure Ordered (s : Manager H) (order : List Addr) : Prop where
  members : ∀ a, a ∈ order ↔ ∃ i, s.blocks i = some a
  sorted : order.Pairwise fun a b => (s.block a).lastAccess < (s.block b).lastAccess

/-- The slots below the count are all in use, one for each listed block. -/
structure Dense (s : Manager H) (order : List Addr) : Prop where
  length : order.length = s.blockCount
  filled : ∀ i, i < s.blockCount → s.blocks i ≠ none

/-- The abstract cache lists the resident blocks with their counts and has the same counters. -/
def Follows (s : Manager H) (l : Lru Nat Addr) : Prop :=
  ∃ order, Ordered s order ∧ Dense s order ∧ l = ⟨order.map (entryOf s), s.hitCount, s.missCount⟩

section Order

theorem Ordered.nodup (ordered : Ordered s order) : order.Nodup := by
  apply ordered.sorted.imp
  rintro a b earlier rfl
  omega

/-- Resident blocks have different ids. -/
theorem Ordered.keysDistinct (ordered : Ordered s order) (table : Table A s) : KeysDistinct (entryOf s) order := by
  intro a first b second same
  obtain ⟨i, left⟩ := (ordered.members a).mp first
  obtain ⟨j, right⟩ := (ordered.members b).mp second
  obtain rfl : i = j := table.ids left right same
  exact Option.some.inj (left.symm.trans right)

theorem Ordered.absent (ordered : Ordered s order) (absent : Absent s blockId) :
    ∀ a ∈ order, (entryOf s a).key ≠ blockId := by
  intro a member
  obtain ⟨i, resident⟩ := (ordered.members a).mp member
  exact absent i a resident

/-- A removed block leaves the order of the others. -/
theorem Ordered.mem_erase (ordered : Ordered s order) : b ∈ order.erase a ↔ b ≠ a ∧ ∃ i, s.blocks i = some b := by
  rw [ordered.nodup.mem_erase_iff, ordered.members]

/-- A touched block moves to the end. -/
theorem Ordered.touch (ordered : Ordered s order) (stamped : Stamped s) (early : s.accessTime + 1 < 2 ^ 64)
    (resident : s.blocks i = some a) : Ordered (Cache.touch s a) (order.erase a ++ [a]) := by
  have stamp := touch_lastAccess (a := a) early
  constructor
  · intro x
    change _ ↔ ∃ j, s.blocks j = some x
    rw [List.mem_append, ordered.mem_erase, List.mem_singleton]
    by_cases same : x = a
    · rw [same]
      exact ⟨fun _ => ⟨i, resident⟩, fun _ => .inr rfl⟩
    · simp [same]
  · rw [List.pairwise_append]
    refine ⟨?_, List.pairwise_singleton _ _, ?_⟩
    · apply (ordered.sorted.sublist List.erase_sublist).imp_of_mem
      intro x y first second earlier
      rw [stamp, stamp, if_neg (ordered.mem_erase.mp first).1, if_neg (ordered.mem_erase.mp second).1]
      exact earlier
    · intro x first y last
      obtain ⟨other, k, known⟩ := ordered.mem_erase.mp first
      have past := stamped.past known
      rw [stamp, stamp, if_neg other, List.mem_singleton.mp last, if_pos rfl]
      omega

/-- An evicted block leaves the order. -/
theorem Ordered.evict (ordered : Ordered s order) (table : Table A s) (resident : s.blocks i = some a) :
    Ordered (Cache.evict A s i a) (order.erase a) := by
  constructor
  · intro x
    rw [ordered.mem_erase]
    constructor
    · rintro ⟨other, k, known⟩
      refine ⟨k, evict_blocks.mpr ⟨?_, known⟩⟩
      rintro rfl
      exact other (Option.some.inj (known.symm.trans resident))
    · rintro ⟨k, remains⟩
      obtain ⟨different, known⟩ := evict_blocks.mp remains
      refine ⟨?_, k, known⟩
      rintro rfl
      exact different (table.slot_unique known resident)
  · exact ordered.sorted.sublist List.erase_sublist

/-- A new block comes last. -/
theorem Ordered.added (ordered : Ordered room order) (stamped : Stamped room) (table : Table A room)
    (early : room.accessTime + 1 < 2 ^ 64) (added : Added A room s' a d j blockId size) :
    Ordered s' (order ++ [a]) := by
  have time : tick room = room.accessTime + 1 := tick_eq early
  have old {x : Addr} (member : x ∈ order) : (s'.block x).lastAccess = (room.block x).lastAccess := by
    obtain ⟨i, resident⟩ := (ordered.members x).mp member
    rw [added.block_old table resident]
  constructor
  · intro x
    rw [List.mem_append, ordered.members, List.mem_singleton]
    constructor
    · rintro (⟨k, known⟩ | rfl)
      · refine ⟨k, ?_⟩
        rw [added.blocks, if_neg]
        · exact known
        · rintro rfl
          rw [added.empty] at known
          cases known
      · exact ⟨j, by rw [added.blocks, if_pos rfl]⟩
    · rintro ⟨k, known⟩
      rcases added.cases known with ⟨_, rfl⟩ | ⟨_, before⟩
      · exact .inr rfl
      · exact .inl ⟨k, before⟩
  · rw [List.pairwise_append]
    refine ⟨?_, List.pairwise_singleton _ _, ?_⟩
    · apply ordered.sorted.imp_of_mem
      intro x y first second earlier
      rw [old first, old second]
      exact earlier
    · intro x first y last
      obtain ⟨k, known⟩ := (ordered.members x).mp first
      have past := stamped.past known
      rw [old first, List.mem_singleton.mp last, added.block_new]
      simp only [time]
      omega

end Order

section Entries

/-- The entries of the untouched blocks stay. -/
theorem entries_touch (ordered : Ordered s order) (small : (s.block a).referenceCount + 1 < 2 ^ 32) :
    (order.erase a ++ [a]).map (entryOf (touch s a)) =
      (order.erase a).map (entryOf s) ++ [{ entryOf s a with refs := (entryOf s a).refs + 1 }] := by
  rw [List.map_append]
  congr 1
  · apply List.map_congr_left
    intro x member
    rw [entryOf, touch_block, if_neg (ordered.mem_erase.mp member).1]
    rfl
  · simp only [List.map_cons, List.map_nil, entryOf, touch_block, if_true]
    rw [Nat.mod_eq_of_lt small]

/-- The entries of the old blocks stay, and the new block has one reference. -/
theorem entries_added (ordered : Ordered room order) (table : Table A room)
    (added : Added A room s' a d j blockId size) :
    (order ++ [a]).map (entryOf s') = order.map (entryOf room) ++ [⟨blockId, a, 1⟩] := by
  rw [List.map_append]
  congr 1
  · apply List.map_congr_left
    intro x member
    obtain ⟨i, resident⟩ := (ordered.members x).mp member
    rw [entryOf, added.block_old table resident]
    rfl
  · simp only [List.map_cons, List.map_nil, entryOf, added.block_new]

/-- Removing one block shortens the order by one. -/
theorem Ordered.length_erase (ordered : Ordered s order) (resident : s.blocks i = some a) :
    (order.erase a ++ [b]).length = order.length := by
  have member : a ∈ order := (ordered.members a).mpr ⟨i, resident⟩
  have positive := List.length_pos_of_mem member
  rw [List.length_append, List.length_erase_of_mem member, List.length_singleton]
  omega

/-- Without holes a new block extends the table by its next slot. -/
theorem Dense.added (dense : Dense room order) (table : Table A room)
    (added : Added A room s' a d j blockId size) : Dense s' (order ++ [a]) := by
  have lower : room.blockCount ≤ j := by
    by_contra inside
    exact dense.filled j (by omega) added.empty
  have upper : j ≤ room.blockCount := by
    by_contra beyond
    exact added.first room.blockCount (by omega) (table.beyond _ (Nat.le_refl _))
  have count : s'.blockCount = j + 1 := by
    rw [added.blockCount, if_pos lower]
  constructor
  · rw [List.length_append, List.length_singleton, dense.length, count]
    omega
  · intro k inside
    rw [added.blocks]
    split
    next => simp
    next other => exact dense.filled k (by omega)

/-- A new block takes the slot of the evicted one. -/
theorem Dense.evicted (dense : Dense s order) (ordered : Ordered s order) (full : 256 ≤ s.blockCount)
    (bounded : s.blockCount ≤ 256) (resident : s.blocks i = some a)
    (added : Added A (evict A s i a) s' b d j blockId size) : Dense s' (order.erase a ++ [b]) := by
  have index := added.index
  have filled (k : Nat) (inside : k < 256) (other : k ≠ i) : (evict A s i a).blocks k ≠ none := by
    obtain ⟨x, known⟩ := Option.ne_none_iff_exists'.mp (dense.filled k (by omega))
    rw [evict_blocks.mpr ⟨other, known⟩]
    exact Option.some_ne_none x
  have slot : j = i := by
    by_contra other
    exact filled j index other added.empty
  have count : s'.blockCount = s.blockCount := by
    rw [added.blockCount]
    change (if j ≥ s.blockCount then j + 1 else s.blockCount) = s.blockCount
    rw [if_neg (by omega)]
  constructor
  · rw [ordered.length_erase resident, dense.length, count]
  · intro k inside
    rw [added.blocks]
    split
    next => simp
    next other => exact filled k (by omega) (fun same => other (same.trans slot.symm))

end Entries

section Simulation

variable {l : Lru Nat Addr}

/-- The allocations that a get makes succeed. -/
def Served (A : Allocator H) (s : Manager H) (blockId size : Nat) : Prop :=
  findCacheBlock s blockId = none → ∀ room, makeRoom A (countMiss s) = some room →
    ∃ a h d h', A.kmalloc room.heap sizeofCacheBlock = (some a, h) ∧ A.kmalloc h size = (some d, h')

/-- A step of the clients in which every allocation succeeds. -/
def ServedStep (A : Allocator H) (c : Shared H) (op : Op) (c' : Shared H) : Prop :=
  PinStep A c op c' ∧ ∀ blockId size r, op = .get blockId size r → Served A c.cache blockId size

/-- The abstract cache answers a get with a hit, a fresh block or null, and only counts references otherwise. -/
inductive LruStep : Lru Nat Addr → Op → Lru Nat Addr → Prop
  | get {l l' : Lru Nat Addr} {blockId size : Nat} {fresh : Addr} {r : Option Addr}
      (answered : l.get 256 blockId fresh = (r, l')) : LruStep l (.get blockId size r) l'
  | release {l : Lru Nat Addr} {a : Addr} : LruStep l (.release (some a)) (l.release a)
  | releaseNull {l : Lru Nat Addr} : LruStep l (.release none) l
  | markDirty {l : Lru Nat Addr} {p : Option Addr} : LruStep l (.markDirty p) l
  | syncBlock {l : Lru Nat Addr} {p : Option Addr} : LruStep l (.syncBlock p) l
  | syncAll {l : Lru Nat Addr} : LruStep l .syncAll l

/-- A hit is a hit of the abstract cache on the same block. -/
theorem Follows.hit (follows : Follows s l) (table : Table A s) (stamped : Stamped s)
    (early : s.accessTime + 1 < 2 ^ 64) (hits : s.hitCount + 1 < 2 ^ 64)
    (small : (s.block a).referenceCount + 1 < 2 ^ 32) (resident : s.blocks i = some a) :
    ∃ l', l.get 256 (s.block a).blockId 0 = (some a, l') ∧ Follows (touch s a) l' := by
  obtain ⟨order, ordered, dense, rfl⟩ := follows
  have member : a ∈ order := (ordered.members a).mpr ⟨i, resident⟩
  refine ⟨_, Lru.get_hit (f := entryOf s) ordered.nodup (ordered.keysDistinct table) member, ?_⟩
  refine ⟨_, ordered.touch stamped early resident, ⟨?_, dense.filled⟩, ?_⟩
  · rw [ordered.length_erase resident]
    exact dense.length
  · rw [entries_touch ordered small]
    change _ = Lru.mk _ ((s.hitCount + 1) % 2 ^ 64) s.missCount
    rw [Nat.mod_eq_of_lt hits]

/-- A refusal is a refusal of the abstract cache. -/
theorem Follows.refused (follows : Follows s l) (table : Table A s) (stamped : Stamped s)
    (early : s.accessTime < 2 ^ 64 - 1) (misses : s.missCount + 1 < 2 ^ 64) (absent : Absent s blockId)
    (full : makeRoom A (countMiss s) = none) :
    ∃ l', l.get 256 blockId 0 = (none, l') ∧ Follows (countMiss s) l' := by
  obtain ⟨order, ordered, dense, rfl⟩ := follows
  obtain ⟨count, used⟩ := makeRoom_none full
  change 256 ≤ s.blockCount at count
  have referenced : ∀ x ∈ order, (entryOf s x).refs ≠ 0 := by
    intro x member idle
    obtain ⟨k, resident⟩ := (ordered.members x).mp member
    have late := used k x (table.index_lt resident) resident idle
    have past := stamped.past resident
    change 2 ^ 64 - 1 ≤ (s.block x).lastAccess at late
    omega
  refine ⟨_, Lru.get_refused (ordered.absent absent) (by rw [dense.length]; exact count) referenced, ?_⟩
  refine ⟨order, ⟨ordered.members, ordered.sorted⟩, ⟨dense.length, dense.filled⟩, ?_⟩
  change _ = Lru.mk _ s.hitCount ((s.missCount + 1) % 2 ^ 64)
  rw [Nat.mod_eq_of_lt misses]
  rfl

/-- A new block is the fresh value of the abstract cache, which evicts the same block. -/
theorem Follows.added (follows : Follows s l) (table : Table A s) (stamped : Stamped s)
    (early : s.accessTime + 1 < 2 ^ 64) (misses : s.missCount + 1 < 2 ^ 64) (absent : Absent s blockId)
    (made : makeRoom A (countMiss s) = some room) (added : Added A room s' a d j blockId size) :
    ∃ l', l.get 256 blockId a = (some a, l') ∧ Follows s' l' := by
  obtain ⟨order, ordered, dense, rfl⟩ := follows
  have missed : Ordered (countMiss s) order := ⟨ordered.members, ordered.sorted⟩
  have packed : Dense (countMiss s) order := ⟨dense.length, dense.filled⟩
  have counted : (countMiss s).missCount = s.missCount + 1 := Nat.mod_eq_of_lt misses
  have tabled := table.countMiss
  have stamped' := stamped.countMiss
  rcases makeRoom_some made with ⟨below, rfl⟩ | ⟨full, k, v, resident, idle, rfl, oldest⟩
  · have room : order.length < 256 := by
      rw [dense.length]
      exact below
    refine ⟨_, Lru.get_room (ordered.absent absent) room, ?_⟩
    refine ⟨_, missed.added stamped' tabled early added, packed.added tabled added, ?_⟩
    rw [entries_added missed tabled added, added.hitCount, added.missCount, counted]
    rfl
  · have member : v ∈ order := (ordered.members v).mpr ⟨k, resident⟩
    have least : ∀ x ∈ order, (entryOf s x).refs = 0 → (s.block v).lastAccess ≤ (s.block x).lastAccess := by
      intro x listed unused
      obtain ⟨n, known⟩ := (ordered.members x).mp listed
      exact oldest n x (table.index_lt known) known unused
    have evicted := missed.evict tabled resident
    refine ⟨_, Lru.get_evict (f := entryOf s) ordered.nodup (ordered.keysDistinct table) (ordered.absent absent)
      (by rw [dense.length]; exact full) ordered.sorted member idle least, ?_⟩
    refine ⟨_, evicted.added stamped'.evict (tabled.evict resident) early added,
      packed.evicted missed full tabled.bounded resident added, ?_⟩
    rw [entries_added evicted (tabled.evict resident) added, added.hitCount, added.missCount]
    change Lru.mk _ s.hitCount (s.missCount + 1) = Lru.mk _ s.hitCount (countMiss s).missCount
    rw [counted]
    rfl

/-- Every get with successful allocations is a get of the abstract cache with the same answer. -/
theorem Follows.get {r : Option Addr} (follows : Follows s l) (pinned : Pinned A s held) (stamped : Stamped s)
    (early : s.accessTime + 1 < 2 ^ 64 - 1) (hits : s.hitCount + 1 < 2 ^ 64) (misses : s.missCount + 1 < 2 ^ 64)
    (served : Served A s blockId size) (answered : cacheGetBlock A s blockId size = (r, s'))
    (few : ∀ a, outstanding (heldAfter held s' r) a < 2 ^ 32) :
    ∃ fresh l', l.get 256 blockId fresh = (r, l') ∧ Follows s' l' := by
  have table := pinned.table
  have unfound (absent : Absent s blockId) : findCacheBlock s blockId = none := by
    rw [Option.eq_none_iff_forall_ne_some]
    intro x found
    obtain ⟨k, resident, named⟩ := table.find_iff.mp found
    exact absent k x resident named
  cases table.get_result answered with
  | @hit k x resident named =>
      have bound := few x
      rw [outstanding_heldAfter, if_pos rfl, ← pinned.counts resident] at bound
      rw [← named]
      exact ⟨0, follows.hit table stamped (by omega) hits bound resident⟩
  | refused absent full => exact ⟨0, follows.refused table stamped (by omega) misses absent full⟩
  | noBlock absent made failed =>
      obtain ⟨x, h, d, h', granted, _⟩ := served (unfound absent) _ made
      rw [granted] at failed
      cases failed
  | noData absent made granted failed =>
      obtain ⟨x, h, d, h', again, filled⟩ := served (unfound absent) _ made
      obtain ⟨_, rfl⟩ := Prod.mk.inj (granted.symm.trans again)
      rw [filled] at failed
      cases failed
  | added absent made granted filled =>
      obtain ⟨j, added⟩ := added_of_kmalloc blockId (table.countMiss.room_empty made) granted filled
      exact ⟨_, follows.added table stamped (by omega) misses absent made added⟩

theorem Ordered.alike (ordered : Ordered s order) (alike : Alike s s') : Ordered s' order := by
  constructor
  · rw [alike.blocks]
    exact ordered.members
  · simp only [alike.stamps]
    exact ordered.sorted

theorem Dense.alike (dense : Dense s order) (alike : Alike s s') : Dense s' order := by
  constructor
  · rw [alike.blockCount]
    exact dense.length
  · rw [alike.blocks, alike.blockCount]
    exact dense.filled

/-- An operation that changes status fields only is none of the abstract cache. -/
theorem Follows.alike (follows : Follows s l) (alike : Alike s s')
    (counts : ∀ a, (s'.block a).referenceCount = (s.block a).referenceCount) : Follows s' l := by
  obtain ⟨order, ordered, dense, rfl⟩ := follows
  have entries : entryOf s' = entryOf s := by
    funext x
    rw [entryOf, alike.ids, counts]
    rfl
  refine ⟨order, ordered.alike alike, dense.alike alike, ?_⟩
  rw [entries, alike.hitCount, alike.missCount]

/-- A release is a release of the abstract cache. -/
theorem Follows.release (follows : Follows s l) : Follows (cacheReleaseBlock s (some a)) (l.release a) := by
  obtain ⟨order, ordered, dense, rfl⟩ := follows
  have alike : Alike s (cacheReleaseBlock s (some a)) := alike_release _
  have counts (x : Addr) : ((cacheReleaseBlock s (some a)).block x).referenceCount =
      if x = a then (s.block x).referenceCount - 1 else (s.block x).referenceCount := by
    rw [cacheReleaseBlock]
    by_cases positive : (s.block a).referenceCount > 0
    · rw [if_pos positive]
      change (Function.update s.block a _ x).referenceCount = _
      rw [Function.update_apply]
      split
      next same => rw [same]
      next => rfl
    · rw [if_neg positive]
      split
      next same =>
          rw [same]
          omega
      next => rfl
  refine ⟨order, ordered.alike alike, dense.alike alike, ?_⟩
  rw [Lru.release, List.map_map, alike.hitCount, alike.missCount]
  congr 1
  apply List.map_congr_left
  intro x _
  rw [entryOf, counts, alike.ids]
  change (if x = a then (⟨_, x, (s.block x).referenceCount - 1⟩ : Entry Nat Addr) else entryOf s x) = _
  by_cases same : x = a
  · rw [if_pos same, if_pos same]
    rfl
  · rw [if_neg same, if_neg same]
    rfl

/-- The counters of the abstract cache count the gets. -/
theorem get_counters {K V : Type} [DecidableEq K] {capacity : Nat} {l l' : Lru K V} {k : K} {fresh : V} {r : Option V}
    (answered : l.get capacity k fresh = (r, l')) : l'.hits + l'.misses = l.hits + l.misses + 1 := by
  unfold Lru.get at answered
  split at answered
  · obtain ⟨_, rfl⟩ := Prod.mk.inj answered
    exact Nat.add_right_comm _ _ _
  · split at answered
    · obtain ⟨_, rfl⟩ := Prod.mk.inj answered
      rfl
    · split at answered
      · obtain ⟨_, rfl⟩ := Prod.mk.inj answered
        rfl
      · obtain ⟨_, rfl⟩ := Prod.mk.inj answered
        rfl

/-- Every step with successful allocations is a step of the abstract cache. -/
theorem Follows.step {c c' : Shared H} {op : Op} (follows : Follows c.cache l) (pinned : Pinned A c.cache c.held)
    (stamped : Stamped c.cache) (early : c.cache.accessTime + [op].countP Op.isGet < 2 ^ 64 - 1)
    (gets : l.hits + l.misses + [op].countP Op.isGet < 2 ^ 64) (step : ServedStep A c op c') :
    ∃ l', LruStep l op l' ∧ Follows c'.cache l' ∧
      l'.hits + l'.misses = l.hits + l.misses + [op].countP Op.isGet := by
  obtain ⟨hits, misses⟩ : l.hits = c.cache.hitCount ∧ l.misses = c.cache.missCount := by
    obtain ⟨order, _, _, rfl⟩ := follows
    exact ⟨rfl, rfl⟩
  obtain ⟨taken, served⟩ := step
  cases taken with
  | get answered few =>
      change c.cache.accessTime + 1 < 2 ^ 64 - 1 at early
      change l.hits + l.misses + 1 < 2 ^ 64 at gets
      obtain ⟨fresh, l', same, later⟩ := follows.get pinned stamped early (by omega) (by omega)
        (served _ _ _ rfl) answered few
      exact ⟨l', .get same, later, get_counters same⟩
  | release member => exact ⟨_, .release, follows.release, rfl⟩
  | releaseNull => exact ⟨l, .releaseNull, follows, rfl⟩
  | markDirty resident => exact ⟨l, .markDirty, follows.alike (alike_markDirty _) (markDirty_counts _), rfl⟩
  | syncBlock resident => exact ⟨l, .syncBlock, follows.alike (alike_syncBlock _) (syncBlock_counts _), rfl⟩
  | syncAll => exact ⟨l, .syncAll, follows.alike alike_syncAll syncAll_counts, rfl⟩

/-- A held block is resident, so a step of the clients is a step of the cache. -/
theorem PinStep.cache_step {c c' : Shared H} {op : Op} (pinned : Pinned A c.cache c.held) (taken : PinStep A c op c') :
    Step A c.cache op c'.cache := by
  cases taken with
  | get answered few => exact .get answered
  | @release t member =>
      obtain ⟨i, _, resident, _⟩ := pinned.kept t member
      refine .release ?_
      intro a same
      obtain rfl := Option.some.inj same
      exact ⟨i, resident⟩
  | releaseNull => exact .release fun a none => nomatch none
  | markDirty resident => exact .markDirty resident
  | syncBlock resident => exact .syncBlock resident
  | syncAll => exact .syncAll

/-- A run of the clients is a run of the cache. -/
theorem run_cache {s₀ : Manager H} {c : Shared H} {ops : List Op}
    (run : Run (PinStep A) ⟨cacheInit s₀, []⟩ ops c) : Run (Step A) (cacheInit s₀) ops c.cache := by
  apply run.invariant (fun ops c => Run (Step A) (cacheInit s₀) ops c.cache) .nil
  intro _ _ _ _ earlier known taken
  exact known.snoc (taken.cache_step (run_pinned earlier))

/-- A fresh cache is empty. -/
theorem follows_cacheInit (s : Manager H) : Follows (cacheInit s) Lru.empty := by
  refine ⟨[], ⟨?_, List.Pairwise.nil⟩, ⟨rfl, ?_⟩, rfl⟩
  · intro a
    constructor
    · intro member
      cases member
    · rintro ⟨i, resident⟩
      cases resident
  · intro i inside
    exact absurd inside (Nat.not_lt_zero i)

end Simulation

/-- The residents, their counts and their recency are those of the abstract cache, and so are the counters. -/
structure CacheRefines (s : Manager H) (l : Lru Nat Addr) : Prop where
  residents : ∀ e, e ∈ l.entries ↔ ∃ i, s.blocks i = some e.value ∧ (s.block e.value).blockId = e.key ∧
    (s.block e.value).referenceCount = e.refs
  recency : l.entries.Pairwise fun e later => (s.block e.value).lastAccess < (s.block later.value).lastAccess
  capacity : l.entries.length ≤ 256
  hits : s.hitCount = l.hits
  misses : s.missCount = l.misses

theorem Follows.refines {l : Lru Nat Addr} (follows : Follows s l) (table : Table A s) : CacheRefines s l := by
  obtain ⟨order, ordered, dense, rfl⟩ := follows
  refine ⟨?_, ?_, ?_, rfl, rfl⟩
  · intro e
    rw [List.mem_map]
    constructor
    · rintro ⟨a, member, rfl⟩
      obtain ⟨i, resident⟩ := (ordered.members a).mp member
      exact ⟨i, resident, rfl, rfl⟩
    · rintro ⟨i, resident, named, counted⟩
      refine ⟨e.value, (ordered.members _).mpr ⟨i, resident⟩, ?_⟩
      rw [entryOf, named, counted]
  · rw [List.pairwise_map]
    exact ordered.sorted
  · rw [List.length_map, dense.length]
    exact table.bounded

/-- Every run with successful allocations is a run of the abstract cache with the same answers. -/
theorem cache_run_lru {A : Allocator H} {s₀ : Manager H} {c : Shared H} {ops : List Op}
    (run : Run (ServedStep A) ⟨cacheInit s₀, []⟩ ops c) (few : ops.countP Op.isGet < 2 ^ 64 - 1) :
    ∃ l, Run LruStep Lru.empty ops l ∧ CacheRefines c.cache l := by
  have clients {ops : List Op} {c : Shared H} (run : Run (ServedStep A) ⟨cacheInit s₀, []⟩ ops c) :
      Run (PinStep A) ⟨cacheInit s₀, []⟩ ops c := run.mono fun _ _ _ step => step.1
  have simulated : ops.countP Op.isGet < 2 ^ 64 - 1 → ∃ l, Run LruStep Lru.empty ops l ∧ Follows c.cache l ∧
      l.hits + l.misses = ops.countP Op.isGet := by
    apply run.invariant fun ops c => ops.countP Op.isGet < 2 ^ 64 - 1 → ∃ l, Run LruStep Lru.empty ops l ∧
      Follows c.cache l ∧ l.hits + l.misses = ops.countP Op.isGet
    · intro _
      exact ⟨Lru.empty, .nil, follows_cacheInit s₀, rfl⟩
    · intro earlier c₁ op c₂ before known step fewer
      rw [List.countP_append] at fewer ⊢
      obtain ⟨l, abstract, follows, counted⟩ := known (by omega)
      have pinned := run_pinned (clients before)
      obtain ⟨_, stamped, time⟩ := run_stamped (run_cache (clients before)) (by omega)
      obtain ⟨l', taken, later, total⟩ := follows.step pinned stamped (by omega) (by omega) step
      exact ⟨l', abstract.snoc taken, later, by omega⟩
  obtain ⟨l, abstract, follows, _⟩ := simulated few
  exact ⟨l, abstract, follows.refines (run_pinned (clients run)).table⟩

/-- The sample's allocator never fails. -/
def generousAllocator : Allocator Tape := tapeAllocator fun n => some (n + 1)

/-- The sample misses, hits, and releases one of its two references. -/
theorem cache_run_lru_sample : ∃ c,
    Run (ServedStep generousAllocator) ⟨cacheInit sampleManager, []⟩
      [.get 7 512 (some 1), .get 7 512 (some 1), .release (some 1)] c ∧
    ∃ l, Run LruStep Lru.empty [.get 7 512 (some 1), .get 7 512 (some 1), .release (some 1)] l ∧
      CacheRefines c.cache l := by
  have miss : ∀ blockId size r, Op.get 7 512 (some 1) = .get blockId size r →
      Served generousAllocator (cacheInit sampleManager) blockId size := by
    intro blockId size r same _ room made
    obtain rfl := Option.some.inj made
    exact ⟨1, _, 2, _, rfl, rfl⟩
  have run : Run (ServedStep generousAllocator) ⟨cacheInit sampleManager, []⟩
      [.get 7 512 (some 1), .get 7 512 (some 1), .release (some 1)] _ :=
    .snoc (.snoc (.snoc .nil ⟨pinStep_get _ 7 512 (by decide), miss⟩) ⟨pinStep_get _ 7 512 (by decide), by
      rintro blockId size r same missed
      obtain ⟨rfl, _, _⟩ := Op.get.inj same
      cases missed⟩)
      ⟨.release (t := ⟨1, some 0, 7, some 2, 512⟩) (by decide), fun _ _ _ same => nomatch same⟩
  exact ⟨_, run, cache_run_lru run (by decide)⟩

end OsKernel.Cache
