import OsKernel.Fs.CacheTable

/-
This file proves that a block stays in the cache from every get to the matching release.
-/

namespace OsKernel.Cache
open Library

/-- A token records what a get returned: the block, its slot, and the fields that must not change. -/
structure Token where
  block : Addr
  slot : Option Nat
  blockId : Nat
  data : Option Addr
  size : Nat
  deriving DecidableEq

/-- The cache with the tokens of all gets that are not yet released. -/
structure Shared (H : Type) where
  cache : Manager H
  held : List Token

variable {H : Type} {A : Allocator H} {s s' room : Manager H} {held : List Token} {a b d : Addr}
  {i j blockId size : Nat}

/-- The slot of a block. -/
def slotOf (s : Manager H) (a : Addr) : Option Nat := search (fun i => s.blocks i = some a) 0 maxCacheBlocks

/-- The token of a block that was just returned. -/
def tokenOf (s : Manager H) (a : Addr) : Token :=
  ⟨a, slotOf s a, (s.block a).blockId, (s.block a).data, (s.block a).size⟩

/-- The number of outstanding gets of a block. -/
def outstanding (held : List Token) (a : Addr) : Nat := held.countP fun t => t.block = a

/-- The tokens after a get. -/
def heldAfter (held : List Token) (s : Manager H) (r : Option Addr) : List Token := held ++ r.toList.map (tokenOf s)

/-- Any number of clients get blocks and release what they hold, with fewer than 2^32 gets outstanding per block. -/
inductive PinStep (A : Allocator H) : Shared H → Op → Shared H → Prop
  | get {c : Shared H} {s' : Manager H} {blockId size : Nat} {r : Option Addr}
      (answered : cacheGetBlock A c.cache blockId size = (r, s'))
      (few : ∀ a, outstanding (heldAfter c.held s' r) a < 2 ^ 32) :
      PinStep A c (.get blockId size r) ⟨s', heldAfter c.held s' r⟩
  | release {c : Shared H} {t : Token} (member : t ∈ c.held) :
      PinStep A c (.release (some t.block)) ⟨cacheReleaseBlock c.cache (some t.block), c.held.erase t⟩
  | releaseNull {c : Shared H} : PinStep A c (.release none) ⟨cacheReleaseBlock c.cache none, c.held⟩
  | markDirty {c : Shared H} {p : Option Addr} (resident : Resident c.cache p) :
      PinStep A c (.markDirty p) ⟨cacheMarkDirty c.cache p, c.held⟩
  | syncBlock {c : Shared H} {p : Option Addr} (resident : Resident c.cache p) :
      PinStep A c (.syncBlock p) ⟨(cacheSyncBlock c.cache p).2, c.held⟩
  | syncAll {c : Shared H} : PinStep A c .syncAll ⟨(cacheSyncAll c.cache).2, c.held⟩

/-- A token still describes its block. -/
def Kept (s : Manager H) (t : Token) : Prop :=
  ∃ i, t.slot = some i ∧ s.blocks i = some t.block ∧ (s.block t.block).blockId = t.blockId ∧
    (s.block t.block).data = t.data ∧ (s.block t.block).size = t.size

/-- Reference counts are outstanding gets, and all tokens are kept. -/
structure Pinned (A : Allocator H) (s : Manager H) (held : List Token) : Prop where
  table : Table A s
  counts : ∀ {i a}, s.blocks i = some a → (s.block a).referenceCount = outstanding held a
  kept : ∀ t ∈ held, Kept s t

section Tokens

theorem outstanding_pos {t : Token} (member : t ∈ held) : 0 < outstanding held t.block :=
  List.countP_pos_iff.mpr ⟨t, member, by simp⟩

/-- A get that returns a block adds one to its outstanding gets. -/
theorem outstanding_heldAfter (x : Addr) :
    outstanding (heldAfter held s (some a)) x = outstanding held x + if a = x then 1 else 0 := by
  simp [outstanding, heldAfter, tokenOf, List.countP_append, List.countP_cons]

/-- A release removes one. -/
theorem outstanding_erase {t : Token} (member : t ∈ held) (x : Addr) :
    outstanding held x = outstanding (held.erase t) x + if t.block = x then 1 else 0 := by
  have order := (List.perm_cons_erase member).countP_eq fun t => decide (t.block = x)
  rw [outstanding, order, List.countP_cons, outstanding]
  simp

/-- The slot of a resident block is found. -/
theorem Table.slotOf_eq (table : Table A s) (resident : s.blocks i = some a) : slotOf s a = some i := by
  have below := table.index_lt resident
  have bounded := table.bounded
  unfold slotOf
  cases found : search (fun i => s.blocks i = some a) 0 maxCacheBlocks with
  | none =>
      have missed := search_none found (Nat.zero_le i) (by rw [maxCacheBlocks]; omega)
      simp [resident] at missed
  | some j =>
      have passed := of_decide_eq_true (search_some found).2.2.1
      rw [table.slot_unique resident passed]

/-- The token of a resident block describes it. -/
theorem Table.kept_tokenOf (table : Table A s) (resident : s.blocks i = some a) : Kept s (tokenOf s a) :=
  ⟨i, table.slotOf_eq resident, resident, rfl, rfl, rfl⟩

end Tokens

section Steps

/-- Pins look at slots, reference counts, ids, data and sizes of the residents only. -/
theorem Pinned.congr (pinned : Pinned A s held) (table : Table A s') (blocks : s'.blocks = s.blocks)
    (fields : ∀ i a, s.blocks i = some a → (s'.block a).referenceCount = (s.block a).referenceCount ∧
      (s'.block a).blockId = (s.block a).blockId ∧ (s'.block a).data = (s.block a).data ∧
      (s'.block a).size = (s.block a).size) : Pinned A s' held := by
  refine ⟨table, ?_, ?_⟩
  · intro i a resident
    rw [blocks] at resident
    rw [(fields i a resident).1]
    exact pinned.counts resident
  · intro t member
    obtain ⟨i, slot, resident, ids, data, sizes⟩ := pinned.kept t member
    obtain ⟨_, sameId, sameData, sameSize⟩ := fields i t.block resident
    refine ⟨i, slot, ?_, sameId.trans ids, sameData.trans data, sameSize.trans sizes⟩
    rw [blocks]
    exact resident

/-- An eviction spares every block with a token. -/
theorem Pinned.makeRoom (pinned : Pinned A s held) (made : Cache.makeRoom A s = some room) : Pinned A room held := by
  have table := pinned.table.makeRoom made
  rcases makeRoom_some made with ⟨_, rfl⟩ | ⟨_, i, a, resident, idle, rfl, _⟩
  · exact pinned
  · refine ⟨table, ?_, ?_⟩
    · intro j b other
      exact pinned.counts (evict_blocks.mp other).2
    · intro t member
      obtain ⟨j, slot, other, fields⟩ := pinned.kept t member
      refine ⟨j, slot, evict_blocks.mpr ⟨?_, other⟩, fields⟩
      rintro rfl
      -- The evicted block has no reference, but the token is one.
      obtain rfl : a = t.block := Option.some.inj (resident.symm.trans other)
      have counted := pinned.counts resident
      have positive := outstanding_pos member
      omega

theorem Pinned.countMiss (pinned : Pinned A s held) : Pinned A (Cache.countMiss s) held :=
  pinned.congr pinned.table.countMiss rfl fun _ _ _ => ⟨rfl, rfl, rfl, rfl⟩

/-- A hit adds one to the count of its block. -/
theorem Pinned.hit (pinned : Pinned A s held) (resident : s.blocks i = some a)
    (few : outstanding (heldAfter held (touch s a) (some a)) a < 2 ^ 32) :
    Pinned A (touch s a) (heldAfter held (touch s a) (some a)) := by
  have table : Table A (touch s a) := pinned.table.touch
  refine ⟨table, ?_, ?_⟩
  · intro j b other
    have counted := pinned.counts (i := j) (a := b) other
    rw [outstanding_heldAfter] at few ⊢
    rw [if_pos rfl] at few
    rw [touch_block]
    by_cases same : b = a
    · subst same
      rw [if_pos rfl, if_pos rfl, counted]
      exact Nat.mod_eq_of_lt few
    · rw [if_neg same, if_neg (Ne.symm same)]
      exact counted
  · intro t member
    rcases List.mem_append.mp member with earlier | new
    · obtain ⟨j, slot, other, ids, data, sizes⟩ := pinned.kept t earlier
      refine ⟨j, slot, other, ?_⟩
      rw [touch_block]
      split
      next same =>
          rw [same] at ids data sizes
          exact ⟨ids, data, sizes⟩
      next => exact ⟨ids, data, sizes⟩
    · obtain rfl : t = tokenOf (touch s a) a := by simpa using new
      exact table.kept_tokenOf resident

/-- A new block has one token. -/
theorem Pinned.added (pinned : Pinned A room held) (absent : Absent room blockId)
    (added : Added A room s' a d j blockId size) : Pinned A s' (heldAfter held s' (some a)) := by
  have table := pinned.table.added absent added
  have unknown : outstanding held a = 0 := by
    by_contra positive
    obtain ⟨t, member, named⟩ := List.countP_pos_iff.mp (Nat.pos_of_ne_zero positive)
    obtain ⟨i, _, resident, _⟩ := pinned.kept t member
    rw [of_decide_eq_true named] at resident
    exact added.fresh (pinned.table.live resident)
  refine ⟨table, ?_, ?_⟩
  · intro k b other
    rw [outstanding_heldAfter]
    rcases added.cases other with ⟨_, rfl⟩ | ⟨_, old⟩
    · rw [added.block_new, unknown, if_pos rfl]
    · have different : a ≠ b := by
        rintro rfl
        exact added.fresh (pinned.table.live old)
      rw [added.block_old pinned.table old, if_neg different]
      exact pinned.counts old
  · intro t member
    rcases List.mem_append.mp member with earlier | new
    · obtain ⟨i, slot, old, ids, data, sizes⟩ := pinned.kept t earlier
      have other : i ≠ j := by
        rintro rfl
        rw [added.empty] at old
        cases old
      refine ⟨i, slot, ?_, ?_⟩
      · rw [added.blocks, if_neg other]
        exact old
      · rw [added.block_old pinned.table old]
        exact ⟨ids, data, sizes⟩
    · obtain rfl : t = tokenOf s' a := by simpa using new
      have resident : s'.blocks j = some a := by rw [added.blocks, if_pos rfl]
      exact table.kept_tokenOf resident

/-- Every result of a get keeps the pins. -/
theorem Pinned.get {r : Option Addr} (pinned : Pinned A s held) (result : GetResult A s blockId size r s')
    (few : ∀ a, outstanding (heldAfter held s' r) a < 2 ^ 32) : Pinned A s' (heldAfter held s' r) := by
  have unchanged {s₁ : Manager H} (same : Pinned A s₁ held) : Pinned A s₁ (heldAfter held s₁ none) := by
    simpa [heldAfter] using same
  have table := pinned.table.get result
  cases result with
  | hit resident named => exact pinned.hit resident (few _)
  | refused absent full => exact unchanged pinned.countMiss
  | noBlock absent made failed =>
      exact unchanged ((pinned.countMiss.makeRoom made).congr table rfl fun _ _ _ => ⟨rfl, rfl, rfl, rfl⟩)
  | noData absent made granted failed =>
      have before := pinned.countMiss.makeRoom made
      apply unchanged
      refine before.congr table rfl ?_
      intro i b resident
      simp only [before.table.update_fresh (A.kmalloc_some granted).1 resident, and_self]
  | added absent made granted filled =>
      have before := pinned.countMiss.makeRoom made
      have missed : Absent (Cache.countMiss s) blockId := absent
      obtain ⟨j, added⟩ :=
        added_of_kmalloc blockId (pinned.table.countMiss.room_empty made) granted filled
      exact before.added (makeRoom_absent missed made) added

/-- A release subtracts one from the count of its block. -/
theorem Pinned.release {t : Token} (pinned : Pinned A s held) (member : t ∈ held) :
    Pinned A (cacheReleaseBlock s (some t.block)) (held.erase t) := by
  have table : Table A (cacheReleaseBlock s (some t.block)) := pinned.table.alike (alike_release _)
  have positive : (s.block t.block).referenceCount > 0 := by
    obtain ⟨i, _, resident, _⟩ := pinned.kept t member
    rw [pinned.counts resident]
    exact outstanding_pos member
  have alike : Alike s (cacheReleaseBlock s (some t.block)) := alike_release _
  refine ⟨table, ?_, ?_⟩
  · intro i b resident
    rw [alike.blocks] at resident
    have counted := pinned.counts resident
    have fewer := outstanding_erase member b
    rw [cacheReleaseBlock, if_pos positive]
    change (Function.update s.block t.block _ b).referenceCount = _
    rw [Function.update_apply]
    by_cases same : b = t.block
    · rw [if_pos same]
      rw [if_pos same.symm] at fewer
      rw [← same]
      change (s.block b).referenceCount - 1 = _
      omega
    · rw [if_neg same]
      rw [if_neg (Ne.symm same)] at fewer
      omega
  · intro u remaining
    obtain ⟨i, slot, resident, ids, data, sizes⟩ := pinned.kept u (List.mem_of_mem_erase remaining)
    refine ⟨i, slot, ?_, (alike.ids _).trans ids, (alike.data _).trans data, (alike.sizes _).trans sizes⟩
    rw [alike.blocks]
    exact resident

/-- Operations that keep all reference counts keep the pins. -/
theorem Pinned.alike (pinned : Pinned A s held) (alike : Alike s s')
    (counts : ∀ a, (s'.block a).referenceCount = (s.block a).referenceCount) : Pinned A s' held :=
  pinned.congr (pinned.table.alike alike) alike.blocks fun _ a _ =>
    ⟨counts a, alike.ids a, alike.data a, alike.sizes a⟩

theorem markDirty_counts (p : Option Addr) (a : Addr) :
    ((cacheMarkDirty s p).block a).referenceCount = (s.block a).referenceCount := by
  cases p with
  | none => rfl
  | some b =>
      change (Function.update s.block b { s.block b with status := .dirty } a).referenceCount = _
      rw [Function.update_apply]
      split
      next same => rw [same]
      next => rfl

theorem syncBlock_counts (p : Option Addr) (a : Addr) :
    ((cacheSyncBlock s p).2.block a).referenceCount = (s.block a).referenceCount := by
  cases p with
  | none => rfl
  | some b =>
      by_cases dirty : (s.block b).status = .dirty
      · rw [cacheSyncBlock_dirty dirty]
        rfl
      · rw [cacheSyncBlock, if_pos dirty]

theorem syncAll_counts (a : Addr) : ((cacheSyncAll s).2.block a).referenceCount = (s.block a).referenceCount := by
  obtain ⟨status, ended, _⟩ := syncFrom_spec s 0 s.blockCount
  rw [cacheSyncAll, ended]
  rfl

/-- Every step keeps the pins. -/
theorem Pinned.step {c c' : Shared H} {op : Op} (pinned : Pinned A c.cache c.held) (step : PinStep A c op c') :
    Pinned A c'.cache c'.held := by
  cases step with
  | get answered few => exact pinned.get (pinned.table.get_result answered) few
  | release member => exact pinned.release member
  | releaseNull => exact pinned
  | markDirty resident => exact pinned.alike (alike_markDirty _) (markDirty_counts _)
  | syncBlock resident => exact pinned.alike (alike_syncBlock _) (syncBlock_counts _)
  | syncAll => exact pinned.alike alike_syncAll syncAll_counts

theorem pinned_cacheInit (A : Allocator H) (s : Manager H) : Pinned A (cacheInit s) [] :=
  ⟨table_cacheInit A s, (fun first => nomatch first), (fun _ member => nomatch member)⟩

/-- Every run keeps the pins. -/
theorem run_pinned {s₀ : Manager H} {c : Shared H} {ops : List Op}
    (run : Run (PinStep A) ⟨cacheInit s₀, []⟩ ops c) : Pinned A c.cache c.held := by
  apply run.invariant (fun _ c => Pinned A c.cache c.held) (pinned_cacheInit A s₀)
  intro _ _ _ _ _ pinned step
  exact pinned.step step

end Steps

/-- Counts are outstanding gets, and a held block stays as it was returned and is live. -/
structure PinSafe (A : Allocator H) (c : Shared H) : Prop where
  counts : ∀ i a, c.cache.blocks i = some a → (c.cache.block a).referenceCount = outstanding c.held a
  kept : ∀ t ∈ c.held, Kept c.cache t
  live : ∀ t ∈ c.held, t.block ∈ A.live c.cache.heap ∧ ∃ d, t.data = some d ∧ d ∈ A.live c.cache.heap

/-- In every run of the clients the held blocks are pinned. -/
theorem cache_run_pinned {A : Allocator H} {s₀ : Manager H} {c : Shared H} {ops : List Op}
    (run : Run (PinStep A) ⟨cacheInit s₀, []⟩ ops c) : PinSafe A c := by
  have pinned := run_pinned run
  refine ⟨fun i a resident => pinned.counts resident, pinned.kept, ?_⟩
  intro t member
  obtain ⟨i, _, resident, _, data, _⟩ := pinned.kept t member
  obtain ⟨d, stored, inside⟩ := pinned.table.data resident
  exact ⟨pinned.table.live resident, d, data.symm.trans stored, inside⟩

/-- A get is a step while few tokens are held. -/
theorem pinStep_get {c : Shared H} (A : Allocator H) (blockId size : Nat) (short : c.held.length + 1 < 2 ^ 32) :
    PinStep A c (.get blockId size (cacheGetBlock A c.cache blockId size).1)
      ⟨(cacheGetBlock A c.cache blockId size).2,
        heldAfter c.held (cacheGetBlock A c.cache blockId size).2 (cacheGetBlock A c.cache blockId size).1⟩ := by
  refine .get rfl ?_
  intro a
  have limit : outstanding (heldAfter c.held (cacheGetBlock A c.cache blockId size).2
      (cacheGetBlock A c.cache blockId size).1) a ≤ _ := List.countP_le_length
  have one : (cacheGetBlock A c.cache blockId size).1.toList.length ≤ 1 := by
    cases (cacheGetBlock A c.cache blockId size).1 <;> simp
  rw [heldAfter, List.length_append, List.length_map] at limit
  rw [heldAfter]
  omega

/-- The sample holds a block twice, fails a get, and releases the block once. -/
theorem cache_run_pinned_sample : ∃ c,
    Run (PinStep sampleAllocator) ⟨cacheInit sampleManager, []⟩
      [.get 7 512 (some 1), .get 9 512 none, .get 7 512 (some 1), .release (some 1)] c ∧
    c.held = [⟨1, some 0, 7, some 2, 512⟩] ∧ (c.cache.block 1).referenceCount = 1 ∧ PinSafe sampleAllocator c := by
  have run : Run (PinStep sampleAllocator) ⟨cacheInit sampleManager, []⟩
      [.get 7 512 (some 1), .get 9 512 none, .get 7 512 (some 1), .release (some 1)] _ :=
    .snoc (.snoc (.snoc (.snoc .nil (pinStep_get _ 7 512 (by decide))) (pinStep_get _ 9 512 (by decide)))
      (pinStep_get _ 7 512 (by decide))) (.release (t := ⟨1, some 0, 7, some 2, 512⟩) (by decide))
  exact ⟨_, run, by decide, by decide, cache_run_pinned run⟩

end OsKernel.Cache
