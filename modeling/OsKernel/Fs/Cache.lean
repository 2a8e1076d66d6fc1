import OsKernel.Library.Loops
import OsKernel.Library.Runs
import OsKernel.Memory.Allocator

/-
This file models the block cache of `cache.c` over any kernel allocator.
-/

namespace OsKernel.Cache
open Library

def maxCacheBlocks : Nat := 256

/-- The size of `cache_block_t` on x86_64. -/
def sizeofCacheBlock : Nat := 56

inductive Status
  | clean
  | dirty
  deriving DecidableEq

/-- The fields of `cache_block_t`. -/
structure CacheBlock where
  blockId : Nat
  data : Option Addr
  size : Nat
  status : Status
  referenceCount : Nat
  lastAccess : Nat
  next : Option Addr
  prev : Option Addr

/-- The cache manager, the block objects behind the pointers, and the allocator's state. -/
structure Manager (H : Type) where
  blocks : Nat → Option Addr
  blockCount : Nat
  hitCount : Nat
  missCount : Nat
  accessTime : Nat
  block : Addr → CacheBlock
  heap : H

variable {H : Type} (A : Allocator H)

/-- `cache_init` clears the counters and the array. -/
def cacheInit (s : Manager H) : Manager H :=
  { s with blocks := fun _ => none, blockCount := 0, hitCount := 0, missCount := 0, accessTime := 0 }

/-- A slot holds a block with the id. -/
def hasId (s : Manager H) (blockId i : Nat) : Bool :=
  match s.blocks i with
  | none => false
  | some a => (s.block a).blockId = blockId

/-- `find_cache_block` returns the first block with the id. -/
def findCacheBlock (s : Manager H) (blockId : Nat) : Option Addr :=
  (search (hasId s blockId) 0 s.blockCount).bind s.blocks

/-- The time of an unreferenced block. -/
def idleTime (s : Manager H) (i : Nat) : Option Nat :=
  match s.blocks i with
  | none => none
  | some a => if (s.block a).referenceCount = 0 then some (s.block a).lastAccess else none

/-- The scan for the block to evict keeps the oldest unreferenced one. -/
def oldestIndex (s : Manager H) : Option Nat := leastKey (idleTime s) 0 s.blockCount 0xFFFFFFFFFFFFFFFF none

/-- `kfree` ignores null. -/
def freePointer (h : H) : Option Addr → H
  | none => h
  | some p => A.kfree h p

/-- The block of a slot and its data are freed, and the slot becomes null. -/
def evict (s : Manager H) (i : Nat) (a : Addr) : Manager H :=
  { s with heap := A.kfree (freePointer A s.heap (s.block a).data) a, blocks := Function.update s.blocks i none }

/-- A full cache evicts a block, or fails when there is none to evict. -/
def makeRoom (s : Manager H) : Option (Manager H) :=
  if s.blockCount ≥ maxCacheBlocks then
    match oldestIndex s with
    | none => none
    | some i =>
        match s.blocks i with
        | none => none
        | some a => some (evict A s i a)
  else some s

/-- The next value of the access time. -/
def tick (s : Manager H) : Nat := (s.accessTime + 1) % 2 ^ 64

/-- A new block is initialised with one reference and the next access time. -/
def initBlock (s : Manager H) (a d : Addr) (blockId size : Nat) : Manager H :=
  { s with block := Function.update s.block a ⟨blockId, some d, size, .clean, 1, tick s, none, none⟩,
           accessTime := tick s }

/-- The block goes to the first null slot. -/
def addBlock (s : Manager H) (a : Addr) : Manager H :=
  match search (fun i => (s.blocks i).isNone) 0 maxCacheBlocks with
  | none => s
  | some i =>
      { s with blocks := Function.update s.blocks i (some a),
               blockCount := if i ≥ s.blockCount then i + 1 else s.blockCount }

/-- `allocate_cache_block` makes room, allocates the block and its data, and adds the block. -/
def allocateCacheBlock (s : Manager H) (blockId size : Nat) : Option Addr × Manager H :=
  match makeRoom A s with
  | none => (none, s)
  | some s =>
      match A.kmalloc s.heap sizeofCacheBlock with
      | (none, h) => (none, { s with heap := h })
      | (some a, h) =>
          match A.kmalloc h size with
          | (none, h) =>
              (none, { s with heap := A.kfree h a, block := Function.update s.block a { s.block a with data := none } })
          | (some d, h) => (some a, addBlock (initBlock { s with heap := h } a d blockId size) a)

/-- A hit counts, renews the access time and takes a reference. -/
def touch (s : Manager H) (a : Addr) : Manager H :=
  { s with hitCount := (s.hitCount + 1) % 2 ^ 64,
           accessTime := tick s,
           block := Function.update s.block a
             { s.block a with lastAccess := tick s, referenceCount := ((s.block a).referenceCount + 1) % 2 ^ 32 } }

/-- A miss counts. -/
def countMiss (s : Manager H) : Manager H := { s with missCount := (s.missCount + 1) % 2 ^ 64 }

/-- `cache_get_block` returns the resident block or a new one. -/
def cacheGetBlock (s : Manager H) (blockId size : Nat) : Option Addr × Manager H :=
  match findCacheBlock s blockId with
  | some a => (some a, touch s a)
  | none => allocateCacheBlock A (countMiss s) blockId size

/-- A field of one block object is rewritten. -/
def setBlock (s : Manager H) (a : Addr) (b : CacheBlock) : Manager H :=
  { s with block := Function.update s.block a b }

/-- `cache_release_block` gives a reference back. -/
def cacheReleaseBlock (s : Manager H) : Option Addr → Manager H
  | none => s
  | some a =>
      if (s.block a).referenceCount > 0 then
        setBlock s a { s.block a with referenceCount := (s.block a).referenceCount - 1 }
      else s

/-- `cache_mark_dirty` sets the status. -/
def cacheMarkDirty (s : Manager H) : Option Addr → Manager H
  | none => s
  | some a => setBlock s a { s.block a with status := .dirty }

/-- `cache_sync_block` cleans a dirty block. -/
def cacheSyncBlock (s : Manager H) : Option Addr → Int × Manager H
  | none => (0, s)
  | some a =>
      if (s.block a).status ≠ .dirty then (0, s) else (0, setBlock s a { s.block a with status := .clean })

/-- The loop of `cache_sync_all` stops at the first error. -/
def syncFrom : Nat → Nat → Manager H → Int × Manager H
  | _, 0, s => (0, s)
  | i, count + 1, s =>
      match s.blocks i with
      | none => syncFrom (i + 1) count s
      | some a =>
          if (s.block a).status = .dirty then
            match cacheSyncBlock s (some a) with
            | (ret, s') => if ret ≠ 0 then (ret, s') else syncFrom (i + 1) count s'
          else syncFrom (i + 1) count s

/-- `cache_sync_all` cleans all dirty blocks. -/
def cacheSyncAll (s : Manager H) : Int × Manager H := syncFrom 0 s.blockCount s

/-- The calls of the cache's clients, a get with its result. -/
inductive Op
  | get (blockId size : Nat) (result : Option Addr)
  | release (block : Option Addr)
  | markDirty (block : Option Addr)
  | syncBlock (block : Option Addr)
  | syncAll

def Op.isGet : Op → Bool
  | .get _ _ _ => true
  | _ => false

/-- A pointer to a block in some slot, or null. -/
def Resident (s : Manager H) (p : Option Addr) : Prop := ∀ a ∈ p, ∃ i, s.blocks i = some a

/-- Clients call the cache with resident blocks. -/
inductive Step : Manager H → Op → Manager H → Prop
  | get {s s' : Manager H} {blockId size : Nat} {result : Option Addr}
      (answered : cacheGetBlock A s blockId size = (result, s')) : Step s (.get blockId size result) s'
  | release {s : Manager H} {p : Option Addr} (resident : Resident s p) :
      Step s (.release p) (cacheReleaseBlock s p)
  | markDirty {s : Manager H} {p : Option Addr} (resident : Resident s p) :
      Step s (.markDirty p) (cacheMarkDirty s p)
  | syncBlock {s : Manager H} {p : Option Addr} (resident : Resident s p) :
      Step s (.syncBlock p) (cacheSyncBlock s p).2
  | syncAll {s : Manager H} : Step s .syncAll (cacheSyncAll s).2

end OsKernel.Cache
