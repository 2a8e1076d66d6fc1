import OsKernel.Library.Fragments
import OsKernel.Memory.HeapFit

/-
This file bounds what the fragmentation of `heap.c` can cost.
-/

namespace OsKernel.Mm
open Library

variable {c : Client} {blocks : List Block} {n : Nat}

/-- The live pointers count the allocated blocks. -/
theorem Good.card_live (good : Good c blocks) (known : Addressable blocks) : c.live.card = allocatedBlocks blocks := by
  have apart : ((blocks.filter fun b => !b.free).map fun b => b.addr + 32).Nodup := by
    rw [List.Nodup, List.pairwise_map]
    apply (good.holds.tiles.ordered.sublist List.filter_sublist).imp
    intro a b order same
    omega
  have same : c.live = ((blocks.filter fun b => !b.free).map fun b => b.addr + 32).toFinset := by
    ext p
    rw [good.live, List.mem_toFinset, List.mem_map]
    constructor
    · rintro ⟨b, member, held, rfl, _⟩
      exact ⟨b, List.mem_filter.mpr ⟨member, by simp [held]⟩, rfl⟩
    · rintro ⟨b, member, rfl⟩
      obtain ⟨member, held⟩ := List.mem_filter.mp member
      exact ⟨b, member, by simpa using held, rfl, known b member⟩
  rw [same, List.toFinset_card_of_nodup apart, List.length_map, allocatedBlocks, List.countP_eq_length_filter]

/-- A heap serves every request that the free bytes cover once for each live object and once more. -/
theorem Good.serves (good : Good c blocks) (known : Addressable blocks)
    (enough : (rounded n + 32) * (c.live.card + 1) ≤ (heapStats c.heap).2) :
    ∃ p h', Mm.kmalloc (c.heap.heapSize / 32 + 1) c.heap n = some (p, h') ∧ p ≠ 0 := by
  have account : (heapStats c.heap).2 = freeBytes 32 blocks := good.holds.account
  rw [account, good.card_live known] at enough
  obtain ⟨b, member, free, large⟩ := good.coalesced.exists_large (Nat.succ_pos _) enough
  have small : n ≤ 2 ^ 64 - 16 := by
    have within : 0 < b.addr ∧ b.addr + 32 + b.size ≤ 2 ^ 64 ∧ b.size < 2 ^ 32 := good.holds.within member
    unfold rounded at large
    omega
  obtain ⟨p, h', answered⟩ := kmalloc_returns good.holds (Nat.lt_succ_self _) n
  refine ⟨p, h', answered, ?_⟩
  intro null
  have missed := (good.holds.firstFit known small answered).refused.mp null b.addr (List.mem_map_of_mem member)
  rw [good.holds.fitsAt_iff member] at missed
  exact missed ⟨free, by omega⟩

end OsKernel.Mm
