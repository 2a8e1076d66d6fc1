import OsKernel.Library.Tiling

/-
This file bounds the fragmentation of a coalesced block list by the number of its allocated blocks.
-/

namespace OsKernel.Library

variable {header most need : Nat} {blocks : List Block}

def freeBlocks (blocks : List Block) : Nat := blocks.countP fun b => b.free

def allocatedBlocks (blocks : List Block) : Nat := blocks.countP fun b => !b.free

/-- Between two free blocks there is an allocated one, and a list that starts allocated saves one more. -/
theorem Coalesced.freeBlocks_le_head (chain : Coalesced blocks) :
    freeBlocks blocks ≤ allocatedBlocks blocks + if blocks.head?.any fun b => b.free then 1 else 0 := by
  induction blocks with
  | nil => exact Nat.zero_le _
  | cons b rest ih =>
      obtain ⟨apart, chain⟩ := coalesced_cons.mp chain
      have later := ih chain
      unfold freeBlocks allocatedBlocks at later ⊢
      rw [List.countP_cons, List.countP_cons, List.head?_cons, Option.any_some]
      cases free : b.free with
      | true =>
          have closed : (rest.head?.any fun c => c.free) = false := by
            cases first : rest.head? with
            | none => rfl
            | some c => simpa [free] using apart c first
          simp only [closed, Bool.false_eq_true, if_false] at later
          simp only [if_true, Bool.not_true, Bool.false_eq_true, if_false]
          omega
      | false =>
          simp only [Bool.false_eq_true, if_false, Bool.not_false, if_true]
          split at later <;> omega

theorem Coalesced.freeBlocks_le (chain : Coalesced blocks) : freeBlocks blocks ≤ allocatedBlocks blocks + 1 := by
  have bound := chain.freeBlocks_le_head
  split at bound <;> omega

/-- Small free blocks hold few free bytes. -/
theorem freeBytes_le_of_small (small : ∀ b ∈ blocks, b.free = true → b.size + header ≤ most) :
    freeBytes header blocks ≤ freeBlocks blocks * most := by
  induction blocks with
  | nil => exact Nat.zero_le _
  | cons b rest ih =>
      have later := ih fun c member => small c (List.mem_cons_of_mem b member)
      unfold freeBlocks at later ⊢
      rw [freeBytes_cons, List.countP_cons]
      cases free : b.free with
      | true =>
          have first := small b List.mem_cons_self free
          rw [if_pos rfl, if_pos rfl, Nat.add_mul, Nat.one_mul]
          omega
      | false =>
          rw [if_neg Bool.false_ne_true, if_neg Bool.false_ne_true, Nat.zero_add, Nat.add_zero]
          exact later

/-- With enough free bytes for each allocated block and one more, some free block is large. -/
theorem Coalesced.exists_large (chain : Coalesced blocks) (positive : 0 < need)
    (enough : need * (allocatedBlocks blocks + 1) ≤ freeBytes header blocks) :
    ∃ b ∈ blocks, b.free = true ∧ need ≤ b.size + header := by
  by_contra none
  have small : ∀ b ∈ blocks, b.free = true → b.size + header ≤ need - 1 := by
    intro b member free
    by_contra large
    exact none ⟨b, member, free, by omega⟩
  have held : freeBytes header blocks < need * (allocatedBlocks blocks + 1) :=
    calc freeBytes header blocks
        ≤ freeBlocks blocks * (need - 1) := freeBytes_le_of_small small
      _ ≤ (allocatedBlocks blocks + 1) * (need - 1) := Nat.mul_le_mul_right _ chain.freeBlocks_le
      _ < (allocatedBlocks blocks + 1) * need := Nat.mul_lt_mul_of_pos_left (by omega) (Nat.succ_pos _)
      _ = need * (allocatedBlocks blocks + 1) := Nat.mul_comm _ _
  omega

end OsKernel.Library
