import OsKernel.Library.Tiling

/-
This file proves that the allocated blocks determine a coalesced tiling.
-/

namespace OsKernel.Library

variable {header start finish : Nat} {b : Block} {rest blocks blocks' : List Block}

/-- Behind a free block stands an allocated one or the end of the range. -/
theorem Coalesced.behind_free (tiles : Tiles header start finish (b :: rest)) (chain : Coalesced (b :: rest))
    (free : b.free = true) : start + header + b.size = finish ∨
      ∃ d ∈ b :: rest, d.free = false ∧ d.addr = start + header + b.size := by
  cases rest with
  | nil => exact .inl tiles.2
  | cons d others =>
      have apart := (coalesced_cons.mp chain).1 d rfl
      have taken : d.free = false := by simpa [free] using apart
      exact .inr ⟨d, by simp, taken, tiles.2.1⟩

/-- No allocated block starts inside a free block at the front. -/
theorem Tiles.free_front_le {d : Block} (tiles : Tiles header start finish (b :: rest)) (free : b.free = true)
    (member : d ∈ b :: rest) (taken : d.free = false) : start + header + b.size ≤ d.addr := by
  rcases List.mem_cons.mp member with rfl | behind
  · rw [free] at taken
    cases taken
  · exact (tiles.2.within behind).1

/-- A free block at the front ends no earlier than in any other layout of the allocated blocks. -/
theorem Coalesced.free_front_le {b' : Block} {rest' : List Block} (tiles : Tiles header start finish (b :: rest))
    (tiles' : Tiles header start finish (b' :: rest')) (chain : Coalesced (b :: rest)) (free : b.free = true)
    (free' : b'.free = true) (same : ∀ d ∈ b :: rest, d.free = false → d ∈ b' :: rest') : b'.size ≤ b.size := by
  rcases chain.behind_free tiles free with whole | ⟨d, member, taken, next⟩
  · have bound := (tiles'.within List.mem_cons_self).2
    have place : b'.addr = start := tiles'.1
    omega
  · have bound := tiles'.free_front_le free' (same d member taken) taken
    omega

/-- A block does not occur again behind itself. -/
theorem Tiles.notMem_rest (positive : 0 < header) (tiles : Tiles header start finish (b :: rest)) : b ∉ rest := by
  intro again
  have later := (tiles.2.within again).1
  have place : b.addr = start := tiles.1
  omega

/-- A coalesced tiling is determined by its range and its allocated blocks. -/
theorem Coalesced.ext (positive : 0 < header) (tiles : Tiles header start finish blocks)
    (tiles' : Tiles header start finish blocks') (chain : Coalesced blocks) (chain' : Coalesced blocks')
    (same : ∀ d, d.free = false → (d ∈ blocks ↔ d ∈ blocks')) : blocks = blocks' := by
  induction blocks generalizing start blocks' with
  | nil =>
      cases blocks' with
      | nil => rfl
      | cons b' rest' =>
          have whole : start = finish := tiles
          have bound := (tiles'.within (List.mem_cons_self (a := b'))).2
          have place : b'.addr = start := tiles'.1
          omega
  | cons b rest ih =>
      cases blocks' with
      | nil =>
          have whole : start = finish := tiles'
          have bound := (tiles.within (List.mem_cons_self (a := b))).2
          have place : b.addr = start := tiles.1
          omega
      | cons b' rest' =>
          have place : b.addr = b'.addr := tiles.1.trans tiles'.1.symm
          have first : b = b' := by
            cases free : b.free with
            | false => exact tiles'.eq_of_addr positive ((same b free).mp (by simp)) (by simp) place
            | true =>
                cases free' : b'.free with
                | false => exact tiles.eq_of_addr positive (by simp) ((same b' free').mpr (by simp)) place
                | true =>
                    have most := chain.free_front_le tiles tiles' free free' fun d member taken =>
                      (same d taken).mp member
                    have least := chain'.free_front_le tiles' tiles free' free fun d member taken =>
                      (same d taken).mpr member
                    obtain ⟨addr, size, flag⟩ := b
                    obtain ⟨addr', size', flag'⟩ := b'
                    simp only at place free free' most least
                    rw [place, free, free', Nat.le_antisymm least most]
          subst first
          rw [ih tiles.2 tiles'.2 (coalesced_cons.mp chain).2 (coalesced_cons.mp chain').2]
          intro d taken
          constructor
          · intro member
            rcases List.mem_cons.mp ((same d taken).mp (List.mem_cons_of_mem b member)) with rfl | behind
            · exact absurd member (tiles.notMem_rest positive)
            · exact behind
          · intro member
            rcases List.mem_cons.mp ((same d taken).mpr (List.mem_cons_of_mem b member)) with rfl | behind
            · exact absurd member (tiles'.notMem_rest positive)
            · exact behind

end OsKernel.Library
