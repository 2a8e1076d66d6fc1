import OsKernel.Library.DoublyLinked
import OsKernel.Library.Tiling
import OsKernel.Memory.HeapSurgery

/-
This file relates a heap to the list of its blocks.
Each part of `kmalloc` and `kfree` changes the list as its purpose says.
-/

namespace OsKernel.Mm
open Library

/-- A header in memory describes a block. -/
structure Describes (h : Heap) (b : Block) : Prop where
  size : h.get .size b.addr = b.size
  magic : h.get .magic b.addr = heapMagic
  flag : h.get .isFree b.addr = b.free.toNat

/-- A heap holds the listed blocks in a range that does not wrap. -/
structure Holds (h : Heap) (blocks : List Block) : Prop where
  links : Linked (h.get .next) (h.get .prev) 0 (blocks.map Block.addr) 0
  first : h.firstBlock = (blocks.map Block.addr).head?.getD 0
  last : h.lastBlock = (blocks.map Block.addr).getLast?.getD 0
  headers : ∀ b ∈ blocks, Describes h b
  account : h.freeSize = freeBytes 32 blocks
  tiles : Tiles 32 h.heapStart (h.heapStart + h.heapSize) blocks
  positive : 0 < h.heapStart
  bounded : h.heapStart + h.heapSize ≤ 2 ^ 64
  limited : h.heapSize ≤ 2 ^ 32 + 16
  ends : h.heapEnd = (h.heapStart + h.heapSize) % 2 ^ 64

section Parts

variable {h : Heap} {left right : List Block} {a b c : Block}

/-- Every block lies in the range of 64-bit addresses and of 32-bit sizes. -/
theorem Holds.within {blocks : List Block} (holds : Holds h blocks) (member : b ∈ blocks) :
    0 < b.addr ∧ b.addr + 32 + b.size ≤ 2 ^ 64 ∧ b.size < 2 ^ 32 := by
  have inside := holds.tiles.within member
  have positive := holds.positive
  have bounded := holds.bounded
  have limited := holds.limited
  omega

/-- Blocks in front end before, and blocks behind start after. -/
theorem Holds.before (holds : Holds h (left ++ b :: right)) (member : c ∈ left) :
    c.addr + 32 + c.size ≤ b.addr := by
  obtain ⟨_, _, order⟩ := List.pairwise_append.mp holds.tiles.ordered
  exact order c member b (by simp)

theorem Holds.behind (holds : Holds h (left ++ b :: right)) (member : c ∈ right) :
    b.addr + 32 + b.size ≤ c.addr := by
  obtain ⟨_, later, _⟩ := List.pairwise_append.mp holds.tiles.ordered
  exact List.rel_of_pairwise_cons later member

theorem Holds.next_eq (holds : Holds h (left ++ b :: right)) :
    h.get .next b.addr = (right.map Block.addr).head?.getD 0 := by
  have links := holds.links
  rw [List.map_append, List.map_cons, linked_append] at links
  exact links.2.2.1

/-- The link behind a block is null at the end of the list, and else names the next block. -/
theorem Holds.next_cases (holds : Holds h (left ++ b :: right)) : (right = [] ∧ h.get .next b.addr = 0) ∨
    ∃ d rest, right = d :: rest ∧ h.get .next b.addr = d.addr ∧ 0 < d.addr := by
  have next := holds.next_eq
  cases right with
  | nil => exact .inl ⟨rfl, next⟩
  | cons d rest => exact .inr ⟨d, rest, rfl, next, (holds.within (by simp)).1⟩

theorem Holds.prev_eq (holds : Holds h (left ++ b :: right)) :
    h.get .prev b.addr = (left.map Block.addr).getLast?.getD 0 := by
  have links := holds.links
  rw [List.map_append, List.map_cons, linked_append] at links
  exact links.2.1

/-- Only the memory of the headers and the manager's own fields matter. -/
theorem Holds.congr {h' : Heap} {blocks : List Block} (holds : Holds h blocks)
    (headers : ∀ b ∈ blocks, ∀ f, h'.get f b.addr = h.get f b.addr)
    (manager : h' = { h with mem := h'.mem }) : Holds h' blocks := by
  have links : Linked (h'.get .next) (h'.get .prev) 0 (blocks.map Block.addr) 0 := by
    apply holds.links.congr
    · intro x member
      obtain ⟨b, inside, rfl⟩ := List.mem_map.mp member
      exact headers b inside .next
    · intro x member
      obtain ⟨b, inside, rfl⟩ := List.mem_map.mp member
      exact headers b inside .prev
  have described : ∀ b ∈ blocks, Describes h' b := by
    intro b member
    obtain ⟨size, magic, flag⟩ := holds.headers b member
    exact ⟨(headers b member _).trans size, (headers b member _).trans magic,
      (headers b member _).trans flag⟩
  rw [manager] at links described ⊢
  exact ⟨links, holds.first, holds.last, described, holds.account, holds.tiles, holds.positive,
    holds.bounded, holds.limited, holds.ends⟩

/-- The headers of two blocks are the same or do not overlap. -/
theorem Holds.separate {blocks : List Block} (holds : Holds h blocks) (first : a ∈ blocks)
    (second : b ∈ blocks) : Separate a.addr b.addr := by
  rcases holds.tiles.separate first second with rfl | apart
  · exact .inl rfl
  · right
    omega

section Flag

variable {h : Heap} {left right : List Block} {b : Block}

/-- Writing the flag of one block changes it alone. -/
theorem Holds.setFlag (holds : Holds h (left ++ b :: right)) (free : Bool) {total : Nat}
    (account : total = freeBytes 32 (left ++ { b with free := free } :: right)) :
    Holds { h.set .isFree b.addr free.toNat with freeSize := total }
      (left ++ { b with free := free } :: right) := by
  have middle : b ∈ left ++ b :: right := by simp
  have same : (left ++ { b with free := free } :: right).map Block.addr =
      (left ++ b :: right).map Block.addr := by simp
  have read {c : Block} (member : c ∈ left ++ b :: right) (f : Field) (other : f ≠ .isFree) :
      (h.set .isFree b.addr free.toNat).get f c.addr = h.get f c.addr := by
    rw [get_set (holds.separate member middle), if_neg fun named => other named.2]
  have elsewhere {c : Block} (member : c ∈ left ++ b :: right) (apart : c.addr ≠ b.addr) :
      Describes { h.set .isFree b.addr free.toNat with freeSize := total } c := by
    obtain ⟨size, magic, flag⟩ := holds.headers c member
    refine ⟨(read member _ (by simp)).trans size, (read member _ (by simp)).trans magic, ?_⟩
    change (h.set .isFree b.addr free.toNat).get .isFree c.addr = c.free.toNat
    rw [get_set (holds.separate member middle), if_neg fun named => apart named.1, flag]
  have links : Linked ((h.set .isFree b.addr free.toNat).get .next) ((h.set .isFree b.addr free.toNat).get .prev) 0
      ((left ++ b :: right).map Block.addr) 0 := by
    apply holds.links.congr
    · intro x member
      obtain ⟨c, inside, rfl⟩ := List.mem_map.mp member
      exact read inside .next (by simp)
    · intro x member
      obtain ⟨c, inside, rfl⟩ := List.mem_map.mp member
      exact read inside .prev (by simp)
  have headers : ∀ c ∈ left ++ { b with free := free } :: right,
      Describes { h.set .isFree b.addr free.toNat with freeSize := total } c := by
    intro c member
    rcases List.mem_append.mp member with front | rear
    · have order := holds.before front
      have known : c ∈ left ++ b :: right := by simp [front]
      have apart : c.addr ≠ b.addr := by omega
      exact elsewhere known apart
    · rcases List.mem_cons.mp rear with rfl | back
      · obtain ⟨size, magic, _⟩ := holds.headers b middle
        refine ⟨(read middle _ (by simp)).trans size, (read middle _ (by simp)).trans magic, ?_⟩
        change (h.set .isFree b.addr free.toNat).get .isFree b.addr = free.toNat
        rw [get_set (.inl rfl), if_pos ⟨rfl, rfl⟩]
        cases free <;> rfl
      · have order := holds.behind back
        have known : c ∈ left ++ b :: right := by simp [back]
        have apart : c.addr ≠ b.addr := by omega
        exact elsewhere known apart
  exact {
    links := by
      rw [same]
      exact links
    first := by
      rw [same]
      exact holds.first
    last := by
      rw [same]
      exact holds.last
    headers := headers
    account := account
    tiles := tiles_flag.mpr holds.tiles
    positive := holds.positive
    bounded := holds.bounded
    limited := holds.limited
    ends := holds.ends }

/-- Taking a free block moves its bytes out of the account. -/
theorem Holds.takeBlock (holds : Holds h (left ++ b :: right)) (free : b.free) :
    Holds (Mm.takeBlock h b.addr) (left ++ { b with free := false } :: right) := by
  apply holds.setFlag false
  have size : (h.set .isFree b.addr 0).get .size b.addr = b.size := by
    rw [get_set (.inl rfl), if_neg (by simp)]
    exact (holds.headers b (by simp)).size
  have account := holds.account
  have total := holds.tiles.freeBytes_le
  have bounded := holds.bounded
  have positive := holds.positive
  simp only [freeBytes_append, freeBytes_cons, free, if_true] at account total
  simp only [size, set_freeSize, freeBytes_append, freeBytes_cons,
    Bool.false_eq_true, if_false, account]
  rw [sub64]
  omega

/-- Freeing an allocated block moves its bytes into the account. -/
theorem Holds.freeBlock (holds : Holds h (left ++ b :: right)) (taken : b.free = false) :
    Holds (Mm.freeBlock h b.addr) (left ++ { b with free := true } :: right) := by
  apply holds.setFlag true
  have size : (h.set .isFree b.addr 1).get .size b.addr = b.size := by
    rw [get_set (.inl rfl), if_neg (by simp)]
    exact (holds.headers b (by simp)).size
  have account := holds.account
  have tiles : Tiles 32 h.heapStart (h.heapStart + h.heapSize) (left ++ { b with free := true } :: right) :=
    tiles_flag.mpr holds.tiles
  have total := tiles.freeBytes_le
  have bounded := holds.bounded
  have positive := holds.positive
  simp only [freeBytes_append, freeBytes_cons, taken, if_true, Bool.false_eq_true, if_false] at account total
  simp only [size, set_freeSize, freeBytes_append, freeBytes_cons, if_true, account]
  rw [add64]
  omega

end Flag

section Absorb

variable {h : Heap} {left right : List Block} {a b c : Block}

/-- A list may be split one block later. -/
theorem Holds.shift (holds : Holds h (left ++ a :: b :: right)) : Holds h ((left ++ [a]) ++ b :: right) := by
  rwa [List.append_assoc]

/-- The link behind a block names the next block of the list or is null. -/
theorem Holds.separate_next (holds : Holds h (left ++ b :: right)) (member : c ∈ left ++ b :: right)
    (linked : h.get .next b.addr ≠ 0) : Separate c.addr (h.get .next b.addr) := by
  obtain ⟨_, null⟩ | ⟨d, rest, rfl, named, _⟩ := holds.next_cases
  · exact absurd null linked
  · rw [named]
    exact holds.separate member (by simp)

/-- No other block than the next one is behind that link. -/
theorem Holds.ne_next (holds : Holds h (left ++ b :: right))
    (member : c ∈ left ∨ c = b ∨ c ∈ right.tail) : c.addr ≠ h.get .next b.addr := by
  obtain ⟨rfl, null⟩ | ⟨d, rest, rfl, named, _⟩ := holds.next_cases
  · have positive := (holds.within (b := c) (by simpa using member)).1
    omega
  · have shifted := holds.shift
    rw [named]
    rcases member with front | rfl | back
    · have order : c.addr + 32 + c.size ≤ d.addr := shifted.before (by simp [front])
      omega
    · have order : c.addr + 32 + c.size ≤ d.addr := shifted.before (by simp)
      omega
    · have order := shifted.behind back
      omega

/-- Absorbing a block changes the headers as the surgery says. -/
theorem Holds.get_absorb (holds : Holds h (left ++ a :: b :: right)) (member : c ∈ left ++ a :: b :: right)
    (f : Field) : (Mm.absorb h a.addr b.addr).get f c.addr =
      if c.addr = h.get .next b.addr ∧ h.get .next b.addr ≠ 0 ∧ f = .prev then a.addr
      else if c.addr = a.addr ∧ f = .next then h.get .next b.addr
      else if c.addr = a.addr ∧ f = .size then (a.size + (b.size + 32)) % 2 ^ 32
      else h.get f c.addr := by
  have order : a.addr + 32 + a.size ≤ b.addr := holds.behind (by simp)
  have bound : a.addr + 32 + a.size ≤ 2 ^ 64 := (holds.within (by simp)).2.1
  have separate : Separate c.addr a.addr := holds.separate member (by simp)
  have known : c ∈ (left ++ [a]) ++ b :: right := by simpa using member
  rw [Mm.get_absorb (by omega) (by omega) separate (holds.shift.separate_next known),
    (holds.headers a (by simp)).size, (holds.headers b (by simp)).size]

/-- The absorbed block leaves the list. -/
theorem Holds.absorb_links (holds : Holds h (left ++ a :: b :: right)) :
    Linked ((Mm.absorb h a.addr b.addr).get .next) ((Mm.absorb h a.addr b.addr).get .prev) 0
      (left.map Block.addr ++ a.addr :: right.map Block.addr) 0 := by
  have links := holds.links
  rw [List.map_append, List.map_cons, List.map_cons] at links
  have forward {c : Block} (member : c ∈ left ++ a :: b :: right) (apart : c.addr ≠ a.addr) :
      (Mm.absorb h a.addr b.addr).get .next c.addr = h.get .next c.addr := by
    simp [holds.get_absorb member, apart]
  have backward {c : Block} (member : c ∈ left ++ a :: b :: right) (aside : c.addr ≠ h.get .next b.addr) :
      (Mm.absorb h a.addr b.addr).get .prev c.addr = h.get .prev c.addr := by
    simp [holds.get_absorb member, aside]
  apply links.removeAfter
  · intro x member
    obtain ⟨c, front, rfl⟩ := List.mem_map.mp member
    have order := holds.before front
    exact forward (by simp [front]) (by omega)
  · intro x member
    obtain ⟨c, front, rfl⟩ := List.mem_map.mp member
    exact backward (by simp [front]) (holds.shift.ne_next (by simp [front]))
  · simp [holds.get_absorb (c := a)]
  · exact backward (by simp) (holds.shift.ne_next (by simp))
  · intro x member
    obtain ⟨c, back, rfl⟩ := List.mem_map.mp member
    have order : a.addr + 32 + a.size ≤ c.addr := holds.behind (by simp [back])
    exact forward (by simp [back]) (by omega)
  · intro x member
    rw [← List.map_tail] at member
    obtain ⟨c, back, rfl⟩ := List.mem_map.mp member
    exact backward (by simp [List.mem_of_mem_tail back]) (holds.shift.ne_next (by simp [back]))
  · intro x first
    obtain ⟨rfl, _⟩ | ⟨d, rest, rfl, linked, positive⟩ := holds.shift.next_cases
    · cases first
    · have named : d.addr = x := Option.some.inj first
      rw [← named, holds.get_absorb (by simp), if_pos]
      exact ⟨linked.symm, by omega, rfl⟩

/-- The last block changes only when it is absorbed. -/
theorem Holds.absorb_last (holds : Holds h (left ++ a :: b :: right)) :
    (Mm.absorb h a.addr b.addr).lastBlock =
      (left.map Block.addr ++ a.addr :: right.map Block.addr).getLast?.getD 0 := by
  have order : a.addr + 32 + a.size ≤ b.addr := holds.behind (by simp)
  rw [absorb_lastBlock (by omega)]
  obtain ⟨rfl, null⟩ | ⟨d, rest, rfl, linked, positive⟩ := holds.shift.next_cases
  · rw [if_pos null]
    simp
  · rw [if_neg (by omega), holds.last]
    simp

/-- The other headers stay, and the absorbing one grows. -/
theorem Holds.absorb_headers (holds : Holds h (left ++ a :: b :: right)) (first : a.free)
    (member : c ∈ left ++ ⟨a.addr, a.size + 32 + b.size, true⟩ :: right) :
    Describes (Mm.absorb h a.addr b.addr) c := by
  have elsewhere (known : c ∈ left ++ a :: b :: right) (apart : c.addr ≠ a.addr) :
      Describes (Mm.absorb h a.addr b.addr) c := by
    obtain ⟨size, magic, flag⟩ := holds.headers c known
    exact ⟨by simpa [holds.get_absorb known, apart] using size,
      by simpa [holds.get_absorb known, apart] using magic,
      by simpa [holds.get_absorb known, apart] using flag⟩
  rcases List.mem_append.mp member with front | rear
  · have order := holds.before front
    exact elsewhere (by simp [front]) (by omega)
  · rcases List.mem_cons.mp rear with rfl | back
    · have tiles : Tiles 32 h.heapStart (h.heapStart + h.heapSize)
          (left ++ ⟨a.addr, a.size + 32 + b.size, true⟩ :: right) := tiles_join holds.tiles
      have inside := (tiles.within member).2
      have start := (tiles.within member).1
      have limited := holds.limited
      obtain ⟨_, magic, flag⟩ := holds.headers a (by simp)
      have narrow : (a.size + (b.size + 32)) % 2 ^ 32 = a.size + 32 + b.size := by
        dsimp only at inside start
        omega
      refine ⟨?_, ?_, ?_⟩
      · rw [holds.get_absorb (c := a) (by simp), if_neg (by simp), if_neg (by simp), if_pos ⟨rfl, rfl⟩]
        exact narrow
      · rw [holds.get_absorb (c := a) (by simp)]
        simpa using magic
      · rw [holds.get_absorb (c := a) (by simp)]
        simpa [first] using flag
    · have order : a.addr + 32 + a.size ≤ c.addr := holds.behind (by simp [back])
      exact elsewhere (by simp [back]) (by omega)

/-- A free block absorbs the free block behind it. -/
theorem Holds.absorb (holds : Holds h (left ++ a :: b :: right)) (first : a.free) (second : b.free) :
    Holds (Mm.absorb h a.addr b.addr) (left ++ ⟨a.addr, a.size + 32 + b.size, true⟩ :: right) where
  links := by simpa using holds.absorb_links
  first := by
    rw [absorb_firstBlock, holds.first]
    cases left <;> rfl
  last := by simpa using holds.absorb_last
  headers := fun c member => holds.absorb_headers first member
  account := by
    rw [absorb_freeSize, holds.account]
    simp only [freeBytes_append, freeBytes_cons, first, second, if_true]
    omega
  tiles := by
    rw [absorb_heapStart, absorb_heapSize]
    exact tiles_join holds.tiles
  positive := by simpa using holds.positive
  bounded := by simpa using holds.bounded
  limited := by simpa using holds.limited
  ends := by simpa using holds.ends

end Absorb

section Split

variable {h : Heap} {left right : List Block} {b c : Block} {size : Nat}

/-- The two parts of a split block, both still free. -/
def halves (size : Nat) (b : Block) : List Block :=
  [⟨b.addr, size, true⟩, ⟨newBlock b.addr size, b.size - size - 32, true⟩]

/-- A block that is long enough can be split. -/
theorem Holds.splits (holds : Holds h (left ++ b :: right)) (room : size + 32 ≤ b.size) :
    Splits h b.addr size := by
  have within : 0 < b.addr ∧ b.addr + 32 + b.size ≤ 2 ^ 64 ∧ b.size < 2 ^ 32 := holds.within (by simp)
  rw [← (holds.headers b (by simp)).size] at within room
  exact ⟨room, within.2.1, within.2.2⟩

/-- The rest of the block is apart from every other header. -/
theorem Holds.separate_newBlock (holds : Holds h (left ++ b :: right)) (room : size + 32 ≤ b.size)
    (member : c ∈ left ++ b :: right) : c.addr + 32 ≤ newBlock b.addr size ∨ newBlock b.addr size + 32 ≤ c.addr := by
  rw [newBlock]
  rcases List.mem_append.mp member with front | rear
  · have order := holds.before front
    omega
  · rcases List.mem_cons.mp rear with rfl | back
    · omega
    · have order := holds.behind back
      omega

/-- Splitting a block changes the headers of the list as the surgery says. -/
theorem Holds.get_splitBlock (holds : Holds h (left ++ b :: right)) (room : size + 32 ≤ b.size)
    (member : c ∈ left ++ b :: right) (f : Field) : (splitBlock h b.addr size).get f c.addr =
      if c.addr = h.get .next b.addr ∧ h.get .next b.addr ≠ 0 ∧ f = .prev then newBlock b.addr size
      else if c.addr = b.addr ∧ f = .next then newBlock b.addr size
      else if c.addr = b.addr ∧ f = .size then size
      else h.get f c.addr := by
  have apart := holds.separate_newBlock room member
  have other : c.addr ≠ newBlock b.addr size := by omega
  rw [Mm.get_splitBlock (holds.splits room) (holds.separate member (by simp)) (.inr apart)
    (holds.separate_next member), if_neg other]

/-- The rest gets a header of its own. -/
theorem Holds.get_newBlock (holds : Holds h (left ++ b :: right)) (room : size + 32 ≤ b.size) (f : Field) :
    (splitBlock h b.addr size).get f (newBlock b.addr size) =
      freeHeader (b.size - size - 32) (h.get .next b.addr) b.addr f := by
  have self := holds.separate_newBlock room (c := b) (by simp)
  have other : newBlock b.addr size ≠ b.addr := by omega
  have link : h.get .next b.addr ≠ 0 → newBlock b.addr size ≠ h.get .next b.addr ∧
      Separate (newBlock b.addr size) (h.get .next b.addr) := by
    intro linked
    obtain ⟨_, null⟩ | ⟨d, rest, rfl, named, _⟩ := holds.next_cases
    · exact absurd null linked
    · have apart := holds.separate_newBlock room (c := d) (by simp)
      rw [named]
      exact ⟨by omega, .inr (by omega)⟩
  have aside : ¬ (newBlock b.addr size = h.get .next b.addr ∧ h.get .next b.addr ≠ 0 ∧ f = .prev) :=
    fun named => (link named.2.1).1 named.1
  rw [Mm.get_splitBlock (holds.splits room) (.inr (by omega)) (.inl rfl) fun linked => (link linked).2,
    if_neg aside, if_neg fun named => other named.1, if_neg fun named => other named.1, if_pos rfl,
    (holds.headers b (by simp)).size]

/-- The rest joins the list behind the block. -/
theorem Holds.split_links (holds : Holds h (left ++ b :: right)) (room : size + 32 ≤ b.size) :
    Linked ((splitBlock h b.addr size).get .next) ((splitBlock h b.addr size).get .prev) 0
      (left.map Block.addr ++ b.addr :: newBlock b.addr size :: right.map Block.addr) 0 := by
  have links := holds.links
  rw [List.map_append, List.map_cons] at links
  have forward {c : Block} (member : c ∈ left ++ b :: right) (apart : c.addr ≠ b.addr) :
      (splitBlock h b.addr size).get .next c.addr = h.get .next c.addr := by
    simp [holds.get_splitBlock room member, apart]
  have backward {c : Block} (member : c ∈ left ++ b :: right) (aside : c.addr ≠ h.get .next b.addr) :
      (splitBlock h b.addr size).get .prev c.addr = h.get .prev c.addr := by
    simp [holds.get_splitBlock room member, aside]
  apply links.insertAfter
  · intro x member
    obtain ⟨c, front, rfl⟩ := List.mem_map.mp member
    have order := holds.before front
    exact forward (by simp [front]) (by omega)
  · intro x member
    obtain ⟨c, front, rfl⟩ := List.mem_map.mp member
    exact backward (by simp [front]) (holds.ne_next (by simp [front]))
  · simp [holds.get_splitBlock room (c := b)]
  · exact backward (by simp) (holds.ne_next (by simp))
  · exact holds.get_newBlock room .next
  · exact holds.get_newBlock room .prev
  · intro x member
    obtain ⟨c, back, rfl⟩ := List.mem_map.mp member
    have order := holds.behind back
    exact forward (by simp [back]) (by omega)
  · intro x member
    rw [← List.map_tail] at member
    obtain ⟨c, back, rfl⟩ := List.mem_map.mp member
    exact backward (by simp [List.mem_of_mem_tail back]) (holds.ne_next (by simp [back]))
  · intro x first
    obtain ⟨rfl, _⟩ | ⟨d, rest, rfl, linked, positive⟩ := holds.next_cases
    · cases first
    · have named : d.addr = x := Option.some.inj first
      rw [← named, holds.get_splitBlock room (by simp), if_pos]
      exact ⟨linked.symm, by omega, rfl⟩

/-- The rest of the last block becomes the last block. -/
theorem Holds.split_last (holds : Holds h (left ++ b :: right)) (room : size + 32 ≤ b.size) :
    (splitBlock h b.addr size).lastBlock =
      (left.map Block.addr ++ b.addr :: newBlock b.addr size :: right.map Block.addr).getLast?.getD 0 := by
  rw [splitBlock_lastBlock (holds.splits room)]
  obtain ⟨rfl, null⟩ | ⟨d, rest, rfl, linked, positive⟩ := holds.next_cases
  · rw [if_pos null]
    simp
  · rw [if_neg (by omega), holds.last]
    simp

/-- Both parts are described, and the other headers stay. -/
theorem Holds.split_headers (holds : Holds h (left ++ b :: right)) (room : size + 32 ≤ b.size)
    (free : b.free) (member : c ∈ left ++ halves size b ++ right) :
    Describes (splitBlock h b.addr size) c := by
  have elsewhere (known : c ∈ left ++ b :: right) (apart : c.addr ≠ b.addr) :
      Describes (splitBlock h b.addr size) c := by
    obtain ⟨size, magic, flag⟩ := holds.headers c known
    exact ⟨by simpa [holds.get_splitBlock room known, apart] using size,
      by simpa [holds.get_splitBlock room known, apart] using magic,
      by simpa [holds.get_splitBlock room known, apart] using flag⟩
  simp only [halves, List.append_assoc, List.mem_append, List.mem_cons, List.not_mem_nil, or_false] at member
  rcases member with front | (rfl | rfl) | back
  · have order := holds.before front
    exact elsewhere (by simp [front]) (by omega)
  · obtain ⟨_, magic, flag⟩ := holds.headers b (by simp)
    refine ⟨?_, ?_, ?_⟩
    · simp [holds.get_splitBlock room (c := b)]
    · simpa [holds.get_splitBlock room (c := b)] using magic
    · simpa [holds.get_splitBlock room (c := b), free] using flag
  · exact ⟨holds.get_newBlock room .size, holds.get_newBlock room .magic, holds.get_newBlock room .isFree⟩
  · have order := holds.behind back
    exact elsewhere (by simp [back]) (by omega)

/-- Splitting a free block leaves two free blocks in its place. -/
theorem Holds.splitBlock (holds : Holds h (left ++ b :: right)) (room : size + 32 ≤ b.size) (free : b.free) :
    Holds (Mm.splitBlock h b.addr size) (left ++ halves size b ++ right) where
  links := by simpa [halves] using holds.split_links room
  first := by
    rw [splitBlock_firstBlock, holds.first]
    cases left <;> rfl
  last := by simpa [halves] using holds.split_last room
  headers := fun c member => holds.split_headers room free member
  account := by
    rw [splitBlock_freeSize, holds.account]
    simp only [halves, freeBytes_append, freeBytes_cons, freeBytes_nil, free, if_true]
    omega
  tiles := by
    rw [splitBlock_heapStart, splitBlock_heapSize, List.append_assoc]
    exact (tiles_split room).mpr holds.tiles
  positive := by simpa using holds.positive
  bounded := by simpa using holds.bounded
  limited := by simpa using holds.limited
  ends := by simpa using holds.ends

end Split

end Parts

end OsKernel.Mm
