import Mathlib.Data.List.Chain
import Mathlib.Tactic

/-
This file develops tilings of an address range by blocks that each start with a header.
First fit carves a block out of a tiling, and coalescing joins its free neighbours.
-/

namespace OsKernel.Library

/-- A block has an address, a payload size and a free flag. -/
structure Block where
  addr : Nat
  size : Nat
  free : Bool
  deriving DecidableEq, Repr

variable {header : Nat}

/-- The blocks follow each other from `start` to `finish` without a gap. -/
def Tiles (header : Nat) : Nat → Nat → List Block → Prop
  | start, finish, [] => start = finish
  | start, finish, b :: rest => b.addr = start ∧ Tiles header (start + header + b.size) finish rest

@[simp] theorem tiles_nil {start finish : Nat} : Tiles header start finish [] ↔ start = finish := Iff.rfl

@[simp] theorem tiles_cons {start finish : Nat} {b : Block} {rest : List Block} :
    Tiles header start finish (b :: rest) ↔
      b.addr = start ∧ Tiles header (start + header + b.size) finish rest := Iff.rfl

/-- Two tilings join where the first ends. -/
theorem tiles_append {start finish : Nat} {left right : List Block} :
    Tiles header start finish (left ++ right) ↔
      ∃ middle, Tiles header start middle left ∧ Tiles header middle finish right := by
  induction left generalizing start with
  | nil => simp
  | cons b rest ih => simp [ih, and_assoc]

/-- A tiling is at least as long as its headers. -/
theorem Tiles.length_le {start finish : Nat} {blocks : List Block}
    (tiles : Tiles header start finish blocks) : start + header * blocks.length ≤ finish := by
  induction blocks generalizing start with
  | nil => simpa using le_of_eq tiles
  | cons b rest ih =>
      have later := ih tiles.2
      rw [List.length_cons, Nat.mul_succ]
      omega

/-- Every block of a tiling lies in its range. -/
theorem Tiles.within {start finish : Nat} {blocks : List Block}
    (tiles : Tiles header start finish blocks) {b : Block} (member : b ∈ blocks) :
    start ≤ b.addr ∧ b.addr + header + b.size ≤ finish := by
  obtain ⟨left, right, rfl⟩ := List.append_of_mem member
  obtain ⟨middle, prior, placed, later⟩ := tiles_append.mp tiles
  have below := prior.length_le
  have above := later.length_le
  omega

/-- Every block starts at a multiple of a unit that divides the start, the header and all sizes. -/
theorem Tiles.dvd_addr {unit start finish : Nat} {blocks : List Block}
    (tiles : Tiles header start finish blocks) (whole : unit ∣ header) (origin : unit ∣ start)
    (sizes : ∀ b ∈ blocks, unit ∣ b.size) : ∀ b ∈ blocks, unit ∣ b.addr := by
  induction blocks generalizing start with
  | nil => simp
  | cons b rest ih =>
      have first : unit ∣ b.size := sizes b (by simp)
      have further : unit ∣ start + header + b.size := Nat.dvd_add (Nat.dvd_add origin whole) first
      have later := ih tiles.2 further fun d member => sizes d (by simp [member])
      have placed : b.addr = start := tiles.1
      intro d member
      rcases List.mem_cons.mp member with rfl | behind
      · rw [placed]
        exact origin
      · exact later d behind

/-- A block of a tiling ends before every later block. -/
theorem Tiles.ordered {start finish : Nat} {blocks : List Block}
    (tiles : Tiles header start finish blocks) :
    blocks.Pairwise fun a b => a.addr + header + a.size ≤ b.addr := by
  induction blocks generalizing start with
  | nil => exact .nil
  | cons b rest ih =>
      refine .cons ?_ (ih tiles.2)
      intro later member
      have placed : b.addr = start := tiles.1
      have bound := (tiles.2.within member).1
      omega

/-- Two blocks of a tiling are equal or apart. -/
theorem Tiles.separate {start finish : Nat} {blocks : List Block}
    (tiles : Tiles header start finish blocks) {a b : Block} (left : a ∈ blocks) (right : b ∈ blocks) :
    a = b ∨ a.addr + header + a.size ≤ b.addr ∨ b.addr + header + b.size ≤ a.addr := by
  by_cases same : a = b
  · exact .inl same
  · right
    have symmetric : Std.Symm fun a b : Block =>
        a.addr + header + a.size ≤ b.addr ∨ b.addr + header + b.size ≤ a.addr :=
      ⟨fun _ _ => Or.symm⟩
    have apart : blocks.Pairwise fun a b : Block =>
        a.addr + header + a.size ≤ b.addr ∨ b.addr + header + b.size ≤ a.addr :=
      tiles.ordered.imp fun before => .inl before
    exact apart.forall left right same

/-- An address names at most one block of a tiling. -/
theorem Tiles.eq_of_addr {start finish : Nat} {blocks : List Block}
    (tiles : Tiles header start finish blocks) (positive : 0 < header) {a b : Block}
    (left : a ∈ blocks) (right : b ∈ blocks) (same : a.addr = b.addr) : a = b := by
  rcases tiles.separate left right with equal | apart | apart
  · exact equal
  · omega
  · omega

/-- One block is replaced by two that fill the same range. -/
theorem tiles_split {start finish size : Nat} {left right : List Block} {b : Block} {near far : Bool}
    (room : size + header ≤ b.size) :
    Tiles header start finish
        (left ++ ⟨b.addr, size, near⟩ :: ⟨b.addr + header + size, b.size - size - header, far⟩ :: right) ↔
      Tiles header start finish (left ++ b :: right) := by
  simp only [tiles_append, tiles_cons]
  constructor
  · rintro ⟨middle, prior, placed, -, later⟩
    refine ⟨middle, prior, placed, ?_⟩
    convert later using 1
    omega
  · rintro ⟨middle, prior, placed, later⟩
    refine ⟨middle, prior, placed, by rw [placed], ?_⟩
    convert later using 1
    omega

/-- Two neighbours are replaced by one block that fills their range. -/
theorem tiles_join {start finish : Nat} {left right : List Block} {a b : Block} {free : Bool}
    (tiles : Tiles header start finish (left ++ a :: b :: right)) :
    Tiles header start finish (left ++ ⟨a.addr, a.size + header + b.size, free⟩ :: right) := by
  rw [tiles_append] at tiles ⊢
  obtain ⟨middle, prior, placed, _, later⟩ := tiles
  refine ⟨middle, prior, placed, ?_⟩
  convert later using 1
  dsimp only
  omega

/-- The free flag does not matter to a tiling. -/
theorem tiles_flag {start finish : Nat} {left right : List Block} {b : Block} {free : Bool} :
    Tiles header start finish (left ++ { b with free := free } :: right) ↔
      Tiles header start finish (left ++ b :: right) := by
  simp [tiles_append]

/-- The free bytes count the headers of the free blocks. -/
def freeBytes (header : Nat) (blocks : List Block) : Nat :=
  (blocks.map fun b => if b.free then b.size + header else 0).sum

@[simp] theorem freeBytes_nil : freeBytes header [] = 0 := rfl

@[simp] theorem freeBytes_cons {b : Block} {rest : List Block} :
    freeBytes header (b :: rest) = (if b.free then b.size + header else 0) + freeBytes header rest := by
  simp [freeBytes]

@[simp] theorem freeBytes_append {left right : List Block} :
    freeBytes header (left ++ right) = freeBytes header left + freeBytes header right := by
  simp [freeBytes]

/-- The free bytes of a tiling fit into its range. -/
theorem Tiles.freeBytes_le {start finish : Nat} {blocks : List Block}
    (tiles : Tiles header start finish blocks) : start + freeBytes header blocks ≤ finish := by
  induction blocks generalizing start with
  | nil => simpa using le_of_eq tiles
  | cons b rest ih =>
      have later := ih tiles.2
      rw [freeBytes_cons]
      split
      · omega
      · omega

/-- The allocated bytes count the headers of the allocated blocks. -/
def allocatedBytes (header : Nat) (blocks : List Block) : Nat :=
  (blocks.map fun b => if b.free then 0 else b.size + header).sum

/-- The free and the allocated bytes fill the range of a tiling. -/
theorem Tiles.freeBytes_add {start finish : Nat} {blocks : List Block}
    (tiles : Tiles header start finish blocks) :
    start + (freeBytes header blocks + allocatedBytes header blocks) = finish := by
  induction blocks generalizing start with
  | nil => exact tiles
  | cons b rest ih =>
      have later := ih tiles.2
      have split : allocatedBytes header (b :: rest) =
          (if b.free then 0 else b.size + header) + allocatedBytes header rest := by simp [allocatedBytes]
      rw [freeBytes_cons, split]
      cases b.free with
      | true =>
          rw [if_pos rfl, if_pos rfl]
          omega
      | false =>
          rw [if_neg Bool.false_ne_true, if_neg Bool.false_ne_true]
          omega

/-- No two neighbours are both free. -/
def Coalesced (blocks : List Block) : Prop := blocks.IsChain fun a b => ¬ (a.free ∧ b.free)

theorem coalesced_cons {b : Block} {rest : List Block} :
    Coalesced (b :: rest) ↔ (∀ c ∈ rest.head?, ¬ (b.free ∧ c.free)) ∧ Coalesced rest := by
  cases rest with
  | nil => simp [Coalesced]
  | cons c others => simp [Coalesced]

section FirstFit

variable {slack size : Nat}

/-- The taken part of a block keeps its address, and a block that is much too large is cut. -/
def taken (header slack size : Nat) (b : Block) : Block :=
  if size + header + slack < b.size then ⟨b.addr, size, false⟩ else { b with free := false }

/-- What is cut off stays free. -/
def remainder (header slack size : Nat) (b : Block) : List Block :=
  if size + header + slack < b.size then [⟨b.addr + header + size, b.size - size - header, true⟩] else []

/-- Carving a block takes its first part. -/
def carve (header slack size : Nat) (b : Block) : List Block :=
  taken header slack size b :: remainder header slack size b

@[simp] theorem taken_addr {b : Block} : (taken header slack size b).addr = b.addr := by
  rw [taken]
  split <;> rfl

@[simp] theorem taken_free {b : Block} : (taken header slack size b).free = false := by
  rw [taken]
  split <;> rfl

theorem remainder_free {b c : Block} (member : c ∈ remainder header slack size b) : c.free := by
  rw [remainder] at member
  split at member
  · rw [List.mem_singleton.mp member]
  · cases member

/-- A block fits when it is free and large enough. -/
def Fits (size : Nat) (b : Block) : Prop := b.free ∧ size ≤ b.size

instance (size : Nat) (b : Block) : Decidable (Fits size b) := inferInstanceAs (Decidable (_ ∧ _))

/-- First fit takes the first block that fits. -/
def allocate (header slack size : Nat) : List Block → Option (Nat × List Block)
  | [] => none
  | b :: rest =>
      if Fits size b then some (b.addr, carve header slack size b ++ rest)
      else (allocate header slack size rest).map fun taken => (taken.1, b :: taken.2)

/-- A served request splits the list at the first block that fits. -/
theorem allocate_eq_some {blocks blocks' : List Block} {a : Nat}
    (taken : allocate header slack size blocks = some (a, blocks')) :
    ∃ left b right, blocks = left ++ b :: right ∧ (∀ c ∈ left, ¬ Fits size c) ∧ Fits size b ∧
      a = b.addr ∧ blocks' = left ++ carve header slack size b ++ right := by
  induction blocks generalizing a blocks' with
  | nil => cases taken
  | cons b rest ih =>
      rw [allocate] at taken
      split at taken
      next fits =>
          obtain ⟨rfl, rfl⟩ := Prod.mk.inj (Option.some.inj taken)
          exact ⟨[], b, rest, rfl, by simp, fits, rfl, rfl⟩
      next misses =>
          obtain ⟨⟨a', rest'⟩, later, same⟩ := Option.map_eq_some_iff.mp taken
          obtain ⟨rfl, rfl⟩ := Prod.mk.inj same
          obtain ⟨left, c, right, rfl, skipped, fits, rfl, rfl⟩ := ih later
          refine ⟨b :: left, c, right, rfl, ?_, fits, rfl, rfl⟩
          intro d member
          rcases List.mem_cons.mp member with rfl | earlier
          · exact misses
          · exact skipped d earlier

/-- A request is refused exactly when no block fits. -/
theorem allocate_eq_none {blocks : List Block} :
    allocate header slack size blocks = none ↔ ∀ b ∈ blocks, ¬ Fits size b := by
  induction blocks with
  | nil => simp [allocate]
  | cons b rest ih =>
      rw [allocate]
      split
      next fits => simp [fits]
      next misses =>
          rw [Option.map_eq_none_iff, ih]
          simp [misses]

/-- The taken part and its header leave the free bytes, also when the block is cut. -/
theorem freeBytes_carve (header slack : Nat) {b : Block} (fits : Fits size b) :
    freeBytes header (carve header slack size b) + ((taken header slack size b).size + header) =
      b.size + header := by
  obtain ⟨free, large⟩ := fits
  rw [carve, freeBytes_cons, taken_free, if_neg Bool.false_ne_true, remainder, taken]
  by_cases excess : size + header + slack < b.size
  · rw [if_pos excess, if_pos excess]
    simp only [freeBytes_cons, freeBytes_nil, if_true]
    omega
  · rw [if_neg excess, if_neg excess]
    simp

/-- Carving adds exactly the taken part to the allocated blocks. -/
theorem mem_carve_allocated {left right : List Block} {b c : Block} (free : b.free) (flag : c.free = false) :
    c ∈ left ++ carve header slack size b ++ right ↔
      c ∈ left ++ b :: right ∨ c = taken header slack size b := by
  have other : c ≠ b := by
    rintro rfl
    simp [flag] at free
  have kept : c ∉ remainder header slack size b := by
    intro member
    simpa [flag] using remainder_free member
  simp only [carve, List.mem_append, List.mem_cons, other, kept, or_false, false_or]
  tauto

/-- Carving out of a free block leaves no new pair of free neighbours. -/
theorem Coalesced.carve {left right : List Block} {b : Block} (free : b.free)
    (chain : Coalesced (left ++ b :: right)) :
    Coalesced (left ++ Library.carve header slack size b ++ right) := by
  induction left with
  | nil =>
      obtain ⟨behind, later⟩ := coalesced_cons.mp chain
      have rest : Coalesced (remainder header slack size b ++ right) := by
        rw [remainder]
        split
        · refine coalesced_cons.mpr ⟨?_, later⟩
          intro c member both
          exact behind c member ⟨free, both.2⟩
        · exact later
      exact coalesced_cons.mpr ⟨by simp, rest⟩
  | cons c rest ih =>
      obtain ⟨behind, later⟩ := coalesced_cons.mp chain
      refine coalesced_cons.mpr ⟨?_, ih later⟩
      intro d member both
      cases rest with
      | nil =>
          have first : taken header slack size b = d := Option.some.inj member
          simp [← first] at both
      | cons e others => exact behind d member both

/-- Carving keeps all sizes multiples of a unit that divides the request and the header. -/
theorem dvd_carve {unit : Nat} {left right : List Block} {b : Block} (request : unit ∣ size)
    (whole : unit ∣ header) (all : ∀ c ∈ left ++ b :: right, unit ∣ c.size) :
    ∀ c ∈ left ++ carve header slack size b ++ right, unit ∣ c.size := by
  have middle : unit ∣ b.size := all b (by simp)
  have near : unit ∣ (taken header slack size b).size := by
    rw [taken]
    split
    · exact request
    · exact middle
  have far : ∀ c ∈ remainder header slack size b, unit ∣ c.size := by
    intro c member
    rw [remainder] at member
    split at member
    · rw [List.mem_singleton.mp member]
      exact Nat.dvd_sub (Nat.dvd_sub middle request) whole
    · cases member
  intro c member
  simp only [carve, List.mem_append, List.mem_cons] at member
  rcases member with (front | rfl | cut) | back
  · exact all c (by simp [front])
  · exact near
  · exact far c cut
  · exact all c (by simp [back])

end FirstFit

section Coalescing

/-- A free block absorbs the free block behind it. -/
def glue (header : Nat) (b : Block) : List Block → List Block
  | [] => [b]
  | c :: rest =>
      if b.free ∧ c.free then ⟨b.addr, b.size + header + c.size, true⟩ :: rest else b :: c :: rest

/-- Coalescing joins all runs of free neighbours. -/
def coalesce (header : Nat) (blocks : List Block) : List Block := blocks.foldr (glue header) []

/-- Marking frees the block at an address. -/
def mark (a : Nat) (blocks : List Block) : List Block :=
  blocks.map fun b => if b.addr = a then { b with free := true } else b

/-- A release marks the block and coalesces. -/
def release (header a : Nat) (blocks : List Block) : List Block := coalesce header (mark a blocks)

theorem coalesced_glue {b : Block} {rest : List Block} (chain : Coalesced rest) :
    Coalesced (glue header b rest) := by
  cases rest with
  | nil => exact List.isChain_singleton b
  | cons c others =>
      obtain ⟨behind, later⟩ := coalesced_cons.mp chain
      rw [glue]
      split
      next both =>
          refine coalesced_cons.mpr ⟨?_, later⟩
          intro d member clash
          exact behind d member ⟨both.2, clash.2⟩
      next apart => exact coalesced_cons.mpr ⟨by simpa using apart, chain⟩

/-- Coalescing leaves no two free neighbours. -/
theorem coalesced_coalesce (blocks : List Block) : Coalesced (coalesce header blocks) := by
  induction blocks with
  | nil => exact List.isChain_nil
  | cons b rest ih => exact coalesced_glue ih

/-- A property of single blocks that survives joining survives coalescing. -/
theorem forall_mem_coalesce {good : Block → Prop} {blocks : List Block}
    (join : ∀ b c, good b → good c → good ⟨b.addr, b.size + header + c.size, true⟩)
    (all : ∀ b ∈ blocks, good b) : ∀ b ∈ coalesce header blocks, good b := by
  induction blocks with
  | nil => simp [coalesce]
  | cons b rest ih =>
      have later := ih fun c member => all c (by simp [member])
      have first := all b (by simp)
      change ∀ c ∈ glue header b (coalesce header rest), good c
      cases shape : coalesce header rest with
      | nil => simpa [glue] using first
      | cons c others =>
          rw [shape] at later
          have behind := List.forall_mem_cons.mp later
          rw [glue]
          split
          · exact List.forall_mem_cons.mpr ⟨join b c first behind.1, behind.2⟩
          · exact List.forall_mem_cons.mpr ⟨first, later⟩

/-- Coalescing keeps exactly the allocated blocks. -/
theorem mem_coalesce_allocated {blocks : List Block} {c : Block} (flag : c.free = false) :
    c ∈ coalesce header blocks ↔ c ∈ blocks := by
  induction blocks with
  | nil => rfl
  | cons b rest ih =>
      change c ∈ glue header b (coalesce header rest) ↔ c ∈ b :: rest
      rw [List.mem_cons, ← ih]
      cases coalesce header rest with
      | nil => simp [glue]
      | cons d others =>
          rw [glue]
          split
          next both =>
              -- Neither of the joined blocks is allocated.
              have first : c ≠ b := by
                rintro rfl
                simp [flag] at both
              have second : c ≠ d := by
                rintro rfl
                simp [flag] at both
              have joined : c ≠ ⟨b.addr, b.size + header + d.size, true⟩ := by
                rintro rfl
                cases flag
              simp [first, second, joined]
          next => simp

/-- A release removes exactly the released block from the allocated ones. -/
theorem mem_release_allocated {a : Nat} {blocks : List Block} {c : Block} (flag : c.free = false) :
    c ∈ release header a blocks ↔ c ∈ blocks ∧ c.addr ≠ a := by
  rw [release, mem_coalesce_allocated flag, mark, List.mem_map]
  constructor
  · rintro ⟨b, member, rfl⟩
    split at flag
    next => cases flag
    next other =>
        rw [if_neg other]
        exact ⟨member, other⟩
  · rintro ⟨member, other⟩
    exact ⟨c, member, if_neg other⟩

/-- A header swallowed by a merge stays counted. -/
theorem freeBytes_glue (b : Block) (rest : List Block) :
    freeBytes header (glue header b rest) = freeBytes header (b :: rest) := by
  cases rest with
  | nil => rfl
  | cons c others =>
      rw [glue]
      split
      next both =>
          simp only [freeBytes_cons, both.1, both.2, if_true]
          omega
      next => rfl

/-- Coalescing keeps the free bytes. -/
theorem freeBytes_coalesce (blocks : List Block) :
    freeBytes header (coalesce header blocks) = freeBytes header blocks := by
  induction blocks with
  | nil => rfl
  | cons b rest ih =>
      change freeBytes header (glue header b (coalesce header rest)) = _
      rw [freeBytes_glue, freeBytes_cons, ih, freeBytes_cons]

/-- A block keeps its address and its flag when it absorbs its neighbour. -/
theorem glue_eq_cons (header : Nat) (b : Block) (rest : List Block) :
    ∃ c others, glue header b rest = c :: others ∧ c.addr = b.addr ∧ c.free = b.free := by
  cases rest with
  | nil => exact ⟨b, [], rfl, rfl, rfl⟩
  | cons c others =>
      rw [glue]
      split
      next both => exact ⟨_, _, rfl, rfl, both.1.symm⟩
      next => exact ⟨_, _, rfl, rfl, rfl⟩

/-- Blocks in front of a coalesced point stay as they are. -/
theorem foldr_glue_eq_append {left rest : List Block} {a b : Block} (same : b.free = a.free)
    (chain : Coalesced (left ++ [a])) : left.foldr (glue header) (b :: rest) = left ++ b :: rest := by
  induction left with
  | nil => rfl
  | cons c others ih =>
      obtain ⟨behind, later⟩ := coalesced_cons.mp chain
      rw [List.foldr_cons, ih later]
      cases others with
      | nil =>
          have apart : ¬ (c.free ∧ b.free) := by
            rw [same]
            exact behind a rfl
          exact if_neg apart
      | cons d others => exact if_neg (behind d rfl)

theorem Coalesced.left {left right : List Block} (chain : Coalesced (left ++ right)) : Coalesced left :=
  List.IsChain.left_of_append chain

theorem Coalesced.right {left right : List Block} (chain : Coalesced (left ++ right)) : Coalesced right :=
  List.IsChain.right_of_append chain

/-- Coalescing changes nothing where no two neighbours are free. -/
theorem coalesce_eq_self {blocks : List Block} (chain : Coalesced blocks) :
    coalesce header blocks = blocks := by
  induction blocks with
  | nil => rfl
  | cons b rest ih =>
      obtain ⟨behind, later⟩ := coalesced_cons.mp chain
      change glue header b (coalesce header rest) = b :: rest
      rw [ih later]
      cases rest with
      | nil => rfl
      | cons c others => exact if_neg (behind c rfl)

theorem mark_eq_self {a : Nat} {blocks : List Block} (absent : ∀ b ∈ blocks, b.addr ≠ a) :
    mark a blocks = blocks := by
  calc mark a blocks
      = blocks.map id := List.map_congr_left fun b member => if_neg (absent b member)
    _ = blocks := List.map_id blocks

/-- Marking changes the one block at the address. -/
theorem mark_split {start finish : Nat} {left right : List Block} {b : Block} (positive : 0 < header)
    (tiles : Tiles header start finish (left ++ b :: right)) :
    mark b.addr (left ++ b :: right) = left ++ { b with free := true } :: right := by
  obtain ⟨_, later, order⟩ := List.pairwise_append.mp tiles.ordered
  have prior : mark b.addr left = left := by
    apply mark_eq_self
    intro c member
    have before := order c member b (by simp)
    omega
  have rest : mark b.addr right = right := by
    apply mark_eq_self
    intro c member
    have after := List.rel_of_pairwise_cons later member
    omega
  calc mark b.addr (left ++ b :: right)
      = mark b.addr left ++ { b with free := true } :: mark b.addr right := by simp [mark]
    _ = left ++ { b with free := true } :: right := by rw [prior, rest]

section Release

variable {start finish : Nat} {left right : List Block} {a b : Block}

/-- A release adds the block and its header to the free bytes. -/
theorem freeBytes_release (positive : 0 < header) (tiles : Tiles header start finish (left ++ b :: right))
    (held : b.free = false) :
    freeBytes header (release header b.addr (left ++ b :: right)) =
      freeBytes header (left ++ b :: right) + (b.size + header) := by
  rw [release, freeBytes_coalesce, mark_split positive tiles]
  simp only [freeBytes_append, freeBytes_cons, held, if_true, Bool.false_eq_true, if_false]
  omega

/-- A release at the front absorbs the block behind. -/
theorem release_head (positive : 0 < header) (tiles : Tiles header start finish (b :: right))
    (chain : Coalesced (b :: right)) :
    release header b.addr (b :: right) = glue header { b with free := true } right := by
  have marked : mark b.addr (b :: right) = { b with free := true } :: right :=
    mark_split positive (show Tiles header start finish ([] ++ b :: right) from tiles)
  rw [release, marked]
  change glue header _ (coalesce header right) = _
  rw [coalesce_eq_self (coalesced_cons.mp chain).2]

/-- Elsewhere a release absorbs the block behind and is absorbed by the block in front. -/
theorem release_inner (positive : 0 < header)
    (tiles : Tiles header start finish (left ++ a :: b :: right))
    (chain : Coalesced (left ++ a :: b :: right)) :
    release header b.addr (left ++ a :: b :: right) =
      left ++ glue header a (glue header { b with free := true } right) := by
  have regroup (c : Block) : left ++ a :: c :: right = (left ++ [a]) ++ c :: right := by simp
  have marked : mark b.addr (left ++ a :: b :: right) = left ++ a :: { b with free := true } :: right := by
    rw [regroup] at tiles ⊢
    rw [mark_split positive tiles, regroup]
  have prior : Coalesced (left ++ [a]) := by
    rw [regroup] at chain
    exact chain.left
  have rest : Coalesced right := (coalesced_cons.mp (coalesced_cons.mp chain.right).2).2
  obtain ⟨c, others, shape, -, same⟩ :=
    glue_eq_cons header a (glue header { b with free := true } right)
  rw [release, marked, coalesce, List.foldr_append]
  change left.foldr (glue header) (glue header a (glue header _ (coalesce header right))) = _
  rw [coalesce_eq_self rest, shape]
  exact foldr_glue_eq_append same prior

end Release

section Commutation

variable {a b : Nat} {blocks : List Block}

/-- Gluing twice in a row joins three free blocks into one. -/
theorem glue_glue {x y : Block} (first : x.free) (second : y.free) (rest : List Block) :
    glue header x (glue header y rest) = glue header ⟨x.addr, x.size + header + y.size, true⟩ rest := by
  cases rest with
  | nil => simp [glue, first, second]
  | cons z others =>
      by_cases third : z.free
      · simp [glue, first, second, third, Nat.add_assoc]
      · simp [glue, first, second, third]

/-- A free block may be marked at will. -/
theorem mark_cons_free {x : Block} (free : x.free) (rest : List Block) :
    mark a (x :: rest) = x :: mark a rest := by
  have same : { x with free := true } = x := by rw [← free]
  rw [mark, List.map_cons, same, ite_self, ← mark]

/-- Coalescing first does not matter to a later release. -/
theorem coalesce_mark_coalesce (a : Nat) (blocks : List Block) :
    coalesce header (mark a (coalesce header blocks)) = coalesce header (mark a blocks) := by
  induction blocks with
  | nil => rfl
  | cons x rest ih =>
      change coalesce header (mark a (glue header x (coalesce header rest))) =
        glue header (if x.addr = a then { x with free := true } else x) (coalesce header (mark a rest))
      rw [← ih]
      cases coalesce header rest with
      | nil => rfl
      | cons y others =>
          by_cases both : x.free ∧ y.free
          -- Two free neighbours are already one block, and marking does not change either.
          · have same : { x with free := true } = x := by rw [← both.1]
            rw [same, ite_self, mark_cons_free both.2, glue, if_pos both, mark_cons_free rfl]
            exact (glue_glue both.1 both.2 _).symm
          · rw [glue, if_neg both]
            rfl

theorem mark_comm (a b : Nat) (blocks : List Block) : mark a (mark b blocks) = mark b (mark a blocks) := by
  simp only [mark, List.map_map]
  apply List.map_congr_left
  intro x _
  simp only [Function.comp_apply]
  split_ifs <;> rfl

/-- Two releases commute. -/
theorem release_comm (a b : Nat) (blocks : List Block) :
    release header a (release header b blocks) = release header b (release header a blocks) := by
  rw [release, release, coalesce_mark_coalesce, mark_comm, ← coalesce_mark_coalesce]
  rfl

end Commutation

section Undo

variable {start finish slack size : Nat} {left right : List Block} {b : Block}

/-- The taken part and what was cut off coalesce to the block again. -/
theorem coalesce_carve (free : b.free) :
    coalesce header ({ taken header slack size b with free := true } :: (remainder header slack size b ++ right)) =
      coalesce header (b :: right) := by
  rw [taken, remainder]
  by_cases excess : size + header + slack < b.size
  · rw [if_pos excess, if_pos excess]
    have whole : size + header + (b.size - size - header) = b.size := by omega
    change glue header _ (glue header _ (coalesce header right)) = glue header b (coalesce header right)
    rw [glue_glue rfl rfl]
    simp only [whole, ← free]
  · rw [if_neg excess, if_neg excess]
    simp only [List.nil_append, ← free]

/-- A release of the taken part gives the list before the request back. -/
theorem release_carve (positive : 0 < header) (free : b.free) (chain : Coalesced (left ++ b :: right))
    (tiles : Tiles header start finish (left ++ carve header slack size b ++ right)) :
    release header b.addr (left ++ carve header slack size b ++ right) = left ++ b :: right := by
  have shape : left ++ carve header slack size b ++ right =
      left ++ taken header slack size b :: (remainder header slack size b ++ right) := by
    rw [List.append_assoc]
    rfl
  have address : b.addr = (taken header slack size b).addr := taken_addr.symm
  rw [shape] at tiles ⊢
  calc release header b.addr (left ++ taken header slack size b :: (remainder header slack size b ++ right))
      = coalesce header (left ++
          { taken header slack size b with free := true } :: (remainder header slack size b ++ right)) := by
        rw [release, address, mark_split positive tiles]
    _ = coalesce header (left ++ b :: right) := by
        rw [coalesce, List.foldr_append, ← coalesce, coalesce_carve free, coalesce, ← List.foldr_append, ← coalesce]
    _ = left ++ b :: right := coalesce_eq_self chain

end Undo

/-- Coalesced blocks that are all free are one block. -/
theorem Coalesced.eq_singleton {b : Block} {rest : List Block} (chain : Coalesced (b :: rest))
    (free : ∀ c ∈ b :: rest, c.free) : rest = [] := by
  cases rest with
  | nil => rfl
  | cons c others =>
      have apart := (coalesced_cons.mp chain).1 c rfl
      exact absurd ⟨free b (by simp), free c (by simp)⟩ apart

end Coalescing

end OsKernel.Library
