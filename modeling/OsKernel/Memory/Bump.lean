import Mathlib
import OsKernel.Library.Runs
import OsKernel.Memory.Heap

/-
This file models the bump allocator of `process/memory.c` and its copy in `mm/process_mm.c`.
A pointer is an offset into the static array `heap`, and `NULL` is `none`.
-/

namespace OsKernel.Bump
open Library
open Mm (add64)

/-- The static array `heap` and the counter `heap_used`. -/
structure Arena where
  heap : Bytes
  heapUsed : Nat

/-- The bound is checked first, and the counter is rounded up to 4 bytes afterwards. -/
def bump (heapSize : Nat) (a : Arena) (size : Nat) : Option Nat × Arena :=
  if add64 a.heapUsed size > heapSize then (none, a)
  else
    let ptr := a.heapUsed
    let used := add64 a.heapUsed size
    (some ptr, { a with heapUsed := add64 used 3 / 4 * 4 })

/-- `memset` fills a range of the array with one byte. -/
def memset (m : Bytes) (ptr : Nat) (value : UInt8) (count : Nat) : Bytes :=
  fun x => if ptr ≤ x ∧ x < ptr + count then value else m x

/-- A structure is allocated and cleared. -/
def bumpCleared (heapSize : Nat) (a : Arena) (size : Nat) : Option Nat × Arena :=
  match bump heapSize a size with
  | (none, a) => (none, a)
  | (some ptr, a) => (some ptr, { a with heap := memset a.heap ptr 0 size })

/-- The structure `mm_struct_t` has a pointer and seven `uint32_t` fields, padded to 40 bytes. -/
def sizeofMmStruct : Nat := 40

namespace ProcessMemory

def heapSize : Nat := 1024 * 1024

def kmalloc (a : Arena) (size : Nat) : Option Nat × Arena := bump heapSize a size

/-- `kfree` releases nothing. -/
def kfree (a : Arena) (_ptr : Option Nat) : Arena := a

def mmCreate (a : Arena) : Option Nat × Arena := bumpCleared heapSize a sizeofMmStruct

def allocateKernelStack (a : Arena) (size : Nat) : Option Nat × Arena := kmalloc a size

def freeKernelStack (a : Arena) (stack : Option Nat) : Arena := kfree a stack

end ProcessMemory

namespace ProcessMm

def heapSize : Nat := 1024 * 1024

def kmalloc (a : Arena) (size : Nat) : Option Nat × Arena := bump heapSize a size

/-- `kfree` releases nothing here either. -/
def kfree (a : Arena) (_ptr : Option Nat) : Arena := a

def mmCreate (a : Arena) : Option Nat × Arena := bumpCleared heapSize a sizeofMmStruct

def allocateKernelStack (a : Arena) (size : Nat) : Option Nat × Arena := kmalloc a size

def freeKernelStack (a : Arena) (stack : Option Nat) : Arena := kfree a stack

end ProcessMm

/-- The two files define the same interface. -/
inductive File
  | processMemory
  | processMm

/-- A client asks for memory or gives it back. -/
inductive Call
  | kmalloc (size : Nat)
  | allocateKernelStack (size : Nat)
  | mmCreate
  | kfree (ptr : Option Nat)
  | freeKernelStack (stack : Option Nat)

def File.heapSize : File → Nat
  | .processMemory => ProcessMemory.heapSize
  | .processMm => ProcessMm.heapSize

/-- The answer of a call and the arena behind it, where a call that gives back has no answer. -/
def File.exec : File → Arena → Call → Option Nat × Arena
  | .processMemory, a, .kmalloc size => ProcessMemory.kmalloc a size
  | .processMemory, a, .allocateKernelStack size => ProcessMemory.allocateKernelStack a size
  | .processMemory, a, .mmCreate => ProcessMemory.mmCreate a
  | .processMemory, a, .kfree ptr => (none, ProcessMemory.kfree a ptr)
  | .processMemory, a, .freeKernelStack stack => (none, ProcessMemory.freeKernelStack a stack)
  | .processMm, a, .kmalloc size => ProcessMm.kmalloc a size
  | .processMm, a, .allocateKernelStack size => ProcessMm.allocateKernelStack a size
  | .processMm, a, .mmCreate => ProcessMm.mmCreate a
  | .processMm, a, .kfree ptr => (none, ProcessMm.kfree a ptr)
  | .processMm, a, .freeKernelStack stack => (none, ProcessMm.freeKernelStack a stack)

/-- The number of bytes that a call asks `kmalloc` for. -/
def Call.request : Call → Option Nat
  | .kmalloc size => some size
  | .allocateKernelStack size => some size
  | .mmCreate => some sizeofMmStruct
  | .kfree _ => none
  | .freeKernelStack _ => none

/-- A granted range. -/
structure Grant where
  offset : Nat
  size : Nat
  deriving DecidableEq

/-- The arena together with all ranges granted so far, the oldest first. -/
structure Record where
  arena : Arena
  grants : List Grant

/-- The range that a call adds to the record. -/
def grantOf (answer : Option Nat) (c : Call) : List Grant :=
  match answer, c.request with
  | some offset, some size => [⟨offset, size⟩]
  | _, _ => []

/-- The sum of the counter and the request fits 64 bits. -/
def Representable (a : Arena) (c : Call) : Prop := ∀ size ∈ c.request, a.heapUsed + size ≤ 2 ^ 64 - 1

instance (a : Arena) (c : Call) : Decidable (Representable a c) :=
  inferInstanceAs (Decidable (∀ size ∈ c.request, a.heapUsed + size ≤ 2 ^ 64 - 1))

/-- The record after a call. -/
def Record.next (file : File) (r : Record) (c : Call) : Record :=
  ⟨(file.exec r.arena c).2, r.grants ++ grantOf (file.exec r.arena c).1 c⟩

/-- A call is answered by the file and recorded. -/
inductive Step (file : File) : Record → Call → Record → Prop
  | call {r : Record} {c : Call} (representable : Representable r.arena c) :
      Step file r c (r.next file c)

/-- The array has any contents, and nothing is used. -/
def start (contents : Bytes) : Record := ⟨⟨contents, 0⟩, []⟩

section Calls

variable {file : File} {heapSize size : Nat} {a : Arena} {c : Call}

/-- Without a wrap the answer is the old counter, which then moves to the next multiple of 4. -/
theorem bump_eq (limited : heapSize < 2 ^ 63) (representable : a.heapUsed + size ≤ 2 ^ 64 - 1) :
    bump heapSize a size = if a.heapUsed + size > heapSize then (none, a)
      else (some a.heapUsed, { a with heapUsed := (a.heapUsed + size + 3) / 4 * 4 }) := by
  have sum : add64 a.heapUsed size = a.heapUsed + size := Nat.mod_eq_of_lt (by omega)
  simp only [bump, sum]
  split
  next => rfl
  next fits =>
      have rounded : add64 (a.heapUsed + size) 3 = a.heapUsed + size + 3 := Nat.mod_eq_of_lt (by omega)
      rw [rounded]

theorem heapSize_eq (file : File) : file.heapSize = 1048576 := by
  cases file <;> rfl

/-- A cleared structure is placed as any other request. -/
theorem bumpCleared_bump : (bumpCleared heapSize a size).1 = (bump heapSize a size).1 ∧
    (bumpCleared heapSize a size).2.heapUsed = (bump heapSize a size).2.heapUsed ∧
    ((bump heapSize a size).1 = none → (bumpCleared heapSize a size).2 = (bump heapSize a size).2) := by
  unfold bumpCleared
  split
  next refused => simp [refused]
  next granted => simp [granted]

/-- Every call that asks for memory is placed by `bump`. -/
theorem exec_request (file : File) (a : Arena) (asked : c.request = some size) :
    (file.exec a c).1 = (bump file.heapSize a size).1 ∧
    (file.exec a c).2.heapUsed = (bump file.heapSize a size).2.heapUsed ∧
    ((bump file.heapSize a size).1 = none → (file.exec a c).2 = (bump file.heapSize a size).2) := by
  cases c with
  | kmalloc n | allocateKernelStack n =>
      obtain rfl : n = size := Option.some.inj asked
      cases file <;> exact ⟨rfl, rfl, fun _ => rfl⟩
  | mmCreate =>
      obtain rfl : sizeofMmStruct = size := Option.some.inj asked
      cases file <;> exact bumpCleared_bump
  | kfree ptr | freeKernelStack stack => cases asked

/-- A call that gives memory back changes nothing. -/
theorem exec_return (silent : c.request = none) : file.exec a c = (none, a) := by
  cases c with
  | kmalloc n | allocateKernelStack n => cases silent
  | mmCreate => cases silent
  | kfree ptr | freeKernelStack stack => cases file <;> rfl

/-- A call is refused when it does not fit, and otherwise granted at the counter. -/
theorem exec_cases (file : File) (asked : c.request = some size) (representable : Representable a c) :
    (a.heapUsed + size > file.heapSize ∧ file.exec a c = (none, a)) ∨
    (a.heapUsed + size ≤ file.heapSize ∧ (file.exec a c).1 = some a.heapUsed ∧
      (file.exec a c).2.heapUsed = (a.heapUsed + size + 3) / 4 * 4) := by
  obtain ⟨answer, counter, same⟩ := exec_request file a asked
  have limited : file.heapSize < 2 ^ 63 := by
    rw [heapSize_eq]
    norm_num
  have placed := bump_eq limited (representable size asked)
  by_cases large : a.heapUsed + size > file.heapSize
  · rw [if_pos large] at placed
    rw [placed] at answer same
    exact .inl ⟨large, Prod.ext answer (same rfl)⟩
  · rw [if_neg large] at placed
    rw [placed] at answer counter
    exact .inr ⟨by omega, answer, counter⟩

end Calls

/-- The granted ranges lie in order below the counter. -/
structure Packed (file : File) (r : Record) : Prop where
  aligned : 4 ∣ r.arena.heapUsed
  bounded : r.arena.heapUsed ≤ file.heapSize
  offsets : ∀ g ∈ r.grants, 4 ∣ g.offset ∧ g.offset + g.size ≤ r.arena.heapUsed
  ordered : r.grants.Pairwise fun g later => g.offset + g.size ≤ later.offset

theorem packed_start (file : File) (contents : Bytes) : Packed file (start contents) where
  aligned := Nat.dvd_zero 4
  bounded := Nat.zero_le _
  offsets := by
    intro g member
    cases member
  ordered := List.Pairwise.nil

/-- A call keeps the ranges packed. -/
theorem Packed.step {file : File} {r r' : Record} {c : Call} (packed : Packed file r) (taken : Step file r c r') :
    Packed file r' := by
  obtain ⟨representable⟩ := taken
  unfold Record.next
  cases asked : c.request with
  | none =>
      rw [exec_return asked]
      simpa [grantOf] using packed
  | some size =>
      have aligned := packed.aligned
      rcases exec_cases file asked representable with ⟨_, refused⟩ | ⟨fits, granted, counter⟩
      · rw [refused]
        simpa [grantOf] using packed
      -- The end of the new range is rounded up, and the array's size is a multiple of 4.
      · have added : grantOf (file.exec r.arena c).1 c = [⟨r.arena.heapUsed, size⟩] := by
          simp [grantOf, granted, asked]
        have whole := heapSize_eq file
        rw [added]
        refine ⟨?_, ?_, ?_, ?_⟩
        · rw [counter]
          exact Nat.dvd_mul_left 4 _
        · rw [counter]
          omega
        · intro g member
          rw [counter]
          rcases List.mem_append.mp member with earlier | new
          · have known := packed.offsets g earlier
            omega
          · obtain rfl := List.mem_singleton.mp new
            refine ⟨aligned, ?_⟩
            change r.arena.heapUsed + size ≤ _
            omega
        · rw [List.pairwise_append]
          refine ⟨packed.ordered, List.pairwise_singleton _ _, ?_⟩
          intro g earlier later new
          obtain rfl := List.mem_singleton.mp new
          exact (packed.offsets g earlier).2

/-- The ranges of all results are inside the array and apart, and only a request that does not fit fails. -/
structure BumpSafe (file : File) (r : Record) : Prop where
  aligned : 4 ∣ r.arena.heapUsed
  bounded : r.arena.heapUsed ≤ file.heapSize
  inside : ∀ g ∈ r.grants, 4 ∣ g.offset ∧ g.offset + g.size ≤ file.heapSize
  increasing : r.grants.Pairwise fun g later => g.offset + g.size ≤ later.offset
  disjoint : r.grants.Pairwise fun g later =>
    Disjoint (Set.Ico g.offset (g.offset + g.size)) (Set.Ico later.offset (later.offset + later.size))
  refused : ∀ c size, c.request = some size → Representable r.arena c →
    ((file.exec r.arena c).1 = none ↔ r.arena.heapUsed + size > file.heapSize)
  unchanged : ∀ c, Representable r.arena c → (file.exec r.arena c).1 = none → (file.exec r.arena c).2 = r.arena

/-- Packed ranges are safe. -/
theorem Packed.safe {file : File} {r : Record} (packed : Packed file r) : BumpSafe file r where
  aligned := packed.aligned
  bounded := packed.bounded
  inside := by
    intro g member
    obtain ⟨multiple, below⟩ := packed.offsets g member
    exact ⟨multiple, below.trans packed.bounded⟩
  increasing := packed.ordered
  disjoint := by
    apply packed.ordered.imp
    intro g later order
    rw [Set.disjoint_left]
    intro x first second
    have upper := first.2
    have lower := second.1
    omega
  refused := by
    intro c size asked representable
    rcases exec_cases file asked representable with ⟨large, refused⟩ | ⟨fits, granted, _⟩
    · simp [refused, large]
    · simp [granted, Nat.not_lt.mpr fits]
  unchanged := by
    intro c representable failed
    cases asked : c.request with
    | none => rw [exec_return asked]
    | some size =>
        rcases exec_cases file asked representable with ⟨_, refused⟩ | ⟨_, granted, _⟩
        · rw [refused]
        · rw [granted] at failed
          cases failed

/-- Every run of either file keeps the ranges packed. -/
theorem bump_run_packed {file : File} {contents : Bytes} {calls : List Call} {r : Record}
    (run : Run (Step file) (start contents) calls r) : Packed file r := by
  apply run.invariant (fun _ r => Packed file r) (packed_start file contents)
  intro _ _ _ _ _ earlier taken
  exact earlier.step taken

/-- In every run of either file the allocator is safe. -/
theorem bump_run_safe {file : File} {contents : Bytes} {calls : List Call} {r : Record}
    (run : Run (Step file) (start contents) calls r) : BumpSafe file r := (bump_run_packed run).safe

/-- The sample fills the array to its last byte, is refused, and gives a stack back. -/
theorem bump_run_safe_sample : ∃ r, Run (Step .processMemory) (start fun _ => 0)
      [.kmalloc 10, .mmCreate, .allocateKernelStack 4096, .kmalloc 1044427, .kmalloc 1, .freeKernelStack (some 52)] r ∧
    r.grants = [⟨0, 10⟩, ⟨12, 40⟩, ⟨52, 4096⟩, ⟨4148, 1044427⟩] ∧ r.arena.heapUsed = 1048576 ∧
    BumpSafe .processMemory r := by
  have run : Run (Step .processMemory) (start fun _ => 0)
      [.kmalloc 10, .mmCreate, .allocateKernelStack 4096, .kmalloc 1044427, .kmalloc 1, .freeKernelStack (some 52)] _ :=
    .snoc (.snoc (.snoc (.snoc (.snoc (.snoc .nil (.call (by decide))) (.call (by decide))) (.call (by decide)))
      (.call (by decide))) (.call (by decide))) (.call (by decide))
  exact ⟨_, run, by decide, by decide, bump_run_safe run⟩

end OsKernel.Bump
