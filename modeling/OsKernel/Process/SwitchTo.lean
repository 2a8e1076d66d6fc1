import Mathlib.Data.BitVec
import OsKernel.Process.ContextSwitch

/-
This file models `__switch_to` of `switch.S` instruction by instruction.
The code takes the field `context` of a process for the saved registers themselves, but it is a pointer to them.
-/

namespace OsKernel.Switch
open Library Proc

/-- The offset of `context` in `struct process`. -/
def contextOffset : Word := 0x20

/-- The first half computes the two addresses and stores the registers behind the first one. -/
def saveCode : List Instr :=
  [.addImm contextOffset .rdi,
   .addImm contextOffset .rsi,
   .store .rax 0x00 .rdi,
   .store .rbx 0x08 .rdi,
   .store .rcx 0x10 .rdi,
   .store .rdx 0x18 .rdi,
   .store .rsi 0x20 .rdi,
   .store .rdi 0x28 .rdi,
   .store .rbp 0x30 .rdi,
   -- The stack pointer that the caller had before the call.
   .lea 8 .rsp .rax,
   .store .rax 0x38 .rdi,
   .store .r8 0x40 .rdi,
   .store .r9 0x48 .rdi,
   .store .r10 0x50 .rdi,
   .store .r11 0x58 .rdi,
   .store .r12 0x60 .rdi,
   .store .r13 0x68 .rdi,
   .store .r14 0x70 .rdi,
   .store .r15 0x78 .rdi,
   .load 0 .rsp .rax,
   .store .rax 0x90 .rdi,
   .pushfq,
   .popq .rax,
   .store .rax 0x98 .rdi]

/-- The second half loads the registers from behind the second address and returns. -/
def restoreCode : List Instr :=
  [.move .rsi .r11,
   .load 0x00 .r11 .rax,
   .load 0x08 .r11 .rbx,
   .load 0x10 .r11 .rcx,
   .load 0x18 .r11 .rdx,
   .load 0x30 .r11 .rbp,
   .load 0x40 .r11 .r8,
   .load 0x48 .r11 .r9,
   .load 0x50 .r11 .r10,
   .load 0x60 .r11 .r12,
   .load 0x68 .r11 .r13,
   .load 0x70 .r11 .r14,
   .load 0x78 .r11 .r15,
   .load 0x98 .r11 .rax,
   .pushq .rax,
   .popfq,
   .load 0x38 .r11 .rsp,
   .load 0x20 .r11 .rsi,
   .load 0x28 .r11 .rdi,
   .load 0x58 .r11 .r11,
   .ret]

/-- `__switch_to` runs with `prev` in `rdi` and `next` in `rsi`, and its log starts empty. -/
def switchTo (c : Core) : Core := runCode (saveCode ++ restoreCode) { c with written := [] }

/-- The cells of an object. -/
def Cells (a : Word) (size : Nat) (x : Word) : Prop := a.toNat ≤ x.toNat ∧ x.toNat < a.toNat + size

/-- An object lies in the address space and has no cell in common with another set of cells. -/
structure Placed (a : Word) (size : Nat) (others : Word → Prop) : Prop where
  bounded : a.toNat + size ≤ 2 ^ 64
  apart : ∀ x, Cells a size x → ¬ others x

/-- The field `context` of a process. -/
def contextOf (c : Core) (proc : Word) : Word := c.mem (proc + contextOffset)

/-- A call of `__switch_to`: the two processes, their contexts and the stacks are apart,
and the stack pointer is on a stack with room for one push. -/
structure Layout (c : Core) (onStack : Word → Prop) (prev next : Word) : Prop where
  first : c.reg .rdi = prev
  second : c.reg .rsi = next
  prevPlaced : Placed prev sizeofProcess fun x => Cells next sizeofProcess x ∨
    Cells (contextOf c prev) sizeofContext x ∨ Cells (contextOf c next) sizeofContext x ∨ onStack x
  nextPlaced : Placed next sizeofProcess fun x =>
    Cells (contextOf c prev) sizeofContext x ∨ Cells (contextOf c next) sizeofContext x ∨ onStack x
  prevContext : Placed (contextOf c prev) sizeofContext fun x =>
    Cells (contextOf c next) sizeofContext x ∨ onStack x
  nextContext : Placed (contextOf c next) sizeofContext onStack
  returnAddress : onStack (c.reg .rsp)
  pushRoom : onStack (c.reg .rsp - 8)

/-- The call writes only the context of `prev` and the stacks, and keeps both processes. -/
structure SavesIntoContext (c : Core) (onStack : Word → Prop) (prev next : Word) : Prop where
  footprint : ∀ x ∈ (switchTo c).written, Cells (contextOf c prev) sizeofContext x ∨ onStack x
  fields : ∀ x, Cells prev sizeofProcess x ∨ Cells next sizeofProcess x → (switchTo c).mem x = c.mem x

/-- A later call switches from `y` to `prev`, and nothing of `prev` was touched since the first call. -/
structure Untouched (c later : Core) (onStack : Word → Prop) (prev y : Word) : Prop where
  first : later.reg .rdi = y
  second : later.reg .rsi = prev
  placed : Placed y sizeofProcess fun x => Cells prev sizeofProcess x ∨ onStack x
  pushRoom : onStack (later.reg .rsp - 8)
  process : ∀ x, Cells prev sizeofProcess x → later.mem x = (switchTo c).mem x
  context : ∀ x, Cells (contextOf c prev) sizeofContext x → later.mem x = (switchTo c).mem x
  stack : ∀ x, onStack x → later.mem x = (switchTo c).mem x

/-- The later call returns to where the first one was called, with the registers of that time. -/
structure ReturnsTo (c final : Core) : Prop where
  place : final.rip = c.mem (c.reg .rsp)
  registers : ∀ r ∈ [Reg.rbx, .rbp, .r12, .r13, .r14, .r15], final.reg r = c.reg r
  stack : final.reg .rsp = c.reg .rsp + 8

section Code

variable {c later : Core} {onStack : Word → Prop} {prev next y x : Word}

/-- The first store goes into the process. -/
theorem switchTo_writes_process (c : Core) : c.reg .rdi + 0x20#64 ∈ (switchTo c).written := by
  have first : c.reg .rdi + 0x20#64 ∈ (runCode (saveCode.take 3) { c with written := [] }).written := by
    simp [saveCode, runCode, contextOffset]
  rw [switchTo, ← List.take_append_drop 3 saveCode, List.append_assoc, runCode_append]
  exact (runCode_frame _ _).1 first

/-- The loaded stack pointer is popped once by the return. -/
theorem switchTo_rsp (c : Core) :
    (switchTo c).reg .rsp = (switchTo c).mem (c.reg .rsi + 0x58#64) + 8#64 := by
  simp [switchTo, saveCode, restoreCode, runCode, contextOffset, BitVec.add_assoc]

/-- The saved stack pointer is the one that the caller had before the call. -/
theorem switchTo_saved_rsp (outside : c.reg .rdi + 0x58#64 ≠ c.reg .rsp - 8#64) :
    (switchTo c).mem (c.reg .rdi + 0x58#64) = c.reg .rsp + 8#64 := by
  simp [switchTo, saveCode, restoreCode, runCode, contextOffset, BitVec.add_assoc, outside]

/-- The offsets from a process at which its registers are saved, the last one first. -/
def savedOffsets : List Nat :=
  [0xb0, 0x98, 0x90, 0x88, 0x80, 0x78, 0x70, 0x68, 0x60, 0x58, 0x50, 0x48, 0x40, 0x38, 0x30, 0x28, 0x20]

/-- The log of a call. -/
theorem switchTo_written (c : Core) : (switchTo c).written =
    (c.reg .rsp - 8#64) :: (c.reg .rdi + 0xb8#64) :: (c.reg .rsp - 8#64) ::
      savedOffsets.map fun k => c.reg .rdi + BitVec.ofNat 64 k := by
  simp [switchTo, saveCode, restoreCode, runCode, contextOffset, savedOffsets, BitVec.add_assoc]

/-- Every written cell is one of the saved registers or lies below the stack pointer. -/
theorem mem_switchTo_written (member : x ∈ (switchTo c).written) :
    (∃ k, 0x20 ≤ k ∧ k ≤ 0xb8 ∧ x = c.reg .rdi + BitVec.ofNat 64 k) ∨ x = c.reg .rsp - 8#64 := by
  rw [switchTo_written] at member
  simp only [List.mem_cons, List.mem_map] at member
  rcases member with pushed | last | pushed | ⟨k, listed, saved⟩
  · exact .inr pushed
  · exact .inl ⟨0xb8, by norm_num, by norm_num, last⟩
  · exact .inr pushed
  · have bounds : ∀ k ∈ savedOffsets, 0x20 ≤ k ∧ k ≤ 0xb8 := by decide
    exact .inl ⟨k, (bounds k listed).1, (bounds k listed).2, saved.symm⟩

/-- The cell at an offset of a placed process. -/
theorem Placed.cells {others : Word → Prop} {k : Nat} (placed : Placed prev sizeofProcess others)
    (inside : k < sizeofProcess) : Cells prev sizeofProcess (prev + BitVec.ofNat 64 k) := by
  have bounded := placed.bounded
  rw [sizeofProcess] at *
  rw [Cells]
  bv_omega

/-- Two placed processes are a whole process apart. -/
theorem Placed.distance {others : Word → Prop} (placed : Placed y sizeofProcess others)
    (other : ∀ x, Cells prev sizeofProcess x → others x) :
    y.toNat + sizeofProcess ≤ prev.toNat ∨ prev.toNat + sizeofProcess ≤ y.toNat := by
  have positive : 0 < sizeofProcess := by decide
  have first : ¬ Cells prev sizeofProcess y := fun inside =>
    placed.apart y ⟨Nat.le_refl _, Nat.lt_add_of_pos_right positive⟩ (other y inside)
  have second : ¬ Cells y sizeofProcess prev := fun inside =>
    placed.apart prev inside (other prev ⟨Nat.le_refl _, Nat.lt_add_of_pos_right positive⟩)
  rw [Cells] at first second
  omega

/-- The stack is apart from a process of the call. -/
theorem Layout.off_stack {k : Nat} (layout : Layout c onStack prev next) (inside : k < sizeofProcess)
    (pushed : onStack x) : prev + BitVec.ofNat 64 k ≠ x := by
  rintro rfl
  exact layout.prevPlaced.apart _ (layout.prevPlaced.cells inside) (.inr (.inr (.inr pushed)))

/-- A later switch from another process leaves the saved stack pointer of `prev`. -/
theorem Untouched.spares (untouched : Untouched c later onStack prev y) (layout : Layout c onStack prev next) :
    prev + 0x58#64 ∉ (switchTo later).written := by
  intro member
  rcases mem_switchTo_written member with ⟨k, lower, upper, same⟩ | same
  · have far := untouched.placed.distance fun x inside => .inl inside
    have bounded := untouched.placed.bounded
    have room := layout.prevPlaced.bounded
    rw [untouched.first] at same
    rw [sizeofProcess] at far bounded room
    bv_omega
  · exact layout.off_stack (by decide) untouched.pushRoom same

/-- The call always writes into the process. -/
theorem Layout.not_savesIntoContext (layout : Layout c onStack prev next) :
    ¬ SavesIntoContext c onStack prev next := by
  intro saves
  have written := switchTo_writes_process c
  rw [layout.first] at written
  have inside : Cells prev sizeofProcess (prev + 0x20#64) := layout.prevPlaced.cells (by decide)
  rcases saves.footprint _ written with context | stack
  · exact layout.prevPlaced.apart _ inside (.inr (.inl context))
  · exact layout.prevPlaced.apart _ inside (.inr (.inr (.inr stack)))

/-- A later call pops the saved stack pointer once more. -/
theorem Layout.later_rsp (layout : Layout c onStack prev next) (untouched : Untouched c later onStack prev y) :
    (switchTo later).reg .rsp = c.reg .rsp + 8#64 + 8#64 := by
  have inside : Cells prev sizeofProcess (prev + 0x58#64) := layout.prevPlaced.cells (by decide)
  have outside : c.reg .rdi + 0x58#64 ≠ c.reg .rsp - 8#64 := by
    rw [layout.first]
    exact layout.off_stack (by decide) layout.pushRoom
  have saved := switchTo_saved_rsp outside
  rw [layout.first] at saved
  have spared := (runCode_frame _ _).2 _ (untouched.spares layout)
  calc (switchTo later).reg .rsp
      = (switchTo later).mem (prev + 0x58#64) + 8#64 := by rw [switchTo_rsp, untouched.second]
    _ = later.mem (prev + 0x58#64) + 8#64 := congrArg (· + 8#64) spared
    _ = (switchTo c).mem (prev + 0x58#64) + 8#64 := by rw [untouched.process _ inside]
    _ = c.reg .rsp + 8#64 + 8#64 := by rw [saved]

/-- A later call of this kind exists: the next process switches back at once. -/
theorem Layout.untouched (layout : Layout c onStack prev next) : ∃ later y, Untouched c later onStack prev y := by
  refine ⟨((switchTo c).setReg .rdi next |>.setReg .rsi prev |>.setReg .rsp (c.reg .rsp)), next, rfl, rfl, ?_,
    layout.pushRoom, fun _ _ => rfl, fun _ _ => rfl, fun _ _ => rfl⟩
  refine ⟨layout.nextPlaced.bounded, ?_⟩
  rintro x inside (process | stack)
  · exact layout.prevPlaced.apart x process (.inl inside)
  · exact layout.nextPlaced.apart x inside (.inr (.inr stack))

end Code

/-- No call of `__switch_to` saves into the context, and no later call returns to where it was called. -/
theorem switchTo_never_returns (c : Core) (onStack : Word → Prop) (prev next : Word)
    (layout : Layout c onStack prev next) : ¬ SavesIntoContext c onStack prev next ∧
      (∃ later y, Untouched c later onStack prev y) ∧
      ∀ later y, Untouched c later onStack prev y → ¬ ReturnsTo c (switchTo later) := by
  refine ⟨layout.not_savesIntoContext, layout.untouched, ?_⟩
  intro later y untouched returns
  have high := layout.later_rsp untouched
  rw [returns.stack] at high
  bv_omega

/-- The sample has two processes, their contexts and one stack. -/
def sampleCore : Core where
  reg
    | .rdi => 0x1000
    | .rsi => 0x2000
    | .rsp => 0x9800
    | _ => 0
  rflags := 0x202
  rip := 0
  mem x := if x = 0x1020 then 0x3000 else if x = 0x2020 then 0x4000 else 0
  written := []

/-- The sample's stack is one page. -/
def sampleStack (x : Word) : Prop := 0x9000 ≤ x.toNat ∧ x.toNat < 0xa000

theorem sampleCore_layout : Layout sampleCore sampleStack 0x1000 0x2000 := by
  have prevContext : contextOf sampleCore 0x1000 = 0x3000 := by decide
  have nextContext : contextOf sampleCore 0x2000 = 0x4000 := by decide
  have top : sampleStack 0x9800 ∧ sampleStack 0x97f8 := by
    rw [sampleStack, sampleStack]
    decide
  refine ⟨rfl, rfl, ?_, ?_, ?_, ?_, top.1, top.2⟩
  all_goals
    simp only [prevContext, nextContext, sizeofProcess, sizeofContext]
    refine ⟨by decide, ?_⟩
    intro x inside
    simp only [Cells, sampleStack] at inside ⊢
    bv_omega

/-- The sample switches from the first process to the second one. -/
theorem switchTo_never_returns_sample : Layout sampleCore sampleStack 0x1000 0x2000 ∧
    ¬ SavesIntoContext sampleCore sampleStack 0x1000 0x2000 :=
  ⟨sampleCore_layout, (switchTo_never_returns _ _ _ _ sampleCore_layout).1⟩

/-- The switch of the sample overwrites the pointer to the context of the first process. -/
theorem switchTo_overwrites_process : ¬ ∀ c onStack prev next, Layout c onStack prev next →
    SavesIntoContext c onStack prev next ∧
      ∀ later y, Untouched c later onStack prev y → ReturnsTo c (switchTo later) := by
  intro all
  obtain ⟨saves, _⟩ := all sampleCore sampleStack 0x1000 0x2000 sampleCore_layout
  have kept := saves.fields 0x1020 (.inl (by rw [Cells]; decide))
  exact absurd kept (by decide +kernel)

end OsKernel.Switch
