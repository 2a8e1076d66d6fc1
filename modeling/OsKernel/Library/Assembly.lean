import Mathlib.Tactic

/-
This file gives a semantics to straight-line x86_64 code over a memory of 64-bit cells.
Every store is logged, so a cell that is not in the log is unchanged.
-/

namespace OsKernel.Library

/-- The general registers of x86_64. -/
inductive Reg
  | rax | rbx | rcx | rdx | rsi | rdi | rbp | rsp
  | r8 | r9 | r10 | r11 | r12 | r13 | r14 | r15
  deriving DecidableEq

abbrev Word := BitVec 64

/-- A core has registers, the memory, and the log of the written cells. -/
structure Core where
  reg : Reg → Word
  rflags : Word
  rip : Word
  mem : Word → Word
  written : List Word

def Core.setReg (c : Core) (r : Reg) (v : Word) : Core := { c with reg := Function.update c.reg r v }

def Core.write (c : Core) (a v : Word) : Core :=
  { c with mem := Function.update c.mem a v, written := a :: c.written }

/-- The instructions name their operands in the order of the assembler. -/
inductive Instr
  | addImm (imm : Word) (dst : Reg)
  | store (src : Reg) (offset : Word) (base : Reg)
  | load (offset : Word) (base dst : Reg)
  | move (src dst : Reg)
  | lea (offset : Word) (base dst : Reg)
  | pushq (src : Reg)
  | popq (dst : Reg)
  | pushfq
  | popfq
  | ret

/-- A push moves the stack pointer and writes the cell below. -/
def Core.push (c : Core) (v : Word) : Core := (c.setReg .rsp (c.reg .rsp - 8)).write (c.reg .rsp - 8) v

/-- The value on top of the stack, and the core after it is popped. -/
def Core.top (c : Core) : Word := c.mem (c.reg .rsp)

def Core.pop (c : Core) : Core := c.setReg .rsp (c.reg .rsp + 8)

def Instr.exec : Instr → Core → Core
  | .addImm imm dst, c => c.setReg dst (c.reg dst + imm)
  | .store src offset base, c => c.write (c.reg base + offset) (c.reg src)
  | .load offset base dst, c => c.setReg dst (c.mem (c.reg base + offset))
  | .move src dst, c => c.setReg dst (c.reg src)
  | .lea offset base dst, c => c.setReg dst (c.reg base + offset)
  | .pushq src, c => c.push (c.reg src)
  | .popq dst, c => c.pop.setReg dst c.top
  | .pushfq, c => c.push c.rflags
  | .popfq, c => { c.pop with rflags := c.top }
  | .ret, c => { c.pop with rip := c.top }

/-- The code runs from its first to its last instruction. -/
def runCode : List Instr → Core → Core
  | [], c => c
  | instr :: rest, c => runCode rest (instr.exec c)

/-- Two pieces of code run one after the other. -/
theorem runCode_append (first second : List Instr) (c : Core) :
    runCode (first ++ second) c = runCode second (runCode first c) := by
  induction first generalizing c with
  | nil => rfl
  | cons instr rest ih => exact ih (instr.exec c)

section Effects

variable {c : Core} {r s d b : Reg} {o v x : Word}

@[simp] theorem addImm_reg : (Instr.exec (.addImm v d) c).reg r = if r = d then c.reg d + v else c.reg r :=
  Function.update_apply _ _ _ _

@[simp] theorem addImm_mem : (Instr.exec (.addImm v d) c).mem = c.mem := rfl

@[simp] theorem addImm_written : (Instr.exec (.addImm v d) c).written = c.written := rfl

@[simp] theorem store_reg : (Instr.exec (.store s o b) c).reg = c.reg := rfl

@[simp] theorem store_mem :
    (Instr.exec (.store s o b) c).mem x = if x = c.reg b + o then c.reg s else c.mem x :=
  Function.update_apply _ _ _ _

@[simp] theorem store_written : (Instr.exec (.store s o b) c).written = (c.reg b + o) :: c.written := rfl

@[simp] theorem load_reg :
    (Instr.exec (.load o b d) c).reg r = if r = d then c.mem (c.reg b + o) else c.reg r :=
  Function.update_apply _ _ _ _

@[simp] theorem load_mem : (Instr.exec (.load o b d) c).mem = c.mem := rfl

@[simp] theorem load_written : (Instr.exec (.load o b d) c).written = c.written := rfl

@[simp] theorem move_reg : (Instr.exec (.move s d) c).reg r = if r = d then c.reg s else c.reg r :=
  Function.update_apply _ _ _ _

@[simp] theorem move_mem : (Instr.exec (.move s d) c).mem = c.mem := rfl

@[simp] theorem move_written : (Instr.exec (.move s d) c).written = c.written := rfl

@[simp] theorem lea_reg : (Instr.exec (.lea o b d) c).reg r = if r = d then c.reg b + o else c.reg r :=
  Function.update_apply _ _ _ _

@[simp] theorem lea_mem : (Instr.exec (.lea o b d) c).mem = c.mem := rfl

@[simp] theorem lea_written : (Instr.exec (.lea o b d) c).written = c.written := rfl

@[simp] theorem pushq_reg : (Instr.exec (.pushq s) c).reg r = if r = .rsp then c.reg .rsp - 8 else c.reg r :=
  Function.update_apply _ _ _ _

@[simp] theorem pushq_mem :
    (Instr.exec (.pushq s) c).mem x = if x = c.reg .rsp - 8 then c.reg s else c.mem x :=
  Function.update_apply _ _ _ _

@[simp] theorem pushq_written : (Instr.exec (.pushq s) c).written = (c.reg .rsp - 8) :: c.written := rfl

@[simp] theorem pushfq_reg : (Instr.exec .pushfq c).reg r = if r = .rsp then c.reg .rsp - 8 else c.reg r :=
  Function.update_apply _ _ _ _

@[simp] theorem pushfq_mem : (Instr.exec .pushfq c).mem x = if x = c.reg .rsp - 8 then c.rflags else c.mem x :=
  Function.update_apply _ _ _ _

@[simp] theorem pushfq_written : (Instr.exec .pushfq c).written = (c.reg .rsp - 8) :: c.written := rfl

@[simp] theorem popq_reg : (Instr.exec (.popq d) c).reg r =
    if r = d then c.mem (c.reg .rsp) else if r = .rsp then c.reg .rsp + 8 else c.reg r := by
  simp [Instr.exec, Core.pop, Core.top, Core.setReg, Function.update_apply]

@[simp] theorem popq_mem : (Instr.exec (.popq d) c).mem = c.mem := rfl

@[simp] theorem popq_written : (Instr.exec (.popq d) c).written = c.written := rfl

@[simp] theorem popfq_reg : (Instr.exec .popfq c).reg r = if r = .rsp then c.reg .rsp + 8 else c.reg r :=
  Function.update_apply _ _ _ _

@[simp] theorem popfq_mem : (Instr.exec .popfq c).mem = c.mem := rfl

@[simp] theorem popfq_written : (Instr.exec .popfq c).written = c.written := rfl

@[simp] theorem ret_reg : (Instr.exec .ret c).reg r = if r = .rsp then c.reg .rsp + 8 else c.reg r :=
  Function.update_apply _ _ _ _

@[simp] theorem ret_mem : (Instr.exec .ret c).mem = c.mem := rfl

@[simp] theorem ret_written : (Instr.exec .ret c).written = c.written := rfl

end Effects

/-- An instruction keeps the log, or logs the one cell that it writes. -/
theorem exec_frame (instr : Instr) (c : Core) : c.written ⊆ (instr.exec c).written ∧
    ∀ x, x ∉ (instr.exec c).written → (instr.exec c).mem x = c.mem x := by
  have stored (a v : Word) : c.written ⊆ a :: c.written ∧
      ∀ x, x ∉ a :: c.written → Function.update c.mem a v x = c.mem x := by
    refine ⟨List.subset_cons_self a c.written, ?_⟩
    intro x outside
    exact Function.update_of_ne (List.ne_of_not_mem_cons outside) _ _
  cases instr with
  | addImm imm dst => exact ⟨List.Subset.refl _, fun _ _ => rfl⟩
  | store src offset base => exact stored _ _
  | load offset base dst => exact ⟨List.Subset.refl _, fun _ _ => rfl⟩
  | move src dst => exact ⟨List.Subset.refl _, fun _ _ => rfl⟩
  | lea offset base dst => exact ⟨List.Subset.refl _, fun _ _ => rfl⟩
  | pushq src => exact stored _ _
  | popq dst => exact ⟨List.Subset.refl _, fun _ _ => rfl⟩
  | pushfq => exact stored _ _
  | popfq => exact ⟨List.Subset.refl _, fun _ _ => rfl⟩
  | ret => exact ⟨List.Subset.refl _, fun _ _ => rfl⟩

/-- A cell that is not in the log after a run has its old value. -/
theorem runCode_frame (code : List Instr) (c : Core) : c.written ⊆ (runCode code c).written ∧
    ∀ x, x ∉ (runCode code c).written → (runCode code c).mem x = c.mem x := by
  induction code generalizing c with
  | nil => exact ⟨List.Subset.refl _, fun _ _ => rfl⟩
  | cons instr rest ih =>
      obtain ⟨grows, kept⟩ := exec_frame instr c
      obtain ⟨more, same⟩ := ih (instr.exec c)
      refine ⟨List.Subset.trans grows more, ?_⟩
      intro x outside
      have before : x ∉ (instr.exec c).written := fun member => outside (more member)
      exact (same x outside).trans (kept x before)

end OsKernel.Library
