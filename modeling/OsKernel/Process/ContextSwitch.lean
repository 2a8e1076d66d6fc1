import OsKernel.Library.Assembly
import OsKernel.Process.Kernel

/-
This file models the register moves of `context_save`, `context_restore` and `context_switch`.
The pointer operand of the inline assembly is held outside the registers that it names.
-/

namespace OsKernel.Proc
open Library

/-- The segment registers. -/
inductive Seg
  | cs | ds | es | fs | gs | ss
  deriving DecidableEq

/-- The registers of the processor. At a call `rip` is the address of the instruction behind it. -/
structure Cpu where
  reg : Reg → Nat
  seg : Seg → Nat
  rip : Nat
  rflags : Nat

def Cpu.setReg (cpu : Cpu) (r : Reg) (v : Nat) : Cpu := { cpu with reg := Function.update cpu.reg r v }

def Cpu.setSeg (cpu : Cpu) (g : Seg) (v : Nat) : Cpu := { cpu with seg := Function.update cpu.seg g v }

/-- The general register of `struct context` at an offset. -/
def Context.load (c : Context) : Nat → Nat
  | 0 => c.rax
  | 8 => c.rbx
  | 16 => c.rcx
  | 24 => c.rdx
  | 32 => c.rsi
  | 40 => c.rdi
  | 48 => c.rbp
  | 56 => c.rsp
  | 64 => c.r8
  | 72 => c.r9
  | 80 => c.r10
  | 88 => c.r11
  | 96 => c.r12
  | 104 => c.r13
  | 112 => c.r14
  | 120 => c.r15
  | _ => 0

/-- A write to the general register of `struct context` at an offset. -/
def Context.store (c : Context) (v : Nat) : Nat → Context
  | 0 => { c with rax := v }
  | 8 => { c with rbx := v }
  | 16 => { c with rcx := v }
  | 24 => { c with rdx := v }
  | 32 => { c with rsi := v }
  | 40 => { c with rdi := v }
  | 48 => { c with rbp := v }
  | 56 => { c with rsp := v }
  | 64 => { c with r8 := v }
  | 72 => { c with r9 := v }
  | 80 => { c with r10 := v }
  | 88 => { c with r11 := v }
  | 96 => { c with r12 := v }
  | 104 => { c with r13 := v }
  | 112 => { c with r14 := v }
  | 120 => { c with r15 := v }
  | _ => c

/-- The moves of `context_save` from general registers to offsets. -/
def saveMoves : List (Reg × Nat) :=
  [(.rax, 0), (.rbx, 8), (.rcx, 16), (.rdx, 24), (.rsi, 32), (.rdi, 40), (.rbp, 48), (.rsp, 56),
   (.r8, 64), (.r9, 72), (.r10, 80), (.r11, 88), (.r12, 96), (.r13, 104), (.r14, 112), (.r15, 120)]

/-- The moves of `context_restore` from offsets to general registers. -/
def restoreMoves : List (Reg × Nat) :=
  [(.rax, 0), (.rbx, 8), (.rcx, 16), (.rdx, 24), (.rsi, 32), (.rdi, 40), (.r8, 64), (.r9, 72),
   (.r10, 80), (.r11, 88), (.r12, 96), (.r13, 104), (.r14, 112), (.r15, 120)]

/-- `context_save` stores the general registers, the segment registers and the flags. -/
def contextSave (cpu : Cpu) (c : Context) : Context :=
  let c := saveMoves.foldl (fun c move => c.store (cpu.reg move.1) move.2) c
  let c := { c with
    cs := cpu.seg .cs
    ds := cpu.seg .ds
    es := cpu.seg .es
    fs := cpu.seg .fs
    gs := cpu.seg .gs
    ss := cpu.seg .ss }
  { c with rflags := cpu.rflags }

/-- `context_restore` loads the registers and jumps to the saved `rip`. -/
def contextRestore (c : Context) (cpu : Cpu) : Cpu :=
  -- The four moves share one operand, which is the saved `ds`.
  let cpu := [Seg.ds, .es, .fs, .gs].foldl (fun cpu g => cpu.setSeg g c.ds) cpu
  let stackPtr := c.rsp
  let cpu := restoreMoves.foldl (fun cpu move => cpu.setReg move.1 (c.load move.2)) cpu
  let cpu := cpu.setReg .rax (c.load 48)
  let cpu := cpu.setReg .rbp (cpu.reg .rax)
  let cpu := cpu.setReg .rsp stackPtr
  let cpu := { cpu with rflags := c.rflags }
  { cpu with rip := c.rip }

/-- `context_switch` saves into the first context and restores the second one. -/
def contextSwitch (a b : Addr) (cpu : Cpu) (contexts : Addr → Context) : Cpu × (Addr → Context) :=
  let contexts := Function.update contexts a (contextSave cpu (contexts a))
  (contextRestore (contexts b) cpu, contexts)

/-- The registers that a call preserves. -/
def calleeSaved : List Reg := [.rbx, .rbp, .rsp, .r12, .r13, .r14, .r15]

/-- The data segment registers. -/
def dataSegments : List Seg := [.ds, .es, .fs, .gs]

/-- The processor continues behind the call with the registers of that time. -/
structure Resumed (cpu final : Cpu) : Prop where
  place : final.rip = cpu.rip
  registers : ∀ r ∈ calleeSaved, final.reg r = cpu.reg r
  flags : final.rflags = cpu.rflags
  segments : ∀ g ∈ dataSegments, final.seg g = cpu.seg g

/-- Every later switch to the saved context resumes it, whatever happens to other contexts. -/
def SwitchesBack (cpu : Cpu) (contexts : Addr → Context) (a b : Addr) : Prop :=
  ∀ x later contexts', x ≠ a → contexts' a = (contextSwitch a b cpu contexts).2 a →
    Resumed cpu (contextSwitch x a later contexts').1

section Moves

variable {cpu later : Cpu} {c : Context} {contexts : Addr → Context} {a b x : Addr}

/-- A saved context holds the registers, but its old `rip`. -/
theorem contextSave_eq : contextSave cpu c = ⟨cpu.reg .rax, cpu.reg .rbx, cpu.reg .rcx, cpu.reg .rdx, cpu.reg .rsi,
    cpu.reg .rdi, cpu.reg .rbp, cpu.reg .rsp, cpu.reg .r8, cpu.reg .r9, cpu.reg .r10, cpu.reg .r11, cpu.reg .r12,
    cpu.reg .r13, cpu.reg .r14, cpu.reg .r15, cpu.seg .cs, cpu.seg .ds, cpu.seg .es, cpu.seg .fs, cpu.seg .gs,
    cpu.seg .ss, c.rip, cpu.rflags⟩ := by
  simp only [contextSave, saveMoves, List.foldl_cons, List.foldl_nil, Context.store]

/-- The preserved registers are restored from their own fields. -/
theorem contextRestore_registers {r : Reg} (preserved : r ∈ calleeSaved) :
    (contextRestore (contextSave cpu c) later).reg r = cpu.reg r := by
  rw [contextSave_eq]
  simp only [calleeSaved, List.mem_cons, List.not_mem_nil, or_false] at preserved
  rcases preserved with rfl | rfl | rfl | rfl | rfl | rfl | rfl <;> rfl

/-- All data segments are restored from one field. -/
theorem contextRestore_segments {g : Seg} (loaded : g ∈ dataSegments) :
    (contextRestore (contextSave cpu c) later).seg g = cpu.seg .ds := by
  rw [contextSave_eq]
  simp only [dataSegments, List.mem_cons, List.not_mem_nil, or_false] at loaded
  rcases loaded with rfl | rfl | rfl | rfl <;> rfl

/-- The jump goes to the old `rip`, and the flags are restored. -/
theorem contextRestore_rip : (contextRestore (contextSave cpu c) later).rip = c.rip := by
  rw [contextSave_eq]
  rfl

theorem contextRestore_rflags : (contextRestore (contextSave cpu c) later).rflags = cpu.rflags := by
  rw [contextSave_eq]
  rfl

/-- The state after a later switch to the saved context. -/
theorem contextSwitch_back {contexts' : Addr → Context} (other : x ≠ a)
    (kept : contexts' a = (contextSwitch a b cpu contexts).2 a) :
    (contextSwitch x a later contexts').1 = contextRestore (contextSave cpu (contexts a)) later := by
  have saved : (contextSwitch a b cpu contexts).2 a = contextSave cpu (contexts a) := Function.update_self _ _ _
  change contextRestore (Function.update contexts' x _ a) later = _
  rw [Function.update_of_ne other.symm, kept, saved]

/-- A restored context resumes the call exactly when its old `rip` and the segments fit. -/
theorem resumed_iff : Resumed cpu (contextRestore (contextSave cpu c) later) ↔
    c.rip = cpu.rip ∧ cpu.seg .es = cpu.seg .ds ∧ cpu.seg .fs = cpu.seg .ds ∧ cpu.seg .gs = cpu.seg .ds := by
  constructor
  · rintro ⟨place, _, _, segments⟩
    have loaded (g : Seg) (member : g ∈ dataSegments) : cpu.seg g = cpu.seg .ds := by
      rw [← segments g member, contextRestore_segments member]
    rw [contextRestore_rip] at place
    exact ⟨place, loaded .es (by decide), loaded .fs (by decide), loaded .gs (by decide)⟩
  · rintro ⟨place, extra, first, second⟩
    refine ⟨contextRestore_rip.trans place, fun r preserved => contextRestore_registers preserved,
      contextRestore_rflags, ?_⟩
    intro g member
    rw [contextRestore_segments member]
    simp only [dataSegments, List.mem_cons, List.not_mem_nil, or_false] at member
    rcases member with rfl | rfl | rfl | rfl
    · rfl
    · exact extra.symm
    · exact first.symm
    · exact second.symm

end Moves

/-- `context_switch` resumes exactly when the context already held the place and all data segments agree. -/
theorem contextSwitch_switchesBack_iff (cpu : Cpu) (contexts : Addr → Context) (a b : Addr) :
    SwitchesBack cpu contexts a b ↔ (contexts a).rip = cpu.rip ∧
      cpu.seg .es = cpu.seg .ds ∧ cpu.seg .fs = cpu.seg .ds ∧ cpu.seg .gs = cpu.seg .ds := by
  constructor
  · intro back
    have resumed := back (a + 1) cpu (contextSwitch a b cpu contexts).2 (Nat.succ_ne_self a) rfl
    rw [contextSwitch_back (Nat.succ_ne_self a) rfl] at resumed
    exact resumed_iff.mp resumed
  · intro fits x later contexts' other kept
    rw [contextSwitch_back other kept]
    exact resumed_iff.mpr fits

/-- A process that was started once is started again by the second switch to it. -/
theorem contextSwitch_restarts : ¬ ∀ (cpu : Cpu) (contexts : Addr → Context) (a b : Addr), a ≠ b →
    SwitchesBack cpu contexts a b := by
  intro all
  let cpu : Cpu := ⟨fun _ => 0, fun _ => 0x10, 0x2005, 0x202⟩
  have back := all cpu (fun _ => contextInit 0x1000 0 0x9000) 1 2 (by decide)
  have place := (back 2 cpu _ (by decide) rfl).place
  exact absurd place (by decide)

end OsKernel.Proc
